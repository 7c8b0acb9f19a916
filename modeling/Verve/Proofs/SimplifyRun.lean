import Verve.Proofs.Relabel

/-!
# Simplifying ends

`Scopes.Simplifies s i r t u` is a finished run of the simplifier: the rules it follows at a
type, one per case, with `r` the names being followed. A generic or an interface parameter
that is being followed is left as it is; a name is followed by simplifying its binding with the
name added to `r`, and dropped from it again when that is done, so that the parts of an
application are all simplified with the same names being followed. No rule reads a measure
or a fuel: a run is finished because its derivation is.

For all scopes and every type there is such a run, and only one: the one that ends in what
`Scopes.simplify` returns (`Scopes.simplify_terminates`). So simplifying ends however the
bindings go round, generic to generic (`A` bound to `B` and `B` to `A`), through an
application (`A` bound to `List<A>`), or from interface to interface through their parameters.
Each name followed is one not yet followed that has a binding, and an application is split
into smaller types, which is the measure `Scopes.simplifyWith` is defined by.
-/

namespace Verve

namespace Scopes

variable (s : Scopes) (i : Nat)

/-- A finished run of the simplifier in frame `i` while the names `r` are being followed:
simplifying `t` gives `u`. -/
inductive Simplifies : List String → Ty → Ty → Prop
  /-- A generic being followed is left as it is. -/
  | genericCut {r : List String} {n : String} : n ∈ r → Simplifies r (.generic n) (.generic n)
  /-- A generic without a binding is left as it is. -/
  | genericFree {r : List String} {n : String} : n ∉ r → s.get i n = none →
      Simplifies r (.generic n) (.generic n)
  /-- A generic bound to itself is left as it is. -/
  | genericSelf {r : List String} {n : String} {b : Ty} : n ∉ r → s.get i n = some b →
      b.isGenericNamed n = true → Simplifies r (.generic n) (.generic n)
  /-- A generic bound to another type gives that type, simplified while following the
  generic. -/
  | genericFollow {r : List String} {n : String} {b u : Ty} : n ∉ r → s.get i n = some b →
      b.isGenericNamed n = false → Simplifies (n :: r) b u → Simplifies r (.generic n) u
  /-- An application is simplified part by part, each part with the names being followed. -/
  | app {r : List String} {h h' : Ty} {args : List Ty} (g : Ty → Ty) : Simplifies r h h' →
      (∀ a ∈ args, Simplifies r a (g a)) → Simplifies r (.app h args) (.app h' (args.map g))
  /-- An interface whose parameter is being followed is left as it is. -/
  | ifaceCut {r : List String} {ref : IfaceRef} : ref.generic ∈ r →
      Simplifies r (.iface ref) (.iface ref)
  /-- An interface whose parameter has no binding is left as it is. -/
  | ifaceFree {r : List String} {ref : IfaceRef} : ref.generic ∉ r →
      s.get i ref.generic = none → Simplifies r (.iface ref) (.iface ref)
  /-- An interface whose parameter is bound to a generic or to the interface is left as it
  is. -/
  | ifaceKept {r : List String} {ref : IfaceRef} {b : Ty} : ref.generic ∉ r →
      s.get i ref.generic = some b → (b.isGeneric || b.same (.iface ref)) = true →
      Simplifies r (.iface ref) (.iface ref)
  /-- An interface whose parameter is bound to another type gives that type, simplified while
  following the parameter. -/
  | ifaceFollow {r : List String} {ref : IfaceRef} {b u : Ty} : ref.generic ∉ r →
      s.get i ref.generic = some b → (b.isGeneric || b.same (.iface ref)) = false →
      Simplifies (ref.generic :: r) b u → Simplifies r (.iface ref) u
  /-- Every other type is left as it is. -/
  | keep {r : List String} {t : Ty} : (∀ n, t ≠ .generic n) → (∀ h as, t ≠ .app h as) →
      (∀ ref, t ≠ .iface ref) → Simplifies r t t

variable {s i}

/-- A stable type is simplified to itself, whatever names are being followed. -/
theorem simplifies_of_stable (r : List String) : ∀ t : Ty, t.stable = true → s.Simplifies i r t t
  | .basic _, _ => .keep (by simp) (by simp) (by simp)
  | .fn .., _ => .keep (by simp) (by simp) (by simp)
  | .enum _, _ => .keep (by simp) (by simp) (by simp)
  | .data _, _ => .keep (by simp) (by simp) (by simp)
  | .ctor .., _ => .keep (by simp) (by simp) (by simp)
  | .generic _, h => by simp [Ty.stable] at h
  | .iface _, h => by simp [Ty.stable] at h
  | .app h args, hs => by
    rw [Ty.stable, Bool.and_eq_true, Ty.stableList_iff] at hs
    have hargs : ∀ a ∈ args, s.Simplifies i r a (id a) := fun a ha =>
      have := List.sizeOf_lt_of_mem ha
      simplifies_of_stable r a (hs.2 a ha)
    simpa using Simplifies.app id (simplifies_of_stable r h hs.1) hargs
termination_by t => sizeOf t

/-- **Simplifying is a finished run**: what `simplifyWith` returns is the end of a run of the
simplifier's rules. The induction follows `simplifyWith`, whose measure is the number of bound
names not being followed, then the size of the type. -/
theorem simplifies_simplifyWith (r : List String) (t : Ty) :
    s.Simplifies i r t (s.simplifyWith i r t) := by
  fun_induction s.simplifyWith i r t with
  | case1 r n hn => exact .genericCut (by simpa using hn)
  | case2 r n hn b hb hself => exact .genericSelf (by simpa using hn) hb hself
  | case3 r n hn b hb hng hst =>
    exact .genericFollow (by simpa using hn) hb (by simpa using hng) (simplifies_of_stable _ b hst)
  | case4 r n hn b hb hng _ ih => exact .genericFollow (by simpa using hn) hb (by simpa using hng) ih
  | case5 r n hn hb => exact .genericFree (by simpa using hn) hb
  | case6 r h args ih ihargs =>
    simp only [List.map_subtype, List.unattach_attach]
    exact .app (s.simplifyWith i r) ih ihargs
  | case7 r ref hn => exact .ifaceCut (by simpa using hn)
  | case8 r ref hn b hb hkept => exact .ifaceKept (by simpa using hn) hb hkept
  | case9 r ref hn b hb hkept hst =>
    exact .ifaceFollow (by simpa using hn) hb (by simpa using hkept) (simplifies_of_stable _ b hst)
  | case10 r ref hn b hb hkept _ ih =>
    exact .ifaceFollow (by simpa using hn) hb (by simpa using hkept) ih
  | case11 r ref hn hb => exact .ifaceFree (by simpa using hn) hb
  | case12 r t hg ha hi => exact .keep hg ha hi

/-- **A run ends where `simplifyWith` does**: the rules leave no choice. A binding that is
stable is returned as it is, which is what a run that goes on into it gives. -/
theorem Simplifies.eq_simplifyWith {r : List String} {t u : Ty} (h : s.Simplifies i r t u) :
    u = s.simplifyWith i r t := by
  induction h with
  | genericCut hn => rw [simplifyWith_generic_of_contains s i (by simpa using hn)]
  | genericFree hn hb => rw [simplifyWith_generic_of_get_none s i (by simpa using hn) hb]
  | genericSelf hn hb hself =>
    rw [simplifyWith_generic_of_get s i (by simpa using hn) hb, if_pos hself]
  | @genericFollow r n b u hn hb hng _ ih =>
    rw [simplifyWith_generic_of_get s i (by simpa using hn) hb, if_neg (by simp [hng])]
    split
    · rename_i hst
      rw [ih, simplifyWith_of_stable s i _ b hst]
    · exact ih
  | @app r h h' args g _ _ ih ihargs =>
    rw [simplifyWith_app, ih, List.map_congr_left ihargs]
  | ifaceCut hn => rw [simplifyWith_iface_of_contains s i (by simpa using hn)]
  | ifaceFree hn hb => rw [simplifyWith_iface_of_get_none s i (by simpa using hn) hb]
  | ifaceKept hn hb hkept =>
    rw [simplifyWith_iface_of_get s i (by simpa using hn) hb, if_pos hkept]
  | @ifaceFollow r ref b u hn hb hkept _ ih =>
    rw [simplifyWith_iface_of_get s i (by simpa using hn) hb, if_neg (by simp [hkept])]
    split
    · rename_i hst
      rw [ih, simplifyWith_of_stable s i _ b hst]
    · exact ih
  | keep hg ha hi => rw [simplifyWith_other s i hg ha hi]

/-- **Simplifying terminates**: in all scopes, for every type, the simplifier's rules, starting
with no name being followed, make a finished run, and every such run ends in what `simplify`
returns. Cycles of bindings, directly or through applications or interface parameters, are
cut where a name comes round again. -/
theorem simplify_terminates (s : Scopes) (i : Nat) (t : Ty) :
    s.Simplifies i [] t (s.simplify i t) ∧ ∀ u, s.Simplifies i [] t u → u = s.simplify i t := by
  rw [simplify_eq_simplifyWith]
  exact ⟨simplifies_simplifyWith [] t, fun _ h => h.eq_simplifyWith⟩

end Scopes

end Verve
