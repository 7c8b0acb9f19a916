import Mathlib.Algebra.Order.BigOperators.Group.List
import Mathlib.Algebra.Order.Group.Nat
import Verve.Proofs.Unify

/-!
# Simplifying twice

Simplifying follows a name's binding and leaves a name it comes round to as it is. When the way
round passes through an application, the name left stands inside the type the binding gave,
and simplifying the result again follows it once more: with `A` bound to `List<A>`, `A`
simplifies to `List<A>` and `List<A>` to `List<List<A>>`
(`Scopes.simplify_twice_of_self_application`). Unifying `A` with `List<A>` makes that binding,
since nothing stops a name from being bound to a type that holds it
(`View.unify_binds_self_application`).

Simplifying is idempotent when no way round passes through an application
(`Scopes.simplify_idempotent_of_ranked`). Ranks `ρ` of the names say so (`Scopes.Ranked`): a
name bound to a generic or an interface reaches a name of rank at most its own, and each name
its binding holds inside an application has a smaller rank. Bindings that go round generic to
generic (`A` bound to `B` and `B` to `A`), or from a parameter to its interface, are ranked.
The proof rests on two facts:
* below a rank, which names are being followed does not matter
  (`Scopes.simplifyWith_congr_of_ranksBelow`);
* while a name is followed along generics and interface parameters, each name being followed
  simplifies, from scratch, to what the name reached does (`Scopes.Retraces`); so where a name
  comes round, what is left simplifies to itself.
-/

namespace Verve

namespace Ty

mutual

/-- The generics and interface parameters that simplifying a type reads: those outside
function and constructor types. -/
def readNames : Ty → List String
  | .basic _ => []
  | .generic n => [n]
  | .app h as => readNames h ++ readNamesList as
  | .fn .. => []
  | .iface r => [r.generic]
  | .enum _ => []
  | .data _ => []
  | .ctor .. => []

/-- `readNames` of every member of a list, one after another. -/
def readNamesList : List Ty → List String
  | [] => []
  | t :: ts => readNames t ++ readNamesList ts

end

theorem mem_readNamesList {x : String} :
    (ts : List Ty) → x ∈ readNamesList ts ↔ ∃ t ∈ ts, x ∈ readNames t := by
  intro ts
  induction ts with
  | nil => simp [readNamesList]
  | cons t ts ih => simp [readNamesList, ih]

variable (ρ : String → Nat)

/-- Every name that simplifying reads in `t` has rank below `k`. -/
def RanksBelow (k : Nat) (t : Ty) : Prop := ∀ x ∈ t.readNames, ρ x < k

/-- `t` may be bound to a name of rank `k`: it is a generic or an interface whose parameter has
rank at most `k`, or every name simplifying reads in it has rank below `k`. -/
def RankedAt (k : Nat) : Ty → Prop
  | .generic n => ρ n ≤ k
  | .iface r => ρ r.generic ≤ k
  | .app h as => (Ty.app h as).RanksBelow ρ k
  | .basic _ | .fn .. | .enum _ | .data _ | .ctor .. => True

variable {ρ}

theorem RanksBelow.mono {k k' : Nat} {t : Ty} (h : t.RanksBelow ρ k) (hk : k ≤ k') :
    t.RanksBelow ρ k' :=
  fun x hx => Nat.lt_of_lt_of_le (h x hx) hk

theorem RanksBelow.generic {k : Nat} {n : String} (ht : (Ty.generic n).RanksBelow ρ k) :
    ρ n < k :=
  ht n (by simp [readNames])

theorem RanksBelow.iface {k : Nat} {r : IfaceRef} (ht : (Ty.iface r).RanksBelow ρ k) :
    ρ r.generic < k :=
  ht r.generic (by simp [readNames])

theorem RanksBelow.head {k : Nat} {h : Ty} {as : List Ty} (ht : (Ty.app h as).RanksBelow ρ k) :
    h.RanksBelow ρ k :=
  fun x hx => ht x (by simp [readNames, hx])

theorem RanksBelow.arg {k : Nat} {h a : Ty} {as : List Ty} (ht : (Ty.app h as).RanksBelow ρ k)
    (ha : a ∈ as) : a.RanksBelow ρ k :=
  fun x hx => ht x (by
    simp only [readNames, List.mem_append, mem_readNamesList]
    exact .inr ⟨a, ha, hx⟩)

/-- A type that may be bound to a name of rank `m` reads only names of rank below any `k`
above `m`. -/
theorem RankedAt.ranksBelow {m k : Nat} (hm : m < k) : ∀ {t : Ty}, t.RankedAt ρ m →
    t.RanksBelow ρ k
  | .generic n, h => by simpa [RanksBelow, readNames, RankedAt] using Nat.lt_of_le_of_lt h hm
  | .iface r, h => by simpa [RanksBelow, readNames, RankedAt] using Nat.lt_of_le_of_lt h hm
  | .app _ _, h => RanksBelow.mono h (Nat.le_of_lt hm)
  | .basic _, _ | .fn .., _ | .enum _, _ | .data _, _ | .ctor .., _ => by simp [RanksBelow, readNames]

/-- Every type reads finitely many names, so some rank is above all of them. -/
theorem exists_ranksBelow (ρ : String → Nat) (t : Ty) : ∃ k, t.RanksBelow ρ k :=
  ⟨(t.readNames.map ρ).sum + 1, fun _ hx =>
    Nat.lt_succ_of_le (List.single_le_sum (fun _ _ => Nat.zero_le _) _ (List.mem_map_of_mem hx))⟩

end Ty

namespace Scopes

/-- **Ranked bindings.** Ranks `ρ` order the bindings seen from frame `i`: a name bound to a
generic or an interface reaches a name of rank at most its own, and every name its binding holds
inside an application has a smaller rank. So no way round the bindings passes through an
application. -/
def Ranked (s : Scopes) (i : Nat) (ρ : String → Nat) : Prop :=
  ∀ n b, s.get i n = some b → b.RankedAt ρ (ρ n)

variable {s : Scopes} {i : Nat} {ρ : String → Nat}

/-- **Below a rank, only the names below it being followed matter.** Simplifying a type whose
names read rank below `k` follows only names of rank below `k`, so two lists of names being
followed that agree below `k` simplify it alike. -/
theorem simplifyWith_congr_of_ranksBelow (hs : s.Ranked i ρ) {k : Nat} (r : List String)
    (t : Ty) : t.RanksBelow ρ k → ∀ r' : List String,
      (∀ x, ρ x < k → (x ∈ r' ↔ x ∈ r)) →
      s.simplifyWith i r' t = s.simplifyWith i r t := by
  -- the induction follows `simplifyWith` at `r`; each name it looks at has rank below `k`, so
  -- it is followed at `r'` exactly when at `r`, and its binding reads names below `k` again
  fun_induction s.simplifyWith i r t with
  | case1 r n hn =>
    intro ht r' hr
    have hn' : n ∈ r' := (hr n ht.generic).2 (by simpa using hn)
    rw [simplifyWith_generic_of_contains s i (by simpa using hn')]
  | case2 r n hn b hb hself =>
    intro ht r' hr
    have hn' : r'.contains n = false := by simpa [hr n ht.generic] using hn
    rw [simplifyWith_generic_of_get s i hn' hb, if_pos hself]
  | case3 r n hn b hb hng hst =>
    intro ht r' hr
    have hn' : r'.contains n = false := by simpa [hr n ht.generic] using hn
    rw [simplifyWith_generic_of_get s i hn' hb, if_neg hng, if_pos hst]
  | case4 r n hn b hb hng hst ih =>
    intro ht r' hr
    have hρ : ρ n < k := ht.generic
    have hn' : r'.contains n = false := by simpa [hr n hρ] using hn
    rw [simplifyWith_generic_of_get s i hn' hb, if_neg hng, if_neg hst]
    exact ih ((hs n b hb).ranksBelow hρ) (n :: r') fun x hx => by simp [hr x hx]
  | case5 r n hn hb =>
    intro ht r' hr
    have hn' : r'.contains n = false := by simpa [hr n ht.generic] using hn
    rw [simplifyWith_generic_of_get_none s i hn' hb]
  | case6 r h args ih ihargs =>
    intro ht r' hr
    simp only [List.map_subtype, List.unattach_attach]
    rw [simplifyWith_app, ih ht.head r' hr]
    exact congrArg _ (List.map_congr_left fun a ha => ihargs a ha (ht.arg ha) r' hr)
  | case7 r ref hn =>
    intro ht r' hr
    have hn' : ref.generic ∈ r' := (hr ref.generic ht.iface).2 (by simpa using hn)
    rw [simplifyWith_iface_of_contains s i (by simpa using hn')]
  | case8 r ref hn b hb hkept =>
    intro ht r' hr
    have hn' : r'.contains ref.generic = false := by simpa [hr ref.generic ht.iface] using hn
    rw [simplifyWith_iface_of_get s i hn' hb, if_pos hkept]
  | case9 r ref hn b hb hkept hst =>
    intro ht r' hr
    have hn' : r'.contains ref.generic = false := by simpa [hr ref.generic ht.iface] using hn
    rw [simplifyWith_iface_of_get s i hn' hb, if_neg hkept, if_pos hst]
  | case10 r ref hn b hb hkept hst ih =>
    intro ht r' hr
    have hρ : ρ ref.generic < k := ht.iface
    have hn' : r'.contains ref.generic = false := by simpa [hr ref.generic hρ] using hn
    rw [simplifyWith_iface_of_get s i hn' hb, if_neg hkept, if_neg hst]
    exact ih ((hs _ b hb).ranksBelow hρ) (ref.generic :: r') fun x hx => by simp [hr x hx]
  | case11 r ref hn hb =>
    intro ht r' hr
    have hn' : r'.contains ref.generic = false := by simpa [hr ref.generic ht.iface] using hn
    rw [simplifyWith_iface_of_get_none s i hn' hb]
  | case12 r t hg ha hi => intro _ r' _; exact simplifyWith_other s i hg ha hi

/-- An interface whose parameter is bound to neither a generic nor the interface simplifies as
the parameter does. -/
theorem simplifyWith_iface_eq_generic {r : List String} {ref : IfaceRef} {b : Ty}
    (hr : r.contains ref.generic = false) (hb : s.get i ref.generic = some b)
    (hkept : (b.isGeneric || b.same (.iface ref)) = false) :
    s.simplifyWith i r (.iface ref) = s.simplifyWith i r (.generic ref.generic) := by
  have hng : b.isGenericNamed ref.generic = false := by
    cases b <;> simp_all [Ty.isGeneric, Ty.isGenericNamed]
  rw [simplifyWith_iface_of_get s i hr hb, simplifyWith_generic_of_get s i hr hb,
    if_neg (show ¬ (b.isGeneric || b.same (.iface ref)) = true by simp [hkept]),
    if_neg (show ¬ b.isGenericNamed ref.generic = true by simp [hng])]

/-- An application whose parts simplify to themselves does. -/
theorem simplify_app_of_parts {h : Ty} {as : List Ty} (hh : s.simplify i h = h)
    (has : ∀ a ∈ as, s.simplify i a = a) : s.simplify i (.app h as) = .app h as := by
  rw [simplify_eq_simplifyWith, simplifyWith_app, ← simplify_eq_simplifyWith, hh]
  exact congrArg _ ((List.map_congr_left (g := id) fun a ha => by
    rw [← simplify_eq_simplifyWith, has a ha]; rfl).trans (List.map_id as))

/-- A stable type simplifies to itself, so simplifying it twice changes nothing. -/
theorem simplify_simplify_of_stable {t : Ty} (h : t.stable = true) :
    s.simplify i (s.simplify i t) = s.simplify i t := by
  rw [simplify_eq_simplifyWith s i t, simplifyWith_of_stable s i [] t h, simplify_eq_simplifyWith,
    simplifyWith_of_stable s i [] t h]

/-! ### Following a way round -/

/-- Each name being followed simplifies, from scratch, to what `t` does while some of the names
followed, itself among them, are. -/
def Retraces (s : Scopes) (i : Nat) (r : List String) (t : Ty) : Prop :=
  ∀ x ∈ r, ∃ r' : List String, (∀ y ∈ r', y ∈ r) ∧ x ∈ r' ∧
    s.simplify i (.generic x) = s.simplifyWith i r' t

theorem retraces_nil (t : Ty) : s.Retraces i [] t := fun _ hx => absurd hx List.not_mem_nil

/-- Following a generic to its binding keeps `Retraces`: the generic simplifies from scratch to
its binding followed from it, and so does each name before it. -/
theorem Retraces.follow {r : List String} {n : String} {b : Ty} (h : s.Retraces i r (.generic n))
    (hn : r.contains n = false) (hb : s.get i n = some b) (hng : b.isGenericNamed n = false)
    (hst : b.stable = false) : s.Retraces i (n :: r) b := by
  intro x hx
  rcases List.mem_cons.1 hx with rfl | hx
  · refine ⟨[x], by simp, List.mem_cons_self, ?_⟩
    rw [simplify_eq_simplifyWith, simplifyWith_generic_of_get s i rfl hb, if_neg (by simp [hng]),
      if_neg (by simp [hst])]
  · obtain ⟨r', hsub, hx', he⟩ := h x hx
    have hn' : r'.contains n = false := by
      simpa using fun h' => (by simpa using hn : n ∉ r) (hsub n h')
    refine ⟨n :: r', fun y hy => ?_, List.mem_cons_of_mem _ hx', ?_⟩
    · rcases List.mem_cons.1 hy with rfl | hy
      · exact List.mem_cons_self
      · exact List.mem_cons_of_mem _ (hsub y hy)
    · rw [he, simplifyWith_generic_of_get s i hn' hb, if_neg (by simp [hng]),
        if_neg (by simp [hst])]

/-- Following an interface's parameter to its binding keeps `Retraces`. -/
theorem Retraces.followIface {r : List String} {ref : IfaceRef} {b : Ty}
    (h : s.Retraces i r (.iface ref)) (hn : r.contains ref.generic = false)
    (hb : s.get i ref.generic = some b) (hkept : (b.isGeneric || b.same (.iface ref)) = false)
    (hst : b.stable = false) : s.Retraces i (ref.generic :: r) b := by
  have hg : s.Retraces i r (.generic ref.generic) := by
    intro x hx
    obtain ⟨r', hsub, hx', he⟩ := h x hx
    have hn' : r'.contains ref.generic = false := by
      simpa using fun h' => (by simpa using hn : ref.generic ∉ r) (hsub _ h')
    exact ⟨r', hsub, hx', he.trans (simplifyWith_iface_eq_generic hn' hb hkept)⟩
  have hng : b.isGenericNamed ref.generic = false := by
    cases b <;> simp_all [Ty.isGeneric, Ty.isGenericNamed]
  exact hg.follow hn hb hng hst

/-- **Where a way round ends, simplifying again changes nothing.** Simplify a type that may be
bound to a name of rank `m`, while names of rank at least `m` that it retraces are followed. A
name left where it came round simplifies, from scratch, the way round again to itself; an
interface left there, to itself through its parameter; and an application reached is simplified
part by part below `m`, as from scratch, where `hT` says simplifying twice changes nothing. -/
theorem simplify_simplifyWith_of_retraces (hs : s.Ranked i ρ) {m₀ : Nat}
    (hT : ∀ t : Ty, t.RanksBelow ρ m₀ → s.simplify i (s.simplify i t) = s.simplify i t)
    (r : List String) (t : Ty) : ∀ m, m ≤ m₀ → t.RankedAt ρ m →
      (∀ x ∈ r, m ≤ ρ x) → s.Retraces i r t →
      s.simplify i (s.simplifyWith i r t) = s.simplifyWith i r t := by
  -- the induction follows `simplifyWith`; a name followed has rank at most `m` and becomes
  -- the new `m`, so the names being followed always rank at least `m`
  fun_induction s.simplifyWith i r t with
  | case1 r n hn =>
    intro m _ _ _ hret
    obtain ⟨r', _, hn', he⟩ := hret n (by simpa using hn)
    rw [he, simplifyWith_generic_of_contains s i (by simpa using hn')]
  | case2 r n hn b hb hself =>
    intro _ _ _ _ _
    rw [simplify_eq_simplifyWith, simplifyWith_generic_of_get s i rfl hb, if_pos hself]
  | case3 r n hn b hb hng hst =>
    intro _ _ _ _ _
    rw [simplify_eq_simplifyWith, simplifyWith_of_stable s i [] b hst]
  | case4 r n hn b hb hng hst ih =>
    intro m hm ht hr hret
    have hnm : ρ n ≤ m := ht
    refine ih (ρ n) (Nat.le_trans hnm hm) (hs n b hb) (fun x hx => ?_)
      (hret.follow (by simpa using hn) hb (by simpa using hng) (by simpa using hst))
    rcases List.mem_cons.1 hx with rfl | hx
    · exact Nat.le_refl _
    · exact Nat.le_trans hnm (hr x hx)
  | case5 r n hn hb =>
    intro _ _ _ _ _
    rw [simplify_eq_simplifyWith, simplifyWith_generic_of_get_none s i rfl hb]
  | case6 r h args _ _ =>
    intro m hm ht hr _
    -- below `m` no name is being followed, so the parts simplify as from scratch
    have hfree : ∀ a : Ty, a.RanksBelow ρ m → s.simplifyWith i r a = s.simplify i a := by
      intro a ha
      rw [simplify_eq_simplifyWith]
      exact simplifyWith_congr_of_ranksBelow hs [] a ha r fun x hx =>
        ⟨fun hxr => absurd (hr x hxr) (Nat.not_le_of_lt hx), fun h => absurd h List.not_mem_nil⟩
    have ht' : (Ty.app h args).RanksBelow ρ m := ht
    simp only [List.map_subtype, List.unattach_attach]
    rw [hfree h ht'.head, List.map_congr_left fun a ha => hfree a (ht'.arg ha)]
    refine simplify_app_of_parts (hT h (ht'.head.mono hm)) fun a ha => ?_
    obtain ⟨a', ha', rfl⟩ := List.mem_map.1 ha
    exact hT a' ((ht'.arg ha').mono hm)
  | case7 r ref hn =>
    intro _ _ _ _ hret
    obtain ⟨r', _, hn', he⟩ := hret ref.generic (by simpa using hn)
    rw [simplifyWith_iface_of_contains s i (by simpa using hn')] at he
    -- the parameter simplifies to the interface, and so does the interface
    rw [simplify_eq_simplifyWith]
    cases hb : s.get i ref.generic with
    | none => rw [simplifyWith_iface_of_get_none s i rfl hb]
    | some b =>
      by_cases hkept : (b.isGeneric || b.same (.iface ref)) = true
      · rw [simplifyWith_iface_of_get s i rfl hb, if_pos hkept]
      · rw [simplifyWith_iface_eq_generic rfl hb (by simpa using hkept),
          ← simplify_eq_simplifyWith, he]
  | case8 r ref hn b hb hkept =>
    intro _ _ _ _ _
    rw [simplify_eq_simplifyWith, simplifyWith_iface_of_get s i rfl hb, if_pos hkept]
  | case9 r ref hn b hb hkept hst =>
    intro _ _ _ _ _
    rw [simplify_eq_simplifyWith, simplifyWith_of_stable s i [] b hst]
  | case10 r ref hn b hb hkept hst ih =>
    intro m hm ht hr hret
    have hnm : ρ ref.generic ≤ m := ht
    refine ih (ρ ref.generic) (Nat.le_trans hnm hm) (hs _ b hb) (fun x hx => ?_)
      (hret.followIface (by simpa using hn) hb (by simpa using hkept) (by simpa using hst))
    rcases List.mem_cons.1 hx with rfl | hx
    · exact Nat.le_refl _
    · exact Nat.le_trans hnm (hr x hx)
  | case11 r ref hn hb =>
    intro _ _ _ _ _
    rw [simplify_eq_simplifyWith, simplifyWith_iface_of_get_none s i rfl hb]
  | case12 r t hg ha hi =>
    intro _ _ _ _ _
    rw [simplify_eq_simplifyWith, simplifyWith_other s i hg ha hi]

/-- Simplifying twice changes nothing for a type reading names below `k`, given that it changes
nothing for types reading names below each smaller rank. A generic or an interface is followed
from scratch with `simplify_simplifyWith_of_retraces`; an application, part by part. -/
theorem simplify_simplify_of_ranksBelow_step (hs : s.Ranked i ρ) {k : Nat}
    (hlt : ∀ j < k, ∀ t : Ty, t.RanksBelow ρ j →
      s.simplify i (s.simplify i t) = s.simplify i t) :
    ∀ t : Ty, t.RanksBelow ρ k → s.simplify i (s.simplify i t) = s.simplify i t
  | .generic n, ht => by
    have hn : ρ n < k := ht.generic
    rw [simplify_eq_simplifyWith s i (.generic n)]
    exact simplify_simplifyWith_of_retraces hs (hlt (ρ n) hn) [] _ (ρ n) (Nat.le_refl _)
      (Nat.le_refl _) (fun _ hx => absurd hx List.not_mem_nil) (retraces_nil _)
  | .iface ref, ht => by
    have hn : ρ ref.generic < k := ht.iface
    rw [simplify_eq_simplifyWith s i (.iface ref)]
    exact simplify_simplifyWith_of_retraces hs (hlt _ hn) [] _ (ρ ref.generic) (Nat.le_refl _)
      (Nat.le_refl _) (fun _ hx => absurd hx List.not_mem_nil) (retraces_nil _)
  | .app h as, ht => by
    have hh := simplify_simplify_of_ranksBelow_step hs hlt h ht.head
    have has : ∀ a ∈ as, s.simplify i (s.simplify i a) = s.simplify i a := fun a ha =>
      have := List.sizeOf_lt_of_mem ha
      simplify_simplify_of_ranksBelow_step hs hlt a (ht.arg ha)
    have happ : s.simplify i (.app h as) = .app (s.simplify i h) (as.map (s.simplify i)) := by
      rw [simplify_eq_simplifyWith, simplifyWith_app, ← simplify_eq_simplifyWith]
      exact congrArg _ (List.map_congr_left fun a _ => (simplify_eq_simplifyWith s i a).symm)
    rw [happ]
    refine simplify_app_of_parts hh fun a ha => ?_
    obtain ⟨a', ha', rfl⟩ := List.mem_map.1 ha
    exact has a' ha'
  | .basic _, _ | .fn .., _ | .enum _, _ | .data _, _ | .ctor .., _ => simplify_simplify_of_stable rfl
termination_by t => sizeOf t

/-- Simplifying twice changes nothing for a type reading names below any rank `k`, by strong
induction on `k`. -/
theorem simplify_simplify_of_ranksBelow (hs : s.Ranked i ρ) (k : Nat) :
    ∀ t : Ty, t.RanksBelow ρ k → s.simplify i (s.simplify i t) = s.simplify i t := by
  induction k using Nat.strong_induction_on with
  | _ k ih => exact simplify_simplify_of_ranksBelow_step hs ih

/-- **Simplifying is idempotent on ranked bindings**: when no way round the bindings seen from
frame `i` passes through an application, simplifying a simplified type gives it back. -/
theorem simplify_idempotent_of_ranked (s : Scopes) (i : Nat) (ρ : String → Nat)
    (hs : s.Ranked i ρ) (t : Ty) : s.simplify i (s.simplify i t) = s.simplify i t := by
  obtain ⟨k, hk⟩ := t.exists_ranksBelow ρ
  exact simplify_simplify_of_ranksBelow hs k t hk

/-- The bindings of the cycle test: `A` bound to `B`, `B` to `A`, and `C` to itself. -/
def cycleScopes : Scopes :=
  ofRoot [("C", .generic "C"), ("B", .generic "A"), ("A", .generic "B")]

/-- Bindings that go round generic to generic are ranked with one rank for every name, so `A`
simplified twice is `A` simplified once. -/
theorem simplify_idempotent_cycle :
    cycleScopes.Ranked 0 (fun _ => 0) ∧
      cycleScopes.simplify 0 (cycleScopes.simplify 0 (.generic "A")) =
        cycleScopes.simplify 0 (.generic "A") := by
  have hr : cycleScopes.Ranked 0 (fun _ => 0) := by
    intro n b hb
    have hm := get_mem_boundTypes hb
    simp only [cycleScopes, ofRoot, boundTypes, List.toList_toArray, List.flatMap_cons,
      List.flatMap_nil, List.map_cons, List.map_nil, List.append_nil, List.mem_cons,
      List.not_mem_nil, or_false] at hm
    rcases hm with rfl | rfl | rfl <;> simp [Ty.RankedAt]
  exact ⟨hr, simplify_idempotent_of_ranked cycleScopes 0 _ hr (.generic "A")⟩

/-! ### A way round through an application -/

/-- **A name bound to an application of itself simplifies again.** With `n` bound to `h<n>`,
`n` simplifies to `h<n>`, the `n` inside left where it came round, and `h<n>` simplifies to
`h<h<n>>`. -/
theorem simplify_twice_of_self_application {n : String} {h : Ty}
    (hb : s.get i n = some (.app h [.generic n])) (hh : h.stable = true) :
    s.simplify i (.generic n) = .app h [.generic n] ∧
      s.simplify i (s.simplify i (.generic n)) = .app h [.app h [.generic n]] := by
  have hng : ¬ (Ty.app h [.generic n]).isGenericNamed n = true := by simp [Ty.isGenericNamed]
  have hst : ¬ (Ty.app h [.generic n]).stable = true := by
    simp [Ty.stable, Ty.stableList]
  have h1 : s.simplify i (.generic n) = .app h [.generic n] := by
    rw [simplify_eq_simplifyWith, simplifyWith_generic_of_get s i rfl hb, if_neg hng, if_neg hst,
      simplifyWith_app, simplifyWith_of_stable s i _ h hh, List.map_singleton,
      simplifyWith_generic_of_contains s i (by simp)]
  refine ⟨h1, ?_⟩
  rw [h1, simplify_eq_simplifyWith, simplifyWith_app, simplifyWith_of_stable s i _ h hh,
    List.map_singleton, ← simplify_eq_simplifyWith, h1]

end Scopes

namespace View

/-- **Unifying makes such a binding.** In a frame where the generic `n` stands for itself,
unifying `n` with an application of a stable type to `n` holds and binds `n` to it: no check
keeps a name out of the type it is bound to. In the scopes it leaves, simplifying `n` twice
differs from simplifying it once. -/
theorem unify_binds_self_application {v : View} {n : String} {h : Ty}
    (hv : v.frame < v.scopes.frames.size) (hn : v.scopes.get v.frame n = some (.generic n))
    (hh : h.stable = true) :
    v.unify (.generic n) (.app h [.generic n]) =
        (.holds [(n, .app h [.generic n])], v.scopes.set v.frame n (.app h [.generic n])) ∧
      (v.scopes.set v.frame n (.app h [.generic n])).simplify v.frame
          ((v.scopes.set v.frame n (.app h [.generic n])).simplify v.frame (.generic n)) ≠
        (v.scopes.set v.frame n (.app h [.generic n])).simplify v.frame (.generic n) := by
  -- `n` fails to resolve at itself, so the search binds it to the actual type
  have hres : v.resolve [] n [] rfl = .error n := by
    rw [resolve_of_generic v [] rfl (show v.look [] n = some (.generic n) from hn),
      dif_pos (by simp)]
  have hsolve : v.solve [] (.generic n) (.app h [.generic n]) =
      .holds [(n, .app h [.generic n])] := by
    rw [solve_generic_error _ hres, if_neg (by simp [Ty.isGenericNamed])]
  refine ⟨unify_eq_of_holds hsolve, ?_⟩
  have hb : (v.scopes.set v.frame n (.app h [.generic n])).get v.frame n =
      some (.app h [.generic n]) := by
    rw [Scopes.get_set_self _ _ _ _ hv, if_pos rfl]
  obtain ⟨h1, h2⟩ := Scopes.simplify_twice_of_self_application hb hh
  rw [h2, h1]
  simp

end View

end Verve
