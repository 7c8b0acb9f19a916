import Verve.Proofs.Run
import Verve.Proofs.Chains
import Verve.Proofs.Relabel
import Verve.Proofs.Dispatch

/-!
# Closing a call

Main statement: `Check.closeCall_freshens_callee_generics_only`. Once the arguments of a call
are checked, closing it binds each generic of the callee that still simplifies to itself to a
fresh generic made from its name, `g#k`, and binds nothing else: closing is a fold of one
round per generic (`Check.closeOne`, `Check.exec_closeGenerics`), and a round binds only the
generic it closes (`Check.closeOne_get_ne`).

The callee's own generics are made fresh, the parameters of a declared enum result are not.
They are simplified in the call's frame, which falls back to the frames of the caller, so a
parameter named as a local of the caller reads that local's type: a function with no generics
declared to return `Option`, called where `t` is bound to `Int`, is typed `Option<Int>`
(`Check.closeCall_reads_caller_binding`). Where nothing binds the parameter the call's type
holds the enum's declared generic itself.
-/

namespace Verve

namespace Scopes

/-- A generic bound to itself simplifies to itself. -/
theorem simplify_generic_of_get_self {s : Scopes} {i : Nat} {n : String}
    (h : s.get i n = some (.generic n)) : s.simplify i (.generic n) = .generic n := by
  rw [simplify_eq_simplifyWith, simplifyWith_generic_of_get s i (by simp) h]
  simp [Ty.isGenericNamed]

/-- A generic bound nowhere simplifies to itself. -/
theorem simplify_generic_of_get_none {s : Scopes} {i : Nat} {n : String}
    (h : s.get i n = none) : s.simplify i (.generic n) = .generic n := by
  rw [simplify_eq_simplifyWith, simplifyWith_generic_of_get_none s i (by simp) h]

end Scopes

namespace Check

/-- One round of closing a call's generics in frame `scope`: a generic that still simplifies
to itself is bound to a fresh generic made from its name. -/
def closeOne (scope : Nat) (st : Store) (g : String) : Store :=
  if (st.scopes.simplify scope (.generic g)).isGenericNamed g then
    ⟨st.scopes.set scope g (.generic (g ++ "#" ++ Nat.repr (st.fresh + 1))), st.fresh + 1⟩
  else st

/-- Closing runs its rounds in the order of the generics, and never stops at a fault. -/
theorem exec_closeGenerics (gs : List String) (scope : Nat) (σ : Setting) (st : Store) :
    (closeGenerics gs scope).exec σ st = (.ok (), gs.foldl (closeOne scope) st) := by
  induction gs generalizing st with
  | nil => rfl
  | cons g gs ih =>
    unfold closeGenerics at ih ⊢
    rw [List.forIn_cons, exec_bind]
    simp only [exec_bind] at ih
    by_cases h : (st.scopes.simplify scope (.generic g)).isGenericNamed g = true
    · simp [exec_bind, h, closeOne]
      exact ih _
    · simp [exec_bind, h, closeOne]
      exact ih _

section Closing

variable {scope : Nat} {σ : Setting} {st : Store}

/-- A round binds only the generic it closes. -/
theorem closeOne_get_ne {g x : String} (hx : x ≠ g) (j : Nat) :
    (closeOne scope st g).scopes.get j x = st.scopes.get j x := by
  unfold closeOne
  split
  · exact Scopes.get_set_ne _ _ _ hx j
  · rfl

/-- A fresh generic is not the generic it is made from. -/
theorem fresh_ne (g : String) (k : Nat) : Ty.generic (g ++ "#" ++ Nat.repr k) ≠ .generic g := by
  intro h
  have hlen := congrArg String.length (Ty.generic.inj h)
  simp only [String.length_append] at hlen
  have : 0 < "#".length := by decide
  omega

/-- After its round, a generic is not bound in the call's frame to itself. -/
theorem closeOne_not_self (g : String) :
    (closeOne scope st g).scopes.get scope g ≠ some (.generic g) := by
  unfold closeOne
  split
  · rename_i hself
    by_cases hs : scope < st.scopes.frames.size
    · rw [Scopes.get_set_self _ _ _ _ hs, if_pos rfl]
      exact fun h => fresh_ne g _ (Option.some.inj h)
    · -- a frame that is not there binds nothing
      dsimp only
      rw [Scopes.get_of_size_le g (by rw [Scopes.size_set]; omega)]
      exact fun h => by cases h
  · rename_i hne
    intro hself
    rw [Scopes.simplify_generic_of_get_self hself] at hne
    exact hne (by simp [Ty.isGenericNamed])

/-- Closing binds none but the generics it closes. -/
theorem foldl_closeOne_get_of_not_mem {x : String} :
    ∀ (gs : List String) (st : Store), x ∉ gs → ∀ j,
      (gs.foldl (closeOne scope) st).scopes.get j x = st.scopes.get j x
  | [], _, _, _ => rfl
  | g :: gs, st, hx, j => by
    rw [List.foldl_cons, foldl_closeOne_get_of_not_mem gs _ (fun h => hx (List.mem_cons_of_mem g h)),
      closeOne_get_ne (fun h => hx (by rw [h]; exact List.mem_cons_self)) j]

/-- After closing, none of the generics closed is bound in the call's frame to itself. -/
theorem foldl_closeOne_not_self :
    ∀ (gs : List String) (st : Store), ∀ g ∈ gs,
      (gs.foldl (closeOne scope) st).scopes.get scope g ≠ some (.generic g)
  | [], _, _, h => absurd h List.not_mem_nil
  | g :: gs, st, g', hg' => by
    rw [List.foldl_cons]
    by_cases hin : g' ∈ gs
    · exact foldl_closeOne_not_self gs _ g' hin
    · -- `g'` is closed in this round and in no later one
      have hg : g' = g := by simpa [hin] using hg'
      subst hg
      rw [foldl_closeOne_get_of_not_mem gs _ hin]
      exact closeOne_not_self g'

/-- Simplifying names one by one returns what each simplifies to and changes nothing. -/
theorem exec_mapM_simp (i : Nat) :
    ∀ ps : List String, (ps.mapM fun p => simp i (.generic p)).exec σ st =
      (.ok (ps.map fun p => st.scopes.simplify i (.generic p)), st)
  | [] => rfl
  | p :: ps => by
    rw [List.mapM_cons, exec_bind, exec_simp]
    simp only [exec_bind, exec_mapM_simp i ps]
    rfl

/-- Closing a call leaves the store as closing its generics does. -/
theorem exec_closeCall_store (f : Sig) :
    ((closeCall f scope).exec σ st).2 = f.generics.foldl (closeOne scope) st := by
  unfold closeCall
  rw [exec_bind, exec_closeGenerics]
  dsimp only
  split
  · split
    · rfl
    · rw [exec_bind, exec_mapM_simp]
      rfl
  · rfl

/-- A call with a declared enum result of some parameters is typed as that enum applied to its
parameters, simplified in the call's frame once its generics are closed. -/
theorem exec_closeCall_enum {f : Sig} {r : EnumRef} (hret : f.ret = .enum r)
    (hr : r.generics ≠ []) :
    ((closeCall f scope).exec σ st).1 = .ok (.app (.enum r) (r.generics.map fun p =>
      (f.generics.foldl (closeOne scope) st).scopes.simplify scope (.generic p))) := by
  unfold closeCall
  rw [exec_bind, exec_closeGenerics]
  dsimp only
  rw [hret]
  dsimp only
  rw [if_neg (by simpa using hr), exec_bind, exec_mapM_simp]
  rfl

end Closing

/-- **Closing a call gives fresh names to the callee's own generics and to nothing else.**
Once the arguments of a call are checked, closing it leaves none of the callee's generics
bound in the call's frame to itself, and every other name bound as it was. A declared enum
result is applied to its parameters as simplified in the call's frame: a parameter of the
enum that is none of the callee's generics is not made fresh, so where the call's frame and
the frames it falls back to leave it unbound the call's type holds the enum's declared
generic itself, and where they bind it to a type without generics, that type. -/
theorem closeCall_freshens_callee_generics_only (f : Sig) (scope : Nat) (σ : Setting)
    (st : Store) :
    (∀ g ∈ f.generics, ((closeCall f scope).exec σ st).2.scopes.get scope g ≠ some (.generic g)) ∧
    (∀ x, x ∉ f.generics → ∀ j,
      ((closeCall f scope).exec σ st).2.scopes.get j x = st.scopes.get j x) ∧
    (∀ r, f.ret = .enum r → ∀ p ∈ r.generics, p ∉ f.generics →
      ∃ as, ((closeCall f scope).exec σ st).1 = .ok (.app (.enum r) as) ∧
        (st.scopes.get scope p = none → .generic p ∈ as) ∧
        (∀ u, st.scopes.get scope p = some u → u.stable = true → u ∈ as)) := by
  rw [exec_closeCall_store]
  refine ⟨foldl_closeOne_not_self f.generics st,
    fun x hx => foldl_closeOne_get_of_not_mem f.generics st hx, ?_⟩
  intro r hret p hp hpf
  -- closing leaves the parameter's bindings as the call found them
  have hget : (f.generics.foldl (closeOne scope) st).scopes.get scope p = st.scopes.get scope p :=
    foldl_closeOne_get_of_not_mem _ _ hpf scope
  refine ⟨_, exec_closeCall_enum hret (List.ne_nil_of_mem hp), fun hnone => ?_, fun u hu hs => ?_⟩
  · exact List.mem_map.2 ⟨p, hp, Scopes.simplify_generic_of_get_none (hget.trans hnone)⟩
  · have hu' : u.isGenericNamed p = false := by
      cases u <;> simp_all [Ty.stable, Ty.isGenericNamed]
    exact List.mem_map.2 ⟨p, hp, Scopes.simplify_generic_of_get (hget.trans hu) hu' hs⟩

/-- A function with no generics declared to return `Option`, an enum with the parameter `t`,
called in a frame whose caller binds `t` to `Int`: the call is typed `Option<Int>`. -/
theorem closeCall_reads_caller_binding :
    let r : EnumRef := ⟨1, "Option", ["t"], ["Some", "None"]⟩
    let f : Sig := ⟨"f", [], .enum r, [], none⟩
    let σ : Setting := ⟨Decls.initial, .ofDecls Decls.initial, 8, []⟩
    let st : Store := ⟨⟨#[⟨none, [("t", .basic "Int")]⟩, ⟨some 0, []⟩], 1⟩, 0⟩
    st.scopes.get 1 "t" = some (.basic "Int") ∧
      ∃ as, ((closeCall f 1).exec σ st).1 = .ok (.app (.enum r) as) ∧ .basic "Int" ∈ as := by
  intro r f σ st
  have hget : st.scopes.get 1 "t" = some (.basic "Int") := by
    simp [st, Scopes.get]
  obtain ⟨as, has, -, hmem⟩ :=
    (closeCall_freshens_callee_generics_only f 1 σ st).2.2 r rfl "t" (by decide) (by decide)
  exact ⟨hget, as, has, hmem _ hget rfl⟩

end Check

end Verve
