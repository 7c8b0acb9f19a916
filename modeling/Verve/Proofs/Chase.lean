import Mathlib.Data.List.Perm.Subperm
import Verve.Check.Infer

/-!
# Following interface parameters round a cycle

Matching an interface `I` against an actual type `a` looks at what `I`'s parameter is bound
to. Bound to another interface `J`, the search matches `J` against the same `a`: nothing gets
smaller, and bindings that lead from `I` to `J` and back make the search go round for ever.
`View.chase` follows the chain of interfaces and answers `endless` when it comes back to an
interface it has left, or when it has taken more steps than there are bindings.

The chain itself is `View.ifaceAt`: the interface reached after `n` steps, where a step leads
from `r` to the interface that `r`'s parameter resolves to (`View.nextIface`), unless the
actual type is `r` itself or the parameter resolves to `r`, to another kind of type or to
nothing. In scopes that count their bindings (`Scopes.Sound`) the chase answers `endless`
exactly when the chain comes back to an interface it has already left (`View.Revisits`):
its fuel never cuts a finite chain short (`View.chase_endless_iff`). Every scope that
checking builds counts its bindings (`Scopes.sound_ofRoot`, `Scopes.Sound.set`,
`Scopes.Sound.child`, `Scopes.Sound.commit`).
-/

namespace Verve

/-- A type found by looking a name up in a list of bindings is one of the list's types. -/
theorem lookup_snd_mem {l : List (String × Ty)} {x : String} {t : Ty}
    (h : l.lookup x = some t) : t ∈ l.map (·.2) := by
  induction l with
  | nil => simp at h
  | cons b l ih =>
    obtain ⟨y, u⟩ := b
    by_cases hxy : x = y
    · subst hxy
      simp only [List.lookup_cons_self, Option.some.injEq] at h
      simp [h]
    · have hl : l.lookup x = some t := by
        simpa [List.lookup_cons, show (x == y) = false from by simpa using hxy] using h
      simp [ih hl]

/-- Modifying one member of a list, so that it gives at most one more value, gives at most
one more value in all. -/
theorem length_flatMap_modify_le {α β : Type} (h : α → List β) (g : α → α)
    (hg : ∀ a, (h (g a)).length ≤ (h a).length + 1) :
    ∀ (l : List α) (i : Nat), ((l.modify i g).flatMap h).length ≤ (l.flatMap h).length + 1
  | [], i => by simp
  | a :: l, 0 => by
    have := hg a
    simp only [List.modify_zero_cons, List.flatMap_cons, List.length_append]
    omega
  | a :: l, i + 1 => by
    have := length_flatMap_modify_le h g hg l i
    simp only [List.modify_succ_cons, List.flatMap_cons, List.length_append]
    omega

namespace Ty

/-- The declaration number of an interface type. -/
def ifaceId? : Ty → Option Nat
  | .iface r => some r.id
  | _ => none

/-- Whether a type is a given interface depends on the interface's number only. -/
theorem same_iface_congr (a : Ty) {r r' : IfaceRef} (h : r.id = r'.id) :
    a.same (.iface r) = a.same (.iface r') := by
  cases a <;> simp [same, h]

end Ty

namespace Scopes

/-- Every type bound in a frame, frame after frame. -/
def boundTypes (s : Scopes) : List Ty := s.frames.toList.flatMap fun f => f.binds.map (·.2)

/-- Scopes whose count of bindings holds: all the frames together bind no more types than
`bound`. -/
def Sound (s : Scopes) : Prop := s.boundTypes.length ≤ s.bound

instance (s : Scopes) : Decidable s.Sound := inferInstanceAs (Decidable (_ ≤ _))

/-- A type found by looking a name up is bound in some frame. -/
theorem get_mem_boundTypes {s : Scopes} {i : Nat} {x : String} {t : Ty}
    (h : s.get i x = some t) : t ∈ s.boundTypes := by
  induction i using Nat.strongRecOn with
  | _ i ih =>
    rw [get] at h
    cases hf : s.frames[i]? with
    | none => simp [hf] at h
    | some f =>
      simp only [hf] at h
      cases hl : f.binds.lookup x with
      | some t' =>
        simp only [hl, Option.some.injEq] at h
        subst h
        exact List.mem_flatMap.2
          ⟨f, Array.mem_toList_iff.2 (Array.mem_of_getElem? hf), lookup_snd_mem hl⟩
      | none =>
        simp only [hl] at h
        cases hp : f.parent with
        | none => simp [hp] at h
        | some p =>
          simp only [hp] at h
          split at h
          · exact ih p ‹p < i› h
          · simp at h

theorem sound_ofRoot (binds : List (String × Ty)) : (ofRoot binds).Sound := by
  simp [Sound, ofRoot, boundTypes]

theorem Sound.child {s : Scopes} (hs : s.Sound) (i : Nat) : (s.child i).1.Sound := by
  obtain ⟨frames, bound⟩ := s
  simpa [Sound, Scopes.child, boundTypes] using hs

theorem Sound.set {s : Scopes} (hs : s.Sound) (i : Nat) (x : String) (t : Ty) :
    (s.set i x t).Sound := by
  obtain ⟨frames, bound⟩ := s
  have := length_flatMap_modify_le (fun f : Frame => f.binds.map (·.2))
    (fun f => { f with binds := (x, t) :: f.binds }) (fun f => by simp) frames.toList i
  simp only [Sound, boundTypes, Scopes.set, Array.toList_modify] at hs ⊢
  omega

theorem Sound.commit {s : Scopes} (hs : s.Sound) (i : Nat) (p : Found) : (s.commit i p).Sound := by
  unfold Scopes.commit
  induction latestBindings p generalizing s with
  | nil => exact hs
  | cons b bs ih => exact ih (hs.set i b.1 b.2)

end Scopes

namespace View

/-- Every type that a search can read a binding as: those it has found, then those of the
scopes. -/
def boundTypes (v : View) (p : Found) : List Ty := p.map (·.2) ++ v.scopes.boundTypes

theorem look_mem_boundTypes {v : View} {p : Found} {x : String} {t : Ty}
    (h : v.look p x = some t) : t ∈ v.boundTypes p := by
  unfold look at h
  split at h
  · rename_i t' hl
    cases h
    exact List.mem_append_left _ (lookup_snd_mem hl)
  · exact List.mem_append_right _ (Scopes.get_mem_boundTypes h)

section Resolve

variable (v : View) (p : Found) {x : String} {seen : List String} (h : seen.contains x = false)

/-- A generic bound to a generic goes on to it, unless it was passed. -/
theorem resolve_of_generic {y : String} (hl : v.look p x = some (.generic y)) :
    v.resolve p x seen h =
      if hy : (x :: seen).contains y then .error x
      else v.resolve p y (x :: seen) (by simpa using hy) := by
  rw [resolve]
  split
  · rename_i y' hl'
    rw [hl] at hl'
    cases hl'
    rfl
  · rename_i t hng hl'
    rw [hl] at hl'
    cases hl'
    exact absurd rfl (hng y)
  · rename_i hl'
    rw [hl] at hl'
    cases hl'

/-- A generic bound to a type that is no generic resolves to it. -/
theorem resolve_of_other {t : Ty} (hl : v.look p x = some t) (hng : ∀ y, t ≠ .generic y) :
    v.resolve p x seen h = .ok t := by
  rw [resolve]
  split
  · rename_i y' hl'
    rw [hl] at hl'
    cases hl'
    exact absurd rfl (hng y')
  · rename_i t' _ hl'
    rw [hl] at hl'
    cases hl'
    rfl
  · rename_i hl'
    rw [hl] at hl'
    cases hl'

/-- A generic without a binding is the end of the chain. -/
theorem resolve_of_none (hl : v.look p x = none) : v.resolve p x seen h = .error x := by
  rw [resolve]
  split
  · rename_i y' hl'
    rw [hl] at hl'
    cases hl'
  · rename_i t' _ hl'
    rw [hl] at hl'
    cases hl'
  · rfl

end Resolve

/-- A generic resolves to a type that some name is bound to. -/
theorem resolve_ok_look (v : View) (p : Found) {t : Ty} :
    ∀ {x : String} {seen : List String} {h : seen.contains x = false},
      v.resolve p x seen h = .ok t → ∃ y, v.look p y = some t := by
  intro x seen h hr
  -- the induction follows `resolve`: a generic link, a cycle, a type, or no binding
  induction x, seen, h using View.resolve.induct v p with
  | case1 x seen h y hl hy =>
    rw [resolve_of_generic v p h hl, dif_pos hy] at hr
    cases hr
  | case2 x seen h y hl hy ih =>
    rw [resolve_of_generic v p h hl, dif_neg hy] at hr
    exact ih hr
  | case3 x seen h t' hng hl =>
    rw [resolve_of_other v p h hl hng] at hr
    cases hr
    exact ⟨x, hl⟩
  | case4 x seen h hl =>
    rw [resolve_of_none v p h hl] at hr
    cases hr

theorem resolve_mem_boundTypes {v : View} {p : Found} {x : String} {seen : List String}
    {h : seen.contains x = false} {t : Ty} (hr : v.resolve p x seen h = .ok t) :
    t ∈ v.boundTypes p := by
  obtain ⟨y, hy⟩ := v.resolve_ok_look p hr
  exact look_mem_boundTypes hy

/-- Resolving an interface's parameter starts with no generic passed. -/
theorem generic_unpassed (r : IfaceRef) : ([] : List String).contains r.generic = false := rfl

/-- One step along interface parameters: the interface that `r`'s parameter resolves to,
when the search goes on from `r` to another interface with the actual type `a`. -/
def nextIface (v : View) (p : Found) (a : Ty) (r : IfaceRef) : Option IfaceRef :=
  if a.same (.iface r) then none
  else
    match v.resolve p r.generic [] (generic_unpassed r) with
    | .ok (.iface r') => if r'.id == r.id then none else some r'
    | _ => none

/-- The interface reached from `r` after `n` steps. -/
def ifaceAt (v : View) (p : Found) (a : Ty) : Nat → IfaceRef → Option IfaceRef
  | 0, r => some r
  | n + 1, r => (v.nextIface p a r).bind (v.ifaceAt p a n)

/-- The chain of interfaces from `r` comes back to an interface it has left. -/
def Revisits (v : View) (p : Found) (a : Ty) (r : IfaceRef) : Prop :=
  ∃ i j ri rj, i < j ∧ v.ifaceAt p a i r = some ri ∧ v.ifaceAt p a j r = some rj ∧
    ri.id = rj.id

/-- The chain from `r` reaches, at an interface other than the actual type, one that was
left before: one of `seen`, or one that the chain passed itself. -/
def RevisitsAfter (v : View) (p : Found) (a : Ty) (seen : List Nat) (r : IfaceRef) : Prop :=
  ∃ j rj, v.ifaceAt p a j r = some rj ∧ a.same (.iface rj) = false ∧
    (rj.id ∈ seen ∨ ∃ i ri, i < j ∧ v.ifaceAt p a i r = some ri ∧ ri.id = rj.id)

section Chain

variable {v : View} {p : Found} {a : Ty}

theorem nextIface_eq_some {r r' : IfaceRef} (h : v.nextIface p a r = some r') :
    a.same (.iface r) = false ∧ v.resolve p r.generic [] rfl = .ok (.iface r') ∧
      r'.id ≠ r.id := by
  unfold nextIface at h
  split at h
  · cases h
  · rename_i hs
    split at h
    · rename_i r'' hr
      split at h
      · cases h
      · rename_i hne
        cases h
        exact ⟨by simpa using hs, hr, by simpa using hne⟩
    · cases h

theorem ifaceAt_succ (n : Nat) (r : IfaceRef) :
    v.ifaceAt p a (n + 1) r = (v.nextIface p a r).bind (v.ifaceAt p a n) := rfl

/-- The chain read from its end: one more step is a step from the interface reached. -/
theorem ifaceAt_succ' (n : Nat) (r : IfaceRef) :
    v.ifaceAt p a (n + 1) r = (v.ifaceAt p a n r).bind (v.nextIface p a) := by
  induction n generalizing r with
  | zero => cases h : v.nextIface p a r <;> simp [ifaceAt, h]
  | succ n ih =>
    rw [ifaceAt_succ, ifaceAt_succ n]
    cases v.nextIface p a r with
    | none => rfl
    | some r' => exact ih r'

/-- A chain that reaches step `j` passed every step before it. -/
theorem ifaceAt_isSome_of_le {r rj : IfaceRef} {j : Nat} (h : v.ifaceAt p a j r = some rj) :
    ∀ k ≤ j, ∃ rk, v.ifaceAt p a k r = some rk := by
  induction j generalizing rj with
  | zero => intro k hk; exact ⟨r, by rw [Nat.le_zero.1 hk]; rfl⟩
  | succ j ih =>
    intro k hk
    rcases Nat.lt_or_ge k (j + 1) with hk' | hk'
    · rw [ifaceAt_succ'] at h
      obtain ⟨r', hr', -⟩ := Option.bind_eq_some_iff.1 h
      exact ih hr' k (by omega)
    · exact ⟨rj, by rw [show k = j + 1 by omega]; exact h⟩

/-- An interface that the chain leaves is not the actual type. -/
theorem same_eq_false_of_lt {r ri : IfaceRef} {i j : Nat} (hij : i < j)
    (hi : v.ifaceAt p a i r = some ri) (hj : ∃ rj, v.ifaceAt p a j r = some rj) :
    a.same (.iface ri) = false := by
  obtain ⟨rj, hj⟩ := hj
  obtain ⟨r', hr'⟩ := ifaceAt_isSome_of_le hj (i + 1) hij
  rw [ifaceAt_succ', hi, Option.bind_some] at hr'
  exact (nextIface_eq_some hr').1

theorem chase_zero (seen : List Nat) (r : IfaceRef) : v.chase p a 0 seen r = .endless := rfl

theorem chase_succ_of_mem {fuel : Nat} {seen : List Nat} {r : IfaceRef}
    (hs : a.same (.iface r) = false) (hr : r.id ∈ seen) :
    v.chase p a (fuel + 1) seen r = .endless := by
  simp [chase, hs, hr]

theorem chase_succ_of_next {fuel : Nat} {seen : List Nat} {r r' : IfaceRef}
    (hn : v.nextIface p a r = some r') (hr : r.id ∉ seen) :
    v.chase p a (fuel + 1) seen r = v.chase p a fuel (r.id :: seen) r' := by
  obtain ⟨hs, hres, hid⟩ := nextIface_eq_some hn
  simp [chase, hs, hr, hres, hid]

/-- A chase step that goes on to no next interface answers without reading the fuel. -/
theorem chase_succ_of_nextIface_none {fuel fuel' : Nat} {seen : List Nat} {r : IfaceRef}
    (hn : v.nextIface p a r = none) :
    v.chase p a (fuel + 1) seen r = v.chase p a (fuel' + 1) seen r := by
  unfold nextIface at hn
  rw [chase, chase]
  split
  · rfl
  rename_i hs
  rw [if_neg hs] at hn
  split
  · rfl
  split
  · rename_i r' hres
    by_cases hid : (r'.id == r.id) = true
    · rw [if_pos hid, if_pos hid]
    · simp [hres, hid] at hn
  · rfl
  · rfl

/-- What a chase that answers `endless` did first: it stood at an interface other than the
actual type, and either had left it before or went on to the next one and did not come
back from there. -/
theorem chase_succ_endless {fuel : Nat} {seen : List Nat} {r : IfaceRef}
    (h : v.chase p a (fuel + 1) seen r = .endless) :
    a.same (.iface r) = false ∧ (r.id ∈ seen ∨ r.id ∉ seen ∧
      ∃ r', v.nextIface p a r = some r' ∧ v.chase p a fuel (r.id :: seen) r' = .endless) := by
  by_cases hs : a.same (.iface r) = true
  · simp [chase, hs] at h
  · have hs' : a.same (.iface r) = false := by simpa using hs
    refine ⟨hs', ?_⟩
    by_cases hr : r.id ∈ seen
    · exact .inl hr
    · right
      refine ⟨hr, ?_⟩
      rw [chase.eq_2, if_neg hs, if_neg (by simpa using hr)] at h
      split at h
      · rename_i r' hres
        split at h
        · cases h
        · rename_i hne
          exact ⟨r', by simp [nextIface, hs', hres, hne], h⟩
      · cases h
      · cases h

/-- Going back one step: a chain from the next interface that comes back to `r` or to one
of `seen` is a chain from `r` that comes back to one of `seen` or to itself. -/
theorem revisitsAfter_of_next {seen : List Nat} {r r' : IfaceRef}
    (hn : v.nextIface p a r = some r') (h : v.RevisitsAfter p a (r.id :: seen) r') :
    v.RevisitsAfter p a seen r := by
  obtain ⟨j, rj, hj, hs, hrev⟩ := h
  have hj' : v.ifaceAt p a (j + 1) r = some rj := by rw [ifaceAt_succ, hn, Option.bind_some, hj]
  refine ⟨j + 1, rj, hj', hs, ?_⟩
  rcases hrev with hmem | ⟨i, ri, hi, hri, hid⟩
  · rcases List.mem_cons.1 hmem with heq | hmem
    · exact .inr ⟨0, r, by omega, rfl, heq.symm⟩
    · exact .inl hmem
  · exact .inr ⟨i + 1, ri, by omega, by rw [ifaceAt_succ, hn, Option.bind_some, hri], hid⟩

/-- A chain that comes back to an interface left before makes the chase answer `endless`,
whatever its fuel. -/
theorem chase_endless_of_revisitsAfter :
    ∀ (fuel : Nat) (seen : List Nat) (r : IfaceRef), v.RevisitsAfter p a seen r →
      v.chase p a fuel seen r = .endless
  | 0, _, _, _ => rfl
  | fuel + 1, seen, r, ⟨j, rj, hj, hs, hrev⟩ => by
    cases j with
    | zero =>
      cases hj
      rcases hrev with hmem | ⟨i, _, hi, _⟩
      · exact chase_succ_of_mem hs hmem
      · omega
    | succ j =>
      obtain ⟨r', hn, hj'⟩ := Option.bind_eq_some_iff.1 hj
      by_cases hr : r.id ∈ seen
      · exact chase_succ_of_mem (nextIface_eq_some hn).1 hr
      · rw [chase_succ_of_next hn hr]
        refine chase_endless_of_revisitsAfter fuel _ r' ⟨j, rj, hj', hs, ?_⟩
        rcases hrev with hmem | ⟨i, ri, hi, hri, hid⟩
        · exact .inl (List.mem_cons_of_mem _ hmem)
        · cases i with
          | zero =>
            cases hri
            exact .inl (hid ▸ List.mem_cons_self ..)
          | succ i =>
            rw [ifaceAt_succ, hn, Option.bind_some] at hri
            exact .inr ⟨i, ri, by omega, hri, hid⟩

/-- **A chase that answers `endless` found a cycle, when its fuel outnumbers the
interfaces.** Every interface the chain reaches is in `S`; the interfaces left so far,
`seen`, are distinct members of `S`; so a chase that has fuel for more steps than `S` has
members cannot run out of it and answers `endless` only on coming back. -/
theorem revisitsAfter_of_chase_endless {S : List Nat}
    (hS : ∀ r r', v.nextIface p a r = some r' → r'.id ∈ S) :
    ∀ (fuel : Nat) (seen : List Nat) (r : IfaceRef), v.chase p a fuel seen r = .endless →
      seen.Nodup → (∀ i ∈ seen, i ∈ S) → r.id ∈ S → S.length < fuel + seen.length →
      v.RevisitsAfter p a seen r
  | 0, seen, _, _, hnd, hsub, _, hlen => by
    have := (hnd.subperm hsub).length_le
    omega
  | fuel + 1, seen, r, h, hnd, hsub, hr, hlen => by
    obtain ⟨hs, hmem | ⟨hns, r', hn, h'⟩⟩ := chase_succ_endless h
    · exact ⟨0, r, rfl, hs, .inl hmem⟩
    · have hsub' : ∀ i ∈ r.id :: seen, i ∈ S := by
        intro i hi
        rcases List.mem_cons.1 hi with rfl | hi
        · exact hr
        · exact hsub i hi
      have ih := revisitsAfter_of_chase_endless hS fuel (r.id :: seen) r' h'
        (List.nodup_cons.2 ⟨hns, hnd⟩) hsub' (hS r r' hn) (by simp only [List.length_cons]; omega)
      exact revisitsAfter_of_next hn ih

/-- Coming back, with nothing left before the chain starts, is coming back to an interface
of the chain itself. -/
theorem revisits_iff_revisitsAfter {r : IfaceRef} :
    v.Revisits p a r ↔ v.RevisitsAfter p a [] r := by
  constructor
  · rintro ⟨i, j, ri, rj, hij, hi, hj, hid⟩
    have hs : a.same (.iface rj) = false := by
      rw [← Ty.same_iface_congr a hid]
      exact same_eq_false_of_lt hij hi ⟨rj, hj⟩
    exact ⟨j, rj, hj, hs, .inr ⟨i, ri, hij, hi, hid⟩⟩
  · rintro ⟨j, rj, hj, -, hmem | ⟨i, ri, hij, hi, hid⟩⟩
    · simp at hmem
    · exact ⟨i, j, ri, rj, hij, hi, hj, hid⟩

end Chain

/-- The numbers of the interfaces among some types. -/
def ifaceIds (ts : List Ty) : List Nat := ts.filterMap Ty.ifaceId?

theorem mem_ifaceIds {ts : List Ty} {r : IfaceRef} (h : Ty.iface r ∈ ts) : r.id ∈ ifaceIds ts :=
  List.mem_filterMap.2 ⟨_, h, rfl⟩

/-- **The chase answers `endless` exactly on a cycle of interfaces.** In scopes that count
their bindings, following interface parameters from `r` with the actual type `a` answers
`endless` if and only if the chain of interfaces comes back to one it has left; the fuel,
one more than the bindings that can be read, never runs out first. -/
theorem chase_endless_iff {v : View} (hv : v.scopes.Sound) (p : Found) (a : Ty) (r : IfaceRef) :
    v.chase p a (p.length + v.scopes.bound + 2) [] r = .endless ↔ v.Revisits p a r := by
  rw [revisits_iff_revisitsAfter]
  constructor
  · intro h
    -- every interface after the first is a binding that the search reads
    have hS : ∀ r₁ r₂, v.nextIface p a r₁ = some r₂ → r₂.id ∈ r.id :: ifaceIds (v.boundTypes p) :=
      fun _ _ hn =>
        List.mem_cons_of_mem _ (mem_ifaceIds (resolve_mem_boundTypes (nextIface_eq_some hn).2.1))
    have hlen : (ifaceIds (v.boundTypes p)).length ≤ p.length + v.scopes.bound := by
      have h₁ := List.length_filterMap_le Ty.ifaceId? (v.boundTypes p)
      have h₂ : (v.boundTypes p).length = p.length + v.scopes.boundTypes.length := by
        simp [boundTypes]
      have h₃ : v.scopes.boundTypes.length ≤ v.scopes.bound := hv
      unfold ifaceIds
      omega
    exact revisitsAfter_of_chase_endless hS _ [] r h List.nodup_nil (by simp)
      (List.mem_cons_self ..) (by simp only [List.length_cons, List.length_nil]; omega)
  · exact chase_endless_of_revisitsAfter _ [] r

/-- A chase that answered something other than `endless` answers the same with more fuel:
the fuel is only read when it runs out. -/
theorem chase_add {v : View} {p : Found} {a : Ty} (k : Nat) :
    ∀ (fuel : Nat) (seen : List Nat) (r : IfaceRef), v.chase p a fuel seen r ≠ .endless →
      v.chase p a (fuel + k) seen r = v.chase p a fuel seen r
  | 0, _, _, h => absurd rfl h
  | fuel + 1, seen, r, h => by
    rw [Nat.add_right_comm]
    -- only a step on to the next interface reads the fuel, and then the rest of the chase does
    cases hn : v.nextIface p a r with
    | none => exact chase_succ_of_nextIface_none hn
    | some r' =>
      by_cases hr : r.id ∈ seen
      · have hs := (nextIface_eq_some hn).1
        rw [chase_succ_of_mem hs hr, chase_succ_of_mem hs hr]
      · rw [chase_succ_of_next hn hr] at h
        rw [chase_succ_of_next hn hr, chase_succ_of_next hn hr]
        exact chase_add k fuel _ r' h

/-- **Fuel beyond the bindings changes no chase.** In scopes that count their bindings, a chase
given more fuel than one past the bindings it can read answers as it does with exactly that
much: an `endless` answer comes from a cycle, which more fuel does not escape, and any other
answer was reached before the fuel ran out. -/
theorem chase_of_enough {v : View} (hv : v.scopes.Sound) {p : Found} {a : Ty} {F : Nat}
    (hF : p.length + v.scopes.bound + 2 ≤ F) (r : IfaceRef) :
    v.chase p a F [] r = v.chase p a (p.length + v.scopes.bound + 2) [] r := by
  by_cases he : v.chase p a (p.length + v.scopes.bound + 2) [] r = .endless
  · rw [he]
    exact chase_endless_of_revisitsAfter F [] r
      (revisits_iff_revisitsAfter.1 ((chase_endless_iff hv p a r).1 he))
  · obtain ⟨k, rfl⟩ := Nat.exists_eq_add_of_le hF
    exact chase_add k _ [] r he

/-- Matching an interface whose chase answers `endless` answers `endless`. -/
theorem solveIface_of_chase_endless {v : View} {p : Found} {r : IfaceRef} {a : Ty}
    (h : v.chase p a (p.length + v.scopes.bound + 2) [] r = .endless) :
    v.solveIface p r a = .endless := by
  rw [solveIface, h]

/-- **Matching an interface goes on for ever exactly on a cycle of interfaces.** In scopes
that count their bindings, following interface parameters from `r` with the actual type
`a`, the one step of the compatibility search that recurses without making anything
smaller, fails to end if and only if the chain of interfaces comes back to one it has left,
whatever bindings the search has found; and then asking whether `a` is assignable to `r`,
unifying them or asking whether `r` accepts `a` does not end either. -/
theorem interfaceSearch_endless_iff {v : View} (hv : v.scopes.Sound) (r : IfaceRef) (a : Ty) :
    (∀ p : Found, v.chase p a (p.length + v.scopes.bound + 2) [] r = .endless ↔
      v.Revisits p a r) ∧
    (v.Revisits [] a r → v.assignable (.iface r) a = .endless ∧
      (v.unify (.iface r) a).1 = .endless ∧ (v.accepts (.iface r) a).1 = .endless) := by
  refine ⟨fun p => chase_endless_iff hv p a r, fun h => ?_⟩
  have hs : v.solve [] (.iface r) a = .endless := by
    rw [solve, solveIface_of_chase_endless ((chase_endless_iff hv [] a r).2 h)]
  refine ⟨hs, ?_, ?_⟩
  · simp [unify, hs]
  · simp [accepts, assignable, hs]

/-- Two interfaces, each with a method returning its parameter, and a function taking values
of both parameters and then an `A`: the call `f(b(), a(), 1)` binds `A`'s parameter to `B` and
`B`'s to `A` before it comes to `1`. -/
def crossedSource : String :=
  "interface A<T> \x7b fn a(): T \x7d\ninterface B<S> \x7b fn b(): S \x7d\nextern fn f<T, S>(x: T, y: S, z: A): Int;\nf(b(), a(), 1)"

/-- The program read from `crossedSource`. -/
def crossedProgram : Program :=
  match (Token.scan crossedSource).bind (Parse.program ·) with
  | .ok p => p
  | .error _ => default

/-- The store that checking `crossedProgram` leaves when it stops, as `check` runs it. -/
def crossedStore : Store :=
  ((((Check.typeOf 0 0 .plain crossedProgram.body).run
    ⟨crossedProgram.decls, Builtins.ofDecls crossedProgram.decls, 4096,
      crossedProgram.decls.liveIfaces⟩).run.run ⟨.ofRoot crossedProgram.decls.env, 0⟩).run).2

/-- **The check of `crossedSource` does not end.** Checking the source stops with `endless`;
in the scopes it leaves, seen from the frame of the call `f(…)` (frame 2, after the root and
the program's block), `A`'s parameter leads to `B` and `B`'s back to `A`, so matching `A`
against `Int` revisits `A`, and asking whether `Int` is assignable to `A` does not end. -/
theorem interfaceSearch_endless_crossed :
    (∃ pos, checkSource crossedSource 4096 = .error (.check, ⟨.endless, pos⟩)) ∧
      (View.mk crossedStore.scopes 2 crossedProgram.decls).scopes.Sound ∧
      (View.mk crossedStore.scopes 2 crossedProgram.decls).Revisits [] (.basic "Int")
        ⟨3, "A", "T"⟩ ∧
      (View.mk crossedStore.scopes 2 crossedProgram.decls).assignable (.iface ⟨3, "A", "T"⟩)
        (.basic "Int") = .endless := by
  have hend : (match checkSource crossedSource 4096 with
      | .error (.check, e) => (match e.fault with | .endless => true | _ => false)
      | _ => false) = true := by
    decide +kernel
  have hfault : ∃ pos, checkSource crossedSource 4096 = .error (.check, ⟨.endless, pos⟩) := by
    match h : checkSource crossedSource 4096, hend with
    | .error (.check, ⟨.endless, pos⟩), _ => exact ⟨pos, rfl⟩
  have hv : (View.mk crossedStore.scopes 2 crossedProgram.decls).scopes.Sound := by
    decide +kernel
  have hr : (View.mk crossedStore.scopes 2 crossedProgram.decls).Revisits [] (.basic "Int")
      ⟨3, "A", "T"⟩ := by
    have h₂ : ((View.mk crossedStore.scopes 2 crossedProgram.decls).ifaceAt [] (.basic "Int") 2
        ⟨3, "A", "T"⟩).map (·.id) = some 3 := by
      decide +kernel
    obtain ⟨rj, hj, hid⟩ := Option.map_eq_some_iff.1 h₂
    exact ⟨0, 2, _, rj, by omega, rfl, hj, hid.symm⟩
  exact ⟨hfault, hv, hr, ((interfaceSearch_endless_iff hv _ _).2 hr).1⟩

end View

end Verve
