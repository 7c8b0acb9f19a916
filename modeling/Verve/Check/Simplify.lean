import Verve.Scope

/-!
# Simplifying types

A type is simplified in a scope by replacing each generic by what it is bound to, as long
as that leads somewhere new:

* a generic bound to a type other than itself is replaced by the simplified binding;
* an interface whose parameter is bound to a type that is neither a generic nor the
  interface itself is replaced by the simplified binding;
* an application is simplified part by part;
* every other type, function types included, stays as it is.

While a name is being followed it is not followed again, so a cycle of bindings (`A` bound
to `B` and `B` to `A`, or `A` to `List<A>`) stops at the first repeated name. Each name
followed is a bound name not followed yet, so the search ends. The measure of
`Scopes.simplifyWith` is the size of the type plus the sizes of the bindings of the names not
followed yet: following a name takes its binding out of the sum and goes on with that
binding, and every other step goes on with a part of the type.

A type with no generic and no interface outside function types is `stable`: simplifying
leaves it as it is in every scope (`Scopes.simplifyWith_of_stable`). Simplifying returns
such a type, or such a binding, at once instead of building it again, which keeps deep
types cheap.
-/

namespace Verve

theorem length_filter_le_of_imp {α : Type} (l : List α) (p q : α → Bool)
    (h : ∀ a, p a = true → q a = true) : (l.filter p).length ≤ (l.filter q).length := by
  induction l with
  | nil => simp
  | cons a l ih =>
    by_cases hp : p a = true
    · simp [hp, h a hp]; omega
    · by_cases hq : q a = true <;> simp [hp, hq] <;> omega

/-- Leaving out one more name of a list leaves fewer of its names in. -/
theorem length_filter_lt_of_mem {l r : List String} {x : String} (hx : x ∈ l)
    (hr : r.contains x = false) :
    (l.filter (fun y => !(x :: r).contains y)).length <
      (l.filter (fun y => !r.contains y)).length := by
  have hr' : x ∉ r := by simpa using hr
  induction l with
  | nil => simp at hx
  | cons a l ih =>
    have hle := length_filter_le_of_imp l (fun y => !(x :: r).contains y)
      (fun y => !r.contains y) (by intro y; simp)
    by_cases hax : a = x
    · subst hax
      rw [List.filter_cons_of_neg (by simp), List.filter_cons_of_pos (by simpa using hr')]
      simp only [List.length_cons]
      omega
    · have hx' : x ∈ l := by
        rcases List.mem_cons.1 hx with h | h
        · exact absurd h.symm hax
        · exact h
      have := ih hx'
      by_cases har : a ∈ r
      · rw [List.filter_cons_of_neg (by simp [har]), List.filter_cons_of_neg (by simp [har])]
        exact this
      · rw [List.filter_cons_of_pos (by simp [har, hax]), List.filter_cons_of_pos (by simp [har])]
        simp only [List.length_cons]
        omega

/-- The total weight of the members of a list. -/
def weightOf {α : Type} (f : α → Nat) : List α → Nat
  | [] => 0
  | a :: l => f a + weightOf f l

/-- Leaving out more members of a list leaves no more weight in. -/
theorem weightOf_filter_le_of_imp {α : Type} (l : List α) (p q : α → Bool) (f : α → Nat)
    (h : ∀ a, p a = true → q a = true) : weightOf f (l.filter p) ≤ weightOf f (l.filter q) := by
  induction l with
  | nil => simp
  | cons a l ih =>
    by_cases hp : p a = true
    · simp [hp, h a hp, weightOf]; omega
    · by_cases hq : q a = true <;> simp [hp, hq, weightOf] <;> omega

/-- Leaving out one more name of a list takes off at least the weight of that name. -/
theorem weightOf_filter_add_le_of_mem {l r : List String} {x : String} (f : String → Nat)
    (hx : x ∈ l) (hr : r.contains x = false) :
    weightOf f (l.filter (fun y => !(x :: r).contains y)) + f x ≤
      weightOf f (l.filter (fun y => !r.contains y)) := by
  have hr' : x ∉ r := by simpa using hr
  induction l with
  | nil => simp at hx
  | cons a l ih =>
    have hle := weightOf_filter_le_of_imp l (fun y => !(x :: r).contains y)
      (fun y => !r.contains y) f (by intro y; simp)
    by_cases hax : a = x
    · subst hax
      rw [List.filter_cons_of_neg (by simp), List.filter_cons_of_pos (by simpa using hr')]
      simp only [weightOf]
      omega
    · have hx' : x ∈ l := by
        rcases List.mem_cons.1 hx with h | h
        · exact absurd h.symm hax
        · exact h
      have := ih hx'
      by_cases har : a ∈ r
      · rw [List.filter_cons_of_neg (by simp [har]), List.filter_cons_of_neg (by simp [har])]
        exact this
      · rw [List.filter_cons_of_pos (by simp [har, hax]), List.filter_cons_of_pos (by simp [har])]
        simp only [weightOf]
        omega

namespace Ty

mutual

/-- Whether simplifying leaves a type as it is in every scope: no generic and no interface
stands in it outside a function type. -/
def stable : Ty → Bool
  | .generic _ | .iface _ => false
  | .app h as => stable h && stableList as
  | _ => true

/-- `stable` for every member of a list. -/
def stableList : List Ty → Bool
  | [] => true
  | t :: ts => stable t && stableList ts

end

theorem stableList_iff (ts : List Ty) : stableList ts = true ↔ ∀ t ∈ ts, stable t = true := by
  induction ts with
  | nil => simp [stableList]
  | cons t ts ih => simp [stableList, ih]

end Ty

namespace Scopes

set_option linter.unusedVariables false in
/-- Simplifies a type in frame `i`, not following the names in `resolving` again. -/
def simplifyWith (s : Scopes) (i : Nat) (resolving : List String) (t : Ty) : Ty :=
  match t with
  | .generic n =>
    if hr : resolving.contains n then t
    else
      match hb : s.get i n with
      | some b =>
        if b.isGenericNamed n then t
        else if b.stable then b
        else simplifyWith s i (n :: resolving) b
      | none => t
  | .app h args =>
    .app (simplifyWith s i resolving h)
      (args.attach.map fun ⟨a, _⟩ => simplifyWith s i resolving a)
  | .iface r =>
    if hr : resolving.contains r.generic then t
    else
      match hb : s.get i r.generic with
      | some b =>
        if b.isGeneric || b.same (.iface r) then t
        else if b.stable then b
        else simplifyWith s i (r.generic :: resolving) b
      | none => t
  | _ => t
termination_by sizeOf t +
  weightOf (fun y => sizeOf (s.get i y)) ((s.names i).filter (fun y => !resolving.contains y))
decreasing_by
  · have h := weightOf_filter_add_le_of_mem (fun y => sizeOf (s.get i y)) (mem_names_of_get hb)
      (by simpa using hr)
    simp only [hb, Option.some.sizeOf_spec] at h
    omega
  · simp only [Ty.app.sizeOf_spec]
    omega
  · have := List.sizeOf_lt_of_mem ‹a ∈ args›
    simp only [Ty.app.sizeOf_spec]
    omega
  · have h := weightOf_filter_add_le_of_mem (fun y => sizeOf (s.get i y)) (mem_names_of_get hb)
      (by simpa using hr)
    simp only [hb, Option.some.sizeOf_spec] at h
    omega

/-- A stable type is its own simplification, whatever names are being followed. -/
theorem simplifyWith_of_stable (s : Scopes) (i : Nat) (r : List String) :
    ∀ t : Ty, t.stable = true → s.simplifyWith i r t = t
  | .basic _, _ => by simp [simplifyWith]
  | .generic _, h => by simp [Ty.stable] at h
  | .iface _, h => by simp [Ty.stable] at h
  | .enum _, _ => by simp [simplifyWith]
  | .data _, _ => by simp [simplifyWith]
  | .ctor .., _ => by simp [simplifyWith]
  | .fn .., _ => by simp [simplifyWith]
  | .app h args, hs => by
    rw [Ty.stable, Bool.and_eq_true, Ty.stableList_iff] at hs
    have hargs : ∀ a ∈ args, s.simplifyWith i r a = a := fun a ha =>
      have := List.sizeOf_lt_of_mem ha
      simplifyWith_of_stable s i r a (hs.2 a ha)
    rw [simplifyWith, simplifyWith_of_stable s i r h hs.1]
    congr 1
    calc args.attach.map (fun x => s.simplifyWith i r x.val)
        = (args.attach.map Subtype.val).map (s.simplifyWith i r) := by rw [List.map_map]; rfl
      _ = args.map (s.simplifyWith i r) := by rw [List.attach_map_subtype_val]
      _ = args := (List.map_congr_left hargs).trans (List.map_id args)
termination_by t => sizeOf t

/-- Simplifies a type in frame `i`; a stable type is returned as it is. -/
def simplify (s : Scopes) (i : Nat) (t : Ty) : Ty :=
  if t.stable then t else s.simplifyWith i [] t

/-- Simplifying is following no name at first. -/
theorem simplify_eq_simplifyWith (s : Scopes) (i : Nat) (t : Ty) :
    s.simplify i t = s.simplifyWith i [] t := by
  unfold simplify
  split
  · rename_i h
    exact (simplifyWith_of_stable s i [] t h).symm
  · rfl

end Scopes

end Verve
