import Verve.Proofs.Rename
import Verve.Proofs.Chase

/-!
# Checking in relabelled scopes

Two runs of checking can differ in what came before them: the second may find more frames
in the scopes, opened and left by earlier work, and a fresh counter further on. A
`Relabel` says how the first run's store is laid over the second's: the first `base` frames
are shared, the second has `gap` frames more after them, and every name is renumbered as
`Placeholder.renumber start offset` says.

`Relabel.Embeds s t` holds when the scopes `t` are the scopes `s` so relabelled, both counting
their bindings. Then every read of the scopes gives the relabelled answer
(`Relabel.Embeds.get`, `Relabel.Embeds.simplify`), every write keeps the relation
(`Relabel.Embeds.set`, `Relabel.Embeds.child`, `Relabel.Embeds.commit`). A view of the
relabelled scopes from the relabelled frame (`Relabel.Views`) looks every name up as the view
it relabels (`Relabel.Views.look`); that the searches of `View` then answer alike is proved
once for every renaming of views, with the renaming scopes.
-/

namespace Verve

namespace Ty

mutual

/-- Renaming the generics of a type keeps whether it is stable. -/
theorem stable_rename (ρ : String → String) : (t : Ty) → (rename ρ t).stable = t.stable
  | .app h as => by rw [rename, stable, stable, stable_rename ρ h, stableList_rename ρ as]
  | .basic _ | .generic _ | .fn .. | .iface _ | .enum _ | .data _ | .ctor .. => rfl

/-- Renaming keeps whether every type of a list is stable. -/
theorem stableList_rename (ρ : String → String) :
    (ts : List Ty) → stableList (renameList ρ ts) = stableList ts
  | [] => rfl
  | t :: ts => by rw [renameList, stableList, stableList, stable_rename ρ t, stableList_rename ρ ts]

end

end Ty

namespace Scopes

/-- An application is simplified part by part. -/
theorem simplifyWith_app (s : Scopes) (i : Nat) (r : List String) (h : Ty) (args : List Ty) :
    s.simplifyWith i r (.app h args) = .app (s.simplifyWith i r h) (args.map (s.simplifyWith i r)) := by
  rw [simplifyWith]
  congr 1
  calc args.attach.map (fun x => s.simplifyWith i r x.val)
      = (args.attach.map Subtype.val).map (s.simplifyWith i r) := by rw [List.map_map]; rfl
    _ = args.map (s.simplifyWith i r) := by rw [List.attach_map_subtype_val]

section Unfold

variable (s : Scopes) (i : Nat) {r : List String} {b : Ty}

/-- A generic being followed already is left as it is. -/
theorem simplifyWith_generic_of_contains {n : String} (hr : r.contains n = true) :
    s.simplifyWith i r (.generic n) = .generic n := by
  rw [simplifyWith, dif_pos hr]

/-- A generic with a binding leads to the binding, unless it is bound to itself. -/
theorem simplifyWith_generic_of_get {n : String} (hr : r.contains n = false)
    (hb : s.get i n = some b) :
    s.simplifyWith i r (.generic n) =
      if b.isGenericNamed n then .generic n
      else if b.stable then b else s.simplifyWith i (n :: r) b := by
  rw [simplifyWith, dif_neg (ne_true_of_eq_false hr)]
  split
  · rename_i b' hb'
    rw [hb] at hb'
    cases hb'
    rfl
  · rename_i hb'
    rw [hb] at hb'
    cases hb'

/-- A generic with no binding, not yet followed, is left as it is. -/
theorem simplifyWith_generic_of_get_none {n : String} (hr : r.contains n = false)
    (hb : s.get i n = none) : s.simplifyWith i r (.generic n) = .generic n := by
  rw [simplifyWith, dif_neg (ne_true_of_eq_false hr)]
  split
  · rename_i b' hb'
    rw [hb] at hb'
    cases hb'
  · rfl

/-- An interface whose parameter was already followed is left as it is. -/
theorem simplifyWith_iface_of_contains {ref : IfaceRef} (hr : r.contains ref.generic = true) :
    s.simplifyWith i r (.iface ref) = .iface ref := by
  rw [simplifyWith, dif_pos hr]

/-- An interface whose parameter is bound leads to the binding, unless it is a generic or the
interface itself. -/
theorem simplifyWith_iface_of_get {ref : IfaceRef} (hr : r.contains ref.generic = false)
    (hb : s.get i ref.generic = some b) :
    s.simplifyWith i r (.iface ref) =
      if b.isGeneric || b.same (.iface ref) then .iface ref
      else if b.stable then b else s.simplifyWith i (ref.generic :: r) b := by
  rw [simplifyWith, dif_neg (ne_true_of_eq_false hr)]
  split
  · rename_i b' hb'
    rw [hb] at hb'
    cases hb'
    rfl
  · rename_i hb'
    rw [hb] at hb'
    cases hb'

/-- An interface whose parameter has no binding is left as it is. -/
theorem simplifyWith_iface_of_get_none {ref : IfaceRef} (hr : r.contains ref.generic = false)
    (hb : s.get i ref.generic = none) : s.simplifyWith i r (.iface ref) = .iface ref := by
  rw [simplifyWith, dif_neg (ne_true_of_eq_false hr)]
  split
  · rename_i b' hb'
    rw [hb] at hb'
    cases hb'
  · rfl

/-- Every type but a generic, an application or an interface is left as it is. -/
theorem simplifyWith_other {x : Ty} (hg : ∀ n, x ≠ .generic n) (ha : ∀ h as, x ≠ .app h as)
    (hi : ∀ ref, x ≠ .iface ref) : s.simplifyWith i r x = x := by
  cases x with
  | generic n => exact absurd rfl (hg n)
  | app h as => exact absurd rfl (ha h as)
  | iface ref => exact absurd rfl (hi ref)
  | _ => simp [simplifyWith]

end Unfold

end Scopes

/-! ### Properties every bound type has

A property of types holds of every type the scopes bind (`Scopes.BindsAll`) as long as each
write binds a type that has it. When the parts of a type inherit the property
(`Ty.Inherited`), simplifying and matching keep it too: what they return, and what they bind,
is a type they were given, a bound type, or parts of these. -/

/-- The newest binding of each name is one of the bindings. -/
theorem mem_of_mem_latestBindings {α : Type} {bs : List (String × α)} {b : String × α}
    (h : b ∈ latestBindings bs) : b ∈ bs := by
  unfold latestBindings at h
  rw [List.mem_reverse] at h
  -- the walk keeps only bindings it has passed
  have key : ∀ (acc l : List (String × α)),
      b ∈ l.foldl (fun acc b => if acc.any (·.1 == b.1) then acc else b :: acc) acc →
        b ∈ acc ∨ b ∈ l := by
    intro acc l
    induction l generalizing acc with
    | nil => exact .inl
    | cons c l ih =>
      intro hb
      rcases ih _ hb with hb | hb
      · dsimp only at hb
        split at hb
        · exact .inl hb
        · rcases List.mem_cons.1 hb with rfl | hb
          · exact .inr List.mem_cons_self
          · exact .inl hb
      · exact .inr (List.mem_cons_of_mem _ hb)
  rcases key [] bs h with hb | hb
  · simp at hb
  · exact hb

/-- A member of the parts of a list with one entry changed is a part of an entry before the change
or of the changed one. -/
theorem mem_flatMap_modify {α β : Type} (h : α → List β) (g : α → α) {y : β} :
    ∀ (l : List α) (i : Nat), y ∈ (l.modify i g).flatMap h → y ∈ l.flatMap h ∨ ∃ a ∈ l, y ∈ h (g a)
  | [], _, hy => by simp at hy
  | a :: l, 0, hy => by
    simp only [List.modify_zero_cons, List.flatMap_cons, List.mem_append] at hy
    rcases hy with hy | hy
    · exact .inr ⟨a, List.mem_cons_self, hy⟩
    · exact .inl (List.mem_append_right _ hy)
  | a :: l, i + 1, hy => by
    simp only [List.modify_succ_cons, List.flatMap_cons, List.mem_append] at hy
    rcases hy with hy | hy
    · exact .inl (List.mem_append_left _ hy)
    · rcases mem_flatMap_modify h g l i hy with hy | ⟨b, hb, hy⟩
      · exact .inl (List.mem_append_right _ hy)
      · exact .inr ⟨b, List.mem_cons_of_mem _ hb, hy⟩

namespace Scopes

/-- Every type bound in the scopes, in any frame, satisfies `P`. -/
def BindsAll (P : Ty → Prop) (s : Scopes) : Prop := ∀ t ∈ s.boundTypes, P t

variable {P : Ty → Prop} {s : Scopes}

/-- A type looked up in scopes whose bound types satisfy `P` satisfies `P`. -/
theorem BindsAll.get (hs : s.BindsAll P) {i : Nat} {x : String} {t : Ty} (h : s.get i x = some t) :
    P t :=
  hs t (get_mem_boundTypes h)

/-- Binding a name to a type that satisfies `P` keeps every bound type satisfying it. -/
theorem BindsAll.set (hs : s.BindsAll P) (i : Nat) (x : String) {t : Ty} (ht : P t) :
    (s.set i x t).BindsAll P := by
  obtain ⟨frames, bound⟩ := s
  intro u hu
  simp only [boundTypes, Scopes.set, Array.toList_modify] at hu
  rcases mem_flatMap_modify _ _ _ _ hu with hu | ⟨f, _, hu⟩
  · exact hs u hu
  · simp only [List.map_cons, List.mem_cons] at hu
    rcases hu with rfl | hu
    · exact ht
    · exact hs u (List.mem_flatMap.2 ⟨f, by assumption, hu⟩)

/-- Opening a frame binds nothing. -/
theorem BindsAll.child (hs : s.BindsAll P) (i : Nat) : (s.child i).1.BindsAll P := by
  obtain ⟨frames, bound⟩ := s
  intro u hu
  simp only [boundTypes, Scopes.child, Array.toList_push, List.flatMap_append, List.mem_append]
    at hu
  rcases hu with hu | hu
  · exact hs u hu
  · simp at hu

/-- Binding a list of names one after the other keeps `BindsAll P` when every type bound
satisfies `P`. -/
theorem BindsAll.foldl_set (i : Nat) :
    ∀ {bs : Found} {s : Scopes}, s.BindsAll P → (∀ b ∈ bs, P b.2) →
      (bs.foldl (fun s b => s.set i b.1 b.2) s).BindsAll P
  | [], _, hs, _ => hs
  | b :: _, _, hs, hbs => by
    rw [List.foldl_cons]
    exact foldl_set i (hs.set i b.1 (hbs b List.mem_cons_self)) fun c hc =>
      hbs c (List.mem_cons_of_mem _ hc)

/-- Committing bindings that satisfy `P` keeps every bound type satisfying it. -/
theorem BindsAll.commit (hs : s.BindsAll P) (i : Nat) {p : Found} (hp : ∀ b ∈ p, P b.2) :
    (s.commit i p).BindsAll P :=
  -- each binding written is the newest of its name, so one of `p`
  foldl_set i hs fun b hb => hp b (mem_of_mem_latestBindings hb)

end Scopes

/-- **A property of types that their parts inherit.** It holds of an application exactly
when it holds of the head and of every argument, and of a function type only when it holds of
every parameter and of the result. Simplifying and matching return a type, a binding, or parts
of these, so they keep such a property. -/
structure Ty.Inherited (P : Ty → Prop) : Prop where
  app : ∀ h as, P (.app h as) ↔ P h ∧ ∀ t ∈ as, P t
  fn : ∀ n ps r gs o, P (.fn n ps r gs o) → (∀ t ∈ ps, P t) ∧ P r

/-- The bindings an outcome holds with satisfy `P`. -/
def Outcome.All (P : Ty → Prop) : Outcome → Prop
  | .holds p => ∀ b ∈ p, P b.2
  | _ => True

namespace Scopes

variable {P : Ty → Prop} {s : Scopes}

/-- **Simplifying keeps an inherited property** of the type and of every bound type: it
returns the type, a binding, or an application of parts of these. -/
theorem BindsAll.simplifyWith (hP : Ty.Inherited P) (hs : s.BindsAll P) (i : Nat)
    (r : List String) {x : Ty} (hx : P x) : P (s.simplifyWith i r x) := by
  fun_induction s.simplifyWith i r x with
  | case1 | case2 | case5 | case7 | case8 | case11 | case12 => exact hx
  | case3 r n hr b hb => exact hs.get hb
  | case4 r n hr b hb hn hst ih => exact ih (hs.get hb)
  | case6 r hd args ih ihs =>
    obtain ⟨hhd, hargs⟩ := (hP.app _ _).1 hx
    refine (hP.app _ _).2 ⟨ih hhd, fun t ht => ?_⟩
    obtain ⟨⟨a, ha⟩, -, rfl⟩ := List.mem_map.1 ht
    exact ihs a ha (hargs a ha)
  | case9 r ref hr b hb => exact hs.get hb
  | case10 r ref hr b hb hn hst ih => exact ih (hs.get hb)

/-- Simplifying in a frame keeps an inherited property of the type. -/
theorem BindsAll.simplify (hP : Ty.Inherited P) (hs : s.BindsAll P) (i : Nat) {x : Ty}
    (hx : P x) : P (s.simplify i x) := by
  rw [simplify_eq_simplifyWith]
  exact hs.simplifyWith hP i [] hx

end Scopes

namespace View

variable (v : View) {P : Ty → Prop}

mutual

/-- **A search keeps an inherited property of the actual type**: every type it binds is a part
of the actual type. -/
theorem solve_all (hP : Ty.Inherited P) (p : Found) (hp : ∀ b ∈ p, P b.2) (e a : Ty)
    (ha : P a) : (v.solve p e a).All P := by
  fun_cases v.solve p e a
  case case1 n b hb => exact solveBound_all hP p hp b a ha
  case case2 n u hu hn => exact hp
  case case3 n u hu hn => exact List.forall_mem_cons.2 ⟨ha, hp⟩
  case case4 r => exact solveIface_all hP p hp r a ha
  case case5 hg hi => exact solveShape_all hP p hp e a ha
termination_by (sizeOf a, 3)
decreasing_by all_goals exact Prod.Lex.right _ (by decide)

/-- What `View.solve_all` says, for a generic bound to `b`. -/
theorem solveBound_all (hP : Ty.Inherited P) (p : Found) (hp : ∀ b ∈ p, P b.2) (b a : Ty)
    (ha : P a) : (v.solveBound p b a).All P := by
  fun_cases v.solveBound p b a
  case case1 r => exact solveIface_all hP p hp r a ha
  case case2 hi => exact solveShape_all hP p hp b a ha
termination_by (sizeOf a, 2)
decreasing_by all_goals exact Prod.Lex.right _ (by decide)

/-- What `View.solve_all` says, for an interface. -/
theorem solveIface_all (hP : Ty.Inherited P) (p : Found) (hp : ∀ b ∈ p, P b.2) (r : IfaceRef)
    (a : Ty) (ha : P a) : (v.solveIface p r a).All P := by
  rw [solveIface.eq_1]
  split
  · exact hp
  · split
    · exact List.forall_mem_cons.2 ⟨ha, hp⟩
    · trivial
  · exact solveShape_all hP p hp _ a ha
  · trivial
termination_by (sizeOf a, 1)
decreasing_by all_goals exact Prod.Lex.right _ (by decide)

/-- What `View.solve_all` says, for two types matched by their shapes. -/
theorem solveShape_all (hP : Ty.Inherited P) (p : Found) (hp : ∀ b ∈ p, P b.2) (e a : Ty)
    (ha : P a) : (v.solveShape p e a).All P := by
  fun_cases v.solveShape p e a
  case case4 he es ha' as hc => exact solveArgs_all hP p hp true es as ((hP.app _ _).1 ha).2
  case case14 n ps r gs o n' ps' r' gs' o' hlen p' hargs =>
    obtain ⟨hps, hr⟩ := hP.fn _ _ _ _ _ ha
    have h := solveArgs_all hP p hp false ps ps' hps
    rw [hargs] at h
    exact solve_all hP p' h r r' hr
  case case15 n ps r gs o n' ps' r' gs' o' hlen hargs =>
    exact solveArgs_all hP p hp false ps ps' (hP.fn _ _ _ _ _ ha).1
  case case2 | case6 | case8 | case10 | case12 => exact hp
  case case1 | case3 | case5 | case7 | case9 | case11 | case13 | case16 | case17 => trivial
termination_by (sizeOf a, 0)
decreasing_by
  all_goals
    apply Prod.Lex.left
    subst_vars
    simp only [Ty.app.sizeOf_spec, Ty.fn.sizeOf_spec]
    omega

/-- What `View.solve_all` says, for lists of arguments. -/
theorem solveArgs_all (hP : Ty.Inherited P) (p : Found) (hp : ∀ b ∈ p, P b.2) (sg : Bool)
    (es as : List Ty) (ha : ∀ t ∈ as, P t) : (v.solveArgs p sg es as).All P := by
  fun_cases v.solveArgs p sg es as
  case case1 e es a as hg => exact solveArgs_all hP p hp sg es as (List.forall_mem_cons.1 ha).2
  case case2 e es a as hg p' hs =>
    obtain ⟨ha₁, ha₂⟩ := List.forall_mem_cons.1 ha
    have h := solve_all hP p hp e a ha₁
    rw [hs] at h
    exact solveArgs_all hP p' h sg es as ha₂
  case case3 e es a as hg hs =>
    exact solve_all hP p hp e a (List.forall_mem_cons.1 ha).1
  case case4 => exact hp
termination_by (sizeOf as, 0)
decreasing_by
  all_goals
    apply Prod.Lex.left
    subst_vars
    simp only [List.cons.sizeOf_spec]
    omega

end

/-- Unifying with an actual type of an inherited property, in scopes whose bound types have it,
binds only types that have it. -/
theorem unify_all (hP : Ty.Inherited P) (hv : v.scopes.BindsAll P) (e : Ty) {a : Ty}
    (ha : P a) : (v.unify e a).2.BindsAll P ∧ (v.unify e a).1.All P := by
  have h := v.solve_all hP [] (fun _ h => absurd h List.not_mem_nil) e a ha
  obtain ⟨scopes, frame, decls⟩ := v
  unfold unify
  cases hs : View.solve ⟨scopes, frame, decls⟩ [] e a with
  | holds p =>
    rw [hs] at h
    exact ⟨hv.commit frame h, h⟩
  | fails => exact ⟨hv, trivial⟩
  | endless => exact ⟨hv, trivial⟩

/-- Accepting an actual type of an inherited property, in scopes whose bound types have it, binds
only types that have it. -/
theorem accepts_all (hP : Ty.Inherited P) (hv : v.scopes.BindsAll P) (e : Ty) {a : Ty}
    (ha : P a) : (v.accepts e a).2.BindsAll P := by
  unfold accepts
  split
  · exact (v.unify_all hP hv e ha).1
  · exact hv

end View

/-! ### Plain types

A function's name and the dispatch key of a type make the symbol a call dispatches to; a
relabelling keeps that symbol only when neither holds a `#`. Checking never brings such a
name in: every type it binds or finds is built from plain ones. -/

namespace Ty

/-- Bindings whose types are all plain. -/
def PlainBinds (bs : List (String × Ty)) : Prop := ∀ b ∈ bs, b.2.Plain

/-- A type is plain when its parts are, and a function type when its name is too. -/
theorem plain_inherited : Inherited Plain where
  app _ as := and_congr Iff.rfl (plainList_iff as)
  fn _ ps _ _ _ h := ⟨(plainList_iff ps).1 h.2.1, h.2.2⟩

end Ty

/-- The bindings an outcome holds with are plain. -/
def Outcome.Plain : Outcome → Prop
  | .holds p => Ty.PlainBinds p
  | _ => True

namespace Scopes

/-- Every type bound in the scopes is plain. -/
def Plain (s : Scopes) : Prop := ∀ t ∈ s.boundTypes, t.Plain

variable {s : Scopes}

/-- A type looked up in plain scopes is plain. -/
theorem Plain.get (hs : s.Plain) {i : Nat} {x : String} {t : Ty} (h : s.get i x = some t) :
    t.Plain :=
  BindsAll.get (P := Ty.Plain) hs h

/-- Binding a name to a plain type keeps the scopes plain. -/
theorem Plain.set (hs : s.Plain) (i : Nat) (x : String) {t : Ty} (ht : t.Plain) :
    (s.set i x t).Plain :=
  BindsAll.set (P := Ty.Plain) hs i x ht

/-- Opening a frame keeps the scopes plain. -/
theorem Plain.child (hs : s.Plain) (i : Nat) : (s.child i).1.Plain :=
  BindsAll.child (P := Ty.Plain) hs i

/-- Simplifying a plain type in plain scopes gives a plain type. -/
theorem Plain.simplify (hs : s.Plain) (i : Nat) {x : Ty} (hx : x.Plain) : (s.simplify i x).Plain :=
  BindsAll.simplify Ty.plain_inherited hs i hx

end Scopes

namespace View

variable (v : View)

/-- Unifying a plain actual type binds plain types only. -/
theorem unify_plain (hv : v.scopes.Plain) (e : Ty) {a : Ty} (ha : a.Plain) :
    (v.unify e a).2.Plain ∧ (v.unify e a).1.Plain :=
  v.unify_all Ty.plain_inherited hv e ha

/-- Accepting a plain actual type binds plain types only. -/
theorem accepts_plain (hv : v.scopes.Plain) (e : Ty) {a : Ty} (ha : a.Plain) :
    (v.accepts e a).2.Plain :=
  v.accepts_all Ty.plain_inherited hv e ha

end View

/-! ### Injective renamings of names

Bindings whose names are renamed one to one are looked up, and have their newest bindings
picked, as before the renaming. -/

section Injective

variable {ρ : String → String} (hρ : Function.Injective ρ)
include hρ

/-- Comparing names renamed one to one compares the names. -/
theorem beq_of_injective (x y : String) : (ρ x == ρ y) = (x == y) := by
  by_cases h : x = y
  · simp [h]
  · have h' : ρ x ≠ ρ y := fun e => h (hρ e)
    simp [h, h']

/-- A name renamed one to one is among the renamed names exactly when it was among the names. -/
theorem contains_map_of_injective (r : List String) (x : String) :
    (r.map ρ).contains (ρ x) = r.contains x := by
  simp [hρ.eq_iff]

/-- Looking the renamed name up among renamed bindings finds its binding, mapped. -/
theorem lookup_map_of_injective {α β : Type} (g : α → β) (p : List (String × α)) (x : String) :
    (p.map fun b => (ρ b.1, g b.2)).lookup (ρ x) = (p.lookup x).map g := by
  induction p with
  | nil => rfl
  | cons b p ih =>
    obtain ⟨y, u⟩ := b
    by_cases hx : x = y
    · subst hx
      simp
    · have hne : (x == y) = false := by simpa using hx
      simp only [List.map_cons, List.lookup_cons, beq_of_injective hρ, hne]
      exact ih

/-- The newest binding of each name, among renamed bindings, is the renamed newest binding. -/
theorem latestBindings_map_of_injective {α β : Type} (g : α → β) (p : List (String × α)) :
    latestBindings (p.map fun b => (ρ b.1, g b.2)) =
      (latestBindings p).map fun b => (ρ b.1, g b.2) := by
  unfold latestBindings
  -- the walk keeps the same bindings, since renamed names agree just when the names do
  have key : ∀ (acc bs : List (String × α)),
      (bs.map fun b => (ρ b.1, g b.2)).foldl
          (fun acc b => if acc.any (·.1 == b.1) then acc else b :: acc)
          (acc.map fun b => (ρ b.1, g b.2)) =
        (bs.foldl (fun acc b => if acc.any (·.1 == b.1) then acc else b :: acc) acc).map
          fun b => (ρ b.1, g b.2) := by
    intro acc bs
    induction bs generalizing acc with
    | nil => rfl
    | cons b bs ih =>
      have hany : (acc.map fun b => (ρ b.1, g b.2)).any (·.1 == ρ b.1) =
          acc.any (·.1 == b.1) := by
        simp [List.any_map, Function.comp_def, beq_of_injective hρ]
      simp only [List.map_cons, List.foldl_cons, hany]
      split
      · exact ih acc
      · exact ih (b :: acc)
  have hkey := key [] p
  rw [List.map_nil] at hkey
  rw [hkey, List.map_reverse]

end Injective

/-- How a run of checking is laid over another: the second run's scopes have `gap` frames
more, after the first `base`, and its fresh counter is `offset` ahead of the first run's,
which starts at `start`. -/
structure Relabel where
  base : Nat
  gap : Nat
  start : Nat
  offset : Nat

namespace Relabel

variable (L : Relabel)

/-- Where a frame of the first run stands in the second. -/
def frame (i : Nat) : Nat := if i < L.base then i else i + L.gap

/-- A name of the first run as the second has it. -/
def name (x : String) : String := Placeholder.renumber L.start L.offset x

/-- A type of the first run as the second has it. -/
def ty (t : Ty) : Ty := t.rename L.name

/-- A signature of the first run as the second has it. -/
def sig (s : Sig) : Sig := s.rename L.name

/-- A frame of the first run as the second has it. -/
def frameOf (f : Frame) : Frame :=
  ⟨f.parent.map L.frame, f.binds.map fun b => (L.name b.1, L.ty b.2)⟩

/-- Bindings found by a search of the first run, as the second finds them. -/
def found (p : Found) : Found := p.map fun b => (L.name b.1, L.ty b.2)

/-- An outcome of a search of the first run, as the second gets it. -/
def outcome : Outcome → Outcome
  | .holds p => .holds (L.found p)
  | .fails => .fails
  | .endless => .endless

/-- Renumbering names is one to one. -/
theorem name_injective : Function.Injective L.name := Placeholder.renumber_injective _ _

/-- A generic is relabelled by its name. -/
@[simp] theorem ty_generic (n : String) : L.ty (.generic n) = .generic (L.name n) := rfl

/-- An interface type is relabelled by its parameter. -/
@[simp] theorem ty_iface (r : IfaceRef) : L.ty (.iface r) = .iface (r.rename L.name) := rfl

/-- An application is relabelled part by part. -/
@[simp] theorem ty_app (h : Ty) (as : List Ty) : L.ty (.app h as) = .app (L.ty h) (as.map L.ty) := by
  simp [ty, Ty.rename]

/-- Relabelling a signature keeps its name. -/
@[simp] theorem sig_name (s : Sig) : (L.sig s).name = s.name := rfl

/-- The parameters of a relabelled signature are relabelled. -/
@[simp] theorem sig_params (s : Sig) : (L.sig s).params = s.params.map L.ty := rfl

/-- The result of a relabelled signature is relabelled. -/
@[simp] theorem sig_ret (s : Sig) : (L.sig s).ret = L.ty s.ret := rfl

/-- The generics of a relabelled signature are renamed. -/
@[simp] theorem sig_generics (s : Sig) : (L.sig s).generics = s.generics.map L.name := rfl

/-- The interface of a relabelled signature has its parameter renamed. -/
@[simp] theorem sig_owner (s : Sig) : (L.sig s).owner = s.owner.map (·.rename L.name) := rfl

/-- The signature of a relabelled function type is the relabelled signature. -/
theorem sig?_ty (t : Ty) : (L.ty t).sig? = t.sig?.map L.sig := Ty.sig?_rename t

/-- The signature of a relabelled constructor type is the relabelled signature. -/
theorem ctorSig?_ty (t : Ty) : (L.ty t).ctorSig? = t.ctorSig?.map L.sig := Ty.ctorSig?_rename t

/-- Relabelling keeps whether a type is stable. -/
@[simp] theorem stable_ty (b : Ty) : (L.ty b).stable = b.stable := Ty.stable_rename _ b

/-- Relabelling keeps whether a type is a generic. -/
@[simp] theorem isGeneric_ty (b : Ty) : (L.ty b).isGeneric = b.isGeneric := Ty.isGeneric_rename b

/-- Relabelling keeps whether a type is the generic of a name. -/
@[simp] theorem isGenericNamed_ty (n : String) (b : Ty) :
    (L.ty b).isGenericNamed (L.name n) = b.isGenericNamed n :=
  Ty.isGenericNamed_rename L.name_injective n b

/-- Relabelling keeps whether two types are the same. -/
@[simp] theorem same_ty (a b : Ty) : (L.ty a).same (L.ty b) = a.same b :=
  Ty.same_rename L.name_injective a b

/-- Relabelling keeps whether two types are the same declaration. -/
@[simp] theorem sameDecl_ty (a b : Ty) : (L.ty a).sameDecl (L.ty b) = a.sameDecl b :=
  Ty.sameDecl_rename a b

/-- Relabelling keeps a type's dispatch key. -/
@[simp] theorem dispatchKey_ty (b : Ty) : (L.ty b).dispatchKey = b.dispatchKey :=
  Ty.dispatchKey_rename b

/-- Relabelling keeps whether a type implements an interface. -/
@[simp] theorem implements_ty (d : Decls) (id : Nat) (b : Ty) :
    d.implements id (L.ty b) = d.implements id b := by
  simp [Decls.implements]

/-- A basic type is its own relabelling. -/
@[simp] theorem ty_basic (n : String) : L.ty (.basic n) = .basic n := rfl

/-- An enum is relabelled by its generics. -/
@[simp] theorem ty_enum (r : EnumRef) : L.ty (.enum r) = .enum (r.rename L.name) := rfl

/-- A function type is relabelled part by part, keeping its name. -/
@[simp] theorem ty_fn (n : String) (ps : List Ty) (r : Ty) (gs : List String)
    (o : Option IfaceRef) :
    L.ty (.fn n ps r gs o) = .fn n (ps.map L.ty) (L.ty r) (gs.map L.name) (o.map (·.rename L.name)) := by
  simp [ty, Ty.rename]

/-- An interface-free type stays free of interfaces at its head. -/
theorem ty_ne_iface {b : Ty} (hb : ∀ r, b ≠ .iface r) (r : IfaceRef) : L.ty b ≠ .iface r := by
  cases b with
  | iface r' => exact absurd rfl (hb r')
  | _ => simp [ty, Ty.rename]

/-- Only an application relabels to an application. -/
theorem ty_eq_app {b hd : Ty} {as : List Ty} (h : L.ty b = .app hd as) :
    ∃ hd' as', b = .app hd' as' := by
  cases b with
  | app hd' as' => exact ⟨hd', as', rfl⟩
  | _ => simp [ty, Ty.rename] at h

/-- A type that is no generic stays no generic. -/
theorem ty_ne_generic {b : Ty} (hb : ∀ y, b ≠ .generic y) (y : String) : L.ty b ≠ .generic y := by
  cases b with
  | generic n => exact absurd rfl (hb n)
  | _ => simp [ty, Ty.rename]

/-- Comparing relabelled names compares the names. -/
@[simp] theorem name_beq (x y : String) : (L.name x == L.name y) = (x == y) :=
  beq_of_injective L.name_injective x y

/-- Relabelling frames keeps their order. -/
theorem frame_lt_frame {i j : Nat} : L.frame i < L.frame j ↔ i < j := by
  unfold frame
  split <;> split <;> omega

/-- Relabelling frames is one to one. -/
theorem frame_injective : Function.Injective L.frame := by
  intro i j h
  unfold frame at h
  split at h <;> split at h <;> omega

variable {L}

/-- Looking a name up among bindings renamed by an injective renaming finds the renamed
binding. -/
theorem lookup_rename (p : List (String × Ty)) (x : String) :
    (p.map fun b => (L.name b.1, L.ty b.2)).lookup (L.name x) = (p.lookup x).map L.ty :=
  lookup_map_of_injective L.name_injective L.ty p x

/-- A relabelled name is among the relabelled names exactly when the name was among the names. -/
theorem contains_name (r : List String) (x : String) :
    (r.map L.name).contains (L.name x) = r.contains x :=
  contains_map_of_injective L.name_injective r x

/-- A name not among some names is not among them relabelled. -/
theorem contains_name_of_not {r : List String} {x : String} (hr : ¬r.contains x = true) :
    (r.map L.name).contains (L.name x) = false :=
  (contains_name r x).trans (Bool.eq_false_iff.2 hr)

/-- **The scopes `t` are the scopes `s` relabelled by `L`.** Both count their bindings. -/
structure Embeds (L : Relabel) (s t : Scopes) : Prop where
  base_le : L.base ≤ s.frames.size
  size_eq : t.frames.size = s.frames.size + L.gap
  frame_eq : ∀ i, t.frames[L.frame i]? = s.frames[i]?.map L.frameOf
  sound : s.Sound
  sound' : t.Sound

namespace Embeds

variable {s t : Scopes}

/-- **A name is looked up alike.** The frames a lookup passes through keep their order, and
their bindings are renamed one to one. -/
theorem get (h : L.Embeds s t) (i : Nat) (x : String) :
    t.get (L.frame i) (L.name x) = (s.get i x).map L.ty := by
  refine Scopes.get_map L.frame L.ty (fun _ _ => L.frame_lt_frame) (k := i + 1) (fun j _ => ?_) i
    (Nat.lt_succ_self i)
  rw [h.frame_eq j]
  cases s.frames[j]? with
  | none => rfl
  | some f => simp [frameOf, lookup_rename]

/-- Binding a name keeps the relation, with the relabelled name, type and frame. -/
theorem set (h : L.Embeds s t) (i : Nat) (x : String) (ty : Ty) :
    L.Embeds (s.set i x ty) (t.set (L.frame i) (L.name x) (L.ty ty)) := by
  obtain ⟨frames, bound⟩ := s
  obtain ⟨frames', bound'⟩ := t
  refine ⟨by simpa [Scopes.set] using h.base_le, by simpa [Scopes.set] using h.size_eq,
    fun j => ?_, h.sound.set i x ty, h.sound'.set _ _ _⟩
  simp only [Scopes.set, Array.getElem?_modify, L.frame_injective.eq_iff]
  have hj := h.frame_eq j
  simp only at hj
  split
  · rw [hj, Option.map_map, Option.map_map]
    rfl
  · exact hj

/-- Opening a frame keeps the relation, and the new frame of the relabelled scopes is the relabelled
new frame. -/
theorem child (h : L.Embeds s t) (i : Nat) :
    L.Embeds (s.child i).1 (t.child (L.frame i)).1 ∧
      (t.child (L.frame i)).2 = L.frame (s.child i).2 := by
  obtain ⟨frames, bound⟩ := s
  obtain ⟨frames', bound'⟩ := t
  have hbase := h.base_le
  have hsize := h.size_eq
  simp only at hbase hsize
  -- the new frame is the first after the others in both
  have hnew : ∀ j, L.frame j = frames'.size ↔ j = frames.size := by
    intro j
    unfold frame
    split <;> omega
  refine ⟨⟨by simp [Scopes.child]; omega, by simp [Scopes.child]; omega, fun j => ?_,
    h.sound.child i, h.sound'.child _⟩, ?_⟩
  · simp only [Scopes.child, Array.getElem?_push, hnew]
    split
    · rfl
    · exact h.frame_eq j
  · simp only [Scopes.child]
    exact ((hnew _).2 rfl).symm

/-- The newest binding of each name, among renamed bindings, is the renamed newest binding. -/
theorem latestBindings_rename (p : Found) :
    latestBindings (L.found p) = L.found (latestBindings p) :=
  latestBindings_map_of_injective L.name_injective L.ty p

/-- Committing bindings keeps the relation, with the bindings relabelled. -/
theorem commit (h : L.Embeds s t) (i : Nat) (p : Found) :
    L.Embeds (s.commit i p) (t.commit (L.frame i) (L.found p)) := by
  unfold Scopes.commit
  rw [latestBindings_rename]
  induction latestBindings p generalizing s t with
  | nil => exact h
  | cons b bs ih => exact ih (h.set i b.1 b.2)

/-- A binding found is found relabelled. -/
theorem get_some (h : L.Embeds s t) {i : Nat} {x : String} {b : Ty} (hb : s.get i x = some b) :
    t.get (L.frame i) (L.name x) = some (L.ty b) := by
  rw [h.get, hb]
  rfl

/-- A name that has no binding has none relabelled. -/
theorem get_none (h : L.Embeds s t) {i : Nat} {x : String} (hb : s.get i x = none) :
    t.get (L.frame i) (L.name x) = none := by
  rw [h.get, hb]
  rfl

/-- **Simplifying commutes with relabelling.** Every name followed and every binding read is
the relabelled one, and renaming keeps which bindings lead back to their own name. -/
theorem simplifyWith (h : L.Embeds s t) (i : Nat) (r : List String) (x : Ty) :
    t.simplifyWith (L.frame i) (r.map L.name) (L.ty x) = L.ty (s.simplifyWith i r x) := by
  fun_induction s.simplifyWith i r x with
  | case1 r n hr =>
    rw [ty_generic, Scopes.simplifyWith_generic_of_contains _ _ (by rw [contains_name]; exact hr)]
  | case2 r n hr b hb hn =>
    rw [ty_generic, Scopes.simplifyWith_generic_of_get _ _ (contains_name_of_not hr) (h.get_some hb),
      isGenericNamed_ty, if_pos hn]
  | case3 r n hr b hb hn hst =>
    rw [ty_generic, Scopes.simplifyWith_generic_of_get _ _ (contains_name_of_not hr) (h.get_some hb),
      isGenericNamed_ty, if_neg hn, stable_ty, if_pos hst]
  | case4 r n hr b hb hn hst ih =>
    rw [ty_generic, Scopes.simplifyWith_generic_of_get _ _ (contains_name_of_not hr) (h.get_some hb),
      isGenericNamed_ty, if_neg hn, stable_ty, if_neg hst]
    exact ih
  | case5 r n hr hb =>
    rw [ty_generic,
      Scopes.simplifyWith_generic_of_get_none _ _ (contains_name_of_not hr) (h.get_none hb)]
  | case6 r hd args ih ihs =>
    rw [ty_app, Scopes.simplifyWith_app, ih, List.attach_map_val, ty_app, List.map_map,
      List.map_map]
    congr 1
    exact List.map_congr_left fun a ha => ihs a ha
  | case7 r ref hr =>
    rw [ty_iface, Scopes.simplifyWith_iface_of_contains _ _
      (by rw [IfaceRef.rename, contains_name]; exact hr)]
  | case8 r ref hr b hb hn =>
    rw [ty_iface, @Scopes.simplifyWith_iface_of_get t (L.frame i) (r.map L.name) (L.ty b)
      (ref.rename L.name) (contains_name_of_not hr) (h.get_some hb), ← ty_iface, isGeneric_ty,
      same_ty, if_pos hn]
  | case9 r ref hr b hb hn hst =>
    rw [ty_iface, @Scopes.simplifyWith_iface_of_get t (L.frame i) (r.map L.name) (L.ty b)
      (ref.rename L.name) (contains_name_of_not hr) (h.get_some hb), ← ty_iface, isGeneric_ty,
      same_ty, if_neg hn, stable_ty, if_pos hst]
  | case10 r ref hr b hb hn hst ih =>
    rw [ty_iface, @Scopes.simplifyWith_iface_of_get t (L.frame i) (r.map L.name) (L.ty b)
      (ref.rename L.name) (contains_name_of_not hr) (h.get_some hb), ← ty_iface, isGeneric_ty,
      same_ty, if_neg hn, stable_ty, if_neg hst]
    exact ih
  | case11 r ref hr hb =>
    rw [ty_iface, @Scopes.simplifyWith_iface_of_get_none t (L.frame i) (r.map L.name)
      (ref.rename L.name) (contains_name_of_not hr) (h.get_none hb)]
  | case12 r x hg ha hi =>
    refine Scopes.simplifyWith_other _ _ (ty_ne_generic L hg) (fun hd as he => ?_)
      (L.ty_ne_iface hi)
    obtain ⟨hd', as', rfl⟩ := L.ty_eq_app he
    exact ha hd' as' rfl

/-- Simplifying in a frame commutes with relabelling. -/
theorem simplify (h : L.Embeds s t) (i : Nat) (x : Ty) :
    t.simplify (L.frame i) (L.ty x) = L.ty (s.simplify i x) := by
  rw [Scopes.simplify_eq_simplifyWith, Scopes.simplify_eq_simplifyWith]
  exact h.simplifyWith i [] x

end Embeds

/-- **The view `w` is the view `v` relabelled by `L`:** relabelled scopes, seen from the
relabelled frame, with the same declarations. -/
structure Views (L : Relabel) (v w : View) : Prop where
  embeds : L.Embeds v.scopes w.scopes
  frame_eq : w.frame = L.frame v.frame
  decls_eq : w.decls = v.decls

namespace Views

variable {v w : View}

/-- A name is looked up among the bindings found, and then in the scopes, as the view it relabels
looks it up. -/
theorem look (hv : L.Views v w) (p : Found) (x : String) :
    w.look (L.found p) (L.name x) = (v.look p x).map L.ty := by
  unfold View.look
  rw [found, lookup_rename]
  cases hl : p.lookup x with
  | some t => rfl
  | none =>
    show w.scopes.get w.frame (L.name x) = (v.scopes.get v.frame x).map L.ty
    rw [hv.frame_eq]
    exact hv.embeds.get v.frame x

end Views

end Relabel

end Verve
