import Verve.Proofs.Annotations

/-!
# Acceptance of a type by itself

Main statement: `View.assignable_self_of_annotation`. A type that an annotation denotes is
assignable to itself, in every scope that leaves its generics unbound or bound to themselves,
as long as no generic in it is applied to arguments. Each kind of annotation matches itself
and binds nothing (`View.solve_self_of_denotes`): a generic that stands for itself, a
declaration of the table, an application of a declaration, member by member, and a function
type, parameter by parameter and then its result.

An application matches another only when their heads are one declaration, and a generic is
none, so an application of a generic matches no type at all (`View.solve_generic_application`):
`T<Int>`, which the reader accepts with `T` in scope, is not assignable to itself
(`View.generic_application_rejects_itself`).
-/

namespace Verve

namespace Ty

mutual

/-- Whether some application in a type has a generic as its head. -/
def appliesGeneric : Ty → Bool
  | .app h as => h.isGeneric || appliesGeneric h || appliesGenericList as
  | .fn _ ps r _ _ | .ctor _ _ ps r _ => appliesGenericList ps || appliesGeneric r
  | _ => false

/-- `appliesGeneric` of some member of a list. -/
def appliesGenericList : List Ty → Bool
  | [] => false
  | t :: ts => appliesGeneric t || appliesGenericList ts

end

theorem appliesGenericList_eq_false {ts : List Ty} :
    appliesGenericList ts = false ↔ ∀ t ∈ ts, appliesGeneric t = false := by
  induction ts with
  | nil => simp [appliesGenericList]
  | cons t ts ih => simp [appliesGenericList, ih]

mutual

/-- The names of the generics that stand in a type, also inside applications, function types
and constructors. -/
def occurring : Ty → List String
  | .generic n => [n]
  | .app h as => occurring h ++ occurringList as
  | .fn _ ps r _ _ | .ctor _ _ ps r _ => occurringList ps ++ occurring r
  | _ => []

/-- `occurring` of every member of a list, one after another. -/
def occurringList : List Ty → List String
  | [] => []
  | t :: ts => occurring t ++ occurringList ts

end

theorem mem_occurringList {x : String} {ts : List Ty} :
    x ∈ occurringList ts ↔ ∃ t ∈ ts, x ∈ occurring t := by
  induction ts with
  | nil => simp [occurringList]
  | cons t ts ih => simp [occurringList, ih]

/-- A declaration spelt by a name is the head of one declaration. -/
theorem sameDecl_self_of_isNamed {x : String} {t : Ty} (h : t.isNamed x = true) :
    t.sameDecl t = true := by
  cases t <;> simp_all [isNamed, sameDecl]

end Ty

namespace View

variable {v : View}

/-! ## A type matches itself -/

/-- A generic that the scopes leave unbound, or bind to itself, matches itself and binds
nothing. -/
theorem solve_generic_self {x : String}
    (hx : v.scopes.get v.frame x = none ∨ v.scopes.get v.frame x = some (.generic x)) :
    v.solve [] (.generic x) (.generic x) = .holds [] := by
  have hr : v.resolve [] x [] rfl = .error x := by
    rcases hx with hx | hx
    · exact resolve_of_none v [] rfl (by simpa [look] using hx)
    · rw [resolve_of_generic v [] rfl (by simpa [look] using hx), dif_pos (by simp)]
  rw [solve_generic_error _ hr]
  simp [Ty.isGenericNamed]

/-- A declaration spelt by a name matches itself and binds nothing. -/
theorem solve_self_of_isNamed {x : String} {t : Ty} (h : t.isNamed x = true) (p : Found) :
    v.solve p t t = .holds p := by
  cases t with
  | basic n => rw [solve.eq_def, solveShape.eq_def]; simp
  | enum r => rw [solve.eq_def, solveShape.eq_def]; simp
  | iface r =>
    -- the search for an implementation accepts the interface itself at once
    rw [solve.eq_def]
    dsimp only
    rw [solveIface.eq_def]
    simp [chase, Ty.same]
  | _ => simp [Ty.isNamed] at h

/-- Lists of types that each match themselves match themselves, member by member. -/
theorem solveArgs_self (skip : Bool) {ts : List Ty} (h : ∀ t ∈ ts, v.solve [] t t = .holds []) :
    v.solveArgs [] skip ts ts = .holds [] := by
  induction ts with
  | nil => exact solveArgs_nil [] skip
  | cons t ts ih =>
    have ht := h t List.mem_cons_self
    have hts := ih fun u hu => h u (List.mem_cons_of_mem _ hu)
    rw [solveArgs.eq_def]
    dsimp only
    split
    · exact hts
    · simp only [ht]
      exact hts

/-- **A type that an annotation denotes matches itself**, binding nothing, when no generic in
it is applied to arguments and the scopes leave its generics unbound or bound to themselves. -/
theorem solve_self_of_denotes {N : String → Prop} {G : List String} {D : Decls}
    (hD : D.TypesNamed) {t : Ty} (ht : Parse.Denotes N G D t) :
    t.appliesGeneric = false →
      (∀ x ∈ t.occurring,
        v.scopes.get v.frame x = none ∨ v.scopes.get v.frame x = some (.generic x)) →
      v.solve [] t t = .holds [] := by
  induction ht with
  | @name x t _ hx =>
    intro _ hfree
    rcases hx with ⟨-, rfl⟩ | ⟨-, hd⟩
    · exact solve_generic_self (hfree x (by simp [Ty.occurring]))
    · exact solve_self_of_isNamed (hD.typeNamed hd) []
  | @app x h args _ hx _ ih =>
    intro hhead hfree
    simp only [Ty.appliesGeneric, Bool.or_eq_false_iff, Ty.appliesGenericList_eq_false] at hhead
    obtain ⟨⟨hgen, -⟩, hargs⟩ := hhead
    -- the head is no generic, so it is a declaration of the table
    obtain ⟨-, hd⟩ : G.contains x = false ∧ D.typeNamed? x = some h := by
      rcases hx with ⟨-, rfl⟩ | hx
      · simp [Ty.isGeneric] at hgen
      · exact hx
    have hself : ∀ a ∈ args, v.solve [] a a = .holds [] := fun a ha =>
      ih a ha (hargs a ha) fun y hy =>
        hfree y (by simp only [Ty.occurring, List.mem_append, Ty.mem_occurringList]; exact .inr ⟨a, ha, hy⟩)
    rw [solve.eq_def, solveShape.eq_def]
    simp only [Ty.sameDecl_self_of_isNamed (hD.typeNamed hd), beq_self_eq_true, Bool.and_self,
      if_true]
    exact solveArgs_self true hself
  | @fn ps r _ _ ihps ihr =>
    intro hhead hfree
    simp only [Ty.appliesGeneric, Bool.or_eq_false_iff, Ty.appliesGenericList_eq_false] at hhead
    have hps : v.solveArgs [] false ps ps = .holds [] := solveArgs_self false fun p hp =>
      ihps p hp (hhead.1 p hp) fun y hy =>
        hfree y (by simp only [Ty.occurring, List.mem_append, Ty.mem_occurringList]; exact .inl ⟨p, hp, hy⟩)
    have hr : v.solve [] r r = .holds [] := ihr hhead.2 fun y hy =>
      hfree y (by simp only [Ty.occurring, List.mem_append]; exact .inr hy)
    rw [solve.eq_def, solveShape.eq_def]
    simp only [beq_self_eq_true, if_true, hps, hr]

/-- **Acceptance is reflexive on annotations without applied generics.** Every type read as an
annotation, with a table whose type names name themselves, is assignable to itself in every
scope that leaves its generics unbound or bound to themselves, unless a generic in it is
applied to arguments. -/
theorem assignable_self_of_annotation (v : View) {s s' : Parse.State} {fuel : Nat} {t : Ty}
    (ht : (Parse.typeExpr fuel).run s = .ok (t, s')) (hD : s.decls.TypesNamed)
    (hhead : t.appliesGeneric = false)
    (hfree : ∀ x ∈ t.occurring,
      v.scopes.get v.frame x = none ∨ v.scopes.get v.frame x = some (.generic x)) :
    v.assignable t t = .holds [] := by
  have hden := (Parse.typeExpr_denotes (N := fun _ => True) fuel s t s'
    ⟨rfl, rfl, fun _ _ => trivial⟩ ht).2
  exact solve_self_of_denotes hD hden hhead hfree

/-- `fn(T, List<T>): T`, read with `T` in scope, is assignable to itself where `T` stands for
itself. -/
theorem assignable_self_fn_of_list :
    let s : Parse.State := ⟨#[⟨.kwFn, "fn", ⟨0, 2⟩⟩, ⟨.openParen, "(", ⟨2, 3⟩⟩,
      ⟨.identifier, "T", ⟨3, 4⟩⟩, ⟨.comma, ",", ⟨4, 5⟩⟩, ⟨.identifier, "List", ⟨6, 10⟩⟩,
      ⟨.less, "<", ⟨10, 11⟩⟩, ⟨.identifier, "T", ⟨11, 12⟩⟩, ⟨.greater, ">", ⟨12, 13⟩⟩,
      ⟨.closeParen, ")", ⟨13, 14⟩⟩, ⟨.colon, ":", ⟨14, 15⟩⟩, ⟨.identifier, "T", ⟨16, 17⟩⟩,
      ⟨.eof, "EOF", ⟨17, 17⟩⟩], 0, Decls.initial, ["T"]⟩
    let t : Ty := .fn "fn" [.generic "T", .app (.enum Decls.listRef) [.generic "T"]]
      (.generic "T") [] none
    let v : View := ⟨Scopes.ofRoot [("T", .generic "T")], 0, Decls.initial⟩
    (Parse.typeExpr 12).run s = .ok (t, { s with pos := 11 }) ∧ s.decls.TypesNamed ∧
      t.appliesGeneric = false ∧
      (∀ x ∈ t.occurring,
        v.scopes.get v.frame x = none ∨ v.scopes.get v.frame x = some (.generic x)) ∧
      v.assignable t t = .holds [] := by
  intro s t v
  have hD : s.decls.TypesNamed := Decls.typesNamed_initial
  -- the annotation denotes `t`: `T` is the generic in scope, `List` the declared enum
  have hT : Parse.Denotes (fun x => Ty.declaredName x = x) ["T"] Decls.initial (.generic "T") :=
    .name (x := "T") (by decide) (.inl ⟨by decide, rfl⟩)
  have hList : Parse.Denotes (fun x => Ty.declaredName x = x) ["T"] Decls.initial
      (.app (.enum Decls.listRef) [.generic "T"]) :=
    .app (x := "List") (by decide) (.inr ⟨by decide, rfl⟩) (by simpa using hT)
  have hden : Parse.Denotes (fun x => Ty.declaredName x = x) ["T"] Decls.initial t :=
    .fn (by simpa using ⟨hT, hList⟩) hT
  have hrun : (Parse.typeExpr 12).run s = .ok (t, { s with pos := 11 }) :=
    Parse.run_typeExpr_of_map (fun _ h => h) hD hden (by decide) (by decide)
  have hhead : t.appliesGeneric = false := rfl
  have hfree : ∀ x ∈ t.occurring,
      v.scopes.get v.frame x = none ∨ v.scopes.get v.frame x = some (.generic x) := by
    intro x hx
    simp only [t, Ty.occurring, Ty.occurringList, List.mem_append, List.mem_singleton,
      List.not_mem_nil, or_false, false_or, or_self] at hx
    subst hx
    exact .inr (by rw [Scopes.get]; rfl)
  exact ⟨hrun, hD, hhead, hfree, assignable_self_of_annotation v hrun hD hhead hfree⟩

/-- An application whose head is a generic matches no type: heads match only when they are
one declaration. -/
theorem solve_generic_application (p : Found) (x : String) (args : List Ty) (a : Ty) :
    v.solve p (.app (.generic x) args) a = .fails := by
  rw [solve.eq_def, solveShape.eq_def]
  cases a <;> simp [Ty.sameDecl, Ty.same]

/-- **A generic applied to arguments is not assignable to itself.** `T<Int>`, read with `T` in
scope, is not assignable to `T<Int>` where `T` stands for itself. -/
theorem generic_application_rejects_itself :
    (match Token.scan "T<Int>" with
      | .ok toks => match Parse.typeExprOf toks Decls.initial ["T"] with
        | .ok (t, trailing) => t.tagged == "?T<Int>" && !trailing
        | .error _ => false
      | .error _ => false) = true ∧
    (⟨Scopes.ofRoot [("T", .generic "T")], 0, Decls.initial⟩ : View).assignable
      (.app (.generic "T") [.basic "Int"]) (.app (.generic "T") [.basic "Int"]) = .fails :=
  ⟨by decide +kernel, solve_generic_application [] "T" [.basic "Int"] _⟩

end View

end Verve
