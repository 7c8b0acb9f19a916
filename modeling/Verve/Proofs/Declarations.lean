import Mathlib.Logic.Relation
import Verve.Proofs.Dispatch

/-!
# What reading does to the declaration table

Reading a program changes the declaration table in five ways only (`Decls.Step`): it binds a
name in the root scope, declares an interface or an enum under its own name, records an
implementation, or takes a fresh declaration number. `Parse.Records r` says that every run
of the reader `r` that returns leaves a table reached from the one it started with by such
steps; every reader of the grammar has it, by recursion on the fuel the readers recurse on,
and so does reading a whole program (`Parse.program_records`).

An invariant of the table is then proved once per step and holds of every table that
reading builds. The one used here: every type name denotes a basic type, an enum or an
interface spelt as that name (`Decls.TypesNamed`), true of the built-in names and kept by
every declaration (`Parse.program_typesNamed`).
-/

namespace Verve

namespace Ty

/-- Whether a type is a declaration spelt `x`: a basic type, an enum or an interface of that
name. -/
def isNamed (x : String) : Ty → Bool
  | .basic n => n == x
  | .enum r => r.name == x
  | .iface r => r.name == x
  | _ => false

end Ty

namespace Decls

/-- One declaration: the ways in which reading a program changes the table. -/
inductive Step : Decls → Decls → Prop
  /-- A name bound in the root scope. -/
  | bind (d : Decls) (x : String) (t : Ty) : Step d (d.set x t)
  /-- An interface declared under its name, with its methods and no implementation. -/
  | iface (d : Decls) (r : IfaceRef) (methods : List (String × Sig)) :
      Step d ((d.setType r.name (.iface r)).addIface ⟨r, methods, []⟩)
  /-- An enum declared under its name. -/
  | enum (d : Decls) (r : EnumRef) : Step d (d.setType r.name (.enum r))
  /-- An implementation recorded for an interface under a key. -/
  | impl (d : Decls) (id : Nat) (key : String) (t : Ty) : Step d (d.addImpl id key t)
  /-- A fresh declaration number. -/
  | fresh (d : Decls) : Step d d.fresh.2

/-- Every type name denotes a declaration spelt as that name. -/
def TypesNamed (d : Decls) : Prop := ∀ p ∈ d.types, p.2.isNamed p.1 = true

/-- A type name that denotes a type in a table whose type names name themselves denotes a
declaration of that name. -/
theorem TypesNamed.typeNamed {d : Decls} (h : d.TypesNamed) {x : String} {t : Ty}
    (ht : d.typeNamed? x = some t) : t.isNamed x = true := by
  obtain ⟨l₁, l₂, hl, -⟩ := List.lookup_eq_some_iff.1 ht
  exact h (x, t) (by rw [hl]; simp)

/-- The built-in type names of the table reading starts from name themselves. -/
theorem typesNamed_initial : initial.TypesNamed := by
  intro p hp
  simp only [initial, List.foldl_cons, List.foldl_nil, List.mem_cons, List.not_mem_nil,
    or_false] at hp
  rcases hp with rfl | rfl | rfl | rfl | rfl | rfl <;> rfl

/-- **One declaration keeps every type name naming itself.** -/
theorem Step.typesNamed {d d' : Decls} (h : Step d d') (hd : d.TypesNamed) : d'.TypesNamed := by
  cases h with
  | bind | impl | fresh => exact hd
  | iface r _ | enum r =>
    intro p hp
    rcases List.mem_cons.1 hp with rfl | hp
    · exact beq_self_eq_true _
    · exact hd p hp

/-- **Declarations keep every type name naming itself.** -/
theorem TypesNamed.of_steps {d d' : Decls} (h : Relation.ReflTransGen Step d d')
    (hd : d.TypesNamed) : d'.TypesNamed := by
  induction h with
  | refl => exact hd
  | tail _ hstep ih => exact hstep.typesNamed ih

end Decls

namespace Parse

/-- Every run of `r` that returns leaves a table reached by declarations from the one it
started with. -/
def Records {α : Type} (r : Reader α) : Prop :=
  ∀ s a s', r.run s = .ok (a, s') → Relation.ReflTransGen Decls.Step s.decls s'.decls

namespace Records

variable {α β : Type}

/-- Returning a value changes no table. -/
theorem pure {a : α} : Records (Pure.pure a : Reader α) :=
  fun _ _ _ h => by cases h; exact .refl

/-- A fault returns nothing. -/
theorem throw {e : Located} : Records (MonadExcept.throw e : Reader α) :=
  fun _ _ _ h => by cases h

/-- Two readers run one after the other change the table by the declarations of each. -/
theorem bind {m : Reader α} {f : α → Reader β} (hm : Records m) (hf : ∀ a, Records (f a)) :
    Records (m >>= f) := by
  intro s b s'' h
  obtain ⟨a, s', hm', hf'⟩ := run_bind_eq_ok h
  exact (hm s a s' hm').trans (hf a s' b s'' hf')

/-- Mapping over the value a reader returns changes the table as the reader does. -/
theorem map {m : Reader α} {f : α → β} (hm : Records m) : Records (f <$> m) := by
  intro s b s' h
  rw [StateT.run_map] at h
  rcases hr : m.run s with e | ⟨a, s''⟩
  · rw [hr] at h
    cases h
  · rw [hr] at h
    cases h
    exact hm s a _ hr

/-- Reading the state changes no table. -/
theorem get : Records (MonadState.get : Reader State) :=
  fun _ _ _ h => by cases h; exact .refl

/-- A change of the state that leaves the table as it is. -/
theorem modify {f : State → State} (hf : ∀ s, (f s).decls = s.decls) :
    Records (modify f : Reader Unit) :=
  fun s _ _ h => by cases h; rw [hf s]

/-- Nothing after a fault runs. -/
theorem throw_bind {e : Located} {f : α → Reader β} : Records (MonadExcept.throw e >>= f) :=
  fun _ _ _ h => by cases h

/-- A `for` loop whose every round changes the table only by declarations does so too. -/
theorem forIn {γ : Type} {l : List γ} {b : β} {f : γ → β → Reader (ForInStep β)}
    (hf : ∀ x b, Records (f x b)) : Records (ForIn.forIn l b f) := by
  induction l generalizing b with
  | nil => exact pure
  | cons x l ih =>
    rw [List.forIn_cons]
    refine bind (hf x b) fun r => ?_
    cases r with
    | done b' => exact pure
    | yield b' => exact ih

end Records

section Steps

/-- Looking at the current token changes no table. -/
theorem records_current : Records current := Records.bind Records.get fun _ => Records.pure

/-- Giving up on an unexpected token returns nothing. -/
theorem records_unexpected {α : Type} : Records (unexpected : Reader α) :=
  Records.bind records_current fun _ => Records.throw

/-- A reader out of fuel returns nothing. -/
theorem records_outOfFuel {α : Type} : Records (outOfFuel : Reader α) :=
  Records.bind records_current fun _ => Records.throw

/-- Moving past a token changes no table. -/
theorem records_advance : Records advance :=
  Records.bind records_current fun _ =>
    Records.bind (Records.modify fun _ => by split <;> rfl) fun _ => Records.pure

/-- Expecting a token changes no table. -/
theorem records_expect (k : TokenKind) : Records (expect k) := by
  unfold expect
  refine Records.bind records_current fun _ => ?_
  split
  · exact records_advance
  · exact Records.throw

/-- Eating an optional token changes no table. -/
theorem records_eat (k : TokenKind) : Records (eat k) := by
  unfold eat
  refine Records.bind records_current fun _ => ?_
  split
  · exact Records.bind records_advance fun _ => Records.pure
  · exact Records.pure

/-- Taking the position changes no table. -/
theorem records_position : Records position := Records.bind records_current fun _ => Records.pure

/-- Taking the span from a start changes no table. -/
theorem records_spanFrom (start : Nat) : Records (spanFrom start) := by
  unfold spanFrom
  refine Records.bind Records.get fun _ => ?_
  split
  · exact Records.pure
  · exact Records.pure

/-- Reading with more generic names in scope changes the table as the reader does. -/
theorem records_withGenerics {α : Type} (names : List String) {r : Reader α} (hr : Records r) :
    Records (withGenerics names r) :=
  Records.bind Records.get fun _ =>
    Records.bind (Records.modify fun _ => rfl) fun _ =>
      Records.bind hr fun _ => Records.bind (Records.modify fun _ => rfl) fun _ => Records.pure

/-- A change of the table by one declaration. -/
theorem records_declare {f : Decls → Decls} (hf : ∀ d, Decls.Step d (f d)) :
    Records (declare f) :=
  fun s _ _ h => by cases h; exact .single (hf s.decls)

/-- Taking a fresh declaration number is a declaration. -/
theorem records_freshId : Records freshId :=
  fun s _ _ h => by cases h; exact .single (.fresh s.decls)

/-- Items read one after another change the table only by declarations. -/
theorem records_delimited {β : Type} {item : Reader β} (h : Records item) (close : TokenKind) :
    (fuel : Nat) → (acc : List β) → Records (delimited item close fuel acc)
  | 0, _ => records_outOfFuel
  | fuel + 1, acc => by
    unfold delimited
    refine Records.bind records_current fun _ => ?_
    split
    · exact Records.bind records_advance fun _ => Records.pure
    · refine Records.bind h fun x => Records.bind (records_eat _) fun _ => ?_
      split
      · exact records_delimited h close fuel (x :: acc)
      · exact Records.bind (records_expect _) fun _ => Records.pure

/-- Reading a name bound by a parameter list or a pattern changes no table. -/
theorem records_binding : Records binding := Records.bind (records_expect _) fun _ => Records.pure

end Steps

section Declarations

mutual

/-- Reading a type expression changes the table only by declarations. -/
theorem typeExpr_records : (fuel : Nat) → Records (typeExpr fuel)
  | 0 => records_outOfFuel
  | fuel + 1 => by
    unfold typeExpr
    refine Records.bind records_current fun _ => ?_
    split
    · exact namedType_records fuel
    · exact fnType_records fuel
    · exact records_unexpected

/-- Reading a named type, with its arguments if any, changes the table only by declarations. -/
theorem namedType_records : (fuel : Nat) → Records (namedType fuel)
  | 0 => records_outOfFuel
  | fuel + 1 => by
    unfold namedType
    refine Records.bind (records_expect _) fun t => Records.bind Records.get fun s => ?_
    extract_lets jp
    have hk : ∀ base, Records (jp base) := fun _ => by
      refine Records.bind (records_eat _) fun _ => ?_
      split
      · exact Records.bind (records_delimited (typeExpr_records fuel) _ fuel []) fun _ =>
          Records.pure
      · exact Records.pure
    split
    · exact Records.bind Records.pure hk
    · split
      · exact Records.bind Records.pure hk
      · exact Records.throw_bind

/-- Reading a function type changes the table only by declarations. -/
theorem fnType_records : (fuel : Nat) → Records (fnType fuel)
  | 0 => records_outOfFuel
  | fuel + 1 => by
    unfold fnType
    refine Records.bind (records_expect _) fun _ => Records.bind (records_expect _) fun _ => ?_
    refine Records.bind (records_delimited (typeExpr_records fuel) _ fuel []) fun _ => ?_
    exact Records.bind (records_expect _) fun _ =>
      Records.bind (typeExpr_records fuel) fun _ => Records.pure

end

/-- Reading generic names in angle brackets changes the table only by declarations. -/
theorem genericParams_records (fuel : Nat) : Records (genericParams fuel) := by
  unfold genericParams
  refine Records.bind (records_eat _) fun _ => ?_
  split
  · exact records_delimited (Records.bind (records_expect _) fun _ => Records.pure) _ fuel []
  · exact Records.pure

/-- Reading a typed parameter changes the table only by declarations. -/
theorem typedParam_records (fuel : Nat) : Records (typedParam fuel) :=
  Records.bind (records_expect _) fun _ => Records.bind (records_expect _) fun _ =>
    Records.bind (typeExpr_records fuel) fun _ => Records.pure

/-- Reading a signature changes the table only by declarations. -/
theorem signature_records (fuel : Nat) : Records (signature fuel) := by
  unfold signature
  refine Records.bind records_current fun _ => ?_
  split
  · exact Records.throw_bind
  refine Records.bind records_advance fun _ =>
    Records.bind (genericParams_records fuel) fun _ => ?_
  refine records_withGenerics _ (Records.bind (records_expect _) fun _ => ?_)
  refine Records.bind (records_delimited (typedParam_records fuel) _ fuel []) fun _ => ?_
  exact Records.bind (records_expect _) fun _ =>
    Records.bind (typeExpr_records fuel) fun _ => Records.pure

/-- An extern declaration binds its name in the root scope. -/
theorem externDecl_records (fuel : Nat) : Records (externDecl fuel) :=
  Records.bind records_advance fun _ => Records.bind (records_expect _) fun _ =>
    Records.bind (signature_records fuel) fun _ => Records.bind (records_eat _) fun _ =>
      Records.bind (records_declare fun d => .bind d _ _) fun _ => Records.pure

/-- The prototypes of an interface change the table only by declarations. -/
theorem prototypes_records (fuel : Nat) :
    (n : Nat) → (acc : List Sig) → Records (prototypes fuel n acc)
  | 0, _ => records_outOfFuel
  | n + 1, acc => by
    unfold prototypes
    refine Records.bind records_current fun _ => ?_
    split
    · exact Records.pure
    · exact Records.bind (records_expect _) fun _ =>
        Records.bind (signature_records fuel) fun _ =>
          Records.bind (records_eat _) fun _ => prototypes_records fuel n _

/-- An interface declaration binds its methods in the root scope and declares the interface under
its name. -/
theorem interfaceDecl_records (fuel : Nat) : Records (interfaceDecl fuel) := by
  unfold interfaceDecl
  refine Records.bind records_advance fun _ => Records.bind (records_expect _) fun _ => ?_
  refine Records.bind (records_expect _) fun _ => Records.bind (records_expect _) fun _ => ?_
  refine Records.bind records_current fun _ => ?_
  dsimp only
  split
  · exact Records.throw_bind
  refine Records.bind records_advance fun _ =>
    Records.bind (records_withGenerics _ ?_) fun _ => ?_
  · exact Records.bind (records_expect _) fun _ =>
      Records.bind (prototypes_records fuel fuel []) fun _ =>
        Records.bind (records_expect _) fun _ => Records.pure
  refine Records.bind records_freshId fun _ => ?_
  -- each method is bound in the root scope, then the interface is declared under its name
  refine Records.bind (Records.forIn fun _ _ =>
    Records.bind (records_declare fun d => .bind d _ _) fun _ => Records.pure) fun _ => ?_
  exact Records.bind (records_declare fun d => .iface d ⟨_, _, _⟩ _) fun _ => Records.pure

/-- Reading a constructor of an enum changes the table only by declarations. -/
theorem ctorEntry_records (fuel : Nat) : Records (ctorEntry fuel) := by
  unfold ctorEntry
  refine Records.bind (records_expect _) fun _ => Records.bind (records_eat _) fun _ => ?_
  extract_lets jp
  have hk : ∀ params, Records (jp params) := fun _ => Records.pure
  split
  · exact Records.bind (records_delimited (typeExpr_records fuel) _ fuel []) hk
  · exact Records.bind Records.pure hk

/-- An enum declaration declares the enum under its name and binds each constructor in the root
scope. -/
theorem enumDecl_records (fuel : Nat) : Records (enumDecl fuel) := by
  unfold enumDecl
  refine Records.bind records_advance fun _ => Records.bind (records_expect _) fun _ => ?_
  refine Records.bind (genericParams_records fuel) fun _ =>
    Records.bind (records_expect _) fun _ => ?_
  refine Records.bind Records.get fun _ => Records.bind records_freshId fun _ => ?_
  refine Records.bind (records_declare fun d => .enum d ⟨_, _, _, _⟩) fun _ => ?_
  refine Records.bind (records_withGenerics _
    (records_delimited (ctorEntry_records fuel) _ fuel [])) fun _ => ?_
  -- each constructor is bound in the root scope with a number of its own
  exact Records.bind (Records.forIn fun _ _ => Records.bind records_freshId fun _ =>
    Records.bind (records_declare fun d => .bind d _ _) fun _ => Records.pure) fun _ =>
      Records.pure

/-- Reading a pattern changes the table only by declarations. -/
theorem pattern_records (fuel : Nat) : Records (pattern fuel) := by
  unfold pattern
  refine Records.bind records_current fun _ => ?_
  dsimp only
  split
  · exact Records.throw_bind
  refine Records.bind records_advance fun _ => Records.bind (records_eat _) fun _ => ?_
  split
  · exact Records.bind (records_delimited records_binding _ fuel []) fun _ =>
      Records.bind (records_spanFrom _) fun _ => Records.pure
  · exact Records.bind Records.pure fun _ =>
      Records.bind (records_spanFrom _) fun _ => Records.pure

end Declarations

mutual

/-- **Reading an expression changes the table only by declarations.** -/
theorem expr_records : (fuel : Nat) → (bp : Power) → Records (expr fuel bp)
  | 0, _ => records_outOfFuel
  | fuel + 1, bp => by
    unfold expr
    exact Records.bind (start_records fuel) fun left => extend_records fuel bp left

/-- Operators and calls read after a left operand change the table only by declarations. -/
theorem extend_records : (fuel : Nat) → (bp : Power) → (left : Node) →
    Records (extend fuel bp left)
  | 0, _, _ => records_outOfFuel
  | fuel + 1, bp, left => by
    unfold extend
    refine Records.bind records_current fun _ => ?_
    dsimp only
    split
    · exact Records.pure
    split
    · exact Records.bind (callExpr_records fuel left) fun n => extend_records fuel bp n
    · exact Records.bind (binaryExpr_records fuel left _) fun n => extend_records fuel bp n

/-- Reading the start of an expression changes the table only by declarations. -/
theorem start_records : (fuel : Nat) → Records (start fuel)
  | 0 => records_outOfFuel
  | fuel + 1 => by
    unfold start
    refine Records.bind records_current fun _ => ?_
    split
    · exact primary_records fuel
    · exact primary_records fuel
    · exact primary_records fuel
    · exact prefixExpr_records fuel
    · exact prefixExpr_records fuel
    · exact grouping_records fuel
    · exact listExpr_records fuel
    · exact blockExpr_records fuel
    · exact ifExpr_records fuel
    · exact letExpr_records fuel
    · exact matchExpr_records fuel
    · exact records_unexpected

/-- Reading a literal, a name or a constructor expression changes the table only by declarations. -/
theorem primary_records : (fuel : Nat) → Records (primary fuel)
  | 0 => records_outOfFuel
  | fuel + 1 => by
    unfold primary
    refine Records.bind records_current fun _ => ?_
    split
    · split
      · exact Records.throw
      · exact Records.bind records_advance fun _ => Records.pure
    · split
      · exact constructorExpr_records fuel
      · exact Records.bind records_advance fun _ => Records.pure
    · exact Records.bind records_advance fun _ => Records.pure
    · exact records_unexpected

/-- Reading the arguments of a call changes the table only by declarations. -/
theorem arguments_records : (fuel : Nat) → Records (arguments fuel)
  | 0 => records_outOfFuel
  | fuel + 1 => by
    unfold arguments
    exact Records.bind (records_expect _) fun _ =>
      records_delimited (expr_records fuel .default) _ fuel []

/-- Reading a constructor expression changes the table only by declarations. -/
theorem constructorExpr_records : (fuel : Nat) → Records (constructorExpr fuel)
  | 0 => records_outOfFuel
  | fuel + 1 => by
    unfold constructorExpr
    refine Records.bind (records_expect _) fun _ => Records.bind records_current fun _ => ?_
    extract_lets jp
    have hk : ∀ args, Records (jp args) := fun _ =>
      Records.bind (records_spanFrom _) fun _ => Records.pure
    split
    · exact Records.bind (arguments_records fuel) hk
    · exact Records.bind Records.pure hk

/-- Reading a binary operation changes the table only by declarations. -/
theorem binaryExpr_records : (fuel : Nat) → (left : Node) → (bp : Power) →
    Records (binaryExpr fuel left bp)
  | 0, _, _ => records_outOfFuel
  | fuel + 1, left, bp => by
    unfold binaryExpr
    exact Records.bind records_advance fun _ =>
      Records.bind (expr_records fuel bp) fun _ => Records.pure

/-- Reading a prefix operation changes the table only by declarations. -/
theorem prefixExpr_records : (fuel : Nat) → Records (prefixExpr fuel)
  | 0 => records_outOfFuel
  | fuel + 1 => by
    unfold prefixExpr
    exact Records.bind records_advance fun _ =>
      Records.bind (expr_records fuel .unary) fun _ => Records.pure

/-- Reading an expression in parentheses changes the table only by declarations. -/
theorem grouping_records : (fuel : Nat) → Records (grouping fuel)
  | 0 => records_outOfFuel
  | fuel + 1 => by
    unfold grouping
    exact Records.bind records_advance fun _ =>
      Records.bind (expr_records fuel .default) fun _ =>
        Records.bind (records_expect _) fun _ => Records.pure

/-- Reading a call changes the table only by declarations. -/
theorem callExpr_records : (fuel : Nat) → (callee : Node) → Records (callExpr fuel callee)
  | 0, _ => records_outOfFuel
  | fuel + 1, callee => by
    unfold callExpr
    exact Records.bind (arguments_records fuel) fun _ =>
      Records.bind (records_spanFrom _) fun _ => Records.pure

/-- Reading a list expression changes the table only by declarations. -/
theorem listExpr_records : (fuel : Nat) → Records (listExpr fuel)
  | 0 => records_outOfFuel
  | fuel + 1 => by
    unfold listExpr
    exact Records.bind records_advance fun _ =>
      Records.bind (records_delimited (expr_records fuel .default) _ fuel []) fun _ =>
        Records.bind (records_spanFrom _) fun _ => Records.pure

/-- Reading a block changes the table only by declarations. -/
theorem blockExpr_records : (fuel : Nat) → Records (blockExpr fuel)
  | 0 => records_outOfFuel
  | fuel + 1 => by
    unfold blockExpr
    exact Records.bind (records_expect _) fun _ =>
      Records.bind (blockItems_records fuel []) fun _ =>
        Records.bind (records_expect _) fun _ =>
          Records.bind (records_spanFrom _) fun _ => Records.pure

/-- Reading the items of a block changes the table only by declarations. -/
theorem blockItems_records : (fuel : Nat) → (acc : List Node) → Records (blockItems fuel acc)
  | 0, _ => records_outOfFuel
  | fuel + 1, acc => by
    unfold blockItems
    refine Records.bind records_current fun _ => ?_
    split
    · exact Records.pure
    split
    · exact records_unexpected
    exact Records.bind (item_records fuel) fun _ => blockItems_records fuel _

/-- Reading an `if` changes the table only by declarations. -/
theorem ifExpr_records : (fuel : Nat) → Records (ifExpr fuel)
  | 0 => records_outOfFuel
  | fuel + 1 => by
    unfold ifExpr
    refine Records.bind records_advance fun _ =>
      Records.bind (expr_records fuel .default) fun _ => ?_
    refine Records.bind (blockExpr_records fuel) fun _ =>
      Records.bind (records_eat _) fun _ => ?_
    extract_lets jp
    have hk : ∀ elseBody, Records (jp elseBody) := fun _ =>
      Records.bind (records_spanFrom _) fun _ => Records.pure
    split
    · refine Records.bind records_current fun _ => ?_
      split
      · exact Records.bind (Records.map (ifExpr_records fuel)) hk
      · exact Records.bind (Records.map (blockExpr_records fuel)) hk
    · exact Records.bind Records.pure hk

/-- Reading an assignment changes the table only by declarations. -/
theorem assignment_records : (fuel : Nat) → Records (assignment fuel)
  | 0 => records_outOfFuel
  | fuel + 1 => by
    unfold assignment
    refine Records.bind records_position fun _ => Records.bind records_current fun _ => ?_
    extract_lets jp
    have hk : ∀ left, Records (jp left) := fun _ =>
      Records.bind (records_expect _) fun _ =>
        Records.bind (expr_records fuel .default) fun _ =>
          Records.bind (records_spanFrom _) fun _ => Records.pure
    split
    · exact Records.bind (pattern_records fuel) hk
    · exact Records.bind records_binding fun _ => Records.bind Records.pure hk

/-- Reading the assignments after the first of a `let` changes the table only by declarations. -/
theorem moreAssignments_records : (fuel : Nat) → (acc : List Node) →
    Records (moreAssignments fuel acc)
  | 0, _ => records_outOfFuel
  | fuel + 1, acc => by
    unfold moreAssignments
    refine Records.bind (records_eat _) fun _ => ?_
    split
    · exact Records.bind (assignment_records fuel) fun _ => moreAssignments_records fuel _
    · exact Records.pure

/-- Reading a `let` changes the table only by declarations. -/
theorem letExpr_records : (fuel : Nat) → Records (letExpr fuel)
  | 0 => records_outOfFuel
  | fuel + 1 => by
    unfold letExpr
    refine Records.bind records_advance fun _ =>
      Records.bind (assignment_records fuel) fun _ => ?_
    refine Records.bind (moreAssignments_records fuel []) fun _ => ?_
    exact Records.bind (blockExpr_records fuel) fun _ =>
      Records.bind (records_spanFrom _) fun _ => Records.pure

/-- Reading a case of a `match` changes the table only by declarations. -/
theorem caseExpr_records : (fuel : Nat) → Records (caseExpr fuel)
  | 0 => records_outOfFuel
  | fuel + 1 => by
    unfold caseExpr
    refine Records.bind records_position fun _ =>
      Records.bind (pattern_records fuel) fun _ => ?_
    exact Records.bind (records_expect _) fun _ =>
      Records.bind (expr_records fuel .default) fun _ =>
        Records.bind (records_spanFrom _) fun _ => Records.pure

/-- Reading the cases of a `match` changes the table only by declarations. -/
theorem cases_records : (fuel : Nat) → (acc : List Node) → Records (cases fuel acc)
  | 0, _ => records_outOfFuel
  | fuel + 1, acc => by
    unfold cases
    refine Records.bind records_current fun _ => ?_
    split
    · exact Records.pure
    · exact Records.bind (caseExpr_records fuel) fun _ =>
        Records.bind (records_eat _) fun _ => cases_records fuel _

/-- Reading a `match` changes the table only by declarations. -/
theorem matchExpr_records : (fuel : Nat) → Records (matchExpr fuel)
  | 0 => records_outOfFuel
  | fuel + 1 => by
    unfold matchExpr
    refine Records.bind records_advance fun _ =>
      Records.bind (expr_records fuel .default) fun _ => ?_
    refine Records.bind (records_expect _) fun _ =>
      Records.bind (cases_records fuel []) fun _ => ?_
    exact Records.bind (records_expect _) fun _ =>
      Records.bind (records_spanFrom _) fun _ => Records.pure

/-- Reading an item of a program changes the table only by declarations. -/
theorem item_records : (fuel : Nat) → Records (item fuel)
  | 0 => records_outOfFuel
  | fuel + 1 => by
    unfold item
    refine Records.bind records_current fun _ => ?_
    split
    · exact fnDecl_records fuel
    · exact externDecl_records fuel
    · exact interfaceDecl_records fuel
    · exact implDecl_records fuel
    · exact enumDecl_records fuel
    · exact Records.bind (expr_records fuel .default) fun _ =>
        Records.bind (records_eat _) fun _ => Records.pure

/-- A function declaration changes the table only by declarations. -/
theorem fnDecl_records : (fuel : Nat) → Records (fnDecl fuel)
  | 0 => records_outOfFuel
  | fuel + 1 => by
    unfold fnDecl
    refine Records.bind records_advance fun _ =>
      Records.bind (signature_records fuel) fun _ => ?_
    -- the function is bound in the root scope once its body is read
    refine Records.bind (blockExpr_records fuel) fun _ => ?_
    exact Records.bind (records_declare fun d => .bind d _ _) fun _ =>
      Records.bind (records_spanFrom _) fun _ => Records.pure

/-- An implementation block records the implementation and binds each method in the root scope,
under its name joined to the dispatch key. -/
theorem implDecl_records : (fuel : Nat) → Records (implDecl fuel)
  | 0 => records_outOfFuel
  | fuel + 1 => by
    unfold implDecl
    refine Records.bind records_advance fun _ => Records.bind (records_expect _) fun _ => ?_
    refine Records.bind Records.get fun _ => ?_
    extract_lets jp
    have hk : ∀ iface, Records (jp iface) := fun iface => by
      refine Records.bind (records_expect _) fun _ => Records.bind records_position fun _ => ?_
      refine Records.bind (typeExpr_records fuel) fun _ =>
        Records.bind (records_expect _) fun _ => ?_
      extract_lets jp'
      have hk' : ∀ key, Records (jp' key) := fun key => by
        refine Records.bind Records.get fun _ => ?_
        dsimp only
        split
        · exact Records.throw_bind
        -- the implementation is recorded before its methods are read
        refine Records.bind (records_declare fun d => .impl d _ _ _) fun _ => ?_
        refine Records.bind (records_expect _) fun _ => ?_
        exact Records.bind (implMethods_records fuel iface _ key []) fun _ =>
          Records.bind (records_expect _) fun _ => Records.pure
      split
      · exact Records.bind Records.pure hk'
      · exact Records.throw_bind
    split
    · refine Records.bind Records.get fun _ => ?_
      split
      · exact Records.bind Records.pure hk
      · exact Records.throw_bind
    · exact Records.throw_bind

/-- The methods of an implementation block change the table only by declarations. -/
theorem implMethods_records : (fuel : Nat) → (iface : Iface) → (ty : Ty) → (key : String) →
    (acc : List Node) → Records (implMethods fuel iface ty key acc)
  | 0, _, _, _, _ => records_outOfFuel
  | fuel + 1, iface, ty, key, acc => by
    unfold implMethods
    refine Records.bind records_current fun _ => ?_
    split
    · exact Records.pure
    refine Records.bind (records_expect _) fun _ => Records.bind (records_expect _) fun _ => ?_
    extract_lets _ jp
    -- each method is bound in the root scope under its name followed by the key
    have hk : ∀ method, Records (jp method) := fun _ => by
      refine Records.bind (records_expect _) fun _ => ?_
      refine Records.bind (records_delimited records_binding _ fuel []) fun _ => ?_
      refine Records.bind (blockExpr_records fuel) fun _ => ?_
      exact Records.bind (records_declare fun d => .bind d _ _) fun _ =>
        Records.bind (records_spanFrom _) fun _ => implMethods_records fuel _ _ _ _
    split
    · exact Records.bind Records.pure hk
    · exact Records.throw_bind

end

/-- Reading the items of a program changes the table only by declarations. -/
theorem programItems_records : (fuel : Nat) → (acc : List Node) →
    Records (programItems fuel acc)
  | 0, _ => records_outOfFuel
  | fuel + 1, acc => by
    unfold programItems
    refine Records.bind records_current fun _ => ?_
    split
    · exact Records.pure
    · exact Records.bind (item_records fuel) fun _ => programItems_records fuel _

/-- **Reading a program changes the table by declarations only.** -/
theorem program_records {toks : Array Token} {d : Decls} {prog : Program}
    (h : program toks d = .ok prog) : Relation.ReflTransGen Decls.Step d prog.decls := by
  unfold program at h
  dsimp only at h
  generalize hr : StateT.run _ _ = r at h
  rcases r with e | ⟨p, s'⟩
  · cases h
  · cases h
    -- the table of the program is the table the items leave
    obtain ⟨items, s1, hitems, hrest⟩ := run_bind_eq_ok hr
    obtain ⟨sp, s2, hsp, hrest⟩ := run_bind_eq_ok hrest
    obtain ⟨sp', hsp'⟩ := run_spanFrom 0 s1
    rw [hsp'] at hsp
    cases hsp
    obtain ⟨s3, s4, hget, hrest⟩ := run_bind_eq_ok hrest
    cases hget
    cases hrest
    exact programItems_records _ [] _ _ _ hitems

/-- **Every type name of a program's table names itself.** Reading a program from the initial
table declares each interface and enum under its own name. -/
theorem program_typesNamed {toks : Array Token} {prog : Program} (h : program toks = .ok prog) :
    prog.decls.TypesNamed :=
  Decls.typesNamed_initial.of_steps (program_records h)

end Parse

end Verve
