import Verve.Proofs.Chains
import Verve.Proofs.Relabel
import Verve.Proofs.Run

/-!
# Accepting a value for an interface

Where an interface `I` is expected, a search first asks whether the actual type is `I`
itself, then follows `I`'s parameter. While that parameter is open (`View.ParamOpen`: its
walk of generic-to-generic bindings ends in no type, as when it has no binding, or it
resolves to `I` itself) the search goes no further, and acceptance is a lookup in `I`'s
table of implementations (`View.solveIface_of_paramOpen`):

* `I` itself is accepted, and nothing is bound;
* a type whose dispatch key has an implementation of `I` is accepted, and unifying binds `I`'s
  parameter, and only it, to that type (`View.unify_iface_of_paramOpen`);
* every other type is refused, and nothing is bound.

An argument checked against a parameter that simplifies to `I` is then refused with
`MissingImplementation` exactly when neither holds; otherwise the arguments after it are
checked with the binding made (`interface_argument_needs_implementation`).
-/

namespace Verve

namespace View

variable {v : View} {r : IfaceRef}

/-- The parameter of the interface `r` is open in a view: following its generic-to-generic
bindings ends at no type, or at `r` itself. -/
def ParamOpen (v : View) (r : IfaceRef) : Prop :=
  (∃ u, v.resolve [] r.generic [] (generic_unpassed r) = .error u) ∨
    ∃ r', v.resolve [] r.generic [] (generic_unpassed r) = .ok (.iface r') ∧ r'.id = r.id

/-- A parameter with no binding is open. -/
theorem paramOpen_of_get_none (h : v.scopes.get v.frame r.generic = none) : v.ParamOpen r :=
  .inl ⟨r.generic, v.resolve_of_none [] rfl (by simp [look, h])⟩

/-- From an interface whose parameter is open, following parameters stops at once. -/
theorem chase_of_paramOpen (hr : v.ParamOpen r) (a : Ty) (fuel : Nat) :
    v.chase [] a (fuel + 1) [] r = if a.same (.iface r) then .accept else .bind r := by
  by_cases hs : a.same (.iface r) = true
  · simp [chase, hs]
  · rw [chase, if_neg hs, if_neg (by simp), if_neg hs]
    rcases hr with ⟨u, hu⟩ | ⟨r', hr', hid⟩
    · rw [hu]
    · simp [hr', hid]

/-- **An interface with an open parameter accepts itself and its implementations**, binding
its parameter to an implementation. -/
theorem solveIface_of_paramOpen (hr : v.ParamOpen r) (a : Ty) :
    v.solveIface [] r a =
      if a.same (.iface r) then .holds []
      else if v.decls.implements r.id a then .holds [(r.generic, a)] else .fails := by
  rw [solveIface, chase_of_paramOpen hr]
  by_cases hs : a.same (.iface r) = true
  · simp [hs]
  · by_cases hi : v.decls.implements r.id a = true <;> simp [hs, hi]

theorem assignable_iface (a : Ty) : v.assignable (.iface r) a = v.solveIface [] r a := by
  rw [assignable, solve.eq_def]

/-- Unifying an interface whose parameter is open binds the parameter to an implementation,
and nothing else. -/
theorem unify_iface_of_paramOpen (hr : v.ParamOpen r) (a : Ty) :
    v.unify (.iface r) a =
      if a.same (.iface r) then (.holds [], v.scopes)
      else if v.decls.implements r.id a then
        (.holds [(r.generic, a)], v.scopes.set v.frame r.generic a)
      else (.fails, v.scopes) := by
  obtain ⟨scopes, frame, decls⟩ := v
  unfold unify
  rw [solve.eq_def]
  simp only
  rw [solveIface_of_paramOpen hr]
  split_ifs <;> rfl

/-- Asking first changes nothing: accepting is unifying. -/
theorem accepts_iface_of_paramOpen (hr : v.ParamOpen r) (a : Ty) :
    v.accepts (.iface r) a = v.unify (.iface r) a := by
  have hu := unify_iface_of_paramOpen hr a
  unfold accepts
  rw [assignable_iface, solveIface_of_paramOpen hr]
  split_ifs at hu ⊢ <;> simp [hu]

end View

namespace Check

variable {σ : Setting} {st st' : Store} {d env scope : Nat} {f : Sig} {pos : Nat}
  {arg arg' : Node} {args : List Node} {p at_ : Ty} {ps : List Ty}

@[simp] theorem exec_answer_holds (q : Found) (pos : Nat) :
    (answer (.holds q) pos).exec σ st = (.ok true, st) := rfl

@[simp] theorem exec_answer_fails (pos : Nat) : (answer .fails pos).exec σ st = (.ok false, st) :=
  rfl

/-- An argument that its parameter accepts: the arguments after it are checked in the
scopes the search left. -/
theorem exec_typeArgs_cons_holds {e : Ty} (hp : st.scopes.simplify scope p = e)
    (ha : (typeOf d env .plain arg).exec σ st = (.ok (at_, arg'), st')) {q : Found} {s' : Scopes}
    (hacc : View.accepts ⟨st'.scopes, scope, σ.decls⟩ e (st'.scopes.simplify env at_) =
      (.holds q, s')) :
    (typeArgs d env scope f pos (arg :: args) (p :: ps)).exec σ st =
      (typeArgs d env scope f (pos + 1) args ps >>= fun as' => pure (arg' :: as')).exec σ
        ⟨s', st'.fresh⟩ := by
  conv_lhs => unfold typeArgs
  simp only [exec_bind, exec_simp, ha, accepts, exec_binding, hp, hacc, exec_answer_holds, if_true]

/-- An argument that an interface refuses is a missing implementation, at the argument. -/
theorem exec_typeArgs_cons_fails_iface {r : IfaceRef} (hp : st.scopes.simplify scope p = .iface r)
    (ha : (typeOf d env .plain arg).exec σ st = (.ok (at_, arg'), st')) {s' : Scopes}
    (hacc : View.accepts ⟨st'.scopes, scope, σ.decls⟩ (.iface r)
      (st'.scopes.simplify env at_) = (.fails, s')) :
    (typeArgs d env scope f pos (arg :: args) (p :: ps)).exec σ st =
      (.error ⟨.missingImplementation r.name (st'.scopes.simplify env at_), arg.span.start⟩,
        ⟨s', st'.fresh⟩) := by
  conv_lhs => unfold typeArgs
  simp only [exec_bind, exec_simp, ha, accepts, exec_binding, hp, hacc, exec_answer_fails]
  rfl

end Check

open View in
/-- **Interface acceptance is implementation-table membership.** Where the parameter of an
interface `I` is open, `I` accepts exactly itself and the types whose dispatch key has an
implementation of `I`; unifying then binds `I`'s parameter, and only it, to the actual type,
and nothing when the actual type is `I`. So an argument whose parameter simplifies to `I` is
refused with `MissingImplementation` exactly when neither holds, and otherwise the remaining
arguments are checked with that binding made. -/
theorem interface_argument_needs_implementation (r : IfaceRef) :
    (∀ (v : View) (a : Ty), v.ParamOpen r →
      ((∃ q, v.assignable (.iface r) a = .holds q) ↔
        a.same (.iface r) = true ∨ v.decls.implements r.id a = true) ∧
      v.accepts (.iface r) a = v.unify (.iface r) a ∧
      v.unify (.iface r) a =
        if a.same (.iface r) then (.holds [], v.scopes)
        else if v.decls.implements r.id a then
          (.holds [(r.generic, a)], v.scopes.set v.frame r.generic a)
        else (.fails, v.scopes)) ∧
    ∀ (σ : Setting) (st st' : Store) (d env scope : Nat) (f : Sig) (pos : Nat) (arg arg' : Node)
      (args : List Node) (p at_ a : Ty) (ps : List Ty),
      st.scopes.simplify scope p = .iface r →
      (Check.typeOf d env .plain arg).exec σ st = (.ok (at_, arg'), st') →
      st'.scopes.simplify env at_ = a →
      View.ParamOpen ⟨st'.scopes, scope, σ.decls⟩ r →
      (Check.typeArgs d env scope f pos (arg :: args) (p :: ps)).exec σ st =
        if a.same (.iface r) = true ∨ σ.decls.implements r.id a = true then
          (Check.typeArgs d env scope f (pos + 1) args ps >>= fun as' => pure (arg' :: as')).exec σ
            ⟨if a.same (.iface r) then st'.scopes else st'.scopes.set scope r.generic a, st'.fresh⟩
        else (.error ⟨.missingImplementation r.name a, arg.span.start⟩, st') := by
  refine ⟨fun v a hr => ⟨?_, accepts_iface_of_paramOpen hr a, unify_iface_of_paramOpen hr a⟩, ?_⟩
  · rw [assignable_iface, solveIface_of_paramOpen hr]
    by_cases hs : a.same (.iface r) = true
    · simp [hs]
    · by_cases hi : v.decls.implements r.id a = true <;> simp [hs, hi]
  · intro σ st st' d env scope f pos arg arg' args p at_ a ps hp ha hact hr
    subst hact
    have hacc := (accepts_iface_of_paramOpen hr (st'.scopes.simplify env at_)).trans
      (unify_iface_of_paramOpen hr _)
    by_cases hs : (st'.scopes.simplify env at_).same (.iface r) = true
    · rw [if_pos hs] at hacc
      rw [Check.exec_typeArgs_cons_holds hp ha hacc, if_pos (.inl hs), if_pos hs]
    · by_cases hi : σ.decls.implements r.id (st'.scopes.simplify env at_) = true
      · rw [if_neg hs, if_pos hi] at hacc
        rw [Check.exec_typeArgs_cons_holds hp ha hacc, if_pos (.inr hi), if_neg hs]
      · rw [if_neg hs, if_neg hi] at hacc
        rw [Check.exec_typeArgs_cons_fails_iface hp ha hacc, if_neg (by simp [hs, hi])]


/-- An interface `Hash<T>` with an implementation for `Int`. -/
def hashRef : IfaceRef := ⟨3, "Hash", "T"⟩

/-- The declaration table of `interface Hash<T> { }` and `implementation Hash<Int> { }`. -/
def hashDecls : Decls :=
  { Decls.initial with ifaces := [⟨hashRef, [], [("Int", .basic "Int")]⟩], nextId := 4 }

/-- Checking with `hashDecls` and the built-in types. -/
def hashSetting : Setting :=
  ⟨hashDecls, ⟨.basic "Int", .basic "Float", .basic "String", .basic "Void", .enum Decls.listRef⟩,
    16, [3]⟩

/-- The literal `5`. -/
def fiveNode : Node := .mk (.num (.int 5)) ⟨0, 1⟩ none

/-- `5` is accepted for a parameter of type `Hash`, which binds `Hash`'s parameter to `Int`. -/
theorem interface_argument_five :
    (⟨⟨#[⟨none, []⟩], 0⟩, 0⟩ : Store).scopes.simplify 0 (.iface hashRef) = .iface hashRef ∧
    (Check.typeOf 0 0 .plain fiveNode).exec hashSetting ⟨⟨#[⟨none, []⟩], 0⟩, 0⟩ =
      (.ok (.basic "Int", fiveNode.withTy (.basic "Int")), ⟨⟨#[⟨none, []⟩], 0⟩, 0⟩) ∧
    (⟨⟨#[⟨none, []⟩], 0⟩, 0⟩ : Store).scopes.simplify 0 (.basic "Int") = .basic "Int" ∧
    View.ParamOpen ⟨⟨#[⟨none, []⟩], 0⟩, 0, hashSetting.decls⟩ hashRef ∧
    (Check.typeArgs 0 0 0 ⟨"f", [.iface hashRef], .basic "Int", [], none⟩ 1 [fiveNode]
        [.iface hashRef]).exec hashSetting ⟨⟨#[⟨none, []⟩], 0⟩, 0⟩ =
      (.ok [fiveNode.withTy (.basic "Int")],
        ⟨(⟨#[⟨none, []⟩], 0⟩ : Scopes).set 0 "T" (.basic "Int"), 0⟩) := by
  have hp : (⟨⟨#[⟨none, []⟩], 0⟩, 0⟩ : Store).scopes.simplify 0 (.iface hashRef) = .iface hashRef := by
    rw [Scopes.simplify_eq_simplifyWith, Scopes.simplifyWith_iface_of_get_none _ _ rfl
      (by rw [Scopes.get]; rfl)]
  have ha : (Check.typeOf 0 0 .plain fiveNode).exec hashSetting ⟨⟨#[⟨none, []⟩], 0⟩, 0⟩ =
      (.ok (.basic "Int", fiveNode.withTy (.basic "Int")), ⟨⟨#[⟨none, []⟩], 0⟩, 0⟩) := rfl
  have hr : View.ParamOpen ⟨⟨#[⟨none, []⟩], 0⟩, 0, hashSetting.decls⟩ hashRef :=
    View.paramOpen_of_get_none (by rw [Scopes.get]; rfl)
  refine ⟨hp, ha, rfl, hr, ?_⟩
  rw [(interface_argument_needs_implementation hashRef).2 hashSetting _ _ 0 0 0 _ 1 fiveNode _ []
    _ _ _ [] hp ha rfl hr]
  rfl

end Verve
