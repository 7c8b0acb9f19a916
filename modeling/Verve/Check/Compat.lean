import Verve.Check.Simplify
import Verve.Decls

/-!
# Compatibility of types

`View.solve e a` asks whether a value of the actual type `a` may stand where the expected
type `e` is required, and which generics that binds. The search reads the scopes and the
bindings it has found so far (`Found`), the newest first.

| expected | actual | the search |
| --- | --- | --- |
| a generic | any | follows the generic's bindings; a type at the end is matched against `a`, a generic `u` at the end is bound to `a` (unless `a` is `u` itself) |
| an interface `I` | `I` itself | holds |
| an interface `I` | any | follows `I`'s parameter: bound to `I` or to nothing, it holds if `a` implements `I`, and binds the parameter to `a`; bound to another type, that type is matched against `a` |
| any other | a generic | fails |
| basic | basic | same name |
| application | application | same declaration, as many arguments, each matched in turn (an actual argument that is a generic constrains nothing) |
| application | enum | the application's head is that enum; also the other way round |
| enum | enum | same declaration |
| type constructor | type constructor | same declaration |
| function | function | as many parameters, each matched in turn, then the results |

Following an interface's parameter to a second interface, a third and so on, with one actual
type, the search would run forever if it came back to an interface it has left: that
outcome is `endless`. Every other step either ends or goes on with a part of the actual type,
so the search ends.

* `assignable` answers without binding anything.
* `unify` answers and, when the answer is yes, binds the generics found in the frame.
* `accepts` asks `assignable` and, if it holds, `unify`.
-/

namespace Verve

/-- Bindings of generics found by a search, newest first. -/
abbrev Found := List (String × Ty)

/-- The outcome of a search: it holds with the bindings found, it fails, or it would go on
for ever. -/
inductive Outcome where
  | holds (found : Found)
  | fails
  | endless
  deriving Inhabited

/-- Where following an interface's parameter leads. -/
inductive Lead where
  /-- The actual type is the interface reached. -/
  | accept
  /-- The parameter of this interface is to be bound to the actual type. -/
  | bind (r : IfaceRef)
  /-- This type, a binding of the parameter, is to be matched against the actual type. -/
  | solve (b : Ty)
  /-- The interfaces lead round a cycle. -/
  | endless
  deriving Inhabited

/-- What a search reads: scopes seen from a frame, and the declaration table that holds the
implementations. -/
structure View where
  scopes : Scopes
  frame : Nat
  decls : Decls
  deriving Inhabited

namespace View

/-- The binding of a name: among those found first, then in the scopes. -/
def look (v : View) (p : Found) (x : String) : Option Ty :=
  match p.lookup x with
  | some t => some t
  | none => v.scopes.get v.frame x

/-- Every name with a binding, found or in the scopes. -/
def keys (v : View) (p : Found) : List String := p.map (·.1) ++ v.scopes.names v.frame

theorem mem_keys_of_look {v : View} {p : Found} {x : String} {t : Ty}
    (h : v.look p x = some t) : x ∈ v.keys p := by
  unfold look at h
  unfold keys
  split at h
  · rename_i t' hl
    exact List.mem_append_left _ (Scopes.lookup_mem hl)
  · exact List.mem_append_right _ (Scopes.mem_names_of_get h)

set_option linter.unusedVariables false in
/-- Follows a generic through its bindings to a type that is not a generic, or to the last
generic of the chain: one without a binding, or one bound to a name already passed. -/
def resolve (v : View) (p : Found) (x : String) (seen : List String)
    (h : seen.contains x = false) : Except String Ty :=
  match hl : v.look p x with
  | some (.generic y) =>
    if hy : (x :: seen).contains y then .error x
    else v.resolve p y (x :: seen) (by simpa using hy)
  | some t => .ok t
  | none => .error x
termination_by ((v.keys p).filter (fun y => !seen.contains y)).length
decreasing_by exact length_filter_lt_of_mem (mem_keys_of_look hl) h

/-- Follows interface parameters from `r`, with the actual type `a`, having left the
interfaces `seen`. Each interface reached is a binding of the one before, so the number of
bindings bounds the chain; `fuel` is that bound. -/
def chase (v : View) (p : Found) (a : Ty) : Nat → List Nat → IfaceRef → Lead
  | 0, _, _ => .endless
  | fuel + 1, seen, r =>
    if a.same (.iface r) then .accept
    else if seen.contains r.id then .endless
    else
      match v.resolve p r.generic [] rfl with
      | .ok (.iface r') => if r'.id == r.id then .bind r else v.chase p a fuel (r.id :: seen) r'
      | .ok b => .solve b
      | .error _ => .bind r

mutual

/-- Matches an expected type against an actual one. -/
def solve (v : View) (p : Found) (e a : Ty) : Outcome :=
  match e with
  | .generic n =>
    match v.resolve p n [] rfl with
    | .ok b => v.solveBound p b a
    | .error u => if a.isGenericNamed u then .holds p else .holds ((u, a) :: p)
  | .iface r => v.solveIface p r a
  | _ => v.solveShape p e a
termination_by 4 * sizeOf a + 3

/-- Matches the type a generic is bound to against an actual type. -/
def solveBound (v : View) (p : Found) (b a : Ty) : Outcome :=
  match b with
  | .iface r => v.solveIface p r a
  | _ => v.solveShape p b a
termination_by 4 * sizeOf a + 2

/-- Matches an interface against an actual type. -/
def solveIface (v : View) (p : Found) (r : IfaceRef) (a : Ty) : Outcome :=
  match v.chase p a (p.length + v.scopes.bound + 2) [] r with
  | .accept => .holds p
  | .bind r' => if v.decls.implements r'.id a then .holds ((r'.generic, a) :: p) else .fails
  | .solve b => v.solveShape p b a
  | .endless => .endless
termination_by 4 * sizeOf a + 1

/-- Matches an expected type that is neither a generic nor an interface by its shape. -/
def solveShape (v : View) (p : Found) (e a : Ty) : Outcome :=
  match e, a with
  | _, .generic _ => .fails
  | .basic x, .basic y => if x == y then .holds p else .fails
  | .app he es, .app ha as =>
    if he.sameDecl ha && es.length == as.length then v.solveArgs p true es as else .fails
  | .app he _, .enum r => if he.same (.enum r) then .holds p else .fails
  | .enum r, .app ha _ => if ha.same (.enum r) then .holds p else .fails
  | .enum r, .enum r' => if r.id == r'.id then .holds p else .fails
  | .data r, .data r' => if r.id == r'.id then .holds p else .fails
  | .fn _ ps r _ _, .fn _ ps' r' _ _ =>
    if ps.length == ps'.length then
      match v.solveArgs p false ps ps' with
      | .holds p' => v.solve p' r r'
      | o => o
    else .fails
  | _, _ => .fails
termination_by 4 * sizeOf a

/-- Matches expected types against actual ones in turn; with `skipGeneric`, an actual type
that is a generic is passed over. -/
def solveArgs (v : View) (p : Found) (skipGeneric : Bool) : List Ty → List Ty → Outcome
  | e :: es, a :: as =>
    if skipGeneric && a.isGeneric then v.solveArgs p skipGeneric es as
    else
      match v.solve p e a with
      | .holds p' => v.solveArgs p' skipGeneric es as
      | o => o
  | _, _ => .holds p
termination_by _ as => 4 * sizeOf as

end

/-- Whether a value of type `a` may stand where `e` is expected; nothing is bound. -/
def assignable (v : View) (e a : Ty) : Outcome := v.solve [] e a

end View

namespace Scopes

/-- Binds the generics found in frame `i`, the newest binding of each name. -/
def commit (s : Scopes) (i : Nat) (p : Found) : Scopes :=
  (latestBindings p).foldl (fun s b => s.set i b.1 b.2) s

end Scopes

namespace View

/-- Matches `e` against `a` and, when it holds, binds the generics found in the frame. -/
def unify (v : View) (e a : Ty) : Outcome × Scopes :=
  match v.solve [] e a with
  | .holds p =>
    let ⟨scopes, frame, _⟩ := v
    (.holds p, scopes.commit frame p)
  | o => (o, v.scopes)

/-- `assignable`, and if it holds, `unify`. -/
def accepts (v : View) (e a : Ty) : Outcome × Scopes :=
  match v.assignable e a with
  | .holds _ => v.unify e a
  | o => (o, v.scopes)

end View

end Verve
