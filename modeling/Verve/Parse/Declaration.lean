import Verve.Parse.Annotation

/-!
# Reading declarations without bodies

* `extern fn f(x: A): R;` binds `f` to its function type in the root scope.
* `interface Show<T> { fn show(x: T): String; … }` declares an interface with exactly one
  type parameter; each method names the interface as its owner and is bound in the root
  scope, and the interface's name becomes a type name.
* `enum Option<T> { Some(T), None }` declares an enum; its name is a type name before its
  constructors are read, so they may refer to it, and each constructor is bound in the root
  scope with the enum's type parameters. The enum records the constructor names that a scan
  of its body finds before the body is read.

None of these leaves a node in the tree.
-/

namespace Verve
namespace Parse

/-- `extern fn` and a signature. -/
def externDecl (fuel : Nat) : Reader (List Node) := do
  let _ ← advance
  let _ ← expect .kwFn
  let (_, sig) ← signature fuel
  let _ ← eat .semicolon
  declare (·.set sig.name sig.toTy)
  pure []

/-- Method signatures up to the closing brace of an interface. -/
def prototypes (fuel : Nat) : Nat → List Sig → Reader (List Sig)
  | 0, _ => outOfFuel
  | n + 1, acc => do
    if (← current).kind = .closeCurly then pure acc.reverse
    else
      let _ ← expect .kwFn
      let (_, sig) ← signature fuel
      let _ ← eat .semicolon
      prototypes fuel n (sig :: acc)

/-- An interface declaration. -/
def interfaceDecl (fuel : Nat) : Reader (List Node) := do
  let _ ← advance
  let name := (← expect .identifier).value
  let _ ← expect .less
  let generic := (← expect .identifier).value
  let t ← current
  if t.kind ≠ .greater then
    throw ⟨.unexpectedTokenDetailed t.value "interfaces take exactly one type parameter",
      t.span.start⟩
  let _ ← advance
  let protos ← withGenerics [generic] do
    let _ ← expect .openCurly
    let ps ← prototypes fuel fuel []
    let _ ← expect .closeCurly
    pure ps
  let ref : IfaceRef := ⟨← freshId, name, generic⟩
  let methods := latestBindings
    (protos.reverse.map fun s => (s.name, { s with owner := some ref }))
  for (m, sig) in methods do
    declare (·.set m sig.toTy)
  declare fun d => (d.setType name (.iface ref)).addIface ⟨ref, methods, []⟩
  pure []

/-- One constructor entry of an enum body: a name and its parameter types. -/
def ctorEntry (fuel : Nat) : Reader (String × List Ty) := do
  let c := (← expect .identifier).value
  let params ← if ← eat .openParen then delimited (typeExpr fuel) .closeParen fuel [] else pure []
  pure (c, params)

/-- An enum declaration. -/
def enumDecl (fuel : Nat) : Reader (List Node) := do
  let _ ← advance
  let name := (← expect .identifier).value
  let generics ← genericParams fuel
  let _ ← expect .openCurly
  let s ← get
  let ref : EnumRef := ⟨← freshId, name, generics, peekNamesAt s.tokens s.pos⟩
  declare (·.setType name (.enum ref))
  let ctors ← withGenerics generics (delimited (ctorEntry fuel) .closeCurly fuel [])
  for (c, params) in ctors do
    let id ← freshId
    declare (·.set c (.ctor id c params (.enum ref) generics))
  pure []

end Parse
end Verve
