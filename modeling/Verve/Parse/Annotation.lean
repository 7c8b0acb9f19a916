import Verve.Parse.Cursor

/-!
# Reading type annotations and signatures

A type expression is a name, optionally applied to annotations in angle brackets (`List<Int>`),
or a function type `fn(A, B): R`. A name is a generic when one is in scope, else the type
the table declares under it; any other name is an unknown type. A written function type has
the name `fn` and no type parameters.

A signature is a name, optional generic names in angle brackets, typed parameters in
parentheses, a colon and the result type; the generic names are in scope for the parameters
and the result.
-/

namespace Verve
namespace Parse

mutual

/-- A type expression. -/
def typeExpr : Nat → Reader Ty
  | 0 => outOfFuel
  | fuel + 1 => do
    match (← current).kind with
    | .identifier => namedType fuel
    | .kwFn => fnType fuel
    | _ => unexpected

/-- A name, optionally applied to arguments. -/
def namedType : Nat → Reader Ty
  | 0 => outOfFuel
  | fuel + 1 => do
    let t ← expect .identifier
    let s ← get
    let base ←
      if s.generics.contains t.value then pure (Ty.generic t.value)
      else match s.decls.typeNamed? t.value with
        | some ty => pure ty
        | none => throw ⟨.unknownType t.value, t.span.start⟩
    if ← eat .less then
      let args ← delimited (typeExpr fuel) .greater fuel []
      pure (.app base args)
    else pure base

/-- A function type. -/
def fnType : Nat → Reader Ty
  | 0 => outOfFuel
  | fuel + 1 => do
    let _ ← expect .kwFn
    let _ ← expect .openParen
    let params ← delimited (typeExpr fuel) .closeParen fuel []
    let _ ← expect .colon
    let ret ← typeExpr fuel
    pure (.fn "fn" params ret [] none)

end

/-- Generic names in angle brackets, if the current token opens them. -/
def genericParams (fuel : Nat) : Reader (List String) := do
  if ← eat .less then
    delimited (do pure (← expect .identifier).value) .greater fuel []
  else pure []

/-- A typed parameter `x: T`. -/
def typedParam (fuel : Nat) : Reader (Binding × Ty) := do
  let t ← expect .identifier
  let _ ← expect .colon
  let ty ← typeExpr fuel
  pure (⟨t.value, t.span⟩, ty)

/-- A signature, with the names and spans of its parameters. -/
def signature (fuel : Nat) : Reader (List Binding × Sig) := do
  let t ← current
  if t.kind ≠ .identifier then
    throw ⟨.unexpectedTokenDetailed t.value "expected function name", t.span.start⟩
  let _ ← advance
  let generics ← genericParams fuel
  withGenerics generics do
    let _ ← expect .openParen
    let params ← delimited (typedParam fuel) .closeParen fuel []
    let _ ← expect .colon
    let ret ← typeExpr fuel
    pure (params.map (·.1), { name := t.value, params := params.map (·.2), ret, generics })

end Parse
end Verve
