import Verve.Parse.Declaration
import Verve.Syntax.Node

/-!
# Reading expressions and items

Expressions are read by binding power. An expression starts with a literal, a name, a
constructor, a prefix `-` or `!`, a parenthesised expression, a list, a block, an `if`, a
`let` or a `match`; then, while the current token continues an expression more strongly than
the power being read, a binary operator or a call extends it.

| power | tokens |
| --- | --- |
| logical | `&& \|\|` |
| relational | `< <= > >= == !=` |
| additive | `+ -` |
| multiplicative | `* / %` |
| unary | operand of a prefix operator |
| call | `(` |

The right operand of a binary operator is read at the operator's own power, so operators of
one power group to the left. A parenthesised expression leaves no node of its own.

An item is a declaration (`fn`, `extern`, `interface`, `implementation`, `enum`) or an
expression with an optional `;`. A function is bound in the root scope after its body is
read. An implementation `implementation Show<Int> { fn show(x) { … } }` is recorded under the
dispatch key of its type before its methods are read; each method becomes a function named
by the method and the key (`showInt`), whose signature is the method's with the interface's
parameter replaced by the implementing type.
-/

namespace Verve
namespace Parse

/-- A constructor pattern `P` or `P(x, y)`. -/
def pattern (fuel : Nat) : Reader Node := do
  let t ← current
  if !t.isCapitalised then
    throw ⟨.unexpectedTokenDetailed t.value "expected a constructor pattern", t.span.start⟩
  let _ ← advance
  let bs ← if ← eat .openParen then delimited binding .closeParen fuel [] else pure []
  pure (.mk (.pattern t.value bs) (← spanFrom t.span.start) none)

mutual

/-- An expression read at a binding power. -/
def expr : Nat → Power → Reader Node
  | 0, _ => outOfFuel
  | fuel + 1, bp => do
    let left ← start fuel
    extend fuel bp left

/-- Extends an expression while the current token binds more strongly than `bp`. -/
def extend : Nat → Power → Node → Reader Node
  | 0, _, _ => outOfFuel
  | fuel + 1, bp, left => do
    let t ← current
    let next := Power.ofKind t.kind
    if next.rank ≤ bp.rank then pure left
    else if t.kind = .openParen then
      let n ← callExpr fuel left
      extend fuel bp n
    else
      let n ← binaryExpr fuel left next
      extend fuel bp n

/-- The start of an expression. -/
def start : Nat → Reader Node
  | 0 => outOfFuel
  | fuel + 1 => do
    match (← current).kind with
    | .number | .identifier | .string => primary fuel
    | .dash | .not => prefixExpr fuel
    | .openParen => grouping fuel
    | .openBracket => listExpr fuel
    | .openCurly => blockExpr fuel
    | .kwIf => ifExpr fuel
    | .kwLet => letExpr fuel
    | .kwMatch => matchExpr fuel
    | _ => unexpected

/-- A literal, a name or a constructor. -/
def primary : Nat → Reader Node
  | 0 => outOfFuel
  | fuel + 1 => do
    let t ← current
    match t.kind with
    | .number =>
      match Literal.ofText? t.value with
      | none => throw ⟨.numberParse t.value, t.span.start⟩
      | some lit =>
        let _ ← advance
        pure (.mk (.num lit) t.span none)
    | .identifier =>
      if t.isCapitalised then constructorExpr fuel
      else
        let _ ← advance
        pure (.mk (.ident t.value) t.span none)
    | .string =>
      let _ ← advance
      pure (.mk (.str t.value) t.span none)
    | _ => unexpected

/-- Arguments in parentheses. -/
def arguments : Nat → Reader (List Node)
  | 0 => outOfFuel
  | fuel + 1 => do
    let _ ← expect .openParen
    delimited (expr fuel .default) .closeParen fuel []

/-- A constructor with its arguments, if a parenthesis follows its name. -/
def constructorExpr : Nat → Reader Node
  | 0 => outOfFuel
  | fuel + 1 => do
    let t ← expect .identifier
    let args ← if (← current).kind = .openParen then arguments fuel else pure []
    pure (.mk (.construct t.value args) (← spanFrom t.span.start) none)

/-- A binary operation with its left operand read. -/
def binaryExpr : Nat → Node → Power → Reader Node
  | 0, _, _ => outOfFuel
  | fuel + 1, left, bp => do
    let op ← advance
    let right ← expr fuel bp
    pure (.mk (.binary op.kind left right) ⟨left.span.start, right.span.stop⟩ none)

/-- A prefix operation. -/
def prefixExpr : Nat → Reader Node
  | 0 => outOfFuel
  | fuel + 1 => do
    let op ← advance
    let operand ← expr fuel .unary
    pure (.mk (.unary op.kind operand) ⟨op.span.start, operand.span.stop⟩ none)

/-- An expression in parentheses. -/
def grouping : Nat → Reader Node
  | 0 => outOfFuel
  | fuel + 1 => do
    let _ ← advance
    let e ← expr fuel .default
    let _ ← expect .closeParen
    pure e

/-- A call of an expression that has been read. -/
def callExpr : Nat → Node → Reader Node
  | 0, _ => outOfFuel
  | fuel + 1, callee => do
    let args ← arguments fuel
    pure (.mk (.call callee args none) (← spanFrom callee.span.start) none)

/-- A list literal. -/
def listExpr : Nat → Reader Node
  | 0 => outOfFuel
  | fuel + 1 => do
    let first := (← advance).span.start
    let items ← delimited (expr fuel .default) .closeBracket fuel []
    pure (.mk (.list items) (← spanFrom first) none)

/-- A block in braces. -/
def blockExpr : Nat → Reader Node
  | 0 => outOfFuel
  | fuel + 1 => do
    let first := (← expect .openCurly).span.start
    let nodes ← blockItems fuel []
    let _ ← expect .closeCurly
    pure (.mk (.block nodes) (← spanFrom first) none)

/-- The items of a block up to its closing brace; `acc` holds those read, last first. -/
def blockItems : Nat → List Node → Reader (List Node)
  | 0, _ => outOfFuel
  | fuel + 1, acc => do
    let t ← current
    if t.kind = .closeCurly then pure acc.reverse
    else if t.kind = .eof then unexpected
    else
      let xs ← item fuel
      blockItems fuel (xs.reverse ++ acc)

/-- A conditional, with an `else` block or an `else if`. -/
def ifExpr : Nat → Reader Node
  | 0 => outOfFuel
  | fuel + 1 => do
    let first := (← advance).span.start
    let test ← expr fuel .default
    let thenBody ← blockExpr fuel
    let elseBody ←
      if ← eat .kwElse then
        if (← current).kind = .kwIf then some <$> ifExpr fuel else some <$> blockExpr fuel
      else pure none
    pure (.mk (.cond test thenBody elseBody) (← spanFrom first) none)

/-- An assignment to a name or a pattern. -/
def assignment : Nat → Reader Node
  | 0 => outOfFuel
  | fuel + 1 => do
    let first ← position
    let left ←
      if (← current).isCapitalised then pattern fuel
      else
        let b ← binding
        pure (.mk (.ident b.name) b.span none)
    let _ ← expect .assignment
    let value ← expr fuel .default
    pure (.mk (.assign left value) (← spanFrom first) none)

/-- Further assignments, each after a comma. -/
def moreAssignments : Nat → List Node → Reader (List Node)
  | 0, _ => outOfFuel
  | fuel + 1, acc => do
    if ← eat .comma then
      let a ← assignment fuel
      moreAssignments fuel (a :: acc)
    else pure acc.reverse

/-- `let`, assignments, and the block in which they hold. -/
def letExpr : Nat → Reader Node
  | 0 => outOfFuel
  | fuel + 1 => do
    let first := (← advance).span.start
    let a ← assignment fuel
    let rest ← moreAssignments fuel []
    let body ← blockExpr fuel
    pure (.mk (.letIn (a :: rest) body) (← spanFrom first) none)

/-- One case of a match. -/
def caseExpr : Nat → Reader Node
  | 0 => outOfFuel
  | fuel + 1 => do
    let first ← position
    let pat ← pattern fuel
    let _ ← expect .fatArrow
    let body ← expr fuel .default
    pure (.mk (.case pat body) (← spanFrom first) none)

/-- The cases of a match up to its closing brace, each optionally followed by a comma. -/
def cases : Nat → List Node → Reader (List Node)
  | 0, _ => outOfFuel
  | fuel + 1, acc => do
    if (← current).kind = .closeCurly then pure acc.reverse
    else
      let c ← caseExpr fuel
      let _ ← eat .comma
      cases fuel (c :: acc)

/-- A match. -/
def matchExpr : Nat → Reader Node
  | 0 => outOfFuel
  | fuel + 1 => do
    let first := (← advance).span.start
    let value ← expr fuel .default
    let _ ← expect .openCurly
    let cs ← cases fuel []
    let _ ← expect .closeCurly
    pure (.mk (.matchOn value cs) (← spanFrom first) none)

/-- An item: a declaration, or an expression with an optional semicolon. -/
def item : Nat → Reader (List Node)
  | 0 => outOfFuel
  | fuel + 1 => do
    match (← current).kind with
    | .kwFn => fnDecl fuel
    | .kwExtern => externDecl fuel
    | .kwInterface => interfaceDecl fuel
    | .kwImplementation => implDecl fuel
    | .kwEnum => enumDecl fuel
    | _ =>
      let e ← expr fuel .default
      let _ ← eat .semicolon
      pure [e]

/-- A function definition. -/
def fnDecl : Nat → Reader (List Node)
  | 0 => outOfFuel
  | fuel + 1 => do
    let first := (← advance).span.start
    let (params, sig) ← signature fuel
    let body ← blockExpr fuel
    declare (·.set sig.name sig.toTy)
    pure [.mk (.func sig.name params body) (← spanFrom first) none]

/-- An implementation of an interface for a type. -/
def implDecl : Nat → Reader (List Node)
  | 0 => outOfFuel
  | fuel + 1 => do
    let _ ← advance
    let t ← expect .identifier
    let iface ← match (← get).decls.typeNamed? t.value with
      | some (.iface r) =>
        match (← get).decls.iface? r.id with
        | some i => pure i
        | none => throw ⟨.unknownInterface t.value, t.span.start⟩
      | _ => throw ⟨.unknownInterface t.value, t.span.start⟩
    let _ ← expect .less
    let at_ ← position
    let ty ← typeExpr fuel
    let _ ← expect .greater
    let key ← match ty.dispatchKey with
      | some k => pure k
      | none => throw ⟨.unknownType ty.display, at_⟩
    if (← get).decls.hasImpl iface.ref.id key then
      throw ⟨.duplicateImplementation iface.ref.name key, at_⟩
    declare (·.addImpl iface.ref.id key ty)
    let _ ← expect .openCurly
    let fns ← implMethods fuel iface ty key []
    let _ ← expect .closeCurly
    pure fns

/-- The methods of an implementation up to its closing brace. -/
def implMethods : Nat → Iface → Ty → String → List Node → Reader (List Node)
  | 0, _, _, _, _ => outOfFuel
  | fuel + 1, iface, ty, key, acc => do
    if (← current).kind = .closeCurly then pure acc.reverse
    else
      let first := (← expect .kwFn).span.start
      let m ← expect .identifier
      let method ← match iface.methods.lookup m.value with
        | some s => pure s
        | none => throw ⟨.unknownMethod iface.ref.name m.value, m.span.start⟩
      let _ ← expect .openParen
      let params ← delimited binding .closeParen fuel []
      let body ← blockExpr fuel
      let name := method.name ++ key
      let g := iface.ref.generic
      let sig : Sig :=
        { name, params := method.params.map (Ty.subst g ty), ret := Ty.subst g ty method.ret,
          generics := method.generics }
      declare (·.set name sig.toTy)
      let node := Node.mk (.func name params body) (← spanFrom first) none
      implMethods fuel iface ty key (node :: acc)

end

end Parse
end Verve
