import Verve.Ty.Basic
import Verve.Token.Basic
import Verve.Decimal.Shortest
import Verve.Text.Quoted

/-!
# Syntax trees

A program is a tree of nodes. Every node has a form, the span of source text it was read
from, and, once checked, its type.

| form | written | children, in order |
| --- | --- | --- |
| `str`, `num`, `ident` | `"a"`, `1.5`, `x` | none |
| `binary`, `unary` | `a + b`, `-a` | the operands |
| `func` | `fn f(x: Int): Int { … }` | the body |
| `block`, `list` | `{ a; b }`, `[a, b]` | the items |
| `call` | `f(a, b)` | the callee, then the arguments |
| `cond` | `if c { … } else { … }` | the test, the branches |
| `matchOn`, `case` | `match v { P(x) => e }` | the value, then the cases; the pattern, then the body |
| `letIn`, `assign` | `let x = e { … }` | the assignments, then the block; the left side, then the value |
| `construct`, `pattern` | `Some(1)`, `Some(x)` | the arguments; none |

`Node.preorder` lists a node and then, in that order, the preorders of its children.
-/

namespace Verve

/-- A number literal: an integer of the 64-bit range, or the double nearest to a decimal. -/
inductive Literal where
  | int (value : Int)
  | float (value : Decimal.Binary64)
  deriving Inhabited

namespace Literal

/-- Whether a literal is a float. -/
def isFloat : Literal → Bool
  | .int _ => false
  | .float _ => true

/-- The text of a literal: the integer in decimal, the double in its shortest decimal. -/
def text : Literal → String
  | .int v => toString v
  | .float d => d.shortest

/-- The literal that a number token spells: a float when it has a point, else an integer,
none beyond the largest 64-bit integer. -/
def ofText? (s : String) : Option Literal :=
  let cs := s.toList
  let digitsValue (ds : List Char) : Nat := ds.foldl (fun n c => 10 * n + (c.toNat - '0'.toNat)) 0
  if cs.contains '.' then
    let whole := cs.takeWhile (· != '.')
    let frac := (cs.dropWhile (· != '.')).drop 1
    some (.float (Decimal.Binary64.ofDecimal (digitsValue (whole ++ frac)) frac.length))
  else
    let n := digitsValue cs
    if n < Nat.pow 2 63 then some (.int n) else none

end Literal

/-- A name bound by a parameter list or a pattern, with its span. -/
structure Binding where
  name : String
  span : Span
  deriving Inhabited

/-- The implementation that a call of an interface method reaches: its declared name and its
function type. -/
structure Dispatch where
  symbol : String
  target : Ty
  deriving Inhabited

mutual

/-- A node: a form, its span, and its type once checked. -/
inductive Node where
  | mk (form : Form) (span : Span) (ty : Option Ty)

/-- The forms of nodes. -/
inductive Form where
  /-- A string literal with the text it denotes. -/
  | str (value : String)
  /-- A number literal. -/
  | num (lit : Literal)
  /-- A name. -/
  | ident (name : String)
  /-- A binary operation. -/
  | binary (op : TokenKind) (left right : Node)
  /-- A prefix operation, `-` or `!`. -/
  | unary (op : TokenKind) (operand : Node)
  /-- A function definition. -/
  | func (name : String) (params : List Binding) (body : Node)
  /-- A block of items. -/
  | block (items : List Node)
  /-- A call, with the implementation it dispatches to once checked. -/
  | call (callee : Node) (args : List Node) (dispatch : Option Dispatch)
  /-- A conditional. -/
  | cond (test thenBody : Node) (elseBody : Option Node)
  /-- A list literal. -/
  | list (items : List Node)
  /-- A match of a value against cases. -/
  | matchOn (value : Node) (cases : List Node)
  /-- One case of a match: a pattern and the body it selects. -/
  | case (pattern body : Node)
  /-- Assignments and the block in which they hold. -/
  | letIn (assignments : List Node) (body : Node)
  /-- One assignment: a name or a pattern on the left. -/
  | assign (left value : Node)
  /-- A constructor applied to arguments. -/
  | construct (name : String) (args : List Node)
  /-- A constructor pattern with the names it binds. -/
  | pattern (ctor : String) (bindings : List Binding)

end

instance : Inhabited Node := ⟨.mk (.block []) ⟨0, 0⟩ none⟩

namespace Node

/-- The form of a node. -/
def form : Node → Form
  | .mk f _ _ => f

/-- The span of a node. -/
def span : Node → Span
  | .mk _ s _ => s

/-- The type of a node, once checked. -/
def ty : Node → Option Ty
  | .mk _ _ t => t

/-- The node with its type recorded. -/
def withTy (n : Node) (t : Ty) : Node := .mk n.form n.span (some t)

/-- The name of a node's form. -/
def kindName (n : Node) : String :=
  match n.form with
  | .str _ => "String"
  | .num _ => "Number"
  | .ident _ => "Identifier"
  | .binary _ _ _ => "BinaryOperation"
  | .unary _ _ => "UnaryOperation"
  | .func _ _ _ => "Function"
  | .block _ => "Block"
  | .call _ _ _ => "Call"
  | .cond _ _ _ => "If"
  | .list _ => "List"
  | .matchOn _ _ => "Match"
  | .case _ _ => "Case"
  | .letIn _ _ => "Let"
  | .assign _ _ => "Assignment"
  | .construct _ _ => "Constructor"
  | .pattern _ _ => "Pattern"

/-- A short description of a node for messages: a literal's text (a string quoted), a name,
a callee followed by `(...)`, or the name of the form. -/
def describe : Node → String
  | .mk (.str v) _ _ => Text.quoted v
  | .mk (.num l) _ _ => l.text
  | .mk (.ident x) _ _ => x
  | .mk (.func x _ _) _ _ => x
  | .mk (.call c _ _) _ _ => describe c ++ "(...)"
  | .mk (.construct x _) _ _ => x
  | .mk (.pattern x _) _ _ => x
  | n => n.kindName

/-- The children of a node, in order. -/
def children (n : Node) : List Node :=
  match n.form with
  | .str _ | .num _ | .ident _ | .pattern _ _ => []
  | .binary _ l r => [l, r]
  | .unary _ o => [o]
  | .func _ _ b => [b]
  | .block xs | .list xs => xs
  | .call c as _ => c :: as
  | .cond c t e => [c, t] ++ e.toList
  | .matchOn v cs => v :: cs
  | .case p b => [p, b]
  | .letIn as b => as ++ [b]
  | .assign l v => [l, v]
  | .construct _ as => as

mutual

/-- A node, then the preorders of its children, then `acc`. -/
def preorderOnto : Node → List Node → List Node
  | n@(.mk f _ _), acc => n :: formPreorderOnto f acc

/-- The preorders of a form's children, one after another, then `acc`. -/
def formPreorderOnto : Form → List Node → List Node
  | .str _, acc | .num _, acc | .ident _, acc | .pattern _ _, acc => acc
  | .binary _ l r, acc => preorderOnto l (preorderOnto r acc)
  | .unary _ o, acc => preorderOnto o acc
  | .func _ _ b, acc => preorderOnto b acc
  | .block xs, acc | .list xs, acc => listPreorderOnto xs acc
  | .call c as _, acc => preorderOnto c (listPreorderOnto as acc)
  | .cond c t none, acc => preorderOnto c (preorderOnto t acc)
  | .cond c t (some e), acc => preorderOnto c (preorderOnto t (preorderOnto e acc))
  | .matchOn v cs, acc => preorderOnto v (listPreorderOnto cs acc)
  | .case p b, acc => preorderOnto p (preorderOnto b acc)
  | .letIn as b, acc => listPreorderOnto as (preorderOnto b acc)
  | .assign l v, acc => preorderOnto l (preorderOnto v acc)
  | .construct _ as, acc => listPreorderOnto as acc

/-- The preorders of nodes, one after another, then `acc`. -/
def listPreorderOnto : List Node → List Node → List Node
  | [], acc => acc
  | n :: ns, acc => preorderOnto n (listPreorderOnto ns acc)

end

/-- A node, then the preorders of its children, one after another. -/
def preorder (n : Node) : List Node := preorderOnto n []

/-- The line a checked node contributes to a listing of types: a function's name and type,
or a dispatched call's callee and the implementation it reaches. -/
def listingLine? (n : Node) : Option String :=
  match n.form, n.ty with
  | .func x _ _, some t => some (x ++ ": " ++ t.display)
  | .call c _ (some d), _ => some (c.describe ++ " -> " ++ d.symbol)
  | _, _ => none

/-- The listing of a checked tree, in preorder. -/
def listing (n : Node) : List String := n.preorder.filterMap listingLine?

end Node

end Verve
