import Verve.Parse.Cursor
import Verve.Token.Lexeme

/-!
# Printing expressions

The text of an expression with no more parentheses than its binding powers ask for. An
operand is printed in parentheses when it is a binary or prefix operation that binds more
weakly than its operator, or, as the right operand of a binary operation, as strongly
(operators of one power group to the left); a callee is printed in parentheses when it is an
operation, or a constructor without arguments, whose name would take the call's arguments
as its own. Tokens are written one after another with a blank between two; a string literal
stands between quotes with its backslashes and quotes escaped.

`Node.Printable` is the class of trees the printer is for: non-negative integer literals
below `2 ^ 63`, names that start with a lowercase letter or an underscore and are no keyword,
string literals, constructors applied to arguments, list literals, the prefix operators `-`
and `!`, the thirteen binary operators and calls. `Node.erase` forgets the spans and the
types of a tree, and the implementation a checked call reaches.
-/

namespace Verve

namespace Token

/-- The body of a string literal that denotes a text: each backslash and quote escaped. -/
def escape : List Char → List Char
  | [] => []
  | c :: r => if c = '\\' ∨ c = '"' then '\\' :: c :: escape r else c :: escape r

/-- The source text of a token: a string literal between quotes, escaped; any other token
as its value. -/
def sourceText : TokenKind × String → List Char
  | (.string, v) => '"' :: escape v.toList ++ ['"']
  | (_, v) => v.toList

/-- The token of a punctuation mark of a kind. -/
def mark (k : TokenKind) : TokenKind × String := (k, (marks.lookup k).getD "")

/-- Whether a text is read as one identifier: a letter or an underscore, then letters,
digits and underscores, spelling no keyword. -/
def isIdentifier (x : String) : Bool :=
  match x.toList with
  | c :: cs => isNameStart c && cs.all isNameChar && (TokenKind.keyword? x).isNone
  | [] => false

/-- A variable: an identifier that starts with a lowercase letter or an underscore. -/
def isVariable (x : String) : Bool :=
  isIdentifier x && match x.toList with
    | c :: _ => !c.isUpper
    | [] => false

/-- A constructor name: an identifier that starts with a capital letter. -/
def isConstructor (x : String) : Bool :=
  isIdentifier x && match x.toList with
    | c :: _ => c.isUpper
    | [] => false

end Token

namespace Parse

/-- Whether a power is that of a binary operator. -/
def Power.isBinary : Power → Bool
  | .logical | .relational | .additive | .multiplicative => true
  | _ => false

theorem Power.rank_le_call (P : Power) : P.rank ≤ Power.call.rank := by
  cases P <;> decide

/-- Binary operators bind more strongly than nothing and less strongly than a prefix operator. -/
theorem Power.rank_of_isBinary {P : Power} (h : P.isBinary = true) :
    0 < P.rank ∧ P.rank < Power.unary.rank := by
  cases P <;> simp_all [Power.isBinary, Power.rank]

end Parse

open Parse

mutual

/-- A node with its span and type forgotten, and those of its parts, and the implementation
a checked call reaches. -/
def Node.erase : Node → Node
  | .mk f _ _ => .mk (Form.erase f) ⟨0, 0⟩ none

/-- A form with the spans and types of its parts forgotten. -/
def Form.erase : Form → Form
  | .str v => .str v
  | .num l => .num l
  | .ident x => .ident x
  | .binary op l r => .binary op (Node.erase l) (Node.erase r)
  | .unary op o => .unary op (Node.erase o)
  | .func x ps b => .func x (ps.map fun p => ⟨p.name, ⟨0, 0⟩⟩) (Node.erase b)
  | .block xs => .block (Node.eraseAll xs)
  | .call c as _ => .call (Node.erase c) (Node.eraseAll as) none
  | .cond c t none => .cond (Node.erase c) (Node.erase t) none
  | .cond c t (some e) => .cond (Node.erase c) (Node.erase t) (some (Node.erase e))
  | .list xs => .list (Node.eraseAll xs)
  | .matchOn v cs => .matchOn (Node.erase v) (Node.eraseAll cs)
  | .case p b => .case (Node.erase p) (Node.erase b)
  | .letIn as b => .letIn (Node.eraseAll as) (Node.erase b)
  | .assign l v => .assign (Node.erase l) (Node.erase v)
  | .construct x as => .construct x (Node.eraseAll as)
  | .pattern x bs => .pattern x (bs.map fun b => ⟨b.name, ⟨0, 0⟩⟩)

/-- Nodes with their spans and types forgotten. -/
def Node.eraseAll : List Node → List Node
  | [] => []
  | n :: ns => Node.erase n :: Node.eraseAll ns

end

namespace Node

/-- The power an operation binds with: its operator's for a binary operation, the unary
power for a prefix operation. Other nodes are never put in parentheses as operands. -/
def power? : Node → Option Power
  | .mk (.binary op _ _) _ _ => some (Power.ofKind op)
  | .mk (.unary _ _) _ _ => some .unary
  | _ => none

/-- Whether an operand of an operator of power `p` is printed in parentheses: an operation
that binds more weakly, or, on the right of a binary operator, as strongly. -/
def parenthesisedUnder (p : Power) (right : Bool) (n : Node) : Bool :=
  match n.power? with
  | some q => q.rank < p.rank || (right && q.rank == p.rank)
  | none => false

/-- Whether a callee is printed in parentheses: an operation, or a constructor without
arguments, which would take the call's arguments as its own. -/
def parenthesisedCallee : Node → Bool
  | .mk (.binary _ _ _) _ _ | .mk (.unary _ _) _ _ => true
  | .mk (.construct _ args) _ _ => args.isEmpty
  | _ => false

/-- Tokens, in parentheses when `b`. -/
def parenthesise (b : Bool) (ts : List (TokenKind × String)) : List (TokenKind × String) :=
  if b then (.openParen, "(") :: ts ++ [(.closeParen, ")")] else ts

@[simp] theorem parenthesise_false (ts : List (TokenKind × String)) : parenthesise false ts = ts :=
  rfl

@[simp] theorem parenthesise_true (ts : List (TokenKind × String)) :
    parenthesise true ts = (.openParen, "(") :: ts ++ [(.closeParen, ")")] :=
  rfl

mutual

/-- The tokens of a printed node. -/
def pieces : Node → List (TokenKind × String)
  | .mk f _ _ => formPieces f

/-- The tokens of a printed form; forms outside the printed class have none. -/
def formPieces : Form → List (TokenKind × String)
  | .num l => [(.number, l.text)]
  | .ident x => [(.identifier, x)]
  | .str v => [(.string, v)]
  | .construct c args =>
    (.identifier, c) ::
      if args.isEmpty then [] else (.openParen, "(") :: listPieces args ++ [(.closeParen, ")")]
  | .list xs => (.openBracket, "[") :: listPieces xs ++ [(.closeBracket, "]")]
  | .unary op o => Token.mark op :: parenthesise (o.parenthesisedUnder .unary false) (pieces o)
  | .binary op l r =>
    parenthesise (l.parenthesisedUnder (Power.ofKind op) false) (pieces l) ++
      Token.mark op :: parenthesise (r.parenthesisedUnder (Power.ofKind op) true) (pieces r)
  | .call f args _ =>
    parenthesise f.parenthesisedCallee (pieces f) ++
      (.openParen, "(") :: listPieces args ++ [(.closeParen, ")")]
  | _ => []

/-- The tokens of nodes separated by commas. -/
def listPieces : List Node → List (TokenKind × String)
  | [] => []
  | [n] => pieces n
  | n :: ns => pieces n ++ (.comma, ",") :: listPieces ns

end

/-- The printed text of a node: the source texts of its tokens, a blank between two. -/
def print (n : Node) : String :=
  String.ofList ([' '].intercalate (n.pieces.map Token.sourceText))

example : (Node.mk (.binary .dash (.mk (.ident "a") ⟨0, 0⟩ none)
      (.mk (.binary .dash (.mk (.ident "b") ⟨0, 0⟩ none) (.mk (.str "c\"") ⟨0, 0⟩ none)) ⟨0, 0⟩ none))
      ⟨0, 0⟩ none).print = "a - ( b - \"c\\\"\" )" := by decide

/-- The trees the printer is for. A number is an integer literal that a 64-bit signed
integer holds and that is not negative. -/
inductive Printable : Node → Prop
  | num {n : Nat} {sp : Span} {ty : Option Ty} : n < Nat.pow 2 63 →
      Printable (.mk (.num (.int n)) sp ty)
  | ident {x : String} {sp : Span} {ty : Option Ty} : Token.isVariable x = true →
      Printable (.mk (.ident x) sp ty)
  | str {v : String} {sp : Span} {ty : Option Ty} : Printable (.mk (.str v) sp ty)
  | construct {c : String} {args : List Node} {sp : Span} {ty : Option Ty} :
      Token.isConstructor c = true → (∀ a ∈ args, Printable a) →
      Printable (.mk (.construct c args) sp ty)
  | list {xs : List Node} {sp : Span} {ty : Option Ty} : (∀ a ∈ xs, Printable a) →
      Printable (.mk (.list xs) sp ty)
  | unary {op : TokenKind} {o : Node} {sp : Span} {ty : Option Ty} : op = .dash ∨ op = .not →
      Printable o → Printable (.mk (.unary op o) sp ty)
  | binary {op : TokenKind} {l r : Node} {sp : Span} {ty : Option Ty} :
      (Power.ofKind op).isBinary = true → Printable l → Printable r →
      Printable (.mk (.binary op l r) sp ty)
  | call {f : Node} {args : List Node} {d : Option Dispatch} {sp : Span} {ty : Option Ty} :
      Printable f → (∀ a ∈ args, Printable a) → Printable (.mk (.call f args d) sp ty)

end Node

end Verve
