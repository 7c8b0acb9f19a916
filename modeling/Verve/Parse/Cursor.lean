import Verve.Token.Basic
import Verve.Fault
import Verve.Decls
import Verve.Syntax.Node

/-!
# Reading tokens

The state of a reader: the tokens, the position of the current one, the declaration table
filled in so far, and the generic names in scope for annotations. The token list always ends
with `eof`, and the position never moves past it: `advance` at `eof` stays there, so every
step that reads reads a token of the list.

Readers that loop take a fuel argument: every call spends one unit, and every cycle of calls
consumes a token, so a fuel proportional to the number of tokens is never used up. A reader
out of fuel fails at the current token with `outOfFuel`, a fault no other step raises.
-/

namespace Verve
namespace Parse

/-- The state of a reader. -/
structure State where
  tokens : Array Token
  pos : Nat
  decls : Decls
  generics : List String
  deriving Inhabited

/-- A reader: it reads from the state and fails with a located fault. -/
abbrev Reader := StateT State (Except Located)

/-- The end mark at a byte position. -/
def eofAt (n : Nat) : Token := ⟨.eof, "EOF", ⟨n, n⟩⟩

/-- The token at an index, the last one past the end. -/
def tokenAt (toks : Array Token) (i : Nat) : Token :=
  toks[min i (toks.size - 1)]?.getD (eofAt 0)

/-- The current token. -/
def current : Reader Token := do
  let s ← get
  pure (tokenAt s.tokens s.pos)

/-- The byte position of the current token. -/
def position : Reader Nat := do
  pure (← current).span.start

/-- Moves past the current token, which it returns; at the last token it stays. -/
def advance : Reader Token := do
  let t ← current
  modify fun s => if s.pos + 1 < s.tokens.size then { s with pos := s.pos + 1 } else s
  pure t

/-- Fails at the current token, which the grammar does not allow here. -/
def unexpected {α : Type} : Reader α := do
  let t ← current
  throw ⟨.unexpectedToken t.value, t.span.start⟩

/-- Fails at the current token for want of fuel. -/
def outOfFuel {α : Type} : Reader α := do
  let t ← current
  throw ⟨.outOfFuel, t.span.start⟩

/-- Consumes a token of a kind, or fails at the current token. -/
def expect (k : TokenKind) : Reader Token := do
  let t ← current
  if t.kind = k then advance else throw ⟨.unexpectedToken t.value, t.span.start⟩

/-- Consumes a token of a kind if it is the current one. -/
def eat (k : TokenKind) : Reader Bool := do
  let t ← current
  if t.kind = k then
    let _ ← advance
    pure true
  else pure false

/-- The span from a byte position to the end of the last consumed token; empty before any
token is consumed. -/
def spanFrom (start : Nat) : Reader Span := do
  let s ← get
  if s.pos = 0 then pure ⟨start, start⟩
  else pure ⟨start, (tokenAt s.tokens (s.pos - 1)).span.stop⟩

/-- Reads with more generic names in scope. -/
def withGenerics {α : Type} (names : List String) (r : Reader α) : Reader α := do
  let saved := (← get).generics
  modify fun s => { s with generics := s.generics ++ names }
  let x ← r
  modify fun s => { s with generics := saved }
  pure x

/-- Changes the declaration table. -/
def declare (f : Decls → Decls) : Reader Unit :=
  modify fun s => { s with decls := f s.decls }

/-- A fresh declaration number. -/
def freshId : Reader Nat := do
  let s ← get
  let (n, d) := s.decls.fresh
  set { s with decls := d }
  pure n

/-- Items separated by commas up to a closing token, which is consumed; a comma may stand
before it. -/
def delimited {α : Type} (item : Reader α) (close : TokenKind) : Nat → List α → Reader (List α)
  | 0, _ => outOfFuel
  | fuel + 1, acc => do
    if (← current).kind = close then
      let _ ← advance
      pure acc.reverse
    else
      let x ← item
      if ← eat .comma then delimited item close fuel (x :: acc)
      else
        let _ ← expect close
        pure (x :: acc).reverse

/-- A name bound by a parameter list or a pattern. -/
def binding : Reader Binding := do
  let t ← expect .identifier
  pure ⟨t.value, t.span⟩

/-- How the scan for an enum's names goes on past one token: `none` at the closing brace
of the body (or the end of the tokens) at the top level; else the new depth of parentheses,
whether a name may come next, and the names found so far, newest first. A name at the top
level counts when it opens the body or follows a top-level comma. -/
def peekStep (t : Token) (depth : Int) (first : Bool) (acc : List String) :
    Option (Int × Bool × List String) :=
  match t.kind with
  | .openParen => some (depth + 1, false, acc)
  | .closeParen => some (depth - 1, false, acc)
  | .closeCurly | .eof => if depth = 0 then none else some (depth, false, acc)
  | .comma => some (depth, depth = 0, acc)
  | .identifier => some (depth, false, if depth = 0 ∧ first then t.value :: acc else acc)
  | _ => some (depth, false, acc)

/-- The names that an enum body declares, found by a scan that does not read types. -/
def peekNames (toks : List Token) : List String :=
  go toks 0 true []
where
  go : List Token → Int → Bool → List String → List String
    | [], _, _, acc => acc.reverse
    | t :: ts, depth, first, acc =>
      match peekStep t depth first acc with
      | none => acc.reverse
      | some (d, f, a) => go ts d f a

/-- `peekNames` of the tokens from index `i` on, read in place. -/
def peekNamesAt (toks : Array Token) (i : Nat) : List String :=
  go i 0 true []
where
  go (i : Nat) (depth : Int) (first : Bool) (acc : List String) : List String :=
    if h : i < toks.size then
      match peekStep toks[i] depth first acc with
      | none => acc.reverse
      | some (d, f, a) => go (i + 1) d f a
    else acc.reverse
  termination_by toks.size - i

theorem peekNamesAt_go_eq (toks : Array Token) (i : Nat) (depth : Int) (first : Bool)
    (acc : List String) :
    peekNamesAt.go toks i depth first acc = peekNames.go (toks.toList.drop i) depth first acc := by
  induction i, depth, first, acc using peekNamesAt.go.induct toks with
  | case1 i depth first acc h hs =>
    have hi : i < toks.toList.length := by simpa using h
    rw [peekNamesAt.go, dif_pos h, List.drop_eq_getElem_cons hi, peekNames.go]
    simp only [Array.getElem_toList, hs]
  | case2 i depth first acc h d f a hs ih =>
    have hi : i < toks.toList.length := by simpa using h
    rw [peekNamesAt.go, dif_pos h, List.drop_eq_getElem_cons hi, peekNames.go]
    simp only [Array.getElem_toList, hs, ih]
  | case3 i depth first acc h =>
    rw [peekNamesAt.go, dif_neg h,
      List.drop_eq_nil_of_le (by simpa using Nat.le_of_not_lt h), peekNames.go]

/-- Reading in place finds the names of the tokens from index `i` on. -/
theorem peekNamesAt_eq (toks : Array Token) (i : Nat) :
    peekNamesAt toks i = peekNames (toks.toList.drop i) :=
  peekNamesAt_go_eq toks i 0 true []

/-- Binding powers of operators, weakest first. -/
inductive Power where
  | default
  | logical
  | relational
  | additive
  | multiplicative
  | unary
  | call
  deriving DecidableEq, Inhabited

namespace Power

/-- The rank of a power in the order. -/
def rank : Power → Nat
  | .default => 0
  | .logical => 1
  | .relational => 2
  | .additive => 3
  | .multiplicative => 4
  | .unary => 5
  | .call => 6

/-- The power of a token that continues an expression; `default` for every other token. -/
def ofKind : TokenKind → Power
  | .and | .or => .logical
  | .less | .lessEquals | .greater | .greaterEquals | .equals | .notEquals => .relational
  | .plus | .dash => .additive
  | .star | .slash | .percent => .multiplicative
  | .openParen => .call
  | _ => .default

end Power

end Parse
end Verve
