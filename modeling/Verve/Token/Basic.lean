/-!
# Tokens

The words of a Verve program: literals, names, keywords and punctuation, each with the byte
span of source text that it was read from. The last token of every scan is the end mark
`eof`, an empty span at the end of the source.

| kind | text |
| --- | --- |
| `number`, `string`, `identifier` | `12`, `1.5`, `"a\n"`, `xs` |
| brackets | `[ ] { } ( )` |
| `assignment`, `equals`, `not`, `notEquals`, `fatArrow` | `= == ! != =>` |
| comparisons | `< <= > >=` |
| `or`, `and` | `\|\| &&` |
| separators | `; : ,` |
| arithmetic | `+ - / * %` |
| keywords | `fn let if else match interface implementation enum extern` |
-/

namespace Verve

/-- A stretch of source text, by byte offsets: `start` is the first byte, `stop` is one past
the last. -/
structure Span where
  start : Nat
  stop : Nat
  deriving DecidableEq, Inhabited

/-- The position a span keeps for a byte offset. Positions are 32-bit, so from `2^32` on an
offset wraps round to `0`. -/
def Span.position (offset : Nat) : Nat := offset % 4294967296

theorem Span.position_of_lt {offset : Nat} (h : offset < 4294967296) :
    Span.position offset = offset :=
  Nat.mod_eq_of_lt h

/-- The span from byte offset `start` to byte offset `stop`, each kept as a position. -/
def Span.ofOffsets (start stop : Nat) : Span := ⟨Span.position start, Span.position stop⟩

/-- The kinds of tokens. -/
inductive TokenKind where
  | eof
  | number
  | string
  | identifier
  | openBracket
  | closeBracket
  | openCurly
  | closeCurly
  | openParen
  | closeParen
  | assignment
  | equals
  | not
  | notEquals
  | fatArrow
  | less
  | lessEquals
  | greater
  | greaterEquals
  | or
  | and
  | semicolon
  | colon
  | comma
  | plus
  | dash
  | slash
  | star
  | percent
  | kwFn
  | kwLet
  | kwIf
  | kwElse
  | kwMatch
  | kwInterface
  | kwImplementation
  | kwEnum
  | kwExtern
  deriving DecidableEq, Inhabited

namespace TokenKind

/-- The name of a kind, as tools that list tokens print it. -/
def name : TokenKind → String
  | .eof => "EOF"
  | .number => "Number"
  | .string => "String"
  | .identifier => "Identifier"
  | .openBracket => "OpenBracket"
  | .closeBracket => "CloseBracket"
  | .openCurly => "OpenCurly"
  | .closeCurly => "CloseCurly"
  | .openParen => "OpenParen"
  | .closeParen => "CloseParen"
  | .assignment => "Assignment"
  | .equals => "Equals"
  | .not => "Not"
  | .notEquals => "NotEquals"
  | .fatArrow => "FatArrow"
  | .less => "Less"
  | .lessEquals => "LessEquals"
  | .greater => "Greater"
  | .greaterEquals => "GreaterEquals"
  | .or => "Or"
  | .and => "And"
  | .semicolon => "Semicolon"
  | .colon => "Colon"
  | .comma => "Comma"
  | .plus => "Plus"
  | .dash => "Dash"
  | .slash => "Slash"
  | .star => "Star"
  | .percent => "Percent"
  | .kwFn => "Fn"
  | .kwLet => "Let"
  | .kwIf => "If"
  | .kwElse => "Else"
  | .kwMatch => "Match"
  | .kwInterface => "Interface"
  | .kwImplementation => "Implementation"
  | .kwEnum => "Enum"
  | .kwExtern => "Extern"

/-- The keyword that a word spells, if it spells one. -/
def keyword? : String → Option TokenKind
  | "fn" => some .kwFn
  | "let" => some .kwLet
  | "if" => some .kwIf
  | "else" => some .kwElse
  | "match" => some .kwMatch
  | "interface" => some .kwInterface
  | "implementation" => some .kwImplementation
  | "enum" => some .kwEnum
  | "extern" => some .kwExtern
  | _ => none

end TokenKind

/-- A token: its kind, its value (the text read, or for a string literal the text it
denotes) and its span. -/
structure Token where
  kind : TokenKind
  value : String
  span : Span
  deriving Inhabited

namespace Token

/-- A name that starts with an ASCII capital letter: it names a constructor. -/
def isCapitalised (t : Token) : Bool :=
  t.kind == .identifier && match t.value.toList with
    | c :: _ => c.isUpper
    | [] => false

end Token

end Verve
