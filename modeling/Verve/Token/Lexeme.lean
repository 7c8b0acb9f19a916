import Verve.Token.Scan

/-!
# What the patterns of a scan match

The patterns of `Token.scan`, read as sets of texts (`Token.Lexeme`), with the token each
text makes: a name (a keyword when it spells one), a number, a blank run, a string literal,
a comment or a punctuation mark. A pattern never matches the empty text, and no text is
matched by two patterns, since the first character decides which pattern can match.

Maximal munch is stated against these sets and not against the scanner's own steps:

* `Token.Maximal w input`: no text at the front of `input` that a pattern matches is longer
  than `w`;
* `Token.Munch pos cs toks`: `toks` are the tokens of `cs` read from byte `pos` by taking,
  at each place, a longest text that a pattern matches, skipping it when it is a blank run
  or a comment, and ending with the end mark;
* `Token.Stuck pos cs p c`: reading `cs` so reaches byte `p`, where no text that a pattern
  matches starts, and `c` is the character there.

`Token.Spans cs start stop w` says that `w` is the text of `cs` between two byte offsets. The
scan records the offsets of a token as positions (`Token.atPositions`), which are the offsets
themselves below `2^32`.
-/

namespace Verve

/-- Whether a kind is that of one of the nine keywords. -/
def TokenKind.isKeyword : TokenKind → Bool
  | .kwFn | .kwLet | .kwIf | .kwElse | .kwMatch | .kwInterface | .kwImplementation
  | .kwEnum | .kwExtern => true
  | _ => false

namespace Token

/-- The punctuation marks with the kinds of token they make: two-character marks before the
one-character marks they start with, as the scanner tries them. -/
def marks : List (TokenKind × String) :=
  [(.openBracket, "["), (.closeBracket, "]"), (.openCurly, "\x7b"), (.closeCurly, "\x7d"),
    (.openParen, "("), (.closeParen, ")"), (.fatArrow, "=>"), (.equals, "=="),
    (.notEquals, "!="), (.not, "!"), (.assignment, "="), (.lessEquals, "<="), (.less, "<"),
    (.greaterEquals, ">="), (.greater, ">"), (.or, "||"), (.and, "&&"), (.semicolon, ";"),
    (.colon, ":"), (.comma, ","), (.plus, "+"), (.dash, "-"), (.slash, "/"), (.star, "*"),
    (.percent, "%")]

/-- The body of a string literal between its quotes: characters other than a quote or a
backslash, and escapes, a backslash followed by any character but a line break. -/
inductive StringBody : List Char → Prop
  | nil : StringBody []
  | plain {c : Char} {b : List Char} : c ≠ '"' → c ≠ '\\' → StringBody b → StringBody (c :: b)
  | escape {d : Char} {b : List Char} : d ≠ '\n' → StringBody b → StringBody ('\\' :: d :: b)

/-- The kind of token a name makes: the keyword it spells, or an identifier. -/
def wordKind (w : String) : TokenKind := (TokenKind.keyword? w).getD .identifier

/-- The texts that the patterns of a scan match, each with the token it makes: its kind and
value, or none for the blank runs and comments that are skipped. -/
inductive Lexeme : List Char → Option (TokenKind × String) → Prop
  | name {c : Char} {cs : List Char} : isNameStart c = true → (∀ d ∈ cs, isNameChar d = true) →
      Lexeme (c :: cs) (some (wordKind (String.ofList (c :: cs)), String.ofList (c :: cs)))
  | whole {ds : List Char} : ds ≠ [] → (∀ d ∈ ds, d.isDigit = true) →
      Lexeme ds (some (.number, String.ofList ds))
  | fraction {ds fs : List Char} : ds ≠ [] → fs ≠ [] → (∀ d ∈ ds, d.isDigit = true) →
      (∀ d ∈ fs, d.isDigit = true) →
      Lexeme (ds ++ '.' :: fs) (some (.number, String.ofList (ds ++ '.' :: fs)))
  | blank {bs : List Char} : bs ≠ [] → (∀ b ∈ bs, Text.isBlank b = true) → Lexeme bs none
  | string {body : List Char} : StringBody body →
      Lexeme ('"' :: body ++ ['"']) (some (.string, String.ofList (unescape body)))
  | comment {cs : List Char} : '\n' ∉ cs → Lexeme ('/' :: '/' :: cs) none
  | mark {k : TokenKind} {m : String} : (k, m) ∈ marks → Lexeme m.toList (some (k, m))

/-- No text at the front of `input` that a pattern matches is longer than `w`. -/
def Maximal (w input : List Char) : Prop :=
  ∀ w' o, w' <+: input → Lexeme w' o → w'.length ≤ w.length

/-- The tokens of a text read by maximal munch from byte `pos`: at each place a longest text
that a pattern matches is read and skipped, when it is a blank run or a comment, or made a
token that spans its bytes; after the last one comes the end mark, an empty span at the end. -/
inductive Munch : Nat → List Char → List Token → Prop
  | eof {pos : Nat} : Munch pos [] [⟨.eof, "EOF", ⟨pos, pos⟩⟩]
  | skip {pos : Nat} {w rest : List Char} {ts : List Token} :
      Lexeme w none → Maximal w (w ++ rest) → Munch (pos + Text.byteLength w) rest ts →
      Munch pos (w ++ rest) ts
  | token {pos : Nat} {w rest : List Char} {k : TokenKind} {v : String} {ts : List Token} :
      Lexeme w (some (k, v)) → Maximal w (w ++ rest) →
      Munch (pos + Text.byteLength w) rest ts →
      Munch pos (w ++ rest) (⟨k, v, ⟨pos, pos + Text.byteLength w⟩⟩ :: ts)

/-- A token of maximal munch as the scan records it: its span's byte offsets kept as
positions, which wrap round past `2^32 - 1`. -/
def atPositions (t : Token) : Token := ⟨t.kind, t.value, Span.ofOffsets t.span.start t.span.stop⟩

@[simp] theorem kind_atPositions (t : Token) : t.atPositions.kind = t.kind := rfl

@[simp] theorem value_atPositions (t : Token) : t.atPositions.value = t.value := rfl

/-- A token whose offsets are below `2^32` is recorded as it is. -/
theorem atPositions_of_lt {t : Token} (h₁ : t.span.start < 4294967296)
    (h₂ : t.span.stop < 4294967296) : t.atPositions = t := by
  obtain ⟨k, v, start, stop⟩ := t
  simp only [atPositions, Span.ofOffsets, Span.position_of_lt h₁, Span.position_of_lt h₂]

/-- Reading a text by maximal munch from byte `pos` reaches byte `p`, where the character `c`
starts no text that a pattern matches. -/
inductive Stuck : Nat → List Char → Nat → Char → Prop
  | here {pos : Nat} {c : Char} {rest : List Char} :
      (∀ w o, w <+: c :: rest → ¬ Lexeme w o) → Stuck pos (c :: rest) pos c
  | next {pos p : Nat} {w rest : List Char} {o : Option (TokenKind × String)} {c : Char} :
      Lexeme w o → Maximal w (w ++ rest) → Stuck (pos + Text.byteLength w) rest p c →
      Stuck pos (w ++ rest) p c

/-- `w` is the text of `cs` from byte `start` to byte `stop`. -/
def Spans (cs : List Char) (start stop : Nat) (w : List Char) : Prop :=
  ∃ pre post, cs = pre ++ w ++ post ∧ Text.byteLength pre = start ∧
    start + Text.byteLength w = stop

end Token
end Verve
