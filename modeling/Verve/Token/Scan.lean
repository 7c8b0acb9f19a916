import Verve.Token.Basic
import Verve.Text.Blank
import Verve.Text.Lines
import Verve.Fault

/-!
# Scanning

`Token.scan` cuts a source text into tokens. At each place the first of these patterns that
matches is read, and the text it matches is consumed:

1. a name, `[a-zA-Z_][a-zA-Z0-9_]*`, which is a keyword token if it spells one;
2. a number, digits with at most one `.` followed by digits;
3. blanks (the White_Space characters), skipped;
4. a string literal: a quote, then characters other than a quote or a backslash, or a
   backslash and any character but a line break, then a quote;
5. a comment, `//` up to the line break, skipped;
6. punctuation, the two-character marks `=> == != <= >= || &&` before their one-character
   prefixes.

Nothing matching is a fault at that character. A string token's value is the text between
the quotes with the escapes `\n \t \r \0 \\ \"` replaced; any other backslash stays, and the
character after it is read as usual.

Every read consumes the character at hand, so the scan ends; it ends with the `eof` token.
Spans are byte offsets kept as 32-bit positions: past `2^32 - 1` bytes they wrap round to `0`.
-/

namespace Verve

theorem length_dropWhile_le (p : Char → Bool) (l : List Char) :
    (l.dropWhile p).length ≤ l.length := by
  induction l with
  | nil => simp
  | cons c l ih =>
    simp only [List.dropWhile_cons]
    split
    · simp only [List.length_cons]; omega
    · simp

namespace Token

/-- A character that may start a name. -/
def isNameStart (c : Char) : Bool := c.isAlpha || c == '_'

/-- A character that may continue a name. -/
def isNameChar (c : Char) : Bool := c.isAlphanum || c == '_'

/-- What the first matching pattern reads at an input `c :: rest`: the token kind and value
(none for skipped text), the characters after `c` that it takes, and the input after them. -/
structure Read (rest : List Char) where
  token : Option (TokenKind × String)
  taken : List Char
  after : List Char
  after_le : after.length ≤ rest.length

/-- The body of a string literal after its opening quote: the characters up to the closing
quote, and the input after that quote. None when the input ends first or a backslash stands
before a line break. -/
def stringBody : (cs : List Char) → Option (List Char × { r : List Char // r.length < cs.length })
  | [] => none
  | '"' :: r => some ([], ⟨r, by simp⟩)
  | '\\' :: d :: r =>
    if d = '\n' then none
    else (stringBody r).map fun (raw, ⟨a, h⟩) => ('\\' :: d :: raw, ⟨a, by simp; omega⟩)
  | d :: r => (stringBody r).map fun (raw, ⟨a, h⟩) => (d :: raw, ⟨a, by simp; omega⟩)

/-- The character that an escape `\d` stands for, if `d` makes one. -/
def escaped? : Char → Option Char
  | 'n' => some '\n'
  | 't' => some '\t'
  | 'r' => some '\r'
  | '0' => some '\x00'
  | '\\' => some '\\'
  | '"' => some '"'
  | _ => none

/-- The text that the body of a string literal denotes. -/
def unescape : List Char → List Char
  | [] => []
  | '\\' :: d :: r =>
    match escaped? d with
    | some e => e :: unescape r
    | none => '\\' :: unescape (d :: r)
  | c :: r => c :: unescape r

/-- Punctuation at `c :: rest`: a two-character mark when `rest` starts with its second
character, else a one-character mark. -/
def punct (c : Char) (rest : List Char) : Option (Read rest) :=
  let one (k : TokenKind) : Option (Read rest) :=
    some ⟨some (k, String.singleton c), [], rest, Nat.le_refl _⟩
  let two (k : TokenKind) (d : Char) : Option (Read rest) :=
    some ⟨some (k, String.ofList [c, d]), [d], rest.tail, by simp⟩
  let next := rest.head?
  match c with
  | '[' => one .openBracket
  | ']' => one .closeBracket
  | '{' => one .openCurly
  | '}' => one .closeCurly
  | '(' => one .openParen
  | ')' => one .closeParen
  | '=' =>
    if next = some '>' then two .fatArrow '>'
    else if next = some '=' then two .equals '='
    else one .assignment
  | '!' => if next = some '=' then two .notEquals '=' else one .not
  | '<' => if next = some '=' then two .lessEquals '=' else one .less
  | '>' => if next = some '=' then two .greaterEquals '=' else one .greater
  | '|' => if next = some '|' then two .or '|' else none
  | '&' => if next = some '&' then two .and '&' else none
  | ';' => one .semicolon
  | ':' => one .colon
  | ',' => one .comma
  | '+' => one .plus
  | '-' => one .dash
  | '/' => one .slash
  | '*' => one .star
  | '%' => one .percent
  | _ => none

/-- A number at `c :: rest`, where `c` is a digit: more digits, then a fraction if a point is
followed by a digit. -/
def number (c : Char) (rest : List Char) : Read rest :=
  let whole := rest.takeWhile Char.isDigit
  match h : rest.dropWhile Char.isDigit with
  | '.' :: d :: r =>
    if d.isDigit then
      let frac := (d :: r).takeWhile Char.isDigit
      let taken := whole ++ '.' :: frac
      ⟨some (.number, String.ofList (c :: taken)), taken, (d :: r).dropWhile Char.isDigit, by
        have h1 := length_dropWhile_le Char.isDigit (d :: r)
        have h2 := length_dropWhile_le Char.isDigit rest
        rw [h] at h2
        simp only [List.length_cons] at h1 h2
        omega⟩
    else
      ⟨some (.number, String.ofList (c :: whole)), whole, '.' :: d :: r, by
        have h2 := length_dropWhile_le Char.isDigit rest
        rwa [h] at h2⟩
  | r =>
    ⟨some (.number, String.ofList (c :: whole)), whole, r, by
      have h2 := length_dropWhile_le Char.isDigit rest
      rwa [h] at h2⟩

/-- The first pattern that matches at `c :: rest`, if any. -/
def read (c : Char) (rest : List Char) : Option (Read rest) :=
  if isNameStart c then
    let tail := rest.takeWhile isNameChar
    let word := String.ofList (c :: tail)
    let kind := (TokenKind.keyword? word).getD .identifier
    some ⟨some (kind, word), tail, rest.dropWhile isNameChar, length_dropWhile_le _ _⟩
  else if c.isDigit then
    some (number c rest)
  else if Text.isBlank c then
    some ⟨none, rest.takeWhile Text.isBlank, rest.dropWhile Text.isBlank,
      length_dropWhile_le _ _⟩
  else if c = '"' then
    -- no later pattern starts with a quote
    match stringBody rest with
    | some (raw, ⟨after, h⟩) =>
      some ⟨some (.string, String.ofList (unescape raw)), raw ++ ['"'], after, Nat.le_of_lt h⟩
    | none => none
  else if c = '/' ∧ rest.head? = some '/' then
    some ⟨none, rest.takeWhile (· != '\n'), rest.dropWhile (· != '\n'), length_dropWhile_le _ _⟩
  else
    punct c rest

/-- Scans from byte offset `pos`, after the tokens `acc`. Spans and the place of a fault keep
offsets as positions (`Span.position`). -/
def scanFrom (pos : Nat) (acc : Array Token) : List Char → Except Located (Array Token)
  | [] => .ok (acc.push ⟨.eof, "EOF", Span.ofOffsets pos pos⟩)
  | c :: rest =>
    match read c rest with
    | none => .error ⟨.unrecognisedToken (String.singleton c), Span.position pos⟩
    | some rd =>
      let stop := pos + c.utf8Size + Text.byteLength rd.taken
      let acc := match rd.token with
        | some (k, v) => acc.push ⟨k, v, Span.ofOffsets pos stop⟩
        | none => acc
      scanFrom stop acc rd.after
termination_by cs => cs.length
decreasing_by
  have := rd.after_le
  simp only [List.length_cons]
  omega

/-- The tokens of a source text, ending with `eof`, or the fault at the first character that
starts no token. -/
def scan (source : String) : Except Located (Array Token) :=
  scanFrom 0 #[] source.toList

end Token

end Verve
