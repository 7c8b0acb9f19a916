/-!
# Lines of a text

A text is cut after every line break; a last line without a break is a line too, and an
empty text has no lines. Positions are byte offsets into the UTF-8 encoding.

`Text.lineAt` finds the line that holds a byte position, with the position's offset inside
it. A position just past the end belongs to the last line, at that line's end; a position
further out belongs to no line.
-/

namespace Verve
namespace Text

/-- The number of bytes of the UTF-8 encoding of some characters. -/
def byteLength (cs : List Char) : Nat :=
  cs.foldr (fun c n => c.utf8Size + n) 0

@[simp] theorem byteLength_nil : byteLength [] = 0 := rfl

@[simp] theorem byteLength_cons (c : Char) (cs : List Char) :
    byteLength (c :: cs) = c.utf8Size + byteLength cs := rfl

/-- The lines of a text, each with the line break that ends it. `cur` holds the reversed
start of the line being read. -/
def linesFrom (cur : List Char) : List Char → List (List Char)
  | [] => if cur.isEmpty then [] else [cur.reverse]
  | c :: cs =>
    if c = '\n' then (c :: cur).reverse :: linesFrom [] cs else linesFrom (c :: cur) cs

/-- The lines of a text, each with the line break that ends it. -/
def lines (cs : List Char) : List (List Char) := linesFrom [] cs

/-- A line of a text: its number from 1, its characters with the break, and the byte offset
of a position inside it. -/
structure Line where
  number : Nat
  text : String
  offset : Nat
  deriving Inhabited

/-- Walks the lines from line `n`, which starts at byte `start`, to the one that holds byte
`pos`; the last line holds every position that the lines before it do not. -/
def findLine (pos : Nat) (n start : Nat) : List (List Char) → Line
  | [] => ⟨1, "", 0⟩
  | [l] =>
    let w := byteLength l
    if pos < start + w then ⟨n, String.ofList l, pos - start⟩ else ⟨n, String.ofList l, w⟩
  | l :: l' :: ls =>
    let w := byteLength l
    if start ≤ pos ∧ pos < start + w then ⟨n, String.ofList l, pos - start⟩
    else findLine pos (n + 1) (start + w) (l' :: ls)

/-- The line that holds byte position `pos` of `content`, or none past the end. -/
def lineAt (content : String) (pos : Nat) : Option Line :=
  if content.utf8ByteSize < pos then none
  else some (findLine pos 1 0 (lines content.toList))

end Text
end Verve
