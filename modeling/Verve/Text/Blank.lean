/-!
# Blank characters

The characters with the Unicode property White_Space. They separate tokens, and a report
trims them from the end of the line it quotes.

| code points | characters |
| --- | --- |
| U+0009 to U+000D | tab, line feed, line tabulation, form feed, carriage return |
| U+0020, U+0085, U+00A0 | space, next line, no-break space |
| U+1680 | ogham space mark |
| U+2000 to U+200A | en quad to hair space |
| U+2028, U+2029 | line and paragraph separators |
| U+202F, U+205F, U+3000 | narrow no-break, medium mathematical and ideographic spaces |

Main statement: `isBlank_of_isWhitespace`, every character that core calls whitespace is
blank.
-/

namespace Verve
namespace Text

/-- A character is blank when it has the Unicode property White_Space: 25 code points in
all, listed in the module header. -/
def isBlank (c : Char) : Bool :=
  let n := c.toNat
  (0x09 ≤ n && n ≤ 0x0D) || n == 0x20 || n == 0x85 || n == 0xA0 || n == 0x1680 ||
    (0x2000 ≤ n && n ≤ 0x200A) || n == 0x2028 || n == 0x2029 || n == 0x202F ||
    n == 0x205F || n == 0x3000

/-- Core's whitespace (space, tab, line feed, carriage return) is blank. -/
theorem isBlank_of_isWhitespace {c : Char} (h : c.isWhitespace = true) : isBlank c = true := by
  simp only [Char.isWhitespace, Bool.or_eq_true, decide_eq_true_eq] at h
  rcases h with ((h | h) | h) | h <;> subst h <;> decide

example : isBlank ' ' = true ∧ isBlank '　' = true ∧ isBlank '​' = false := by
  decide

/-- Drops blank characters from the end of a text. -/
def trimEnd (cs : List Char) : List Char :=
  (cs.reverse.dropWhile isBlank).reverse

end Text
end Verve
