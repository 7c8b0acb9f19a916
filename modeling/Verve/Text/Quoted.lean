import Verve.Text.CodePoint

/-!
# Quoted text

A string written between double quotes so that every character can be seen: a tab, a
carriage return, a line feed, a backslash, a double quote and NUL take the escapes
`\t \r \n \\ \" \0`; the characters that would not show or would join the one before them
(`writtenAsCodePoint`) take `\u{…}` with the code point in lowercase hexadecimal; every other
character stands as it is.
-/

namespace Verve
namespace Text

/-- The escaped form of one character inside double quotes. -/
def escapeChar (c : Char) : List Char :=
  match c with
  | '\t' => ['\\', 't']
  | '\r' => ['\\', 'r']
  | '\n' => ['\\', 'n']
  | '\\' => ['\\', '\\']
  | '"' => ['\\', '"']
  | '\x00' => ['\\', '0']
  | c =>
    if writtenAsCodePoint c then ['\\', 'u', '\x7b'] ++ Nat.toDigits 16 c.toNat ++ ['\x7d']
    else [c]

/-- A string between double quotes, escaped. -/
def quoted (s : String) : String :=
  String.ofList ('"' :: (s.toList.flatMap escapeChar) ++ ['"'])

example : quoted "a\"b\n" = "\"a\\\"b\\n\"" := by decide +kernel

end Text
end Verve
