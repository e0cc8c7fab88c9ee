import CodeAtlas.Text.Printable
/-
  Texts quoted in messages.

  A quoted text stays on one line and shows what it holds: quotes and
  backslashes are escaped, and so is every character that has no picture of its
  own, by its code point with two, four or eight hexadecimal digits.
-/

namespace CodeAtlas.Text

/-- The last `width` hexadecimal digits of a number. -/
def hexDigits : (width : Nat) → Nat → List Char
  | 0, _ => []
  | width + 1, n => hexDigits width (n / 16) ++ [Nat.digitChar (n % 16)]

/-- The escape of a character by its code point. -/
def codeEscape (n : Nat) : List Char :=
  if n < 0x100 then ['\\', 'x'] ++ hexDigits 2 n
  else if n < 0x10000 then ['\\', 'u'] ++ hexDigits 4 n
  else ['\\', 'U'] ++ hexDigits 8 n

/-- A character inside a text that is quoted with `quote`. -/
def quotedChar (quote c : Char) : List Char :=
  if c = quote ∨ c = '\\' then ['\\', c]
  else if c = '\n' then ['\\', 'n']
  else if c = '\r' then ['\\', 'r']
  else if c = '\t' then ['\\', 't']
  else if isPrintable c.toNat then [c]
  else codeEscape c.toNat

/-- A text between quotes: double ones when it holds single ones only. -/
def quotedText (s : String) : String :=
  let cs := s.toList
  let quote : Char := if cs.contains '\'' && !cs.contains '"' then '"' else '\''
  String.ofList (quote :: cs.flatMap (quotedChar quote) ++ [quote])

end CodeAtlas.Text
