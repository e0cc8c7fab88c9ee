/-
  Blank characters and trimming.

  Every rule of the library that skips, trims or separates by white space uses
  the one class below. Texts are taken apart as lists of characters, so each
  function here is a one-line list function.
-/

namespace CodeAtlas.Text

/-- Whether a character is white space: the controls from tab to carriage
return, the four information separators, the next-line control, and every
space, line and paragraph separator. A zero-width space and a byte order mark
are not blank. -/
def isBlank (c : Char) : Bool :=
  let n := c.toNat
  (0x09 ≤ n && n ≤ 0x0d) || (0x1c ≤ n && n ≤ 0x20) || n == 0x85 || n == 0xa0 || n == 0x1680
    || (0x2000 ≤ n && n ≤ 0x200a) || n == 0x2028 || n == 0x2029 || n == 0x202f || n == 0x205f
    || n == 0x3000

/-- The text from its first character that is not blank. -/
def trimStart (cs : List Char) : List Char := cs.dropWhile isBlank

/-- The text up to its last character that is not blank. -/
def trimEnd (cs : List Char) : List Char := (cs.reverse.dropWhile isBlank).reverse

/-- The text without the blanks at its two ends. -/
def trim (cs : List Char) : List Char := trimEnd (trimStart cs)

/-- A string without the blanks at its two ends. -/
def trimmed (s : String) : String := String.ofList (trim s.toList)

/-- The first `n` characters of a string. -/
def first (n : Nat) (s : String) : String := String.ofList (s.toList.take n)

end CodeAtlas.Text
