/-
  Lines of a text.

  `lines` ends a line at any of the line break characters, takes a carriage
  return followed by a line feed as one break, and gives no empty line after a
  final break. `newlines` is the other rule in use: it only spells every
  carriage return, alone or before a line feed, as a line feed, which is how
  the text of a file is taken in.
-/

namespace CodeAtlas.Text

/-- Whether a character ends a line. -/
def isLineBreak (c : Char) : Bool :=
  let n := c.toNat
  (0x0a ≤ n && n ≤ 0x0d) || (0x1c ≤ n && n ≤ 0x1e) || n == 0x85 || n == 0x2028 || n == 0x2029

/-- `c` put in front of the first line. -/
def extendFirst (c : Char) : List (List Char) → List (List Char)
  | [] => [[c]]
  | l :: ls => (c :: l) :: ls

/-- The lines of a text, without their breaks. -/
def lines : List Char → List (List Char)
  | [] => []
  | '\r' :: '\n' :: rest => [] :: lines rest
  | c :: rest => if isLineBreak c then [] :: lines rest else extendFirst c (lines rest)

/-- The text with every carriage return, alone or before a line feed, spelled
as a line feed. -/
def newlines : List Char → List Char
  | [] => []
  | '\r' :: '\n' :: rest => '\n' :: newlines rest
  | '\r' :: rest => '\n' :: newlines rest
  | c :: rest => c :: newlines rest

/-- The part of a text before the first `c`, and what follows it; the rest is
empty when there is no `c`. -/
def cutAt (c : Char) (cs : List Char) : List Char × List Char :=
  (cs.takeWhile (· ≠ c), (cs.dropWhile (· ≠ c)).drop 1)

end CodeAtlas.Text
