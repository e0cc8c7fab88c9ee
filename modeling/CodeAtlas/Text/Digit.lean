/-
  Decimal digits and numerals.

  A numeral is read in any decimal script: each script has ten consecutive
  digits, so the table lists only the zeros, and the value of a digit is its
  distance from the zero below it. Numerals are written with the plain digits
  `0` to `9`.
-/

namespace CodeAtlas.Text

/-- The digit zero of every decimal script, in increasing order. -/
def zeros : List Nat :=
  [0x30, 0x660, 0x6f0, 0x7c0, 0x966, 0x9e6, 0xa66, 0xae6, 0xb66, 0xbe6, 0xc66, 0xce6, 0xd66, 0xde6,
   0xe50, 0xed0, 0xf20, 0x1040, 0x1090, 0x17e0, 0x1810, 0x1946, 0x19d0, 0x1a80, 0x1a90, 0x1b50,
   0x1bb0, 0x1c40, 0x1c50, 0xa620, 0xa8d0, 0xa900, 0xa9d0, 0xa9f0, 0xaa50, 0xabf0, 0xff10, 0x104a0,
   0x10d30, 0x11066, 0x110f0, 0x11136, 0x111d0, 0x112f0, 0x11450, 0x114d0, 0x11650, 0x116c0,
   0x11730, 0x118e0, 0x11950, 0x11c50, 0x11d50, 0x11da0, 0x16a60, 0x16ac0, 0x16b50, 0x1d7ce,
   0x1d7d8, 0x1d7e2, 0x1d7ec, 0x1d7f6, 0x1e140, 0x1e2f0, 0x1e950, 0x1fbf0]

/-- The value of a decimal digit. -/
def digit? (c : Char) : Option Nat :=
  (zeros.find? fun z => z ≤ c.toNat && c.toNat < z + 10).map fun z => c.toNat - z

/-- Whether a character is a decimal digit. -/
def isDigit (c : Char) : Bool := (digit? c).isSome

/-- The number that a run of digits denotes. -/
def numeralValue (cs : List Char) : Nat :=
  cs.foldl (fun n c => 10 * n + (digit? c).getD 0) 0

/-- A numeral: the number it denotes, and how many digits it has. -/
structure Numeral where
  value : Nat
  width : Nat
  deriving DecidableEq, Repr

/-- The most decimal digits that a number is read from. -/
def widthLimit : Nat := 4300

/-- Whether a numeral has too many digits to be read as a number. -/
def Numeral.isTooLong (n : Numeral) : Bool := widthLimit < n.width

/-- The numeral at the front of a text, and what follows the longest run of
digits. -/
def numeral? (cs : List Char) : Option (Numeral × List Char) :=
  match cs.takeWhile isDigit with
  | [] => none
  | ds => some (⟨numeralValue ds, ds.length⟩, cs.dropWhile isDigit)

end CodeAtlas.Text
