/-
  Texts as code points.

  A configuration file can name one half of a surrogate pair by an escape. Such
  a half is no character, so a text that may hold one is a list of code points,
  and it is a string exactly when every code point is a character.
-/

namespace CodeAtlas.Text

/-- A text as its code points, halves of surrogate pairs included. -/
structure Points where
  codes : List Nat
  deriving DecidableEq, Repr

/-- The character of a code point, unless it is half of a pair or past the last
one. -/
def char? (n : Nat) : Option Char :=
  if n < 0xd800 ∨ (0xdfff < n ∧ n < 0x110000) then some (Char.ofNat n) else none

namespace Points

instance : Inhabited Points := ⟨⟨[]⟩⟩

/-- The code points of characters. -/
def ofChars (cs : List Char) : Points := ⟨cs.map Char.toNat⟩

/-- The code points of a string. -/
def ofString (s : String) : Points := ofChars s.toList

/-- The string with these code points, if each is a character. -/
def toString? (p : Points) : Option String := (p.codes.mapM char?).map String.ofList

/-- Whether a code point stands for a byte that was no text: such a half of a
pair can still be written to a file name, as that byte. -/
def isByte (n : Nat) : Bool := 0xdc80 ≤ n && n ≤ 0xdcff

/-- Whether the text can be written as bytes, as the name of a file has to
be. -/
def isWritable (p : Points) : Bool := p.codes.all fun n => (char? n).isSome || isByte n

end Points

theorem char?_toNat (c : Char) : char? c.toNat = some c := by
  have h := c.valid
  simp only [UInt32.isValidChar, Nat.isValidChar] at h
  have : c.toNat < 0xd800 ∨ (0xdfff < c.toNat ∧ c.toNat < 0x110000) := h
  rw [char?, if_pos this, Char.ofNat_toNat]

/-- A string is read back from its code points. -/
theorem Points.toString?_ofString (s : String) : (ofString s).toString? = some s := by
  have h (cs : List Char) : (cs.map Char.toNat).mapM char? = some cs := by
    induction cs with
    | nil => rfl
    | cons c cs ih => simp [List.mapM_cons, char?_toNat, ih]
  simp [ofString, ofChars, toString?, h]

end CodeAtlas.Text
