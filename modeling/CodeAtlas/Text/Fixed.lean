/-
  Numbers with two places.
-/

namespace CodeAtlas.Text

/-- The whole number nearest to a quotient; a half goes to the even
neighbour. -/
def roundDiv (num den : Nat) : Nat :=
  let q := num / den
  let r := num % den
  if 2 * r < den then q
  else if 2 * r > den then q + 1
  else q + q % 2

/-- A quotient with two places after the point. -/
def twoPlaces (num den : Nat) : String :=
  let n := roundDiv (num * 100) den
  let cents := n % 100
  toString (n / 100) ++ "." ++ (if cents < 10 then "0" else "") ++ toString cents

end CodeAtlas.Text
