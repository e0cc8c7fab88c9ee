/-
  Classes of characters as bands of code points.

  A class is given by the code points at which membership changes, in
  increasing order: a code point belongs to it when an odd number of changes
  lie at or below it. A standard's table of a property is one such list.
-/

namespace CodeAtlas.Text

/-- Whether a code point lies in a class given by the code points at which
membership changes. -/
def inBands : List Nat → Nat → Bool
  | [], _ => false
  | first :: rest, n => if n < first then false else !inBands rest n

end CodeAtlas.Text
