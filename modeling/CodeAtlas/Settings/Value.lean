import CodeAtlas.Table
import CodeAtlas.Text.Points
/-
  Values of configuration files.

  Both file formats give the same values. Fields of an object keep the order
  in which they were first written. A number with a fraction or an exponent is
  kept as it was written, a mantissa and a power of ten. Texts are code points,
  since a file can name halves of surrogate pairs.
-/

namespace CodeAtlas

open CodeAtlas.Text

/-- A value of a configuration file. -/
inductive Value where
  | null
  | bool (b : Bool)
  | int (n : Int)
  /-- `mantissa` times ten to the power `exponent`. -/
  | decimal (mantissa : Int) (exponent : Int)
  /-- Infinite, or not a number at all. -/
  | nonFinite (name : String)
  /-- A day, a time of day, or both. -/
  | moment (text : String)
  | string (s : Points)
  | array (items : List Value)
  | object (fields : List (Points × Value))
  deriving Repr

/-- Why a text is no configuration. Only a text that is `malformed` is known to
break the rules of its format; the other reasons are limits of the reading. -/
inductive ReadError where
  | malformed
  /-- A number with too many digits. -/
  | longNumber
  /-- Containers within containers, too many of them. -/
  | tooDeep
  /-- A token that the reading looks for lies outside the text, or an item
  outside its list. -/
  | outOfRange
  /-- Something other than a table is used as one. -/
  | notTable
  /-- Something other than a list is used as one. -/
  | notList
  /-- A value is asked for that was never read. -/
  | noValue
  deriving DecidableEq, Repr

namespace Value

instance : Inhabited Value := ⟨null⟩

/-- A text as a value. -/
def text (s : String) : Value := string (Points.ofString s)

/-- The text of a value, if it is one made of characters. -/
def text? : Value → Option String
  | string s => s.toString?
  | _ => none

/-- The field of an object. -/
def get? (v : Value) (key : String) : Option Value :=
  match v with
  | object fields => (fields.find? fun f => f.1 = Points.ofString key).map Prod.snd
  | _ => none

/-- Whether a decimal is too small to be told from zero: it is at most half of
the least positive double. A decimal with more than 330 zeros after its point
certainly is. -/
def isTiny (mantissa exponent : Int) : Bool :=
  let m := mantissa.natAbs
  if exponent < 0 then
    exponent.natAbs > (Nat.toDigits 10 m).length + 330
      || m * Nat.pow 2 1075 ≤ Nat.pow 10 exponent.natAbs
  else m = 0

/-- Whether a value says something: not null, false, zero or empty. -/
def isSet : Value → Bool
  | null => false
  | bool b => b
  | int n => n ≠ 0
  | decimal m e => !isTiny m e
  | nonFinite _ => true
  | moment _ => true
  | string s => !s.codes.isEmpty
  | array items => !items.isEmpty
  | object fields => !fields.isEmpty

/-- Whether a value is a container, which cannot be told apart by its
content. -/
def isContainer : Value → Bool
  | array _ | object _ => true
  | _ => false

/-- The parts of a value: the items of an array, the code points of a string,
the keys of an object. -/
def items? : Value → Option (List Value)
  | array items => some items
  | string s => some (s.codes.map fun n => string ⟨[n]⟩)
  | object fields => some (fields.map fun f => string f.1)
  | _ => none

end Value

end CodeAtlas
