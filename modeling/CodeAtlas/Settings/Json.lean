import CodeAtlas.Settings.Value
import CodeAtlas.Text.Digit
import CodeAtlas.Text.Find
/-
  Reading JSON.

  The reader is strict: no comments, no commas at the end, no bare control
  characters in strings, nothing after the value. It also takes the words
  `NaN`, `Infinity` and `-Infinity` for numbers. Of a repeated key the last
  value counts, at the place of the first.

  A value is read with a bound on its size, which the length of the text
  supplies, and with a limit on how deep containers may go. The first problem in
  reading order is the one that is told.
-/

namespace CodeAtlas.Json

open CodeAtlas.Text

/-- Whether a character may stand between tokens. -/
def isSpace (c : Char) : Bool := c = ' ' || c = '\t' || c = '\n' || c = '\r'

/-- The text from the next token on. -/
def skip (cs : List Char) : List Char := cs.dropWhile isSpace

/-! ## Strings -/

/-- The value of a hexadecimal digit. -/
def hexDigit? (c : Char) : Option Nat :=
  if '0' ≤ c ∧ c ≤ '9' then some (c.toNat - '0'.toNat)
  else if 'a' ≤ c ∧ c ≤ 'f' then some (c.toNat - 'a'.toNat + 10)
  else if 'A' ≤ c ∧ c ≤ 'F' then some (c.toNat - 'A'.toNat + 10)
  else none

/-- The number that four hexadecimal digits denote. -/
def hexValue? (digits : List Char) : Option Nat :=
  digits.foldlM (fun n c => (hexDigit? c).map fun d => 16 * n + d) 0

/-- What a backslash and one character stand for. -/
def escape? (c : Char) : Option Char :=
  match c with
  | '"' => some '"'
  | '\\' => some '\\'
  | '/' => some '/'
  | 'b' => some '\x08'
  | 'f' => some '\x0c'
  | 'n' => some '\n'
  | 'r' => some '\r'
  | 't' => some '\t'
  | _ => none

/-- The code units of a string up to its closing quote, after the units
`before`, last first, and what follows the quote. -/
def units? (before : List Nat) : List Char → Option (List Nat × List Char)
  | [] => none
  | '"' :: rest => some (before.reverse, rest)
  | '\\' :: 'u' :: a :: b :: c :: d :: rest =>
    match hexValue? [a, b, c, d] with
    | none => none
    | some n => units? (n :: before) rest
  | '\\' :: c :: rest =>
    match escape? c with
    | none => none
    | some e => units? (e.toNat :: before) rest
  | c :: rest => if c.toNat < 0x20 ∨ c = '\\' then none else units? (c.toNat :: before) rest

/-- Whether a code unit is the first half of a pair. -/
def isHigh (n : Nat) : Bool := 0xd800 ≤ n && n < 0xdc00

/-- Whether a code unit is the second half of a pair. -/
def isLow (n : Nat) : Bool := 0xdc00 ≤ n && n < 0xe000

/-- The code points of code units: two halves of a pair are one, and a half
that stands alone stays. -/
def join : List Nat → List Nat
  | [] => []
  | [n] => [n]
  | n :: m :: rest =>
    if isHigh n && isLow m then
      (0x10000 + (n - 0xd800) * 0x400 + (m - 0xdc00)) :: join rest
    else n :: join (m :: rest)

/-- The rest of a string after its opening quote. -/
def string (cs : List Char) : Except ReadError (Points × List Char) :=
  match units? [] cs with
  | none => .error .malformed
  | some (us, rest) => .ok (⟨join us⟩, rest)

/-! ## Numbers -/

/-- The number that plain digits denote. -/
def digitsValue (ds : List Char) : Nat := ds.foldl (fun n d => 10 * n + (d.toNat - '0'.toNat)) 0

/-- The digits before the point: a zero, or digits that do not begin with
one. -/
def wholePart? (cs : List Char) : Option (List Char × List Char) :=
  match cs with
  | '0' :: rest => some (['0'], rest)
  | _ =>
    match cs.takeWhile Char.isDigit with
    | [] => none
    | ds => some (ds, cs.dropWhile Char.isDigit)

/-- The digits after a point, if there is a point with digits after it. -/
def fraction (cs : List Char) : Option (List Char) × List Char :=
  match cs with
  | '.' :: rest =>
    match rest.takeWhile Char.isDigit with
    | [] => (none, cs)
    | ds => (some ds, rest.dropWhile Char.isDigit)
  | _ => (none, cs)

/-- A sign and what follows it. -/
def sign (cs : List Char) : Bool × List Char :=
  match cs with
  | '-' :: rest => (true, rest)
  | '+' :: rest => (false, rest)
  | _ => (false, cs)

/-- A number with its sign. -/
def signed (negative : Bool) (n : Nat) : Int := if negative then -(n : Int) else n

/-- The exponent, if there is a mark with digits after it. -/
def exponent (cs : List Char) : Option Int × List Char :=
  match cs with
  | c :: rest =>
    if c = 'e' ∨ c = 'E' then
      let (negative, after) := sign rest
      match after.takeWhile Char.isDigit with
      | [] => (none, cs)
      | ds => (some (signed negative (digitsValue ds)), after.dropWhile Char.isDigit)
    else (none, cs)
  | [] => (none, cs)

/-- A number. -/
def number (cs : List Char) : Except ReadError (Value × List Char) :=
  let (negative, rest) := match cs with
    | '-' :: rest => (true, rest)
    | _ => (false, cs)
  match wholePart? rest with
  | none => .error .malformed
  | some (whole, rest) =>
    let (frac, rest) := fraction rest
    let (exp, rest) := exponent rest
    match frac, exp with
    | none, none =>
      if widthLimit < whole.length then .error .longNumber
      else .ok (.int (signed negative (digitsValue whole)), rest)
    | _, _ =>
      let places := frac.getD []
      .ok (.decimal (signed negative (digitsValue (whole ++ places)))
        (exp.getD 0 - (places.length : Int)), rest)

/-! ## Values -/

/-- The words that stand for a value. -/
def words : List (String × Value) :=
  [("null", .null), ("true", .bool true), ("false", .bool false), ("NaN", .nonFinite "NaN"),
   ("Infinity", .nonFinite "Infinity"), ("-Infinity", .nonFinite "-Infinity")]

/-- A word or a number. -/
def scalar (cs : List Char) : Except ReadError (Value × List Char) :=
  match words.findSome? fun w => (dropPrefix? w.1.toList cs).map fun rest => (w.2, rest) with
  | some found => .ok found
  | none => number cs

/-- The fields of an object: of a repeated key the last value counts. -/
def fieldsOf (fields : List (Points × Value)) : Value := .object (Table.ofList fields).entries

/-- What follows a mark that has to stand here. -/
def after (mark : Char) (cs : List Char) : Except ReadError (List Char) :=
  match dropPrefix? [mark] cs with
  | some rest => .ok rest
  | none => .error .malformed

/-- The most containers that may lie within each other. -/
def depthLimit : Nat := 987

mutual

/-- A value at the front of a text, where containers may still go `depth`
levels down. -/
def value : Nat → Nat → List Char → Except ReadError (Value × List Char)
  | 0, _, _ => .error .malformed
  | _ + 1, _, '"' :: rest => do
    let (s, rest) ← string rest
    return (.string s, rest)
  | _ + 1, 0, '[' :: _ => .error .tooDeep
  | bound + 1, depth + 1, '[' :: rest =>
    match skip rest with
    | ']' :: rest => .ok (.array [], rest)
    | start => do
      let (items, rest) ← elements bound depth start
      return (.array items, rest)
  | _ + 1, 0, '\x7b' :: _ => .error .tooDeep
  | bound + 1, depth + 1, '\x7b' :: rest =>
    match skip rest with
    | '\x7d' :: rest => .ok (.object [], rest)
    | start => do
      let (fields, rest) ← members bound depth start
      return (fieldsOf fields, rest)
  | _ + 1, _, cs => scalar cs

/-- The items of an array, up to its closing bracket. -/
def elements : Nat → Nat → List Char → Except ReadError (List Value × List Char)
  | 0, _, _ => .error .malformed
  | bound + 1, depth, cs => do
    let (v, rest) ← value bound depth cs
    match skip rest with
    | ',' :: more =>
      let (vs, rest) ← elements bound depth (skip more)
      return (v :: vs, rest)
    | ']' :: rest => return ([v], rest)
    | _ => .error .malformed

/-- The fields of an object, up to its closing brace. -/
def members : Nat → Nat → List Char → Except ReadError (List (Points × Value) × List Char)
  | 0, _, _ => .error .malformed
  | bound + 1, depth, cs => do
    let rest ← after '"' cs
    let (key, rest) ← string rest
    let rest ← after ':' (skip rest)
    let (v, rest) ← value bound depth (skip rest)
    match skip rest with
    | ',' :: more =>
      let (fs, rest) ← members bound depth (skip more)
      return ((key, v) :: fs, rest)
    | '\x7d' :: rest => return ([(key, v)], rest)
    | _ => .error .malformed

end

/-- The value that a text holds. -/
def read (text : String) : Except ReadError Value := do
  let cs := text.toList
  let (v, rest) ← value (2 * cs.length + 2) depthLimit (skip cs)
  if skip rest = [] then return v else .error .malformed

end CodeAtlas.Json
