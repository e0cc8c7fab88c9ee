import CodeAtlas.Settings.Json
import CodeAtlas.Text.Blank
/-
  Numbers, days and times in TOML.

  Digits of any decimal script count as digits. A whole number is plain, or has
  a base given by the letter behind a zero in front. A number with a fraction or
  an exponent is written as usual. Days and times stand at fixed places, and
  only whether they exist is checked.
-/

namespace CodeAtlas.Toml

open CodeAtlas.Text

/-- A digit of any script as a plain one. -/
def plainDigit (c : Char) : Char :=
  match digit? c with
  | some d => Nat.digitChar d
  | none => c

/-- A numeral without blanks around it, in plain digits. -/
def plainNumeral (cs : List Char) : List Char := (trim cs).map plainDigit

/-- A numeral without its underscores; each must stand between two digits. -/
def dropUnderscores? : (afterDigit : Bool) → List Char → Option (List Char)
  | _, [] => some []
  | afterDigit, '_' :: rest =>
    match rest with
    | d :: _ => if afterDigit && d.isDigit then dropUnderscores? false rest else none
    | [] => none
  | _, c :: rest => (dropUnderscores? c.isDigit rest).map (c :: ·)

/-- The whole number that plain digits denote in a base. -/
def digitsIn? (base : Nat) (ds : List Char) : Option Nat :=
  if ds = [] then none
  else
    ds.foldlM (fun n c => (Json.hexDigit? c).bind fun d =>
      if d < base then some (base * n + d) else none) 0

/-- A whole number in decimal notation. -/
def decimalInt? (cs : List Char) : Option Int := do
  let (negative, ds) := Json.sign (plainNumeral cs)
  let ds ← dropUnderscores? false ds
  guard (ds.length ≤ widthLimit)
  return Json.signed negative (← digitsIn? 10 ds)

/-- A whole number, whose base may be given in front; without one it does not
begin with a zero. -/
def wholeNumber? (cs : List Char) : Option Int := do
  let (negative, ds) := Json.sign (plainNumeral cs)
  let n ←
    match ds with
    | '0' :: 'x' :: rest | '0' :: 'X' :: rest => digitsIn? 16 rest
    | '0' :: 'o' :: rest | '0' :: 'O' :: rest => digitsIn? 8 rest
    | '0' :: 'b' :: rest | '0' :: 'B' :: rest => digitsIn? 2 rest
    | '0' :: rest => if rest.all (· = '0') then some 0 else none
    | _ => if ds.length ≤ widthLimit then digitsIn? 10 ds else none
  return Json.signed negative n

/-- The words for numbers that are not finite, in small letters. -/
def nonFinite? (negative : Bool) (cs : List Char) : Option Value :=
  let word := String.ofList (cs.map Char.toLower)
  if word = "nan" then some (.nonFinite "NaN")
  else if word = "inf" ∨ word = "infinity" then
    some (.nonFinite (if negative then "-Infinity" else "Infinity"))
  else none

/-- A number that may have a point and an exponent, without its sign. -/
def pointNumber? (negative : Bool) (cs : List Char) : Option Value := do
  let whole := cs.takeWhile Char.isDigit
  let (places, rest) :=
    match cs.dropWhile Char.isDigit with
    | '.' :: rest => (rest.takeWhile Char.isDigit, rest.dropWhile Char.isDigit)
    | rest => ([], rest)
  guard (whole ≠ [] ∨ places ≠ [])
  let (exp, rest) := Json.exponent rest
  guard (rest = [])
  return .decimal (Json.signed negative (Json.digitsValue (whole ++ places)))
    (exp.getD 0 - (places.length : Int))

/-- A number in any decimal notation. -/
def number? (cs : List Char) : Option Value := do
  let cs ← dropUnderscores? false (plainNumeral cs)
  let (negative, rest) := Json.sign cs
  (nonFinite? negative rest).or (pointNumber? negative rest)

/-- Whether a text is written as a number strictly has to be: no underscore at
an end, beside a point or beside another, and no zero in front of other
digits. -/
def isStrict (cs : List Char) : Bool :=
  let n := trim cs
  let unsigned := n.drop 1
  match n with
  | [] => false
  | first :: rest =>
    if first = '_' || n.getLast? = some '_' then false
    else if holds ['_', '.'] n || holds ['.', '_'] n then false
    else
      match rest with
      | [] => true
      | second :: _ =>
        if first = '0' then ['.', 'o', 'b', 'x'].contains second && !holds ['_', '_'] n
        else if first = '+' || first = '-' then
          (match unsigned with
            | '0' :: c :: _ => c = '.'
            | _ => true) && !holds ['_', '_'] unsigned
        else !holds ['_', '_'] n

/-! ## Days and times -/

/-- The number of days of a month. -/
def monthDays (year month : Int) : Int :=
  if month = 2 then if year % 4 = 0 ∧ (year % 100 ≠ 0 ∨ year % 400 = 0) then 29 else 28
  else if [4, 6, 9, 11].contains month then 30
  else 31

/-- Whether there is such a day. -/
def isDay (year month day : Int) : Bool :=
  1 ≤ year && year ≤ 9999 && 1 ≤ month && month ≤ 12 && 1 ≤ day && day ≤ monthDays year month

/-- Whether there is such a time of day. -/
def isTime (hour minute second : Int) : Bool :=
  0 ≤ hour && hour < 24 && 0 ≤ minute && minute < 60 && 0 ≤ second && second < 60

/-- The number that stands at some places of a text. -/
def numberAt? (cs : List Char) (start stop : Nat) : Option Int :=
  decimalInt? ((cs.drop start).take (stop - start))

/-- Whether a text is a day, or a day and a time: the parts stand at fixed
places, and a hyphen stands somewhere behind the first character. -/
def isMoment (cs : List Char) : Bool :=
  (cs.drop 1).contains '-' &&
    (do
      let day := isDay (← numberAt? cs 0 4) (← numberAt? cs 5 7) (← numberAt? cs 8 10)
      if cs.length = 10 then return day
      else
        return day && isTime (← numberAt? cs 11 13) (← numberAt? cs 14 16)
          (← numberAt? cs 17 19)).getD false

/-- Whether a text begins as a time of day does, with three pairs of plain
digits. -/
def beginsTime (cs : List Char) : Bool :=
  match cs with
  | a :: b :: ':' :: c :: d :: ':' :: e :: f :: _ => [a, b, c, d, e, f].all Char.isDigit
  | _ => false

/-- The time of day with which a text begins. -/
def time? (cs : List Char) : Option Value := do
  let known := isTime (← numberAt? cs 0 2) (← numberAt? cs 3 5) (← numberAt? cs 6 8)
  guard known
  return .moment (String.ofList cs)

end CodeAtlas.Toml
