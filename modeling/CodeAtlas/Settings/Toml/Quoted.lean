import CodeAtlas.Settings.Json
import CodeAtlas.Settings.Toml.Layout
/-
  Quoted text in TOML.

  `quoteSplit` takes a line apart at its quotes. `unescape` puts the escapes of
  one character in place, `unicodeEscapes` those of a code point, and
  `quotedValue` reads a whole string value: between double quotes escapes are
  read, between single quotes nothing is.
-/

namespace CodeAtlas.Toml

open CodeAtlas.Text

/-! ## Lines taken apart at quotes -/

/-- Parts of a text between single quotes that are to be completed: while the
last part lies inside quotes, the next piece between double quotes belongs to
it. Gives the parts and the pieces that are left over. -/
def completeSingles :
    List (List Char) → List (List Char) → List (List Char) × List (List Char)
  | singles, [] => (singles, [])
  | singles, piece :: rest =>
    if singles.length % 2 = 0 then
      let last := singles.getLast?.getD [] ++ '"' :: piece
      completeSingles (singles.dropLast ++ last.splitOn '\'') rest
    else (singles, piece :: rest)

/-- The parts of a line between its quotes, plain and quoted by turns. Where
single quotes come first, double quotes inside them do not count; of the rest
only the piece before the next double quote is searched for single quotes. -/
def quoteSplit (line : List Char) : List (List Char) :=
  let doubles := line.splitOn '"'
  let (front, rest) :=
    match doubles with
    | first :: second :: more =>
      if first.contains '\'' then completeSingles (first.splitOn '\'') (second :: more)
      else ([], doubles)
    | _ => ([], doubles)
  match rest with
  | [] => front
  | piece :: more => front ++ piece.splitOn '\'' ++ more

/-- How many times `word` stands in the parts of a line before the first plain
part that holds it. -/
def countBefore (word : List Char) (quoted : Bool) : List (List Char) → Nat
  | [] => 0
  | part :: rest =>
    if !quoted && holds word part then 0
    else occurrences word part + countBefore word (!quoted) rest

/-- Cuts a line at the first place where `word` stands outside quotes: the
pieces between all the places up to that one, and what follows it. -/
def cutOutside (word line : List Char) : List (List Char) :=
  piecesUpTo word (1 + countBefore word false (quoteSplit line)) line

/-! ## Escapes -/

/-- The code point of the backslash. -/
def backslash : Nat := '\\'.toNat

/-- What a backslash and one more code point stand for. -/
def escape? (n : Nat) : Option Nat :=
  match Char.ofNat n with
  | '0' => some 0
  | 'b' => some 8
  | 'f' => some 12
  | 'n' => some 10
  | 'r' => some 13
  | 't' => some 9
  | '"' => some 34
  | _ => none

/-- Whether a code point begins the escape of a code point. -/
def beginsUnicode (n : Nat) : Bool := n = 'u'.toNat || n = 'U'.toNat

/-- The text with its escapes of one character put in place. An escape of a code
point stays as it is. -/
def unescape : List Nat → Except ReadError (List Nat)
  | [] => .ok []
  | n :: rest =>
    if n ≠ backslash then (unescape rest).map (n :: ·)
    else
      match rest with
      | [] => .ok [n]
      | m :: more =>
        match escape? m with
        | some e => (unescape more).map (e :: ·)
        | none =>
          if m = backslash then (unescape more).map (m :: ·)
          else if beginsUnicode m then (unescape more).map fun tail => n :: m :: tail
          else .error .malformed

/-- How many backslashes end a text. -/
def endingBackslashes (codes : List Nat) : Nat := (codes.reverse.takeWhile (· = backslash)).length

/-- The value of a hexadecimal digit given by its code point. -/
def hexCode? (n : Nat) : Option Nat := (char? n).bind Json.hexDigit?

/-- Reads the code point at the front of what follows `\u` or `\U`. A code point
with fewer digits than `width` is read only where nothing follows them. -/
def unicodeEscape (width : Nat) (after : List Nat) : Except ReadError (List Nat) :=
  match (after.take width).mapM hexCode? with
  | none => .error .malformed
  | some [] => .error .outOfRange
  | some [13] => .error .outOfRange
  | some (first :: second :: more) =>
    if first = 13 ∧ 8 ≤ second then .error .malformed
    else
      let value := (first :: second :: more).foldl (fun n d => 16 * n + d) 0
      if 0x110000 ≤ value then .error .malformed else .ok (value :: after.drop width)
  | some [value] => .ok (value :: after.drop width)

/-- Puts the escapes of code points in place, where `mark` begins an escape and
the pieces stand between the marks. A mark behind an odd number of backslashes
is none (`isText`). -/
def placeUnicode (mark : List Nat) (width : Nat) :
    (isText : Bool) → List (List Nat) → Except ReadError (List Nat)
  | _, [] => .ok []
  | true, piece :: rest => do
    let tail ← placeUnicode mark width (endingBackslashes piece % 2 = 1) rest
    return mark ++ piece ++ tail
  | false, piece :: rest => do
    let front ← unicodeEscape width piece
    let tail ← placeUnicode mark width false rest
    return front ++ tail

/-- The text with the escapes of code points that begin with `letter` put in
place. -/
def unicodeEscapes (letter : Char) (width : Nat) (codes : List Nat) :
    Except ReadError (List Nat) :=
  let mark := [backslash, letter.toNat]
  match pieces mark codes with
  | [] => .ok codes
  | front :: rest => do
    let tail ← placeUnicode mark width (endingBackslashes front % 2 = 1) rest
    return front ++ tail

/-- Whether every backslash begins an escape: the pieces stand between the
backslashes, and `doubled` says that the one before the piece is itself
escaped. -/
def escapesAreKnown (doubled : Bool) : List (List Nat) → Bool
  | [] => true
  | [] :: rest => escapesAreKnown (!doubled) rest
  | (n :: _) :: rest =>
    ((escape? n).isSome || beginsUnicode n || doubled) && escapesAreKnown false rest

/-! ## String values -/

/-- How far the quotes of a string value have been followed. -/
structure Closing where
  /-- Quotes in a row, of a long string. -/
  run : Nat := 0
  closed : Bool := false

/-- Takes in the next piece between quotes; nothing but a quote behind a
backslash may follow the closing one. -/
def Closing.step (long : Bool) (s : Closing) (piece : List Nat) : Except ReadError Closing :=
  if piece = [] then .ok (if long then { s with run := s.run + 1 } else { s with closed := true })
  else if endingBackslashes piece % 2 = 1 then .ok s
  else if s.closed then .error .malformed
  else if !long || 1 < s.run then .ok { s with closed := true }
  else .ok { s with run := 0 }

/-- Checks that nothing stands behind the end of a string value. -/
def checkClosing (quote : Nat) (codes : List Nat) : Except ReadError Unit := do
  let (long, parts) :=
    match (codes.drop 1).splitOn quote with
    | [] :: [] :: rest => (true, rest)
    | parts => (false, parts)
  let _ ← parts.foldlM (Closing.step long) {}

/-- The text without `n` code points at each end. -/
def inner (n : Nat) (codes : List Nat) : List Nat := (codes.drop n).take (codes.length - 2 * n)

/-- The text inside the quotes of a string value, one or three at each end. -/
def withoutQuotes (quote : Nat) (codes : List Nat) : List Nat :=
  match codes with
  | [_, b] => if b = quote then [] else inner 1 codes
  | _ :: b :: c :: _ => if b = quote ∧ b = c then inner 1 (inner 2 codes) else inner 1 codes
  | _ => inner 1 codes

/-- Reads a string value that begins with `quote`. -/
def quotedValue (quote : Char) (v : List Char) : Except ReadError Points := do
  let codes := v.map Char.toNat
  checkClosing quote.toNat codes
  if quote = '"' then
    if !escapesAreKnown false ((codes.splitOn backslash).drop 1) then .error .malformed
    let codes ← unicodeEscapes 'u' 4 codes
    let codes ← unicodeEscapes 'U' 8 codes
    let codes ← unescape codes
    return ⟨withoutQuotes quote.toNat codes⟩
  else return ⟨withoutQuotes quote.toNat codes⟩

end CodeAtlas.Toml
