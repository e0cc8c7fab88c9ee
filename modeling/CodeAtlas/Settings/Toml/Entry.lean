import CodeAtlas.Settings.Toml.Number
import CodeAtlas.Settings.Toml.Quoted
import CodeAtlas.Text.Line
/-
  Values and entries of TOML.

  An entry is a line `key = value`. Its value is a string, a number, a moment,
  an array or a table written on one line, whose own entries are read in the
  same way. Containers are taken apart textually, at commas, and what was cut
  too often is put together again; the items of an array are all of one shape.
  How deep containers go is limited.
-/

namespace CodeAtlas.Toml

open CodeAtlas.Text

/-- The shape of a value, the same for all items of an array. -/
inductive Shape where
  | bool
  | text
  | array
  | table
  | time
  | day
  | whole
  | point
  deriving DecidableEq, Repr

/-- A value that goes on in the lines to come: its key, the text so far, and
whether the next line is joined without a break. -/
structure Pending where
  key : Points
  text : List Char
  joined : Bool

/-! ## Scalars -/

/-- The negative of a number. -/
def negated : Value → Value
  | .int n => .int (-n)
  | .decimal m e => .decimal (-m) e
  | .nonFinite "Infinity" => .nonFinite "-Infinity"
  | .nonFinite "-Infinity" => .nonFinite "Infinity"
  | v => v

/-- A reading that has to succeed. -/
def required {α : Type} : Option α → Except ReadError α
  | some a => .ok a
  | none => .error .malformed

/-- A number without its sign and underscores: digits must stand in front of a
point and behind it. -/
def unsignedNumber (ds : List Char) : Except ReadError (Value × Shape) :=
  let pointed := ds.contains '.'
  if pointed || (!ds.contains 'x' && (ds.contains 'e' || ds.contains 'E')) then do
    if pointed && (cutAt '.' ds).2 = [] then .error .malformed
    if !(ds.head?.any Char.isDigit) then .error .malformed
    return (← required (number? ds), .point)
  else if ds.length = 3 && (nonFinite? false ds).isSome then do
    return (← required (number? ds), .point)
  else do
    return (.int (← required (wholeNumber? ds)), .whole)

/-- A time, a day or a number. -/
def scalar (strict : Bool) (v : List Char) : Except ReadError (Value × Shape) :=
  if beginsTime v then do return (← required (time? v), .time)
  else if isMoment v then .ok (.moment (String.ofList v), .day)
  else if !strict then .error .malformed
  else
    let (negative, rest) := Json.sign v
    do
      let (n, shape) ← unsignedNumber (rest.filter (· ≠ '_'))
      return (if negative then negated n else n, shape)

/-! ## Containers taken apart -/

/-- The text without its first and its last character. -/
def insides (cs : List Char) : List Char := (cs.drop 1).take (cs.length - 2)

/-- Whether a text begins with a quote. -/
def beginsQuoted (cs : List Char) : Bool := cs.head?.any isQuote

/-- Whether the first item of an array is a string. -/
def isTextArray (a : List Char) : Bool := beginsQuoted (trim (insides a))

/-- Whether a text begins and ends with the same character, and the last is not
behind an odd number of backslashes. -/
def isBounded (cs : List Char) : Bool :=
  match cs, cs.reverse with
  | first :: _, last :: before =>
    first = last && (before.dropLast.takeWhile (· = '\\')).length % 2 = 0
  | _, _ => true

/-- Whether a piece of an array is a whole string: three quotes in front need
more than one at the end. -/
def isWholeText (piece : List Char) : Bool :=
  let cs := trim piece
  isBounded cs &&
    !(match cs, cs.reverse with
      | a :: b :: c :: _, _ :: y :: z :: _ => a = b && b = c && y ≠ a && z ≠ a
      | _, _ => false)

/-- Puts the pieces of an array of strings together where a comma was part of a
string. `begun` says that `piece` has been put together already; the last piece
is taken as it is. -/
def joinTexts (begun : Bool) (piece : List Char) :
    List (List Char) → Except ReadError (List (List Char))
  | [] => if !begun || isWholeText piece then .ok [piece] else .error .outOfRange
  | next :: rest =>
    if isWholeText piece then (joinTexts false next rest).map (piece :: ·)
    else joinTexts true (piece ++ ',' :: next) rest

/-- The pieces of a text between the commas that stand in no bracket. -/
def splitNested (level : Int) (piece : List Char) : List Char → List (List Char)
  | [] => [piece.reverse]
  | c :: rest =>
    if c = ',' ∧ level = 0 then piece.reverse :: splitNested level [] rest
    else
      let level := if c = '[' then level + 1 else if c = ']' then level - 1 else level
      splitNested level (c :: piece) rest

/-- The first opening brace from place `i` on, or `limit`. -/
def nextBrace (cells : Array Char) (limit i : Nat) : Nat :=
  if i < limit ∧ cells[i]? ≠ some '\x7b' then nextBrace cells limit (i + 1) else i
termination_by limit - i

/-- Where the search for the tables of an array stands: the table that has begun
runs from `start` to `stop`, with `level` braces open. -/
structure Grouping where
  start : Nat
  stop : Nat
  level : Nat
  inText : Bool := false
  groups : List (List Char) := []

/-- The text of some places. -/
def cellsBetween (cells : Array Char) (start stop : Nat) : List Char :=
  (cells.toList.drop start).take (stop - start)

/-- Takes in the character at the place `stop`. -/
def Grouping.step (cells : Array Char) (g : Grouping) (c : Char) : Grouping :=
  let inText :=
    if !isQuote c then g.inText
    else if !g.inText then true
    else ((cellsBetween cells 0 g.stop).reverse.takeWhile (· = '\\')).length % 2 = 1
  let level := if !inText && c = '\x7b' then g.level + 1 else g.level
  let g := { g with inText, level, stop := g.stop + 1 }
  if inText || c ≠ '\x7d' then g
  else if 1 < level then { g with level := level - 1 }
  else
    let start := nextBrace cells (cells.size - 1) (g.stop + 1)
    { g with start, stop := start + 1, groups := g.groups ++ [cellsBetween cells g.start g.stop] }

/-- Looks for the tables of an array as long as places are left. -/
def Grouping.run (cells : Array Char) : (bound : Nat) → Grouping → List (List Char)
  | 0, g => g.groups
  | bound + 1, g =>
    if g.stop < cells.size - 1 then
      match cells[g.stop]? with
      | none => g.groups
      | some c => (g.step cells c).run cells bound
    else g.groups

/-- The tables of an array of tables. -/
def tableGroups (a : List Char) : List (List Char) :=
  let cells := a.toArray
  Grouping.run cells cells.size ⟨1, 2, if cells[1]? = some '\x7b' then 1 else 0, false, []⟩

/-- The items of an array, as texts. -/
def arrayItems (text : List Char) : Except ReadError (List (List Char)) :=
  let a := trim text
  let body := insides a
  if body.contains '[' && trim (cutAt '[' body).1 = [] then .ok (splitNested 0 [] body)
  else
    let items := if (trim body).head? = some '\x7b' then tableGroups a else body.splitOn ','
    match items with
    | first :: rest => if isTextArray a then joinTexts false first rest else .ok items
    | [] => .ok []

/-- Whether the value of an entry in a table on one line is whole. -/
def isWholeValue (v : List Char) : Bool :=
  match v.head?, v.getLast? with
  | some first, some last =>
    (first = last && isQuote first) || first = '-' || first.isDigit || v = "true".toList
      || v = "false".toList || (first = '[' && last = ']') || (first = '\x7b' && last = '\x7d')
  | _, _ => false

/-- The value of an entry in a table on one line, which must not be empty. -/
def inlineValue (piece : List Char) : Except ReadError (List Char) :=
  if !piece.contains '=' then .error .malformed
  else
    match trim (cutAt '=' piece).2 with
    | [] => .error .outOfRange
    | v => .ok v

/-- Puts the pieces of a table together where a comma was part of a value. -/
def joinEntries (piece : List Char) : List (List Char) → Except ReadError (List (List Char))
  | [] => do
    if isWholeValue (← inlineValue piece) then return [piece] else .error .malformed
  | next :: more => do
    if isWholeValue (← inlineValue piece) then return piece :: (← joinEntries next more)
    else joinEntries (piece ++ ',' :: next) more

/-- The entries of a table on one line, as texts. -/
def tableEntries (line : List Char) : Except ReadError (List (List Char)) :=
  match (insides line).splitOn ',' with
  | [] => .ok []
  | [only] => if trim only = [] then .ok [] else joinEntries only []
  | first :: rest => joinEntries first rest

/-! ## Long strings -/

/-- The last string that is begun in the items of an array, where the pieces
before the last are given last first. -/
def lastBegun (piece : List Char) : List (List Char) → Except ReadError (List Char)
  | [] => .ok piece
  | before :: rest =>
    match piece with
    | [] => .error .outOfRange
    | c :: _ => if isQuote c then .ok piece else lastBegun (before ++ ',' :: piece) rest

/-- The string, within a value, that could go on in the next line. -/
def openText (v : List Char) : Except ReadError (List Char) :=
  if v.head? = some '[' && (trim v).getLast? ≠ some ']' && isTextArray v then
    match ((trim (v.drop 1)).splitOn ',').reverse with
    | [] => .ok []
    | last :: before => lastBegun last before
  else .ok v

/-- Whether a value goes on in the next line: three quotes begin it and do not
end it. Gives the length of the string that goes on. -/
def goesOn (v : List Char) : Except ReadError (Option Nat) :=
  if v.length < 3 then .ok none
  else do
    match ← openText v with
    | [] => .error .outOfRange
    | [a] => if isQuote a then .error .outOfRange else return none
    | [a, b] => if isQuote a && a = b then .error .outOfRange else return none
    | a :: b :: c :: rest =>
      let p := a :: b :: c :: rest
      if !(isQuote a && a = b && a = c) then return none
      else if 5 < p.length && (p.reverse.take 3).all (· = a) then return none
      else return some p.length

/-- The text of a value that goes on: a backslash at its end joins the next
line, and otherwise a line break follows. -/
def continued (text : List Char) (joined : Bool) : List Char × Bool :=
  if joined then (text.dropLast, true) else (text ++ ['\n'], false)

/-! ## Keys -/

/-- The parts of a dotted key. Quoted parts are whole; blanks around the others
are dropped only where the key has quotes. -/
def keyLevels (key : List Char) : List (List Char) :=
  if key.any isQuote then
    (quoteSplit key).zipIdx.flatMap fun (part, i) =>
      if i % 2 = 1 then [part] else (part.splitOn '.').map trim
  else key.splitOn '.'

/-- The tables that a key leads through, and its name in the last of them. -/
def keyRoute (key : List Char) : Except ReadError (List Points × Points) :=
  if key.contains '.' then
    match (keyLevels key).reverse.dropWhile (· = []) with
    | [] => .error .outOfRange
    | name :: before =>
      .ok ((before.reverse.filter (· ≠ [])).map Points.ofChars, Points.ofChars (trim name))
  else
    match key.head?, key.getLast? with
    | some first, some last =>
      if first = last && isQuote first then do
        return ([], ⟨← unescape ((insides key).map Char.toNat)⟩)
      else .ok ([], Points.ofChars key)
    | _, _ => .error .outOfRange

/-- The fields with a field set. -/
def setField (fields : List (Points × Value)) (key : Points) (v : Value) :
    List (Points × Value) :=
  ((⟨fields⟩ : Table Points Value).insert key v).entries

/-- The field of a table. -/
def field? (fields : List (Points × Value)) (key : Points) : Option Value :=
  (fields.find? fun f => f.1 = key).map Prod.snd

/-- Changes the table that a route leads to, and makes the tables on the way
that are missing. -/
def atRoute {α : Type} (f : Value → Except ReadError (Value × α)) :
    List Points → Value → Except ReadError (Value × α)
  | [], table => f table
  | key :: rest, .object fields => do
    let (inner, a) ← atRoute f rest ((field? fields key).getD (.object []))
    return (.object (setField fields key inner), a)
  | _ :: _, _ => .error .notTable

/-! ## Entries -/

/-- Whether the value of an entry is taken as it was cut: it begins with a
blank, a quote or a bracket, or is a word, a number, a day or a time. -/
def isSettled (v : List Char) : Bool :=
  match v.head? with
  | none => true
  | some c =>
    [' ', '\t', '\'', '"', '[', '\x7b'].contains c || trim v = "true".toList
      || trim v = "false".toList || (number? v).isSome || isMoment v || beginsTime v

/-- Cuts an entry at later and later equals signs until its value is settled.
Gives the key, the value, and whether the value was strictly written all the
way. -/
def settle (line : List Char) :
    (bound : Nat) → (cuts : Nat) → (parts : List (List Char)) → (strict : Bool) →
      Except ReadError (List Char × List Char × Bool)
  | 0, _, _, _ => .error .malformed
  | bound + 1, cuts, parts, strict =>
    let v := parts.getLast?.getD []
    if isSettled v then .ok (trim (['='].intercalate parts.dropLast), trim v, strict)
    else
      let next := piecesUpTo ['='] (cuts + 1) line
      let last := next.getLast?.getD []
      if last = v then .error .malformed
      else settle line bound (cuts + 1) next (strict && isStrict last)

/-- An entry taken apart into key and value, and whether the value is strictly
written. Underscores are dropped from a value that begins with a digit. -/
def entryParts (line : List Char) : Except ReadError (List Char × List Char × Bool) :=
  let parts := cutOutside ['='] line
  let v := parts.getLast?.getD []
  let plain := if v.head?.any Char.isDigit then v.filter (· ≠ '_') else v
  settle line (line.length + 3) (1 + countBefore ['='] false (quoteSplit line))
    (parts.dropLast ++ [plain]) (isStrict v)

/-- How deep the reading may go. -/
def depthLimit : Nat := 988

mutual

/-- A value and its shape. -/
def value : (depth : Nat) → (strict : Bool) → List Char → Except ReadError (Value × Shape)
  | 0, _, _ => .error .tooDeep
  | depth + 1, strict, v =>
    match v with
    | [] => .error .malformed
    | first :: _ =>
      if v = "true".toList then .ok (.bool true, .bool)
      else if v = "false".toList then .ok (.bool false, .bool)
      else if isQuote first then do return (.string (← quotedValue first v), .text)
      else if first = '[' then do return (.array (← array depth v), .array)
      else if first = '\x7b' then do return (← inlineTable depth v (.object []), .table)
      else scalar strict v

/-- The items of an array, which are all of one shape. -/
def array : (depth : Nat) → List Char → Except ReadError (List Value)
  | 0, _ => .error .tooDeep
  | depth + 1, text => do
    let items ← arrayItems text
    let read ← ((items.map trim).filter (· ≠ [])).foldlM
      (fun (found : List Value × Option Shape) item => do
        let (v, shape) ← value depth true item
        if found.2.any (· ≠ shape) then .error .malformed
        else return (v :: found.1, some shape))
      ([], none)
    return read.1.reverse

/-- A table with the entries of a table on one line; an entry that would go on
in the next line ends it. -/
def inlineTable : (depth : Nat) → List Char → Value → Except ReadError Value
  | 0, _, _ => .error .tooDeep
  | depth + 1, line, table => do
    let entries ← tableEntries line
    let read ← entries.foldlM
      (fun (found : Value × Bool) text => do
        if found.2 then return found
        else
          let (table, pending) ← entry depth text found.1
          return (table, pending.isSome))
      (table, false)
    return read.1

/-- A table with one more entry, or the value that goes on in the next line. A
key may be given once. -/
def entry : (depth : Nat) → List Char → Value → Except ReadError (Value × Option Pending)
  | 0, _, _ => .error .tooDeep
  | depth + 1, line, table => do
    let (key, text, strict) ← entryParts line
    let (route, name) ← keyRoute key
    atRoute (fun table => do
      let found ← match ← goesOn text with
        | some n =>
          let slashes := ((text.reverse.take n).takeWhile (· = '\\')).length
          let (text, joined) := continued text (slashes % 2 = 1)
          pure (Sum.inr (Pending.mk name text joined))
        | none => do
          let (v, _) ← value depth strict text
          pure (Sum.inl v)
      match table with
      | .object fields =>
        if (field? fields name).isSome then .error .malformed
        else
          match found with
          | .inl v => return (.object (setField fields name v), none)
          | .inr pending =>
            if name.codes = [] then .error .noValue else return (table, some pending)
      | _ => .error .malformed) route table

end

end CodeAtlas.Toml
