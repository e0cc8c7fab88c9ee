import CodeAtlas.Settings.Value
import CodeAtlas.Text.Alphanumeric
import CodeAtlas.Text.Blank
/-
  The layout of a TOML text.

  Before any value is read, one pass over the characters finds out where keys,
  headers, strings and arrays begin and end. It checks the keys, blanks out the
  comments, and joins the lines of an array that goes over several, so that the
  text can then be read line by line.

  The pass only counts quotes and brackets. It looks back for them without
  regard to the start of the text: before the first character comes the last
  one again.
-/

namespace CodeAtlas.Toml

open CodeAtlas.Text

/-- Whether a character opens and closes strings. -/
def isQuote (c : Char) : Bool := c = '"' || c = '\''

/-- Where the pass stands with respect to the key of a line. -/
inductive KeyPhase where
  | outside
  | inside
  | ended
  deriving DecidableEq, Repr

/-- The characters, as far as they are settled, and what is open at the place
that the pass has reached. -/
structure Layout where
  cells : Array Char
  /-- Brackets opened inside values and not yet closed. -/
  openBrackets : Int := 0
  inString : Bool := false
  quote : Option Char := none
  inLongString : Bool := false
  inHeader : Bool := false
  inListHeader : Bool := false
  atLineStart : Bool := true
  /-- Whether the key has dots. -/
  dotted : Bool := false
  key : KeyPhase := .outside
  /-- Whether a comment has taken up the rest of the text. -/
  stopped : Bool := false

namespace Layout

/-- The character `k` places before place `i`, where the last character comes
before the first. -/
def back? (l : Layout) (i k : Nat) : Option Char :=
  if k ≤ i then l.cells[i - k]?
  else if k - i ≤ l.cells.size then l.cells[l.cells.size - (k - i)]?
  else none

/-- How many backslashes, `bound` at most, stand in a row from `k` places before
place `i` backwards. -/
def backslashes (l : Layout) (i k : Nat) : (bound : Nat) → Nat
  | 0 => 0
  | bound + 1 => if l.back? i k = some '\\' then l.backslashes i (k + 1) bound + 1 else 0

/-! ## Keys -/

/-- Goes on behind a dot or a blank of a dotted key: another part begins unless
a dot or a blank follows. -/
def resumeKey (l : Layout) (i : Nat) : Except ReadError Layout :=
  match l.cells[i + 1]? with
  | none => .error .outOfRange
  | some c => .ok { l with key := if isBlank c || c = '.' then .ended else .inside }

/-- Takes in a character at which a key has to end. -/
def endKey (l : Layout) (c : Char) : Except ReadError Layout :=
  if c = '=' then .ok { l with key := .outside, dotted := false } else .error .malformed

/-- Takes in a character inside a key or behind one. -/
def keyStep (l : Layout) (i : Nat) (c : Char) : Except ReadError Layout :=
  if c = '\n' then .error .malformed
  else if l.inString then
    if l.quote = some c ∧ l.backslashes i 1 i % 2 = 0 then
      .ok { l with key := .ended, inString := false, quote := none }
    else .ok l
  else if l.key = .inside then
    if isBlank c then .ok { l with key := .ended }
    else if c = '.' then .ok { l with dotted := true }
    else if isAlphanumeric c || c = '_' || c = '-' then .ok l
    else if l.dotted && l.back? i 1 = some '.' && isQuote c then
      .ok { l with inString := true, quote := some c }
    else l.endKey c
  else if isBlank c then if l.dotted then l.resumeKey i else .ok l
  else if c = '.' then { l with dotted := true }.resumeKey i
  else l.endKey c

/-! ## Strings, comments and brackets -/

/-- Opens or closes a string; three quotes in a row open or close a long one. -/
def toggle (l : Layout) (long : Bool) : Layout :=
  if long then { l with inLongString := !l.inLongString, inString := !l.inLongString }
  else { l with inString := !l.inString }

/-- Remembers the quote by which the string that is open has to be closed. -/
def closedBy (l : Layout) (c : Char) : Layout :=
  { l with quote := if l.inString then some c else none }

/-- How many of the two characters before a place are the quote `c`, without a
gap. -/
def quotesBefore (l : Layout) (i : Nat) (c : Char) : Nat :=
  if l.back? i 1 ≠ some c then 0 else if l.back? i 2 ≠ some c then 1 else 2

/-- Takes in a single quote. -/
def singleQuote (l : Layout) (i : Nat) : Layout :=
  (l.toggle (l.quotesBefore i '\'' = 2)).closedBy '\''

/-- Takes in a double quote, which says nothing behind a backslash. -/
def doubleQuote (l : Layout) (i : Nat) : Layout :=
  let n := l.quotesBefore i '"'
  let escaped := n ≠ 1 && l.backslashes i (n + 1) l.cells.size % 2 = 1
  (if escaped then l else l.toggle (n = 2)).closedBy '"'

/-- The end of the line that a place is in. -/
def lineEnd (cells : Array Char) (i : Nat) : Nat :=
  if h : i < cells.size then if cells[i] = '\n' then i else lineEnd cells (i + 1) else i
termination_by cells.size - i

/-- Blanks out the comment that begins at a place. -/
def blankComment (l : Layout) (i : Nat) : Layout :=
  let stop := lineEnd l.cells i
  { l with
    cells := (List.range' i (stop - i)).foldl (fun cells j => cells.setIfInBounds j ' ') l.cells
    stopped := stop ≥ l.cells.size }

/-- Takes in an opening bracket: of a header when it begins the line. -/
def openBracket (l : Layout) (i : Nat) : Layout :=
  if !l.atLineStart then { l with openBrackets := l.openBrackets + 1 }
  else if l.cells[i + 1]? = some '[' then { l with inListHeader := true }
  else { l with inHeader := true }

/-- Takes in a closing bracket. -/
def closeBracket (l : Layout) (i : Nat) : Layout :=
  if l.inHeader then { l with inHeader := false }
  else if l.inListHeader then
    if l.back? i 1 = some ']' then { l with inListHeader := false } else l
  else { l with openBrackets := l.openBrackets - 1 }

/-- Whether quotes aside, nothing is open in which signs lose their meaning. -/
def isFree (l : Layout) : Bool := !l.inString && !l.inHeader && !l.inListHeader

/-- Takes in a sign. -/
def signStep (l : Layout) (i : Nat) (c : Char) : Layout :=
  match c with
  | '\'' => if l.quote = some '"' then l else l.singleQuote i
  | '"' => if l.quote = some '\'' then l else l.doubleQuote i
  | '#' => if l.isFree then l.blankComment i else l
  | '[' => if l.isFree then l.openBracket i else l
  | ']' => if l.inString then l else l.closeBracket i
  | _ => l

/-! ## Lines -/

/-- Joins the line of a long string to the next when quotes end it: the break
becomes a quote, and of three quotes the first becomes a blank. -/
def foldBreak (l : Layout) (i : Nat) : Layout :=
  match l.back? i 1 with
  | none => l
  | some c =>
    if isQuote c && l.back? i 2 = some c then
      let cells := l.cells.setIfInBounds i c
      { l with cells := if l.back? i 3 = some c then cells.setIfInBounds (i - 3) ' ' else cells }
    else l

/-- Takes in a line break: it ends the line only outside strings and arrays. -/
def breakStep (l : Layout) (i : Nat) : Except ReadError Layout :=
  if l.inLongString then .ok (l.foldBreak i)
  else if l.inString then .error .malformed
  else if l.openBrackets ≠ 0 then .ok { l with cells := l.cells.setIfInBounds i ' ' }
  else .ok { l with atLineStart := true }

/-- Takes in the first sign of a line: outside headers a key begins with it. -/
def startStep (l : Layout) (c : Char) : Except ReadError Layout :=
  if l.inHeader || l.inListHeader then .ok { l with atLineStart := false }
  else if c = '=' then .error .malformed
  else .ok { l with atLineStart := false, key := .inside }

/-- Takes in the character at a place as part of its line. -/
def lineStep (l : Layout) (i : Nat) (c : Char) : Except ReadError Layout :=
  if l.stopped then .ok l
  else if c = '\n' then l.breakStep i
  else if l.atLineStart then
    match l.cells[i]? with
    | none | some ' ' | some '\t' => .ok l
    | some c => l.startStep c
  else .ok l

/-- Takes in the character at a place. -/
def step (l : Layout) (i : Nat) : Except ReadError Layout :=
  match l.cells[i]? with
  | none => .ok l
  | some c =>
    if l.stopped then .ok l
    else if l.key = .outside then (l.signStep i c).lineStep i c
    else do
      let l ← l.keyStep i c
      if l.key = .outside then (l.signStep i c).lineStep i c else return l

/-- The lines of a text, with comments blanked out and arrays on one line
each. -/
def linesOf (text : String) : Except ReadError (List (List Char)) := do
  let cells := text.toList.toArray
  let l ← (List.range cells.size).foldlM step { cells }
  if l.key ≠ .outside || l.inString then .error .malformed
  else return l.cells.toList.splitOn '\n'

end Layout

end CodeAtlas.Toml
