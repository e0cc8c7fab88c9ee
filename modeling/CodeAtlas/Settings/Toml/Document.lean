import CodeAtlas.Settings.Toml.Entry
/-
  TOML documents.

  A document is read line by line. A header `[a.b]` leads to a table, a header
  `[[a.b]]` appends a table to a list, and the entries that follow go into that
  table. A table that a header only passes through may get a header of its own
  later on, every other table only once. Lines that are neither header nor entry
  say nothing.
-/

namespace CodeAtlas.Toml

open CodeAtlas.Text

/-- One step on the way to the table that entries go into. -/
inductive Step where
  | field (key : Points)
  /-- The last item of a list. -/
  | last
  deriving DecidableEq, Repr

/-- Changes what a way leads to. -/
def update {α : Type} (f : Value → Except ReadError (Value × α)) :
    List Step → Value → Except ReadError (Value × α)
  | [], v => f v
  | .field key :: rest, .object fields => do
    let (v, a) ← update f rest ((field? fields key).getD .null)
    return (.object (setField fields key v), a)
  | .last :: rest, .array items => do
    let (v, a) ← update f rest (items.getLast?.getD .null)
    return (.array (items.dropLast ++ [v]), a)
  | _ :: _, _ => .error .notTable

/-- The document so far, the way to the table that entries go into, the names of
tables that headers have only passed through, and the value that goes on in the
next line. -/
structure Document where
  root : Value := .object []
  here : List Step := []
  passed : List Points := []
  pending : Option Pending := none

namespace Document

/-! ## Headers -/

/-- Whether a character can stand in a bare name. -/
def isBareChar (c : Char) : Bool := c.isAlphanum || c = '_' || c = '-'

/-- Whether a quoted name is whole. -/
def isWholeName (cs : List Char) : Bool := cs.head? = cs.getLast? && cs.length ≠ 1

/-- Puts the pieces of a quoted name together where a dot was part of it: the
name without its quotes, and the pieces that are left. -/
def quotedName (name : List Char) :
    List (List Char) → Except ReadError (List Char × List (List Char))
  | [] => if isWholeName (trim name) then .ok (insides (trim name), []) else .error .malformed
  | next :: more =>
    if isWholeName (trim name) then .ok (insides (trim name), next :: more)
    else quotedName (name ++ '.' :: next) more

/-- The names of a header, each bare or quoted. -/
def names : (bound : Nat) → List (List Char) → Except ReadError (List Points)
  | _, [] => .ok []
  | 0, _ => .error .malformed
  | bound + 1, piece :: rest => do
    let name := trim piece
    if beginsQuoted name then
      let (name, rest) ← quotedName name rest
      return Points.ofChars name :: (← names bound rest)
    else if name ≠ [] && name.all isBareChar then
      return Points.ofChars name :: (← names bound rest)
    else .error .malformed

/-- The names of a header of which the opening brackets have been taken off. -/
def headerNames (closing line : List Char) : Except ReadError (List Points) :=
  let cuts := 1 + countBefore closing false (quoteSplit line)
  let parts := piecesUpTo closing cuts line
  if parts.length < cuts + 1 || trim (parts.getLast?.getD []) ≠ [] then .error .malformed
  else
    let pieces := (closing.intercalate parts.dropLast).splitOn '.'
    names pieces.length pieces

/-- The table that a header makes where there is none. -/
def newTable (isList isLast : Bool) : Value :=
  if isList && isLast then .array [.object []] else .object []

/-- Takes a name of a header down from the value `v`: the value with what the
name leads to in it, the steps to it, and the names passed through. -/
def takeName (isList isLast : Bool) (name : Points) (passed : List Points) (v : Value) :
    Except ReadError (Value × List Step × List Points) :=
  match v with
  | .object fields =>
    match field? fields name with
    | none =>
      .ok (.object (setField fields name (newTable isList isLast)), [.field name],
        if isLast then passed else passed ++ [name])
    | some old =>
      if !isLast then .ok (v, [.field name], passed)
      else if passed.contains name then
        if isList then .error .malformed else .ok (v, [.field name], passed.erase name)
      else if !isList then .error .malformed
      else
        match old with
        | .array items =>
          .ok (.object (setField fields name (.array (items ++ [.object []]))), [.field name],
            passed)
        | _ => .error .notList
  | .array items =>
    match items.getLast? with
    | none => .error .outOfRange
    | some (.object fields) =>
      let fields :=
        if (field? fields name).isSome then fields
        else setField fields name (newTable isList isLast)
      .ok (.array (items.dropLast ++ [.object fields]), [.last, .field name], passed)
    | some _ => .error .notTable
  | .string s => if s.codes = [] then .error .outOfRange else .error .notTable
  | _ => .error .notTable

/-- The step from a list to its last table, which headers of lists take. -/
def intoList : Value → Except ReadError (List Step)
  | .array items => if items.isEmpty then .error .outOfRange else .ok [.last]
  | .object _ => .ok []
  | .string s => if s.codes = [] then .error .outOfRange else .ok []
  | _ => .error .notTable

/-- The value that a way leads to. -/
def valueAt (root : Value) (way : List Step) : Except ReadError Value := do
  let (_, v) ← update (fun v => .ok (v, v)) way root
  return v

/-- Takes the names of a header down from where the document stands. -/
def takeNames (isList : Bool) : List Points → Document → Except ReadError Document
  | [], d => .ok d
  | name :: rest, d =>
    if name.codes = [] then .error .malformed
    else do
      let (root, steps, passed) ← update (takeName isList rest.isEmpty name d.passed) d.here d.root
      let here := d.here ++ steps
      let more ← if isList then intoList (← valueAt root here) else .ok []
      takeNames isList rest { d with root, passed, here := here ++ more }

/-- Takes in a header line, without its first bracket. -/
def takeHeader (d : Document) (line : List Char) : Except ReadError Document := do
  match line with
  | [] => .error .malformed
  | '[' :: rest => takeNames true (← headerNames [']', ']'] rest) { d with here := [] }
  | _ => takeNames false (← headerNames [']'] line) { d with here := [] }

/-! ## Lines -/

/-- Whether a line ends the value that goes on. -/
def endsPending (p : Pending) (line : List Char) : Except ReadError Bool :=
  match p.text.head? with
  | some '[' =>
    match line.getLast? with
    | none => .error .outOfRange
    | some c => .ok (c = ']')
  | first => .ok (2 < line.length && (line.reverse.take 3).all (some · = first))

/-- Takes in a line of the value that goes on. -/
def takePending (d : Document) (p : Pending) (line : List Char) : Except ReadError Document := do
  let text := p.text ++ line
  if ← endsPending { p with text } line then
    let (v, _) ← value depthLimit true text
    let (root, _) ← update
      (fun
        | .object fields => .ok (.object (setField fields p.key v), ())
        | _ => .error .notTable)
      d.here d.root
    return { d with root, pending := none }
  else
    let slashes := (text.reverse.takeWhile (· = '\\')).length
    let (text, joined) := continued text (slashes % 2 = 1)
    return { d with pending := some { p with text, joined } }

/-- Takes in a line of its own, which is not empty. -/
def takeLine (d : Document) (line : List Char) : Except ReadError Document :=
  match line with
  | '[' :: rest => d.takeHeader rest
  | '\x7b' :: _ =>
    if line.getLast? ≠ some '\x7d' then .error .malformed
    else do
      let (root, _) ← update
        (fun v => do return (← inlineTable depthLimit line v, ())) d.here d.root
      return { d with root }
  | _ =>
    if line.contains '=' then do
      let (root, pending) ← update (entry depthLimit line) d.here d.root
      return { d with root, pending }
    else .ok d

/-- Takes in a line. Inside a value that goes on, blanks count unless the line
is joined to the one before. -/
def step (d : Document) (line : List Char) : Except ReadError Document :=
  match d.pending with
  | none => if trim line = [] then .ok d else d.takeLine (trim line)
  | some p =>
    let line := if p.joined || !p.text.contains '\n' then trim line else line
    if line = [] && p.joined then .ok d else d.takePending p line

end Document

/-- The value that a TOML text holds. -/
def read (text : String) : Except ReadError Value := do
  let d ← (← Layout.linesOf text).foldlM Document.step {}
  return d.root

end CodeAtlas.Toml
