import CodeAtlas.Index.Write
import CodeAtlas.Text.Digit
import CodeAtlas.Text.Find
import CodeAtlas.Text.Line
/-
  Reading an index back.

  Each line is recognised by itself (`Line.read`); the files are then gathered
  by going through the lines with the file and the class that are open. What
  comes back are the signatures: functions, and methods with their class.

  `read` takes line numbers of any length; `read?` is the reading that gives up
  on a text when a line number it needs is too long.
-/

namespace CodeAtlas.Index

open CodeAtlas.Text

/-- A callable with its parameters and its first and last line. -/
structure Signature where
  name : String
  params : String
  startLine : Nat
  endLine : Nat
  deriving DecidableEq, Repr

/-- What an index says of a file. -/
structure IndexedBlock where
  name : String
  description : String := ""
  functions : List Signature := []
  methods : List Signature := []
  deriving DecidableEq, Repr

/-- A line of an index. -/
inductive Line where
  | marker
  | file (name description : String)
  | method (name params : String) (line : Numeral)
  | function (name params : String) (first last : Numeral)
  | classHead (name : String)
  /-- An indented line of another kind: it ends the class that is open. -/
  | entry
  | other
  deriving DecidableEq, Repr

namespace Line

/-- Whether what follows a complete entry may follow it: nothing, or a blank
and anything. -/
def endsEntry : List Char → Bool
  | [] => true
  | c :: _ => c = ' '

/-- Two numerals with a dash between them, at the end of an entry. -/
def readRange? (cs : List Char) : Option (Numeral × Numeral) := do
  let (first, rest) ← numeral? cs
  let rest ← dropPrefix? ['-'] rest
  let (last, rest) ← numeral? rest
  guard (endsEntry rest)
  return (first, last)

/-- Parameters up to the closing bracket, and what follows the blank after
it. -/
def readParams? (cs : List Char) : Option (String × List Char) := do
  let rest ← dropPrefix? [')', ' '] (cs.dropWhile (· ≠ ')'))
  return (String.ofList (cs.takeWhile (· ≠ ')')), rest)

/-- Whether a character can stand in the name of a function. -/
def isFunctionChar (c : Char) : Bool := !isBlank c && c ≠ '('

/-- Whether a character can stand in the name of a class. -/
def isClassChar (c : Char) : Bool := !isBlank c && c ≠ '(' && c ≠ ':'

/-- Whether a name can begin an entry: `<` and `>` begin imports and
exports. -/
def beginsEntry : List Char → Bool
  | [] => false
  | c :: _ => c ≠ '<' && c ≠ '>'

/-- Reads a method line. The word for an accessor is taken off only when a
name is left. -/
def readMethod? (cs : List Char) : Option Line := do
  let rest ← dropPrefix? [' ', ' ', ' ', ' '] cs
  let rest ← (dropPrefix? ['.'] rest).or (dropPrefix? ['+'] rest)
  let full := rest.takeWhile (· ≠ '(')
  let bare := ((dropPrefix? ['g', 'e', 't', ':'] full).or
    (dropPrefix? ['s', 'e', 't', ':'] full)).getD full
  let name := if bare = [] then full else bare
  guard (name ≠ [])
  let rest ← dropPrefix? ['('] (rest.dropWhile (· ≠ '('))
  let (params, rest) ← readParams? rest
  let (line, rest) ← numeral? rest
  guard (endsEntry rest)
  return .method (String.ofList name) params line

/-- Reads a function line. -/
def readFunction? (cs : List Char) : Option Line := do
  let rest ← dropPrefix? [' ', ' '] cs
  let name := rest.takeWhile isFunctionChar
  guard (beginsEntry name)
  let rest ← dropPrefix? ['('] (rest.dropWhile isFunctionChar)
  let (params, rest) ← readParams? rest
  let (first, last) ← readRange? rest
  return .function (String.ofList name) params first last

/-- What follows the name of the class that a class extends, if it extends
one. -/
def dropSuper? (cs : List Char) : Option (List Char) :=
  match dropPrefix? [':'] cs with
  | none => some cs
  | some rest =>
    if rest.takeWhile (fun c => !isBlank c) = [] then none
    else some (rest.dropWhile fun c => !isBlank c)

/-- Reads a class line. -/
def readClass? (cs : List Char) : Option Line := do
  let rest ← dropPrefix? [' ', ' '] cs
  let name := rest.takeWhile isClassChar
  guard (beginsEntry name)
  let rest ← dropSuper? (rest.dropWhile isClassChar)
  let rest ← dropPrefix? [' '] rest
  let _ ← readRange? rest
  return .classHead (String.ofList name)

/-- Reads the line of a file: the name ends at the first blank. -/
def readFile? (cs : List Char) : Option Line := do
  let rest ← dropPrefix? ['#'] cs
  let (name, description) := cutAt ' ' rest
  return .file (String.ofList name) (String.ofList description)

/-- A line that is none of the others. -/
def readRest (cs : List Char) : Line :=
  if [' ', ' '].isPrefixOf cs && !([' ', ' ', ' ', ' '].isPrefixOf cs) then .entry else .other

/-- Reads a line. -/
def read (cs : List Char) : Line :=
  if Index.marker.toList.isPrefixOf cs then .marker
  else
    ((((readFile? cs).or (readMethod? cs)).or (readFunction? cs)).or (readClass? cs)).getD
      (readRest cs)

end Line

/-- The files read so far, and the file and the class that are open. -/
structure Reader where
  files : Table String IndexedBlock := .empty
  openFile : Option String := none
  openClass : Option String := none

namespace Reader

/-- Changes the entry of the file that is open. -/
def updateFile (r : Reader) (f : IndexedBlock → IndexedBlock) : Reader :=
  match r.openFile with
  | none => r
  | some name => { r with files := r.files.alter name fun old => f (old.getD ⟨name, "", [], []⟩) }

/-- Takes in one line. Outside a file only its line says anything. -/
def step (r : Reader) (line : Line) : Reader :=
  match line, r.openFile with
  | .marker, _ => { r with openFile := none }
  | .file name description, _ =>
    { files := r.files.insert name ⟨name, description, [], []⟩, openFile := some name,
      openClass := none }
  | _, none => r
  | .method name params n, some _ =>
    match r.openClass with
    | none => r
    | some c =>
      r.updateFile fun f =>
        { f with methods := f.methods ++ [⟨c ++ "." ++ name, params, n.value, n.value⟩] }
  | .function name params first last, some _ =>
    ({ r with openClass := none } : Reader).updateFile fun f =>
      { f with functions := f.functions ++ [⟨name, params, first.value, last.value⟩] }
  | .classHead name, some _ => { r with openClass := some name }
  | .entry, some _ => { r with openClass := none }
  | .other, some _ => r

/-- Whether a line needs a number that is too long to be read. The numbers of
a class line are never needed, and those of the others only where they are
gathered. -/
def needsLongNumber (r : Reader) (line : Line) : Bool :=
  match line, r.openFile, r.openClass with
  | .method _ _ n, some _, some _ => n.isTooLong
  | .function _ _ first last, some _, _ => first.isTooLong || last.isTooLong
  | _, _, _ => false

/-- Takes in one line, unless it needs a number that is too long. -/
def step? (r : Reader) (line : Line) : Option Reader :=
  if r.needsLongNumber line then none else some (r.step line)

end Reader

/-- The lines of an index. -/
def linesOf (text : String) : List Line := (Text.lines text.toList).map Line.read

/-- The files of an index, by name. A file that comes again replaces the
earlier one at its place. -/
def read (text : String) : Table String IndexedBlock :=
  ((linesOf text).foldl Reader.step {}).files

/-- The files of an index, or nothing when a line number in it is too long. -/
def read? (text : String) : Option (Table String IndexedBlock) :=
  ((linesOf text).foldlM Reader.step? {}).map Reader.files

theorem Reader.foldl_step_of_foldlM {ls : List Line} {r s : Reader}
    (h : ls.foldlM Reader.step? r = some s) : ls.foldl Reader.step r = s := by
  induction ls generalizing r with
  | nil => simpa using h
  | cons l ls ih =>
    simp only [List.foldlM_cons, Reader.step?] at h
    split at h
    · simp at h
    · exact ih (by simpa using h)

/-- What is read with the bound on numbers is what is read without it. -/
theorem read_eq_of_read? {text : String} {files : Table String IndexedBlock}
    (h : read? text = some files) : read text = files := by
  simp only [read?, Option.map_eq_some_iff] at h
  obtain ⟨s, hs, rfl⟩ := h
  rw [read, Reader.foldl_step_of_foldlM hs]

end CodeAtlas.Index
