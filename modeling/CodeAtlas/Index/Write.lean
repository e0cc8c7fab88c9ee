import CodeAtlas.Outline
import CodeAtlas.Path
import CodeAtlas.Text.Blank
import CodeAtlas.Text.Digit
/-
  The index of a directory, as text.

  An index opens and closes with a marker. Between them each file has a block:
  a line with its name, then its imports, classes with their methods,
  functions, constants and exports, one to a line. What a line is about can be
  told from its indent and its first characters alone.

  `render` takes line numbers of any length; `render?` is the writing that gives
  up when a line number is too long.
-/

namespace CodeAtlas.Index

/-- The word that opens and closes an index. -/
def marker : String := "@FNMAP"

/-- What stands before the callees of a line. -/
def arrowSign : String := "→"

/-- The longest description of a file in an index. -/
def descriptionWidth : Nat := 50

/-- A line with a description after it, unless that is empty. -/
def describe (line description : String) : String :=
  if description = "" then line else line ++ " " ++ description

/-- The callees to show on a line: those of the first of some callers that has
any. -/
def calleesText (o : Outline) (callers : List String) : String :=
  match (callers.map o.calleesOf).find? (· ≠ []) with
  | some callees => " " ++ arrowSign ++ ",".intercalate callees
  | none => ""

/-- First and last line. -/
def rangeText (first last : Int) : String := toString first ++ "-" ++ toString last

/-- A class: its name, the class it extends, and its lines. -/
def classHeading (c : ClassEntry) : String :=
  match c.baseClass with
  | some s => if s = "" then c.name else c.name ++ ":" ++ s
  | none => c.name

/-- The text of a class line, without its indent. -/
def classText (c : ClassEntry) : String :=
  describe (classHeading c ++ " " ++ rangeText c.startLine c.endLine) c.description

/-- The mark of a method: `+` when it is static, `.` otherwise. -/
def methodMark (m : MethodEntry) : String := if m.isStatic then "+" else "."

/-- The text of a method line, without its indent. -/
def methodText (m : MethodEntry) : String :=
  describe
    (methodMark m ++ m.kind.accessor ++ m.name ++ "(" ++ m.params ++ ") " ++ toString m.line)
    m.description

/-- The text of a function line, without its indent. -/
def functionText (f : FunctionEntry) : String :=
  describe (f.name ++ "(" ++ f.params ++ ") " ++ rangeText f.startLine f.endLine) f.description

/-- The text of a constant line, without its indent. -/
def constantText (k : ConstantEntry) : String :=
  describe (k.name ++ " " ++ toString k.line) k.description

/-- The text of an import line, without its indent. -/
def importText (i : ImportEntry) : String := "<" ++ i.module ++ ":" ++ ",".intercalate i.members

/-- How an export is written. -/
def exportText (e : ExportEntry) : String :=
  match e.kind with
  | .default =>
    match e.localName with
    | some l => if l = "" then "default" else "default:" ++ l
    | none => "default"
  | .type => "type:" ++ e.name
  | .value => e.name

/-- The line of a file: its name and the beginning of its description. -/
def fileLine (name : String) (o : Outline) : String :=
  describe ("#" ++ name) (Text.first descriptionWidth o.description)

/-- The lines of a class and its methods. -/
def classLines (o : Outline) (c : ClassEntry) : List String :=
  ("  " ++ classText c) ::
    c.methods.map fun m => "    " ++ methodText m ++ calleesText o [c.qualify m, m.name]

/-- The line of the exports of a file, if it has any. -/
def exportLines (o : Outline) : List String :=
  if o.exports = [] then [] else ["  >" ++ ",".intercalate (o.exports.map exportText)]

/-- The lines of a block below the line of the file. -/
def bodyLines (o : Outline) : List String :=
  o.imports.map (fun i => "  " ++ importText i)
    ++ o.classes.flatMap (classLines o)
    ++ o.functions.map (fun f => "  " ++ functionText f ++ calleesText o [f.name])
    ++ o.constants.map (fun k => "  " ++ constantText k)
    ++ exportLines o

/-- The block of a file. -/
def block (name : String) (o : Outline) : List String := fileLine name o :: bodyLines o

/-- The lines of an index. -/
def indexLines (dir : String) (files : List FileOutline) : List String :=
  (marker ++ " " ++ (Path.ofString dir).name ++ "/")
    :: files.flatMap (fun f => block (Path.ofString f.path).name f.outline) ++ [marker]

/-- The index of the files of a directory. -/
def render (dir : String) (files : List FileOutline) : String :=
  "\n".intercalate (indexLines dir files)

/-- The line numbers that the block of a file shows. -/
def lineNumbers (o : Outline) : List Int :=
  o.classes.flatMap (fun c => c.startLine :: c.endLine :: c.methods.map MethodEntry.line)
    ++ o.functions.flatMap (fun f => [f.startLine, f.endLine])
    ++ o.constants.map ConstantEntry.line

/-- The index of the files of a directory, or nothing when a line number in it is
too long to be written. -/
def render? (dir : String) (files : List FileOutline) : Option String :=
  if files.all fun f => (lineNumbers f.outline).all fun n =>
      (Nat.toDigits 10 n.natAbs).length ≤ Text.widthLimit then
    some (render dir files)
  else none

/-- The index of a single file. -/
def renderAlone (path : String) (o : Outline) : String :=
  let p := Path.ofString path
  render p.parent.toString [⟨p.name, o⟩]

end CodeAtlas.Index
