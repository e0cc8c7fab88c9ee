import CodeAtlas.Analysis.Calls
import CodeAtlas.Analysis.TypesOnly
import CodeAtlas.Message
import CodeAtlas.Syntax.Defect
import CodeAtlas.Syntax.Source
import CodeAtlas.Text.Line
/-
  From a source and its tree to the outline of the file.

  A tree that is marked to hold an error is refused with the place of its
  first defect; there are no outlines of parts of a file. On any other tree
  the passes run in a fixed order, because each one feeds the next: imports,
  declarations and exports, then uses and calls.
-/

namespace CodeAtlas.Analysis

open CodeAtlas.Syntax

/-- A source that does not parse: the message, and the place, the line counted
from one and the column in bytes. -/
structure SyntaxError where
  message : String
  line : Nat
  column : Nat
  deriving DecidableEq, Repr

/-- Why a source has no outline. -/
inductive Failure where
  | syntaxError (e : SyntaxError)
  | fault (f : Fault)
  deriving DecidableEq, Repr

/-- How many characters of a text are shown that could not be placed. -/
def snippetLimit : Nat := 30

/-- What is wrong at a bad node. -/
def describeDefect (n : Node) : Except Fault String :=
  if n.label.isMissing then return s!"missing '{n.kind.name}'"
  else do
    match Text.lines (Text.trim (← n.text).toList) with
    | [] => return "unexpected end of input"
    | line :: _ => return s!"unexpected '{String.ofList (line.take snippetLimit)}'"

/-- The report of a bad node. -/
def syntaxErrorAt (path : Option String) (n : Node) : Except Fault SyntaxError := do
  let line := n.extent.start.row + 1
  let column := n.extent.start.column
  return ⟨explain ("Syntax error: " ++ (← describeDefect n)) path (some line) (some column)
    (some "Check syntax errors in the file"), line, column⟩

/-- The tree of a source with its texts and places, if it holds no error. -/
def readTree (code : String) (path : Option String) (tree : SyntaxTree Span) :
    Except Failure Node :=
  let root := tree.locate code
  match root.defect? with
  | none => .ok root
  | some bad =>
    match syntaxErrorAt path bad with
    | .ok e => .error (.syntaxError e)
    | .error f => .error (.fault f)

/-- What the passes find out about the names of a file. -/
structure Survey where
  imports : Imports
  declarations : Inventory
  exports : List ExportEntry
  typesOnly : Bool

/-- The nodes of a file in document order. -/
def nodesOf (root : Node) : List Cursor := (Cursor.root root).descendants

/-- The declarations and exports of a file. -/
def declarationsOf (root : Node) : Except Fault (Inventory × List ExportEntry) := do
  let declarations ← Inventory.collect (nodesOf root)
  return (declarations, ← exportsOf root)

/-- Runs the passes for names over a file. -/
def survey (root : Node) : Except Fault Survey := do
  let nodes := nodesOf root
  let found ← importsIn nodes
  let (declarations, exports) ← declarationsOf root
  let imports ← withUses nodes declarations.callables found
  return ⟨imports, declarations, exports, holdsTypesOnly root⟩

/-- The calls of a file that was surveyed. -/
def Survey.callsIn (s : Survey) (root : Node) : Except Fault (Table String (List String)) :=
  callTable (nodesOf root) s.imports.aliases.contains s.declarations.declared
    s.declarations.callables

/-- The outline that a survey and the calls give. -/
def Survey.outline (s : Survey) (calls : Table String (List String)) (description : String) :
    Outline :=
  { description
    imports := s.imports.entries
    functions := s.declarations.functions.values
    classes := s.declarations.classes.values
    constants := s.declarations.constants.values
    exports := s.exports
    calls
    typesOnly := s.typesOnly }

/-- The outline of the file with a tree. -/
def outlineOf (root : Node) (description : String) : Except Fault Outline := do
  let s ← survey root
  return s.outline (← s.callsIn root) description

/-- The outline of a source, given the tree that the parser made of it. -/
def analyse (code : String) (path : Option String) (tree : SyntaxTree Span) :
    Except Failure Outline := do
  let root ← readTree code path tree
  (outlineOf root (openingDescription code)).mapError .fault

end CodeAtlas.Analysis
