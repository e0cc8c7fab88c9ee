import CodeAtlas.Diagram
import CodeAtlas.Index.Write
import CodeAtlas.Intake
import CodeAtlas.Command.Options
import CodeAtlas.Report
/-
  Indexing a list of files.

  All files are analysed first, then everything is written. What is to be
  written is a plain list of paths and texts (`outputs`): by folder one index,
  or one for each file, and diagrams if they are asked for.
-/

namespace CodeAtlas.Command

/-- A line that separates the parts of a run. -/
def separator : String := String.ofList (List.replicate 50 '=')

/-- A file that was analysed: where it is, how it is seen from the project,
and what came of it. -/
structure Analysed where
  path : Path
  relative : String
  result : Except Intake.Rejection Outline

/-- What is said about an outline. -/
def countsText (o : Outline) : String :=
  s!"Imports: {o.imports.length}, Functions: {o.functions.length}, "
    ++ s!"Classes: {o.classes.length}, Constants: {o.constants.length}"

/-- What is said about a file that was analysed. -/
def resultNote : Except Intake.Rejection Outline → Note
  | .error r => .line .error r.message
  | .ok o => if o.typesOnly then .line .info "Skipped (pure type file)"
    else .line .success (countsText o)

/-- How a path is seen from the project. -/
def seenFrom (d : Disk) (project path : Path) : String :=
  Path.relativeTo (Path.ofPlace d.cwd) path project

/-- Analyses one file. -/
def analyseOne (d : Disk) (parse : Intake.Parser) (project path : Path) : Report Analysed := do
  let relative := seenFrom d project path
  .say .info ("\nAnalyzing: " ++ relative)
  match Intake.takeIn d parse path with
  | .error c => .crash c
  | .ok result =>
    .note [resultNote result]
    return ⟨path, relative, result⟩

/-- The outline to be indexed: a file that holds only types has none. -/
def Analysed.indexed? (a : Analysed) : Option FileOutline :=
  match a.result with
  | .error _ => none
  | .ok o => if o.typesOnly then none else some ⟨a.relative, o⟩

/-- The outlines to be indexed, by folder, folders and files in the order in
which they came. -/
def byFolder (as : List Analysed) : Table Path (List FileOutline) :=
  (as.filterMap fun a => a.indexed?.map fun f => (a.path.parent, f)).foldl
    (fun t e => t.alter e.1 fun old => old.getD [] ++ [e.2]) .empty

/-- A file to be written. -/
structure Output where
  path : Path
  text : String
  deriving DecidableEq, Repr

/-- The path in a folder that is named after a file. -/
def namedAfter (folder : Path) (f : FileOutline) (suffix : String) : Path :=
  folder.child ((Path.ofString f.path).stem ++ suffix)

/-- The indexes of a folder: one for all its files, or one for each. -/
def indexOutputs (single : Bool) (folder : Path) (files : List FileOutline) : List Output :=
  if single then
    files.map fun f => ⟨namedAfter folder f ".fnmap", Index.render folder.toString [f]⟩
  else [⟨folder.child ".fnmap", Index.render folder.toString files⟩]

/-- The diagrams of a folder, one for each file with callables. -/
def diagramOutputs (folder : Path) (files : List FileOutline) : List Output :=
  files.filterMap fun f =>
    (Diagram.ofFile f.path f.outline).map fun text => ⟨namedAfter folder f ".mermaid", text⟩

/-- All indexes. -/
def allIndexes (single : Bool) (groups : Table Path (List FileOutline)) : List Output :=
  groups.entries.flatMap fun g => indexOutputs single g.1 g.2

/-- All diagrams. -/
def allDiagrams (mode : DiagramMode) (project : Path) (groups : Table Path (List FileOutline)) :
    List Output :=
  match mode with
  | .perFile => groups.entries.flatMap fun g => diagramOutputs g.1 g.2
  | .project => [⟨project.child ".fnmap.mermaid", Diagram.ofProject groups.values.flatten⟩]

/-- The disk after some files are written one after the other, and what is
said about each. A file that cannot be written is passed over. -/
def writeAll (project : Path) (d : Disk) : List Output → Disk × List Note
  | [] => (d, [])
  | o :: rest =>
    let name := seenFrom d project o.path
    match d.write o.path (.text o.text) with
    | .error t =>
      let (d', notes) := writeAll project d rest
      (d', .line .error s!"Failed to write {name}: {t.message o.path.toString}" :: notes)
    | .ok d₁ =>
      let (d', notes) := writeAll project d₁ rest
      (d', .line .success name :: notes)

/-- How many files were analysed and how many could not be. -/
structure Counts where
  analysed : Nat
  failed : Nat
  deriving DecidableEq, Repr

/-- Counts the results. -/
def count (as : List Analysed) : Counts :=
  let (good, bad) := as.partition fun a => a.result.isOk
  ⟨good.length, bad.length⟩

/-- The disk after the indexes and diagrams of some files are written. -/
def indexAll (d : Disk) (parse : Intake.Parser) (project : Path) (single : Bool)
    (diagram : Option DiagramMode) (files : List Path) : Report (Disk × Counts) := do
  .note [.line .info separator, .line .info "fnmap - AI Code Indexing Tool", .line .info separator]
  let analysed ← files.mapM (analyseOne d parse project)
  let groups := byFolder analysed
  let counts := count analysed
  if groups.entries = [] then return (d, counts)
  .say .info "\nGenerating .fnmap index..."
  let (d₁, notes) := writeAll project d (allIndexes single groups)
  .note notes
  match diagram with
  | none => return (d₁, counts)
  | some mode =>
    .say .info "\nGenerating Mermaid call graphs..."
    let (d₂, notes) := writeAll project d₁ (allDiagrams mode project groups)
    .note notes
    return (d₂, counts)

end CodeAtlas.Command
