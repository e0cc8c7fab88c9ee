import CodeAtlas.Analysis.Outline
import CodeAtlas.Disk.Resolve
import CodeAtlas.Language
import CodeAtlas.Report
import CodeAtlas.Text.Fixed
/-
  Taking in one file: checking, reading and analysing it.

  A problem with the file itself is an answer and not a crash, so that a run
  over many files goes on.
-/

namespace CodeAtlas.Intake

open CodeAtlas.Analysis CodeAtlas.Syntax

/-- What makes a tree of a source. -/
abbrev Parser := Language → String → SyntaxTree Span

/-- What is wrong with a file: the kind of problem, the message, and the line
and column if they are known. -/
structure Rejection where
  problem : Problem
  message : String
  place : Option (Nat × Nat) := none
  deriving DecidableEq, Repr

/-- One mebibyte. -/
def mebibyte : Nat := 1024 * 1024

/-- The largest file that is taken in, in mebibytes. -/
def sizeLimit : Nat := 10

/-- Refuses a file that is too large. -/
def checkSize (path : Path) (size : Nat) : Except Rejection Unit :=
  if size > sizeLimit * mebibyte then
    .error ⟨.fileTooLarge,
      s!"File too large ({Text.twoPlaces size mebibyte}MB > {sizeLimit}MB): {path.toString}", none⟩
  else .ok ()

/-- Checks that a path opens a file that can be taken in. -/
def checkPath (d : Disk) (path : Path) : Except Trouble (Except Rejection Unit) :=
  (d.find path).map fun
    | none => .error ⟨.fileNotFound, "File not found: " ++ path.toString, none⟩
    | some (.file c) => checkSize path c.size
    | some _ => .error ⟨.notValid, "Path is not a file: " ++ path.toString, none⟩

/-- Checks a path as it was given. -/
def validate (d : Disk) (path : Option String) : Except Trouble (Except Rejection Path) :=
  match path.filter (· ≠ "") with
  | none => .ok (.error ⟨.notValid, "File path is required and must be a string", none⟩)
  | some p =>
    let path := Path.ofString p
    (checkPath d path).map fun checked => checked.map fun _ => path

/-- The text of a source, with its line ends in one spelling. -/
def readText (c : Content) : Except Text.Utf8.Fault String :=
  c.decode.map fun s => String.ofList (Text.newlines s.toList)

/-- What is wrong with a file that cannot be read. -/
def unreadable (name reason : String) : Rejection :=
  ⟨.fileUnreadable, explain "Failed to read or process file" (some name) none none (some reason),
    none⟩

/-- The outline of the content of a file, or what is wrong with it. -/
def takeContent (parse : Parser) (path : Path) (content : Content) :
    Except Crash (Except Rejection Outline) :=
  let name := path.toString
  match readText content with
  | .error f => .ok (.error (unreadable name f.message))
  | .ok code =>
    match analyse code (some name) (parse (Language.ofPath (some name)) code) with
    | .ok o => .ok (.ok o)
    | .error (.syntaxError e) => .ok (.error ⟨.syntaxError, e.message, some (e.line, e.column)⟩)
    | .error (.fault f) => .error (.fault f)

/-- The outline of a file, or what is wrong with the file. -/
def takeIn (d : Disk) (parse : Parser) (path : Path) :
    Except Crash (Except Rejection Outline) := do
  match ← (checkPath d path).mapError .trouble with
  | .error r => return .error r
  | .ok () =>
    match d.content path with
    | .error t => return .error (unreadable path.toString (t.message path.toString))
    | .ok content => takeContent parse path content

/-- The outline of a file, or what is wrong with the path as it was given or
with the file. -/
def takeGiven (d : Disk) (parse : Parser) (path : Option String) :
    Except Crash (Except Rejection Outline) := do
  match ← (validate d path).mapError .trouble with
  | .error r => return .error r
  | .ok p => takeIn d parse p

end CodeAtlas.Intake
