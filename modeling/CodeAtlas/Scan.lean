import CodeAtlas.Disk.Resolve
import CodeAtlas.Language
import CodeAtlas.Report
import CodeAtlas.Table
import CodeAtlas.Text.Blank
import CodeAtlas.Text.Line
/-
  Finding source files.

  `Scan.folder` goes down from a folder, in the order of names. It goes
  through links, but lists no folder twice: the plain names of the folders
  listed so far are carried along, across siblings too. `Scan.single` lists
  one folder only, `Scan.changed` what version control says has changed.
-/

namespace CodeAtlas.Scan

/-- How many folders deep a scan goes. -/
def depthLimit : Nat := 50

/-- A scan so far: the files found, the plain names of the folders listed, and
the warnings. -/
structure State where
  files : List String := []
  visited : List Path := []
  warnings : List String := []

/-- The scan with one more warning. -/
def State.warn (s : State) (text : String) : State := { s with warnings := s.warnings ++ [text] }

/-- What to scan for: names of folders to pass over, and the folder from which
files are seen. -/
structure Aim where
  base : Path
  excluded : List String

/-- The scan after one entry of a folder; `down` scans a folder below. An entry
that cannot be asked about is warned about. -/
def entry (d : Disk) (aim : Aim) (down : Path → State → Except Trouble State) (dir : Path)
    (s : State) (name : String) : State :=
  let path := dir.child name
  let scanned := do
    match ← d.find path with
    | some .folder => if aim.excluded.contains name then return s else down path s
    | some (.file _) =>
      if Language.isSource path then
        return { s with files := s.files ++ [Path.relativeTo (Path.ofPlace d.cwd) path aim.base] }
      else return s
    | _ => return s
  match scanned with
  | .ok s' => s'
  | .error t => s.warn s!"Error processing entry: {name}. Reason: {t.message path.toString}"

/-- What is said about a folder that cannot be listed. -/
def unlistedText (dir : String) : Trouble → String
  | .notPermitted => "Permission denied: " ++ dir
  | t => s!"Failed to read directory: {dir}. Reason: {t.message dir}"

/-- Scans a folder and those below it, `budget` levels deep. -/
def below (d : Disk) (aim : Aim) (budget : Nat) (dir : Path) (s : State) :
    Except Trouble State := do
  if !(← d.pathExists dir) then return s.warn ("Directory does not exist: " ++ dir.toString)
  match budget with
  | 0 => return s.warn s!"Max directory depth ({depthLimit}) exceeded: {dir.toString}"
  | budget + 1 =>
    let real ← d.realPath dir
    if s.visited.contains real then
      return s.warn ("Circular reference detected, skipping: " ++ dir.toString)
    let s := { s with visited := real :: s.visited }
    match d.names dir with
    | .error t => return s.warn (unlistedText dir.toString t)
    | .ok names => return names.foldl (entry d aim (below d aim budget) dir) s
termination_by structural budget

/-- The source files below a folder, as seen from `base`. -/
def folder (d : Disk) (dir base : Path) (excluded : List String) : Except Trouble State :=
  below d ⟨base, excluded⟩ (depthLimit + 1) dir {}

/-- Whether a path opens a source file; that it cannot be asked about comes with
the path. -/
def isSourceFile (d : Disk) (p : Path) : Except (Trouble × Path) Bool :=
  match d.file? p with
  | .ok file => .ok (file.isSome && Language.isSource p)
  | .error t => .error (t, p)

/-- The source files in a folder that has its plain path, and warnings. -/
def listSources (d : Disk) (dir : Path) : List Path × List String :=
  let listed : Except (Trouble × Path) (List Path) := do
    let names ← (d.names dir).mapError fun t => (t, dir)
    (names.map dir.child).filterM (isSourceFile d)
  match listed with
  | .ok files => (files, [])
  | .error (t, path) =>
    ([], [s!"Failed to read directory: {dir.toString}. Reason: {t.message path.toString}"])

/-- The source files in a folder, by their full paths, and warnings. -/
def single (d : Disk) (dir : Path) : Except Trouble (List Path × List String) :=
  (d.resolve dir).map (listSources d)

/-- What version control lists, one path to a line: what is staged, what has
changed, and what is not tracked. A list that could not be had is absent. -/
structure Listing where
  staged : Option String := none
  unstaged : Option String := none
  untracked : Option String := none

/-- The paths of a listing, one to a line. -/
def listedPaths (text : String) : List String :=
  ((Text.lines text.toList).map fun l => String.ofList (Text.trim l)).filter (· ≠ "")

/-- The paths that version control lists; none at all when a list is
missing. -/
def Listing.paths (l : Listing) (stagedOnly : Bool) : List String :=
  let texts := if stagedOnly then l.staged.map fun s => [s]
    else do return [← l.staged, ← l.unstaged, ← l.untracked]
  (texts.getD []).flatMap listedPaths

/-- The plain path of a changed file, if it is still there. -/
def changedPath (d : Disk) (project : Path) (name : String) : Except Crash (Option Path) := do
  let full ← (d.resolve (project.join (Path.ofString name))).mapError .ofResolve
  let there ← (d.pathExists full).mapError .trouble
  return if there then some full else none

/-- The source files that have changed, by their plain paths. -/
def changed (d : Disk) (project : Path) (l : Listing) (stagedOnly : Bool) :
    Except Crash (List Path) := do
  let names := (distinct (l.paths stagedOnly)).filter fun n => Language.isSource (Path.ofString n)
  return (← names.mapM (changedPath d project)).filterMap id

end CodeAtlas.Scan
