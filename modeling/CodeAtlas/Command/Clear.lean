import CodeAtlas.Disk.Change
import CodeAtlas.Report
import CodeAtlas.Settings.Basic
import CodeAtlas.Text.Find
/-
  Taking generated files out again.

  The sweep goes down from a folder through everything that opens as a folder,
  links included, and takes out each file with a generated name. It carries no
  list of folders seen. Folders are swept inside the sweeps of those above them,
  and how many sweeps can be inside one another is up to what runs them.
-/

namespace CodeAtlas.Command

/-- Whether a name is one that is generated. -/
def isOwnOutput (name : String) : Bool :=
  Text.endsWith ".fnmap" name || Text.endsWith ".mermaid" name

/-- A sweep so far: the disk, the generated files that it came upon, each with what
kept it from being taken out, and what the sweep has stopped at. -/
structure Sweep where
  disk : Disk
  tried : List (Path × Option Trouble) := []
  trouble : Option Trouble := none

/-- The files that were taken out. -/
def Sweep.removed (s : Sweep) : List Path :=
  (s.tried.filter fun e => e.2.isNone).map Prod.fst

/-- The sweep after one entry of a folder; `down` sweeps a folder below. A sweep
that has stopped does not go on. -/
def sweepEntry (down : Path → Sweep → Sweep) (dir : Path) (s : Sweep) (name : String) : Sweep :=
  let path := dir.child name
  match s.trouble, s.disk.find path with
  | some _, _ => s
  | none, .error t => { s with trouble := some t }
  | none, .ok (some .folder) => if Settings.alwaysSkipped.contains name then s else down path s
  | none, .ok (some (.file _)) =>
    if isOwnOutput name then
      match s.disk.remove path with
      | .ok d => { s with disk := d, tried := s.tried ++ [(path, none)] }
      | .error t => { s with tried := s.tried ++ [(path, some t)] }
    else s
  | none, .ok _ => s

/-- Sweeps a folder and those below it. It stops at a folder for which it would have
to be inside more than so many sweeps. -/
def sweepBelow : Nat → Path → Sweep → Sweep
  | 0, _, s => { s with trouble := some .tooDeep }
  | nesting + 1, dir, s =>
    match s.disk.names dir with
    | .error t => { s with trouble := some t }
    | .ok names => names.foldl (sweepEntry (sweepBelow nesting) dir) s

/-- What is said about a generated file. -/
def sweptNote (name : String) (path : Path) : Option Trouble → Note
  | none => .line .success ("Deleted: " ++ name)
  | some t => .line .error s!"Failed to delete {name}: {t.message path.toString}"

/-- The sweep of the generated files below a folder. -/
def clear (nesting : Nat) (d : Disk) (project dir : Path) : Report Sweep := do
  if !(← .asked (d.pathExists dir)) then
    .say .warning ("Directory does not exist: " ++ dir.toString)
    return ⟨d, [], none⟩
  let s := sweepBelow nesting dir ⟨d, [], none⟩
  .note (s.tried.map fun e =>
    sweptNote (Path.relativeTo (Path.ofPlace d.cwd) e.1 project) e.1 e.2)
  return s

end CodeAtlas.Command
