import CodeAtlas.Command.Run
import CodeAtlas.Settings.Format
import CodeAtlas.TreeFile
/-
  The command line.

  A run is a value (`Command.run`), so all that is left to do here is to take
  in the disk below the current directory, to run, and to carry out what the
  run changed. The parser is a program of its own: it leaves the tree of a
  source beside the source, in a file whose name has one more suffix. Version
  control is not asked, so no file counts as changed.
-/

namespace CodeAtlas.Main

/-- What the name of a file with a tree ends in. -/
def treeSuffix : String := ".tree.json"

/-- The place that a path of the system names. -/
def placeOf (path : String) : Place := (Path.ofString path).parts

/-- How many sweeps of folders can be inside one another. -/
def nesting : Nat := 960

/-- The disk with a folder that cannot be listed or a file that cannot be read. -/
def hide (d : Disk) (p : Place) : Disk :=
  { d with locks := { d.locks with hidden := p :: d.locks.hidden } }

/-- The disk with a folder that cannot be gone through. -/
def close (d : Disk) (p : Place) : Disk :=
  { d with locks := { d.locks with closed := p :: d.locks.closed } }

/-- The disk with a file. Of a file that cannot be read, or is too large to be taken
in, only the size is kept. -/
def readFile (d : Disk) (path : String) (size : Nat) : IO Disk := do
  let place := placeOf path
  if size > Intake.sizeLimit * Intake.mebibyte then return d.put place (.file (.zeros size))
  match ← (IO.FS.readBinFile path).toBaseIO with
  | .ok data => return d.put place (.file (.bytes data.toList))
  | .error _ => return hide (d.put place (.file (.zeros size))) place

/-- The disk with some entries of a directory and all that lies below them. -/
partial def readBelow (d : Disk) (children : Array IO.FS.DirEntry) : IO Disk := do
  let mut disk := d
  for child in children do
    let path := child.path.toString
    let place := placeOf path
    match ← child.path.symlinkMetadata.toBaseIO with
    | .error _ => disk := close disk place.dropLast
    | .ok info =>
      match info.type with
      | .dir =>
        match ← child.path.readDir.toBaseIO with
        | .ok below => disk ← readBelow (disk.put place .folder) below
        | .error _ => disk := hide (disk.put place .folder) place
      | .file => disk ← readFile disk path info.byteSize.toNat
      | .symlink =>
        disk := disk.put place (.link (← IO.FS.realPath child.path).toString)
      | .other => pure ()
  return disk

/-- The sources whose trees lie beside them. -/
def knownSources (d : Disk) : List TreeFile.Known :=
  d.entries.entries.filterMap fun e => do
    let .file content := e.2 | none
    let source := Path.ofPlace e.1
    let beside := source.parent.child (source.name ++ treeSuffix)
    let .file rows ← d.entries.get? beside.parts | none
    let code ← (Intake.readText content).toOption
    let text ← rows.decode.toOption
    let tree ← (Json.read text).toOption.bind TreeFile.tree?
    return ⟨Language.ofPath (some source.name), code, tree⟩

/-- Carries out a change. -/
def apply : Disk.Edit → IO Unit
  | .remove p => IO.FS.removeFile (Path.ofPlace p).toString
  | .write p c =>
    match c.decode with
    | .ok text => IO.FS.writeFile (Path.ofPlace p).toString text
    | .error _ => pure ()

end CodeAtlas.Main

open CodeAtlas CodeAtlas.Main in
/-- Runs the command line on the disk below the current directory. -/
def main (args : List String) : IO UInt32 := do
  let dir ← IO.currentDir
  let cwd := placeOf dir.toString
  let start : Disk := { cwd, entries := .empty }
  let disk ← readBelow (start.putFolders cwd) (← dir.readDir)
  let outcome := Command.run
    { disk
      parse := TreeFile.knownParser (knownSources disk)
      decode := Settings.Format.read
      nesting
      projectVariable := ← IO.getEnv "FNMAP_PROJECT_DIR"
      homeVariable := ← IO.getEnv "HOME" } args
  (Disk.edits disk outcome.disk).forM apply
  IO.print outcome.console
  outcome.warnings.forM IO.eprintln
  match outcome.ending with
  | .done => pure ()
  | .usage => IO.eprintln "The command line could not be read"
  | .crashed c => IO.eprintln c.message
  return outcome.ending.exitCode.toUInt32
