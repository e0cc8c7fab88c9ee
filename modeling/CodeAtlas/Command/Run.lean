import CodeAtlas.Command.Clear
import CodeAtlas.Command.Index
import CodeAtlas.Command.Init
import CodeAtlas.Scan
import CodeAtlas.Settings.Load
/-
  One run of the command line, as a value.

  A run takes the words of the command line and the world it runs in, and
  gives the disk after it, what it said, and how it ended. Nothing is done
  that the answer does not show.
-/

namespace CodeAtlas.Command

open CodeAtlas.Text

/-- What a run finds around it: the disk, what makes trees and what makes values of
configurations, how many sweeps of folders can be inside one another, what version
control lists, and two variables of the environment. -/
structure World where
  disk : Disk
  parse : Intake.Parser
  decode : Settings.Decoder
  nesting : Nat
  listing : Scan.Listing := {}
  projectVariable : Option String := none
  homeVariable : Option String := none

/-- How a run ended. -/
inductive Ending where
  | done
  /-- The words of the command line could not be read. -/
  | usage
  | crashed (c : Crash)
  deriving DecidableEq, Repr

/-- What a run leaves behind: the disk, the console, the log, and how it
ended. -/
structure Outcome where
  disk : Disk
  console : String
  warnings : List String
  ending : Ending

/-- The exit code of a run. -/
def Ending.exitCode : Ending → Nat
  | done => 0
  | usage => 2
  | crashed _ => 1

/-- The version, as it is shown. -/
def versionText : String := "fnmap v0.1.0\n"

/-- A path without slashes at its end. -/
def dropSlashes (s : String) : String :=
  String.ofList (s.toList.reverse.dropWhile (· = '/')).reverse

/-- A path with the home directory in place of a tilde at its front. A home
that begins with a tilde itself is none. -/
def expandHome (home : Option String) (p : Path) : Report Path :=
  match p.isAbsolute, p.parts with
  | false, first :: rest =>
    if first = "~" then
      match home with
      | none => .crash .noHome
      | some h =>
        let h := dropSlashes h
        if Text.startsWith "~" h then .crash .noHome
        else pure ((Path.ofString (if h = "" then "/" else h)).join ⟨"", rest⟩)
    else if Text.startsWith "~" first then .crash .noHome
    else pure p
  | _, _ => pure p

/-- The plain path of the project. -/
def projectPath (w : World) (words : Words) : Report Path := do
  let path ← match words.project with
    | some p => pure (Path.ofString p)
    | none => expandHome w.homeVariable (Path.ofString (w.projectVariable.getD "."))
  .resolved (w.disk.resolve path)

/-- The files that are asked for by name and are there. -/
def requested (d : Disk) (project : Path) (words : Words) : Report (List Path) :=
  let listed := ((words.files.getD "").toList.splitOn ',').map fun cs => Text.trim cs
  let names := words.paths ++ (listed.filter (· ≠ [])).map String.ofList
  (names.map fun n => project.join (Path.ofString n)).filterM fun p => .asked (d.pathExists p)

/-- Scans a folder; the files are given by paths from the project. -/
def scanFrom (d : Disk) (project dir : Path) (excluded : List String) : Report (List Path) := do
  let s ← .asked (Scan.folder d dir project excluded)
  .note (s.warnings.map .logged)
  return s.files.map fun f => project.join (Path.ofString f)

/-- The files in the folders of what has changed. -/
def changedFiles (w : World) (project : Path) (stagedOnly : Bool) : Report (List Path) := do
  let changed ← .ofExcept (Scan.changed w.disk project w.listing stagedOnly)
  if changed = [] then
    .say .info "No git changed code files detected"
    return []
  let parts ← (distinct (changed.map Path.parent)).mapM fun dir => do
    let (files, warnings) ← .resolved (Scan.single w.disk dir)
    .note (warnings.map .logged)
    return files
  return parts.flatten

/-- The plain path of a folder of the settings; `none` when its name cannot be
that of an entry, though it can be written. -/
def settingsFolder? (d : Disk) (project : Path) (dir : Points) : Report (Option Path) :=
  match dir.toString? with
  | some name => do return some (← .resolved (d.resolve (project.join (Path.ofString name))))
  | none => if dir.isWritable then return none else .crash .badName

/-- The files in one of the folders of the settings. -/
def filesUnder (d : Disk) (project : Path) (s : Settings) (dir : Points) :
    Report (List Path) := do
  match ← settingsFolder? d project dir with
  | none => return []
  | some target =>
    if ← .asked (d.isFolder target) then
      let excluded ← .orCrash .badType (Settings.namesOf? s.skippedNames)
      scanFrom d project target excluded
    else return []

/-- The files that the configuration asks for; `none` when it asks for
none. -/
def configuredFiles (d : Disk) (decode : Settings.Decoder) (project : Path) :
    Report (Option (List Path)) := do
  match ← Settings.load d decode project with
  | none =>
    .say .warning ("No config file found. Use fnmap --init to create config, "
      ++ "or use --dir/--files to specify scope")
    .say .info "Supported config files: .fnmaprc, .fnmaprc.json, .fnmaprc.toml, package.json#fnmap"
    return none
  | some loaded =>
    .say .info ("Using config: " ++ loaded.source)
    let s ← .orCrash .badType (Settings.ofConfig? loaded.config)
    if !s.enable.isSet then
      .say .info "Config file has enable set to false, skipping processing"
      return none
    let dirs ← .orCrash .badType (Settings.directories? s.patterns)
    let parts ← dirs.mapM (filesUnder d project s)
    return some parts.flatten

/-- What to index: the files, and whether each gets an index of its own. -/
structure Targets where
  files : List Path
  single : Bool

/-- What the words ask to be indexed: what has changed, files by name, a
folder, or what the configuration says. -/
def selectTargets (w : World) (project : Path) (words : Words) : Report (Option Targets) := do
  let byName ← requested w.disk project words
  if words.changed || words.staged then
    return some ⟨← changedFiles w project words.staged, false⟩
  else if byName ≠ [] then return some ⟨byName, true⟩
  else
    match words.dir with
    | some dir =>
      let root ← .resolved (w.disk.resolve (project.join (Path.ofString dir)))
      return some ⟨← scanFrom w.disk project root Settings.alwaysSkipped, false⟩
    | none =>
      return (← configuredFiles w.disk w.decode project).map fun files => ⟨files, false⟩

/-- Clears a project or one of its folders. What was taken out before the run
had to stop stays out. -/
def runClear (w : World) (project : Path) (words : Words) : Report (Disk × Option Crash) := do
  .say .info "fnmap - Clear Generated Files"
  let dir ← match words.dir with
    | none => pure project
    | some dir => .resolved (w.disk.resolve (project.join (Path.ofString dir)))
  let s ← clear w.nesting w.disk project dir
  match s.trouble, s.removed.length with
  | some t, _ => return (s.disk, some (.trouble t))
  | none, 0 =>
    .say .summary "No generated files found"
    return (s.disk, none)
  | none, n =>
    .say .summary s!"Cleared {n} generated file(s)"
    return (s.disk, none)

/-- Indexes what the words ask for. -/
def runIndex (w : World) (project : Path) (words : Words) (diagram : Option DiagramMode) :
    Report Disk := do
  match ← selectTargets w project words with
  | none => return w.disk
  | some targets =>
    let plain ← targets.files.mapM fun p => .resolved (w.disk.resolve p)
    match distinct plain with
    | [] =>
      .say .info "No files found to process"
      return w.disk
    | files =>
      let (d, counts) ← indexAll w.disk w.parse project targets.single diagram files
      .say .info ("\n" ++ separator)
      .say .summary s!"Complete! Analyzed: {counts.analysed}, Failed: {counts.failed}"
      .say .info separator
      return d

/-- Does what the words ask for: the disk afterwards, and what the run crashed
on if it did. -/
def execute (w : World) (words : Words) (diagram : Option DiagramMode) :
    Report (Disk × Option Crash) := do
  let project ← projectPath w words
  if words.clear then runClear w project words
  else if words.init then setUp w.disk project
  else (runIndex w project words diagram).attempt w.disk

/-- Whether the words ask to be told what is done. -/
def isVerbose (words : Words) : Bool := words.log || words.clear || words.init

/-- Whether every path among the words can be one: none holds the null
character. -/
def pathsAreGood (words : Words) : Bool :=
  (words.paths ++ words.dir.toList ++ words.project.toList).all fun p => !p.toList.contains '\x00'

/-- One run of the command line. -/
def run (w : World) (args : List String) : Outcome :=
  match readWords? {} args with
  | none => ⟨w.disk, "", [], .usage⟩
  | some words =>
    if words.version then ⟨w.disk, versionText, [], .done⟩
    else if words.help then ⟨w.disk, "", [], .done⟩
    else if !pathsAreGood words then ⟨w.disk, "", [], .usage⟩
    else
      match words.diagram, words.diagram.bind DiagramMode.read? with
      | some _, none => ⟨w.disk, "", [], .usage⟩
      | _, diagram =>
        let r := execute w words diagram
        let console := consoleText (isVerbose words) r.notes
        match r.result with
        | .ok (d, none) => ⟨d, console, loggedTexts r.notes, .done⟩
        | .ok (d, some c) => ⟨d, console, loggedTexts r.notes, .crashed c⟩
        | .error c => ⟨w.disk, console, loggedTexts r.notes, .crashed c⟩

end CodeAtlas.Command
