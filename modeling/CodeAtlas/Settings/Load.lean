import CodeAtlas.Intake
import CodeAtlas.Report
import CodeAtlas.Settings.Basic
/-
  Where the settings of a project come from.

  Three files are tried in turn, and the first that holds a usable
  configuration wins; a file that is there and cannot be used is warned about.
  Last comes a section of the package file, which is asked for quietly. What
  makes values of the texts is handed in.
-/

namespace CodeAtlas.Settings

/-- How a configuration file is written. -/
inductive Format where
  | json
  | toml
  deriving DecidableEq, Repr

/-- What makes a value of the text of a configuration. -/
abbrev Decoder := Format → String → Except ReadError Value

/-- The configuration files, in the order in which they are tried. -/
def sources : List (String × Format) :=
  [(".fnmaprc", .json), (".fnmaprc.json", .json), (".fnmaprc.toml", .toml)]

/-- The package file. -/
def packageFile : String := "package.json"

/-- The section of the package file that holds the configuration. -/
def packageSection : String := "fnmap"

/-- A configuration and where it was found. -/
structure Loaded where
  config : Value
  source : String

/-- What a configuration file gives: a configuration, nothing, or a warning
why it cannot be used. -/
inductive Reading where
  | config (v : Value)
  | absent
  | unusable (warning : String)

/-- Whether a text has nothing but blanks. -/
def isBlankText (s : String) : Bool := s.toList.all Text.isBlank

/-- What a configuration gives. A file that holds `null` counts as absent. -/
def readValue (name : String) (raw : Value) : Reading :=
  match raw with
  | .null => .absent
  | _ =>
    match check raw with
    | .ok v => .config v
    | .error e => .unusable s!"Invalid config in {name}: {e.message}"

/-- Reads the text of a configuration file. -/
def readConfig (decode : Decoder) (path name : String) (format : Format) (text : String) :
    Report Reading :=
  if isBlankText text then
    pure (.unusable s!"Config file is empty: {name}. Using default config")
  else
    match decode format text with
    | .ok raw => pure (readValue name raw)
    | .error .malformed =>
      pure (.unusable (explain ("Failed to parse config file: " ++ name) (some path) none none
        (some "Check the file syntax (...)")))
    | .error e => .crash (.badConfig e)

/-- The text of the file that a path opens, if it opens one, or why the file cannot
be read. -/
def readFile? (d : Disk) (path : Path) : Report (Option (Except Trouble String)) := do
  match ← .asked (d.file? path) with
  | none => return none
  | some (.error t) => return some (.error t)
  | some (.ok content) =>
    match Intake.readText content with
    | .error f => .crash (.badText f)
    | .ok text => return some (.ok text)

/-- What is said about a configuration file that cannot be read. -/
def unreadableText (path name : String) (t : Trouble) : String :=
  explain ("Failed to read config file: " ++ name) (some path) none none (some (t.message path))

/-- Reads a configuration file. -/
def readSettings (d : Disk) (decode : Decoder) (project : Path) (name : String)
    (format : Format) : Report Reading := do
  let path := project.child name
  match ← readFile? d path with
  | none => return .absent
  | some (.error t) => return .unusable (unreadableText path.toString name t)
  | some (.ok text) => readConfig decode path.toString name format text

/-- The section of a package that holds the configuration, if it says
something. -/
def packageConfig? (decode : Decoder) (text : String) : Report (Option Value) :=
  match decode .json text with
  | .ok package => pure ((package.get? packageSection).filter Value.isSet)
  | .error .malformed => pure none
  | .error e => .crash (.badConfig e)

/-- The configuration in the package file. -/
def readPackage (d : Disk) (decode : Decoder) (project : Path) : Report (Option Loaded) := do
  match ← readFile? d (project.child packageFile) with
  | none | some (.error _) => return none
  | some (.ok text) =>
    match ← packageConfig? decode text with
    | none => return none
    | some value =>
      match check value with
      | .ok v => return some ⟨v, packageFile ++ "#" ++ packageSection⟩
      | .error e =>
        .note [.logged s!"Invalid fnmap config in package.json: {e.message}"]
        return none

/-- The first usable configuration among some files, or else in the package
file. -/
def loadFrom (d : Disk) (decode : Decoder) (project : Path) :
    List (String × Format) → Report (Option Loaded)
  | [] => readPackage d decode project
  | (name, format) :: rest => do
    match ← readSettings d decode project name format with
    | .config v => pure (some ⟨v, name⟩)
    | .absent => loadFrom d decode project rest
    | .unusable warning => do
      .note [.logged warning]
      loadFrom d decode project rest

/-- The configuration of a project. -/
def load (d : Disk) (decode : Decoder) (project : Path) : Report (Option Loaded) :=
  loadFrom d decode project sources

end CodeAtlas.Settings
