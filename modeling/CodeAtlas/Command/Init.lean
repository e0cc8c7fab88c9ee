import CodeAtlas.Disk.Resolve
import CodeAtlas.Intake
import CodeAtlas.Report
import CodeAtlas.Text.Find
/-
  Setting up a project: a first configuration file, and rules that keep the
  generated files out of version control.
-/

namespace CodeAtlas.Command

/-- The configuration file. -/
def configName : String := ".fnmaprc"

/-- The file with the rules of version control. -/
def ignoreName : String := ".gitignore"

/-- The line that tells the rules apart. -/
def ignoreMark : String := "# fnmap generated files"

/-- The rules for generated files. -/
def ignoreRules : String :=
  "\n".intercalate [ignoreMark, ".fnmap", "*.fnmap", "*.mermaid", ".fnmap.mermaid"] ++ "\n"

/-- The patterns of a first configuration. -/
def initPatterns : List String := ["src/**/*.js", "src/**/*.ts", "src/**/*.jsx", "src/**/*.tsx"]

/-- The names that a first configuration passes over. -/
def initSkipped : List String :=
  ["node_modules", "dist", "build", ".next", "coverage", "__pycache__", ".cache"]

/-- An array of texts as a field of a configuration file. -/
def fieldLines (key : String) (items : List String) (ending : String) : List String :=
  let quoted := items.map fun s => "    \"" ++ s ++ "\""
  ["  \"" ++ key ++ "\": ["] ++ [",\n".intercalate quoted] ++ ["  ]" ++ ending]

/-- The text of a first configuration file. -/
def initText : String :=
  "\n".intercalate <|
    ["\x7b", "  \"enable\": true,"] ++ fieldLines "include" initPatterns ","
      ++ fieldLines "exclude" initSkipped "" ++ ["\x7d"]

/-- Writes a file, or ends the run. -/
def writeOrCrash (d : Disk) (path : Path) (text : String) : Report Disk :=
  match d.write path (.text text) with
  | .ok d' => pure d'
  | .error t => .crash (.trouble t)

/-- Whether a text has rules for generated files already. -/
def hasRules (text : String) : Bool :=
  (Text.breakOn ignoreMark.toList text.toList).isSome
    || (Text.breakOn "*.fnmap".toList text.toList).isSome

/-- Adds the rules to the file of version control. What the file holds is kept
as it is. -/
def addRules (d : Disk) (project : Path) : Report Disk := do
  let path := project.child ignoreName
  match ← .asked (d.find path) with
  | none =>
    let d' ← writeOrCrash d path ignoreRules
    .say .success "Added fnmap rules to .gitignore"
    return d'
  | some _ =>
    let content ← .asked (d.content path)
    match content.decode with
    | .error f => .crash (.badText f)
    | .ok text =>
      if hasRules (String.ofList (Text.newlines text.toList)) then
        .say .warning ".gitignore already contains fnmap rules"
        return d
      else
        let d' ← writeOrCrash d path (text ++ "\n" ++ ignoreRules)
        .say .success "Added fnmap rules to .gitignore"
        return d'

/-- Sets up a project. The configuration file stays also when the rules cannot
be added. -/
def setUp (d : Disk) (project : Path) : Report (Disk × Option Crash) := do
  let path := project.child configName
  if ← .asked (d.pathExists path) then
    .say .warning "Config file already exists: .fnmaprc"
    (addRules d project).attempt d
  else
    match d.write path (.text initText) with
    | .error t => return (d, some (.trouble t))
    | .ok d' =>
      .say .success "Created config file: .fnmaprc"
      (addRules d' project).attempt d'

end CodeAtlas.Command
