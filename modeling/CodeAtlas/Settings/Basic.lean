import CodeAtlas.Settings.Globs
import CodeAtlas.Settings.Value
/-
  The settings of a project.

  A configuration object is checked only in its outer shape (`check`), so the
  patterns and names in it can still be of any kind. What needs them to be
  text says so when it meets something else.
-/

namespace CodeAtlas

open CodeAtlas.Text

/-- The settings of a project: whether it is to be indexed, which files, and
which directories are passed over. -/
structure Settings where
  enable : Value
  patterns : List Value
  skipped : List Value

/-- What is wrong with the shape of a configuration. -/
inductive ShapeError where
  | notObject
  | enableNotBoolean
  | notArray (key : String)
  deriving DecidableEq, Repr

/-- The wording of a shape error. -/
def ShapeError.message : ShapeError → String
  | notObject => "Config must be an object"
  | enableNotBoolean => "Config.enable must be a boolean"
  | notArray key => s!"Config.{key} must be an array"

namespace Settings

/-- The directories that are always passed over. -/
def alwaysSkipped : List String :=
  ["node_modules", ".git", "dist", "build", ".next", "coverage", "__pycache__", ".cache"]

/-- The patterns of a project that gives none. -/
def defaultPatterns : List String := ["**/*.js", "**/*.ts", "**/*.jsx", "**/*.tsx", "**/*.mjs"]

/-- The settings of a project that gives none. -/
def default : Settings := ⟨.bool true, defaultPatterns.map .text, []⟩

/-- Whether a value is absent or an array. -/
def isArrayOrAbsent : Option Value → Bool
  | none | some (.array _) => true
  | _ => false

/-- Whether a value is absent or a boolean. -/
def isBoolOrAbsent : Option Value → Bool
  | none | some (.bool _) => true
  | _ => false

/-- Checks the outer shape of a configuration. -/
def check (raw : Value) : Except ShapeError Value :=
  match raw with
  | .object _ =>
    if !isBoolOrAbsent (raw.get? "enable") then .error .enableNotBoolean
    else if !isArrayOrAbsent (raw.get? "include") then .error (.notArray "include")
    else if !isArrayOrAbsent (raw.get? "exclude") then .error (.notArray "exclude")
    else .ok raw
  | _ => .error .notObject

/-- The settings that a configuration gives; `none` when a list in it has no
parts. -/
def ofConfig? (config : Value) : Option Settings :=
  if !config.isSet then some default
  else do
    let patterns ← ((config.get? "include").getD (.array default.patterns)).items?
    let skipped ← ((config.get? "exclude").getD (.array [])).items?
    return ⟨(config.get? "enable").getD default.enable, patterns, skipped⟩

/-- Whether a value is a name that is passed over anyway. -/
def isAlwaysSkipped (v : Value) : Bool := v.text?.any fun s => alwaysSkipped.contains s

/-- The names of directories that are passed over. -/
def skippedNames (s : Settings) : List Value :=
  alwaysSkipped.map .text ++ s.skipped.filter (!isAlwaysSkipped ·)

/-- The code points of a value that is a text. -/
def points? : Value → Option Points
  | .string s => some s
  | _ => none

/-- The directories of some patterns; `none` when a pattern is not text. -/
def directories? (patterns : List Value) : Option (List Points) :=
  (patterns.mapM points?).map Globs.directories

/-- The names among the values by which a directory is passed over; `none`
when one of the values is a container. A text with half of a pair is the name
of no directory. -/
def namesOf? (values : List Value) : Option (List String) :=
  if values.any Value.isContainer then none else some (values.filterMap Value.text?)

end Settings

end CodeAtlas
