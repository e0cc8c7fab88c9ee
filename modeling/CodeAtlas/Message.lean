/-
  Messages with their context.

  A problem is told in one message, followed by the file, the place and a
  suggestion, each on an indented line of its own and only where it is known.
-/

namespace CodeAtlas

/-- What kind of problem a file or its configuration has. -/
inductive Problem where
  | fileNotFound
  | fileUnreadable
  | syntaxError
  | badSettings
  | notValid
  | fileTooLarge
  deriving DecidableEq, Repr

/-- The code under which a problem is reported. -/
def Problem.code : Problem → String
  | fileNotFound => "FILE_NOT_FOUND"
  | fileUnreadable => "FILE_READ_ERROR"
  | syntaxError => "PARSE_ERROR"
  | badSettings => "CONFIG_ERROR"
  | notValid => "VALIDATION_ERROR"
  | fileTooLarge => "FILE_TOO_LARGE"

/-- A line of context, unless there is nothing to say. -/
def contextLine (title : String) : Option String → List String
  | none => []
  | some text => if text = "" then [] else [title ++ text]

/-- A message with its context. A place is told only when line and column are
both known. -/
def explain (message : String) (file : Option String) (line column : Option Int)
    (suggestion : Option String) : String :=
  let place :=
    match line, column with
    | some l, some c => [s!"Location: Line {l}, Column {c}"]
    | _, _ => []
  "\n  ".intercalate
    (message :: contextLine "File: " file ++ place ++ contextLine "Suggestion: " suggestion)

end CodeAtlas
