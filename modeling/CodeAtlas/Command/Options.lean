/-
  The words of a command line.

  An option can stand anywhere among the words. A long one takes its value
  from the next word or after an equals sign, a short one from the rest of its
  word or from the next; short options without a value can be joined. After
  `--` all words are paths. What a value means is looked at only when all
  words are read, so a version request wins over a value that cannot be used,
  but not over a word that cannot be read.
-/

namespace CodeAtlas.Command

/-- Which diagrams to write. -/
inductive DiagramMode where
  | perFile
  | project
  deriving DecidableEq, Repr

/-- What the words of a command line say, as they stand. -/
structure Words where
  paths : List String := []
  files : Option String := none
  dir : Option String := none
  project : Option String := none
  diagram : Option String := none
  changed : Bool := false
  staged : Bool := false
  log : Bool := false
  clear : Bool := false
  init : Bool := false
  version : Bool := false
  help : Bool := false
  deriving DecidableEq, Repr

/-- An option: a switch, or one that takes a value. -/
inductive Flag where
  | switch (set : Words → Words)
  | valued (set : String → Words → Words)

/-- The options by their long names. -/
def longOption? : String → Option Flag
  | "--files" => some (.valued fun v w => { w with files := some v })
  | "--dir" => some (.valued fun v w => { w with dir := some v })
  | "--project" => some (.valued fun v w => { w with project := some v })
  | "--mermaid" => some (.valued fun v w => { w with diagram := some v })
  | "--changed" => some (.switch fun w => { w with changed := true })
  | "--staged" => some (.switch fun w => { w with staged := true })
  | "--log" => some (.switch fun w => { w with log := true })
  | "--clear" => some (.switch fun w => { w with clear := true })
  | "--init" => some (.switch fun w => { w with init := true })
  | "--version" => some (.switch fun w => { w with version := true })
  | "--help" => some (.switch fun w => { w with help := true })
  | _ => none

/-- The long name of a short option. -/
def longName? : Char → Option String
  | 'f' => some "--files"
  | 'd' => some "--dir"
  | 'p' => some "--project"
  | 'm' => some "--mermaid"
  | 'c' => some "--changed"
  | 's' => some "--staged"
  | 'l' => some "--log"
  | 'v' => some "--version"
  | _ => none

/-- The options by their short names. -/
def shortOption? (c : Char) : Option Flag := (longName? c).bind longOption?

/-- Reads a word of joined short options. The second part of the result is an
option that still needs a value. -/
def readShort? (w : Words) : List Char → Option (Words × Option (String → Words → Words))
  | [] => some (w, none)
  | c :: rest =>
    match shortOption? c with
    | none => none
    | some (.switch set) => readShort? (set w) rest
    | some (.valued set) =>
      if rest = [] then some (w, some set) else some (set (String.ofList rest) w, none)

/-- Reads a word that starts with two dashes, in the same way. -/
def readLong? (w : Words) (word : List Char) : Option (Words × Option (String → Words → Words)) :=
  let name := word.takeWhile (· ≠ '=')
  let value := if name.length = word.length then none else some (word.drop (name.length + 1))
  match longOption? (String.ofList name), value with
  | none, _ => none
  | some (.switch set), none => some (set w, none)
  | some (.switch _), some _ => none
  | some (.valued set), some v => some (set (String.ofList v) w, none)
  | some (.valued set), none => some (w, some set)

/-- Reads a word that starts with a dash, in the same way. -/
def readOption? (w : Words) (word : List Char) : Option (Words × Option (String → Words → Words)) :=
  match word with
  | '-' :: '-' :: _ => readLong? w word
  | _ :: flags => readShort? w flags
  | [] => none

/-- Whether a word is an option: it starts with a dash and is not only that. -/
def isOption (word : String) : Bool :=
  match word.toList with
  | '-' :: _ :: _ => true
  | _ => false

/-- Reads the words of a command line; `none` when a word is no option or a
value is missing. -/
def readWords? (w : Words) : List String → Option Words
  | [] => some w
  | word :: rest =>
    if word = "--" then some { w with paths := w.paths ++ rest }
    else if isOption word then
      match readOption? w word.toList with
      | none => none
      | some (w', none) => readWords? w' rest
      | some (w', some set) =>
        match rest with
        | [] => none
        | value :: rest => readWords? (set value w') rest
    else readWords? { w with paths := w.paths ++ [word] } rest

/-- The diagrams that a value asks for; `none` when it asks for nothing
known. -/
def DiagramMode.read? : String → Option DiagramMode
  | "file" => some .perFile
  | "project" => some .project
  | _ => none

end CodeAtlas.Command
