import CodeAtlas.Table
/-
  Outlines: what one source file holds.

  An outline is the result of analysing a file and the input of everything
  that is written: the index, the diagrams and the banner. Line numbers count
  from one; they are integers because an outline may also come from elsewhere.
-/

namespace CodeAtlas

/-- What kind of member a method is. -/
inductive MemberKind where
  | constructor
  | method
  | getter
  | setter
  deriving DecidableEq, Repr

/-- What an export gives to other files. -/
inductive ExportForm where
  | value
  | type
  | default
  deriving DecidableEq, Repr

/-- A module that the file imports: the members it takes, and the callables
that use one of its local names. -/
structure ImportEntry where
  module : String
  members : List String := []
  usedIn : List String := []
  deriving DecidableEq, Repr

/-- A function with its parameters and its first and last line. -/
structure FunctionEntry where
  name : String
  params : String
  startLine : Int
  endLine : Int
  description : String := ""
  deriving DecidableEq, Repr

/-- A method of a class. -/
structure MethodEntry where
  name : String
  params : String
  line : Int
  isStatic : Bool := false
  kind : MemberKind := .method
  description : String := ""
  deriving DecidableEq, Repr

/-- A class with its methods. -/
structure ClassEntry where
  name : String
  startLine : Int
  endLine : Int
  baseClass : Option String := none
  description : String := ""
  methods : List MethodEntry := []
  deriving DecidableEq, Repr

/-- A constant at the top of the file. -/
structure ConstantEntry where
  name : String
  line : Int
  description : String := ""
  deriving DecidableEq, Repr

/-- A name that the file exports; `localName` is what it is called inside,
where that differs or where the export has no name of its own. -/
structure ExportEntry where
  name : String
  kind : ExportForm := .value
  localName : Option String := none
  line : Int := 0
  deriving DecidableEq, Repr

/-- What one source file holds. `calls` gives for each caller the callees that
it calls, both in the order in which they were first seen. -/
structure Outline where
  description : String := ""
  imports : List ImportEntry := []
  functions : List FunctionEntry := []
  classes : List ClassEntry := []
  constants : List ConstantEntry := []
  exports : List ExportEntry := []
  calls : Table String (List String) := .empty
  /-- Nothing in the file has an effect when it runs. -/
  typesOnly : Bool := false
  deriving DecidableEq, Repr

/-- An outline and the path of its file. -/
structure FileOutline where
  path : String
  outline : Outline
  deriving DecidableEq, Repr

/-- The full name of a method: its class, a dot and its own name. -/
def ClassEntry.qualify (c : ClassEntry) (m : MethodEntry) : String := c.name ++ "." ++ m.name

/-- The word for an accessor, with a colon, and nothing for other methods. -/
def MemberKind.accessor : MemberKind → String
  | getter => "get:"
  | setter => "set:"
  | _ => ""

namespace Outline

/-- The names that a call can be made from: functions, and methods with their
class. Each is listed once, at its first place. -/
def callables (o : Outline) : List String :=
  distinct (o.functions.map (·.name)
    ++ o.classes.flatMap fun c => c.methods.map c.qualify)

/-- The callees of a caller. -/
def calleesOf (o : Outline) (caller : String) : List String := (o.calls.get? caller).getD []

end Outline

end CodeAtlas
