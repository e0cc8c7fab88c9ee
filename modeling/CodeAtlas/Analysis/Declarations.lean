import CodeAtlas.Analysis.Naming
import CodeAtlas.Analysis.Parameters
import CodeAtlas.Analysis.Description
/-
  The functions, classes and constants of a file.

  Each node gives the declarations it makes (`declarationsAt`). They are kept
  by name: a later declaration of a name replaces the earlier one at its
  place. Of a declaration the name is read first, then its description, then
  its parameters or members; only where one statement makes several, its
  description comes before their names.
-/

namespace CodeAtlas.Analysis

open CodeAtlas.Syntax

/-- One declaration. -/
inductive Declaration where
  | function (entry : FunctionEntry)
  | classDef (entry : ClassEntry)
  | constant (entry : ConstantEntry)
  deriving DecidableEq, Repr

/-- The entry of a function whose lines are those of `span`. -/
def functionEntry (name : String) (function span : Node) (description : String) :
    Except Fault FunctionEntry := do
  return ⟨name, ← parameters function, span.startLine, span.endLine, description⟩

/-- The entry of a method. -/
def methodEntry (c : Cursor) : Except Fault MethodEntry := do
  let kind ← memberKind c.focus
  let name ← memberName c.focus
  let params ← parameters c.focus
  let description ← descriptionOf c
  return ⟨name, params, c.focus.startLine, c.focus.holdsToken [.static, .staticGet], kind,
    description⟩

/-- What tells two methods of a class apart: the name, whether it is static,
and whether it is a getter, a setter or neither. -/
def methodKey (m : MethodEntry) : String × Bool × String := (m.name, m.isStatic, m.kind.accessor)

/-- The methods of a class. -/
def methodsOf (c : Cursor) : Except Fault (List MethodEntry) :=
  match c.child? .body with
  | none => return []
  | some body => do
    let entries ← (body.namedChildren.filter (·.kind = .methodDefinition)).mapM methodEntry
    return (Table.ofList (entries.map fun m => (methodKey m, m))).values

/-- The entry of a class whose lines are those of `span`. -/
def classEntry (name : String) (c : Cursor) (span : Node) (description : String) :
    Except Fault ClassEntry := do
  let baseClass ← baseName? c.focus
  let methods ← methodsOf c
  return { name, startLine := span.startLine, endLine := span.endLine, baseClass, description,
           methods }

/-- A function as the only declaration. -/
def oneFunction (name : String) (function span : Node) (description : String) :
    Except Fault (List Declaration) := do
  return [.function (← functionEntry name function span description)]

/-- A class as the only declaration. -/
def oneClass (name : String) (c : Cursor) (span : Node) (description : String) :
    Except Fault (List Declaration) := do
  return [.classDef (← classEntry name c span description)]

/-- The name of a node, or what stands for it. -/
def nameOr (standIn : String) (n : Node) : Except Fault String := do
  return (← declaredName? n).getD standIn

/-- The declaration of a function by a statement. -/
def functionStatement (c : Cursor) : Except Fault (List Declaration) :=
  if standsAsDefault c then return []
  else do
    let name ← nameOr nameless c.focus
    oneFunction name c.focus c.focus (← descriptionOf c)

/-- The declaration of a class by a statement. -/
def classStatement (c : Cursor) : Except Fault (List Declaration) :=
  if standsAsDefault c then return []
  else do
    let name ← nameOr nameless c.focus
    oneClass name c c.focus (← descriptionOf c)

/-- A function that is a member of an object. -/
def memberFunction (container : String) (c : Cursor) : Except Fault (List Declaration) :=
  match c.kind with
  | .methodDefinition => do
    let name ← memberName c.focus
    oneFunction (container ++ "." ++ name) c.focus c.focus (← descriptionOf c)
  | .pair =>
    match (c.focus.child? .value).filter (·.kind.isFunctionValue),
        (c.focus.child? .key).filter (·.kind = .propertyIdentifier) with
    | some value, some key => do
      let name ← key.text
      oneFunction (container ++ "." ++ name) value c.focus (← descriptionOf c)
    | _, _ => return []
  | _ => return []

/-- The functions that are members of an object. -/
def objectFunctions (container : String) (c : Cursor) : Except Fault (List Declaration) :=
  if c.kind = .object then do
    return (← c.namedChildren.mapM (memberFunction container)).flatten
  else return []

/-- A constant as the only declaration, under `const`. Loading a module declares
none. -/
def constantOf (isConst : Bool) (entry : ConstantEntry) (value : Option Node) :
    Except Fault (List Declaration) :=
  if !isConst then return []
  else
    match value with
    | none => return [.constant entry]
    | some value => do if ← loadsModule value then return [] else return [.constant entry]

/-- What a variable declares: a function, a class, or the functions of an
object and, under `const`, a constant. -/
def bindingDeclarations (isConst : Bool) (span : Node) (description : String) (c : Cursor) :
    Except Fault (List Declaration) :=
  match (c.focus.child? .name).filter (·.kind = .identifier) with
  | none => return []
  | some target => do
    let name ← target.text
    let constant : ConstantEntry := ⟨name, span.startLine, description⟩
    match c.child? .value with
    | none => constantOf isConst constant none
    | some value =>
      if value.kind.isFunctionValue then oneFunction name value.focus span description
      else if value.kind = .classExpression then oneClass name value span description
      else
        let functions ← objectFunctions name value
        return functions ++ (← constantOf isConst constant (some value.focus))

/-- The declarations of a list of variables at the top of the file. -/
def variableStatement (c : Cursor) : Except Fault (List Declaration) :=
  if c.parentIs .program || c.parentIs .exportStatement then do
    let description ← descriptionOf c
    let parts ← (c.namedChildren.filter (·.kind = .variableDeclarator)).mapM
      (bindingDeclarations (c.focus.holdsToken [.const]) c.focus description)
    return parts.flatten
  else return []

/-- What an export statement exports by default. -/
def defaultTarget? (c : Cursor) : Option Cursor :=
  if c.focus.holdsToken [.default] then (c.child? .declaration).or (c.child? .value) else none

/-- The declaration of a default export. -/
def exportStatement (c : Cursor) : Except Fault (List Declaration) :=
  match defaultTarget? c with
  | none => return []
  | some target => do
    let description ← descriptionOf c
    if target.kind.isFunctionDeclaration || target.kind.isFunctionValue then
      oneFunction (← nameOr namelessDefault target.focus) target.focus c.focus description
    else if target.kind.isClassDeclaration || target.kind = .classExpression then
      oneClass (← nameOr namelessDefault target.focus) target c.focus description
    else return []

/-- Whether an expression is `exports` or `module.exports`. -/
def isExportsObject (n : Node) : Except Fault Bool := do
  if ← isWord "exports" n then return true else isExportsMember n

/-- What an assignment to `module.exports` declares. -/
def exportsDeclarations (statement assignment right : Cursor) : Except Fault (List Declaration) :=
  if right.kind.isFunctionValue then do
    let name ← nameOr namelessExports right.focus
    oneFunction name right.focus assignment.focus (← descriptionOf statement)
  else if right.kind = .classExpression then do
    let name := ((← classTitle? right).filter (· ≠ "")).getD namelessExports
    oneClass name right assignment.focus (← descriptionOf statement)
  else return []

/-- What an assignment declares: the value of `module.exports`, or a function
that is a member of the exports. -/
def assignmentDeclarations (statement assignment right : Cursor) (left : Node) :
    Except Fault (List Declaration) := do
  if ← isExportsMember left then exportsDeclarations statement assignment right
  else if left.kind = .memberExpression ∧ right.kind.isFunctionValue then
    match left.child? .object, (left.child? .property).filter (·.kind = .propertyIdentifier) with
    | some object, some property =>
      if ← isExportsObject object then
        let name ← property.text
        oneFunction name right.focus assignment.focus (← descriptionOf statement)
      else return []
    | _, _ => return []
  else return []

/-- The declaration of an expression statement at the top of the file. -/
def expressionStatement (c : Cursor) : Except Fault (List Declaration) :=
  if !c.parentIs .program then return []
  else
    match c.firstOfKind? .assignmentExpression with
    | none => return []
    | some assignment =>
      match assignment.focus.child? .left, assignment.child? .right with
      | some left, some right => assignmentDeclarations c assignment right left
      | _, _ => return []

/-- The declarations that one node makes. -/
def declarationsAt (c : Cursor) : Except Fault (List Declaration) :=
  match c.kind with
  | .functionDeclaration | .generatorFunctionDeclaration => functionStatement c
  | .classDeclaration | .abstractClassDeclaration => classStatement c
  | .lexicalDeclaration | .variableDeclaration => variableStatement c
  | .exportStatement => exportStatement c
  | .expressionStatement => expressionStatement c
  | _ => return []

/-- The declarations of a source, by name. -/
structure Inventory where
  functions : Table String FunctionEntry := .empty
  classes : Table String ClassEntry := .empty
  constants : Table String ConstantEntry := .empty

namespace Inventory

/-- Puts a declaration into its table. -/
def add (ds : Inventory) : Declaration → Inventory
  | .function f => { ds with functions := ds.functions.insert f.name f }
  | .classDef c => { ds with classes := ds.classes.insert c.name c }
  | .constant k => { ds with constants := ds.constants.insert k.name k }

/-- The declarations of some nodes. -/
def collect (nodes : List Cursor) : Except Fault Inventory := do
  let declarations ← nodes.mapM declarationsAt
  return declarations.flatten.foldl add {}

/-- The names that a call can be ascribed to: functions, and methods with
their class. -/
def callables (ds : Inventory) : List String :=
  ds.functions.keys ++ ds.classes.values.flatMap fun c => c.methods.map c.qualify

/-- The names that a call can go to: functions, methods, and methods with
their class. -/
def declared (ds : Inventory) : List String :=
  ds.functions.keys ++ ds.classes.values.flatMap fun c =>
    c.methods.flatMap fun m => [m.name, c.qualify m]

end Inventory

end CodeAtlas.Analysis
