import CodeAtlas.Analysis.Declarations
import CodeAtlas.Analysis.Exports
import CodeAtlas.Analysis.Imports
/-
  Calls, and uses of imported names.

  Both are ascribed to the nearest callable around them. A scope that is not
  listed as a callable is passed over, so what happens in it is ascribed to
  the next one further out; what happens outside all callables is not
  ascribed.
-/

namespace CodeAtlas.Analysis

open CodeAtlas.Syntax

/-- The callable name of a method: its class must have a name that is not
empty. -/
def methodScope? (c owner : Cursor) : Except Fault (Option String) := do
  match (← classTitle? owner).filter (· ≠ "") with
  | none => return none
  | some name => return some (name ++ "." ++ (← memberName c.focus))

/-- The callable name of a function value: the variable it is bound to, or its
name or the stand-in as a default export. -/
def valueScope? (c : Cursor) : Except Fault (Option String) := do
  match (← boundName? c).filter (· ≠ "") with
  | some name => return some name
  | none =>
    if c.parentIs .exportStatement then some <$> nameOr namelessDefault c.focus else return none

/-- The name of a node as a scope. -/
def scopeLabel? (c : Cursor) : Except Fault (Option String) :=
  if c.kind.isFunctionDeclaration then declaredName? c.focus
  else if c.kind = .methodDefinition ∧ c.parentIs .classBody then
    match c.parent?.bind Cursor.parent? with
    | none => .error .detachedBody
    | some owner => methodScope? c owner
  else if c.kind.isFunctionValue then valueScope? c
  else return none

/-- The nearest scope on a way down whose name is a callable. -/
def scopeOnTrail? (callables : List String) : List Crumb → Except Fault (Option String)
  | [] => .ok none
  | crumb :: rest => do
    match ← scopeLabel? ⟨crumb.parent, rest⟩ with
    | some name =>
      if callables.contains name then return some name else scopeOnTrail? callables rest
    | none => scopeOnTrail? callables rest

/-- The nearest callable around a node. -/
def enclosing? (callables : List String) (c : Cursor) : Except Fault (Option String) :=
  scopeOnTrail? callables c.trail

/-- The name of a member that is called, with the object in front when that is
an imported name. -/
def calledMember (isAlias : String → Bool) (object : Option Node) (property : Node) :
    Except Fault String :=
  match object.filter (·.kind = .identifier) with
  | none => property.text
  | some object => do
    let name ← object.text
    if isAlias name then return name ++ "." ++ (← property.text) else property.text

/-- The name that a call calls. A member of an imported name keeps that name
in front. -/
def calledName? (isAlias : String → Bool) (n : Node) : Except Fault (Option String) :=
  match n.child? .function with
  | none => return none
  | some function =>
    if function.kind = .identifier then some <$> function.text
    else if function.kind ≠ .memberExpression then return none
    else
      match (function.child? .property).filter (·.kind = .propertyIdentifier) with
      | none => return none
      | some property => some <$> calledMember isAlias (function.child? .object) property

/-- Whether an identifier stands where a name is bound, and not used. -/
def bindsName (c : Cursor) : Bool :=
  match c.parent? with
  | none => false
  | some p =>
    match p.kind with
    | .variableDeclarator => c.fills .name
    | .importSpecifier | .importClause | .namespaceImport | .importRequireClause | .pairPattern =>
      true
    | _ => false

/-- The imported name that a node uses. -/
def usedAlias? (isAlias : String → Bool) (c : Cursor) : Except Fault (Option String) :=
  if c.kind = .identifier ∨ c.kind = .shorthandPropertyIdentifier then do
    let name ← c.text
    if isAlias name && !bindsName c then return some name else return none
  else return none

/-- The use of an imported name that a node makes: the name, and the callable
around it. -/
def useAt? (isAlias : String → Bool) (callables : List String) (c : Cursor) :
    Except Fault (Option (String × String)) := do
  match ← usedAlias? isAlias c with
  | none => return none
  | some used =>
    let caller ← enclosing? callables c
    return (caller.filter (· ≠ "")).map fun caller => (used, caller)

/-- Notes one use in the table. -/
def noteUse (t : Imports) (use : String × String) : Except Fault Imports :=
  match t.noteUser? use.1 use.2 with
  | some t' => .ok t'
  | none => .error .unknownAlias

/-- The table with the uses that some nodes make. -/
def withUses (nodes : List Cursor) (callables : List String) (t : Imports) :
    Except Fault Imports := do
  let uses ← nodes.mapM (useAt? t.aliases.contains callables)
  (uses.filterMap id).foldlM noteUse t

/-- Whether a callee is known: declared in the file, or a member of an
imported name. -/
def isKnownCallee (isAlias : String → Bool) (declared : List String) (callee : String) : Bool :=
  declared.contains callee || isAlias (String.ofList (callee.toList.takeWhile (· ≠ '.')))

/-- The call that a node makes: the caller and the callee. A call of a
callable to itself is left out. -/
def callAt? (isAlias : String → Bool) (declared callables : List String) (c : Cursor) :
    Except Fault (Option (String × String)) :=
  if c.kind ≠ .callExpression then return none
  else do
    match ← calledName? isAlias c.focus with
    | none => return none
    | some callee =>
      match ← enclosing? callables c with
      | none => return none
      | some caller =>
        if caller ≠ "" ∧ caller ≠ callee ∧ isKnownCallee isAlias declared callee then
          return some (caller, callee)
        else return none

/-- Notes one call. -/
def addCall (calls : Table String (List String)) (call : String × String) :
    Table String (List String) :=
  calls.alter call.1 fun old => insertNew (old.getD []) call.2

/-- The calls that some nodes make, by caller. -/
def callTable (nodes : List Cursor) (isAlias : String → Bool) (declared callables : List String) :
    Except Fault (Table String (List String)) := do
  let calls ← nodes.mapM (callAt? isAlias declared callables)
  return (calls.filterMap id).foldl addCall .empty

end CodeAtlas.Analysis
