import CodeAtlas.Analysis.Naming
import CodeAtlas.Imports
/-
  The imports of a file.

  Three shapes bring in another module: an import statement, a variable whose
  value is a call of `require`, and a member taken from such a call. Each node
  gives the steps it adds; the table is built from the steps of all nodes, in
  document order. A shape that is not known gives no step.
-/

namespace CodeAtlas.Analysis

open CodeAtlas.Syntax

/-- The imports of one name in braces. -/
def specifierSteps (module : String) (n : Node) : Except Fault (List ImportStep) :=
  match n.child? .name with
  | none => return []
  | some name => do
    let member ← name.nameText
    let localName ←
      match n.child? .renamed with
      | some other => some <$> other.text
      | none => if name.kind = .identifier then some <$> name.text else pure none
    return [⟨module, some member, localName⟩]

/-- The imports of one part of an import clause: a default, a namespace or
names in braces. -/
def clausePartSteps (module : String) (n : Node) : Except Fault (List ImportStep) :=
  match n.kind with
  | .identifier => do return [⟨module, some "default", some (← n.text)⟩]
  | .namespaceImport =>
    match n.firstOfKind? .identifier with
    | some name => do return [⟨module, some "*", some (← name.text)⟩]
    | none => return []
  | .namedImports => do
    let parts ← (n.namedChildren.filter (·.kind = .importSpecifier)).mapM (specifierSteps module)
    return parts.flatten
  | _ => return []

/-- The module that a node names by a string in its `source`. -/
def sourceModule? (n : Node) : Except Fault (Option String) :=
  match n.child? .source with
  | none => return none
  | some source => source.literalText?

/-- The import of `import x = require('m')`. -/
def requireClauseSteps (n : Node) : Except Fault (List ImportStep) := do
  match ← sourceModule? n, n.firstOfKind? .identifier with
  | some module, some name =>
    let text ← name.text
    return [⟨module, some text, some text⟩]
  | _, _ => return []

/-- The imports of an import clause. -/
def clauseSteps (module : String) (n : Node) : Except Fault (List ImportStep) := do
  return (← n.namedChildren.mapM (clausePartSteps module)).flatten

/-- The imports of an import statement. -/
def statementSteps (n : Node) : Except Fault (List ImportStep) := do
  let source ← sourceModule? n
  match n.firstOfKind? .importRequireClause, source with
  | some clause, _ => requireClauseSteps clause
  | none, none => return []
  | none, some module =>
    let parts ← (n.namedChildren.filter (·.kind = .importClause)).mapM (clauseSteps module)
    return ⟨module, none, none⟩ :: parts.flatten

/-- The imports of one property of a pattern that takes a module apart. -/
def propertySteps (module : String) (n : Node) : Except Fault (List ImportStep) :=
  match n.kind with
  | .shorthandPropertyIdentifierPattern => do
    let text ← n.text
    return [⟨module, some text, some text⟩]
  | .pairPattern =>
    match (n.child? .key).filter (·.kind = .propertyIdentifier) with
    | none => return []
    | some key => do
      let localName ← ((n.child? .value).filter (·.kind = .identifier)).mapM SyntaxTree.text
      return [⟨module, some (← key.text), localName⟩]
  | _ => return []

/-- The imports of a pattern or name that a module is assigned to. -/
def targetSteps (module : String) (target : Node) : Except Fault (List ImportStep) :=
  match target.kind with
  | .identifier => do
    let text ← target.text
    return [⟨module, some text, some text⟩]
  | .objectPattern => do
    let parts ← target.namedChildren.mapM (propertySteps module)
    return ⟨module, none, none⟩ :: parts.flatten
  | _ => return []

/-- The imports of a variable whose value is a call of `require`. -/
def declaratorSteps (n : Node) : Except Fault (List ImportStep) :=
  match n.child? .value with
  | none => return []
  | some value => do
    match ← loadedModule? value, n.child? .name with
    | some module, some target => targetSteps module target
    | _, _ => return []

/-- The member that is taken from what a node gives. -/
def takenMember? (c : Cursor) : Option (Cursor × Node) := do
  let member ← c.parent?
  guard (member.kind = .memberExpression)
  guard (c.fills .object)
  let property ← member.focus.child? .property
  guard (property.kind = .propertyIdentifier)
  return (member, property)

/-- The import of a member of a call of `require`, with the variable that is
bound to it. -/
def loadMemberSteps (c : Cursor) : Except Fault (List ImportStep) := do
  match ← loadedModule? c.focus, takenMember? c with
  | some module, some (member, property) =>
    let localName ← boundName? member
    return [⟨module, some (← property.text), localName⟩]
  | _, _ => return []

/-- The imports that one node adds. -/
def importSteps (c : Cursor) : Except Fault (List ImportStep) :=
  match c.kind with
  | .importStatement => statementSteps c.focus
  | .variableDeclarator => declaratorSteps c.focus
  | .callExpression => loadMemberSteps c
  | _ => return []

/-- The table of the imports of some nodes, before any use is noted. -/
def importsIn (nodes : List Cursor) : Except Fault Imports := do
  let steps ← nodes.mapM importSteps
  return steps.flatten.foldl Imports.add .empty

end CodeAtlas.Analysis
