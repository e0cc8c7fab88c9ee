import CodeAtlas.Analysis.Naming
/-
  The exports of a file.

  Only statements at the top of the file count. A statement exports either the
  names of its clause, or a default, or the names that its declaration makes.
-/

namespace CodeAtlas.Analysis

open CodeAtlas.Syntax

/-- The export of one name in braces. -/
def specifierExport (allTypes : Bool) (line : Int) (n : Node) : Except Fault ExportEntry :=
  match n.child? .name with
  | none => .error .namelessSpecifier
  | some name => do
    let localName ← name.nameText
    let exported ←
      match n.child? .renamed with
      | some other => other.nameText
      | none => pure localName
    return {
      name := exported
      kind := if allTypes || n.holdsToken [.type] then .type else .value
      localName := if localName = exported then none else some localName
      line }

/-- What a default export is called inside the file. -/
def defaultInnerName? (n : Node) : Except Fault (Option String) :=
  match (n.child? .declaration).filter fun d =>
      d.kind.isFunctionDeclaration || d.kind.isClassDeclaration with
  | some declaration => declaredName? declaration
  | none =>
    match n.child? .value with
    | none => return none
    | some value =>
      if value.kind = .identifier then some <$> value.text
      else if value.kind.isFunctionValue || value.kind = .classExpression then declaredName? value
      else return none

/-- The names of the plain variables of a declaration. -/
def variableNames (n : Node) : Except Fault (List String) :=
  ((n.namedChildren.filter (·.kind = .variableDeclarator)).filterMap fun d =>
    (d.child? .name).filter (·.kind = .identifier)).mapM SyntaxTree.text

/-- The names that an exported declaration makes, and their kind. -/
def declarationExports (n : Node) : Except Fault (List (String × ExportForm)) :=
  if n.kind.isFunctionDeclaration || n.kind.isClassDeclaration || n.kind = .enumDeclaration then do
    return ((← declaredName? n).map fun name => (name, .value)).toList
  else if n.kind.isVariableDeclaration then do
    return (← variableNames n).map fun name => (name, .value)
  else if n.kind.isTypeDeclaration then do
    return ((← declaredName? n).map fun name => (name, .type)).toList
  else return []

/-- The exports of one statement. -/
def statementExports (n : Node) : Except Fault (List ExportEntry) :=
  let line : Int := n.startLine
  match n.firstOfKind? .exportClause with
  | some clause =>
    (clause.namedChildren.filter (·.kind = .exportSpecifier)).mapM
      (specifierExport (n.holdsToken [.type]) line)
  | none =>
    if n.holdsToken [.default] then do
      return [⟨"default", .default, ← defaultInnerName? n, line⟩]
    else
      match n.child? .declaration with
      | none => return []
      | some d => do
        return (← declarationExports d).map fun (name, kind) => ⟨name, kind, none, line⟩

/-- The exports of a file. -/
def exportsOf (root : Node) : Except Fault (List ExportEntry) := do
  let parts ← (root.namedChildren.filter (·.kind = .exportStatement)).mapM statementExports
  return parts.flatten

end CodeAtlas.Analysis
