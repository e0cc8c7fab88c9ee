import CodeAtlas.Syntax.Tree
/-
  Files that hold types only.

  A file holds types only when none of its statements has an effect when it
  runs: types, interfaces, enumerations and ambient declarations, and imports
  and exports of types.
-/

namespace CodeAtlas.Analysis

open CodeAtlas.Syntax

/-- Whether an import brings in types only. -/
def isTypeImport (n : Node) : Bool :=
  n.holdsToken [.type] ||
    match n.firstOfKind? .importClause with
    | none => false
    | some clause =>
      clause.namedChildren.all fun part =>
        part.kind = .namedImports &&
          part.namedChildren.all fun s => s.kind ≠ .importSpecifier || s.holdsToken [.type]

/-- Whether an export gives out types only. -/
def isTypeExport (n : Node) : Bool :=
  if n.holdsToken [.default] then false
  else if n.holdsToken [.type] then true
  else
    match n.child? .declaration with
    | some d => d.kind.isTypeDeclaration
    | none =>
      match n.firstOfKind? .exportClause with
      | none => false
      | some clause =>
        clause.namedChildren.all fun s => s.kind ≠ .exportSpecifier || s.holdsToken [.type]

/-- Whether a statement has no effect when it runs. -/
def isTypeStatement (n : Node) : Bool :=
  match n.kind with
  | .typeAliasDeclaration | .interfaceDeclaration | .enumDeclaration | .ambientDeclaration => true
  | .importStatement => isTypeImport n
  | .exportStatement => isTypeExport n
  | _ => false

/-- Whether a file holds types only; comments do not count. -/
def holdsTypesOnly (root : Node) : Bool :=
  root.namedChildren.all fun n => n.kind = .comment || isTypeStatement n

end CodeAtlas.Analysis
