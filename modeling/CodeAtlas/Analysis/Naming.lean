import CodeAtlas.Syntax.Cursor
import CodeAtlas.Outline
/-
  Names that a file gives to its functions, classes and methods.

  The same names are used when declarations are listed and when a call is
  ascribed to the callable around it, so both read them from here. A name in
  brackets stands for a declaration that has none. Texts are read only as far as
  an answer needs them.
-/

namespace CodeAtlas.Analysis

open CodeAtlas.Syntax

/-- Stands for the nameless default export. -/
def namelessDefault : String := "[default]"

/-- Stands for the nameless value of `module.exports`. -/
def namelessExports : String := "[exports]"

/-- Stands for a declaration without a name. -/
def nameless : String := "[anonymous]"

/-- Stands for a member whose name is computed or quoted. -/
def computedKey : String := "[computed]"

/-- The text of the name of a node. -/
def declaredName? (n : Node) : Except Fault (Option String) :=
  (n.child? .name).mapM SyntaxTree.text

/-- The first argument of a call. -/
def firstArgument? (n : Node) : Option Node := do
  let arguments ← n.child? .arguments
  guard (arguments.kind = .arguments)
  arguments.namedChildren.find? fun a => a.kind ≠ .comment

/-- Whether a node is the name `word`. -/
def isWord (word : String) (n : Node) : Except Fault Bool :=
  if n.kind = .identifier then do return (← n.text) = word else return false

/-- The module that a call `require('m')` loads. -/
def loadedModule? (n : Node) : Except Fault (Option String) := do
  let callee := if n.kind = .callExpression then n.child? .function else none
  match callee with
  | none => return none
  | some callee =>
    if !(← isWord "require" callee) then return none
    match firstArgument? n with
    | none => return none
    | some argument => argument.literalText?

/-- Whether a value is `require('m')` or a member of it. -/
def loadsModule (n : Node) : Except Fault Bool := do
  let call := if n.kind = .memberExpression then n.child? .object else some n
  match call with
  | none => return false
  | some call => return (← loadedModule? call).isSome

/-- Whether an expression is `module.exports`. -/
def isExportsMember (n : Node) : Except Fault Bool :=
  match n.child? .object, n.child? .property with
  | some object, some property => do
    if n.kind ≠ .memberExpression then return false
    if !(← isWord "module" object) then return false
    return (← property.text) = "exports"
  | _, _ => return false

/-- Whether the node stands in `export default`. -/
def standsAsDefault (c : Cursor) : Bool :=
  match c.parent? with
  | some p => p.kind = .exportStatement && p.focus.holdsToken [.default]
  | none => false

/-- The variable whose declaration has this very node as its value. -/
def binding? (c : Cursor) : Option Node := do
  let declarator ← c.parent?
  guard (declarator.kind = .variableDeclarator)
  guard (c.fills .value)
  let target ← declarator.focus.child? .name
  guard (target.kind = .identifier)
  return target

/-- The name of the variable that is declared with this very node as its
value. -/
def boundName? (c : Cursor) : Except Fault (Option String) := (binding? c).mapM SyntaxTree.text

/-- The variable that a class expression is bound to, if its name is not
empty. -/
def boundClassTitle? (c : Cursor) : Except Fault (Option String) :=
  if c.kind = .classExpression then do return (← boundName? c).filter (· ≠ "") else return none

/-- The name of a class that has no name of its own, from where it stands. -/
def placedClassTitle? (c : Cursor) : Except Fault (Option String) :=
  match c.parent? with
  | none => return none
  | some p =>
    if p.kind = .exportStatement then return some namelessDefault
    else if p.kind = .assignmentExpression then
      match p.focus.child? .left with
      | none => return none
      | some left => do if ← isExportsMember left then return some namelessExports else return none
    else return none

/-- The name under which a class is listed: the variable it is bound to, its
own name, or one from where it stands. -/
def classTitle? (c : Cursor) : Except Fault (Option String) := do
  match ← boundClassTitle? c with
  | some name => return some name
  | none =>
    match ← declaredName? c.focus with
    | some name => return some name
    | none => placedClassTitle? c

/-- The name of a method. -/
def memberName (n : Node) : Except Fault String :=
  match n.child? .name with
  | some name =>
    if name.kind = .propertyIdentifier ∨ name.kind = .privatePropertyIdentifier then name.text
    else return computedKey
  | none => return computedKey

/-- The kind of a method. A static method is never the constructor. -/
def memberKind (n : Node) : Except Fault MemberKind :=
  if n.holdsToken [.get] then return .getter
  else if n.holdsToken [.set] then return .setter
  else if n.holdsToken [.static] then return .method
  else do return if (← memberName n) = "constructor" then .constructor else .method

/-- The expression that a class extends, before its members are taken off. -/
def heritage? : List Node → Option Node
  | [] => none
  | n :: rest =>
    if n.kind = .extendsClause then n.child? .value
    else if n.kind = .implementsClause ∨ n.kind = .comment then heritage? rest
    else some n

mutual

/-- The innermost object of a chain of members. -/
def chainRoot? : Node → Option Node
  | .node l e cs =>
    if l.kind = .memberExpression then chainRootIn? cs else some (.node l e cs)

/-- The innermost object of the first of some nodes that is an object. -/
def chainRootIn? : List Node → Option Node
  | [] => none
  | t :: ts => if t.field = some .object then chainRoot? t else chainRootIn? ts

end

/-- The node of the name that a class extends; of `a.b.C` it is `a`. -/
def base? (n : Node) : Option Node := do
  let clause ← n.firstOfKind? .classHeritage
  let expression ← heritage? clause.namedChildren
  let base ← chainRoot? expression
  guard (base.kind = .identifier)
  return base

/-- The name that a class extends. -/
def baseName? (n : Node) : Except Fault (Option String) := (base? n).mapM SyntaxTree.text

end CodeAtlas.Analysis
