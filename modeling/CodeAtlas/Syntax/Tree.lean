import CodeAtlas.Syntax.Kind
import CodeAtlas.Text.Utf8
/-
  Syntax trees.

  A tree carries a label and an extent at every node. The parser gives an
  extent as a range of bytes (`Span`); once a source is at hand the extent is
  the text itself with its two positions (`Extent`), and the tree is a `Node`,
  which is what every pass over a file reads.

  A range of bytes need not be text: it can begin or end inside a character.
  That is a fault only when the text is asked for, so reading a text can fail,
  and every pass that reads texts fails with the first one that it meets.
-/

namespace CodeAtlas.Syntax

/-- What the parser says of one node, its extent apart. -/
structure Label where
  kind : Kind
  /-- A construct of the grammar, and not a bare token. -/
  named : Bool
  /-- Text that the parser could not place. -/
  isError : Bool
  /-- A token that the parser put in because it was missing. -/
  isMissing : Bool
  /-- An error lies in this node or below it. -/
  hasError : Bool
  /-- The field of the parent that this node fills. -/
  field : Option Field
  deriving DecidableEq, Repr

/-- A range of bytes: from `start` up to and without `stop`. -/
structure Span where
  start : Nat
  stop : Nat
  deriving DecidableEq, Repr

/-- A place in a source: full lines before it, and bytes since the last line
feed. -/
structure Position where
  row : Nat
  column : Nat
  deriving DecidableEq, Repr

/-- The text of a node, unless its bytes are none, and where it starts and
ends. -/
structure Extent where
  text : Except Text.Utf8.Fault String
  start : Position
  stop : Position

/-- What a tree can lack although the parser found no error in it. -/
inductive Fault where
  /-- A node begins or ends inside a character. -/
  | brokenText (fault : Text.Utf8.Fault)
  /-- An exported name without a name. -/
  | namelessSpecifier
  /-- A class body that no class holds. -/
  | detachedBody
  /-- A local name that is not in the table of imports. -/
  | unknownAlias
  deriving DecidableEq, Repr

/-- A labelled tree with an extent of type `α` at every node. -/
inductive SyntaxTree (α : Type) where
  | node (label : Label) (extent : α) (children : List (SyntaxTree α))

/-- A syntax tree together with its source text. -/
abbrev Node := SyntaxTree Extent

namespace SyntaxTree

variable {α β : Type}

/-- The label at the top. -/
def label : SyntaxTree α → Label
  | node l _ _ => l

/-- The extent at the top. -/
def extent : SyntaxTree α → α
  | node _ e _ => e

/-- The children, tokens included, in document order. -/
def children : SyntaxTree α → List (SyntaxTree α)
  | node _ _ cs => cs

instance [Inhabited α] : Inhabited (SyntaxTree α) :=
  ⟨node ⟨.program, true, false, false, false, none⟩ default []⟩

/-- The kind of the top node. -/
def kind (t : SyntaxTree α) : Kind := t.label.kind

/-- Whether the top node is a construct and not a bare token. -/
def named (t : SyntaxTree α) : Bool := t.label.named

/-- The field that the top node fills in its parent. -/
def field (t : SyntaxTree α) : Option Field := t.label.field

/-- The children that are constructs. -/
def namedChildren (t : SyntaxTree α) : List (SyntaxTree α) := t.children.filter named

/-- The first child that fills a field. -/
def child? (t : SyntaxTree α) (f : Field) : Option (SyntaxTree α) :=
  t.children.find? fun c => c.field = some f

/-- The place among the children of the first one that fills a field. -/
def childIndex? (t : SyntaxTree α) (f : Field) : Option Nat :=
  t.children.findIdx? fun c => c.field = some f

/-- The first construct of a kind among the children. -/
def firstOfKind? (t : SyntaxTree α) (k : Kind) : Option (SyntaxTree α) :=
  t.namedChildren.find? fun c => c.kind = k

/-- Whether one of these tokens stands among the children. -/
def holdsToken (t : SyntaxTree α) (tokens : List Kind) : Bool :=
  t.children.any fun c => !c.named && tokens.contains c.kind

mutual

/-- The number of nodes. -/
def size : SyntaxTree α → Nat
  | node _ _ cs => sizeAll cs + 1

/-- The number of nodes of several trees. -/
def sizeAll : List (SyntaxTree α) → Nat
  | [] => 0
  | t :: ts => size t + sizeAll ts

end

mutual

/-- All subtrees, each before those below it, in document order. -/
def preorder : SyntaxTree α → List (SyntaxTree α)
  | node l e cs => node l e cs :: preorderAll cs

/-- All subtrees of several trees. -/
def preorderAll : List (SyntaxTree α) → List (SyntaxTree α)
  | [] => []
  | t :: ts => preorder t ++ preorderAll ts

end

mutual

/-- The tree with every extent replaced. -/
def map (f : α → β) : SyntaxTree α → SyntaxTree β
  | node l e cs => node l (f e) (mapAll f cs)

/-- Several trees with every extent replaced. -/
def mapAll (f : α → β) : List (SyntaxTree α) → List (SyntaxTree β)
  | [] => []
  | t :: ts => map f t :: mapAll f ts

end

/-! ## Trees in flat form -/

/-- One node of a tree that is written as a list in document order: its label
and extent, and how many of the trees that follow are its children. -/
structure Row (α : Type) where
  label : Label
  extent : α
  childCount : Nat

/-- Puts a row on top of the trees that follow it. -/
def consRow (row : Row α) (following : List (SyntaxTree α)) : Option (List (SyntaxTree α)) :=
  if row.childCount ≤ following.length then
    some (node row.label row.extent (following.take row.childCount)
      :: following.drop row.childCount)
  else none

/-- The tree that a list of rows describes. -/
def ofRows? (rows : List (Row α)) : Option (SyntaxTree α) := do
  match ← rows.foldr (fun r ts => ts >>= consRow r) (some []) with
  | [t] => some t
  | _ => none

theorem size_eq (t : SyntaxTree α) : t.size = sizeAll t.children + 1 := by
  cases t; simp [size, children]

theorem sizeAll_append (ts us : List (SyntaxTree α)) :
    sizeAll (ts ++ us) = sizeAll ts + sizeAll us := by
  induction ts with
  | nil => simp [sizeAll]
  | cons t ts ih => simp [sizeAll, ih, Nat.add_assoc]

end SyntaxTree

namespace SyntaxTree

/-- The text of a node. -/
def text (n : Node) : Except Fault String := n.extent.text.mapError .brokenText

/-- The first line of a node, counted from one. -/
def startLine (n : Node) : Nat := n.extent.start.row + 1

/-- The last line of a node, counted from one. -/
def endLine (n : Node) : Nat := n.extent.stop.row + 1

/-- A text without its first and last character. -/
def unquote (s : String) : String := String.ofList (s.toList.drop 1).dropLast

/-- What a string literal stands for, its quotes taken off and nothing else
read in it. -/
def literalText? (n : Node) : Except Fault (Option String) :=
  if n.kind = .string then do return some (unquote (← n.text)) else return none

/-- The text of a name: a string literal names what it stands for. -/
def nameText (n : Node) : Except Fault String :=
  if n.kind = .string then do return unquote (← n.text) else n.text

end SyntaxTree

end CodeAtlas.Syntax
