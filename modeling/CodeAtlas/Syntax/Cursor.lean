import CodeAtlas.Syntax.Tree
/-
  A node in its place.

  A cursor is a node with the way down to it: for each step, the node stepped
  from and which child was taken. Two occurrences of equal nodes are different
  cursors, so "this very child" is a comparison of places.

  `Cursor.walk` lists a node and all below it with a stack of nodes still to
  visit; `Cursor.preorder` is the listing by recursion on the tree, and
  `walk_eq_flatMap` says that a stack is walked one tree after the other.
-/

namespace CodeAtlas.Syntax

/-- One step down: the node stepped from, and which child was taken. -/
structure Crumb where
  parent : Node
  index : Nat

/-- A node and the way down to it, last step first. -/
structure Cursor where
  focus : Node
  trail : List Crumb

namespace Cursor

/-- The cursor at the top of a tree. -/
def root (n : Node) : Cursor := ⟨n, []⟩

/-- The kind of the node. -/
def kind (c : Cursor) : Kind := c.focus.kind

/-- Whether the node is a construct and not a bare token. -/
def named (c : Cursor) : Bool := c.focus.named

/-- The text of the node. -/
def text (c : Cursor) : Except Fault String := c.focus.text

/-- The node above. -/
def parent? (c : Cursor) : Option Cursor :=
  match c.trail with
  | [] => none
  | crumb :: rest => some ⟨crumb.parent, rest⟩

/-- The child at a place. -/
def childAt? (c : Cursor) (i : Nat) : Option Cursor :=
  c.focus.children[i]?.map fun t => ⟨t, ⟨c.focus, i⟩ :: c.trail⟩

/-- Cursors at some of the children, the first of which is at place `i`. -/
def descend (parent : Node) (trail : List Crumb) (i : Nat) (ts : List Node) : List Cursor :=
  (ts.zipIdx i).map fun (t, j) => ⟨t, ⟨parent, j⟩ :: trail⟩

/-- The children, tokens included. -/
def children (c : Cursor) : List Cursor := descend c.focus c.trail 0 c.focus.children

/-- The children that are constructs. -/
def namedChildren (c : Cursor) : List Cursor := c.children.filter named

/-- The first child that fills a field. -/
def child? (c : Cursor) (f : Field) : Option Cursor :=
  c.children.find? fun d => d.focus.field = some f

/-- The first construct of a kind among the children. -/
def firstOfKind? (c : Cursor) (k : Kind) : Option Cursor :=
  c.namedChildren.find? fun d => d.kind = k

/-- The child of the same parent just before this one, tokens included. -/
def prev? (c : Cursor) : Option Cursor :=
  match c.trail with
  | [] => none
  | crumb :: rest =>
    match crumb.index with
    | 0 => none
    | i + 1 => childAt? ⟨crumb.parent, rest⟩ i

/-- Whether the node above has a kind. -/
def parentIs (c : Cursor) (k : Kind) : Bool :=
  match c.parent? with
  | some p => p.kind = k
  | none => false

/-- Whether this very node is what the node above has in a field. -/
def fills (c : Cursor) (f : Field) : Bool :=
  match c.trail with
  | [] => false
  | crumb :: _ => crumb.parent.childIndex? f = some crumb.index

/-! ## Walking -/

/-- The nodes of several trees together. -/
def sizeOf (stack : List Cursor) : Nat := SyntaxTree.sizeAll (stack.map focus)

theorem map_focus_descend (parent : Node) (trail : List Crumb) (i : Nat) (ts : List Node) :
    (descend parent trail i ts).map focus = ts := by
  induction ts generalizing i with
  | nil => rfl
  | cons t ts ih => simpa [descend] using ih (i + 1)

theorem sizeOf_step (c : Cursor) (rest : List Cursor) :
    sizeOf (c.children ++ rest) < sizeOf (c :: rest) := by
  simp only [sizeOf, children, List.map_append, map_focus_descend, SyntaxTree.sizeAll_append,
    List.map_cons, SyntaxTree.sizeAll, SyntaxTree.size_eq]
  omega

/-- All nodes under a stack of nodes: the top one, then those that remain once
its children have taken its place. -/
def walk : List Cursor → List Cursor
  | [] => []
  | c :: rest => c :: walk (c.children ++ rest)
termination_by stack => sizeOf stack
decreasing_by exact sizeOf_step c rest

mutual

/-- A node and all below it, by recursion on the tree. -/
def preorderFrom (trail : List Crumb) : Node → List Cursor
  | .node l e cs => ⟨.node l e cs, trail⟩ :: preorderBelow (.node l e cs) trail 0 cs

/-- Some of the children of a node, the first of which is at place `i`, and
all below them. -/
def preorderBelow (parent : Node) (trail : List Crumb) (i : Nat) : List Node → List Cursor
  | [] => []
  | t :: ts => preorderFrom (⟨parent, i⟩ :: trail) t ++ preorderBelow parent trail (i + 1) ts

end

/-- The node and all below it, each before those below it. -/
def preorder (c : Cursor) : List Cursor := preorderFrom c.trail c.focus

/-- The node and all below it, as the stack visits them. -/
def descendants (c : Cursor) : List Cursor := walk [c]

theorem preorderBelow_eq (parent : Node) (trail : List Crumb) (i : Nat) (ts : List Node) :
    preorderBelow parent trail i ts = (descend parent trail i ts).flatMap preorder := by
  induction ts generalizing i with
  | nil => simp [preorderBelow, descend]
  | cons t ts ih => simp [preorderBelow, ih, descend, preorder]

theorem preorder_eq (c : Cursor) : c.preorder = c :: c.children.flatMap preorder := by
  obtain ⟨⟨l, e, cs⟩, trail⟩ := c
  simp [preorder, preorderFrom, preorderBelow_eq, children, SyntaxTree.children]

/-- A stack is walked tree by tree, each in document order. -/
theorem walk_eq_flatMap (stack : List Cursor) : walk stack = stack.flatMap preorder := by
  fun_induction walk stack with
  | case1 => rfl
  | case2 c rest ih => simp [ih, preorder_eq c]

end Cursor

end CodeAtlas.Syntax
