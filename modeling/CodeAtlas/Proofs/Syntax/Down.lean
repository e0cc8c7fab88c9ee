import CodeAtlas.Proofs.Syntax.Cursor
import CodeAtlas.Proofs.Syntax.Source
/-
  A source moved down by some lines.

  With line feeds in front and the ranges of the tree moved on by as many
  bytes, every node has the text that it had, in the same column, on a line
  further down (`locate_padded`). `down` does that to a node, and `Cursor.down`
  to a node in its place. Neither changes the shape of a tree, so all ways from
  a node lead to the moved nodes: there is one lemma for each way.
-/

namespace CodeAtlas.Syntax

/-- The text of a node further down. -/
def Extent.down (k : Nat) (e : Extent) : Extent :=
  ⟨e.text, ⟨e.start.row + k, e.start.column⟩, ⟨e.stop.row + k, e.stop.column⟩⟩

/-! ## Nodes -/

namespace SyntaxTree

/-- The node so many lines further down. -/
def down (k : Nat) (n : Node) : Node := n.map (Extent.down k)

section

variable (k : Nat) (n : Node)

@[simp] theorem label_down : (n.down k).label = n.label := label_map _ n

@[simp] theorem kind_down : (n.down k).kind = n.kind := kind_map _ n

@[simp] theorem named_down : (n.down k).named = n.named := named_map _ n

@[simp] theorem field_down : (n.down k).field = n.field := by rw [field, label_down, field]

theorem extent_down : (n.down k).extent = n.extent.down k := by cases n; rfl

@[simp] theorem text_down : (n.down k).text = n.text := by rw [text, extent_down, text]; rfl

@[simp] theorem startLine_down : (n.down k).startLine = n.startLine + k := by
  rw [startLine, extent_down, startLine, Nat.add_right_comm]
  rfl

@[simp] theorem endLine_down : (n.down k).endLine = n.endLine + k := by
  rw [endLine, extent_down, endLine, Nat.add_right_comm]
  rfl

@[simp] theorem children_down : (n.down k).children = n.children.map (down k) := children_map _ n

@[simp] theorem child?_down (f : Field) : (n.down k).child? f = (n.child? f).map (down k) :=
  child?_map _ n f

@[simp] theorem childIndex?_down (f : Field) : (n.down k).childIndex? f = n.childIndex? f := by
  simp only [childIndex?, children_down, List.findIdx?_map, Function.comp_def, field_down]

@[simp] theorem namedChildren_down :
    (n.down k).namedChildren = n.namedChildren.map (down k) := namedChildren_map _ n

@[simp] theorem firstOfKind?_down (j : Kind) :
    (n.down k).firstOfKind? j = (n.firstOfKind? j).map (down k) := firstOfKind?_map _ n j

@[simp] theorem holdsToken_down (tokens : List Kind) :
    (n.down k).holdsToken tokens = n.holdsToken tokens := holdsToken_map _ n tokens

@[simp] theorem literalText?_down : (n.down k).literalText? = n.literalText? := by
  simp only [literalText?, kind_down, text_down]

@[simp] theorem nameText_down : (n.down k).nameText = n.nameText := by
  simp only [nameText, kind_down, text_down]

end

end SyntaxTree

/-! ## Nodes in their place -/

/-- A step from a node so many lines further down. -/
def Crumb.down (k : Nat) (crumb : Crumb) : Crumb := ⟨crumb.parent.down k, crumb.index⟩

namespace Cursor

/-- The node in its place, so many lines further down. -/
def down (k : Nat) (c : Cursor) : Cursor := ⟨c.focus.down k, c.trail.map (Crumb.down k)⟩

theorem down_root (k : Nat) (n : Node) : (root n).down k = root (n.down k) := rfl

section

variable (k : Nat) (c : Cursor)

@[simp] theorem focus_down : (c.down k).focus = c.focus.down k := rfl

@[simp] theorem kind_down : (c.down k).kind = c.kind := SyntaxTree.kind_down k c.focus

@[simp] theorem named_down : (c.down k).named = c.named := SyntaxTree.named_down k c.focus

@[simp] theorem text_down : (c.down k).text = c.text := SyntaxTree.text_down k c.focus

@[simp] theorem parent?_down : (c.down k).parent? = c.parent?.map (down k) := by
  obtain ⟨focus, trail⟩ := c
  cases trail <;> rfl

@[simp] theorem parentIs_down (j : Kind) : (c.down k).parentIs j = c.parentIs j := by
  rw [parentIs, parent?_down, parentIs]
  cases c.parent? with
  | none => rfl
  | some p => simp only [Option.map_some, kind_down]

theorem descend_down (parent : Node) (trail : List Crumb) (i : Nat) (ts : List Node) :
    descend (parent.down k) (trail.map (Crumb.down k)) i (ts.map (SyntaxTree.down k))
      = (descend parent trail i ts).map (down k) := by
  induction ts generalizing i with
  | nil => rfl
  | cons t ts ih => rw [List.map_cons, descend_cons, ih, descend_cons, List.map_cons]; rfl

@[simp] theorem children_down : (c.down k).children = c.children.map (down k) := by
  rw [children, focus_down, SyntaxTree.children_down, children]
  exact descend_down k c.focus c.trail 0 c.focus.children

@[simp] theorem namedChildren_down :
    (c.down k).namedChildren = c.namedChildren.map (down k) := by
  simp only [namedChildren, children_down, List.filter_map, Function.comp_def, named_down]

@[simp] theorem child?_down (f : Field) : (c.down k).child? f = (c.child? f).map (down k) := by
  simp only [child?, children_down, List.find?_map, Function.comp_def, focus_down,
    SyntaxTree.field_down]

@[simp] theorem firstOfKind?_down (j : Kind) :
    (c.down k).firstOfKind? j = (c.firstOfKind? j).map (down k) := by
  simp only [firstOfKind?, namedChildren_down, List.find?_map, Function.comp_def, kind_down]

theorem childAt?_down (i : Nat) : (c.down k).childAt? i = (c.childAt? i).map (down k) := by
  simp only [childAt?, focus_down, SyntaxTree.children_down, List.getElem?_map, Option.map_map]
  rfl

@[simp] theorem prev?_down : (c.down k).prev? = c.prev?.map (down k) := by
  obtain ⟨focus, trail⟩ := c
  cases trail with
  | nil => rfl
  | cons crumb rest =>
    obtain ⟨parent, index⟩ := crumb
    cases index with
    | zero => rfl
    | succ i => exact childAt?_down k ⟨parent, rest⟩ i

@[simp] theorem fills_down (f : Field) : (c.down k).fills f = c.fills f := by
  obtain ⟨focus, trail⟩ := c
  cases trail with
  | nil => rfl
  | cons crumb rest =>
    simp only [fills, down, List.map_cons, Crumb.down, SyntaxTree.childIndex?_down]

end

/-- The nodes of a tree further down are the nodes of the tree, further down. -/
theorem preorder_down (k : Nat) (c : Cursor) : (c.down k).preorder = c.preorder.map (down k) := by
  -- by the size of the tree, since cursors to children are not parts of a cursor
  induction hn : c.focus.size using Nat.strongRecOn generalizing c with
  | ind n ih =>
    rw [preorder_eq, preorder_eq c, List.map_cons, children_down, List.flatMap_map,
      List.map_flatMap]
    congr 1
    apply List.flatMap_congr
    intro d hd
    have hlt := SyntaxTree.size_lt_of_mem_children (focus_mem_children hd)
    exact ih d.focus.size (by omega) d rfl

end Cursor

/-! ## Sources -/

/-- The source below so many empty lines. -/
def padded (k : Nat) (code : String) : String :=
  String.ofList (List.replicate k '\n' ++ code.toList)

/-- The range moved on by so many bytes. -/
def Span.later (k : Nat) (s : Span) : Span := ⟨s.start + k, s.stop + k⟩

namespace Source

theorem dropBytes?_padded (k n : Nat) (cs : List Char) :
    dropBytes? (n + k) (List.replicate k '\n' ++ cs) = dropBytes? n cs := by
  induction k with
  | zero => rfl
  | succ k ih =>
    have hsize : '\n'.utf8Size ≤ n + k + 1 := Nat.le_add_left 1 (n + k)
    rw [List.replicate_succ, List.cons_append, ← Nat.add_assoc, dropBytes?_succ, if_pos hsize]
    exact ih

theorem slice?_padded (k : Nat) (cs : List Char) (s : Span) :
    slice? (List.replicate k '\n' ++ cs) (s.later k) = slice? cs s := by
  rw [slice?, slice?, Span.later, dropBytes?_padded, Nat.add_sub_add_right]

theorem bytesOf_padded (k : Nat) (cs : List Char) (s : Span) :
    bytesOf (List.replicate k '\n' ++ cs) (s.later k) = bytesOf cs s := by
  have hlength : (encoded (List.replicate k '\n')).length = k := by
    induction k with
    | zero => rfl
    | succ k ih => rw [List.replicate_succ, length_encoded_cons, ih, Nat.add_comm]; rfl
  have hdrop : (encoded (List.replicate k '\n' ++ cs)).drop (s.start + k)
      = (encoded cs).drop s.start := by
    rw [encoded_append, List.drop_append, hlength, List.drop_of_length_le (by omega),
      List.nil_append, Nat.add_sub_cancel]
  rw [bytesOf_eq, bytesOf_eq, Span.later, Nat.add_sub_add_right, hdrop]

theorem textOf_padded (k : Nat) (cs : List Char) (s : Span) :
    textOf (List.replicate k '\n' ++ cs) (s.later k) = textOf cs s := by
  rw [textOf, textOf, slice?_padded, bytesOf_padded]

theorem positionFrom_succ (p : Position) (n : Nat) (c : Char) (cs : List Char) :
    positionFrom p (n + 1) (c :: cs)
      = if c = '\n' then positionFrom ⟨p.row + 1, 0⟩ n cs
        else positionFrom { p with column := p.column + min (n + 1) c.utf8Size }
          (n + 1 - c.utf8Size) cs := rfl

/-- Columns do not depend on the row that a text starts in. -/
theorem positionFrom_down (k : Nat) (p : Position) (n : Nat) (cs : List Char) :
    positionFrom ⟨p.row + k, p.column⟩ n cs
      = ⟨(positionFrom p n cs).row + k, (positionFrom p n cs).column⟩ := by
  induction cs generalizing p n with
  | nil => cases n <;> rfl
  | cons c cs ih =>
    cases n with
    | zero => rfl
    | succ n =>
      rw [positionFrom_succ, positionFrom_succ]
      split
      · rw [Nat.add_right_comm]
        exact ih ⟨p.row + 1, 0⟩ n
      · exact ih ⟨p.row, p.column + min (n + 1) c.utf8Size⟩ (n + 1 - c.utf8Size)

theorem positionFrom_padded (k row n : Nat) (cs : List Char) :
    positionFrom ⟨row, 0⟩ (n + k) (List.replicate k '\n' ++ cs)
      = positionFrom ⟨row + k, 0⟩ n cs := by
  induction k generalizing row with
  | zero => rfl
  | succ k ih =>
    rw [List.replicate_succ, List.cons_append, ← Nat.add_assoc, positionFrom_succ, if_pos rfl, ih,
      Nat.add_assoc, Nat.add_comm 1 k]

theorem position_padded (k n : Nat) (cs : List Char) :
    position (List.replicate k '\n' ++ cs) (n + k)
      = ⟨(position cs n).row + k, (position cs n).column⟩ :=
  (positionFrom_padded k 0 n cs).trans (positionFrom_down k ⟨0, 0⟩ n cs)

theorem extentOf_padded (k : Nat) (cs : List Char) (s : Span) :
    extentOf (List.replicate k '\n' ++ cs) (s.later k) = (extentOf cs s).down k := by
  rw [extentOf, textOf_padded, Span.later, position_padded, position_padded]
  rfl

end Source

namespace SyntaxTree

mutual

theorem map_map {α β γ : Type} (f : α → β) (g : β → γ) : ∀ t : SyntaxTree α,
    (t.map f).map g = t.map (g ∘ f)
  | node l e cs => by rw [map, map, mapAll_mapAll f g cs, map]; rfl

theorem mapAll_mapAll {α β γ : Type} (f : α → β) (g : β → γ) : ∀ ts : List (SyntaxTree α),
    mapAll g (mapAll f ts) = mapAll (g ∘ f) ts
  | [] => rfl
  | t :: ts => by rw [mapAll, mapAll, map_map f g t, mapAll_mapAll f g ts, mapAll]

end

/-- A tree of a source below empty lines is the tree of the source, further
down. -/
theorem locate_padded (k : Nat) (code : String) (tree : SyntaxTree Span) :
    (tree.map (Span.later k)).locate (padded k code) = (tree.locate code).down k := by
  rw [locate, locate, down, map_map, map_map]
  congr 1
  funext s
  rw [Function.comp_apply, padded, String.toList_ofList, Source.extentOf_padded,
    Function.comp_apply]

end SyntaxTree

end CodeAtlas.Syntax
