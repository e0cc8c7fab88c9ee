import CodeAtlas.Proofs.Syntax.Cursor
/-
  Places below one child of the top.

  `under` takes a place in a tree to the place that it is when the tree hangs
  below another node. All that lies below or before a place moves with it, as
  long as it stays in the tree.

  The nodes of a tree are its top and the places under it
  (`mem_preorder_root`). So two tops with the same children, in any order, have
  the same places below them: `SamePlace` relates these, and `exists_samePlace`
  finds for each node of the one tree its fellow in the other.
-/

namespace CodeAtlas.Syntax.Cursor

/-- The place in a tree, when that tree hangs below `top`. -/
def under (top : Crumb) (d : Cursor) : Cursor := ⟨d.focus, d.trail ++ [top]⟩

/-! ## Ways from a place -/

section Ways
variable (top : Crumb) (d : Cursor)

@[simp] theorem focus_under : (d.under top).focus = d.focus := rfl

@[simp] theorem kind_under : (d.under top).kind = d.kind := rfl

@[simp] theorem text_under : (d.under top).text = d.text := rfl

theorem children_under : (d.under top).children = d.children.map (under top) := by
  simp only [children, descend, List.map_map]
  rfl

theorem namedChildren_under : (d.under top).namedChildren = d.namedChildren.map (under top) := by
  rw [namedChildren, children_under, List.filter_map]
  rfl

theorem child?_under (f : Field) : (d.under top).child? f = (d.child? f).map (under top) := by
  rw [child?, children_under, List.find?_map]
  rfl

theorem firstOfKind?_under (k : Kind) :
    (d.under top).firstOfKind? k = (d.firstOfKind? k).map (under top) := by
  rw [firstOfKind?, namedChildren_under, List.find?_map]
  rfl

theorem childAt?_under (i : Nat) : (d.under top).childAt? i = (d.childAt? i).map (under top) := by
  rw [childAt?, childAt?, Option.map_map]
  rfl

end Ways

variable {top : Crumb} {c d : Cursor} {n n' : Node}

theorem prev?_under (hd : d.trail ≠ []) : (d.under top).prev? = d.prev?.map (under top) := by
  obtain ⟨focus, trail⟩ := d
  cases trail with
  | nil => exact (hd rfl).elim
  | cons crumb rest =>
    obtain ⟨parent, index⟩ := crumb
    cases index with
    | zero => rfl
    | succ i => exact childAt?_under top ⟨parent, rest⟩ i

theorem trail_ne_nil_of_prev? (h : d.prev? = some c) : c.trail ≠ [] := by
  obtain ⟨focus, trail⟩ := d
  cases trail with
  | nil => cases h
  | cons crumb rest =>
    obtain ⟨parent, index⟩ := crumb
    cases index with
    | zero => cases h
    | succ i =>
      obtain ⟨t, -, rfl⟩ := Option.map_eq_some_iff.mp h
      exact List.cons_ne_nil _ _

/-- One step down makes the way one longer. -/
theorem length_trail_of_mem_children (h : c ∈ d.children) :
    c.trail.length = d.trail.length + 1 := by
  obtain ⟨i, t, -, rfl⟩ := mem_children.mp h
  rfl

/-! ## Trees below a top -/

mutual

theorem preorderFrom_append (top : Crumb) (trail : List Crumb) : ∀ n : Node,
    preorderFrom (trail ++ [top]) n = (preorderFrom trail n).map (under top)
  | .node l e cs => by
    rw [preorderFrom, preorderBelow_append top (.node l e cs) trail 0 cs, preorderFrom,
      List.map_cons, under]

theorem preorderBelow_append (top : Crumb) (parent : Node) (trail : List Crumb) (i : Nat) :
    ∀ ts : List Node, preorderBelow parent (trail ++ [top]) i ts
      = (preorderBelow parent trail i ts).map (under top)
  | [] => rfl
  | t :: ts => by
    rw [preorderBelow, ← List.cons_append, preorderFrom_append top (⟨parent, i⟩ :: trail) t,
      preorderBelow_append top parent trail (i + 1) ts, preorderBelow, List.map_append]

end

/-- The nodes of a tree are its top and the places under it. -/
theorem mem_preorder_root :
    c ∈ (root n).preorder ↔ c = root n ∨
      ∃ i t, n.children[i]? = some t ∧ ∃ d ∈ (root t).preorder, c = d.under ⟨n, i⟩ := by
  rw [preorder_eq, List.mem_cons, List.mem_flatMap]
  refine or_congr_right ?_
  constructor
  · rintro ⟨k, hk, hc⟩
    obtain ⟨i, t, ht, rfl⟩ := mem_children.mp hk
    rw [preorder, show (root n).trail = [] from rfl, ← List.nil_append [_],
      preorderFrom_append] at hc
    obtain ⟨d, hd, rfl⟩ := List.mem_map.mp hc
    exact ⟨i, t, ht, d, hd, rfl⟩
  · rintro ⟨i, t, ht, d, hd, rfl⟩
    refine ⟨⟨t, [⟨n, i⟩]⟩, mem_children.mpr ⟨i, t, ht, rfl⟩, ?_⟩
    rw [preorder, ← List.nil_append [_], preorderFrom_append]
    exact List.mem_map_of_mem hd

/-- Only the top of a tree has no way to it. -/
theorem eq_root_of_trail (hc : c ∈ (root n).preorder) (h : c.trail = []) : c = root n := by
  rcases eq_or_mem_children_of_mem_preorder hc with rfl | ⟨d, -, hchild⟩
  · rfl
  · have hlength := length_trail_of_mem_children hchild
    rw [h] at hlength
    cases hlength

/-- The same place below a child that both tops have. -/
inductive SamePlace (n n' : Node) : Cursor → Cursor → Prop where
  | intro {i j : Nat} {t : Node} {d : Cursor} (here : n.children[i]? = some t)
      (there : n'.children[j]? = some t) (below : d ∈ (root t).preorder) :
      SamePlace n n' (d.under ⟨n, i⟩) (d.under ⟨n', j⟩)

namespace SamePlace

variable {c' : Cursor}

theorem symm (h : SamePlace n n' c c') : SamePlace n' n c' c := by
  cases h with
  | intro here there below => exact .intro there here below

theorem mem_right (h : SamePlace n n' c c') : c' ∈ (root n').preorder := by
  cases h with
  | intro _ there below => exact mem_preorder_root.mpr (Or.inr ⟨_, _, there, _, below, rfl⟩)

theorem focus_eq (h : SamePlace n n' c c') : c.focus = c'.focus := by
  cases h with
  | intro => rfl

end SamePlace

/-- Every node below a top has its fellow below a top that has the same
children. -/
theorem exists_samePlace (hsub : n.children ⊆ n'.children) (hc : c ∈ (root n).preorder) :
    c = root n ∨ ∃ c', SamePlace n n' c c' := by
  rcases mem_preorder_root.mp hc with rfl | ⟨i, t, ht, d, hd, rfl⟩
  · exact Or.inl rfl
  · obtain ⟨j, hj⟩ := List.mem_iff_getElem?.mp (hsub (List.mem_of_getElem? ht))
    exact Or.inr ⟨_, .intro ht hj hd⟩

end CodeAtlas.Syntax.Cursor
