import CodeAtlas.Syntax.Cursor
/-
  Nodes in their place: children, parents and the order of the document.

  A child of a node has that node above it (`parent?_of_mem_children`), and the
  child that is found in a field is the very one that fills it
  (`child?_eq_some`). Children of a node of a tree are nodes of the tree
  (`mem_preorder_of_mem_children`), and so is what lies above or before one
  (`mem_preorder_of_parent?`, `mem_preorder_of_prev?`). `Inside` says that a
  node lies in another one with only nodes of a certain sort between the two.
-/

namespace CodeAtlas.Syntax

theorem SyntaxTree.size_lt_of_mem_children {α : Type} {t n : SyntaxTree α} (h : t ∈ n.children) :
    t.size < n.size := by
  have hle : ∀ ts : List (SyntaxTree α), t ∈ ts → t.size ≤ SyntaxTree.sizeAll ts := by
    intro ts
    induction ts with
    | nil => intro h; cases h
    | cons u ts ih =>
      intro h
      rw [SyntaxTree.sizeAll]
      rcases List.mem_cons.mp h with rfl | h
      · omega
      · have := ih h
        omega
  have := hle n.children h
  rw [SyntaxTree.size_eq n]
  omega

namespace Cursor

/-! ## Children -/

theorem descend_cons (parent t : Node) (trail : List Crumb) (i : Nat) (ts : List Node) :
    descend parent trail i (t :: ts)
      = ⟨t, ⟨parent, i⟩ :: trail⟩ :: descend parent trail (i + 1) ts := rfl

theorem mem_descend {parent : Node} {trail : List Crumb} {i : Nat} {ts : List Node} {c : Cursor} :
    c ∈ descend parent trail i ts ↔
      ∃ j t, ts[j]? = some t ∧ c = ⟨t, ⟨parent, i + j⟩ :: trail⟩ := by
  induction ts generalizing i with
  | nil => simp [descend]
  | cons t ts ih =>
    rw [descend_cons, List.mem_cons, ih]
    constructor
    · rintro (rfl | ⟨j, u, hu, rfl⟩)
      · exact ⟨0, t, rfl, rfl⟩
      · exact ⟨j + 1, u, by simpa using hu, by rw [show i + (j + 1) = i + 1 + j by omega]⟩
    · rintro ⟨j, u, hu, rfl⟩
      cases j with
      | zero => simp at hu; exact Or.inl (by rw [hu]; rfl)
      | succ j =>
        exact Or.inr ⟨j, u, by simpa using hu, by rw [show i + (j + 1) = i + 1 + j by omega]⟩

theorem mem_children {p c : Cursor} :
    c ∈ p.children ↔
      ∃ i t, p.focus.children[i]? = some t ∧ c = ⟨t, ⟨p.focus, i⟩ :: p.trail⟩ := by
  rw [children, mem_descend]
  simp only [Nat.zero_add]

/-- The node above a child is the node whose child it is. -/
theorem parent?_of_mem_children {p c : Cursor} (h : c ∈ p.children) : c.parent? = some p := by
  obtain ⟨i, t, -, rfl⟩ := mem_children.mp h
  rfl

theorem focus_mem_children {p c : Cursor} (h : c ∈ p.children) :
    c.focus ∈ p.focus.children := by
  obtain ⟨i, t, ht, rfl⟩ := mem_children.mp h
  exact List.mem_of_getElem? ht

theorem mem_children_of_mem_namedChildren {p c : Cursor} (h : c ∈ p.namedChildren) :
    c ∈ p.children := (List.mem_filter.mp h).1

theorem exists_namedChild {p : Cursor} {t : Node} (h : t ∈ p.focus.namedChildren) :
    ∃ c ∈ p.namedChildren, c.focus = t := by
  obtain ⟨hmem, hnamed⟩ := List.mem_filter.mp h
  obtain ⟨i, hi⟩ := List.mem_iff_getElem?.mp hmem
  exact ⟨_, List.mem_filter.mpr ⟨mem_children.mpr ⟨i, t, hi, rfl⟩, hnamed⟩, rfl⟩

theorem exists_parent {c p : Cursor} (h : c.parent? = some p) :
    ∃ i, c.trail = ⟨p.focus, i⟩ :: p.trail := by
  obtain ⟨focus, trail⟩ := c
  cases trail with
  | nil => cases h
  | cons crumb rest =>
    cases h
    exact ⟨crumb.index, rfl⟩

/-- The first child of a sort is found at the place of the first node of that
sort. -/
theorem find?_descend (q : Node → Bool) (parent : Node) (trail : List Crumb) (i : Nat)
    (ts : List Node) :
    (descend parent trail i ts).find? (fun d => q d.focus)
      = (ts.findIdx? q).bind fun j => ts[j]?.map fun t => ⟨t, ⟨parent, i + j⟩ :: trail⟩ := by
  induction ts generalizing i with
  | nil => rfl
  | cons t ts ih =>
    rw [descend_cons, List.find?_cons, List.findIdx?_cons]
    cases hq : q t with
    | true => rfl
    | false =>
      simp only [Bool.false_eq_true, if_false]
      rw [ih, Option.bind_map]
      congr 1
      funext j
      simp only [Function.comp_apply, List.getElem?_cons_succ]
      rw [show i + 1 + j = i + (j + 1) by omega]

theorem child?_eq (p : Cursor) (f : Field) :
    p.child? f = (p.focus.childIndex? f).bind fun j =>
      p.focus.children[j]?.map fun t => ⟨t, ⟨p.focus, j⟩ :: p.trail⟩ := by
  have h := find?_descend (fun n => decide (n.field = some f)) p.focus p.trail 0 p.focus.children
  simp only [Nat.zero_add] at h
  exact h

/-- A child that is found in a field is a child of the node, is the very one
that fills the field, and is what the bare node has there. -/
theorem child?_eq_some {p c : Cursor} {f : Field} (h : p.child? f = some c) :
    c ∈ p.children ∧ c.focus.field = some f ∧ c.fills f = true := by
  refine ⟨List.mem_of_find?_eq_some h, by simpa using List.find?_some h, ?_⟩
  rw [child?_eq, Option.bind_eq_some_iff] at h
  obtain ⟨j, hj, h⟩ := h
  obtain ⟨t, -, rfl⟩ := Option.map_eq_some_iff.mp h
  simp [fills, hj]

theorem parent?_of_child? {p c : Cursor} {f : Field} (h : p.child? f = some c) :
    c.parent? = some p := parent?_of_mem_children (child?_eq_some h).1

/-- The child in a field, without its place. -/
theorem map_focus_child? (p : Cursor) (f : Field) :
    (p.child? f).map focus = p.focus.child? f := by
  have h : (p.children.map focus).find? (fun n => decide (n.field = some f))
      = (p.child? f).map focus := by
    rw [List.find?_map]
    rfl
  rw [← h, children, map_focus_descend]
  rfl

/-- The child in a field, with its place. -/
theorem exists_child? {p : Cursor} {f : Field} {t : Node} (h : p.focus.child? f = some t) :
    ∃ c, p.child? f = some c ∧ c.focus = t := by
  rw [← map_focus_child?, Option.map_eq_some_iff] at h
  exact h

theorem firstOfKind?_eq_some {p c : Cursor} {k : Kind} (h : p.firstOfKind? k = some c) :
    c ∈ p.namedChildren ∧ c.kind = k :=
  ⟨List.mem_of_find?_eq_some h, by simpa using List.find?_some h⟩

theorem parentIs_iff {c : Cursor} {k : Kind} :
    c.parentIs k = true ↔ ∃ p, c.parent? = some p ∧ p.kind = k := by
  unfold parentIs
  cases c.parent? <;> simp

/-! ## Nodes of a tree -/

theorem mem_preorder_self (c : Cursor) : c ∈ c.preorder := by
  rw [preorder_eq]
  exact List.mem_cons_self

/-- The children of a node of a tree are nodes of the tree. -/
theorem mem_preorder_of_mem_children {r d c : Cursor} (hd : d ∈ r.preorder)
    (hc : c ∈ d.children) : c ∈ r.preorder := by
  -- the tree that holds `d` gets smaller while `d` is still to be found in it
  induction hn : r.focus.size using Nat.strongRecOn generalizing r with
  | ind n ih =>
    rw [preorder_eq] at hd ⊢
    rcases List.mem_cons.mp hd with rfl | hd
    · exact List.mem_cons_of_mem _ (List.mem_flatMap.mpr ⟨c, hc, mem_preorder_self c⟩)
    · obtain ⟨k, hk, hd⟩ := List.mem_flatMap.mp hd
      have hlt := SyntaxTree.size_lt_of_mem_children (focus_mem_children hk)
      exact List.mem_cons_of_mem _
        (List.mem_flatMap.mpr ⟨k, hk, ih k.focus.size (by omega) hd rfl⟩)

theorem mem_preorder_of_child? {r d c : Cursor} {f : Field} (hd : d ∈ r.preorder)
    (h : d.child? f = some c) : c ∈ r.preorder :=
  mem_preorder_of_mem_children hd (child?_eq_some h).1

theorem mem_preorder_of_mem_namedChildren {r d c : Cursor} (hd : d ∈ r.preorder)
    (h : c ∈ d.namedChildren) : c ∈ r.preorder :=
  mem_preorder_of_mem_children hd (mem_children_of_mem_namedChildren h)

theorem descendants_eq_preorder (c : Cursor) : c.descendants = c.preorder := by
  rw [descendants, walk_eq_flatMap]
  simp

/-- A node of a tree is its top or a child of a node of it. -/
theorem eq_or_mem_children_of_mem_preorder {r c : Cursor} (h : c ∈ r.preorder) :
    c = r ∨ ∃ d ∈ r.preorder, c ∈ d.children := by
  induction hn : r.focus.size using Nat.strongRecOn generalizing r with
  | ind n ih =>
    rw [preorder_eq] at h
    rcases List.mem_cons.mp h with h | h
    · exact Or.inl h
    · obtain ⟨k, hk, hc⟩ := List.mem_flatMap.mp h
      have hlt := SyntaxTree.size_lt_of_mem_children (focus_mem_children hk)
      have hkr := mem_preorder_of_mem_children (mem_preorder_self r) hk
      rcases ih k.focus.size (by omega) hc rfl with rfl | ⟨d, hd, hcd⟩
      · exact Or.inr ⟨r, mem_preorder_self r, hk⟩
      · refine Or.inr ⟨d, ?_, hcd⟩
        rw [preorder_eq]
        exact List.mem_cons_of_mem _ (List.mem_flatMap.mpr ⟨k, hk, hd⟩)

/-- What lies above a node of a tree is a node of the tree. -/
theorem mem_preorder_of_parent? {n : Node} {c p : Cursor} (hc : c ∈ (root n).preorder)
    (hp : c.parent? = some p) : p ∈ (root n).preorder := by
  rcases eq_or_mem_children_of_mem_preorder hc with rfl | ⟨d, hd, hcd⟩
  · cases hp
  · cases (parent?_of_mem_children hcd).symm.trans hp
    exact hd

theorem mem_preorder_of_prev? {n : Node} {c d : Cursor} (hc : c ∈ (root n).preorder)
    (hd : c.prev? = some d) : d ∈ (root n).preorder := by
  obtain ⟨focus, trail⟩ := c
  cases trail with
  | nil => cases hd
  | cons crumb rest =>
    have hp : (⟨crumb.parent, rest⟩ : Cursor) ∈ (root n).preorder :=
      mem_preorder_of_parent? hc rfl
    obtain ⟨parent, index⟩ := crumb
    cases index with
    | zero => cases hd
    | succ i =>
      obtain ⟨t, ht, rfl⟩ := Option.map_eq_some_iff.mp hd
      exact mem_preorder_of_mem_children hp (mem_children.mpr ⟨i, t, ht, rfl⟩)

/-! ## Nodes inside a node -/

/-- The node lies in `outer`, and every node between the two satisfies
`skip`. -/
inductive Inside (skip : Cursor → Prop) (outer : Cursor) : Cursor → Prop where
  | near {n : Cursor} : n.parent? = some outer → Inside skip outer n
  | deep {n p : Cursor} : n.parent? = some p → skip p → Inside skip outer p → Inside skip outer n

theorem Inside.imp {skip skip' : Cursor → Prop} {outer n : Cursor} (h : Inside skip outer n)
    (himp : ∀ p, skip p → skip' p) : Inside skip' outer n := by
  induction h with
  | near hp => exact .near hp
  | deep hp hskip _ ih => exact .deep hp (himp _ hskip) ih

end Cursor

namespace SyntaxTree

/-! ## Nodes without their place -/

variable {α : Type}

theorem preorderAll_eq (ts : List (SyntaxTree α)) : preorderAll ts = ts.flatMap preorder := by
  induction ts with
  | nil => rfl
  | cons t ts ih => rw [preorderAll, ih, List.flatMap_cons]

theorem preorder_eq (t : SyntaxTree α) : t.preorder = t :: t.children.flatMap preorder := by
  obtain ⟨l, e, cs⟩ := t
  rw [preorder, preorderAll_eq, children]

/-- The nodes of a tree are what its cursors stand on. -/
theorem map_focus_preorder (c : Cursor) : c.preorder.map Cursor.focus = c.focus.preorder := by
  induction hn : c.focus.size using Nat.strongRecOn generalizing c with
  | ind n ih =>
    have hbelow : c.children.flatMap (fun d => d.preorder.map Cursor.focus)
        = c.children.flatMap fun d => d.focus.preorder := by
      rw [List.flatMap_def, List.flatMap_def]
      apply congrArg List.flatten
      apply List.map_congr_left
      intro d hd
      have hlt := SyntaxTree.size_lt_of_mem_children (Cursor.focus_mem_children hd)
      exact ih d.focus.size (by omega) d rfl
    have hfocus : c.children.map Cursor.focus = c.focus.children :=
      Cursor.map_focus_descend c.focus c.trail 0 c.focus.children
    rw [Cursor.preorder_eq, List.map_cons, List.map_flatMap, hbelow, preorder_eq, ← hfocus,
      List.flatMap_map]

theorem mem_preorder_iff {root n : Node} :
    n ∈ root.preorder ↔ ∃ c ∈ (Cursor.root root).preorder, c.focus = n := by
  have h := map_focus_preorder (Cursor.root root)
  rw [← show (Cursor.root root).focus = root from rfl, ← h, List.mem_map]
  rfl

theorem focus_mem_preorder {root : Node} {c : Cursor} (h : c ∈ (Cursor.root root).preorder) :
    c.focus ∈ root.preorder := mem_preorder_iff.mpr ⟨c, h, rfl⟩

theorem mem_preorder_self (t : SyntaxTree α) : t ∈ t.preorder := by
  rw [preorder_eq]
  exact List.mem_cons_self

section Below
variable {root n t : Node}

theorem mem_preorder_of_mem_children (hn : n ∈ root.preorder) (ht : t ∈ n.children) :
    t ∈ root.preorder := by
  obtain ⟨c, hc, rfl⟩ := mem_preorder_iff.mp hn
  obtain ⟨i, hi⟩ := List.mem_iff_getElem?.mp ht
  have hchild := Cursor.mem_children.mpr ⟨i, t, hi, rfl⟩
  exact focus_mem_preorder (Cursor.mem_preorder_of_mem_children hc hchild)

theorem mem_preorder_of_child? {f : Field} (hn : n ∈ root.preorder) (ht : n.child? f = some t) :
    t ∈ root.preorder := mem_preorder_of_mem_children hn (List.mem_of_find?_eq_some ht)

theorem mem_preorder_of_mem_namedChildren (hn : n ∈ root.preorder) (ht : t ∈ n.namedChildren) :
    t ∈ root.preorder := mem_preorder_of_mem_children hn (List.mem_filter.mp ht).1

theorem mem_preorder_of_firstOfKind? {k : Kind} (hn : n ∈ root.preorder)
    (ht : n.firstOfKind? k = some t) : t ∈ root.preorder ∧ t.kind = k :=
  ⟨mem_preorder_of_mem_namedChildren hn (List.mem_of_find?_eq_some ht),
    by simpa using List.find?_some ht⟩

end Below

end SyntaxTree

end CodeAtlas.Syntax
