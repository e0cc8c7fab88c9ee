import CodeAtlas.Proofs.Syntax.Cursor
import Mathlib.Data.List.Lex
import Mathlib.Logic.Function.Iterate
import Mathlib.Logic.Relation
/-
  The walk with a stack goes through a tree in document order.

  The walk keeps a stack of the nodes that are still to be visited. In each round
  the top of the stack is visited, and its children take its place.

  What is proved:
    1. `drop_walk`: what is left to visit after some rounds is what a walk of the
       stack of that moment visits. So the stack at any moment stands for the
       listings of its trees, one after the other.
    2. `length_walk`: a stack is walked in as many rounds as its trees have nodes,
       so the walk ends, and it ends in no other round.
    3. `ascending_preorder`: the places of the nodes, read as words of child
       numbers, come in the order of a dictionary. A node is above or to the left
       of all that come after it, and none comes twice.
    4. `documentOrder_descendants` puts them together.
-/

namespace CodeAtlas.Syntax.Cursor

/-! ## Rounds of the walk -/

/-- One round: the top of the stack makes room for its children. -/
def round : List Cursor → List Cursor
  | [] => []
  | c :: rest => c.children ++ rest

theorem walk_cons (c : Cursor) (rest : List Cursor) :
    walk (c :: rest) = c :: walk (round (c :: rest)) := by
  rw [walk, round]

theorem head?_walk (stack : List Cursor) : (walk stack).head? = stack.head? := by
  cases stack with
  | nil => rw [walk]
  | cons c rest => rw [walk_cons, List.head?_cons, List.head?_cons]

/-- After some rounds the walk has the rest of its nodes before it. -/
theorem drop_walk (k : Nat) (stack : List Cursor) :
    (walk stack).drop k = walk (round^[k] stack) := by
  induction k generalizing stack with
  | zero => rfl
  | succ k ih =>
    rw [Function.iterate_succ_apply, ← ih (round stack)]
    cases stack with
    | nil => rw [round, walk, List.drop_nil, List.drop_nil]
    | cons c rest => rw [walk_cons, List.drop_succ_cons]

/-- The node of a round is the top of the stack at that moment. -/
theorem getElem?_walk (k : Nat) (stack : List Cursor) :
    (walk stack)[k]? = (round^[k] stack).head? := by
  rw [← List.head?_drop, drop_walk, head?_walk]

theorem length_walk (stack : List Cursor) : (walk stack).length = sizeOf stack := by
  fun_induction walk stack with
  | case1 => rfl
  | case2 c rest ih =>
    rw [List.length_cons, ih]
    simp only [sizeOf, children, List.map_append, map_focus_descend, SyntaxTree.sizeAll_append,
      List.map_cons, SyntaxTree.sizeAll, SyntaxTree.size_eq]
    omega

/-- The stack is empty once there were as many rounds as nodes, and not before. -/
theorem iterate_round_eq_nil_iff (k : Nat) (stack : List Cursor) :
    round^[k] stack = [] ↔ sizeOf stack ≤ k := by
  rw [← List.head?_eq_none_iff, ← getElem?_walk, List.getElem?_eq_none_iff, length_walk]

theorem sizeOf_singleton (c : Cursor) : sizeOf [c] = c.focus.size := by
  rw [sizeOf, List.map_singleton, SyntaxTree.sizeAll, SyntaxTree.sizeAll, Nat.add_zero]

/-! ## Places -/

/-- The way down to a node: which child was taken at each step, from the top. -/
def place (c : Cursor) : List Nat := (c.trail.map Crumb.index).reverse

theorem place_of_mem_children {p c : Cursor} (h : c ∈ p.children) :
    ∃ i, c.place = p.place ++ [i] := by
  obtain ⟨i, t, -, rfl⟩ := mem_children.mp h
  exact ⟨i, by simp [place]⟩

/-- Later children have higher numbers. -/
theorem pairwise_descend (parent : Node) (trail : List Crumb) (i : Nat) (ts : List Node) :
    (descend parent trail i ts).Pairwise fun a b => ∃ j k, j < k ∧
      a.place = (trail.map Crumb.index).reverse ++ [j] ∧
      b.place = (trail.map Crumb.index).reverse ++ [k] := by
  induction ts generalizing i with
  | nil => exact List.Pairwise.nil
  | cons t ts ih =>
    rw [descend_cons, List.pairwise_cons]
    refine ⟨?_, ih (i + 1)⟩
    intro b hb
    obtain ⟨j, u, -, rfl⟩ := mem_descend.mp hb
    exact ⟨i, i + 1 + j, by omega, by simp [place], by simp [place]⟩

/-- The nodes of a tree are those that steps to a child lead to. -/
theorem mem_preorder_iff_reached {c d : Cursor} :
    d ∈ c.preorder ↔ Relation.ReflTransGen (fun p q => q ∈ p.children) c d := by
  constructor
  · intro h
    induction hn : c.focus.size using Nat.strongRecOn generalizing c with
    | ind n ih =>
      rw [preorder_eq] at h
      rcases List.mem_cons.mp h with rfl | h
      · exact .refl
      · obtain ⟨k, hk, hd⟩ := List.mem_flatMap.mp h
        have hlt := SyntaxTree.size_lt_of_mem_children (focus_mem_children hk)
        exact .head hk (ih k.focus.size (by omega) hd rfl)
  · intro h
    induction h with
    | refl => exact mem_preorder_self c
    | tail _ hstep ih => exact mem_preorder_of_mem_children ih hstep

/-- The way to a node goes on to all that lies below it. -/
theorem place_append_of_mem_preorder {c d : Cursor} (h : d ∈ c.preorder) :
    ∃ more, d.place = c.place ++ more := by
  have hreach := mem_preorder_iff_reached.mp h
  induction hreach with
  | refl => exact ⟨[], (List.append_nil _).symm⟩
  | tail hreach hstep ih =>
    obtain ⟨more, hmore⟩ := ih (mem_preorder_iff_reached.mpr hreach)
    obtain ⟨i, hi⟩ := place_of_mem_children hstep
    exact ⟨more ++ [i], by rw [hi, hmore, List.append_assoc]⟩

/-- The order of the document: the place of a node comes before the places below
it, and before those that lie to the right of it. -/
theorem ascending_preorder (c : Cursor) :
    c.preorder.Pairwise fun d e => List.Lex (· < ·) d.place e.place := by
  induction hn : c.focus.size using Nat.strongRecOn generalizing c with
  | ind n ih =>
    rw [preorder_eq, List.pairwise_cons, List.pairwise_flatMap]
    refine ⟨?_, ?_, ?_⟩
    · intro d hd
      obtain ⟨k, hk, hd⟩ := List.mem_flatMap.mp hd
      obtain ⟨i, hi⟩ := place_of_mem_children hk
      obtain ⟨more, hmore⟩ := place_append_of_mem_preorder hd
      have hlex := List.Lex.append_left (· < ·) (List.Lex.nil (a := i) (l := more)) c.place
      rw [List.append_nil] at hlex
      rw [hmore, hi, List.append_assoc]
      exact hlex
    · intro k hk
      have hlt := SyntaxTree.size_lt_of_mem_children (focus_mem_children hk)
      exact ih k.focus.size (by omega) k rfl
    · -- two children part at their own numbers, whatever lies below them
      refine (pairwise_descend c.focus c.trail 0 c.focus.children).imp ?_
      rintro a b ⟨j, k, hjk, ha, hb⟩ d hd e he
      obtain ⟨more, hmore⟩ := place_append_of_mem_preorder hd
      obtain ⟨more', hmore'⟩ := place_append_of_mem_preorder he
      rw [hmore, hmore', ha, hb, List.append_assoc, List.append_assoc]
      exact List.Lex.append_left (· < ·) (List.Lex.rel hjk) _

theorem nodup_preorder (c : Cursor) : (c.preorder.map place).Nodup := by
  rw [List.Nodup, List.pairwise_map]
  refine (ascending_preorder c).imp ?_
  intro d e hlex heq
  rw [heq] at hlex
  exact List.lex_irrefl Nat.lt_irrefl _ hlex

/-! ## The walk as a whole -/

/-- What a list of nodes has to be that goes through the tree below `c` in the
order of the document, by rounds of a stack that holds `c` at first. -/
structure DocumentOrder (c : Cursor) (visited : List Cursor) : Prop where
  /-- They are the listing by recursion on the tree, with and without places. -/
  listing : visited = c.preorder
  nodes : visited.map focus = c.focus.preorder
  /-- Each node that steps to a child lead to is there, and no other one. -/
  complete : ∀ d, d ∈ visited ↔ Relation.ReflTransGen (fun p q => q ∈ p.children) c d
  /-- They come in the order of their places, and each of them once. -/
  ascending : (visited.map place).Pairwise (List.Lex (· < ·))
  once : (visited.map place).Nodup
  /-- The next one is the top of the stack, and the stack holds all that follow. -/
  next : ∀ k, visited[k]? = (round^[k] [c]).head?
  pending : ∀ k, visited.drop k = (round^[k] [c]).flatMap preorder
  /-- The stack is empty after as many rounds as there are nodes, and not before. -/
  ends : ∀ k, round^[k] [c] = [] ↔ c.focus.size ≤ k

/-- The walk from a node visits the node and all below it, tokens too, once each
and in document order, and comes to its end. -/
theorem documentOrder_descendants (c : Cursor) : DocumentOrder c c.descendants where
  listing := descendants_eq_preorder c
  nodes := by rw [descendants_eq_preorder, SyntaxTree.map_focus_preorder]
  complete := fun d => by rw [descendants_eq_preorder, mem_preorder_iff_reached]
  ascending := by
    rw [descendants_eq_preorder, List.pairwise_map]
    exact ascending_preorder c
  once := by
    rw [descendants_eq_preorder]
    exact nodup_preorder c
  next := fun k => getElem?_walk k [c]
  pending := fun k => by rw [descendants, drop_walk, walk_eq_flatMap]
  ends := fun k => by rw [iterate_round_eq_nil_iff, sizeOf_singleton]

end CodeAtlas.Syntax.Cursor
