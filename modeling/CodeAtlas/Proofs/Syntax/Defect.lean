import CodeAtlas.Proofs.Syntax.Cursor
import CodeAtlas.Syntax.Defect
/-
  The search for a defect that looks only where an error is marked.

  A parser marks a node when something in it or below it is bad (`Marked`). The
  search passes over all that is not marked, and yet it comes to the bad node
  that stands first in the document.

  What is proved:
    1. `hunt?` is the search as a loop, with a stack of the nodes that are still
       to be looked at. `hunt?_eq_findSome?` says that a stack is searched one
       tree after the other, each by `search?`, whatever the marks are.
    2. `search?_eq_find?`: on a marked tree nothing that is passed over is bad,
       so the search gives what going through all nodes gives.
    3. `defect?_is_first_bad` puts them together: the node to report is the
       first bad one, and the top is never reported in its place.
-/

namespace CodeAtlas.Syntax.SyntaxTree

variable {α : Type}

/-! ## The search as a loop -/

theorem sizeAll_filter_le (p : SyntaxTree α → Bool) (ts : List (SyntaxTree α)) :
    sizeAll (ts.filter p) ≤ sizeAll ts := by
  induction ts with
  | nil => exact Nat.le_refl _
  | cons t ts ih =>
    rw [List.filter_cons]
    split
    · show t.size + sizeAll (ts.filter p) ≤ t.size + sizeAll ts
      omega
    · show sizeAll (ts.filter p) ≤ t.size + sizeAll ts
      omega

/-- The first bad node under a stack of nodes: the top one if it is bad, else
the first one once the suspects among its children have taken its place. -/
def hunt? : List (SyntaxTree α) → Option (SyntaxTree α)
  | [] => none
  | t :: rest => if t.isBad then some t else hunt? (t.children.filter isSuspect ++ rest)
termination_by stack => sizeAll stack
decreasing_by
  rw [sizeAll_append, sizeAll, size_eq]
  have := sizeAll_filter_le isSuspect t.children
  omega

theorem search?_eq (t : SyntaxTree α) :
    search? t = if t.isBad then some t else searchAll? t.children := by
  cases t
  rfl

theorem searchAll?_eq_findSome? (ts : List (SyntaxTree α)) :
    searchAll? ts = (ts.filter isSuspect).findSome? search? := by
  induction ts with
  | nil => rfl
  | cons t ts ih =>
    rw [searchAll?, List.filter_cons, ih]
    split
    · rw [List.findSome?_cons]
      cases search? t <;> rfl
    · rfl

/-- A stack is searched one tree after the other. -/
theorem hunt?_eq_findSome? (stack : List (SyntaxTree α)) :
    hunt? stack = stack.findSome? search? := by
  fun_induction hunt? stack with
  | case1 => rfl
  | case2 t rest hbad => rw [List.findSome?_cons, search?_eq, if_pos hbad]
  | case3 t rest hgood ih =>
    rw [ih, List.findSome?_append, List.findSome?_cons, search?_eq, if_neg hgood,
      searchAll?_eq_findSome?]
    cases (t.children.filter isSuspect).findSome? search? <;> rfl

theorem hunt?_singleton (t : SyntaxTree α) : hunt? [t] = search? t := by
  rw [hunt?_eq_findSome?, List.findSome?_singleton]

/-! ## Marks -/

/-- A node is marked exactly when it or a node below it is bad. -/
def Marked (t : SyntaxTree α) : Prop :=
  ∀ n ∈ t.preorder, n.label.hasError = true ↔ ∃ m ∈ n.preorder, m.isBad = true

instance (t : SyntaxTree α) : Decidable t.Marked :=
  inferInstanceAs
    (Decidable (∀ n ∈ t.preorder, n.label.hasError = true ↔ ∃ m ∈ n.preorder, m.isBad = true))

theorem Marked.of_mem_children {t n : SyntaxTree α} (h : t.Marked) (hn : n ∈ t.children) :
    n.Marked := by
  intro m hm
  apply h
  rw [preorder_eq]
  exact List.mem_cons_of_mem _ (List.mem_flatMap.mpr ⟨n, hn, hm⟩)

/-- The top of a marked tree says whether a bad node is in it. -/
theorem Marked.hasError_eq_false {t : SyntaxTree α} (h : t.Marked) :
    t.label.hasError = false ↔ t.preorder.find? isBad = none := by
  rw [List.find?_eq_none, ← Bool.not_eq_true, h t (mem_preorder_self t)]
  simp only [not_exists, not_and]

mutual

/-- Looking only at suspects finds what looking at all nodes finds. -/
theorem search?_eq_find? : ∀ t : SyntaxTree α, t.Marked → search? t = t.preorder.find? isBad
  | node l e cs, h => by
    have hbelow := searchAll?_eq_find? cs fun t ht => h.of_mem_children ht
    rw [search?_eq, preorder, List.find?_cons, ← hbelow]
    cases (node l e cs).isBad <;> rfl

theorem searchAll?_eq_find? : ∀ ts : List (SyntaxTree α), (∀ t ∈ ts, t.Marked) →
    searchAll? ts = (preorderAll ts).find? isBad
  | [], _ => rfl
  | t :: ts, h => by
    have ht := h t List.mem_cons_self
    have hrest := searchAll?_eq_find? ts fun u hu => h u (List.mem_cons_of_mem t hu)
    rw [searchAll?, preorderAll, List.find?_append, hrest]
    split
    · rw [search?_eq_find? t ht]
    · next hclear =>
      -- what is passed over is not marked, so nothing in it is bad
      rw [isSuspect, Bool.or_eq_true, not_or, Bool.not_eq_true] at hclear
      rw [ht.hasError_eq_false.mp hclear.1, Option.none_or]

end

/-! ## The node to report -/

/-- On a marked tree the node to report is the bad node that comes first in the
document, and there is none exactly when no node is bad. A search that was begun
never falls back on the top. -/
theorem defect?_is_first_bad (t : SyntaxTree α) (h : t.Marked) :
    t.defect? = t.firstBad? ∧
    (∀ bad, t.defect? = some bad ↔ ∃ before after, t.preorder = before ++ bad :: after ∧
      bad.isBad = true ∧ ∀ n ∈ before, n.isBad = false) ∧
    (t.defect? = none ↔ ∀ n ∈ t.preorder, n.isBad = false) ∧
    (t.label.hasError = true → hunt? [t] = t.defect?) := by
  have hsearch := search?_eq_find? t h
  have hfirst : t.defect? = t.preorder.find? isBad := by
    rw [defect?, hsearch]
    cases hmark : t.label.hasError with
    | false => exact (h.hasError_eq_false.mp hmark).symm
    | true =>
      cases hfind : t.preorder.find? isBad with
      | some bad => rfl
      | none => rw [h.hasError_eq_false.mpr hfind] at hmark; cases hmark
  refine ⟨hfirst, ?_, ?_, ?_⟩
  · intro bad
    rw [hfirst, List.find?_eq_some_iff_append]
    constructor
    · rintro ⟨hbad, before, after, hsplit, hbefore⟩
      exact ⟨before, after, hsplit, hbad, fun n hn => by simpa using hbefore n hn⟩
    · rintro ⟨before, after, hsplit, hbad, hbefore⟩
      exact ⟨hbad, before, after, hsplit, fun n hn => by simpa using hbefore n hn⟩
  · rw [hfirst, List.find?_eq_none]
    simp only [Bool.not_eq_true]
  · intro _
    rw [hunt?_singleton, hsearch, hfirst]

/-- A node without a field. -/
def bare (kind : Kind) (isError isMissing hasError : Bool) (start stop : Nat)
    (children : List (SyntaxTree Span)) : SyntaxTree Span :=
  .node ⟨kind, true, isError, isMissing, hasError, none⟩ ⟨start, stop⟩ children

/-- The tree of `a;f(;%`: a parenthesis is missing, deep in the tree, and the sign
after it could not be placed. -/
def tornTree : SyntaxTree Span :=
  bare .program false false true 0 6 [
    bare .expressionStatement false false false 0 2 [bare .identifier false false false 0 1 []],
    bare .expressionStatement false false true 2 5 [
      bare .callExpression false false true 2 4 [
        bare .identifier false false false 2 3 [],
        bare .arguments false false true 3 4 [bare (.other ")") false true true 4 4 []]]],
    bare (.other "ERROR") true false true 5 6 []]

theorem defect?_is_first_bad_torn :
    tornTree.Marked ∧
    tornTree.defect? = some (bare (.other ")") false true true 4 4 []) ∧
    tornTree.defect? = tornTree.firstBad? ∧
    (∀ bad, tornTree.defect? = some bad ↔ ∃ before after,
      tornTree.preorder = before ++ bad :: after ∧ bad.isBad = true ∧
        ∀ n ∈ before, n.isBad = false) ∧
    (tornTree.defect? = none ↔ ∀ n ∈ tornTree.preorder, n.isBad = false) ∧
    (tornTree.label.hasError = true → hunt? [tornTree] = tornTree.defect?) := by
  have hmarked : tornTree.Marked := by decide
  exact ⟨hmarked, rfl, defect?_is_first_bad tornTree hmarked⟩

end CodeAtlas.Syntax.SyntaxTree
