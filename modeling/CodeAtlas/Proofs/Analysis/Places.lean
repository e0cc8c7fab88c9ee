import CodeAtlas.Analysis.Description
import CodeAtlas.Analysis.Imports
import CodeAtlas.Analysis.Parameters
import CodeAtlas.Proofs.Fallible
import CodeAtlas.Proofs.Syntax.Cursor
/-
  The nodes that a pass reads are nodes of the tree.

  From a node the passes go to its children, to the nodes above it and to the
  ones before it. Each lemma here follows one such way, and says that it does
  not leave the tree and, where the way asks for it, of what kind the node at
  its end is. What is written for a parameter is a name of the tree with marks
  (`parameter_cases`), or nothing of it.
-/

namespace CodeAtlas.Analysis

open CodeAtlas.Syntax

/-! ## Bases of classes -/

theorem mem_preorder_of_heritage? {root e : Node} {ns : List Node}
    (hns : ∀ n ∈ ns, n ∈ root.preorder) (he : heritage? ns = some e) : e ∈ root.preorder := by
  induction ns with
  | nil => cases he
  | cons n ns ih =>
    unfold heritage? at he
    split at he
    · exact SyntaxTree.mem_preorder_of_child? (hns n List.mem_cons_self) he
    split at he
    · exact ih (fun m hm => hns m (List.mem_cons_of_mem n hm)) he
    · cases he
      exact hns _ List.mem_cons_self

mutual

theorem mem_preorder_of_chainRoot? {root b : Node} : ∀ n : Node, n ∈ root.preorder →
    chainRoot? n = some b → b ∈ root.preorder
  | .node l e cs, hn, hb => by
    unfold chainRoot? at hb
    split at hb
    · exact mem_preorder_of_chainRootIn? cs
        (fun t ht => SyntaxTree.mem_preorder_of_mem_children hn ht) hb
    · cases hb
      exact hn

theorem mem_preorder_of_chainRootIn? {root b : Node} : ∀ ts : List Node,
    (∀ t ∈ ts, t ∈ root.preorder) → chainRootIn? ts = some b → b ∈ root.preorder
  | [], _, hb => by cases hb
  | t :: ts, hts, hb => by
    unfold chainRootIn? at hb
    split at hb
    · exact mem_preorder_of_chainRoot? t (hts t List.mem_cons_self) hb
    · exact mem_preorder_of_chainRootIn? ts (fun u hu => hts u (List.mem_cons_of_mem t hu)) hb

end

/-- The name that a class extends is an identifier of the tree. -/
theorem mem_preorder_of_base? {root n t : Node} (hn : n ∈ root.preorder) (ht : base? n = some t) :
    t ∈ root.preorder ∧ t.kind = .identifier := by
  obtain ⟨clause, hclause, ht⟩ := Option.bind_eq_some_iff.mp ht
  obtain ⟨expression, hexpression, ht⟩ := Option.bind_eq_some_iff.mp ht
  obtain ⟨base, hbase, ht⟩ := Option.bind_eq_some_iff.mp ht
  obtain ⟨hkind, ht⟩ := guard_bind_eq_some.mp ht
  cases ht
  have hmembers : ∀ m ∈ clause.namedChildren, m ∈ root.preorder := fun m hm =>
    SyntaxTree.mem_preorder_of_mem_namedChildren
      (SyntaxTree.mem_preorder_of_firstOfKind? hn hclause).1 hm
  have hexpression := mem_preorder_of_heritage? hmembers hexpression
  exact ⟨mem_preorder_of_chainRoot? expression hexpression hbase, hkind⟩

/-! ## Variables and members -/

/-- The variable that a node is bound to is an identifier of the tree. -/
theorem mem_preorder_of_binding? {root t : Node} {c : Cursor}
    (hc : c ∈ (Cursor.root root).preorder) (ht : binding? c = some t) :
    t ∈ root.preorder ∧ t.kind = .identifier := by
  obtain ⟨p, hp, ht⟩ := Option.bind_eq_some_iff.mp ht
  obtain ⟨-, ht⟩ := guard_bind_eq_some.mp ht
  obtain ⟨-, ht⟩ := guard_bind_eq_some.mp ht
  obtain ⟨target, htarget, ht⟩ := Option.bind_eq_some_iff.mp ht
  obtain ⟨hkind, ht⟩ := guard_bind_eq_some.mp ht
  cases ht
  have hpn := SyntaxTree.focus_mem_preorder (Cursor.mem_preorder_of_parent? hc hp)
  exact ⟨SyntaxTree.mem_preorder_of_child? hpn htarget, hkind⟩

theorem mem_preorder_of_firstArgument? {root n t : Node} (hn : n ∈ root.preorder)
    (ht : firstArgument? n = some t) : t ∈ root.preorder := by
  obtain ⟨arguments, harguments, ht⟩ := Option.bind_eq_some_iff.mp ht
  obtain ⟨-, ht⟩ := guard_bind_eq_some.mp ht
  exact SyntaxTree.mem_preorder_of_mem_namedChildren
    (SyntaxTree.mem_preorder_of_child? hn harguments) (List.mem_of_find?_eq_some ht)

theorem mem_preorder_of_takenMember? {root property : Node} {c member : Cursor}
    (hc : c ∈ (Cursor.root root).preorder) (h : takenMember? c = some (member, property)) :
    member ∈ (Cursor.root root).preorder ∧ property ∈ root.preorder ∧
      property.kind = .propertyIdentifier := by
  obtain ⟨parent, hparent, h⟩ := Option.bind_eq_some_iff.mp h
  obtain ⟨-, h⟩ := guard_bind_eq_some.mp h
  obtain ⟨-, h⟩ := guard_bind_eq_some.mp h
  obtain ⟨found, hfound, h⟩ := Option.bind_eq_some_iff.mp h
  obtain ⟨hkind, h⟩ := guard_bind_eq_some.mp h
  cases h
  have hparent := Cursor.mem_preorder_of_parent? hc hparent
  exact ⟨hparent,
    SyntaxTree.mem_preorder_of_child? (SyntaxTree.focus_mem_preorder hparent) hfound, hkind⟩

/-! ## Parameters -/

/-- What can stand before and after the name of a parameter. -/
def parameterMarks : List (String × String) := [("", ""), ("", "?"), ("...", "")]

/-- What can be written for a parameter: nothing of it, or a name with the marks
of a default or of a rest. -/
inductive WrittenIn (root : Node) : Except Fault String → Prop where
  | unnamed : WrittenIn root (.ok "?")
  | named {x : Node} {before after : String} (inside : x ∈ root.preorder)
      (isName : x.kind = .identifier) (marks : (before, after) ∈ parameterMarks) :
      WrittenIn root (marked before x after)

theorem marked_plain (n : Node) : marked "" n "" = n.text := by
  unfold marked
  cases n.text with
  | error e => rfl
  | ok s =>
    show Except.ok ("" ++ s ++ "") = Except.ok s
    rw [String.empty_append, String.append_empty]

section Parameters
variable {root n : Node}

theorem writtenIn_restParameter (hn : n ∈ root.preorder) : WrittenIn root (restParameter n) := by
  unfold restParameter
  split
  · next target htarget =>
    obtain ⟨hmem, hkind⟩ := SyntaxTree.mem_preorder_of_firstOfKind? hn htarget
    exact .named hmem hkind (by decide)
  · exact .unnamed

theorem writtenIn_defaultedParameter (hn : n ∈ root.preorder) :
    WrittenIn root (defaultedParameter n) := by
  unfold defaultedParameter
  split
  · next left hleft =>
    split
    · next hkind => exact .named (SyntaxTree.mem_preorder_of_child? hn hleft) hkind (by decide)
    · exact .unnamed
  · exact .unnamed

theorem writtenIn_annotatedParameter (hn : n ∈ root.preorder) :
    WrittenIn root (annotatedParameter n) := by
  unfold annotatedParameter
  split
  · exact .unnamed
  next pattern hpattern =>
  have hmem := SyntaxTree.mem_preorder_of_child? hn hpattern
  split
  · exact writtenIn_restParameter hmem
  split
  · exact .unnamed
  · next hkind =>
    refine .named hmem (not_not.mp hkind) ?_
    split <;> decide

theorem parameter_cases (hn : n ∈ root.preorder) : WrittenIn root (parameter n) := by
  unfold parameter
  split
  · next hkind =>
    rw [← marked_plain]
    exact .named hn hkind (by decide)
  · exact writtenIn_defaultedParameter hn
  · exact writtenIn_restParameter hn
  · exact writtenIn_annotatedParameter hn
  · exact writtenIn_annotatedParameter hn
  · exact .unnamed

/-- The nodes that the parameters of a function are written from. -/
def parametersOf (n : Node) : List Node :=
  match n.child? .parameter with
  | some single => [single]
  | none =>
    match n.child? .parameters with
    | none => []
    | some list =>
      list.namedChildren.filter fun p => p.kind ≠ .comment ∧ p.kind ≠ .decorator

theorem parameters_eq (n : Node) :
    parameters n = ",".intercalate <$> (parametersOf n).mapM parameter := by
  unfold parameters parametersOf
  cases n.child? .parameter with
  | some single =>
    dsimp only
    rw [List.mapM_cons, List.mapM_nil]
    cases parameter single with
    | error e => rfl
    | ok s => exact congrArg Except.ok String.intercalate_singleton.symm
  | none =>
    cases n.child? .parameters with
    | none => rfl
    | some list => rw [map_eq_pure_bind]

theorem mem_preorder_of_mem_parametersOf {p : Node} (hn : n ∈ root.preorder)
    (hp : p ∈ parametersOf n) : p ∈ root.preorder := by
  unfold parametersOf at hp
  split at hp
  · next single hsingle =>
    rw [List.mem_singleton.mp hp]
    exact SyntaxTree.mem_preorder_of_child? hn hsingle
  split at hp
  · cases hp
  · next list hlist =>
    exact SyntaxTree.mem_preorder_of_mem_namedChildren
      (SyntaxTree.mem_preorder_of_child? hn hlist) (List.mem_filter.mp hp).1

end Parameters

/-! ## Comments -/

theorem mem_preorder_of_commentBefore? {root : Node} {c comment : Cursor}
    (hc : c ∈ (Cursor.root root).preorder) (h : commentBefore? c = some comment) :
    comment ∈ (Cursor.root root).preorder ∧ comment.kind = .comment := by
  obtain ⟨prev, hprev, h⟩ := Option.bind_eq_some_iff.mp h
  obtain ⟨hkind, h⟩ := guard_bind_eq_some.mp h
  have hmem := Cursor.mem_preorder_of_prev? hc hprev
  split at h
  · cases h
    exact ⟨hmem, hkind⟩
  · obtain ⟨-, h⟩ := guard_bind_eq_some.mp h
    cases h
    exact ⟨hmem, hkind⟩

theorem mem_preorder_of_describingComment? {root : Node} {c comment : Cursor}
    (hc : c ∈ (Cursor.root root).preorder) (h : describingComment? c = some comment) :
    comment ∈ (Cursor.root root).preorder ∧ comment.kind = .comment := by
  rcases Option.or_eq_some_iff.mp h with hbefore | ⟨-, habove⟩
  · exact mem_preorder_of_commentBefore? hc hbefore
  · split at habove
    · next p hp =>
      split at habove
      · exact mem_preorder_of_commentBefore? (Cursor.mem_preorder_of_parent? hc hp) habove
      · cases habove
    · cases habove

end CodeAtlas.Analysis
