import CodeAtlas.Proofs.Analysis.Readable
import CodeAtlas.Proofs.Syntax.Source
import CodeAtlas.Syntax.Defect
/-
  Every pass over a file gives an answer.

  `WellPlaced` is what a parser promises of its tree: ranges that are cut
  between characters, a name in every exported name, and a class above every
  class body. On such a tree every text can be read (`readable_locate`), so
  every pass gives an answer, and the uses that are noted are of names that
  the table holds (`answers_noteUses`). A tree without errors has an outline,
  then (`analyse_of_survey`).
-/

namespace CodeAtlas.Syntax.SyntaxTree

variable {α : Type}

mutual

theorem mem_preorder_of_search? {b : SyntaxTree α} : ∀ t : SyntaxTree α,
    search? t = some b → b ∈ t.preorder
  | node l e cs, h => by
    unfold search? at h
    split at h
    · cases h
      exact mem_preorder_self _
    · rw [preorder]
      exact List.mem_cons_of_mem _ (mem_preorderAll_of_searchAll? cs h)

theorem mem_preorderAll_of_searchAll? {b : SyntaxTree α} : ∀ ts : List (SyntaxTree α),
    searchAll? ts = some b → b ∈ preorderAll ts
  | [], h => by cases h
  | t :: ts, h => by
    unfold searchAll? at h
    rw [preorderAll, List.mem_append]
    split at h
    · rcases Option.or_eq_some_iff.mp h with h | ⟨-, h⟩
      · exact Or.inl (mem_preorder_of_search? t h)
      · exact Or.inr (mem_preorderAll_of_searchAll? ts h)
    · exact Or.inr (mem_preorderAll_of_searchAll? ts h)

end

/-- The node to report is a node of the tree. -/
theorem mem_preorder_of_defect? {t b : SyntaxTree α} (h : t.defect? = some b) :
    b ∈ t.preorder := by
  unfold defect? at h
  split at h
  · cases h
    cases hsearch : search? t with
    | none => exact mem_preorder_self t
    | some b => exact mem_preorder_of_search? t hsearch
  · cases h

theorem defect?_eq_none {t : SyntaxTree α} : t.defect? = none ↔ t.label.hasError = false := by
  unfold defect?
  cases t.label.hasError <;> simp

end CodeAtlas.Syntax.SyntaxTree

namespace CodeAtlas.Analysis

open CodeAtlas.Syntax

/-! ## Uses -/

/-- Uses of names that the table holds are all noted. -/
theorem answers_noteUses {t : Imports} {uses : List (String × String)}
    (h : ∀ use ∈ uses, use.1 ∈ t.aliases.keys) : Answers (uses.foldlM noteUse t) := by
  induction uses generalizing t with
  | nil => exact .pure t
  | cons use uses ih =>
    have hknown := h use List.mem_cons_self
    rw [List.foldlM_cons]
    cases hnote : t.noteUser? use.1 use.2 with
    | none => exact (Imports.noteUser?_eq_none.mp hnote hknown).elim
    | some t₁ =>
      refine Answers.bind ⟨t₁, noteUse_eq_ok.mpr hnote⟩ fun t' ht' => ih fun other hother => ?_
      rw [Imports.keys_noteUser? (noteUse_eq_ok.mp ht')]
      exact h other (List.mem_cons_of_mem use hother)

/-- A node uses only names that are imported. -/
theorem isAlias_of_useAt? {isAlias : String → Bool} {callables : List String} {c : Cursor}
    {use : String × String} (h : useAt? isAlias callables c = .ok (some use)) :
    isAlias use.1 = true := by
  obtain ⟨used, hused, h⟩ := bind_eq_ok.mp h
  cases used with
  | none => cases h
  | some name =>
    obtain ⟨caller, -, h⟩ := bind_eq_ok.mp h
    obtain ⟨who, -, rfl⟩ := Option.map_eq_some_iff.mp (pure_eq_ok.mp h)
    unfold usedAlias? at hused
    split at hused
    · obtain ⟨text, -, hused⟩ := bind_eq_ok.mp hused
      split at hused
      · next halias =>
        cases hused
        exact (Bool.and_eq_true_iff.mp halias).1
      · cases hused
    · cases hused

/-- Nodes that can be read for uses have them all noted. -/
theorem answers_withUses {nodes : List Cursor} {callables : List String} {t : Imports}
    (h : Answers (nodes.mapM (useAt? t.aliases.contains callables))) :
    Answers (withUses nodes callables t) := by
  refine h.bind fun uses huses => answers_noteUses fun use huse => ?_
  obtain ⟨_, hmem, rfl⟩ := List.mem_filterMap.mp huse
  obtain ⟨c, -, hc⟩ := exists_of_mem_mapM huses hmem
  exact Table.contains_eq_true.mp (isAlias_of_useAt? hc)

/-! ## The passes -/

namespace Readable

variable {root : Node} (h : Readable root)
include h

theorem importsIn : Answers (Analysis.importsIn (nodesOf root)) :=
  (Answers.mapM fun _ hc => h.importSteps (mem_nodesOf.mp hc)).bind fun _ _ => .pure _

theorem collect : Answers (Inventory.collect (nodesOf root)) :=
  (Answers.mapM fun _ hc => h.declarationsAt (mem_nodesOf.mp hc)).bind fun _ _ => .pure _

theorem declarationsOf
    (hspecifiers : ∀ n ∈ root.preorder, n.kind = .exportSpecifier → n.child? .name ≠ none) :
    Answers (Analysis.declarationsOf root) :=
  h.collect.bind fun _ _ => (h.exportsOf hspecifiers).bind fun _ _ => .pure _

theorem withUses (hbody : root.kind ≠ .classBody) (callables : List String) (t : Imports) :
    Answers (Analysis.withUses (nodesOf root) callables t) :=
  answers_withUses (.mapM fun _ hc => h.useAt? hbody (mem_nodesOf.mp hc))

theorem survey (hbody : root.kind ≠ .classBody)
    (hspecifiers : ∀ n ∈ root.preorder, n.kind = .exportSpecifier → n.child? .name ≠ none) :
    Answers (Analysis.survey root) := by
  refine h.importsIn.bind fun found _ => (h.declarationsOf hspecifiers).bind fun declared _ => ?_
  exact (h.withUses hbody _ found).bind fun _ _ => .pure _

theorem callTable (hbody : root.kind ≠ .classBody) (isAlias : String → Bool)
    (declared callables : List String) :
    Answers (Analysis.callTable (nodesOf root) isAlias declared callables) :=
  (Answers.mapM fun _ hc => h.callAt? hbody (mem_nodesOf.mp hc)).bind fun _ _ => .pure _

/-- A bad node is reported with its place. -/
theorem syntaxErrorAt (path : Option String) {bad : Node} (hbad : bad ∈ root.preorder) :
    ∃ message, Analysis.syntaxErrorAt path bad =
      .ok ⟨message, bad.extent.start.row + 1, bad.extent.start.column⟩ := by
  have hdescribe : Answers (describeDefect bad) := by
    unfold describeDefect
    split
    · exact .pure _
    refine (h bad hbad).bind fun _ _ => ?_
    split
    · exact .pure _
    · exact .pure _
  obtain ⟨what, hwhat⟩ := hdescribe
  exact ⟨_, bind_eq_ok.mpr ⟨what, hwhat, rfl⟩⟩

end Readable

/-! ## Trees of a source -/

/-- What a parser promises of the tree of a source. -/
structure WellPlaced (code : String) (tree : SyntaxTree Span) : Prop where
  start : ∀ t ∈ tree.preorder, (⟨t.extent.start⟩ : String.Pos.Raw).IsValid code
  stop : ∀ t ∈ tree.preorder, (⟨t.extent.stop⟩ : String.Pos.Raw).IsValid code
  /-- An exported name in braces has a name. -/
  specifiers : ∀ t ∈ tree.preorder, t.kind = .exportSpecifier → t.child? .name ≠ none
  /-- Only the top has no parent. -/
  bodies : tree.kind ≠ .classBody

namespace WellPlaced

variable {code : String} {tree : SyntaxTree Span} (h : WellPlaced code tree)
include h

theorem readable_locate : Readable (tree.locate code) := by
  intro n hn
  obtain ⟨u, hu, -, hextent⟩ := SyntaxTree.exists_of_mem_locate hn
  obtain ⟨text, htext⟩ := Source.answers_textOf (h.start u hu) (h.stop u hu)
  refine ⟨text, ?_⟩
  rw [SyntaxTree.text, mapError_eq_ok, hextent]
  exact htext

theorem specifiers_locate : ∀ n ∈ (tree.locate code).preorder, n.kind = .exportSpecifier →
    n.child? .name ≠ none := by
  intro n hn hkind
  obtain ⟨u, hu, rfl, -⟩ := SyntaxTree.exists_of_mem_locate hn
  rw [SyntaxTree.kind, SyntaxTree.locate, SyntaxTree.label_map] at hkind
  rw [SyntaxTree.locate, SyntaxTree.child?_map, Ne, Option.map_eq_none_iff]
  exact h.specifiers u hu hkind

theorem kind_locate_ne : (tree.locate code).kind ≠ .classBody := by
  rw [SyntaxTree.kind, SyntaxTree.locate, SyntaxTree.label_map]
  exact h.bodies

/-- The passes give a survey and calls. -/
theorem exists_survey : ∃ s calls, survey (tree.locate code) = .ok s ∧
    s.callsIn (tree.locate code) = .ok calls := by
  obtain ⟨s, hs⟩ := h.readable_locate.survey h.kind_locate_ne h.specifiers_locate
  obtain ⟨calls, hcalls⟩ := h.readable_locate.callTable h.kind_locate_ne
    s.imports.aliases.contains s.declarations.declared s.declarations.callables
  exact ⟨s, calls, hs, hcalls⟩

end WellPlaced

/-- A tree without errors that the passes can read has an outline. -/
theorem analyse_of_survey {code : String} {path : Option String} {tree : SyntaxTree Span}
    (hnone : (tree.locate code).defect? = none) {s : Survey}
    (hs : survey (tree.locate code) = .ok s) {calls : Table String (List String)}
    (hcalls : s.callsIn (tree.locate code) = .ok calls) :
    analyse code path tree = .ok (s.outline calls (openingDescription code)) := by
  have hroot : readTree code path tree = .ok (tree.locate code) := by
    simp only [readTree, hnone]
  refine bind_eq_ok.mpr ⟨_, hroot, mapError_eq_ok.mpr ?_⟩
  exact bind_eq_ok.mpr ⟨s, hs, bind_eq_ok.mpr ⟨calls, hcalls, rfl⟩⟩

end CodeAtlas.Analysis
