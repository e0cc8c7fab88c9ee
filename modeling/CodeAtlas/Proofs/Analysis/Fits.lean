import CodeAtlas.Proofs.Analysis.CallGraph
import CodeAtlas.Proofs.Analysis.Texts
import CodeAtlas.Proofs.Index.RoundTrip
/-
  The outline of a clean tree can be written.

  The parts of an outline are dealt with one after the other: declarations by
  the places they are made at, imports by the steps that build their table,
  exports by their statements, and callees by the calls. `outlineFits_analyse`
  is about the whole, and `numbersFit_analyse` about its line numbers.
-/

namespace CodeAtlas.Analysis

open CodeAtlas.Syntax CodeAtlas.Text CodeAtlas.Index

/-! ## Declarations -/

theorem mem_namingKinds_of_function {k : Kind}
    (h : k.isFunctionDeclaration = true ∨ k.isFunctionValue = true) : k ∈ namingKinds := by
  revert h
  cases k <;> simp [Kind.isFunctionDeclaration, Kind.isFunctionValue, namingKinds]

theorem mem_namingKinds_of_class {k : Kind}
    (h : k.isClassDeclaration = true ∨ k = .classExpression) : k ∈ namingKinds := by
  revert h
  cases k <;> simp [Kind.isClassDeclaration, namingKinds]

namespace Clean

variable {root : Node} (h : Clean root)
include h

theorem binding {host declarator : Cursor} {target : Node} {name : String}
    (hhost : host ∈ (Cursor.root root).preorder) (binding : Binding host declarator target name) :
    Plain name := by
  have hdeclarator := SyntaxTree.focus_mem_preorder
    (Cursor.mem_preorder_of_mem_namedChildren hhost binding.mem)
  exact h.identifier (SyntaxTree.mem_preorder_of_child? hdeclarator binding.found)
    binding.identifier name binding.text

/-- The name that a function is recorded under is plain. -/
theorem functionSite {host F span place : Cursor} {name : String}
    (hhost : host ∈ (Cursor.root root).preorder) (site : FunctionSite host F name span place) :
    Plain name := by
  have hF := SyntaxTree.focus_mem_preorder (site.mem_preorder hhost).1
  cases site with
  | statement kind _ named =>
    exact h.nameOr hF (mem_namingKinds_of_function (Or.inl kind)) (by decide) named
  | bound binding => exact h.binding hhost binding
  | method binding _ _ _ _ named => exact (h.binding hhost binding).member (h.memberName hF named)
  | @pair declarator object member _ _ keyNode _ key binding value mem _ _ _ memberKey keyKind
      named =>
    have hdeclarator := Cursor.mem_preorder_of_mem_namedChildren hhost binding.mem
    have hobject := Cursor.mem_preorder_of_child? hdeclarator value
    have hmember := SyntaxTree.focus_mem_preorder
      (Cursor.mem_preorder_of_mem_namedChildren hobject mem)
    have hkey := h.words keyNode (SyntaxTree.mem_preorder_of_child? hmember memberKey)
      (by rw [keyKind]; decide) key named
    exact (h.binding hhost binding).member hkey
  | default _ _ kind named => exact h.nameOr hF (mem_namingKinds_of_function kind) (by decide) named
  | exports _ _ kind named =>
    exact h.nameOr hF (mem_namingKinds_of_function (Or.inr kind)) (by decide) named
  | exportsMember assigned _ _ ofProperty propertyKind _ named =>
    have hassignment := SyntaxTree.focus_mem_preorder (assigned.mem_preorder hhost).1
    have hleft := SyntaxTree.mem_preorder_of_child? hassignment assigned.onLeft
    exact h.words _ (SyntaxTree.mem_preorder_of_child? hleft ofProperty)
      (by rw [propertyKind]; decide) name named

theorem classSite {host K span : Cursor} {name : String}
    (hhost : host ∈ (Cursor.root root).preorder) (site : ClassSite host K name span) :
    Plain name := by
  have hK := (site.mem_preorder hhost).1
  cases site with
  | statement kind _ named =>
    exact h.nameOr (SyntaxTree.focus_mem_preorder hK) (mem_namingKinds_of_class (Or.inl kind))
      (by decide) named
  | bound binding => exact h.binding hhost binding
  | default _ _ kind named =>
    exact h.nameOr (SyntaxTree.focus_mem_preorder hK) (mem_namingKinds_of_class kind) (by decide)
      named
  | @exports _ _ _ title _ _ kind named =>
    have htitle := h.classTitle? hK (mem_namingKinds_of_class (Or.inr kind)) named
    cases htext : title.filter (· ≠ "") with
    | none =>
      rw [Option.getD_none]
      decide
    | some s =>
      rw [Option.getD_some]
      exact htitle s (Option.filter_eq_some_iff.mp htext).1

variable (hfed : ∀ n ∈ root.preorder, TextIs LineFed n)
include hfed

theorem method {F : Cursor} {m : MethodEntry} (hF : F ∈ (Cursor.root root).preorder)
    (hm : methodEntry F = .ok m) : MethodFits m := by
  obtain ⟨hname, hparams, hdescription, hline⟩ := methodEntry_eq_ok hm
  have hnode := SyntaxTree.focus_mem_preorder hF
  have hplain := h.memberName hnode hname
  refine ⟨hplain.ne_empty, hplain.oneLine, hplain.not_mem (by decide), hplain.not_mem (by decide),
    h.parameters hnode hparams, ?_, oneLine_descriptionOf hfed hF hdescription⟩
  rw [hline]
  exact Int.natCast_nonneg _

/-- What a node records can be written. -/
theorem function {host src : Cursor} {e : FunctionEntry}
    (hhost : host ∈ (Cursor.root root).preorder) (hrec : Recorded host src (.function e)) :
    FunctionFits e := by
  cases hrec with
  | function site described entry =>
    obtain ⟨hF, hspan, hplace⟩ := site.mem_preorder hhost
    obtain ⟨params, hparams, rfl⟩ := functionEntry_eq_ok entry
    exact ⟨(h.functionSite hhost site).entryName,
      h.parameters (SyntaxTree.focus_mem_preorder hF) hparams, Int.natCast_nonneg _,
      Int.natCast_nonneg _, oneLine_descriptionOf hfed hplace described⟩

theorem classDef {host src : Cursor} {e : ClassEntry}
    (hhost : host ∈ (Cursor.root root).preorder) (hrec : Recorded host src (.classDef e)) :
    ClassFits e := by
  cases hrec with
  | classDef site described entry =>
    obtain ⟨hK, hspan⟩ := site.mem_preorder hhost
    obtain ⟨hbase, hmethods, hname, hstart, hend, hdescription⟩ := classEntry_eq_ok entry
    have hplain := h.classSite hhost site
    rw [← hname] at hplain
    refine ⟨hplain.entryName, hplain.not_mem (by decide), ?_, ?_, ?_, ?_, ?_⟩
    · intro s hs
      have hs := h.baseName? (SyntaxTree.focus_mem_preorder hK) hbase s hs
      exact ⟨hs.solid, hs.not_mem (by decide)⟩
    · rw [hstart]
      exact Int.natCast_nonneg _
    · rw [hend]
      exact Int.natCast_nonneg _
    · rw [hdescription]
      exact oneLine_descriptionOf hfed hhost described
    · intro m hm
      obtain ⟨body, F, hbody, hF, -, hentry⟩ := mem_methodsOf hmethods hm
      exact h.method hfed (Cursor.mem_preorder_of_mem_namedChildren
        (Cursor.mem_preorder_of_child? hK hbody) hF) hentry

theorem constant {host src : Cursor} {k : ConstantEntry}
    (hhost : host ∈ (Cursor.root root).preorder) (hrec : Recorded host src (.constant k)) :
    ConstantFits k := by
  cases hrec with
  | constant binding described =>
    exact ⟨(h.binding hhost binding).entryName, Int.natCast_nonneg _,
      oneLine_descriptionOf hfed hhost described⟩

end Clean

/-! ## Imports -/

/-- An import whose module and member stay in one line. -/
structure StepFits (s : ImportStep) : Prop where
  module : OneLine s.module
  member : ∀ m ∈ s.member, OneLine m

theorem oneLine_unquote {s : String} (h : OneLine s) : OneLine (SyntaxTree.unquote s) :=
  oneLine_of_subset (fun _ hc => List.mem_of_mem_drop (List.dropLast_subset _ hc)) h

namespace Clean

variable {root : Node} (h : Clean root)
include h

theorem literalText? {n : Node} {module : String} (hn : n ∈ root.preorder)
    (hmodule : n.literalText? = .ok (some module)) : OneLine module := by
  unfold SyntaxTree.literalText? at hmodule
  split at hmodule
  · next kind =>
    obtain ⟨text, htext, hmodule⟩ := bind_eq_ok.mp hmodule
    cases pure_eq_ok.mp hmodule
    exact oneLine_unquote (h.strings n hn kind text htext)
  · cases hmodule

theorem nameText {n : Node} {name : String} (hn : n ∈ root.preorder)
    (hkind : n.kind = .string ∨ TextIs Plain n) (hname : n.nameText = .ok name) :
    OneLine name := by
  unfold SyntaxTree.nameText at hname
  split at hname
  · next kind =>
    obtain ⟨text, htext, hname⟩ := bind_eq_ok.mp hname
    rw [← pure_eq_ok.mp hname]
    exact oneLine_unquote (h.strings n hn kind text htext)
  · next kind => exact ((hkind.resolve_left kind) name hname).oneLine

theorem loadedModule? {n : Node} {module : String} (hn : n ∈ root.preorder)
    (hmodule : Analysis.loadedModule? n = .ok (some module)) : OneLine module := by
  unfold Analysis.loadedModule? at hmodule
  dsimp only at hmodule
  split at hmodule
  · cases hmodule
  next callee _ =>
  obtain ⟨word, -, hmodule⟩ := bind_eq_ok.mp hmodule
  cases word with
  | false => cases hmodule
  | true =>
    simp only [Bool.not_true, Bool.false_eq_true, if_false] at hmodule
    split at hmodule
    · cases hmodule
    · next argument hargument =>
      exact h.literalText? (mem_preorder_of_firstArgument? hn hargument) hmodule

theorem sourceModule? {n : Node} {module : String} (hn : n ∈ root.preorder)
    (hmodule : Analysis.sourceModule? n = .ok (some module)) : OneLine module := by
  unfold Analysis.sourceModule? at hmodule
  split at hmodule
  · cases hmodule
  · next source hsource =>
    exact h.literalText? (SyntaxTree.mem_preorder_of_child? hn hsource) hmodule

theorem specifierSteps {module : String} {n : Node} {steps : List ImportStep} {s : ImportStep}
    (hn : n ∈ root.preorder) (kind : n.kind = .importSpecifier) (hmodule : OneLine module)
    (hsteps : Analysis.specifierSteps module n = .ok steps) (hs : s ∈ steps) : StepFits s := by
  unfold Analysis.specifierSteps at hsteps
  split at hsteps
  · exact (not_mem_of_pure_nil hsteps hs).elim
  · next name hname =>
    obtain ⟨member, hmember, hsteps⟩ := bind_eq_ok.mp hsteps
    -- whatever the local name is, there is one step with this member
    have hone : ∃ localName, steps = [⟨module, some member, localName⟩] := by
      dsimp only at hsteps
      split at hsteps
      · obtain ⟨localName, -, hsteps⟩ := bind_eq_ok.mp hsteps
        exact ⟨localName, (pure_eq_ok.mp hsteps).symm⟩
      split at hsteps
      · obtain ⟨localName, -, hsteps⟩ := bind_eq_ok.mp hsteps
        exact ⟨localName, (pure_eq_ok.mp hsteps).symm⟩
      · exact ⟨none, (pure_eq_ok.mp hsteps).symm⟩
    obtain ⟨localName, rfl⟩ := hone
    rw [List.mem_singleton] at hs
    subst hs
    refine ⟨hmodule, ?_⟩
    intro m hm
    cases hm
    exact h.nameText (SyntaxTree.mem_preorder_of_child? hn hname)
      (h.specifiers n hn (Or.inl kind) .name (by decide) name hname) hmember

theorem clausePartSteps {module : String} {n : Node} {steps : List ImportStep} {s : ImportStep}
    (hn : n ∈ root.preorder) (hmodule : OneLine module)
    (hsteps : Analysis.clausePartSteps module n = .ok steps) (hs : s ∈ steps) : StepFits s := by
  unfold Analysis.clausePartSteps at hsteps
  split at hsteps
  · obtain ⟨text, -, hsteps⟩ := bind_eq_ok.mp hsteps
    obtain rfl := eq_of_pure_singleton hsteps hs
    exact ⟨hmodule, fun m hm => by cases hm; decide⟩
  · split at hsteps
    · obtain ⟨text, -, hsteps⟩ := bind_eq_ok.mp hsteps
      obtain rfl := eq_of_pure_singleton hsteps hs
      exact ⟨hmodule, fun m hm => by cases hm; decide⟩
    · exact (not_mem_of_pure_nil hsteps hs).elim
  · obtain ⟨parts, hparts, hsteps⟩ := bind_eq_ok.mp hsteps
    rw [← pure_eq_ok.mp hsteps] at hs
    obtain ⟨specifier, hmem, steps', hsteps', hs⟩ := (mem_flatten_mapM hparts).mp hs
    obtain ⟨hmem, hkind⟩ := List.mem_filter.mp hmem
    exact h.specifierSteps (SyntaxTree.mem_preorder_of_mem_namedChildren hn hmem)
      (by simpa using hkind) hmodule hsteps' hs
  · exact (not_mem_of_pure_nil hsteps hs).elim

/-- A name that is imported as itself. -/
theorem ownName {module text : String} {n : Node} (hn : n ∈ root.preorder)
    (kind : n.kind ∈ wordKinds) (hmodule : OneLine module) (htext : n.text = .ok text)
    (localName : Option String) : StepFits ⟨module, some text, localName⟩ :=
  ⟨hmodule, fun m hm => by cases hm; exact (h.words n hn kind text htext).oneLine⟩

theorem requireClauseSteps {n : Node} {steps : List ImportStep} {s : ImportStep}
    (hn : n ∈ root.preorder) (hsteps : Analysis.requireClauseSteps n = .ok steps)
    (hs : s ∈ steps) : StepFits s := by
  obtain ⟨module, hmodule, hsteps⟩ := bind_eq_ok.mp hsteps
  split at hsteps
  · next module name hname =>
    obtain ⟨text, htext, hsteps⟩ := bind_eq_ok.mp hsteps
    obtain rfl := eq_of_pure_singleton hsteps hs
    obtain ⟨htree, hkind⟩ := SyntaxTree.mem_preorder_of_firstOfKind? hn hname
    exact h.ownName htree (by rw [hkind]; decide) (h.sourceModule? hn hmodule) htext _
  · exact (not_mem_of_pure_nil hsteps hs).elim

theorem statementSteps {n : Node} {steps : List ImportStep} {s : ImportStep}
    (hn : n ∈ root.preorder) (hsteps : Analysis.statementSteps n = .ok steps) (hs : s ∈ steps) :
    StepFits s := by
  obtain ⟨source, hsource, hsteps⟩ := bind_eq_ok.mp hsteps
  split at hsteps
  · next clause hclause =>
    exact h.requireClauseSteps (SyntaxTree.mem_preorder_of_firstOfKind? hn hclause).1 hsteps hs
  · exact (not_mem_of_pure_nil hsteps hs).elim
  · next module =>
    have hmodule := h.sourceModule? hn hsource
    obtain ⟨parts, hparts, hsteps⟩ := bind_eq_ok.mp hsteps
    rw [← pure_eq_ok.mp hsteps] at hs
    rcases List.mem_cons.mp hs with rfl | hs
    · exact ⟨hmodule, fun m hm => by cases hm⟩
    · obtain ⟨clause, hclause, steps', hsteps', hs⟩ := (mem_flatten_mapM hparts).mp hs
      have hclause := SyntaxTree.mem_preorder_of_mem_namedChildren hn (List.mem_filter.mp hclause).1
      obtain ⟨parts', hparts', hsteps'⟩ := bind_eq_ok.mp hsteps'
      rw [← pure_eq_ok.mp hsteps'] at hs
      obtain ⟨part, hpart, steps'', hsteps'', hs⟩ := (mem_flatten_mapM hparts').mp hs
      exact h.clausePartSteps (SyntaxTree.mem_preorder_of_mem_namedChildren hclause hpart) hmodule
        hsteps'' hs

theorem propertySteps {module : String} {n : Node} {steps : List ImportStep} {s : ImportStep}
    (hn : n ∈ root.preorder) (hmodule : OneLine module)
    (hsteps : Analysis.propertySteps module n = .ok steps) (hs : s ∈ steps) : StepFits s := by
  unfold Analysis.propertySteps at hsteps
  split at hsteps
  · next kind =>
    obtain ⟨text, htext, hsteps⟩ := bind_eq_ok.mp hsteps
    obtain rfl := eq_of_pure_singleton hsteps hs
    exact h.ownName hn (by rw [kind]; decide) hmodule htext _
  · split at hsteps
    · exact (not_mem_of_pure_nil hsteps hs).elim
    · next key hkey =>
      obtain ⟨hkey, hkind⟩ := Option.filter_eq_some_iff.mp hkey
      obtain ⟨localName, -, hsteps⟩ := bind_eq_ok.mp hsteps
      obtain ⟨text, htext, hsteps⟩ := bind_eq_ok.mp hsteps
      obtain rfl := eq_of_pure_singleton hsteps hs
      have hkind : key.kind = .propertyIdentifier := by simpa using hkind
      exact h.ownName (SyntaxTree.mem_preorder_of_child? hn hkey) (by rw [hkind]; decide) hmodule
        htext _
  · exact (not_mem_of_pure_nil hsteps hs).elim

theorem targetSteps {module : String} {target : Node} {steps : List ImportStep} {s : ImportStep}
    (htarget : target ∈ root.preorder) (hmodule : OneLine module)
    (hsteps : Analysis.targetSteps module target = .ok steps) (hs : s ∈ steps) : StepFits s := by
  unfold Analysis.targetSteps at hsteps
  split at hsteps
  · next kind =>
    obtain ⟨text, htext, hsteps⟩ := bind_eq_ok.mp hsteps
    obtain rfl := eq_of_pure_singleton hsteps hs
    exact h.ownName htarget (by rw [kind]; decide) hmodule htext _
  · obtain ⟨parts, hparts, hsteps⟩ := bind_eq_ok.mp hsteps
    rw [← pure_eq_ok.mp hsteps] at hs
    rcases List.mem_cons.mp hs with rfl | hs
    · exact ⟨hmodule, fun m hm => by cases hm⟩
    · obtain ⟨property, hmem, steps', hsteps', hs⟩ := (mem_flatten_mapM hparts).mp hs
      exact h.propertySteps (SyntaxTree.mem_preorder_of_mem_namedChildren htarget hmem) hmodule
        hsteps' hs
  · exact (not_mem_of_pure_nil hsteps hs).elim

theorem declaratorSteps {n : Node} {steps : List ImportStep} {s : ImportStep}
    (hn : n ∈ root.preorder) (hsteps : Analysis.declaratorSteps n = .ok steps) (hs : s ∈ steps) :
    StepFits s := by
  unfold Analysis.declaratorSteps at hsteps
  split at hsteps
  · exact (not_mem_of_pure_nil hsteps hs).elim
  · next value hvalue =>
    obtain ⟨module, hmodule, hsteps⟩ := bind_eq_ok.mp hsteps
    split at hsteps
    · next target htarget =>
      have hmodule := h.loadedModule? (SyntaxTree.mem_preorder_of_child? hn hvalue) hmodule
      exact h.targetSteps (SyntaxTree.mem_preorder_of_child? hn htarget) hmodule hsteps hs
    · exact (not_mem_of_pure_nil hsteps hs).elim

theorem loadMemberSteps {c : Cursor} {steps : List ImportStep} {s : ImportStep}
    (hc : c ∈ (Cursor.root root).preorder) (hsteps : Analysis.loadMemberSteps c = .ok steps)
    (hs : s ∈ steps) : StepFits s := by
  obtain ⟨module, hmodule, hsteps⟩ := bind_eq_ok.mp hsteps
  split at hsteps
  · next module member property htaken =>
    obtain ⟨localName, -, hsteps⟩ := bind_eq_ok.mp hsteps
    obtain ⟨text, htext, hsteps⟩ := bind_eq_ok.mp hsteps
    obtain rfl := eq_of_pure_singleton hsteps hs
    obtain ⟨-, htree, hkind⟩ := mem_preorder_of_takenMember? hc htaken
    exact h.ownName htree (by rw [hkind]; decide)
      (h.loadedModule? (SyntaxTree.focus_mem_preorder hc) hmodule) htext _
  · exact (not_mem_of_pure_nil hsteps hs).elim

theorem importSteps {c : Cursor} {steps : List ImportStep} {s : ImportStep}
    (hc : c ∈ (Cursor.root root).preorder) (hsteps : Analysis.importSteps c = .ok steps)
    (hs : s ∈ steps) : StepFits s := by
  unfold Analysis.importSteps at hsteps
  split at hsteps
  · exact h.statementSteps (SyntaxTree.focus_mem_preorder hc) hsteps hs
  · exact h.declaratorSteps (SyntaxTree.focus_mem_preorder hc) hsteps hs
  · exact h.loadMemberSteps hc hsteps hs
  · exact (not_mem_of_pure_nil hsteps hs).elim

end Clean

/-- The members that a module has after one more of them is noted. -/
def noteMember (old : Option (List String)) (member : String) : List String :=
  if member = "" then old.getD [] else insertNew (old.getD []) member

theorem members_foldl_add (steps : List ImportStep) (t : Imports) :
    (steps.foldl Imports.add t).members
      = (steps.map fun s => (s.module, s.member.getD "")).foldl
          (fun t e => t.alter e.1 fun old => noteMember old e.2) t.members := by
  induction steps generalizing t with
  | nil => rfl
  | cons s steps ih => exact ih (t.add s)

theorem oneLine_noteMember {old : Option (List String)} {member : String}
    (hold : ∀ m ∈ old.getD [], OneLine m) (hmember : OneLine member) :
    ∀ m ∈ noteMember old member, OneLine m := by
  intro m hm
  unfold noteMember at hm
  split at hm
  · exact hold m hm
  · rcases mem_insertNew.mp hm with hm | rfl
    · exact hold m hm
    · exact hmember

namespace Clean

variable {root : Node} (h : Clean root)
include h

/-- Modules and members of the table of imports stay in one line. -/
theorem importsIn {found : Imports} (hfound : Analysis.importsIn (nodesOf root) = .ok found) :
    ∀ e ∈ found.members.entries, OneLine e.1 ∧ ∀ m ∈ e.2, OneLine m := by
  obtain ⟨lists, hlists, hfound⟩ := bind_eq_ok.mp hfound
  rw [← pure_eq_ok.mp hfound, members_foldl_add]
  have hsteps : ∀ s ∈ lists.flatten, StepFits s := by
    intro s hs
    obtain ⟨c, hc, steps, hsteps, hs⟩ := (mem_flatten_mapM hlists).mp hs
    exact h.importSteps (mem_nodesOf.mp hc) hsteps hs
  have hmember : ∀ s ∈ lists.flatten, OneLine (s.member.getD "") := by
    intro s hs
    cases hm : s.member with
    | none => decide
    | some m => exact (hsteps s hs).member m hm
  apply Table.forall_entries_foldl_alter noteMember
    (fun module members => OneLine module ∧ ∀ m ∈ members, OneLine m)
  · intro e he
    obtain ⟨s, hs, rfl⟩ := List.mem_map.mp he
    exact ⟨(hsteps s hs).module, oneLine_noteMember (fun m hm => by cases hm) (hmember s hs)⟩
  · intro e he old hold
    obtain ⟨s, hs, rfl⟩ := List.mem_map.mp he
    exact ⟨hold.1, oneLine_noteMember hold.2 (hmember s hs)⟩
  · intro e he
    cases he

/-! ## Exports -/

theorem specifierExport {allTypes : Bool} {line : Int} {n : Node} {e : ExportEntry}
    (hn : n ∈ root.preorder) (kind : n.kind = .exportSpecifier)
    (he : Analysis.specifierExport allTypes line n = .ok e) :
    OneLine e.name ∧ ∀ l ∈ e.localName, OneLine l := by
  unfold Analysis.specifierExport at he
  split at he
  · cases he
  next name hname =>
  have hfield : ∀ f ∈ [Field.name, Field.renamed], ∀ t, n.child? f = some t →
      ∀ s, t.nameText = .ok s → OneLine s := fun f hf t ht s hs =>
    h.nameText (SyntaxTree.mem_preorder_of_child? hn ht)
      (h.specifiers n hn (Or.inr kind) f hf t ht) hs
  obtain ⟨localName, hlocal, he⟩ := bind_eq_ok.mp he
  have hlocal := hfield .name (by decide) name hname localName hlocal
  -- the exported name is the alias or the local name itself
  have hexported : ∃ exported, OneLine exported ∧ e.name = exported ∧
      e.localName = if localName = exported then none else some localName := by
    dsimp only at he
    split at he
    · next other hother =>
      obtain ⟨exported, hexported, he⟩ := bind_eq_ok.mp he
      cases pure_eq_ok.mp he
      exact ⟨exported, hfield .renamed (by decide) other hother exported hexported, rfl, rfl⟩
    · cases pure_eq_ok.mp he
      exact ⟨localName, hlocal, rfl, rfl⟩
  obtain ⟨exported, hone, hname, hlocalName⟩ := hexported
  rw [hname, hlocalName]
  refine ⟨hone, ?_⟩
  intro l hl
  split at hl
  · cases hl
  · cases hl
    exact hlocal

theorem defaultInnerName? {n : Node} {name : Option String} (hn : n ∈ root.preorder)
    (hname : Analysis.defaultInnerName? n = .ok name) : ∀ l ∈ name, OneLine l := by
  unfold Analysis.defaultInnerName? at hname
  split at hname
  · next declaration hdeclaration =>
    obtain ⟨hdeclaration, hkind⟩ := Option.filter_eq_some_iff.mp hdeclaration
    have hkind : declaration.kind ∈ namingKinds := by
      rcases Bool.or_eq_true_iff.mp hkind with hkind | hkind
      · exact mem_namingKinds_of_function (Or.inl hkind)
      · exact mem_namingKinds_of_class (Or.inl hkind)
    exact fun l hl => (h.declaredName? (SyntaxTree.mem_preorder_of_child? hn hdeclaration) hkind
      hname l hl).oneLine
  split at hname
  · cases hname
    intro l hl
    cases hl
  next value hvalue =>
  have htree := SyntaxTree.mem_preorder_of_child? hn hvalue
  split at hname
  · next hkind =>
    obtain ⟨text, htext, rfl⟩ := map_eq_ok.mp hname
    intro l hl
    cases hl
    exact (h.identifier htree hkind text htext).oneLine
  split at hname
  · next hkind =>
    have hkind : value.kind ∈ namingKinds := by
      rcases Bool.or_eq_true_iff.mp hkind with hkind | hkind
      · exact mem_namingKinds_of_function (Or.inr hkind)
      · exact mem_namingKinds_of_class (Or.inr (by simpa using hkind))
    exact fun l hl => (h.declaredName? htree hkind hname l hl).oneLine
  · cases hname
    intro l hl
    cases hl

theorem declarationExports {n : Node} {found : List (String × ExportForm)} {e : String × ExportForm}
    (hn : n ∈ root.preorder) (hfound : Analysis.declarationExports n = .ok found)
    (he : e ∈ found) : OneLine e.1 := by
  -- a declaration with a name of its own exports that name
  have hown : ∀ (form : ExportForm) (declared : Option String), n.kind ∈ namingKinds →
      Analysis.declaredName? n = .ok declared →
      (declared.map fun name => (name, form)).toList = found → OneLine e.1 := by
    intro form declared hkind hdeclared heq
    rw [← heq] at he
    obtain ⟨name, hname, rfl⟩ := Option.map_eq_some_iff.mp (Option.mem_toList.mp he)
    exact (h.declaredName? hn hkind hdeclared name hname).oneLine
  unfold Analysis.declarationExports at hfound
  split at hfound
  · next hkind =>
    obtain ⟨declared, hdeclared, hfound⟩ := bind_eq_ok.mp hfound
    refine hown .value declared ?_ hdeclared (pure_eq_ok.mp hfound)
    simp only [Bool.or_eq_true, decide_eq_true_eq] at hkind
    rcases hkind with (hkind | hkind) | hkind
    · exact mem_namingKinds_of_function (Or.inl hkind)
    · exact mem_namingKinds_of_class (Or.inl hkind)
    · rw [hkind]
      decide
  split at hfound
  · obtain ⟨names, hnames, hfound⟩ := bind_eq_ok.mp hfound
    rw [← pure_eq_ok.mp hfound] at he
    obtain ⟨name, hname, rfl⟩ := List.mem_map.mp he
    obtain ⟨target, htarget, htext⟩ := exists_of_mem_mapM hnames hname
    obtain ⟨declarator, hdeclarator, htarget⟩ := List.mem_filterMap.mp htarget
    obtain ⟨htarget, hkind⟩ := Option.filter_eq_some_iff.mp htarget
    have htree := SyntaxTree.mem_preorder_of_mem_namedChildren hn (List.mem_filter.mp hdeclarator).1
    exact (h.identifier (SyntaxTree.mem_preorder_of_child? htree htarget) (by simpa using hkind)
      name htext).oneLine
  split at hfound
  · next hkind =>
    obtain ⟨declared, hdeclared, hfound⟩ := bind_eq_ok.mp hfound
    refine hown .type declared ?_ hdeclared (pure_eq_ok.mp hfound)
    simp only [Kind.isTypeDeclaration, Bool.or_eq_true, decide_eq_true_eq] at hkind
    rcases hkind with hkind | hkind
    · rw [hkind]
      decide
    · rw [hkind]
      decide
  · exact (not_mem_of_pure_nil hfound he).elim

theorem statementExports {n : Node} {es : List ExportEntry} {e : ExportEntry}
    (hn : n ∈ root.preorder) (hes : Analysis.statementExports n = .ok es) (he : e ∈ es) :
    OneLine e.name ∧ ∀ l ∈ e.localName, OneLine l := by
  unfold Analysis.statementExports at hes
  dsimp only at hes
  split at hes
  · next clause hclause =>
    obtain ⟨specifier, hmem, hspecifier⟩ := exists_of_mem_mapM hes he
    obtain ⟨hmem, hkind⟩ := List.mem_filter.mp hmem
    have htree := (SyntaxTree.mem_preorder_of_firstOfKind? hn hclause).1
    exact h.specifierExport (SyntaxTree.mem_preorder_of_mem_namedChildren htree hmem)
      (by simpa using hkind) hspecifier
  split at hes
  · obtain ⟨inner, hinner, hes⟩ := bind_eq_ok.mp hes
    obtain rfl := eq_of_pure_singleton hes he
    exact ⟨show OneLine "default" by decide, h.defaultInnerName? hn hinner⟩
  split at hes
  · exact (not_mem_of_pure_nil hes he).elim
  · next declaration hdeclaration =>
    obtain ⟨found, hfound, hes⟩ := bind_eq_ok.mp hes
    rw [← pure_eq_ok.mp hes] at he
    obtain ⟨pair, hpair, rfl⟩ := List.mem_map.mp he
    have htree := SyntaxTree.mem_preorder_of_child? hn hdeclaration
    exact ⟨h.declarationExports htree hfound hpair, fun l hl => by cases hl⟩

theorem exportsOf {es : List ExportEntry} (hes : Analysis.exportsOf root = .ok es) :
    ∀ e ∈ es, OneLine e.name ∧ ∀ l ∈ e.localName, OneLine l := by
  intro e he
  obtain ⟨parts, hparts, hes⟩ := bind_eq_ok.mp hes
  rw [← pure_eq_ok.mp hes] at he
  obtain ⟨statement, hmem, es', hes', he⟩ := (mem_flatten_mapM hparts).mp he
  exact h.statementExports (SyntaxTree.mem_preorder_of_mem_namedChildren
    (SyntaxTree.mem_preorder_self root) (List.mem_filter.mp hmem).1) hes' he

/-! ## Calls -/

theorem calledName? {isAlias : String → Bool} {n : Node} {callee : String}
    (hn : n ∈ root.preorder) (hcallee : Analysis.calledName? isAlias n = .ok (some callee)) :
    Plain callee := by
  unfold Analysis.calledName? at hcallee
  split at hcallee
  · cases hcallee
  next function hfunction =>
  have htree := SyntaxTree.mem_preorder_of_child? hn hfunction
  split at hcallee
  · next hkind =>
    obtain ⟨text, htext, htexts⟩ := map_eq_ok.mp hcallee
    cases htexts
    exact h.identifier htree hkind callee htext
  split at hcallee
  · cases hcallee
  split at hcallee
  · cases hcallee
  next property hproperty =>
  obtain ⟨hproperty, hkind⟩ := Option.filter_eq_some_iff.mp hproperty
  have hkind : property.kind = .propertyIdentifier := by simpa using hkind
  have hword : TextIs Plain property :=
    h.words property (SyntaxTree.mem_preorder_of_child? htree hproperty) (by rw [hkind]; decide)
  obtain ⟨text, htext, htexts⟩ := map_eq_ok.mp hcallee
  cases htexts
  unfold calledMember at htext
  split at htext
  · exact hword callee htext
  · next object hobject =>
    obtain ⟨hobject, hobjectKind⟩ := Option.filter_eq_some_iff.mp hobject
    obtain ⟨name, hname, htext⟩ := bind_eq_ok.mp htext
    split at htext
    · obtain ⟨member, hmember, htext⟩ := bind_eq_ok.mp htext
      rw [← pure_eq_ok.mp htext]
      exact (h.identifier (SyntaxTree.mem_preorder_of_child? htree hobject)
        (by simpa using hobjectKind) name hname).member (hword member hmember)
    · exact hword callee htext

/-- The callees of a file stay in one line. -/
theorem callsIn {s : Survey} {calls : Table String (List String)}
    (hcalls : s.callsIn root = .ok calls) :
    ∀ e ∈ calls.entries, ∀ callee ∈ e.2, OneLine callee := by
  obtain ⟨outs, houts, rfl⟩ := callsIn_eq_ok hcalls
  have hcallee : ∀ e ∈ outs.filterMap id, OneLine e.2 := by
    intro e he
    obtain ⟨n, hn, hcall⟩ := (mem_calls_iff houts).mp he
    have hnode := SyntaxTree.focus_mem_preorder (mem_nodesOf.mp hn)
    exact (h.calledName? hnode hcall.called).oneLine
  apply Table.forall_entries_foldl_alter (fun old callee => insertNew (old.getD []) callee)
    (fun _ callees => ∀ callee ∈ callees, OneLine callee)
  · intro e he callee hmem
    rw [List.mem_singleton.mp hmem]
    exact hcallee e he
  · intro e he old hold callee hmem
    rcases mem_insertNew.mp hmem with hmem | rfl
    · exact hold callee hmem
    · exact hcallee e he
  · intro e he
    cases he

end Clean

/-! ## Outlines -/

/-- Every entry of the inventory is recorded by a node of the file. -/
theorem holds_recorded {root : Node} {ds : Inventory}
    (h : Inventory.collect (nodesOf root) = .ok ds) :
    ds.Holds fun d => ∃ host ∈ (Cursor.root root).preorder, ∃ src, Recorded host src d := by
  have hrecorded : ∀ d, (∃ n ∈ nodesOf root, ∃ l, declarationsAt n = .ok l ∧ d ∈ l) →
      ∃ host ∈ (Cursor.root root).preorder, ∃ src, Recorded host src d := by
    rintro d ⟨host, hhost, l, hl, hd⟩
    exact ⟨host, mem_nodesOf.mp hhost, exists_recorded hl hd⟩
  have hholds := Inventory.holds_collect h
  exact ⟨fun e he => (hholds.functions e he).imp_right (hrecorded _),
    fun e he => (hholds.classes e he).imp_right (hrecorded _),
    fun e he => (hholds.constants e he).imp_right (hrecorded _)⟩

/-- The outline of a clean tree can be written. -/
theorem Clean.outlineFits {root : Node} (h : Clean root)
    (hfed : ∀ n ∈ root.preorder, TextIs LineFed n) {s : Survey} (hs : survey root = .ok s)
    {calls : Table String (List String)} (hcalls : s.callsIn root = .ok calls)
    {description : String} (hdescription : OneLine description) :
    OutlineFits (s.outline calls description) := by
  obtain ⟨found, hpasses⟩ := survey_eq_ok hs
  have hholds := holds_recorded hpasses.declarations
  constructor
  case description => exact hdescription
  case imports =>
    intro i hi
    obtain ⟨e, he, rfl⟩ := List.mem_map.mp hi
    rw [(withUses_keep hpasses.uses).1] at he
    exact h.importsIn hpasses.imports e he
  case classes =>
    intro c hc
    obtain ⟨e, he, rfl⟩ := List.mem_map.mp hc
    obtain ⟨-, host, hhost, src, hrec⟩ := hholds.classes e he
    exact h.classDef hfed hhost hrec
  case functions =>
    intro f hf
    obtain ⟨e, he, rfl⟩ := List.mem_map.mp hf
    obtain ⟨-, host, hhost, src, hrec⟩ := hholds.functions e he
    exact h.function hfed hhost hrec
  case constants =>
    intro k hk
    obtain ⟨e, he, rfl⟩ := List.mem_map.mp hk
    obtain ⟨-, host, hhost, src, hrec⟩ := hholds.constants e he
    exact h.constant hfed hhost hrec
  case exports => exact h.exportsOf hpasses.exports
  case calls => exact h.callsIn hcalls

/-- The outline of a source whose tree is clean can be written. -/
theorem outlineFits_analyse {code : String} {path : Option String} {tree : SyntaxTree Span}
    {m : Outline} (hcode : LineFed code) (h : Clean (tree.locate code))
    (hm : analyse code path tree = .ok m) : OutlineFits m := by
  obtain ⟨s, calls, hs, hcalls, rfl⟩ := analyse_eq_ok hm
  have hfed : ∀ n ∈ (tree.locate code).preorder, TextIs LineFed n := by
    intro n hn text htext c hc
    exact hcode c (SyntaxTree.mem_text_locate hn htext c hc)
  exact h.outlineFits hfed hs hcalls (oneLine_openingDescription hcode)

/-- The line numbers of an outline are bounded by the length of the source. -/
theorem numbersFit_analyse {code : String} {path : Option String} {tree : SyntaxTree Span}
    {m : Outline} (hm : analyse code path tree = .ok m)
    (hlength : code.length + 1 < 10 ^ widthLimit) : NumbersFit m := by
  obtain ⟨s, calls, hs, hcalls, rfl⟩ := analyse_eq_ok hm
  obtain ⟨found, hpasses⟩ := survey_eq_ok hs
  have hholds := holds_recorded hpasses.declarations
  have hlines : ∀ c ∈ (Cursor.root (tree.locate code)).preorder,
      c.focus.startLine < 10 ^ widthLimit ∧ c.focus.endLine < 10 ^ widthLimit := by
    intro c hc
    obtain ⟨hstart, hend⟩ := SyntaxTree.lines_locate_le (SyntaxTree.focus_mem_preorder hc)
    exact ⟨Nat.lt_of_le_of_lt hstart hlength, Nat.lt_of_le_of_lt hend hlength⟩
  constructor
  case functions =>
    intro f hf
    obtain ⟨e, he, rfl⟩ := List.mem_map.mp hf
    obtain ⟨-, host, hhost, src, hrec⟩ := hholds.functions e he
    cases hrec with
    | function site _ entry =>
      obtain ⟨params, -, hentry⟩ := functionEntry_eq_ok entry
      rw [hentry]
      exact hlines _ (site.mem_preorder hhost).2.1
  case methods =>
    intro c hc m hm
    obtain ⟨e, he, rfl⟩ := List.mem_map.mp hc
    obtain ⟨-, host, hhost, src, hrec⟩ := hholds.classes e he
    cases hrec with
    | classDef site _ entry =>
      obtain ⟨body, F, hbody, hF, -, hentry⟩ := mem_methodsOf (classEntry_eq_ok entry).2.1 hm
      have hK := (site.mem_preorder hhost).1
      rw [(methodEntry_eq_ok hentry).2.2.2]
      exact (hlines F (Cursor.mem_preorder_of_mem_namedChildren
        (Cursor.mem_preorder_of_child? hK hbody) hF)).1

end CodeAtlas.Analysis
