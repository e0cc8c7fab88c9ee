import CodeAtlas.Proofs.Analysis.Passes
import CodeAtlas.Proofs.Analysis.Places
import CodeAtlas.Proofs.Analysis.Recorded
/-
  On a tree whose texts can all be read, every pass gives an answer.

  A pass fails only at a text that is none, at an exported name without a
  name, and at a class body that no class holds. `Readable` rules out the
  first; the other two are hypotheses of the lemmas that need them
  (`exportsOf`, `scopeLabel?`). There is one lemma for each function that
  reads texts, in the order in which the functions call one another.
-/

namespace CodeAtlas.Analysis

open CodeAtlas.Syntax

/-- Every node of the tree has a text. -/
def Readable (root : Node) : Prop := ∀ n ∈ root.preorder, Answers n.text

namespace Readable

variable {root : Node} (h : Readable root)
include h

theorem textOfChild {n t : Node} {f : Field} (hn : n ∈ root.preorder) (ht : n.child? f = some t) :
    Answers t.text := h t (SyntaxTree.mem_preorder_of_child? hn ht)

/-! ## Names -/

theorem literalText? {n : Node} (hn : n ∈ root.preorder) : Answers n.literalText? := by
  unfold SyntaxTree.literalText?
  split
  · exact (h n hn).bind fun _ _ => .pure _
  · exact .pure _

theorem nameText {n : Node} (hn : n ∈ root.preorder) : Answers n.nameText := by
  unfold SyntaxTree.nameText
  split
  · exact (h n hn).bind fun _ _ => .pure _
  · exact h n hn

theorem declaredName? {n : Node} (hn : n ∈ root.preorder) : Answers (Analysis.declaredName? n) :=
  .optionMapM fun _ ht => h.textOfChild hn ht

theorem nameOr {standIn : String} {n : Node} (hn : n ∈ root.preorder) :
    Answers (Analysis.nameOr standIn n) := (h.declaredName? hn).bind fun _ _ => .pure _

theorem isWord {word : String} {n : Node} (hn : n ∈ root.preorder) :
    Answers (Analysis.isWord word n) := by
  unfold Analysis.isWord
  split
  · exact (h n hn).bind fun _ _ => .pure _
  · exact .pure _

theorem loadedModule? {n : Node} (hn : n ∈ root.preorder) :
    Answers (Analysis.loadedModule? n) := by
  unfold Analysis.loadedModule?
  dsimp only
  split
  · exact .pure _
  next callee hcallee =>
  have hchild : n.child? .function = some callee := by
    split at hcallee
    · exact hcallee
    · cases hcallee
  refine (h.isWord (SyntaxTree.mem_preorder_of_child? hn hchild)).bind fun isRequire _ => ?_
  split
  · exact .pure _
  split
  · exact .pure _
  · next argument hargument => exact h.literalText? (mem_preorder_of_firstArgument? hn hargument)

theorem loadsModule {n : Node} (hn : n ∈ root.preorder) : Answers (Analysis.loadsModule n) := by
  unfold Analysis.loadsModule
  dsimp only
  split
  · exact .pure _
  next call hcall =>
  have hmem : call ∈ root.preorder := by
    split at hcall
    · exact SyntaxTree.mem_preorder_of_child? hn hcall
    · cases hcall
      exact hn
  exact (h.loadedModule? hmem).bind fun _ _ => .pure _

theorem isExportsMember {n : Node} (hn : n ∈ root.preorder) :
    Answers (Analysis.isExportsMember n) := by
  unfold Analysis.isExportsMember
  split
  · next object property hobject hproperty =>
    split
    · exact .pure _
    refine (h.isWord (SyntaxTree.mem_preorder_of_child? hn hobject)).bind fun isModule _ => ?_
    split
    · exact .pure _
    · exact (h.textOfChild hn hproperty).bind fun _ _ => .pure _
  · exact .pure _

theorem isExportsObject {n : Node} (hn : n ∈ root.preorder) :
    Answers (Analysis.isExportsObject n) := by
  refine (h.isWord hn).bind fun isExports _ => ?_
  split
  · exact .pure _
  · exact h.isExportsMember hn

theorem boundName? {c : Cursor} (hc : c ∈ (Cursor.root root).preorder) :
    Answers (Analysis.boundName? c) :=
  .optionMapM fun t ht => h t (mem_preorder_of_binding? hc ht).1

theorem placedClassTitle? {c : Cursor} (hc : c ∈ (Cursor.root root).preorder) :
    Answers (Analysis.placedClassTitle? c) := by
  unfold Analysis.placedClassTitle?
  split
  · exact .pure _
  next p hp =>
  split
  · exact .pure _
  split
  · split
    · exact .pure _
    · next left hleft =>
      have hp := SyntaxTree.focus_mem_preorder (Cursor.mem_preorder_of_parent? hc hp)
      refine (h.isExportsMember (SyntaxTree.mem_preorder_of_child? hp hleft)).bind fun whole _ => ?_
      split
      · exact .pure _
      · exact .pure _
  · exact .pure _

theorem classTitle? {c : Cursor} (hc : c ∈ (Cursor.root root).preorder) :
    Answers (Analysis.classTitle? c) := by
  have hbound : Answers (boundClassTitle? c) := by
    unfold boundClassTitle?
    split
    · exact (h.boundName? hc).bind fun _ _ => .pure _
    · exact .pure _
  refine hbound.bind fun bound _ => ?_
  -- the own name of the class is read only when no variable gives it one, and so on
  cases bound with
  | some name => exact .pure _
  | none =>
    refine (h.declaredName? (SyntaxTree.focus_mem_preorder hc)).bind fun declared _ => ?_
    cases declared with
    | some name => exact .pure _
    | none => exact h.placedClassTitle? hc

theorem memberName {n : Node} (hn : n ∈ root.preorder) : Answers (Analysis.memberName n) := by
  unfold Analysis.memberName
  split
  · next name hname =>
    split
    · exact h.textOfChild hn hname
    · exact .pure _
  · exact .pure _

theorem memberKind {n : Node} (hn : n ∈ root.preorder) : Answers (Analysis.memberKind n) := by
  unfold Analysis.memberKind
  split
  · exact .pure _
  split
  · exact .pure _
  split
  · exact .pure _
  · exact (h.memberName hn).bind fun _ _ => .pure _

theorem baseName? {n : Node} (hn : n ∈ root.preorder) : Answers (Analysis.baseName? n) :=
  .optionMapM fun t ht => h t (mem_preorder_of_base? hn ht).1

/-! ## Parameters -/

theorem written {r : Except Fault String} (hr : WrittenIn root r) : Answers r := by
  cases hr with
  | unnamed => exact .pure _
  | named inside _ _ => exact (h _ inside).bind fun _ _ => .pure _

theorem parameters {n : Node} (hn : n ∈ root.preorder) : Answers (Analysis.parameters n) := by
  rw [parameters_eq]
  refine (Answers.mapM fun p hp => ?_).map
  exact h.written (parameter_cases (mem_preorder_of_mem_parametersOf hn hp))

/-! ## Declarations -/

theorem descriptionOf {c : Cursor} (hc : c ∈ (Cursor.root root).preorder) :
    Answers (Analysis.descriptionOf c) := by
  unfold Analysis.descriptionOf
  split
  · next comment hcomment =>
    have hcomment := (mem_preorder_of_describingComment? hc hcomment).1
    exact (h _ (SyntaxTree.focus_mem_preorder hcomment)).bind fun _ _ => .pure _
  · exact .pure _

theorem oneFunction {name description : String} {function span : Node}
    (hfunction : function ∈ root.preorder) :
    Answers (Analysis.oneFunction name function span description) :=
  Answers.bind ((h.parameters hfunction).bind fun _ _ => .pure _) fun _ _ => .pure _

theorem methodEntry {c : Cursor} (hc : c ∈ (Cursor.root root).preorder) :
    Answers (Analysis.methodEntry c) := by
  have hn := SyntaxTree.focus_mem_preorder hc
  refine (h.memberKind hn).bind fun _ _ => ?_
  refine (h.memberName hn).bind fun _ _ => ?_
  refine (h.parameters hn).bind fun _ _ => ?_
  exact (h.descriptionOf hc).bind fun _ _ => .pure _

theorem methodsOf {c : Cursor} (hc : c ∈ (Cursor.root root).preorder) :
    Answers (Analysis.methodsOf c) := by
  unfold Analysis.methodsOf
  split
  · exact .pure _
  next body hbody =>
  refine (Answers.mapM fun m hm => ?_).bind fun _ _ => .pure _
  have hbody := Cursor.mem_preorder_of_child? hc hbody
  exact h.methodEntry
    (Cursor.mem_preorder_of_mem_namedChildren hbody (List.mem_filter.mp hm).1)

theorem oneClass {name description : String} {c : Cursor} {span : Node}
    (hc : c ∈ (Cursor.root root).preorder) :
    Answers (Analysis.oneClass name c span description) := by
  refine Answers.bind ?_ fun _ _ => .pure _
  refine (h.baseName? (SyntaxTree.focus_mem_preorder hc)).bind fun _ _ => ?_
  exact (h.methodsOf hc).bind fun _ _ => .pure _

theorem functionStatement {c : Cursor} (hc : c ∈ (Cursor.root root).preorder) :
    Answers (Analysis.functionStatement c) := by
  have hn := SyntaxTree.focus_mem_preorder hc
  unfold Analysis.functionStatement
  split
  · exact .pure _
  · exact (h.nameOr hn).bind fun _ _ => (h.descriptionOf hc).bind fun _ _ => h.oneFunction hn

theorem classStatement {c : Cursor} (hc : c ∈ (Cursor.root root).preorder) :
    Answers (Analysis.classStatement c) := by
  have hn := SyntaxTree.focus_mem_preorder hc
  unfold Analysis.classStatement
  split
  · exact .pure _
  · exact (h.nameOr hn).bind fun _ _ => (h.descriptionOf hc).bind fun _ _ => h.oneClass hc

theorem memberFunction {container : String} {c : Cursor}
    (hc : c ∈ (Cursor.root root).preorder) : Answers (Analysis.memberFunction container c) := by
  have hn := SyntaxTree.focus_mem_preorder hc
  unfold Analysis.memberFunction
  split
  · exact (h.memberName hn).bind fun _ _ => (h.descriptionOf hc).bind fun _ _ => h.oneFunction hn
  · split
    · next value key hvalue hkey =>
      have hvalue := SyntaxTree.mem_preorder_of_child? hn (Option.filter_eq_some_iff.mp hvalue).1
      refine (h.textOfChild hn (Option.filter_eq_some_iff.mp hkey).1).bind fun _ _ => ?_
      exact (h.descriptionOf hc).bind fun _ _ => h.oneFunction hvalue
    · exact .pure _
  · exact .pure _

theorem objectFunctions {container : String} {c : Cursor}
    (hc : c ∈ (Cursor.root root).preorder) : Answers (Analysis.objectFunctions container c) := by
  unfold Analysis.objectFunctions
  split
  · refine (Answers.mapM fun m hm => ?_).bind fun _ _ => .pure _
    exact h.memberFunction (Cursor.mem_preorder_of_mem_namedChildren hc hm)
  · exact .pure _

theorem constantOf {isConst : Bool} {entry : ConstantEntry} {value : Option Node}
    (hvalue : ∀ v, value = some v → v ∈ root.preorder) :
    Answers (Analysis.constantOf isConst entry value) := by
  unfold Analysis.constantOf
  split
  · exact .pure _
  split
  · exact .pure _
  next value =>
  refine (h.loadsModule (hvalue value rfl)).bind fun loads _ => ?_
  split
  · exact .pure _
  · exact .pure _

theorem bindingDeclarations {isConst : Bool} {span : Node} {description : String} {c : Cursor}
    (hc : c ∈ (Cursor.root root).preorder) :
    Answers (Analysis.bindingDeclarations isConst span description c) := by
  have hn := SyntaxTree.focus_mem_preorder hc
  unfold Analysis.bindingDeclarations
  split
  · exact .pure _
  next target htarget =>
  refine (h.textOfChild hn (Option.filter_eq_some_iff.mp htarget).1).bind fun name _ => ?_
  dsimp only
  split
  · exact h.constantOf fun v hv => by cases hv
  next value hvalue =>
  have hvalue := Cursor.mem_preorder_of_child? hc hvalue
  split
  · exact h.oneFunction (SyntaxTree.focus_mem_preorder hvalue)
  split
  · exact h.oneClass hvalue
  refine (h.objectFunctions hvalue).bind fun _ _ => Answers.bind ?_ fun _ _ => .pure _
  apply h.constantOf
  intro v hv
  cases hv
  exact SyntaxTree.focus_mem_preorder hvalue

theorem variableStatement {c : Cursor} (hc : c ∈ (Cursor.root root).preorder) :
    Answers (Analysis.variableStatement c) := by
  unfold Analysis.variableStatement
  split
  · refine (h.descriptionOf hc).bind fun _ _ => ?_
    refine (Answers.mapM fun d hd => ?_).bind fun _ _ => .pure _
    exact h.bindingDeclarations
      (Cursor.mem_preorder_of_mem_namedChildren hc (List.mem_filter.mp hd).1)
  · exact .pure _

theorem exportStatement {c : Cursor} (hc : c ∈ (Cursor.root root).preorder) :
    Answers (Analysis.exportStatement c) := by
  unfold Analysis.exportStatement
  split
  · exact .pure _
  next target htarget =>
  have htarget := mem_preorder_of_defaultTarget? hc htarget
  have hn := SyntaxTree.focus_mem_preorder htarget
  refine (h.descriptionOf hc).bind fun _ _ => ?_
  split
  · exact (h.nameOr hn).bind fun _ _ => h.oneFunction hn
  split
  · exact (h.nameOr hn).bind fun _ _ => h.oneClass htarget
  · exact .pure _

theorem exportsDeclarations {statement assignment right : Cursor}
    (hstatement : statement ∈ (Cursor.root root).preorder)
    (hright : right ∈ (Cursor.root root).preorder) :
    Answers (Analysis.exportsDeclarations statement assignment right) := by
  have hn := SyntaxTree.focus_mem_preorder hright
  unfold Analysis.exportsDeclarations
  split
  · refine (h.nameOr hn).bind fun _ _ => ?_
    exact (h.descriptionOf hstatement).bind fun _ _ => h.oneFunction hn
  split
  · refine (h.classTitle? hright).bind fun _ _ => ?_
    exact (h.descriptionOf hstatement).bind fun _ _ => h.oneClass hright
  · exact .pure _

theorem assignmentDeclarations {statement assignment right : Cursor} {left : Node}
    (hstatement : statement ∈ (Cursor.root root).preorder)
    (hright : right ∈ (Cursor.root root).preorder) (hleft : left ∈ root.preorder) :
    Answers (Analysis.assignmentDeclarations statement assignment right left) := by
  refine (h.isExportsMember hleft).bind fun whole _ => ?_
  split
  · exact h.exportsDeclarations hstatement hright
  split
  · split
    · next object property hobject hproperty =>
      refine (h.isExportsObject (SyntaxTree.mem_preorder_of_child? hleft hobject)).bind ?_
      intro onExports _
      split
      · refine (h.textOfChild hleft (Option.filter_eq_some_iff.mp hproperty).1).bind fun _ _ => ?_
        refine (h.descriptionOf hstatement).bind fun _ _ => ?_
        exact h.oneFunction (SyntaxTree.focus_mem_preorder hright)
      · exact .pure _
    · exact .pure _
  · exact .pure _

theorem expressionStatement {c : Cursor} (hc : c ∈ (Cursor.root root).preorder) :
    Answers (Analysis.expressionStatement c) := by
  unfold Analysis.expressionStatement
  split
  · exact .pure _
  split
  · exact .pure _
  next assignment hassignment =>
  have hassignment := Cursor.mem_preorder_of_mem_namedChildren hc
    (Cursor.firstOfKind?_eq_some hassignment).1
  split
  · next left right hleft hright =>
    exact h.assignmentDeclarations hc (Cursor.mem_preorder_of_child? hassignment hright)
      (SyntaxTree.mem_preorder_of_child? (SyntaxTree.focus_mem_preorder hassignment) hleft)
  · exact .pure _

theorem declarationsAt {c : Cursor} (hc : c ∈ (Cursor.root root).preorder) :
    Answers (Analysis.declarationsAt c) := by
  unfold Analysis.declarationsAt
  split
  · exact h.functionStatement hc
  · exact h.functionStatement hc
  · exact h.classStatement hc
  · exact h.classStatement hc
  · exact h.variableStatement hc
  · exact h.variableStatement hc
  · exact h.exportStatement hc
  · exact h.expressionStatement hc
  · exact .pure _

/-! ## Exports -/

theorem specifierExport {allTypes : Bool} {line : Int} {n : Node} (hn : n ∈ root.preorder)
    (hname : n.child? .name ≠ none) : Answers (Analysis.specifierExport allTypes line n) := by
  unfold Analysis.specifierExport
  split
  · next hnone => exact (hname hnone).elim
  next name hname =>
  refine (h.nameText (SyntaxTree.mem_preorder_of_child? hn hname)).bind fun _ _ => ?_
  dsimp only
  split
  · next other hother =>
    exact (h.nameText (SyntaxTree.mem_preorder_of_child? hn hother)).bind fun _ _ => .pure _
  · exact .pure _

theorem defaultInnerName? {n : Node} (hn : n ∈ root.preorder) :
    Answers (Analysis.defaultInnerName? n) := by
  unfold Analysis.defaultInnerName?
  split
  · next declaration hdeclaration =>
    exact h.declaredName?
      (SyntaxTree.mem_preorder_of_child? hn (Option.filter_eq_some_iff.mp hdeclaration).1)
  split
  · exact .pure _
  next value hvalue =>
  have hvalue := SyntaxTree.mem_preorder_of_child? hn hvalue
  split
  · exact (h value hvalue).map
  split
  · exact h.declaredName? hvalue
  · exact .pure _

theorem variableNames {n : Node} (hn : n ∈ root.preorder) :
    Answers (Analysis.variableNames n) := by
  refine Answers.mapM fun t ht => ?_
  obtain ⟨d, hd, ht⟩ := List.mem_filterMap.mp ht
  have hd := SyntaxTree.mem_preorder_of_mem_namedChildren hn (List.mem_filter.mp hd).1
  exact h.textOfChild hd (Option.filter_eq_some_iff.mp ht).1

theorem declarationExports {n : Node} (hn : n ∈ root.preorder) :
    Answers (Analysis.declarationExports n) := by
  unfold Analysis.declarationExports
  split
  · exact (h.declaredName? hn).bind fun _ _ => .pure _
  split
  · exact (h.variableNames hn).bind fun _ _ => .pure _
  split
  · exact (h.declaredName? hn).bind fun _ _ => .pure _
  · exact .pure _

theorem statementExports {n : Node}
    (hspecifiers : ∀ m ∈ root.preorder, m.kind = .exportSpecifier → m.child? .name ≠ none)
    (hn : n ∈ root.preorder) : Answers (Analysis.statementExports n) := by
  unfold Analysis.statementExports
  dsimp only
  split
  · next clause hclause =>
    have hclause := (SyntaxTree.mem_preorder_of_firstOfKind? hn hclause).1
    refine Answers.mapM fun s hs => ?_
    obtain ⟨hs, hkind⟩ := List.mem_filter.mp hs
    have hs := SyntaxTree.mem_preorder_of_mem_namedChildren hclause hs
    exact h.specifierExport hs (hspecifiers s hs (by simpa using hkind))
  split
  · exact (h.defaultInnerName? hn).bind fun _ _ => .pure _
  split
  · exact .pure _
  next d hd =>
  exact (h.declarationExports (SyntaxTree.mem_preorder_of_child? hn hd)).bind fun _ _ => .pure _

theorem exportsOf
    (hspecifiers : ∀ m ∈ root.preorder, m.kind = .exportSpecifier → m.child? .name ≠ none) :
    Answers (Analysis.exportsOf root) := by
  refine (Answers.mapM fun n hn => ?_).bind fun _ _ => .pure _
  exact h.statementExports hspecifiers (SyntaxTree.mem_preorder_of_mem_namedChildren
    (SyntaxTree.mem_preorder_self root) (List.mem_filter.mp hn).1)

/-! ## Imports -/

theorem specifierSteps {module : String} {n : Node} (hn : n ∈ root.preorder) :
    Answers (Analysis.specifierSteps module n) := by
  unfold Analysis.specifierSteps
  split
  · exact .pure _
  next name hname =>
  have hname := SyntaxTree.mem_preorder_of_child? hn hname
  refine (h.nameText hname).bind fun _ _ => ?_
  dsimp only
  split
  · next other hother => exact (h.textOfChild hn hother).map.bind fun _ _ => .pure _
  split
  · exact (h name hname).map.bind fun _ _ => .pure _
  · exact .pure _

theorem clausePartSteps {module : String} {n : Node} (hn : n ∈ root.preorder) :
    Answers (Analysis.clausePartSteps module n) := by
  unfold Analysis.clausePartSteps
  split
  · exact (h n hn).bind fun _ _ => .pure _
  · split
    · next name hname =>
      have hname := (SyntaxTree.mem_preorder_of_firstOfKind? hn hname).1
      exact (h name hname).bind fun _ _ => .pure _
    · exact .pure _
  · refine (Answers.mapM fun s hs => ?_).bind fun _ _ => .pure _
    exact h.specifierSteps
      (SyntaxTree.mem_preorder_of_mem_namedChildren hn (List.mem_filter.mp hs).1)
  · exact .pure _

theorem sourceModule? {n : Node} (hn : n ∈ root.preorder) :
    Answers (Analysis.sourceModule? n) := by
  unfold Analysis.sourceModule?
  split
  · exact .pure _
  · next source hsource => exact h.literalText? (SyntaxTree.mem_preorder_of_child? hn hsource)

theorem requireClauseSteps {n : Node} (hn : n ∈ root.preorder) :
    Answers (Analysis.requireClauseSteps n) := by
  refine (h.sourceModule? hn).bind fun _ _ => ?_
  split
  · next name hname _ =>
    have hname := (SyntaxTree.mem_preorder_of_firstOfKind? hn hname).1
    exact (h name hname).bind fun _ _ => .pure _
  · exact .pure _

theorem statementSteps {n : Node} (hn : n ∈ root.preorder) :
    Answers (Analysis.statementSteps n) := by
  refine (h.sourceModule? hn).bind fun _ _ => ?_
  split
  · next clause hclause _ =>
    exact h.requireClauseSteps (SyntaxTree.mem_preorder_of_firstOfKind? hn hclause).1
  · exact .pure _
  · refine (Answers.mapM fun clause hclause => ?_).bind fun _ _ => .pure _
    have hclause :=
      SyntaxTree.mem_preorder_of_mem_namedChildren hn (List.mem_filter.mp hclause).1
    refine (Answers.mapM fun part hpart => ?_).bind fun _ _ => .pure _
    exact h.clausePartSteps (SyntaxTree.mem_preorder_of_mem_namedChildren hclause hpart)

theorem propertySteps {module : String} {n : Node} (hn : n ∈ root.preorder) :
    Answers (Analysis.propertySteps module n) := by
  unfold Analysis.propertySteps
  split
  · exact (h n hn).bind fun _ _ => .pure _
  · split
    · exact .pure _
    · next key hkey =>
      refine Answers.bind (.optionMapM fun t ht => ?_) fun _ _ => ?_
      · exact h.textOfChild hn (Option.filter_eq_some_iff.mp ht).1
      · exact (h.textOfChild hn (Option.filter_eq_some_iff.mp hkey).1).bind fun _ _ => .pure _
  · exact .pure _

theorem targetSteps {module : String} {target : Node} (htarget : target ∈ root.preorder) :
    Answers (Analysis.targetSteps module target) := by
  unfold Analysis.targetSteps
  split
  · exact (h target htarget).bind fun _ _ => .pure _
  · refine (Answers.mapM fun p hp => ?_).bind fun _ _ => .pure _
    exact h.propertySteps (SyntaxTree.mem_preorder_of_mem_namedChildren htarget hp)
  · exact .pure _

theorem declaratorSteps {n : Node} (hn : n ∈ root.preorder) :
    Answers (Analysis.declaratorSteps n) := by
  unfold Analysis.declaratorSteps
  split
  · exact .pure _
  next value hvalue =>
  refine (h.loadedModule? (SyntaxTree.mem_preorder_of_child? hn hvalue)).bind fun _ _ => ?_
  split
  · next target htarget _ => exact h.targetSteps (SyntaxTree.mem_preorder_of_child? hn htarget)
  · exact .pure _

theorem loadMemberSteps {c : Cursor} (hc : c ∈ (Cursor.root root).preorder) :
    Answers (Analysis.loadMemberSteps c) := by
  refine (h.loadedModule? (SyntaxTree.focus_mem_preorder hc)).bind fun _ _ => ?_
  split
  · next member property htaken _ =>
    obtain ⟨hmember, hproperty, -⟩ := mem_preorder_of_takenMember? hc htaken
    exact (h.boundName? hmember).bind fun _ _ => (h property hproperty).bind fun _ _ => .pure _
  · exact .pure _

theorem importSteps {c : Cursor} (hc : c ∈ (Cursor.root root).preorder) :
    Answers (Analysis.importSteps c) := by
  unfold Analysis.importSteps
  split
  · exact h.statementSteps (SyntaxTree.focus_mem_preorder hc)
  · exact h.declaratorSteps (SyntaxTree.focus_mem_preorder hc)
  · exact h.loadMemberSteps hc
  · exact .pure _

/-! ## Scopes, uses and calls -/

theorem methodScope? {c owner : Cursor} (hc : c ∈ (Cursor.root root).preorder)
    (howner : owner ∈ (Cursor.root root).preorder) : Answers (Analysis.methodScope? c owner) := by
  refine (h.classTitle? howner).bind fun _ _ => ?_
  split
  · exact .pure _
  · exact (h.memberName (SyntaxTree.focus_mem_preorder hc)).bind fun _ _ => .pure _

theorem valueScope? {c : Cursor} (hc : c ∈ (Cursor.root root).preorder) :
    Answers (Analysis.valueScope? c) := by
  refine (h.boundName? hc).bind fun _ _ => ?_
  split
  · exact .pure _
  split
  · exact (h.nameOr (SyntaxTree.focus_mem_preorder hc)).map
  · exact .pure _

/-- A class body that is not the top of the tree has a class above it. -/
theorem scopeLabel? (hbody : root.kind ≠ .classBody) {c : Cursor}
    (hc : c ∈ (Cursor.root root).preorder) : Answers (Analysis.scopeLabel? c) := by
  unfold Analysis.scopeLabel?
  split
  · exact h.declaredName? (SyntaxTree.focus_mem_preorder hc)
  split
  · next hmethod =>
    obtain ⟨p, hp, hkind⟩ := Cursor.parentIs_iff.mp hmethod.2
    have hpc := Cursor.mem_preorder_of_parent? hc hp
    -- the body is the top, which was ruled out, or a child of what must be its class
    rcases Cursor.eq_or_mem_children_of_mem_preorder hpc with rfl | ⟨owner, howner, hchild⟩
    · exact (hbody hkind).elim
    · rw [hp, Option.bind_some, Cursor.parent?_of_mem_children hchild]
      exact h.methodScope? hc howner
  split
  · exact h.valueScope? hc
  · exact .pure _

theorem enclosing? (hbody : root.kind ≠ .classBody) {callables : List String} {c : Cursor}
    (hc : c ∈ (Cursor.root root).preorder) : Answers (Analysis.enclosing? callables c) := by
  obtain ⟨focus, trail⟩ := c
  -- the scopes are looked for along the trail, and what lies on it is in the tree
  induction trail generalizing focus with
  | nil => exact .pure _
  | cons crumb rest ih =>
    have hparent := Cursor.mem_preorder_of_parent? hc rfl
    refine (h.scopeLabel? hbody hparent).bind fun label _ => ?_
    cases label with
    | none => exact ih crumb.parent hparent
    | some name =>
      dsimp only
      split
      · exact .pure _
      · exact ih crumb.parent hparent

theorem calledName? {isAlias : String → Bool} {n : Node} (hn : n ∈ root.preorder) :
    Answers (Analysis.calledName? isAlias n) := by
  unfold Analysis.calledName?
  split
  · exact .pure _
  next function hfunction =>
  have hfunction := SyntaxTree.mem_preorder_of_child? hn hfunction
  split
  · exact (h function hfunction).map
  split
  · exact .pure _
  split
  · exact .pure _
  next property hproperty =>
  have hproperty := h.textOfChild hfunction (Option.filter_eq_some_iff.mp hproperty).1
  refine Answers.map ?_
  unfold calledMember
  split
  · exact hproperty
  next object hobject =>
  refine (h.textOfChild hfunction (Option.filter_eq_some_iff.mp hobject).1).bind fun _ _ => ?_
  split
  · exact hproperty.bind fun _ _ => .pure _
  · exact hproperty

theorem useAt? (hbody : root.kind ≠ .classBody) {isAlias : String → Bool}
    {callables : List String} {c : Cursor} (hc : c ∈ (Cursor.root root).preorder) :
    Answers (Analysis.useAt? isAlias callables c) := by
  have hused : Answers (usedAlias? isAlias c) := by
    unfold usedAlias?
    split
    · refine (h _ (SyntaxTree.focus_mem_preorder hc)).bind fun _ _ => ?_
      split
      · exact .pure _
      · exact .pure _
    · exact .pure _
  refine hused.bind fun used _ => ?_
  cases used with
  | none => exact .pure _
  | some name => exact (h.enclosing? hbody hc).bind fun _ _ => .pure _

theorem callAt? (hbody : root.kind ≠ .classBody) {isAlias : String → Bool}
    {declared callables : List String} {c : Cursor} (hc : c ∈ (Cursor.root root).preorder) :
    Answers (Analysis.callAt? isAlias declared callables c) := by
  unfold Analysis.callAt?
  split
  · exact .pure _
  refine (h.calledName? (SyntaxTree.focus_mem_preorder hc)).bind fun callee _ => ?_
  split
  · exact .pure _
  refine (h.enclosing? hbody hc).bind fun caller _ => ?_
  split
  · exact .pure _
  split
  · exact .pure _
  · exact .pure _

end Readable

end CodeAtlas.Analysis
