import CodeAtlas.Proofs.Analysis.Redeclared
import CodeAtlas.Proofs.Analysis.Scopes
/-
  Names that are bound at the top of a file are kept.

  A later declaration of a name replaces an earlier one, so an entry can be lost
  but a name cannot: every name that a node of the file declares is a name of the
  inventory (`exists_declarationsAt`).

  A variable under `const` is declared unless its value loads a module, and then
  it is the pass for imports that binds it. The two passes come to the variable
  from different sides: one looks from the variable down into its value, the
  other from the call of `require` up to the variable.

  What is proved:
    1. `Keeps` says which variables are declared, and `mem_names_of_binding`
       that their names are names of the inventory;
    2. `bound_of_load` and `bound_of_member` say that the other variables are
       bound by an import, one for each shape that loads a module;
    3. `const_named_or_imported`: no constant at the top is lost.
-/

namespace CodeAtlas.Analysis

open CodeAtlas.Syntax

/-! ## Names of the inventory -/

/-- The name of what is declared. -/
def Declaration.name : Declaration → String
  | function f => f.name
  | classDef c => c.name
  | constant k => k.name

/-- The names of all entries. -/
def Inventory.names (ds : Inventory) : List String :=
  ds.functions.values.map (·.name) ++ ds.classes.values.map (·.name)
    ++ ds.constants.values.map (·.name)

theorem Listed.mem_names {events : List Declaration} {ds : Inventory} (h : Listed events ds)
    {d : Declaration} (hd : d ∈ events) : d.name ∈ ds.names := by
  unfold Inventory.names
  rw [List.mem_append, List.mem_append]
  cases d with
  | function f =>
    have hmem := List.mem_filterMap.mpr ⟨_, hd, show Declaration.function? _ = some f from rfl⟩
    exact Or.inl (Or.inl ((h.functions.keys f.name).mpr (List.mem_map_of_mem hmem)))
  | classDef c =>
    have hmem := List.mem_filterMap.mpr ⟨_, hd, show Declaration.class? _ = some c from rfl⟩
    exact Or.inl (Or.inr ((h.classes.keys c.name).mpr (List.mem_map_of_mem hmem)))
  | constant k =>
    have hmem := List.mem_filterMap.mpr ⟨_, hd, show Declaration.constant? _ = some k from rfl⟩
    exact Or.inr ((h.constants.keys k.name).mpr (List.mem_map_of_mem hmem))

/-- What a node of the file declares has its name in the inventory. -/
theorem exists_declarationsAt {root : Node} {ds : Inventory}
    (h : Inventory.collect (nodesOf root) = .ok ds) {host : Cursor}
    (hhost : host ∈ (Cursor.root root).preorder) :
    ∃ made, declarationsAt host = .ok made ∧
      ∀ name, (∃ d ∈ made, d.name = name) → name ∈ ds.names := by
  obtain ⟨events, ⟨parts, hparts, rfl⟩, hlisted⟩ := exists_recordings h
  obtain ⟨made, hmem, hmade⟩ := exists_ok_of_mapM hparts hhost
  refine ⟨made, hmade, ?_⟩
  rintro name ⟨d, hd, rfl⟩
  exact hlisted.mem_names (List.mem_flatten.mpr ⟨made, hmem, hd⟩)

theorem exists_of_oneFunction {name description : String} {function span : Node}
    {made : List Declaration} (h : oneFunction name function span description = .ok made) :
    ∃ d ∈ made, d.name = name := by
  obtain ⟨e, he, h⟩ := bind_eq_ok.mp h
  obtain ⟨params, -, rfl⟩ := functionEntry_eq_ok he
  rw [← pure_eq_ok.mp h]
  exact ⟨_, List.mem_singleton_self _, rfl⟩

theorem exists_of_oneClass {name description : String} {c : Cursor} {span : Node}
    {made : List Declaration} (h : oneClass name c span description = .ok made) :
    ∃ d ∈ made, d.name = name := by
  obtain ⟨e, he, h⟩ := bind_eq_ok.mp h
  rw [← pure_eq_ok.mp h]
  exact ⟨_, List.mem_singleton_self _, (classEntry_eq_ok he).2.2.1⟩

/-! ## Variables that are declared -/

/-- The variable of a declarator is declared: its value is a function or a class,
or it is a constant and its value loads no module. -/
inductive Keeps (isConst : Bool) (declarator : Node) : Prop where
  | function {value : Node} (found : declarator.child? .value = some value)
      (kind : value.kind.isFunctionValue = true)
  | classDef {value : Node} (found : declarator.child? .value = some value)
      (kind : value.kind = .classExpression)
  | constant (isConst : isConst = true) (loads : ∀ value, declarator.child? .value = some value →
      loadsModule value = .ok false)

section

variable {host declarator : Cursor} {target : Node} {name : String}
  (binding : Binding host declarator target name)
include binding

theorem Binding.plain :
    (declarator.focus.child? .name).filter (·.kind = .identifier) = some target := by
  rw [binding.found, Option.filter_some, if_pos (by simpa using binding.identifier)]

/-- What the list of variables declares holds what each variable declares. -/
theorem Binding.exists_part {made : List Declaration} (h : declarationsAt host = .ok made) :
    ∃ description part,
      bindingDeclarations (host.focus.holdsToken [.const]) host.focus description declarator
        = .ok part ∧ ∀ d ∈ part, d ∈ made := by
  have hstatement : variableStatement host = .ok made := by
    have hkind := binding.list
    simp only [Kind.isVariableDeclaration, Bool.or_eq_true, decide_eq_true_eq] at hkind
    rcases hkind with hkind | hkind
    · simpa only [declarationsAt, hkind] using h
    · simpa only [declarationsAt, hkind] using h
  rw [variableStatement, if_pos (by simpa using binding.top)] at hstatement
  obtain ⟨description, -, h⟩ := bind_eq_ok.mp hstatement
  obtain ⟨parts, hparts, h⟩ := bind_eq_ok.mp h
  have hmem : declarator ∈ host.namedChildren.filter (·.kind = .variableDeclarator) :=
    List.mem_filter.mpr ⟨binding.mem, by simpa using binding.kind⟩
  obtain ⟨part, hpart, hmade⟩ := exists_ok_of_mapM hparts hmem
  refine ⟨description, part, hmade, ?_⟩
  intro d hd
  rw [← pure_eq_ok.mp h]
  exact List.mem_flatten.mpr ⟨part, hpart, hd⟩

variable {isConst : Bool} {description : String} {span : Node} {part : List Declaration}
  (hpart : bindingDeclarations isConst span description declarator = .ok part)
include hpart

/-- A variable without a value may be a constant. -/
theorem Binding.part_of_none (hvalue : declarator.child? .value = none) :
    constantOf isConst ⟨name, span.startLine, description⟩ none = .ok part := by
  simpa only [bindingDeclarations, binding.plain, binding.text, ok_bind, hvalue] using hpart

/-- The value of a variable says what the variable declares. -/
theorem Binding.part_of_some {value : Cursor} (hvalue : declarator.child? .value = some value) :
    (value.kind.isFunctionValue = true ∧
      oneFunction name value.focus span description = .ok part) ∨
    (value.kind = .classExpression ∧ oneClass name value span description = .ok part) ∨
    value.kind.isFunctionValue = false ∧ value.kind ≠ .classExpression ∧
      ∃ functions constants,
        constantOf isConst ⟨name, span.startLine, description⟩ (some value.focus)
          = .ok constants ∧ part = functions ++ constants := by
  simp only [bindingDeclarations, binding.plain, binding.text, ok_bind, hvalue] at hpart
  split at hpart
  · next hfunction => exact Or.inl ⟨hfunction, hpart⟩
  next hfunction =>
  split at hpart
  · next hclass => exact Or.inr (Or.inl ⟨hclass, hpart⟩)
  · next hclass =>
    obtain ⟨functions, -, hpart⟩ := bind_eq_ok.mp hpart
    obtain ⟨constants, hconstants, hpart⟩ := bind_eq_ok.mp hpart
    exact Or.inr (Or.inr ⟨by simpa using hfunction, hclass, functions, constants, hconstants,
      (pure_eq_ok.mp hpart).symm⟩)

/-- A variable that is declared is declared under its name. -/
theorem Binding.exists_named (hkeeps : Keeps isConst declarator.focus) :
    ∃ d ∈ part, d.name = name := by
  have hfocus := Cursor.map_focus_child? declarator .value
  cases hvalue : declarator.child? .value with
  | none =>
    rw [hvalue] at hfocus
    have hconstant := binding.part_of_none hpart hvalue
    cases hkeeps with
    | function found => cases hfocus.trans found
    | classDef found => cases hfocus.trans found
    | constant isConst =>
      subst isConst
      cases hconstant
      exact ⟨_, List.mem_singleton_self _, rfl⟩
  | some value =>
    rw [hvalue] at hfocus
    rcases binding.part_of_some hpart hvalue with
      ⟨-, hfunction⟩ | ⟨-, hclass⟩ | ⟨hfunction, hclass, functions, constants, hconstant, rfl⟩
    · exact exists_of_oneFunction hfunction
    · exact exists_of_oneClass hclass
    · cases hkeeps with
      | function found kind =>
        cases hfocus.trans found
        cases hfunction.symm.trans kind
      | classDef found kind =>
        cases hfocus.trans found
        exact absurd kind hclass
      | constant isConst loads =>
        subst isConst
        simp only [constantOf, Bool.not_true, Bool.false_eq_true, if_false,
          loads value.focus hfocus.symm, ok_bind] at hconstant
        cases hconstant
        exact ⟨_, List.mem_append_right _ (List.mem_singleton_self _), rfl⟩

end

/-- The name of a variable that is declared is a name of the inventory. -/
theorem mem_names_of_binding {root : Node} {ds : Inventory}
    (h : Inventory.collect (nodesOf root) = .ok ds) {host declarator : Cursor} {target : Node}
    {name : String} (hhost : host ∈ (Cursor.root root).preorder)
    (binding : Binding host declarator target name)
    (hkeeps : Keeps (host.focus.holdsToken [.const]) declarator.focus) : name ∈ ds.names := by
  obtain ⟨made, hmade, hnames⟩ := exists_declarationsAt h hhost
  obtain ⟨description, part, hpart, hsub⟩ := binding.exists_part hmade
  obtain ⟨d, hd, hname⟩ := binding.exists_named hpart hkeeps
  exact hnames name ⟨d, hsub d hd, hname⟩

/-! ## Variables that are imported -/

theorem kind_of_loadedModule? {n : Node} {module : String}
    (h : loadedModule? n = .ok (some module)) : n.kind = .callExpression := by
  by_contra hkind
  simp only [loadedModule?, if_neg hkind] at h
  cases h

/-- Two shapes load a module: the call itself, and a member that is taken from
it. -/
theorem loadsModule_eq_true {n : Node} (h : loadsModule n = .ok true) :
    (∃ module, loadedModule? n = .ok (some module)) ∨
      n.kind = .memberExpression ∧ ∃ call module, n.child? .object = some call ∧
        loadedModule? call = .ok (some module) := by
  have hloads : ∀ call, (do return (← loadedModule? call).isSome : Except Fault Bool) = .ok true →
      ∃ module, loadedModule? call = .ok (some module) := by
    intro call hcall
    obtain ⟨loaded, hloaded, hcall⟩ := bind_eq_ok.mp hcall
    obtain ⟨module, rfl⟩ := Option.isSome_iff_exists.mp (pure_eq_ok.mp hcall)
    exact ⟨module, hloaded⟩
  by_cases hkind : n.kind = .memberExpression
  · cases hcall : n.child? .object with
    | none =>
      simp only [loadsModule, if_pos hkind, hcall] at h
      cases h
    | some call =>
      simp only [loadsModule, if_pos hkind, hcall] at h
      obtain ⟨module, hmodule⟩ := hloads call h
      exact Or.inr ⟨hkind, call, module, rfl, hmodule⟩
  · simp only [loadsModule, if_neg hkind] at h
    exact Or.inl (hloads n h)

section

variable {host declarator value : Cursor} {target : Node} {name module : String}
  (binding : Binding host declarator target name)
  (hvalue : declarator.child? .value = some value)
include binding hvalue

/-- A variable whose value is the call is bound from the variable. -/
theorem Binding.bound_of_load (hload : loadedModule? value.focus = .ok (some module)) :
    importSteps declarator = .ok [⟨module, some name, some name⟩] := by
  have hvalue' : declarator.focus.child? .value = some value.focus := by
    rw [← Cursor.map_focus_child?, hvalue, Option.map_some]
  simp only [importSteps, binding.kind, declaratorSteps, hvalue', hload, ok_bind, binding.found,
    targetSteps, binding.identifier, binding.text]
  rfl

/-- A variable whose value is a member of the call is bound from the call. -/
theorem Binding.bound_of_member {call : Cursor} {steps : List ImportStep}
    (hkind : value.kind = .memberExpression)
    (hproperty : (value.focus.child? .property).map SyntaxTree.kind = some .propertyIdentifier)
    (hcall : value.child? .object = some call)
    (hload : loadedModule? call.focus = .ok (some module)) (h : importSteps call = .ok steps) :
    ∃ member, steps = [⟨module, some member, some name⟩] := by
  obtain ⟨property, hproperty, hpropertyKind⟩ := Option.map_eq_some_iff.mp hproperty
  have htaken : takenMember? call = some (value, property) := by
    simp [takenMember?, Cursor.parent?_of_child? hcall, hkind, (Cursor.child?_eq_some hcall).2.2,
      hproperty, hpropertyKind]
  have hcallKind : call.kind = .callExpression := kind_of_loadedModule? hload
  simp only [importSteps, hcallKind, loadMemberSteps, hload, ok_bind, htaken,
    boundName?_of_binding binding hvalue] at h
  obtain ⟨member, -, h⟩ := bind_eq_ok.mp h
  exact ⟨member, (pure_eq_ok.mp h).symm⟩

end

/-- The name of a variable whose value loads a module is imported. -/
theorem mem_aliases_of_binding {root : Node} {found : Imports}
    (h : importsIn (nodesOf root) = .ok found)
    (hmembers : ∀ n ∈ root.preorder, n.kind = .memberExpression →
      (n.child? .property).map SyntaxTree.kind = some .propertyIdentifier)
    {host declarator value : Cursor} {target : Node} {name : String} (hname : name ≠ "")
    (hhost : host ∈ (Cursor.root root).preorder) (binding : Binding host declarator target name)
    (hvalue : declarator.child? .value = some value)
    (hloads : loadsModule value.focus = .ok true) : name ∈ found.aliases.keys := by
  have hdeclarator := Cursor.mem_preorder_of_mem_namedChildren hhost binding.mem
  have hvalueMem := Cursor.mem_preorder_of_child? hdeclarator hvalue
  have hbound : ∀ module member,
      ImportStep.bound? ⟨module, some member, some name⟩ = some name := by
    intro module member
    simp [ImportStep.bound?, hname]
  apply (mem_keys_importsIn h).mpr
  rcases loadsModule_eq_true hloads with ⟨module, hload⟩ | ⟨hkind, node, module, hnode, hload⟩
  · exact ⟨declarator, mem_nodesOf.mpr hdeclarator, _, binding.bound_of_load hvalue hload, _,
      List.mem_singleton_self _, hbound module name⟩
  · obtain ⟨call, hcall, rfl⟩ := Cursor.exists_child? hnode
    have hcallMem := mem_nodesOf.mpr (Cursor.mem_preorder_of_child? hvalueMem hcall)
    -- the pass gave an answer, so the text of the member could be read
    obtain ⟨lists, hlists, -⟩ := bind_eq_ok.mp h
    obtain ⟨steps, -, hsteps⟩ := exists_ok_of_mapM hlists hcallMem
    have hproperty := hmembers value.focus (SyntaxTree.focus_mem_preorder hvalueMem) hkind
    obtain ⟨member, rfl⟩ := binding.bound_of_member hvalue hkind hproperty hcall hload hsteps
    exact ⟨call, hcallMem, _, hsteps, _, List.mem_singleton_self _, hbound module member⟩

/-! ## Constants at the top -/

/-- A constant at the top of a file is listed, or its name is imported. Both
passes give an answer if the texts of the file can be read. -/
theorem const_named_or_imported (root : Node)
    (hidentifiers : ∀ n ∈ root.preorder, n.kind = .identifier → n.text ≠ .ok "")
    (hmembers : ∀ n ∈ root.preorder, n.kind = .memberExpression →
      (n.child? .property).map SyntaxTree.kind = some .propertyIdentifier) :
    (Readable root →
      (∀ n ∈ root.preorder, n.kind = .exportSpecifier → n.child? .name ≠ none) →
      Answers (importsIn (nodesOf root)) ∧ Answers (declarationsOf root)) ∧
    ∀ found ds exports, importsIn (nodesOf root) = .ok found →
      declarationsOf root = .ok (ds, exports) →
      ∀ host ∈ (Cursor.root root).preorder, host.focus.holdsToken [.const] = true →
      ∀ declarator target name, Binding host declarator target name →
        name ∈ ds.names ∨ name ∈ found.aliases.keys := by
  refine ⟨fun hreadable hspecifiers =>
    ⟨hreadable.importsIn, hreadable.declarationsOf hspecifiers⟩, ?_⟩
  intro found ds exports hfound hdeclarations host hhost hconst declarator target name binding
  obtain ⟨hds, -⟩ := declarationsOf_eq_ok.mp hdeclarations
  have hkept : Keeps true declarator.focus → name ∈ ds.names := fun hkeeps =>
    mem_names_of_binding hds hhost binding (hconst ▸ hkeeps)
  have hfocus := Cursor.map_focus_child? declarator .value
  cases hvalue : declarator.child? .value with
  | none =>
    rw [hvalue] at hfocus
    exact Or.inl (hkept (.constant rfl fun value hsome => by cases hfocus.trans hsome))
  | some value =>
    rw [hvalue] at hfocus
    obtain ⟨made, hmade, -⟩ := exists_declarationsAt hds hhost
    obtain ⟨description, part, hpart, -⟩ := binding.exists_part hmade
    rcases binding.part_of_some hpart hvalue with
      ⟨hfunction, -⟩ | ⟨hclass, -⟩ | ⟨-, -, functions, constants, hconstant, -⟩
    · exact Or.inl (hkept (.function hfocus.symm hfunction))
    · exact Or.inl (hkept (.classDef hfocus.symm hclass))
    · -- whether it loads a module was asked, and decides between the two passes
      rw [hconst] at hconstant
      obtain ⟨loads, hloads, -⟩ := bind_eq_ok.mp hconstant
      cases loads with
      | false =>
        refine Or.inl (hkept (.constant rfl fun other hother => ?_))
        cases hfocus.trans hother
        exact hloads
      | true =>
        have hdeclarator := Cursor.mem_preorder_of_mem_namedChildren hhost binding.mem
        have htarget := SyntaxTree.mem_preorder_of_child?
          (SyntaxTree.focus_mem_preorder hdeclarator) binding.found
        have hname : name ≠ "" := fun hempty =>
          hidentifiers target htarget binding.identifier (hempty ▸ binding.text)
        exact Or.inr (mem_aliases_of_binding hfound hmembers hname hhost binding hvalue hloads)

/-! ## A file with both shapes that load a module -/

def loadingCode : String := "const a=require('m')\nexport const b=require('n').c,d=1\n"

/-- A call of `require` with a name of one letter. -/
def requireCall (field : Field) (start : Nat) : SyntaxTree Span :=
  construct .callExpression (some field) start (start + 12) [
    construct .identifier (some .function) start (start + 7) [],
    construct .arguments (some .arguments) (start + 7) (start + 12) [
      construct .string none (start + 8) (start + 11) []]]

/-- The variable that is bound to a member. -/
def loadingVariable : SyntaxTree Span :=
  construct .variableDeclarator none 34 50 [
    construct .identifier (some .name) 34 35 [],
    construct .memberExpression (some .value) 36 50 [
      requireCall .object 36, construct .propertyIdentifier (some .property) 49 50 []]]

def loadingList : SyntaxTree Span :=
  construct .lexicalDeclaration (some .declaration) 28 54 [
    token .const 28 33,
    loadingVariable,
    construct .variableDeclarator none 51 54 [
      construct .identifier (some .name) 51 52 [],
      construct (.other "number") (some .value) 53 54 []]]

def loadingExport : SyntaxTree Span := construct .exportStatement none 21 54 [loadingList]

def loadingTree : SyntaxTree Span :=
  construct .program none 0 55 [
    construct .lexicalDeclaration none 0 20 [
      token .const 0 5,
      construct .variableDeclarator none 6 20 [
        construct .identifier (some .name) 6 7 [], requireCall .value 8]],
    loadingExport]

def loadingRoot : Node := loadingTree.locate loadingCode

/-- The exported list, in its place. -/
def loadingHost : Cursor :=
  ⟨loadingList.locate loadingCode, [⟨loadingExport.locate loadingCode, 0⟩, ⟨loadingRoot, 1⟩]⟩

theorem const_named_or_imported_loading :
    (∀ n ∈ loadingRoot.preorder, n.kind = .identifier → n.text ≠ .ok "") ∧
    (∀ n ∈ loadingRoot.preorder, n.kind = .memberExpression →
      (n.child? .property).map SyntaxTree.kind = some .propertyIdentifier) ∧
    ∃ found ds exports declarator target, importsIn (nodesOf loadingRoot) = .ok found ∧
      declarationsOf loadingRoot = .ok (ds, exports) ∧ found.aliases.keys = ["a", "b"] ∧
      ds.names = ["d"] ∧ loadingHost ∈ (Cursor.root loadingRoot).preorder ∧
      Binding loadingHost declarator target "b" ∧
      ("b" ∈ ds.names ∨ "b" ∈ found.aliases.keys) := by
  -- one evaluation for all that reads the source
  have hsource : (∀ n ∈ loadingRoot.preorder, n.kind = .identifier → n.text ≠ .ok "") ∧
      (∀ n ∈ loadingRoot.preorder, n.kind = .memberExpression →
        (n.child? .property).map SyntaxTree.kind = some .propertyIdentifier) ∧
      (importsIn (nodesOf loadingRoot)).map (fun found => found.aliases.keys) = .ok ["a", "b"] ∧
      (declarationsOf loadingRoot).map (fun made => made.1.names) = .ok ["d"] ∧
      SyntaxTree.text ((construct .identifier (some .name) 34 35 []).locate loadingCode)
        = .ok "b" := by decide +kernel
  obtain ⟨hidentifiers, hmembers, himports, hdeclarations, htext⟩ := hsource
  obtain ⟨found, hfound, hkeys⟩ := map_eq_ok.mp himports
  obtain ⟨⟨ds, exports⟩, hds, hnames⟩ := map_eq_ok.mp hdeclarations
  have hstatement := Cursor.mem_preorder_of_mem_children (Cursor.mem_preorder_self _)
    (Cursor.mem_children.mpr ⟨1, _, rfl, rfl⟩ : _ ∈ (Cursor.root loadingRoot).children)
  have hhost : loadingHost ∈ (Cursor.root loadingRoot).preorder :=
    Cursor.mem_preorder_of_mem_children hstatement (Cursor.mem_children.mpr ⟨0, _, rfl, rfl⟩)
  have hmem : (⟨loadingVariable.locate loadingCode, ⟨loadingHost.focus, 1⟩ :: loadingHost.trail⟩ :
      Cursor) ∈ loadingHost.namedChildren :=
    List.mem_filter.mpr ⟨Cursor.mem_children.mpr ⟨1, _, rfl, rfl⟩, rfl⟩
  have hbinding := Binding.mk rfl (Or.inr rfl) hmem rfl rfl rfl htext
  exact ⟨hidentifiers, hmembers, found, ds, exports, _, _, hfound, hds, hkeys, hnames, hhost,
    hbinding, (const_named_or_imported loadingRoot hidentifiers hmembers).2 found ds exports hfound
      hds loadingHost hhost rfl _ _ "b" hbinding⟩

end CodeAtlas.Analysis
