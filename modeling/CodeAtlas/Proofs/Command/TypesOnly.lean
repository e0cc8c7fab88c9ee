import CodeAtlas.Proofs.Analysis.Exported
import CodeAtlas.Proofs.Command.Index
/-
  Files that hold types only, and what they export.

  A file that holds types only is left out of the index. Whether it does is read
  off its statements, and what it exports is read off them a second time, with
  the same questions asked in another order. On the statements that the grammar
  allows (`ExportFormed`) the answers agree: such a file exports types only.

  What is proved:
    1. `kind_of_exportedFrom`: the entries of one statement that gives out types
       only are types;
    2. `kind_of_holdsTypesOnly`: so are the exports of a file of such statements;
    3. `exports_agree_with_typesOnly`: a file with any other export is in the
       index of its folder.
-/

namespace CodeAtlas.Analysis

open CodeAtlas.Syntax

/-! ## Statements that export types -/

/-- What the grammar allows of an export statement: the token `type` stands
before names in braces, and with names in braces nothing is declared. -/
structure ExportFormed {α : Type} (stmt : SyntaxTree α) : Prop where
  braces : stmt.holdsToken [.type] = true → stmt.firstOfKind? .exportClause ≠ none
  one : stmt.firstOfKind? .exportClause = none ∨ stmt.child? .declaration = none

instance {α : Type} (stmt : SyntaxTree α) : Decidable (ExportFormed stmt) :=
  decidable_of_iff ((stmt.holdsToken [.type] = true → stmt.firstOfKind? .exportClause ≠ none) ∧
    (stmt.firstOfKind? .exportClause = none ∨ stmt.child? .declaration = none))
    ⟨fun h => ⟨h.1, h.2⟩, fun h => ⟨h.braces, h.one⟩⟩

/-- All export statements at the top of a file are formed. -/
def ExportsFormed {α : Type} (root : SyntaxTree α) : Prop :=
  ∀ stmt ∈ exportStatements root, ExportFormed stmt

instance {α : Type} (root : SyntaxTree α) : Decidable (ExportsFormed root) :=
  inferInstanceAs (Decidable (∀ stmt ∈ exportStatements root, ExportFormed stmt))

theorem ExportsFormed.locate {tree : SyntaxTree Span} (h : ExportsFormed tree) (code : String) :
    ExportsFormed (tree.locate code) := by
  intro stmt hstmt
  obtain ⟨hmem, hkind⟩ := List.mem_filter.mp hstmt
  rw [SyntaxTree.locate, SyntaxTree.namedChildren_map] at hmem
  obtain ⟨s, hs, rfl⟩ := List.mem_map.mp hmem
  rw [SyntaxTree.kind_map] at hkind
  have hformed := h s (List.mem_filter.mpr ⟨hs, hkind⟩)
  refine ⟨?_, ?_⟩
  · rw [SyntaxTree.holdsToken_map, SyntaxTree.firstOfKind?_map, Ne, Option.map_eq_none_iff]
    exact hformed.braces
  · rw [SyntaxTree.firstOfKind?_map, SyntaxTree.child?_map, Option.map_eq_none_iff,
      Option.map_eq_none_iff]
    exact hformed.one

/-- When a statement gives out types only. -/
theorem isTypeExport_eq_true {stmt : Node} (h : isTypeExport stmt = true) :
    stmt.holdsToken [.default] = false ∧
      (stmt.holdsToken [.type] = true ∨
      (∃ d, stmt.child? .declaration = some d ∧ d.kind.isTypeDeclaration = true) ∨
      stmt.child? .declaration = none ∧ ∃ clause, stmt.firstOfKind? .exportClause = some clause ∧
        ∀ n ∈ clause.namedChildren, n.kind = .exportSpecifier → n.holdsToken [.type] = true) := by
  unfold isTypeExport at h
  cases hdefault : stmt.holdsToken [.default] with
  | true =>
    rw [hdefault, if_pos rfl] at h
    cases h
  | false =>
    rw [hdefault, if_neg Bool.false_ne_true] at h
    refine ⟨rfl, ?_⟩
    cases htype : stmt.holdsToken [.type] with
    | true => exact Or.inl rfl
    | false =>
      rw [htype, if_neg Bool.false_ne_true] at h
      right
      cases hattached : stmt.child? .declaration with
      | some d =>
        simp only [hattached] at h
        exact Or.inl ⟨d, rfl, h⟩
      | none =>
        cases hclause : stmt.firstOfKind? .exportClause with
        | none =>
          simp only [hattached, hclause] at h
          cases h
        | some clause =>
          simp only [hattached, hclause, List.all_eq_true] at h
          refine Or.inr ⟨rfl, clause, rfl, ?_⟩
          intro n hn hkind
          simpa [hkind] using h n hn

theorem kind_of_specifierExport {allTypes : Bool} {line : Int} {n : Node} {e : ExportEntry}
    (h : specifierExport allTypes line n = .ok e) :
    e.kind = if allTypes || n.holdsToken [.type] then .type else .value := by
  unfold specifierExport at h
  split at h
  · cases h
  obtain ⟨own, -, h⟩ := bind_eq_ok.mp h
  dsimp only at h
  split at h
  · obtain ⟨exported, -, h⟩ := bind_eq_ok.mp h
    rw [← pure_eq_ok.mp h]
  · rw [← pure_eq_ok.mp h]

theorem declaredForm?_of_type {k : Kind} (h : k.isTypeDeclaration = true) :
    declaredForm? k = some .type := by
  simp only [Kind.isTypeDeclaration, Bool.or_eq_true, decide_eq_true_eq] at h
  rcases h with rfl | rfl
  · rfl
  · rfl

/-- A declaration of a type gives out a type. -/
theorem GivesOut.form_of_type {d source : Node} {name : String} {form : ExportForm}
    (h : GivesOut d source name form) (hd : d.kind.isTypeDeclaration = true) : form = .type := by
  have hform := declaredForm?_of_type hd
  cases h with
  | whole own => exact Option.some.inj (own.symm.trans hform)
  | binding list => cases (declaredForm?_of_variable list).symm.trans hform

/-- A statement that gives out types only makes no other entry. -/
theorem kind_of_exportedFrom {stmt source : Node} {e : ExportEntry} (hformed : ExportFormed stmt)
    (htypes : isTypeExport stmt = true) (h : ExportedFrom stmt source e) : e.kind = .type := by
  obtain ⟨hdefault, hcases⟩ := isTypeExport_eq_true htypes
  cases h with
  | specifier braces mem kind entry =>
    rw [kind_of_specifierExport entry]
    rcases hcases with htype | ⟨d, hd, -⟩ | ⟨-, clause, hclause, hall⟩
    · rw [htype, Bool.true_or, if_pos rfl]
    · -- the names in braces leave no place for a declaration
      rcases hformed.one with hnone | hnone
      · cases braces.symm.trans hnone
      · cases hd.symm.trans hnone
    · cases braces.symm.trans hclause
      rw [hall source mem kind, Bool.or_true, if_pos rfl]
  | default _ isDefault => cases hdefault.symm.trans isDefault
  | declared braces _ attached gives =>
    rcases hcases with htype | ⟨d, hd, hkind⟩ | ⟨hnone, -⟩
    · exact absurd braces (hformed.braces htype)
    · cases attached.symm.trans hd
      exact gives.form_of_type hkind
    · cases attached.symm.trans hnone

/-- A file that holds types only exports types only. -/
theorem kind_of_holdsTypesOnly {root : Node} {exports : List ExportEntry}
    (hformed : ExportsFormed root) (h : exportsOf root = .ok exports)
    (htypes : holdsTypesOnly root = true) : ∀ e ∈ exports, e.kind = .type := by
  intro e he
  obtain ⟨stmt, hstmt, source, hfrom⟩ := (mem_exportsOf h).mp he
  obtain ⟨hmem, hkind⟩ := List.mem_filter.mp hstmt
  have hkind : stmt.kind = .exportStatement := of_decide_eq_true hkind
  have hstatement := List.all_eq_true.mp htypes stmt hmem
  have hexport : isTypeExport stmt = true := by
    rw [isTypeStatement, hkind] at hstatement
    exact hstatement
  exact kind_of_exportedFrom (hformed stmt hstmt) hexport hfrom

/-- The outline of a source has its exports, and says whether it holds types
only. -/
theorem exports_of_analyse {code : String} {path : Option String} {tree : SyntaxTree Span}
    {o : Outline} (h : analyse code path tree = .ok o) :
    exportsOf (tree.locate code) = .ok o.exports ∧
      o.typesOnly = holdsTypesOnly (tree.locate code) := by
  obtain ⟨s, calls, hs, -, rfl⟩ := analyse_eq_ok h
  obtain ⟨found, hpasses⟩ := survey_eq_ok hs
  exact ⟨hpasses.exports, typesOnly_of_survey hs⟩

end CodeAtlas.Analysis

namespace CodeAtlas.Command

open CodeAtlas.Analysis CodeAtlas.Syntax

/-! ## Files that are indexed -/

variable {d : Disk} {parse : Intake.Parser} {project p : Path} {files : List Path}
  {o : Outline}

theorem exists_of_takeContent {content : Content}
    (h : Intake.takeContent parse p content = .ok (.ok o)) :
    ∃ code, analyse code (some p.toString) (parse (Language.ofPath (some p.toString)) code)
      = .ok o := by
  unfold Intake.takeContent at h
  dsimp only at h
  cases hread : Intake.readText content with
  | error f =>
    rw [hread] at h
    cases h
  | ok code =>
    rw [hread] at h
    dsimp only at h
    cases hr : analyse code (some p.toString)
        (parse (Language.ofPath (some p.toString)) code) with
    | ok o' =>
      rw [hr] at h
      cases h
      exact ⟨code, hr⟩
    | error f =>
      rw [hr] at h
      cases f with
      | syntaxError e => cases h
      | fault f => cases h

/-- The outline of a file is that of its source. -/
theorem exists_of_takeIn (h : Intake.takeIn d parse p = .ok (.ok o)) :
    ∃ code, analyse code (some p.toString) (parse (Language.ofPath (some p.toString)) code)
      = .ok o := by
  obtain ⟨checked, -, h⟩ := bind_eq_ok.mp h
  cases checked with
  | error r => cases pure_eq_ok.mp h
  | ok _ =>
    dsimp only at h
    cases hcontent : d.content p with
    | error t =>
      rw [hcontent] at h
      cases pure_eq_ok.mp h
    | ok content =>
      rw [hcontent] at h
      exact exists_of_takeContent h

theorem indexed?_of_takeIn (h : Intake.takeIn d parse p = .ok (.ok o))
    (htypes : o.typesOnly = false) :
    indexed? d parse project p = some ⟨seenFrom d project p, o⟩ := by
  unfold indexed?
  rw [h]
  simp [htypes]

/-- A file with an outline to be indexed is in the index of its folder. -/
theorem exists_group {analysed : List Analysed} {f : FileOutline}
    (h : (files.mapM (analyseOne d parse project)).result = .ok analysed) (hp : p ∈ files)
    (hf : indexed? d parse project p = some f) :
    ∃ group, (byFolder analysed).get? p.parent = some group ∧ f ∈ group := by
  have hindexed : p ∈ indexedFiles d parse project files :=
    mem_indexedFiles.mpr ⟨hp, by rw [hf]; rfl⟩
  have hkeys : (groups d parse project files).keys = folders d parse project files := by
    simp [groups, Table.keys, Function.comp_def]
  have hentry : (p.parent, outlines d parse project files p.parent)
      ∈ (groups d parse project files).entries :=
    List.mem_map.mpr ⟨p.parent, mem_folders.mpr ⟨p, hindexed, rfl⟩, rfl⟩
  rw [byFolder_eq (mapM_analyseOne.mp h)]
  exact ⟨_, Table.get?_of_mem_entries (hkeys ▸ nodup_distinct _) hentry,
    mem_outlines.mpr ⟨p, mem_members.mpr ⟨hindexed, rfl⟩, hf⟩⟩

/-- A file that holds types only exports types only. So a file that exports
anything else is in the index of its folder. -/
theorem exports_agree_with_typesOnly :
    (∀ (root : Node) (exports : List ExportEntry), ExportsFormed root →
      exportsOf root = .ok exports → holdsTypesOnly root = true → ∀ e ∈ exports, e.kind = .type) ∧
    ∀ (d : Disk) (parse : Intake.Parser) (project : Path) (files : List Path)
      (analysed : List Analysed), (∀ language code, ExportsFormed (parse language code)) →
      (files.mapM (analyseOne d parse project)).result = .ok analysed →
      ∀ p ∈ files, ∀ o, Intake.takeIn d parse p = .ok (.ok o) → (∃ e ∈ o.exports, e.kind ≠ .type) →
        o.typesOnly = false ∧ ∃ group, (byFolder analysed).get? p.parent = some group ∧
          ⟨seenFrom d project p, o⟩ ∈ group := by
  refine ⟨fun root exports hformed h htypes => kind_of_holdsTypesOnly hformed h htypes, ?_⟩
  intro d parse project files analysed hparse hrun p hp o htake hvalue
  obtain ⟨code, hanalyse⟩ := exists_of_takeIn htake
  obtain ⟨hexports, htypes⟩ := exports_of_analyse hanalyse
  obtain ⟨e, he, hkind⟩ := hvalue
  have hfalse : o.typesOnly = false := by
    rw [htypes, Bool.eq_false_iff]
    intro hall
    exact hkind (kind_of_holdsTypesOnly ((hparse _ code).locate code) hexports hall e he)
  exact ⟨hfalse, exists_group hrun hp (indexed?_of_takeIn htake hfalse)⟩

/-! ## A folder with a file of each sort -/

def typesCode : String :=
  "export type \x7bA\x7d\nexport interface B\x7b\x7d\nexport \x7btype C\x7d\n"

/-- A file that exports a type in each of the three ways. -/
def typesTree : SyntaxTree Span :=
  construct .program none 0 53 [
    construct .exportStatement none 0 15 [
      token .type 7 11,
      construct .exportClause none 12 15 [
        construct .exportSpecifier none 13 14 [construct .identifier (some .name) 13 14 []]]],
    construct .exportStatement none 16 36 [
      construct .interfaceDeclaration (some .declaration) 23 36 [
        construct (.other "type_identifier") (some .name) 33 34 []]],
    construct .exportStatement none 37 52 [
      construct .exportClause none 44 52 [
        construct .exportSpecifier none 45 51 [
          token .type 45 49, construct .identifier (some .name) 50 51 []]]]]

def drawer : Disk :=
  ⟨[], ⟨[(["p"], .folder), (["p", "a.ts"], .file (.text typesCode)),
    (["p", "b.ts"], .file (.text exportedCode))]⟩, {}⟩

def drawerParser : Intake.Parser := fun _ code =>
  if code = typesCode then typesTree else exportedTree

def typesFile : Path := .ofPlace ["p", "a.ts"]

def valuesFile : Path := .ofPlace ["p", "b.ts"]

theorem exportsFormed_drawerParser (language : Language) (code : String) :
    ExportsFormed (drawerParser language code) := by
  unfold drawerParser
  split
  · decide
  · decide

theorem exports_agree_with_typesOnly_drawer :
    (ExportsFormed (typesTree.locate typesCode) ∧
      holdsTypesOnly (typesTree.locate typesCode) = true ∧
      ∃ exports, exportsOf (typesTree.locate typesCode) = .ok exports ∧
        exports.map (·.name) = ["A", "B", "C"] ∧ ∀ e ∈ exports, e.kind = .type) ∧
    (∀ language code, ExportsFormed (drawerParser language code)) ∧
    ∃ analysed o,
      ([typesFile, valuesFile].mapM (analyseOne drawer drawerParser (.ofPlace []))).result
        = .ok analysed ∧
      Intake.takeIn drawer drawerParser valuesFile = .ok (.ok o) ∧
      o.exports.map (·.kind) = [.value, .value, .value, .default] ∧ o.typesOnly = false ∧
      ∃ group, (byFolder analysed).get? valuesFile.parent = some group ∧
        ⟨seenFrom drawer (.ofPlace []) valuesFile, o⟩ ∈ group := by
  obtain ⟨htypes, hindexed⟩ := exports_agree_with_typesOnly
  have hroot : holdsTypesOnly (typesTree.locate typesCode) = true ∧
      (exportsOf (typesTree.locate typesCode)).map (fun es => es.map (·.name))
        = .ok ["A", "B", "C"] := by decide +kernel
  obtain ⟨exports, hexports, hnames⟩ := map_eq_ok.mp hroot.2
  have hformed := (show ExportsFormed typesTree by decide).locate typesCode
  have htaken : (Intake.takeIn drawer drawerParser typesFile).map (·.isOk) = .ok true ∧
      (Intake.takeIn drawer drawerParser valuesFile).map
        (fun r => r.map fun o => o.exports.map (·.kind))
        = .ok (.ok [.value, .value, .value, .default]) := by decide +kernel
  obtain ⟨first, hfirst, -⟩ := map_eq_ok.mp htaken.1
  obtain ⟨second, hsecond, hmapped⟩ := map_eq_ok.mp htaken.2
  obtain ⟨o, rfl, hexported⟩ := map_eq_ok.mp hmapped
  have hkinds : o.exports.map (·.kind) = [.value, .value, .value, .default] := hexported
  have hall : List.Forall₂ (AnalysedAs drawer drawerParser (.ofPlace [])) [typesFile, valuesFile]
      [⟨typesFile, seenFrom drawer (.ofPlace []) typesFile, first⟩,
        ⟨valuesFile, seenFrom drawer (.ofPlace []) valuesFile, .ok o⟩] :=
    .cons ⟨rfl, rfl, hfirst⟩ (.cons ⟨rfl, rfl, hsecond⟩ .nil)
  have hrun := mapM_analyseOne.mpr hall
  have hvalue : ∃ e ∈ o.exports, e.kind ≠ .type := by
    have hmem : ExportForm.default ∈ o.exports.map (·.kind) := by rw [hkinds]; decide
    obtain ⟨e, he, hkind⟩ := List.mem_map.mp hmem
    exact ⟨e, he, by rw [hkind]; decide⟩
  have hresult := hindexed drawer drawerParser (.ofPlace []) _ _ exportsFormed_drawerParser hrun
    valuesFile (List.mem_cons_of_mem _ List.mem_cons_self) o hsecond hvalue
  exact ⟨⟨hformed, hroot.1, exports, hexports, hnames,
    htypes _ exports hformed hexports hroot.1⟩, exportsFormed_drawerParser, _, o, hrun, hsecond,
    hkinds, hresult⟩

end CodeAtlas.Command
