import CodeAtlas.Proofs.Analysis.Kept
/-
  Where an exported name comes from.

  The pass for exports does not look at what the pass for declarations has
  found, and finds the names for itself. `ExportedFrom` says which node each of
  its entries was read from, and `mem_exportsOf` that the entries are those and
  no others.

  A name that is read from a function, a class or a variable that is declared is
  a name of the inventory (`exported_names_declared`). The two passes part at
  `export default`: the pass for declarations passes over the declaration there,
  and declares it from the statement around it.

  What is proved:
    1. `mem_declarationExports` and `mem_statementExports`, one for each step of
       the pass, and `mem_exportsOf` for the whole of it;
    2. `mem_names_of_attached`, `mem_names_of_default` and
       `mem_names_of_variable`: how each form of an export is declared;
    3. `exported_names_declared`: every export of such a form is declared.
-/

namespace CodeAtlas.Analysis

open CodeAtlas.Syntax

/-! ## The source of an entry -/

/-- The export statements at the top of a file. -/
def exportStatements {α : Type} (root : SyntaxTree α) : List (SyntaxTree α) :=
  root.namedChildren.filter (·.kind = .exportStatement)

/-- How a declaration that makes one name is exported. -/
def declaredForm? (k : Kind) : Option ExportForm :=
  if k.isFunctionDeclaration || k.isClassDeclaration || k = .enumDeclaration then some .value
  else if k.isTypeDeclaration then some .type
  else none

/-- A declaration gives out a name, which was read from `source`: the
declaration itself, or one of its variables. -/
inductive GivesOut (d : Node) : (source : Node) → String → ExportForm → Prop where
  | whole {name : String} {form : ExportForm} (own : declaredForm? d.kind = some form)
      (named : declaredName? d = .ok (some name)) : GivesOut d d name form
  | binding {source target : Node} {name : String} (list : d.kind.isVariableDeclaration = true)
      (mem : source ∈ d.namedChildren) (kind : source.kind = .variableDeclarator)
      (found : source.child? .name = some target) (identifier : target.kind = .identifier)
      (text : target.text = .ok name) : GivesOut d source name .value

/-- The node that a default export is called after: a function or class that is
declared, or else a value, or else the statement. -/
def defaultSource (stmt : Node) : Node :=
  (((stmt.child? .declaration).filter fun d =>
    d.kind.isFunctionDeclaration || d.kind.isClassDeclaration).or (stmt.child? .value)).getD stmt

/-- An export statement makes an entry, which was read from `source`. -/
inductive ExportedFrom (stmt : Node) : (source : Node) → ExportEntry → Prop where
  | specifier {clause source : Node} {e : ExportEntry}
      (braces : stmt.firstOfKind? .exportClause = some clause)
      (mem : source ∈ clause.namedChildren) (kind : source.kind = .exportSpecifier)
      (entry : specifierExport (stmt.holdsToken [.type]) stmt.startLine source = .ok e) :
      ExportedFrom stmt source e
  | default {inner : Option String} (braces : stmt.firstOfKind? .exportClause = none)
      (isDefault : stmt.holdsToken [.default] = true) (named : defaultInnerName? stmt = .ok inner) :
      ExportedFrom stmt (defaultSource stmt) ⟨"default", .default, inner, stmt.startLine⟩
  | declared {d source : Node} {name : String} {form : ExportForm}
      (braces : stmt.firstOfKind? .exportClause = none)
      (notDefault : stmt.holdsToken [.default] = false)
      (attached : stmt.child? .declaration = some d) (gives : GivesOut d source name form) :
      ExportedFrom stmt source ⟨name, form, none, stmt.startLine⟩

/-! ## The pass for exports -/

theorem declaredForm?_of_variable {k : Kind} (h : k.isVariableDeclaration = true) :
    declaredForm? k = none := by
  simp only [Kind.isVariableDeclaration, Bool.or_eq_true, decide_eq_true_eq] at h
  rcases h with rfl | rfl
  · rfl
  · rfl

theorem declarationExports_of_variable {d : Node} (h : d.kind.isVariableDeclaration = true) :
    declarationExports d = do return (← variableNames d).map fun name => (name, .value) := by
  have hform := declaredForm?_of_variable h
  unfold declaredForm? at hform
  split at hform
  · cases hform
  · next hown => rw [declarationExports, if_neg hown, if_pos h]

theorem declarationExports_of_form {d : Node} {form : ExportForm}
    (h : declaredForm? d.kind = some form) :
    declarationExports d
      = do return ((← declaredName? d).map fun name => (name, form)).toList := by
  have hvariable : ¬ d.kind.isVariableDeclaration = true := by
    intro hvariable
    cases (declaredForm?_of_variable hvariable).symm.trans h
  unfold declaredForm? at h
  split at h
  · next hown =>
    cases h
    rw [declarationExports, if_pos hown]
  next hown =>
  split at h
  · next htype =>
    cases h
    rw [declarationExports, if_neg hown, if_neg hvariable, if_pos htype]
  · cases h

theorem declarationExports_of_none {d : Node} (hvariable : ¬ d.kind.isVariableDeclaration = true)
    (h : declaredForm? d.kind = none) : declarationExports d = pure [] := by
  unfold declaredForm? at h
  split at h
  · cases h
  next hown =>
  split at h
  · cases h
  · next htype => rw [declarationExports, if_neg hown, if_neg hvariable, if_neg htype]

theorem mem_variableNames {d : Node} {names : List String} {name : String}
    (h : variableNames d = .ok names) : name ∈ names ↔
      ∃ source ∈ d.namedChildren, source.kind = .variableDeclarator ∧
        ∃ target, source.child? .name = some target ∧ target.kind = .identifier ∧
          target.text = .ok name := by
  rw [mem_mapM h]
  simp only [List.mem_filterMap, List.mem_filter, Option.filter_eq_some_iff, decide_eq_true_eq]
  constructor
  · rintro ⟨target, ⟨source, ⟨hmem, hkind⟩, hfound, hidentifier⟩, htext⟩
    exact ⟨source, hmem, hkind, target, hfound, hidentifier, htext⟩
  · rintro ⟨source, hmem, hkind, target, hfound, hidentifier, htext⟩
    exact ⟨target, ⟨source, ⟨hmem, hkind⟩, hfound, hidentifier⟩, htext⟩

theorem mem_declarationExports {d : Node} {pairs : List (String × ExportForm)} {name : String}
    {form : ExportForm} (h : declarationExports d = .ok pairs) :
    (name, form) ∈ pairs ↔ ∃ source, GivesOut d source name form := by
  by_cases hvariable : d.kind.isVariableDeclaration = true
  · rw [declarationExports_of_variable hvariable] at h
    obtain ⟨names, hnames, h⟩ := bind_eq_ok.mp h
    rw [← pure_eq_ok.mp h, List.mem_map]
    constructor
    · rintro ⟨_, hname, hpair⟩
      cases hpair
      obtain ⟨source, hmem, hkind, target, hfound, hidentifier, htext⟩ :=
        (mem_variableNames hnames).mp hname
      exact ⟨source, .binding hvariable hmem hkind hfound hidentifier htext⟩
    · rintro ⟨source, hgives⟩
      cases hgives with
      | whole hform => cases (declaredForm?_of_variable hvariable).symm.trans hform
      | binding _ mem kind found identifier text =>
        exact ⟨name, (mem_variableNames hnames).mpr ⟨source, mem, kind, _, found, identifier,
          text⟩, rfl⟩
  · cases hform : declaredForm? d.kind with
    | none =>
      rw [declarationExports_of_none hvariable hform] at h
      refine ⟨fun hmem => (not_mem_of_pure_nil h hmem).elim, ?_⟩
      rintro ⟨source, hgives⟩
      cases hgives with
      | whole hform' => cases hform.symm.trans hform'
      | binding list => exact absurd list hvariable
    | some own =>
      rw [declarationExports_of_form hform] at h
      obtain ⟨declared, hdeclared, h⟩ := bind_eq_ok.mp h
      rw [← pure_eq_ok.mp h, Option.mem_toList, Option.map_eq_some_iff]
      constructor
      · rintro ⟨_, rfl, hpair⟩
        cases hpair
        exact ⟨d, .whole hform hdeclared⟩
      · rintro ⟨source, hgives⟩
        cases hgives with
        | whole hform' named =>
          cases hform.symm.trans hform'
          cases hdeclared.symm.trans named
          exact ⟨name, rfl, rfl⟩
        | binding list => exact absurd list hvariable

/-- The entries of a statement, and the nodes they were read from. -/
theorem mem_statementExports {stmt : Node} {es : List ExportEntry} {e : ExportEntry}
    (h : statementExports stmt = .ok es) : e ∈ es ↔ ∃ source, ExportedFrom stmt source e := by
  unfold statementExports at h
  dsimp only at h
  cases hbraces : stmt.firstOfKind? .exportClause with
  | some clause =>
    simp only [hbraces] at h
    rw [mem_mapM h]
    simp only [List.mem_filter, decide_eq_true_eq]
    constructor
    · rintro ⟨source, ⟨hmem, hkind⟩, hentry⟩
      exact ⟨source, .specifier hbraces hmem hkind hentry⟩
    · rintro ⟨source, hfrom⟩
      cases hfrom with
      | specifier braces mem kind entry =>
        cases hbraces.symm.trans braces
        exact ⟨source, ⟨mem, kind⟩, entry⟩
      | default braces => cases hbraces.symm.trans braces
      | declared braces => cases hbraces.symm.trans braces
  | none =>
    simp only [hbraces] at h
    cases hdefault : stmt.holdsToken [.default] with
    | true =>
      rw [hdefault, if_pos rfl] at h
      obtain ⟨inner, hinner, h⟩ := bind_eq_ok.mp h
      rw [← pure_eq_ok.mp h, List.mem_singleton]
      constructor
      · rintro rfl
        exact ⟨_, .default hbraces hdefault hinner⟩
      · rintro ⟨source, hfrom⟩
        cases hfrom with
        | specifier braces => cases hbraces.symm.trans braces
        | default _ _ named =>
          cases hinner.symm.trans named
          rfl
        | declared _ notDefault => cases hdefault.symm.trans notDefault
    | false =>
      rw [hdefault, if_neg Bool.false_ne_true] at h
      cases hattached : stmt.child? .declaration with
      | none =>
        simp only [hattached] at h
        refine ⟨fun hmem => (not_mem_of_pure_nil h hmem).elim, ?_⟩
        rintro ⟨source, hfrom⟩
        cases hfrom with
        | specifier braces => cases hbraces.symm.trans braces
        | default _ isDefault => cases hdefault.symm.trans isDefault
        | declared _ _ attached => cases hattached.symm.trans attached
      | some d =>
        simp only [hattached] at h
        obtain ⟨pairs, hpairs, h⟩ := bind_eq_ok.mp h
        rw [← pure_eq_ok.mp h, List.mem_map]
        constructor
        · rintro ⟨⟨name, form⟩, hpair, rfl⟩
          obtain ⟨source, hgives⟩ := (mem_declarationExports hpairs).mp hpair
          exact ⟨source, .declared hbraces hdefault hattached hgives⟩
        · rintro ⟨source, hfrom⟩
          cases hfrom with
          | specifier braces => cases hbraces.symm.trans braces
          | default _ isDefault => cases hdefault.symm.trans isDefault
          | declared _ _ attached gives =>
            cases hattached.symm.trans attached
            exact ⟨_, (mem_declarationExports hpairs).mpr ⟨source, gives⟩, rfl⟩

/-- The exports of a file are the entries of its export statements. -/
theorem mem_exportsOf {root : Node} {es : List ExportEntry} {e : ExportEntry}
    (h : exportsOf root = .ok es) :
    e ∈ es ↔ ∃ stmt ∈ exportStatements root, ∃ source, ExportedFrom stmt source e := by
  obtain ⟨parts, hparts, h⟩ := bind_eq_ok.mp h
  rw [← pure_eq_ok.mp h, mem_flatten_mapM hparts]
  constructor
  · rintro ⟨stmt, hstmt, part, hpart, hmem⟩
    exact ⟨stmt, hstmt, (mem_statementExports hpart).mp hmem⟩
  · rintro ⟨stmt, hstmt, hfrom⟩
    obtain ⟨part, -, hpart⟩ := exists_ok_of_mapM hparts hstmt
    exact ⟨stmt, hstmt, part, hpart, (mem_statementExports hpart).mpr hfrom⟩

/-! ## How exports are declared -/

/-- Whether a node of this kind is a function or a class, of a statement or used
as a value. -/
def isFunctionOrClass (k : Kind) : Bool :=
  k.isFunctionDeclaration || k.isFunctionValue || k.isClassDeclaration || k = .classExpression

theorem nameOr_of_declaredName? {n : Node} {standIn name : String}
    (h : declaredName? n = .ok (some name)) : nameOr standIn n = .ok name := by
  rw [nameOr, h]
  rfl

section

variable {root : Node} {ds : Inventory} (hds : Inventory.collect (nodesOf root) = .ok ds)
  {stmt d : Cursor} (hstmt : stmt ∈ (Cursor.root root).preorder) {name : String}
include hds hstmt

/-- A function or class that is exported under its own name is declared where it
stands. -/
theorem mem_names_of_attached (notDefault : stmt.focus.holdsToken [.default] = false)
    (attached : stmt.child? .declaration = some d)
    (kind : d.kind.isFunctionDeclaration = true ∨ d.kind.isClassDeclaration = true)
    (named : declaredName? d.focus = .ok (some name)) : name ∈ ds.names := by
  obtain ⟨made, hmade, hnames⟩ :=
    exists_declarationsAt hds (Cursor.mem_preorder_of_child? hstmt attached)
  have hplace : standsAsDefault d = false := by
    simp [standsAsDefault, Cursor.parent?_of_child? attached, notDefault]
  simp only [Kind.isFunctionDeclaration, Kind.isClassDeclaration, Bool.or_eq_true,
    decide_eq_true_eq] at kind
  rcases kind with (kind | kind) | (kind | kind)
  all_goals
    simp only [declarationsAt, kind, functionStatement, classStatement, hplace,
      nameOr_of_declaredName? named, ok_bind] at hmade
    obtain ⟨description, -, hmade⟩ := bind_eq_ok.mp hmade
  · exact hnames name (exists_of_oneFunction hmade)
  · exact hnames name (exists_of_oneFunction hmade)
  · exact hnames name (exists_of_oneClass hmade)
  · exact hnames name (exists_of_oneClass hmade)

/-- A function or class that is exported by default is declared by the
statement. -/
theorem mem_names_of_default (hkind : stmt.kind = .exportStatement)
    (target : defaultTarget? stmt = some d) (kind : isFunctionOrClass d.kind = true)
    (named : declaredName? d.focus = .ok (some name)) : name ∈ ds.names := by
  obtain ⟨made, hmade, hnames⟩ := exists_declarationsAt hds hstmt
  simp only [declarationsAt, hkind, exportStatement, target, nameOr_of_declaredName? named,
    ok_bind] at hmade
  obtain ⟨description, -, hmade⟩ := bind_eq_ok.mp hmade
  split at hmade
  · exact hnames name (exists_of_oneFunction hmade)
  next hfunction =>
  have hclass : (d.kind.isClassDeclaration || decide (d.kind = .classExpression)) = true := by
    simpa only [isFunctionOrClass, hfunction, Bool.false_or, Bool.or_assoc] using kind
  rw [if_pos hclass] at hmade
  exact hnames name (exists_of_oneClass hmade)

/-- A variable that is exported and declared is declared by the list it stands
in. -/
theorem mem_names_of_variable {source target : Node} (hkind : stmt.kind = .exportStatement)
    (attached : stmt.child? .declaration = some d) (list : d.kind.isVariableDeclaration = true)
    (mem : source ∈ d.focus.namedChildren) (kind : source.kind = .variableDeclarator)
    (found : source.child? .name = some target) (identifier : target.kind = .identifier)
    (text : target.text = .ok name) (keeps : Keeps (d.focus.holdsToken [.const]) source) :
    name ∈ ds.names := by
  obtain ⟨declarator, hdeclarator, rfl⟩ := Cursor.exists_namedChild mem
  have htop : d.parentIs .exportStatement = true :=
    Cursor.parentIs_iff.mpr ⟨stmt, Cursor.parent?_of_child? attached, hkind⟩
  exact mem_names_of_binding hds (Cursor.mem_preorder_of_child? hstmt attached)
    ⟨list, Or.inr htop, hdeclarator, kind, found, identifier, text⟩ keeps

end

/-- A default export that is not a plain name is called after what the statement
exports. -/
theorem exists_defaultTarget {stmt : Cursor} {name : String}
    (isDefault : stmt.focus.holdsToken [.default] = true)
    (one : stmt.focus.child? .declaration = none ∨ stmt.focus.child? .value = none)
    (named : defaultInnerName? stmt.focus = .ok (some name))
    (hsource : (defaultSource stmt.focus).kind ≠ .identifier) :
    ∃ d, defaultTarget? stmt = some d ∧ isFunctionOrClass d.kind = true ∧
      declaredName? d.focus = .ok (some name) := by
  unfold defaultInnerName? at named
  unfold defaultSource at hsource
  cases hdeclared : (stmt.focus.child? .declaration).filter fun d =>
      d.kind.isFunctionDeclaration || d.kind.isClassDeclaration with
  | some n =>
    simp only [hdeclared] at named
    obtain ⟨hchild, hkind⟩ := Option.filter_eq_some_iff.mp hdeclared
    obtain ⟨d, hd, rfl⟩ := Cursor.exists_child? hchild
    refine ⟨d, by rw [defaultTarget?, if_pos isDefault, hd, Option.some_or], ?_, named⟩
    rcases (Bool.or_eq_true _ _).mp hkind with hkind | hkind
    · simp [isFunctionOrClass, Cursor.kind, hkind]
    · simp [isFunctionOrClass, Cursor.kind, hkind]
  | none =>
    cases hvalue : stmt.focus.child? .value with
    | none =>
      simp only [hdeclared, hvalue] at named
      cases named
    | some n =>
      simp only [hdeclared, hvalue, Option.none_or, Option.getD_some] at named hsource
      rw [if_neg hsource] at named
      obtain ⟨d, hd, rfl⟩ := Cursor.exists_child? hvalue
      -- the statement has a value, and so no declaration that would go before it
      have hnone : stmt.child? .declaration = none := by
        have hfocus := one.resolve_right (by rw [hvalue]; exact Option.some_ne_none _)
        rwa [← Cursor.map_focus_child?, Option.map_eq_none_iff] at hfocus
      split at named
      · next hkind =>
        refine ⟨d, by rw [defaultTarget?, if_pos isDefault, hnone, hd, Option.none_or], ?_, named⟩
        rcases (Bool.or_eq_true _ _).mp hkind with hkind | hkind
        · simp [isFunctionOrClass, Cursor.kind, hkind]
        · simp [isFunctionOrClass, Cursor.kind, of_decide_eq_true hkind]
      · cases named

/-! ## Exports that name a declaration -/

/-- The name that an entry has inside the file. -/
def innerName? (e : ExportEntry) : Option String :=
  if e.kind = .default then e.localName else some (e.localName.getD e.name)

theorem eq_of_innerName? {e : ExportEntry} {name : String} (hlocal : e.localName = none)
    (h : innerName? e = some name) : e.name = name := by
  rw [innerName?, hlocal] at h
  split at h
  · cases h
  · exact Option.some.inj h

/-- The node is a function or a class, or a variable of the statement that is
declared. -/
def Recordable (stmt source : Node) : Prop :=
  isFunctionOrClass source.kind = true ∨
    source.kind = .variableDeclarator ∧ ∃ list, stmt.child? .declaration = some list ∧
      Keeps (list.holdsToken [.const]) source

/-- A function or class that is exported under its own name is one of a
statement, because a value has no form. -/
theorem isDeclaration_of_form {k : Kind} {form : ExportForm} (h : declaredForm? k = some form)
    (hk : isFunctionOrClass k = true) :
    k.isFunctionDeclaration = true ∨ k.isClassDeclaration = true := by
  simp only [isFunctionOrClass, Bool.or_eq_true, decide_eq_true_eq] at hk
  rcases hk with ((hk | hk) | hk) | rfl
  · exact Or.inl hk
  · simp only [Kind.isFunctionValue, Bool.or_eq_true, decide_eq_true_eq] at hk
    rcases hk with ((rfl | rfl) | rfl) | rfl
    all_goals cases h
  · exact Or.inr hk
  · cases h

/-- An export that is read from a function, a class or a variable that is
declared has a name of the inventory. Both passes give an answer if the texts of
the file can be read. -/
theorem exported_names_declared (root : Node)
    (hone : ∀ stmt ∈ exportStatements root,
      stmt.child? .declaration = none ∨ stmt.child? .value = none) :
    (Readable root →
      (∀ n ∈ root.preorder, n.kind = .exportSpecifier → n.child? .name ≠ none) →
      Answers (declarationsOf root)) ∧
    ∀ ds exports, declarationsOf root = .ok (ds, exports) →
      (∀ e, e ∈ exports ↔
        ∃ stmt ∈ exportStatements root, ∃ source, ExportedFrom stmt source e) ∧
      ∀ stmt ∈ exportStatements root, ∀ source e, ExportedFrom stmt source e →
        Recordable stmt source → ∀ name, innerName? e = some name → name ∈ ds.names := by
  refine ⟨fun hreadable hspecifiers => hreadable.declarationsOf hspecifiers, ?_⟩
  intro ds exports hdeclarations
  obtain ⟨hds, hexports⟩ := declarationsOf_eq_ok.mp hdeclarations
  refine ⟨fun e => mem_exportsOf hexports, ?_⟩
  intro stmt hmem source e hfrom hrecordable name hname
  obtain ⟨hchild, hkind⟩ := List.mem_filter.mp hmem
  obtain ⟨c, hc, rfl⟩ := Cursor.exists_namedChild (p := Cursor.root root) hchild
  have hstmt := Cursor.mem_preorder_of_mem_namedChildren (Cursor.mem_preorder_self _) hc
  have hkind : c.kind = .exportStatement := of_decide_eq_true hkind
  cases hfrom with
  | specifier _ _ kind =>
    rcases hrecordable with hrecordable | ⟨hrecordable, -⟩
    all_goals
      rw [kind] at hrecordable
      cases hrecordable
  | default _ isDefault named =>
    obtain rfl : _ = some name := hname
    have hsource : (defaultSource c.focus).kind ≠ .identifier := by
      intro heq
      rcases hrecordable with hrecordable | ⟨hrecordable, -⟩
      all_goals
        rw [heq] at hrecordable
        cases hrecordable
    obtain ⟨d, target, kind, declared⟩ :=
      exists_defaultTarget isDefault (hone _ hmem) named hsource
    exact mem_names_of_default hds hstmt hkind target kind declared
  | declared _ notDefault attached gives =>
    obtain ⟨d, hd, rfl⟩ := Cursor.exists_child? attached
    cases eq_of_innerName? rfl hname
    cases gives with
    | whole own named =>
      rcases hrecordable with hrecordable | ⟨hrecordable, -⟩
      · exact mem_names_of_attached hds hstmt notDefault hd
          (isDeclaration_of_form own hrecordable) named
      · rw [hrecordable] at own
        cases own
    | binding list mem kind found identifier text =>
      rcases hrecordable with hrecordable | ⟨-, list', hlist', keeps⟩
      · rw [kind] at hrecordable
        cases hrecordable
      · cases attached.symm.trans hlist'
        exact mem_names_of_variable hds hstmt hkind hd list mem kind found identifier text keeps

/-! ## A file with an export of each form -/

def exportedCode : String :=
  "export function f()\x7b\x7d\nexport const a=1,g=()=>0\nexport default class C\x7b\x7d\n"

def exportedConstant : SyntaxTree Span :=
  construct .variableDeclarator none 35 38 [
    construct .identifier (some .name) 35 36 [], construct (.other "number") (some .value) 37 38 []]

/-- The statement that exports two variables. -/
def exportedList : SyntaxTree Span :=
  construct .exportStatement none 22 46 [
    construct .lexicalDeclaration (some .declaration) 29 46 [
      token .const 29 34,
      exportedConstant,
      construct .variableDeclarator none 39 46 [
        construct .identifier (some .name) 39 40 [],
        construct .arrowFunction (some .value) 41 46 []]]]

/-- The statement that exports a class by default. -/
def exportedClass : SyntaxTree Span :=
  construct .exportStatement none 47 71 [
    token .default 54 61,
    construct .classDeclaration (some .declaration) 62 71 [
      construct (.other "type_identifier") (some .name) 68 69 [],
      construct .classBody (some .body) 69 71 []]]

def exportedTree : SyntaxTree Span :=
  construct .program none 0 72 [
    construct .exportStatement none 0 21 [
      construct .functionDeclaration (some .declaration) 7 21 [
        construct .identifier (some .name) 16 17 []]],
    exportedList,
    exportedClass]

def exportedRoot : Node := exportedTree.locate exportedCode

theorem exported_names_declared_each_form :
    (∀ stmt ∈ exportStatements exportedRoot,
      stmt.child? .declaration = none ∨ stmt.child? .value = none) ∧
    ∃ ds exports, declarationsOf exportedRoot = .ok (ds, exports) ∧
      exports.map innerName? = [some "f", some "a", some "g", some "C"] ∧
      ds.names = ["f", "g", "C", "a"] ∧
      (∃ source e, ExportedFrom (exportedList.locate exportedCode) source e ∧
        Recordable (exportedList.locate exportedCode) source ∧ innerName? e = some "a") ∧
      (∃ source e, ExportedFrom (exportedClass.locate exportedCode) source e ∧
        Recordable (exportedClass.locate exportedCode) source ∧ innerName? e = some "C") ∧
      "a" ∈ ds.names ∧ "C" ∈ ds.names := by
  -- one evaluation for all that reads the source
  have hsource : (∀ stmt ∈ exportStatements exportedRoot,
        stmt.child? .declaration = none ∨ stmt.child? .value = none) ∧
      (declarationsOf exportedRoot).map (fun made => (made.1.names, made.2.map innerName?))
        = .ok (["f", "g", "C", "a"], [some "f", some "a", some "g", some "C"]) ∧
      SyntaxTree.text ((construct .identifier (some .name) 35 36 []).locate exportedCode)
        = .ok "a" ∧
      defaultInnerName? (exportedClass.locate exportedCode) = .ok (some "C") := by decide +kernel
  obtain ⟨hone, hdeclarations, ha, hC⟩ := hsource
  obtain ⟨⟨ds, exports⟩, hds, hnames⟩ := map_eq_ok.mp hdeclarations
  obtain ⟨hnames, hinner⟩ := Prod.mk.inj hnames
  obtain ⟨-, hresolve⟩ := (exported_names_declared exportedRoot hone).2 ds exports hds
  have hlist : exportedList.locate exportedCode ∈ exportStatements exportedRoot :=
    List.mem_filter.mpr ⟨List.mem_cons_of_mem _ List.mem_cons_self, rfl⟩
  have hclass : exportedClass.locate exportedCode ∈ exportStatements exportedRoot :=
    List.mem_filter.mpr ⟨List.mem_cons_of_mem _ (List.mem_cons_of_mem _ List.mem_cons_self), rfl⟩
  have hvariable : ExportedFrom (exportedList.locate exportedCode)
      (exportedConstant.locate exportedCode) ⟨"a", .value, none, _⟩ :=
    .declared rfl rfl rfl (.binding rfl List.mem_cons_self rfl rfl rfl ha)
  have hkept : Recordable (exportedList.locate exportedCode)
      (exportedConstant.locate exportedCode) :=
    Or.inr ⟨rfl, _, rfl, .constant rfl fun value hvalue => by cases hvalue; rfl⟩
  have hdefault : ExportedFrom (exportedClass.locate exportedCode) _ _ := .default rfl rfl hC
  exact ⟨hone, ds, exports, hds, hinner, hnames, ⟨_, _, hvariable, hkept, rfl⟩,
    ⟨_, _, hdefault, Or.inl rfl, rfl⟩, hresolve _ hlist _ _ hvariable hkept "a" rfl,
    hresolve _ hclass _ _ hdefault (Or.inl rfl) "C" rfl⟩

end CodeAtlas.Analysis
