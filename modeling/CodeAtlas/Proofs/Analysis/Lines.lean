import CodeAtlas.Proofs.Analysis.Fits
/-
  Line numbers lie in the source, and members lie in what holds them.

  A parser gives ranges of bytes. Later bytes are on later lines
  (`row_position_mono`) and no byte is below the last line
  (`row_position_le_count`), so where the ranges of a tree are nested, the lines
  of its nodes are too (`nestedLines_locate`).

  A function or a class gets the lines of a node that need not be its own: the
  whole statement, or the assignment that it is the value of. That node holds
  the class (`ClassSite.encloses`), and with it the lines of all its methods.
  `linesHold_analyse` is about the whole outline.
-/

namespace CodeAtlas.Syntax

/-! ## Lines of a source -/

namespace Source

theorem positionFrom_zero (p : Position) (cs : List Char) : positionFrom p 0 cs = p := by
  cases cs <;> rfl

theorem row_le_positionFrom (p : Position) (n : Nat) (cs : List Char) :
    p.row ≤ (positionFrom p n cs).row := by
  fun_induction positionFrom p n cs with
  | case1 p cs => exact Nat.le_refl _
  | case2 p n h => exact Nat.le_refl _
  | case3 p n cs _ ih => exact Nat.le_of_succ_le ih
  | case4 p n c cs _ _ ih => exact ih

/-- Rows do not depend on columns, so two readings of one text can start from
different ones. -/
theorem row_positionFrom_le_row {p q : Position} {a b : Nat} (hrow : p.row ≤ q.row) (h : a ≤ b)
    (cs : List Char) : (positionFrom p a cs).row ≤ (positionFrom q b cs).row := by
  induction cs generalizing p q a b with
  | nil => cases a <;> cases b <;> exact hrow
  | cons c cs ih =>
    cases a with
    | zero =>
      rw [positionFrom_zero]
      exact Nat.le_trans hrow (row_le_positionFrom q b (c :: cs))
    | succ a =>
      obtain ⟨b, rfl⟩ := Nat.exists_eq_add_of_le' (Nat.zero_lt_of_lt h)
      simp only [positionFrom]
      split
      · exact ih (Nat.succ_le_succ hrow) (Nat.sub_le_sub_right h 1)
      · exact ih hrow (Nat.sub_le_sub_right h _)

theorem row_position_mono (src : List Char) {a b : Nat} (h : a ≤ b) :
    (position src a).row ≤ (position src b).row :=
  row_positionFrom_le_row (Nat.le_refl _) h src

theorem row_positionFrom_le_count (p : Position) (n : Nat) (cs : List Char) :
    (positionFrom p n cs).row ≤ p.row + cs.count '\n' := by
  fun_induction positionFrom p n cs with
  | case1 p cs => exact Nat.le_add_right _ _
  | case2 p n h => exact Nat.le_add_right _ _
  | case3 p n cs _ ih =>
    have hrow : (p.row + 1) + cs.count '\n' = p.row + ('\n' :: cs).count '\n' := by
      rw [List.count_cons_self]
      omega
    exact hrow ▸ ih
  | case4 p n c cs _ hc ih =>
    rw [List.count_cons_of_ne hc]
    exact ih

theorem row_position_le_count (src : List Char) (n : Nat) :
    (position src n).row ≤ src.count '\n' := by
  have h := row_positionFrom_le_count ⟨0, 0⟩ n src
  rw [Nat.zero_add] at h
  exact h

end Source

/-! ## Nested trees -/

/-- The ranges of a tree are in order, and none reaches out of the one that
holds it. -/
structure Nested (tree : SyntaxTree Span) : Prop where
  ordered : ∀ t ∈ tree.preorder, t.extent.start ≤ t.extent.stop
  within : ∀ t ∈ tree.preorder, ∀ c ∈ t.children,
    t.extent.start ≤ c.extent.start ∧ c.extent.stop ≤ t.extent.stop

/-- The lines of `inner` are lines of `outer`. -/
structure Encloses (outer inner : Node) : Prop where
  start : outer.startLine ≤ inner.startLine
  stop : inner.endLine ≤ outer.endLine

theorem Encloses.refl (n : Node) : Encloses n n := ⟨Nat.le_refl _, Nat.le_refl _⟩

theorem Encloses.trans {a b c : Node} (h : Encloses a b) (h' : Encloses b c) : Encloses a c :=
  ⟨Nat.le_trans h.start h'.start, Nat.le_trans h'.stop h.stop⟩

/-- The number of lines of a source. -/
def lineCount (code : String) : Nat := code.toList.count '\n' + 1

/-- The lines of a tree of a source with so many lines. -/
structure NestedLines (lines : Nat) (root : Node) : Prop where
  ordered : ∀ n ∈ root.preorder, n.startLine ≤ n.endLine
  last : ∀ n ∈ root.preorder, n.endLine ≤ lines
  within : ∀ n ∈ root.preorder, ∀ c ∈ n.children, Encloses n c

theorem nestedLines_locate {tree : SyntaxTree Span} (h : Nested tree) (code : String) :
    NestedLines (lineCount code) (tree.locate code) := by
  constructor
  case ordered =>
    intro n hn
    obtain ⟨u, hu, -, hextent⟩ := SyntaxTree.exists_of_mem_locate hn
    rw [SyntaxTree.startLine, SyntaxTree.endLine, hextent]
    exact Nat.succ_le_succ (Source.row_position_mono _ (h.ordered u hu))
  case last =>
    intro n hn
    obtain ⟨u, -, -, hextent⟩ := SyntaxTree.exists_of_mem_locate hn
    rw [SyntaxTree.endLine, hextent]
    exact Nat.succ_le_succ (Source.row_position_le_count _ _)
  case within =>
    intro n hn c hc
    obtain ⟨u, hu, rfl, hextent⟩ := SyntaxTree.exists_of_mem_locate hn
    rw [SyntaxTree.locate, SyntaxTree.children_map] at hc
    obtain ⟨v, hv, rfl⟩ := List.mem_map.mp hc
    have hchild : (v.map (Source.extentOf code.toList)).extent
        = Source.extentOf code.toList v.extent := by
      cases v
      rfl
    obtain ⟨hstart, hstop⟩ := h.within u hu v hv
    constructor
    · rw [SyntaxTree.startLine, SyntaxTree.startLine, hextent, hchild]
      exact Nat.succ_le_succ (Source.row_position_mono _ hstart)
    · rw [SyntaxTree.endLine, SyntaxTree.endLine, hextent, hchild]
      exact Nat.succ_le_succ (Source.row_position_mono _ hstop)

theorem one_le_startLine (n : Node) : (1 : Int) ≤ n.startLine := by
  rw [SyntaxTree.startLine]
  omega

namespace NestedLines

variable {lines : Nat} {root : Node} (h : NestedLines lines root) {p c : Cursor}
  (hp : p ∈ (Cursor.root root).preorder)
include h hp

theorem encloses (hc : c ∈ p.children) : Encloses p.focus c.focus :=
  h.within _ (SyntaxTree.focus_mem_preorder hp) _ (Cursor.focus_mem_children hc)

theorem encloses_named (hc : c ∈ p.namedChildren) : Encloses p.focus c.focus :=
  h.encloses hp (Cursor.mem_children_of_mem_namedChildren hc)

theorem encloses_child? {f : Field} (hc : p.child? f = some c) : Encloses p.focus c.focus :=
  h.encloses hp (Cursor.child?_eq_some hc).1

theorem range : (1 : Int) ≤ p.focus.startLine ∧ (p.focus.startLine : Int) ≤ p.focus.endLine ∧
    (p.focus.endLine : Int) ≤ lines := by
  have hn := SyntaxTree.focus_mem_preorder hp
  exact ⟨one_le_startLine _, Int.ofNat_le.mpr (h.ordered _ hn), Int.ofNat_le.mpr (h.last _ hn)⟩

end NestedLines

end CodeAtlas.Syntax

namespace CodeAtlas.Analysis

open CodeAtlas.Syntax

/-! ## Functions, classes and their methods -/

section

variable {lines : Nat} {root : Node} (h : NestedLines lines root)
include h

theorem encloses_defaultTarget? {host c : Cursor} (hhost : host ∈ (Cursor.root root).preorder)
    (hc : defaultTarget? host = some c) : Encloses host.focus c.focus := by
  unfold defaultTarget? at hc
  split at hc
  · rcases Option.or_eq_some_iff.mp hc with hc | ⟨-, hc⟩
    · exact h.encloses_child? hhost hc
    · exact h.encloses_child? hhost hc
  · cases hc

/-- The node that a class gets its lines from holds the class. -/
theorem ClassSite.encloses {host K span : Cursor} {name : String}
    (hhost : host ∈ (Cursor.root root).preorder) (site : ClassSite host K name span) :
    Encloses span.focus K.focus := by
  cases site with
  | statement => exact .refl _
  | bound binding value =>
    have hdeclarator := Cursor.mem_preorder_of_mem_namedChildren hhost binding.mem
    exact (h.encloses_named hhost binding.mem).trans (h.encloses_child? hdeclarator value)
  | default _ target => exact encloses_defaultTarget? h hhost target
  | exports assigned => exact h.encloses_child? (assigned.mem_preorder hhost).1 assigned.onRight

/-- A method starts on a line of its class. -/
theorem line_of_mem_methodsOf {K : Cursor} (hK : K ∈ (Cursor.root root).preorder)
    {ms : List MethodEntry} {m : MethodEntry} (hms : methodsOf K = .ok ms) (hm : m ∈ ms) :
    K.focus.startLine ≤ m.line ∧ m.line ≤ K.focus.endLine := by
  obtain ⟨body, F, hbody, hF, -, hentry⟩ := mem_methodsOf hms hm
  have hbodyTree := Cursor.mem_preorder_of_child? hK hbody
  have hFTree := Cursor.mem_preorder_of_mem_namedChildren hbodyTree hF
  have hwithin := (h.encloses_child? hK hbody).trans (h.encloses_named hbodyTree hF)
  have hordered := h.ordered _ (SyntaxTree.focus_mem_preorder hFTree)
  rw [(methodEntry_eq_ok hentry).2.2.2]
  exact ⟨Int.ofNat_le.mpr hwithin.start, Int.ofNat_le.mpr (Nat.le_trans hordered hwithin.stop)⟩

namespace Recorded

variable {host src : Cursor} (hhost : host ∈ (Cursor.root root).preorder)
include hhost

theorem range_function {f : FunctionEntry} (hrec : Recorded host src (.function f)) :
    1 ≤ f.startLine ∧ f.startLine ≤ f.endLine ∧ f.endLine ≤ lines := by
  cases hrec with
  | function site _ entry =>
    obtain ⟨params, -, hentry⟩ := functionEntry_eq_ok entry
    rw [hentry]
    exact h.range (site.mem_preorder hhost).2.1

theorem range_class {c : ClassEntry} (hrec : Recorded host src (.classDef c)) :
    1 ≤ c.startLine ∧ c.startLine ≤ c.endLine ∧ c.endLine ≤ lines := by
  cases hrec with
  | classDef site _ entry =>
    obtain ⟨-, -, -, hstart, hstop, -⟩ := classEntry_eq_ok entry
    rw [hstart, hstop]
    exact h.range (site.mem_preorder hhost).2

theorem line_method {c : ClassEntry} (hrec : Recorded host src (.classDef c)) {m : MethodEntry}
    (hm : m ∈ c.methods) : c.startLine ≤ m.line ∧ m.line ≤ c.endLine := by
  cases hrec with
  | classDef site _ entry =>
    obtain ⟨-, hmethods, -, hstart, hstop, -⟩ := classEntry_eq_ok entry
    -- the lines of a class are those of the statement that it stands in, if any
    have hspan := site.encloses h hhost
    have hline := line_of_mem_methodsOf h (site.mem_preorder hhost).1 hmethods hm
    rw [hstart, hstop]
    exact ⟨Int.le_trans (Int.ofNat_le.mpr hspan.start) hline.1,
      Int.le_trans hline.2 (Int.ofNat_le.mpr hspan.stop)⟩

end Recorded

end

/-! ## Constants and exports -/

/-- A constant is on the first line of its statement. -/
theorem Recorded.line_constant {host src : Cursor} {k : ConstantEntry}
    (hrec : Recorded host src (.constant k)) : k.line = host.focus.startLine := by
  cases hrec with
  | constant => rfl

theorem line_of_specifierExport {allTypes : Bool} {line : Int} {n : Node} {e : ExportEntry}
    (h : specifierExport allTypes line n = .ok e) : e.line = line := by
  unfold specifierExport at h
  split at h
  · cases h
  obtain ⟨own, -, h⟩ := bind_eq_ok.mp h
  dsimp only at h
  split at h
  · obtain ⟨exported, -, h⟩ := bind_eq_ok.mp h
    rw [← pure_eq_ok.mp h]
  · rw [← pure_eq_ok.mp h]

/-- The exports of a statement are on its first line. -/
theorem line_of_statementExports {n : Node} {es : List ExportEntry} {e : ExportEntry}
    (hes : statementExports n = .ok es) (he : e ∈ es) : e.line = n.startLine := by
  unfold statementExports at hes
  dsimp only at hes
  split at hes
  · obtain ⟨specifier, -, hspecifier⟩ := exists_of_mem_mapM hes he
    exact line_of_specifierExport hspecifier
  split at hes
  · obtain ⟨inner, -, hes⟩ := bind_eq_ok.mp hes
    rw [eq_of_pure_singleton hes he]
  split at hes
  · exact (not_mem_of_pure_nil hes he).elim
  · obtain ⟨found, -, hes⟩ := bind_eq_ok.mp hes
    rw [← pure_eq_ok.mp hes] at he
    obtain ⟨pair, -, rfl⟩ := List.mem_map.mp he
    rfl

theorem line_of_exportsOf {root : Node} {es : List ExportEntry} {e : ExportEntry}
    (hes : exportsOf root = .ok es) (he : e ∈ es) :
    ∃ n ∈ root.preorder, e.line = n.startLine := by
  obtain ⟨parts, hparts, hes⟩ := bind_eq_ok.mp hes
  rw [← pure_eq_ok.mp hes] at he
  obtain ⟨n, hn, es', hes', he⟩ := (mem_flatten_mapM hparts).mp he
  exact ⟨n, SyntaxTree.mem_preorder_of_mem_namedChildren (SyntaxTree.mem_preorder_self root)
    (List.mem_filter.mp hn).1, line_of_statementExports hes' he⟩

/-! ## Outlines -/

/-- The line numbers of an outline are those of a source with so many lines, in
order, and a method starts on a line of its class. -/
structure LinesHold (lines : Nat) (m : Outline) : Prop where
  functions : ∀ f ∈ m.functions, 1 ≤ f.startLine ∧ f.startLine ≤ f.endLine ∧ f.endLine ≤ lines
  classes : ∀ c ∈ m.classes, 1 ≤ c.startLine ∧ c.startLine ≤ c.endLine ∧ c.endLine ≤ lines
  methods : ∀ c ∈ m.classes, ∀ f ∈ c.methods, c.startLine ≤ f.line ∧ f.line ≤ c.endLine
  constants : ∀ k ∈ m.constants, 1 ≤ k.line ∧ k.line ≤ lines
  exports : ∀ e ∈ m.exports, 1 ≤ e.line ∧ e.line ≤ lines

/-- Where the ranges of a tree are nested, the lines of its outline hold. -/
theorem linesHold_analyse (code : String) (path : Option String) (tree : SyntaxTree Span)
    (m : Outline) (h : Nested tree) (hm : analyse code path tree = .ok m) :
    LinesHold (lineCount code) m := by
  obtain ⟨s, calls, hs, -, rfl⟩ := analyse_eq_ok hm
  obtain ⟨found, hpasses⟩ := survey_eq_ok hs
  have hlines := nestedLines_locate h code
  have hholds := holds_recorded hpasses.declarations
  constructor
  case functions =>
    intro f hf
    obtain ⟨e, he, rfl⟩ := List.mem_map.mp hf
    obtain ⟨-, host, hhost, src, hrec⟩ := hholds.functions e he
    exact hrec.range_function hlines hhost
  case classes =>
    intro c hc
    obtain ⟨e, he, rfl⟩ := List.mem_map.mp hc
    obtain ⟨-, host, hhost, src, hrec⟩ := hholds.classes e he
    exact hrec.range_class hlines hhost
  case methods =>
    intro c hc f hf
    obtain ⟨e, he, rfl⟩ := List.mem_map.mp hc
    obtain ⟨-, host, hhost, src, hrec⟩ := hholds.classes e he
    exact hrec.line_method hlines hhost hf
  case constants =>
    intro k hk
    obtain ⟨e, he, rfl⟩ := List.mem_map.mp hk
    obtain ⟨-, host, hhost, src, hrec⟩ := hholds.constants e he
    obtain ⟨hfirst, hordered, hlast⟩ := hlines.range hhost
    rw [hrec.line_constant]
    exact ⟨hfirst, Int.le_trans hordered hlast⟩
  case exports =>
    intro e he
    obtain ⟨n, hn, hline⟩ := line_of_exportsOf hpasses.exports he
    rw [hline]
    exact ⟨one_le_startLine n,
      Int.ofNat_le.mpr (Nat.le_trans (hlines.ordered n hn) (hlines.last n hn))⟩

/-- A class that is bound to a variable, below the line of the variable. -/
def tallCode : String := "export const A =\nclass\x7b\nm()\x7b\x7d\n\x7d\nconst k=1\n"

def tallTree : SyntaxTree Span :=
  construct .program none 0 42 [
    construct .exportStatement none 0 31 [
      construct .lexicalDeclaration (some .declaration) 7 31 [
        token .const 7 12,
        construct .variableDeclarator none 13 31 [
          construct .identifier (some .name) 13 14 [],
          construct .classExpression (some .value) 17 31 [
            construct .classBody (some .body) 22 31 [
              construct .methodDefinition none 24 29 [
                construct .propertyIdentifier (some .name) 24 25 []]]]]]],
    construct .lexicalDeclaration none 32 41 [
      token .const 32 37,
      construct .variableDeclarator none 38 41 [
        construct .identifier (some .name) 38 39 [],
        construct (.other "number") (some .value) 40 41 []]]]

def tallOutline : Outline :=
  { classes := [⟨"A", 1, 4, none, "", [⟨"m", "", 3, false, .method, ""⟩]⟩]
    constants := [⟨"k", 5, ""⟩]
    exports := [⟨"A", .value, none, 1⟩] }

theorem linesHold_analyse_tall :
    Nested tallTree ∧ analyse tallCode none tallTree = .ok tallOutline ∧
      lineCount tallCode = 6 ∧ LinesHold 6 tallOutline := by
  have hnested : Nested tallTree := ⟨by decide +kernel, by decide +kernel⟩
  have hanalyse : analyse tallCode none tallTree = .ok tallOutline := by decide +kernel
  have hcount : lineCount tallCode = 6 := by decide +kernel
  refine ⟨hnested, hanalyse, hcount, ?_⟩
  rw [← hcount]
  exact linesHold_analyse tallCode none tallTree tallOutline hnested hanalyse

end CodeAtlas.Analysis
