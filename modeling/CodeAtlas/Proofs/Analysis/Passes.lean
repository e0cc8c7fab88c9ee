import CodeAtlas.Analysis.Outline
import CodeAtlas.Proofs.Fallible
import CodeAtlas.Proofs.Imports
import CodeAtlas.Proofs.Syntax.Cursor
import CodeAtlas.Proofs.Table
/-
  What the passes over a file have done once they succeeded.

  `analyse_eq_ok` and `survey_eq_ok` take a successful analysis apart into its
  passes. `holds_collect` is the invariant of the inventory: an entry of a
  table stands under its own name, and some node of the file made it.
  `mem_keys_importsIn` says which names are imported, and `withUses_keep` what
  noting uses leaves as it is.
-/

namespace CodeAtlas.Analysis

open CodeAtlas.Syntax

theorem mem_nodesOf {root : Node} {n : Cursor} :
    n ∈ nodesOf root ↔ n ∈ (Cursor.root root).preorder := by
  rw [nodesOf, Cursor.descendants_eq_preorder]

/-! ## The inventory -/

namespace Declaration

/-- The function that is declared. -/
def function? : Declaration → Option FunctionEntry
  | function f => some f
  | _ => none

/-- The class that is declared. -/
def class? : Declaration → Option ClassEntry
  | classDef c => some c
  | _ => none

/-- The constant that is declared. -/
def constant? : Declaration → Option ConstantEntry
  | constant k => some k
  | _ => none

end Declaration

namespace Inventory

/-- Every entry stands under its own name and comes from a declaration that
satisfies `P`. -/
structure Holds (P : Declaration → Prop) (ds : Inventory) : Prop where
  functions : ∀ e ∈ ds.functions.entries, e.1 = e.2.name ∧ P (.function e.2)
  classes : ∀ e ∈ ds.classes.entries, e.1 = e.2.name ∧ P (.classDef e.2)
  constants : ∀ e ∈ ds.constants.entries, e.1 = e.2.name ∧ P (.constant e.2)

theorem holds_empty (P : Declaration → Prop) : Holds P {} := by
  constructor <;> intro e he <;> cases he

theorem Holds.add {P : Declaration → Prop} {ds : Inventory} {d : Declaration} (h : Holds P ds)
    (hd : P d) : Holds P (ds.add d) := by
  cases d with
  | function f =>
    refine ⟨?_, h.classes, h.constants⟩
    intro e he
    rcases Table.mem_entries_insert he with rfl | he
    · exact ⟨rfl, hd⟩
    · exact h.functions e he
  | classDef c =>
    refine ⟨h.functions, ?_, h.constants⟩
    intro e he
    rcases Table.mem_entries_insert he with rfl | he
    · exact ⟨rfl, hd⟩
    · exact h.classes e he
  | constant k =>
    refine ⟨h.functions, h.classes, ?_⟩
    intro e he
    rcases Table.mem_entries_insert he with rfl | he
    · exact ⟨rfl, hd⟩
    · exact h.constants e he

theorem Holds.foldl_add {P : Declaration → Prop} {l : List Declaration} {ds : Inventory}
    (h : Holds P ds) (hl : ∀ d ∈ l, P d) : Holds P (l.foldl Inventory.add ds) := by
  induction l generalizing ds with
  | nil => exact h
  | cons d l ih =>
    exact ih (h.add (hl d List.mem_cons_self)) fun k hk => hl k (List.mem_cons_of_mem d hk)

/-- What is collected was declared by one of the nodes. -/
theorem holds_collect {nodes : List Cursor} {ds : Inventory} (h : collect nodes = .ok ds) :
    Holds (fun d => ∃ n ∈ nodes, ∃ l, declarationsAt n = .ok l ∧ d ∈ l) ds := by
  obtain ⟨lists, hlists, h⟩ := bind_eq_ok.mp h
  rw [pure_eq_ok] at h
  subst h
  exact (holds_empty _).foldl_add fun d hd => (mem_flatten_mapM hlists).mp hd

/-- The functions are listed under their names. -/
theorem Holds.map_name_functions {P : Declaration → Prop} {ds : Inventory} (h : Holds P ds) :
    ds.functions.values.map (·.name) = ds.functions.keys := by
  rw [Table.values, Table.keys, List.map_map]
  exact List.map_congr_left fun e he => (h.functions e he).1.symm

end Inventory

/-! ## Imported names -/

/-- The imported names are those that some import binds. -/
theorem mem_keys_importsIn {nodes : List Cursor} {found : Imports}
    (h : importsIn nodes = .ok found) {name : String} :
    name ∈ found.aliases.keys ↔
      ∃ c ∈ nodes, ∃ steps, importSteps c = .ok steps ∧ ∃ s ∈ steps, s.bound? = some name := by
  obtain ⟨lists, hlists, h⟩ := bind_eq_ok.mp h
  cases pure_eq_ok.mp h
  have hrun : lists.flatten.foldl Imports.add .empty
      = Imports.run (lists.flatten.map .add) := by
    rw [Imports.run, List.foldl_map]
    rfl
  rw [hrun, Imports.keys_aliases_run, Imports.mem_boundNames]
  simp only [List.mem_map, exists_exists_and_eq_and, mem_flatten_mapM hlists]
  constructor
  · rintro ⟨s, ⟨c, hc, steps, hsteps, hs⟩, hbound⟩
    exact ⟨c, hc, steps, hsteps, s, hs, hbound⟩
  · rintro ⟨c, hc, steps, hsteps, s, hs, hbound⟩
    exact ⟨s, ⟨c, hc, steps, hsteps, hs⟩, hbound⟩

/-! ## Uses -/

theorem noteUse_eq_ok {t t' : Imports} {use : String × String} :
    noteUse t use = .ok t' ↔ t.noteUser? use.1 use.2 = some t' := by
  unfold noteUse
  cases t.noteUser? use.1 use.2 <;> simp

theorem noteUses_keep {uses : List (String × String)} {t t' : Imports}
    (h : uses.foldlM noteUse t = .ok t') :
    t'.members = t.members ∧ t'.aliases.keys = t.aliases.keys := by
  induction uses generalizing t with
  | nil =>
    cases h
    exact ⟨rfl, rfl⟩
  | cons use uses ih =>
    rw [List.foldlM_cons] at h
    obtain ⟨t₁, hnote, h⟩ := bind_eq_ok.mp h
    obtain ⟨hmembers, hkeys⟩ := ih h
    have hnote := noteUse_eq_ok.mp hnote
    exact ⟨hmembers.trans (Imports.members_noteUser? hnote),
      hkeys.trans (Imports.keys_noteUser? hnote)⟩

/-- Noting uses changes neither the members of a module nor the local names. -/
theorem withUses_keep {nodes : List Cursor} {callables : List String} {t t' : Imports}
    (h : withUses nodes callables t = .ok t') :
    t'.members = t.members ∧ t'.aliases.keys = t.aliases.keys := by
  obtain ⟨uses, -, h⟩ := bind_eq_ok.mp h
  exact noteUses_keep h

/-! ## The passes -/

/-- The passes that give a survey; `found` are the imports before their uses
are noted. -/
structure Passes (root : Node) (found : Imports) (s : Survey) : Prop where
  imports : importsIn (nodesOf root) = .ok found
  declarations : Inventory.collect (nodesOf root) = .ok s.declarations
  exports : exportsOf root = .ok s.exports
  uses : withUses (nodesOf root) s.declarations.callables found = .ok s.imports

theorem declarationsOf_eq_ok {root : Node} {ds : Inventory} {es : List ExportEntry} :
    declarationsOf root = .ok (ds, es) ↔
      Inventory.collect (nodesOf root) = .ok ds ∧ exportsOf root = .ok es := by
  constructor
  · intro h
    obtain ⟨ds', hds, h⟩ := bind_eq_ok.mp h
    obtain ⟨es', hes, h⟩ := bind_eq_ok.mp h
    cases pure_eq_ok.mp h
    exact ⟨hds, hes⟩
  · intro h
    exact bind_eq_ok.mpr ⟨ds, h.1, bind_eq_ok.mpr ⟨es, h.2, rfl⟩⟩

theorem survey_eq_ok {root : Node} {s : Survey} (h : survey root = .ok s) :
    ∃ found, Passes root found s := by
  obtain ⟨found, hfound, h⟩ := bind_eq_ok.mp h
  obtain ⟨⟨ds, es⟩, hdeclarations, h⟩ := bind_eq_ok.mp h
  obtain ⟨imports, himports, h⟩ := bind_eq_ok.mp h
  obtain ⟨hds, hes⟩ := declarationsOf_eq_ok.mp hdeclarations
  cases pure_eq_ok.mp h
  exact ⟨found, hfound, hds, hes, himports⟩

theorem typesOnly_of_survey {root : Node} {s : Survey} (h : survey root = .ok s) :
    s.typesOnly = holdsTypesOnly root := by
  obtain ⟨found, -, h⟩ := bind_eq_ok.mp h
  obtain ⟨made, -, h⟩ := bind_eq_ok.mp h
  obtain ⟨imports, -, h⟩ := bind_eq_ok.mp h
  cases pure_eq_ok.mp h
  rfl

theorem Passes.survey_eq {root : Node} {found : Imports} {s : Survey} (h : Passes root found s)
    (htypes : s.typesOnly = holdsTypesOnly root) : survey root = .ok s := by
  have hdeclarations := declarationsOf_eq_ok.mpr ⟨h.declarations, h.exports⟩
  refine bind_eq_ok.mpr ⟨found, h.imports, bind_eq_ok.mpr ⟨_, hdeclarations, ?_⟩⟩
  refine bind_eq_ok.mpr ⟨_, h.uses, ?_⟩
  rw [pure_eq_ok, ← htypes]

theorem readTree_eq_ok {code : String} {path : Option String} {tree : SyntaxTree Span}
    {root : Node} (h : readTree code path tree = .ok root) :
    root = tree.locate code ∧ root.defect? = none := by
  simp only [readTree] at h
  split at h
  · next hnone =>
    cases h
    exact ⟨rfl, hnone⟩
  · split at h <;> cases h

/-- An outline comes from a survey of the tree and its calls. -/
theorem analyse_eq_ok {code : String} {path : Option String} {tree : SyntaxTree Span}
    {m : Outline} (h : analyse code path tree = .ok m) :
    ∃ s calls, survey (tree.locate code) = .ok s ∧ s.callsIn (tree.locate code) = .ok calls ∧
      m = s.outline calls (openingDescription code) := by
  obtain ⟨root, hroot, h⟩ := bind_eq_ok.mp h
  rw [(readTree_eq_ok hroot).1, mapError_eq_ok] at h
  obtain ⟨s, hs, h⟩ := bind_eq_ok.mp h
  obtain ⟨calls, hcalls, h⟩ := bind_eq_ok.mp h
  exact ⟨s, calls, hs, hcalls, (pure_eq_ok.mp h).symm⟩

/-! ## A small file, and a broken one

The first has a callable of each sort, calls of each sort, and calls that count for
nothing: one of a function to itself, and one outside all callables. -/

/-- A construct of the grammar that is free of errors. -/
def construct (kind : Kind) (field : Option Field) (start stop : Nat)
    (children : List (SyntaxTree Span)) : SyntaxTree Span :=
  .node ⟨kind, true, false, false, false, field⟩ ⟨start, stop⟩ children

/-- A bare token. -/
def token (kind : Kind) (start stop : Nat) : SyntaxTree Span :=
  .node ⟨kind, false, false, false, false, none⟩ ⟨start, stop⟩ []

/-- A statement that is a call. -/
def callStatement (start stop : Nat) (callee : SyntaxTree Span) : SyntaxTree Span :=
  construct .expressionStatement none start stop
    [construct .callExpression none start stop [callee]]

def sampleCode : String :=
  "/** Reads files. */\nimport fs from 'fs'\nconst a=p=>\x7bb();fs.read();b()\x7d\n"
    ++ "function b()\x7ba();b()\x7d\nexport default class\x7bm()\x7ba(1)\x7d\x7d\nb()\n"

def sampleBlock : SyntaxTree Span :=
  construct (.other "statement_block") (some .body) 117 123 [
    callStatement 118 122 (construct .identifier (some .function) 118 119 [])]

def sampleMethod : SyntaxTree Span :=
  construct .methodDefinition none 114 123 [
    construct .propertyIdentifier (some .name) 114 115 [], sampleBlock]

def sampleBody : SyntaxTree Span := construct .classBody (some .body) 113 124 [sampleMethod]

def sampleClass : SyntaxTree Span :=
  construct .classExpression (some .value) 108 124 [sampleBody]

def sampleExport : SyntaxTree Span :=
  construct .exportStatement none 93 124 [token .default 100 107, sampleClass]

def sampleTree : SyntaxTree Span :=
  construct .program none 0 129 [
    construct .comment none 0 19 [],
    construct .importStatement none 20 39 [
      construct .importClause none 27 29 [construct .identifier none 27 29 []],
      construct .string (some .source) 35 39 []],
    construct .lexicalDeclaration none 40 70 [
      construct .variableDeclarator none 46 70 [
        construct .identifier (some .name) 46 47 [],
        construct .arrowFunction (some .value) 48 70 [
          construct .identifier (some .parameter) 48 49 [],
          construct (.other "statement_block") (some .body) 51 70 [
            callStatement 52 55 (construct .identifier (some .function) 52 53 []),
            callStatement 56 65 (construct .memberExpression (some .function) 56 63 [
              construct .identifier (some .object) 56 58 [],
              construct .propertyIdentifier (some .property) 59 63 []]),
            callStatement 66 69 (construct .identifier (some .function) 66 67 [])]]]],
    construct .functionDeclaration none 71 92 [
      construct .identifier (some .name) 80 81 [],
      construct (.other "statement_block") (some .body) 83 92 [
        callStatement 84 87 (construct .identifier (some .function) 84 85 []),
        callStatement 88 91 (construct .identifier (some .function) 88 89 [])]],
    sampleExport,
    callStatement 125 128 (construct .identifier (some .function) 125 126 [])]

def sampleOutline : Outline :=
  { description := "Reads files."
    imports := [⟨"fs", ["default"], ["a"]⟩]
    functions := [⟨"a", "p", 3, 3, ""⟩, ⟨"b", "", 4, 4, ""⟩]
    classes := [⟨"[default]", 5, 5, none, "", [⟨"m", "", 5, false, .method, ""⟩]⟩]
    exports := [⟨"default", .default, none, 5⟩]
    calls := ⟨[("a", ["b", "fs.read"]), ("b", ["a"]), ("[default].m", ["a"])]⟩ }

def brokenCode : String := "é("

/-- A name, and a parenthesis that the parser could not place. -/
def brokenTree : SyntaxTree Span :=
  .node ⟨.program, true, false, false, true, none⟩ ⟨0, 3⟩ [
    construct .identifier none 0 2 [],
    .node ⟨.other "ERROR", true, true, false, true, none⟩ ⟨2, 3⟩ []]

end CodeAtlas.Analysis
