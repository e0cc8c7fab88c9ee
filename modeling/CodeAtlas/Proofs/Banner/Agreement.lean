import CodeAtlas.Banner
import CodeAtlas.Index.Write
import CodeAtlas.Proofs.Table
/-
  A banner and a block of an index write the same records.

  Each class, method, function and constant of an outline (`Record`) has a line in
  the banner of its file and a line in the block of its file. The two are written
  by functions of their own, and they agree.

  What is proved:
    1. `innerLines_eq_records`, `bodyLines_eq_records`: both have their records in
       the same order, after the imports.
    2. `indexLine_eq`: the line in the index is the one in the banner, two blanks
       further in, with the callees of the record behind it; `callSuffix_calleesText`
       says which callees these are.
    3. `writersAgree_all` puts them together. An outline without exports, calls and
       uses of imports has nothing that only one of the two would write, so its
       lines are the same throughout.
-/

namespace CodeAtlas.Banner

/-! ## Records -/

/-- What has a line of its own, here and there. -/
inductive Record where
  | classHead (c : ClassEntry)
  | method (c : ClassEntry) (m : MethodEntry)
  | function (f : FunctionEntry)
  | constant (k : ConstantEntry)

namespace Record

/-- The line of a record in a banner. -/
def bannerLine : Record → String
  | classHead c => classRow c
  | method _ m => methodRow m
  | function f => functionRow f
  | constant k => constantLine k

/-- The line of a record in the block of its file. -/
def indexLine (o : Outline) : Record → String
  | classHead c => "  " ++ Index.classText c
  | method c m => "    " ++ Index.methodText m ++ Index.calleesText o [c.qualify m, m.name]
  | function f => "  " ++ Index.functionText f ++ Index.calleesText o [f.name]
  | constant k => "  " ++ Index.constantText k

/-- The names under which the callees of a record are looked up. -/
def callers : Record → List String
  | method c m => [c.qualify m, m.name]
  | function f => [f.name]
  | classHead _ | constant _ => []

end Record

/-- The records of an outline: each class before its methods, then the functions
and the constants. -/
def recordsOf (o : Outline) : List Record :=
  o.classes.flatMap (fun c => .classHead c :: c.methods.map (.method c))
    ++ o.functions.map .function ++ o.constants.map .constant

theorem innerLines_eq_records (o : Outline) :
    innerLines o = o.imports.map importLine ++ (recordsOf o).map Record.bannerLine := by
  simp only [innerLines, recordsOf, List.map_append, List.map_flatMap, List.map_cons, List.map_map,
    List.append_assoc]
  rfl

theorem bodyLines_eq_records (o : Outline) :
    Index.bodyLines o = o.imports.map (fun i => "  " ++ Index.importText i)
      ++ (recordsOf o).map (Record.indexLine o) ++ Index.exportLines o := by
  simp only [Index.bodyLines, recordsOf, List.map_append, List.map_flatMap, List.map_cons,
    List.map_map, List.append_assoc]
  rfl

/-! ## One line and the other -/

theorem span_eq (start last : Int) : span start last = Index.rangeText start last := by
  rw [span, String.intercalate_cons_cons, String.intercalate_singleton, Index.rangeText]

/-- Closing words are a description behind the words before them. -/
theorem spaced_closingWords (first second description : String) :
    spaced (first :: second :: closingWords description)
      = Index.describe (first ++ " " ++ second) description := by
  unfold closingWords Index.describe spaced
  split
  · rw [String.intercalate_cons_cons, String.intercalate_singleton]
  · rw [String.intercalate_cons_cons, String.intercalate_cons_cons, String.intercalate_singleton]
    simp only [String.append_assoc]

theorem heading_eq (c : ClassEntry) :
    ":".intercalate (c.name :: (c.baseClass.filter (· ≠ "")).toList) = Index.classHeading c := by
  unfold Index.classHeading
  cases c.baseClass with
  | none => rw [Option.filter_none, Option.toList_none, String.intercalate_singleton]
  | some base =>
    by_cases h : base = "" <;> simp [Option.filter, h]

theorem importLine_of_unused {i : ImportEntry} (h : i.usedIn = []) :
    importLine i = Index.importText i := by
  rw [importLine, if_pos h, spaced, String.intercalate_singleton, Index.importText]

theorem classRow_eq (c : ClassEntry) : classRow c = Index.classText c := by
  rw [classRow, heading_eq, span_eq, spaced_closingWords, Index.classText]

theorem methodRow_eq (m : MethodEntry) : methodRow m = "  " ++ Index.methodText m := by
  have hmark : (if m.isStatic then "  +" else "  .") = "  " ++ Index.methodMark m := by
    unfold Index.methodMark
    cases m.isStatic <;> rfl
  rw [methodRow, hmark, spaced_closingWords, Index.methodText]
  unfold Index.describe
  split <;> simp only [String.append_assoc] <;> rfl

theorem functionRow_eq (f : FunctionEntry) : functionRow f = Index.functionText f := by
  rw [functionRow, span_eq, spaced_closingWords, Index.functionText]
  simp only [String.append_assoc]
  rfl

theorem constantLine_eq (k : ConstantEntry) : constantLine k = Index.constantText k := by
  rw [constantLine, spaced_closingWords, Index.constantText]

/-! ## Callees -/

/-- What stands at the end of a line for its callees: nothing when none of the
callers has any, else an arrow and the callees of the first that has some. -/
inductive CallSuffix (o : Outline) (callers : List String) : String → Prop where
  | none (quiet : ∀ caller ∈ callers, o.calleesOf caller = []) : CallSuffix o callers ""
  | arrow {before after : List String} {caller : String}
      (split : callers = before ++ caller :: after)
      (first : ∀ b ∈ before, o.calleesOf b = []) (calls : o.calleesOf caller ≠ []) :
      CallSuffix o callers (" →" ++ ",".intercalate (o.calleesOf caller))

theorem callSuffix_calleesText (o : Outline) (callers : List String) :
    CallSuffix o callers (Index.calleesText o callers) := by
  unfold Index.calleesText
  split
  · next callees hfind =>
    rw [List.find?_map, Option.map_eq_some_iff] at hfind
    obtain ⟨caller, hfind, rfl⟩ := hfind
    obtain ⟨hcalls, before, after, hsplit, hbefore⟩ := List.find?_eq_some_iff_append.mp hfind
    refine .arrow hsplit ?_ (by simpa using hcalls)
    intro b hb
    simpa using hbefore b hb
  · next hfind =>
    refine .none ?_
    intro caller hcaller
    simpa using List.find?_eq_none.mp hfind _ (List.mem_map_of_mem hcaller)

theorem calleesText_of_empty {o : Outline} (h : o.calls = .empty) (callers : List String) :
    Index.calleesText o callers = "" := by
  have hquiet : ∀ caller, o.calleesOf caller = [] := by
    intro caller
    rw [Outline.calleesOf, h, Table.get?_empty]
    rfl
  have hsuffix := callSuffix_calleesText o callers
  generalize Index.calleesText o callers = suffix at hsuffix
  cases hsuffix with
  | none => rfl
  | arrow _ _ calls => exact absurd (hquiet _) calls

/-- The line in the index is the line in the banner, two blanks further in and
with the callees behind it. -/
theorem indexLine_eq (o : Outline) (r : Record) :
    r.indexLine o = "  " ++ r.bannerLine ++ Index.calleesText o r.callers := by
  cases r with
  | classHead c =>
    rw [Record.indexLine, Record.bannerLine, classRow_eq]
    exact String.append_empty.symm
  | method c m =>
    rw [Record.indexLine, Record.bannerLine, methodRow_eq, ← String.append_assoc]
    rfl
  | function f =>
    rw [Record.indexLine, Record.bannerLine, functionRow_eq]
    rfl
  | constant k =>
    rw [Record.indexLine, Record.bannerLine, constantLine_eq]
    exact String.append_empty.symm

/-! ## The two texts as a whole -/

/-- The lines of a banner and of a block that belong to each other. -/
structure WritersAgree (name : String) (o : Outline) : Prop where
  /-- A banner is its lines, and these are a first one, the imports, the records
  and a last one. -/
  banner : render name o = "\n".intercalate (bannerLines name o) ∧
    bannerLines name o = firstLine name o
      :: (o.imports.map importLine ++ (recordsOf o).map Record.bannerLine) ++ [closing]
  /-- A block is a first line, the imports, the records and the exports. -/
  block : Index.block name o = Index.fileLine name o
    :: (o.imports.map (fun i => "  " ++ Index.importText i)
      ++ (recordsOf o).map (Record.indexLine o) ++ Index.exportLines o)
  /-- The line of each record in the block goes on from its line in the banner. -/
  records : ∀ r ∈ recordsOf o, ∃ suffix,
    r.indexLine o = "  " ++ r.bannerLine ++ suffix ∧ CallSuffix o r.callers suffix
  /-- Without exports, calls and uses all lines between first and last agree. -/
  same : o.exports = [] → o.calls = .empty → (∀ i ∈ o.imports, i.usedIn = []) →
    (Index.block name o).tail = (bannerLines name o).tail.dropLast.map ("  " ++ ·)

theorem writersAgree_all (name : String) (o : Outline) : WritersAgree name o where
  banner := ⟨rfl, by rw [bannerLines, innerLines_eq_records]⟩
  block := by rw [Index.block, bodyLines_eq_records]
  records := fun r _ => ⟨_, indexLine_eq o r, callSuffix_calleesText o r.callers⟩
  same := by
    intro hexports hcalls huses
    have hinner : (bannerLines name o).tail.dropLast = innerLines o := by
      rw [bannerLines, List.cons_append, List.tail_cons, List.dropLast_concat]
    have himports : o.imports.map (fun i => "  " ++ Index.importText i)
        = (o.imports.map importLine).map ("  " ++ ·) := by
      rw [List.map_map]
      apply List.map_congr_left
      intro i hi
      rw [Function.comp_apply, importLine_of_unused (huses i hi)]
    have hrecords : (recordsOf o).map (Record.indexLine o)
        = ((recordsOf o).map Record.bannerLine).map ("  " ++ ·) := by
      rw [List.map_map]
      apply List.map_congr_left
      intro r _
      rw [Function.comp_apply, indexLine_eq, calleesText_of_empty hcalls, String.append_empty]
    rw [hinner, Index.block, List.tail_cons, bodyLines_eq_records, innerLines_eq_records,
      Index.exportLines, if_pos hexports, List.append_nil, List.map_append, himports, hrecords]

/-- A file with one record of each sort and nothing that only one writer shows. -/
def quietOutline : Outline :=
  { imports := [⟨"m", ["x"], []⟩]
    classes := [⟨"K", 1, 4, some "B", "Holds.", [⟨"a", "", 2, true, .getter, "Reads."⟩]⟩]
    functions := [⟨"f", "p,q?", 6, 7, ""⟩]
    constants := [⟨"C", 9, "One."⟩] }

theorem writersAgree_all_quiet :
    (bannerLines "k.js" quietOutline).tail.dropLast
      = ["<m:x", "K:B 1-4 Holds.", "  +get:a() 2 Reads.", "f(p,q?) 6-7", "C 9 One."] ∧
    (Index.block "k.js" quietOutline).tail
      = (bannerLines "k.js" quietOutline).tail.dropLast.map ("  " ++ ·) :=
  ⟨by decide +kernel, (writersAgree_all "k.js" quietOutline).same rfl rfl (by decide)⟩

end CodeAtlas.Banner
