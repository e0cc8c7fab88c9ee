import CodeAtlas.Proofs.Index.Reader
import CodeAtlas.Proofs.Index.Unbroken
/-
  Reading an index gives back the signatures that were written.

  `Reads ls b b'` says that the lines `ls`, read inside the block of a file,
  turn what is known of the file from `b` into `b'`, whatever class is open and
  whatever was read before. It composes along lines that follow one another,
  so the lines of imports, classes, functions, constants and exports are each
  dealt with once, and a block is their composition.

  What is proved:
    1. `reads_bodyLines`: a block gives the functions and the methods of its
       outline, in order, and nothing else.
    2. `files_blocks`: the blocks of several files set their names one after
       the other.
    3. `read_render`: the whole index, read back.
-/

namespace CodeAtlas.Index

open CodeAtlas.Text

/-! ## What an index says of a file -/

/-- The signature of a function. -/
def functionSignature (f : FunctionEntry) : Signature :=
  ⟨f.name, f.params, f.startLine.toNat, f.endLine.toNat⟩

/-- The signature of a method of a class. -/
def methodSignature (c : ClassEntry) (m : MethodEntry) : Signature :=
  ⟨c.qualify m, m.params, m.line.toNat, m.line.toNat⟩

/-- The signatures of the methods of some classes, class by class. -/
def methodSignatures (classes : List ClassEntry) : List Signature :=
  classes.flatMap fun c => c.methods.map (methodSignature c)

/-- What an index says of a file: the beginning of its description, its functions,
and the methods of its classes. -/
def blockOf (f : FileOutline) : IndexedBlock :=
  ⟨baseName f, Text.first descriptionWidth f.outline.description,
    f.outline.functions.map functionSignature, methodSignatures f.outline.classes⟩

/-- The line numbers that are read back are not too long for it. -/
@[mk_iff] structure NumbersFit (o : Outline) : Prop where
  functions : ∀ f ∈ o.functions,
    f.startLine.toNat < 10 ^ widthLimit ∧ f.endLine.toNat < 10 ^ widthLimit
  methods : ∀ c ∈ o.classes, ∀ m ∈ c.methods, m.line.toNat < 10 ^ widthLimit

instance (o : Outline) : Decidable (NumbersFit o) := decidable_of_iff' _ (numbersFit_iff o)

/-! ## Reading inside a file -/

/-- A reader that has just put `b` under the name of the file that is open. -/
def inside (t : Table String IndexedBlock) (name : String) (b : IndexedBlock)
    (openClass : Option String) : Reader :=
  ⟨t.insert name b, some name, openClass⟩

/-- The lines `ls` turn what is known of the open file from `b` into `b'`. -/
def Reads (ls : List String) (b b' : IndexedBlock) : Prop :=
  ∀ t name openClass, ∃ openClass',
    (linesRead ls).foldl Reader.step (inside t name b openClass) = inside t name b' openClass'

theorem updateFile_inside (t : Table String IndexedBlock) (name : String) (b : IndexedBlock)
    (openClass : Option String) (f : IndexedBlock → IndexedBlock) :
    (inside t name b openClass).updateFile f = inside t name (f b) openClass := by
  simp [Reader.updateFile, inside, Table.alter_insert]

theorem step_method_inside (t : Table String IndexedBlock) (name c m params : String)
    (b : IndexedBlock) (n : Numeral) :
    (inside t name b (some c)).step (.method m params n) = inside t name
      { b with methods := b.methods ++ [⟨c ++ "." ++ m, params, n.value, n.value⟩] } (some c) :=
  updateFile_inside t name b (some c) fun b =>
    { b with methods := b.methods ++ [⟨c ++ "." ++ m, params, n.value, n.value⟩] }

theorem step_function_inside (t : Table String IndexedBlock) (name f params : String)
    (b : IndexedBlock) (openClass : Option String) (first last : Numeral) :
    (inside t name b openClass).step (.function f params first last) = inside t name
      { b with functions := b.functions ++ [⟨f, params, first.value, last.value⟩] } none :=
  updateFile_inside t name b none fun b =>
    { b with functions := b.functions ++ [⟨f, params, first.value, last.value⟩] }

/-- One line that is read as `l`. -/
theorem reads_line {text : String} {l : Line} {b b' : IndexedBlock}
    (hread : Line.read text.toList = l)
    (hstep : ∀ t name openClass, (inside t name b openClass).step l = inside t name b' none) :
    Reads [text] b b' := by
  intro t name openClass
  refine ⟨none, ?_⟩
  rw [linesRead, List.map_singleton, hread]
  exact hstep t name openClass

theorem reads_nil (b : IndexedBlock) : Reads [] b b := fun _ _ openClass => ⟨openClass, rfl⟩

theorem Reads.append {ls ms : List String} {a b c : IndexedBlock} (h₁ : Reads ls a b)
    (h₂ : Reads ms b c) : Reads (ls ++ ms) a c := by
  intro t name openClass
  obtain ⟨oc₁, e₁⟩ := h₁ t name openClass
  obtain ⟨oc₂, e₂⟩ := h₂ t name oc₁
  refine ⟨oc₂, ?_⟩
  rw [linesRead, List.map_append, List.foldl_append]
  rw [linesRead] at e₁ e₂
  rw [e₁, e₂]

/-- Lines that only end a class change nothing. -/
theorem reads_entries {ls : List String} (h : ∀ l ∈ ls, Line.read l.toList = .entry)
    (b : IndexedBlock) : Reads ls b b := by
  induction ls with
  | nil => exact reads_nil b
  | cons l ls ih =>
    have hline : Reads [l] b b := reads_line (h l (by simp)) fun _ _ _ => rfl
    exact hline.append (ih fun k hk => h k (List.mem_cons_of_mem l hk))

/-! ## The parts of a block -/

theorem reads_functions (o : Outline) {fs : List FunctionEntry} (h : ∀ f ∈ fs, FunctionFits f)
    (b : IndexedBlock) :
    Reads (fs.map fun f => "  " ++ functionText f ++ calleesText o [f.name]) b
      { b with functions := b.functions ++ fs.map functionSignature } := by
  induction fs generalizing b with
  | nil =>
    rw [List.map_nil, List.map_nil, List.append_nil]
    exact reads_nil b
  | cons f fs ih =>
    have hline := reads_line (read_function (h f (by simp)) (endsEntry_calleesText o [f.name]))
      fun t name openClass => step_function_inside t name f.name f.params b openClass _ _
    have hrest := ih (fun g hg => h g (List.mem_cons_of_mem f hg))
      { b with functions := b.functions ++ [functionSignature f] }
    rw [List.append_assoc] at hrest
    exact hline.append hrest

/-- The methods of a class are read while the class is open. -/
theorem foldl_methods (o : Outline) (c : ClassEntry) {ms : List MethodEntry}
    (h : ∀ m ∈ ms, MethodFits m) (t : Table String IndexedBlock) (name : String)
    (b : IndexedBlock) :
    (linesRead (ms.map fun m =>
        "    " ++ methodText m ++ calleesText o [c.qualify m, m.name])).foldl Reader.step
      (inside t name b (some c.name))
      = inside t name { b with methods := b.methods ++ ms.map (methodSignature c) }
          (some c.name) := by
  induction ms generalizing b with
  | nil => simp [linesRead]
  | cons m ms ih =>
    have hline := read_method (h m (by simp)) (endsEntry_calleesText o [c.qualify m, m.name])
    have hrest := ih (fun k hk => h k (List.mem_cons_of_mem m hk))
      { b with methods := b.methods ++ [methodSignature c m] }
    rw [List.append_assoc] at hrest
    rw [List.map_cons, linesRead, List.map_cons, List.foldl_cons, hline, step_method_inside]
    exact hrest

theorem reads_classLines (o : Outline) {c : ClassEntry} (h : ClassFits c) (b : IndexedBlock) :
    Reads (classLines o c) b
      { b with methods := b.methods ++ c.methods.map (methodSignature c) } := by
  intro t name openClass
  refine ⟨some c.name, ?_⟩
  have hopen : (inside t name b openClass).step (.classHead c.name)
      = inside t name b (some c.name) := rfl
  rw [classLines, linesRead, List.map_cons, List.foldl_cons, read_class h, hopen]
  exact foldl_methods o c h.methods t name b

theorem reads_classes (o : Outline) {cs : List ClassEntry} (h : ∀ c ∈ cs, ClassFits c)
    (b : IndexedBlock) :
    Reads (cs.flatMap (classLines o)) b
      { b with methods := b.methods ++ methodSignatures cs } := by
  induction cs generalizing b with
  | nil =>
    rw [List.flatMap_nil, methodSignatures, List.flatMap_nil, List.append_nil]
    exact reads_nil b
  | cons c cs ih =>
    have hrest := ih (fun d hd => h d (List.mem_cons_of_mem c hd))
      { b with methods := b.methods ++ c.methods.map (methodSignature c) }
    rw [List.append_assoc] at hrest
    rw [List.flatMap_cons]
    exact (reads_classLines o (h c (by simp)) b).append hrest

theorem reads_exportLines (o : Outline) (b : IndexedBlock) : Reads (exportLines o) b b := by
  apply reads_entries
  intro l hl
  unfold exportLines at hl
  split at hl
  · simp at hl
  · rw [List.mem_singleton.mp hl]
    exact read_export _

/-- The lines of a block give the functions and the methods of its outline. -/
theorem reads_bodyLines {o : Outline} (h : OutlineFits o) (name description : String) :
    Reads (bodyLines o) ⟨name, description, [], []⟩
      ⟨name, description, o.functions.map functionSignature, methodSignatures o.classes⟩ := by
  have himports : Reads (o.imports.map fun i => "  " ++ importText i)
      ⟨name, description, [], []⟩ ⟨name, description, [], []⟩ := by
    apply reads_entries
    intro l hl
    obtain ⟨i, -, rfl⟩ := List.mem_map.mp hl
    exact read_import i
  have hclasses := reads_classes o h.classes ⟨name, description, [], []⟩
  have hfunctions := reads_functions o h.functions
    ⟨name, description, [], methodSignatures o.classes⟩
  have hconstants : ∀ b, Reads (o.constants.map fun k => "  " ++ constantText k) b b := by
    intro b
    apply reads_entries
    intro l hl
    obtain ⟨k, hk, rfl⟩ := List.mem_map.mp hl
    exact read_constant (h.constants k hk)
  exact (((himports.append hclasses).append hfunctions).append (hconstants _)).append
    (reads_exportLines o _)

/-! ## Blocks one after the other -/

/-- A block sets the name of its file, from any reader. -/
theorem foldl_block {f : FileOutline} (hn : Solid (baseName f)) (h : OutlineFits f.outline)
    (r : Reader) :
    ∃ openClass, (linesRead (block (baseName f) f.outline)).foldl Reader.step r
      = inside r.files (baseName f) (blockOf f) openClass := by
  obtain ⟨openClass, e⟩ := reads_bodyLines h (baseName f)
    (Text.first descriptionWidth f.outline.description) r.files (baseName f) none
  refine ⟨openClass, ?_⟩
  rw [block, linesRead, List.map_cons, List.foldl_cons, read_fileLine hn]
  exact e

theorem files_blocks {fs : List FileOutline}
    (h : ∀ f ∈ fs, Solid (baseName f) ∧ OutlineFits f.outline) (r : Reader) :
    ((linesRead (fs.flatMap fun f => block (baseName f) f.outline)).foldl Reader.step r).files
      = fs.foldl (fun t f => t.insert (baseName f) (blockOf f)) r.files := by
  -- the reader changes from block to block, and a class may be left open
  induction fs generalizing r with
  | nil => rfl
  | cons f fs ih =>
    obtain ⟨openClass, e⟩ := foldl_block (h f (by simp)).1 (h f (by simp)).2 r
    rw [List.flatMap_cons, linesRead, List.map_append, List.foldl_append, List.foldl_cons]
    rw [linesRead] at e
    rw [e]
    exact ih (fun g hg => h g (List.mem_cons_of_mem f hg)) _

/-- The lines of an index give a table in which each file sets its name. -/
theorem files_indexLines (dir : String) {fs : List FileOutline}
    (h : ∀ f ∈ fs, Solid (baseName f) ∧ OutlineFits f.outline) :
    ((linesRead (indexLines dir fs)).foldl Reader.step {}).files
      = Table.ofList (fs.map fun f => (baseName f, blockOf f)) := by
  rw [indexLines, linesRead, List.map_append, List.map_cons, List.foldl_append, List.map_singleton,
    List.foldl_cons, List.foldl_cons, List.foldl_nil, read_openingLine, read_closingLine,
    Table.ofList]
  refine (files_blocks h _).trans ?_
  rw [List.foldl_map]
  rfl

theorem unbroken_of_fits {fs : List FileOutline}
    (h : ∀ f ∈ fs, Solid (baseName f) ∧ OutlineFits f.outline) :
    ∀ f ∈ fs, OneLine (baseName f) ∧ Unbroken f.outline :=
  fun f hf => ⟨(h f hf).1.oneLine, (h f hf).2.unbroken⟩

/-! ## Line numbers -/

theorem isShort_function {name params : String} {a b : Nat} (ha : a < 10 ^ widthLimit)
    (hb : b < 10 ^ widthLimit) : IsShort (.function name params (written a) (written b)) :=
  isShort_of_numbers (by simp [Line.numbers, isTooLong_written ha, isTooLong_written hb])

theorem isShort_method {name params : String} {a : Nat} (ha : a < 10 ^ widthLimit) :
    IsShort (.method name params (written a)) :=
  isShort_of_numbers (by simp [Line.numbers, isTooLong_written ha])

theorem isShort_bodyLines {o : Outline} (h : OutlineFits o) (hn : NumbersFit o) :
    ∀ l ∈ bodyLines o, IsShort (Line.read l.toList) := by
  intro l hl
  simp only [bodyLines, List.mem_append, List.mem_map, List.mem_flatMap] at hl
  rcases hl with (((⟨i, hi, rfl⟩ | ⟨c, hc, hl⟩) | ⟨f, hf, rfl⟩) | ⟨k, hk, rfl⟩) | hl
  · rw [read_import]; exact fun _ => rfl
  · rcases List.mem_cons.mp hl with rfl | hl
    · rw [read_class (h.classes c hc)]; exact fun _ => rfl
    · obtain ⟨m, hm, rfl⟩ := List.mem_map.mp hl
      rw [read_method ((h.classes c hc).methods m hm) (endsEntry_calleesText o _)]
      exact isShort_method (hn.methods c hc m hm)
  · rw [read_function (h.functions f hf) (endsEntry_calleesText o _)]
    exact isShort_function (hn.functions f hf).1 (hn.functions f hf).2
  · rw [read_constant (h.constants k hk)]; exact fun _ => rfl
  · unfold exportLines at hl
    split at hl
    · simp at hl
    · rw [List.mem_singleton.mp hl, read_export]; exact fun _ => rfl

theorem isShort_indexLines (dir : String) {fs : List FileOutline}
    (h : ∀ f ∈ fs, Solid (baseName f) ∧ OutlineFits f.outline)
    (hn : ∀ f ∈ fs, NumbersFit f.outline) :
    ∀ l ∈ linesRead (indexLines dir fs), IsShort l := by
  intro l hl
  obtain ⟨text, ht, rfl⟩ := List.mem_map.mp hl
  simp only [indexLines, List.cons_append, List.mem_cons, List.mem_append, List.mem_flatMap,
    List.not_mem_nil, or_false] at ht
  rcases ht with rfl | ⟨f, hf, ht⟩ | rfl
  · rw [read_openingLine]; exact fun _ => rfl
  · rcases List.mem_cons.mp ht with rfl | ht
    · have hfile := read_fileLine (h f hf).1 f.outline
      rw [baseName] at hfile
      rw [hfile]; exact fun _ => rfl
    · exact isShort_bodyLines (h f hf).2 (hn f hf) text ht
  · rw [read_closingLine]; exact fun _ => rfl

/-! ## The whole index -/

/-- The table of an index: each file sets its name. -/
theorem read_render_eq {dir : String} {fs : List FileOutline}
    (hdir : OneLine (Path.ofString dir).name)
    (h : ∀ f ∈ fs, Solid (baseName f) ∧ OutlineFits f.outline) :
    read (render dir fs) = Table.ofList (fs.map fun f => (baseName f, blockOf f)) := by
  rw [read, linesOf_render hdir (unbroken_of_fits h), files_indexLines dir h]

/-- With line numbers of a bounded length the bounded reading gives the same. -/
theorem read?_render_eq {dir : String} {fs : List FileOutline}
    (hdir : OneLine (Path.ofString dir).name)
    (h : ∀ f ∈ fs, Solid (baseName f) ∧ OutlineFits f.outline)
    (hn : ∀ f ∈ fs, NumbersFit f.outline) :
    read? (render dir fs) = some (read (render dir fs)) := by
  have hrun := foldlM_step?_of_isShort (isShort_indexLines dir h hn) {}
  rw [read?, read, linesOf_render hdir (unbroken_of_fits h), hrun]
  rfl

/-- The writing that gives up on long numbers gives the index or nothing. -/
theorem render?_eq_some {dir : String} {files : List FileOutline} {text : String} :
    render? dir files = some text ↔ text = render dir files ∧
      ∀ f ∈ files, ∀ n ∈ lineNumbers f.outline, n.natAbs < 10 ^ widthLimit := by
  have hwidth : ∀ n : Int, (Nat.toDigits 10 n.natAbs).length ≤ widthLimit ↔
      n.natAbs < 10 ^ widthLimit := fun n => Nat.length_toDigits_le_iff (by decide) (by decide)
  unfold render?
  split
  · next hall =>
    simp only [List.all_eq_true, decide_eq_true_eq, hwidth] at hall
    rw [Option.some.injEq, eq_comm, and_iff_left hall]
  · next hall =>
    simp only [List.all_eq_true, decide_eq_true_eq, hwidth] at hall
    simp [hall]

/-- What can be written can be read. -/
theorem numbersFit_of_lineNumbers {o : Outline}
    (h : ∀ n ∈ lineNumbers o, n.natAbs < 10 ^ widthLimit) : NumbersFit o := by
  have hshort : ∀ n ∈ lineNumbers o, n.toNat < 10 ^ widthLimit := fun n hn =>
    Nat.lt_of_le_of_lt (by omega) (h n hn)
  simp only [lineNumbers, List.mem_append, List.mem_flatMap, List.mem_cons, List.mem_map] at hshort
  refine ⟨fun f hf => ⟨?_, ?_⟩, fun c hc m hm => ?_⟩
  · exact hshort _ (Or.inl (Or.inr ⟨f, hf, Or.inl rfl⟩))
  · exact hshort _ (Or.inl (Or.inr ⟨f, hf, Or.inr (Or.inl rfl)⟩))
  · exact hshort _ (Or.inl (Or.inl ⟨c, hc, Or.inr (Or.inr ⟨m, hm, rfl⟩)⟩))

/-- A file with every kind of entry: a method that is called like an accessor,
a constant with a colon in its name and a description that looks like lines. -/
def sampleOutline : Outline :=
  { description := "Readers (and writers) of files"
    imports := [⟨"node:fs", ["default"], []⟩]
    functions := [⟨"load", "file,...rest", 3, 5, "load(file) 3-5"⟩]
    classes := [⟨"Store", 7, 20, some "Base", "",
      [⟨"get", "", 8, false, .method, ""⟩, ⟨"size", "", 9, true, .getter, "How many"⟩,
        ⟨"[computed]", "a,b?", 12, false, .method, ""⟩]⟩]
    constants := [⟨"ns:limit", 1, "5-6"⟩]
    exports := [⟨"default", .default, some "load", 3⟩]
    calls := ⟨[("load", ["Store.get"])]⟩ }

/-- Two files of one name, and one between them. -/
def sampleFiles : List FileOutline := [⟨"old/a.js", {}⟩, ⟨"b.js", {}⟩, ⟨"./a.js", sampleOutline⟩]

end CodeAtlas.Index
