import CodeAtlas.Proofs.Index.Lines
/-
  Every line of an index stays a line.

  What an index shows of a file are texts and numbers. Numbers and the signs
  between the parts hold no line break, so if no text does, the lines that were
  written are the lines that are found (`linesOf_render`). Nothing else is asked
  of the texts: they may hold blanks and brackets and look like other lines.
-/

namespace CodeAtlas

/-! ## The texts of an outline -/

/-- The texts of a method. -/
def MethodEntry.texts (m : MethodEntry) : List String := [m.name, m.params, m.description]

/-- The texts of a class and its methods. -/
def ClassEntry.texts (c : ClassEntry) : List String :=
  c.name :: c.description :: (c.baseClass.toList ++ c.methods.flatMap MethodEntry.texts)

/-- The texts of a function. -/
def FunctionEntry.texts (f : FunctionEntry) : List String := [f.name, f.params, f.description]

/-- The texts of a constant. -/
def ConstantEntry.texts (k : ConstantEntry) : List String := [k.name, k.description]

/-- The texts of an import, as an index shows it. -/
def ImportEntry.texts (i : ImportEntry) : List String := i.module :: i.members

/-- The texts of an export. -/
def ExportEntry.texts (e : ExportEntry) : List String := e.name :: e.localName.toList

/-- All texts of an outline that an index can show. -/
def Outline.texts (o : Outline) : List String :=
  o.description :: (o.imports.flatMap ImportEntry.texts ++ o.classes.flatMap ClassEntry.texts
    ++ o.functions.flatMap FunctionEntry.texts ++ o.constants.flatMap ConstantEntry.texts
    ++ o.exports.flatMap ExportEntry.texts ++ o.calls.entries.flatMap Prod.snd)

end CodeAtlas

namespace CodeAtlas.Index

open CodeAtlas.Text

/-- No text of the outline holds a line break. -/
def Unbroken (o : Outline) : Prop := ∀ s ∈ o.texts, OneLine s

instance (o : Outline) : Decidable (Unbroken o) := List.decidableBAll OneLine o.texts

/-- The name of a file without its folders. -/
def baseName (f : FileOutline) : String := (Path.ofString f.path).name

theorem unbroken_iff {o : Outline} : Unbroken o ↔ OneLine o.description ∧
    (∀ i ∈ o.imports, ∀ s ∈ i.texts, OneLine s) ∧ (∀ c ∈ o.classes, ∀ s ∈ c.texts, OneLine s) ∧
    (∀ f ∈ o.functions, ∀ s ∈ f.texts, OneLine s) ∧
    (∀ k ∈ o.constants, ∀ s ∈ k.texts, OneLine s) ∧
    (∀ e ∈ o.exports, ∀ s ∈ e.texts, OneLine s) ∧
    ∀ e ∈ o.calls.entries, ∀ s ∈ e.2, OneLine s := by
  simp only [Unbroken, Outline.texts, List.forall_mem_cons, List.forall_mem_append,
    List.forall_mem_flatMap, and_assoc]

/-- What can be written entry by entry holds no line break. -/
theorem OutlineFits.unbroken {o : Outline} (h : OutlineFits o) : Unbroken o := by
  refine unbroken_iff.mpr ⟨h.description, ?_, ?_, ?_, ?_, ?_, h.calls⟩
  · intro i hi
    exact List.forall_mem_cons.mpr (h.imports i hi)
  · intro c hc
    have hfits := h.classes c hc
    simp only [ClassEntry.texts, List.forall_mem_cons, List.forall_mem_append,
      List.forall_mem_flatMap, Option.mem_toList]
    refine ⟨hfits.name.solid.oneLine, hfits.description, ?_, ?_⟩
    · intro s hs
      exact (hfits.baseClass s hs).1.oneLine
    · intro m hm
      have hmethod := hfits.methods m hm
      simpa [MethodEntry.texts] using
        ⟨hmethod.name, hmethod.params.oneLine, hmethod.description⟩
  · intro f hf
    have hfits := h.functions f hf
    simpa [FunctionEntry.texts] using
      ⟨hfits.name.solid.oneLine, hfits.params.oneLine, hfits.description⟩
  · intro k hk
    have hfits := h.constants k hk
    simpa [ConstantEntry.texts] using ⟨hfits.name.solid.oneLine, hfits.description⟩
  · intro e he
    simpa [ExportEntry.texts] using h.exports e he

/-! ## The texts of the lines -/

theorem oneLine_toString (n : Int) : OneLine (toString n) := by
  by_cases hn : 0 ≤ n
  · exact (solid_toString hn).oneLine
  · obtain ⟨m, rfl⟩ := Int.eq_negSucc_of_lt_zero (Int.not_le.mp hn)
    have hdigits : OneLine (toString (m + 1 : Int)) := (solid_toString (by omega)).oneLine
    have hsign : toString (Int.negSucc m) = "-" ++ toString (m + 1 : Int) := rfl
    rw [hsign, oneLine_append]
    exact ⟨by decide, hdigits⟩

theorem oneLine_rangeText (a b : Int) : OneLine (rangeText a b) := by
  rw [rangeText, oneLine_append, oneLine_append]
  exact ⟨⟨oneLine_toString a, by decide⟩, oneLine_toString b⟩

theorem oneLine_importText {i : ImportEntry} (h : ∀ s ∈ i.texts, OneLine s) :
    OneLine (importText i) := by
  obtain ⟨hmodule, hmembers⟩ := List.forall_mem_cons.mp h
  simp only [importText, oneLine_append]
  exact ⟨⟨⟨by decide, hmodule⟩, by decide⟩, oneLine_intercalate (by decide) hmembers⟩

theorem oneLine_functionText {f : FunctionEntry} (h : ∀ s ∈ f.texts, OneLine s) :
    OneLine (functionText f) := by
  simp only [FunctionEntry.texts, List.forall_mem_cons] at h
  obtain ⟨hname, hparams, hdescription, -⟩ := h
  rw [functionText, describe_eq]
  simp only [oneLine_append]
  exact ⟨⟨⟨⟨⟨hname, by decide⟩, hparams⟩, by decide⟩, oneLine_rangeText _ _⟩,
    oneLine_descriptionTail hdescription⟩

theorem oneLine_methodText {m : MethodEntry} (h : ∀ s ∈ m.texts, OneLine s) :
    OneLine (methodText m) := by
  simp only [MethodEntry.texts, List.forall_mem_cons] at h
  obtain ⟨hname, hparams, hdescription, -⟩ := h
  have hmark : OneLine (methodMark m) := by unfold methodMark; split <;> decide
  have haccessor : OneLine m.kind.accessor := by cases m.kind <;> decide
  rw [methodText, describe_eq]
  simp only [oneLine_append]
  exact ⟨⟨⟨⟨⟨⟨⟨hmark, haccessor⟩, hname⟩, by decide⟩, hparams⟩, by decide⟩, oneLine_toString _⟩,
    oneLine_descriptionTail hdescription⟩

theorem oneLine_classText {c : ClassEntry} (h : ∀ s ∈ c.texts, OneLine s) :
    OneLine (classText c) := by
  simp only [ClassEntry.texts, List.forall_mem_cons, List.forall_mem_append,
    Option.mem_toList] at h
  obtain ⟨hname, hdescription, hbase, -⟩ := h
  have hheading : OneLine (classHeading c) := by
    unfold classHeading
    split
    · next base hc =>
      split
      · exact hname
      · rw [oneLine_append, oneLine_append]
        exact ⟨⟨hname, by decide⟩, hbase base hc⟩
    · exact hname
  rw [classText, describe_eq]
  simp only [oneLine_append]
  exact ⟨⟨⟨hheading, by decide⟩, oneLine_rangeText _ _⟩, oneLine_descriptionTail hdescription⟩

theorem oneLine_constantText {k : ConstantEntry} (h : ∀ s ∈ k.texts, OneLine s) :
    OneLine (constantText k) := by
  simp only [ConstantEntry.texts, List.forall_mem_cons] at h
  obtain ⟨hname, hdescription, -⟩ := h
  rw [constantText, describe_eq]
  simp only [oneLine_append]
  exact ⟨⟨⟨hname, by decide⟩, oneLine_toString _⟩, oneLine_descriptionTail hdescription⟩

theorem oneLine_exportText {e : ExportEntry} (h : ∀ s ∈ e.texts, OneLine s) :
    OneLine (exportText e) := by
  obtain ⟨hname, hlocal⟩ := List.forall_mem_cons.mp h
  unfold exportText
  split
  · split
    · next l hl =>
      split
      · decide
      · exact oneLine_append.mpr ⟨by decide, hlocal l (by simp [hl])⟩
    · decide
  · exact oneLine_append.mpr ⟨by decide, hname⟩
  · exact hname

theorem oneLine_calleesText {o : Outline} (h : ∀ e ∈ o.calls.entries, ∀ s ∈ e.2, OneLine s)
    (callers : List String) : OneLine (calleesText o callers) := by
  unfold calleesText
  split
  · next callees hc =>
    obtain ⟨caller, -, rfl⟩ := List.mem_map.mp (List.mem_of_find?_eq_some hc)
    have hcallees : ∀ callee ∈ o.calleesOf caller, OneLine callee := by
      intro callee hm
      unfold Outline.calleesOf at hm
      cases hg : o.calls.get? caller with
      | none => rw [hg] at hm; simp at hm
      | some v =>
        rw [hg, Option.getD_some] at hm
        exact h _ (Table.mem_entries_of_get? hg) callee hm
    rw [oneLine_append, oneLine_append]
    exact ⟨⟨by decide, by decide⟩, oneLine_intercalate (by decide) hcallees⟩
  · decide

/-! ## The lines -/

/-- A text that is one line of an index: it holds no break and is not empty. -/
def IsLine (l : String) : Prop := OneLine l ∧ l ≠ ""

/-- The lines of some texts. -/
def linesRead (ls : List String) : List Line := ls.map fun l => Line.read l.toList

/-- The lines of a block below the line of the file are indented. -/
theorem exists_indented {o : Outline} (h : Unbroken o) :
    ∀ l ∈ bodyLines o, ∃ s, l = "  " ++ s ∧ OneLine s := by
  obtain ⟨-, himports, hclasses, hfunctions, hconstants, hexports, hcalls⟩ := unbroken_iff.mp h
  intro l hl
  simp only [bodyLines, List.mem_append, List.mem_map, List.mem_flatMap] at hl
  rcases hl with (((⟨i, hi, rfl⟩ | ⟨c, hc, hl⟩) | ⟨f, hf, rfl⟩) | ⟨k, hk, rfl⟩) | hl
  · exact ⟨_, rfl, oneLine_importText (himports i hi)⟩
  · rcases List.mem_cons.mp hl with rfl | hl
    · exact ⟨_, rfl, oneLine_classText (hclasses c hc)⟩
    · obtain ⟨m, hm, rfl⟩ := List.mem_map.mp hl
      have htexts : ∀ s ∈ m.texts, OneLine s := by
        intro s hs
        apply hclasses c hc s
        simp only [ClassEntry.texts, List.mem_cons, List.mem_append, List.mem_flatMap]
        exact Or.inr (Or.inr (Or.inr ⟨m, hm, hs⟩))
      refine ⟨"  " ++ methodText m ++ calleesText o [c.qualify m, m.name], ?_, ?_⟩
      · rw [← String.append_assoc, ← String.append_assoc]
        rfl
      · rw [oneLine_append, oneLine_append]
        exact ⟨⟨by decide, oneLine_methodText htexts⟩, oneLine_calleesText hcalls _⟩
  · refine ⟨_, String.append_assoc, ?_⟩
    rw [oneLine_append]
    exact ⟨oneLine_functionText (hfunctions f hf), oneLine_calleesText hcalls _⟩
  · exact ⟨_, rfl, oneLine_constantText (hconstants k hk)⟩
  · unfold exportLines at hl
    split at hl
    · cases hl
    · rw [List.mem_singleton.mp hl]
      refine ⟨">" ++ ",".intercalate (o.exports.map exportText), ?_, ?_⟩
      · rw [← String.append_assoc]
        rfl
      · rw [oneLine_append]
        refine ⟨by decide, oneLine_intercalate (by decide) ?_⟩
        intro s hs
        obtain ⟨e, he, rfl⟩ := List.mem_map.mp hs
        exact oneLine_exportText (hexports e he)

/-- Something is written on every line, and no line holds a break. -/
theorem isLine_indexLines {dir : String} {fs : List FileOutline}
    (hdir : OneLine (Path.ofString dir).name)
    (h : ∀ f ∈ fs, OneLine (baseName f) ∧ Unbroken f.outline) :
    ∀ l ∈ indexLines dir fs, IsLine l := by
  have happend : ∀ {s t : String}, IsLine s → OneLine t → IsLine (s ++ t) := by
    intro s t hs ht
    refine ⟨oneLine_append.mpr ⟨hs.1, ht⟩, ?_⟩
    intro he
    have hnil := congrArg String.toList he
    simp [hs.2] at hnil
  intro l hl
  simp only [indexLines, List.cons_append, List.mem_cons, List.mem_append, List.mem_flatMap,
    List.not_mem_nil, or_false] at hl
  rcases hl with rfl | ⟨f, hf, hl⟩ | rfl
  · have hmarker : IsLine (marker ++ " ") := ⟨by decide, by decide⟩
    exact happend (happend hmarker hdir) (by decide)
  · obtain ⟨hname, houtline⟩ := h f hf
    rcases List.mem_cons.mp hl with rfl | hl
    · have hhash : IsLine "#" := ⟨by decide, by decide⟩
      have hdescription := (unbroken_iff.mp houtline).1
      rw [fileLine, describe_eq]
      exact happend (happend hhash hname) (oneLine_descriptionTail (hdescription.first _))
    · obtain ⟨s, rfl, hs⟩ := exists_indented houtline l hl
      exact happend ⟨by decide, by decide⟩ hs
  · exact ⟨by decide, by decide⟩

/-- The lines of an index are those that were written. -/
theorem linesOf_render {dir : String} {fs : List FileOutline}
    (hdir : OneLine (Path.ofString dir).name)
    (h : ∀ f ∈ fs, OneLine (baseName f) ∧ Unbroken f.outline) :
    linesOf (render dir fs) = linesRead (indexLines dir fs) := by
  have hline := isLine_indexLines hdir h
  rw [linesOf, render, lines_join (fun l hl => (hline l hl).1) (fun l hl => (hline l hl).2),
    List.map_map]
  rfl

end CodeAtlas.Index
