import CodeAtlas.Proofs.Index.Reader
import CodeAtlas.Proofs.Index.Unbroken
/-
  The names under which the files of an index are read back.

  The line of a file ends its name at the first blank, because a description may
  follow. So a file is found again under the first word of its name
  (`leadingWord`), and files whose names begin with the same word replace one
  another. Nothing else decides it: as long as no text holds a line break, the
  lines of a block are indented, and no indented line is taken for that of a file.

  `namesExact_render` says this of every index, `blank_in_name_replaces_file` that
  files of different names do get lost.
-/

namespace CodeAtlas.Index

open CodeAtlas.Text

/-- A name up to its first blank. -/
def leadingWord (name : String) : String := String.ofList (name.toList.takeWhile (· ≠ ' '))

theorem blank_notMem_leadingWord (name : String) : ' ' ∉ (leadingWord name).toList := by
  intro h
  rw [leadingWord, String.toList_ofList] at h
  have := List.all_eq_true.mp List.all_takeWhile ' ' h
  simp at this

theorem leadingWord_eq_self {name : String} (h : ' ' ∉ name.toList) : leadingWord name = name := by
  have hin : ∀ c ∈ name.toList, decide (c ≠ ' ') = true := by
    intro c hc
    have hne : c ≠ ' ' := fun e => h (e ▸ hc)
    simpa using hne
  have hstop : Stops (fun c => decide (c ≠ ' ')) [] := fun c hc => by cases hc
  have hall := takeWhile_run hin hstop
  rw [List.append_nil] at hall
  rw [leadingWord, hall, String.ofList_toList]

/-! ## Lines of files and other lines -/

/-- The line of a file names it by the first word of its name. -/
theorem fileName?_fileLine (name : String) (o : Outline) :
    (Line.read (fileLine name o).toList).fileName? = some (leadingWord name) := by
  generalize hd : Text.first descriptionWidth o.description = d
  have hline : (fileLine name o).toList = '#' :: (name.toList ++ (descriptionTail d).toList) := by
    simp [fileLine, describe_eq, hd]
  have hstops : Stops (· ≠ ' ') (descriptionTail d).toList := by
    intro c hc
    have hends := endsEntry_descriptionTail d
    cases htail : (descriptionTail d).toList with
    | nil => rw [htail] at hc; cases hc
    | cons first rest =>
      rw [htail] at hc hends
      obtain rfl : first = c := by simpa using hc
      simpa [Line.endsEntry] using hends
  rw [hline, read_hash, cutAt, takeWhile_append_of_stops hstops]
  rfl

/-- An indented line names no file. -/
theorem fileName?_indented (s : String) : (Line.read ("  " ++ s).toList).fileName? = none := by
  rcases Line.read_cases ("  " ++ s).toList with hmarker | ⟨rest, hhash⟩ | ⟨hnone, -⟩
  · rw [hmarker]
    rfl
  · have hfirst := congrArg List.head? hhash
    simp at hfirst
  · exact hnone

theorem filterMap_block {f : FileOutline} (h : Unbroken f.outline) :
    (linesRead (block (baseName f) f.outline)).filterMap Line.fileName?
      = [leadingWord (baseName f)] := by
  have hbody : (linesRead (bodyLines f.outline)).filterMap Line.fileName? = [] := by
    rw [List.filterMap_eq_nil_iff]
    intro l hl
    obtain ⟨text, htext, rfl⟩ := List.mem_map.mp hl
    obtain ⟨s, rfl, -⟩ := exists_indented h text htext
    exact fileName?_indented s
  rw [block, linesRead, List.map_cons, List.filterMap_cons, fileName?_fileLine]
  rw [linesRead] at hbody
  rw [hbody]

/-- The lines of an index name its files, in order. -/
theorem filterMap_indexLines (dir : String) {files : List FileOutline}
    (h : ∀ f ∈ files, Unbroken f.outline) :
    (linesRead (indexLines dir files)).filterMap Line.fileName?
      = files.map fun f => leadingWord (baseName f) := by
  have hblocks : (linesRead (files.flatMap fun f => block (baseName f) f.outline)).filterMap
      Line.fileName? = files.map fun f => leadingWord (baseName f) := by
    induction files with
    | nil => rfl
    | cons f files ih =>
      have hrest := ih fun g hg => h g (List.mem_cons_of_mem f hg)
      have hfirst := filterMap_block (h f (by simp))
      rw [linesRead] at hrest hfirst ⊢
      rw [List.flatMap_cons, List.map_append, List.filterMap_append, hrest, hfirst]
      rfl
  rw [linesRead] at hblocks
  rw [indexLines, linesRead, List.map_append, List.map_cons, List.filterMap_append,
    List.filterMap_cons, List.map_singleton, read_openingLine, read_closingLine]
  exact (List.append_nil _).trans hblocks

/-! ## The whole index -/

/-- What becomes of the names of some files in an index of them. -/
structure NamesExact (dir : String) (files : List FileOutline) : Prop where
  /-- Each file is found under the first word of its name. -/
  keys : (read (render dir files)).keys = distinct (files.map fun f => leadingWord (baseName f))
  /-- The files are found under their names exactly when these differ and hold no
  blank. -/
  kept_iff : (read (render dir files)).keys = files.map baseName ↔
    (files.map baseName).Nodup ∧ ∀ f ∈ files, ' ' ∉ (baseName f).toList
  /-- No file replaces another exactly when the first words differ. -/
  apart_iff : (read (render dir files)).keys.length = files.length ↔
    (files.map fun f => leadingWord (baseName f)).Nodup
  /-- The bounded reading gives all of this unless a run of digits is too long for it. -/
  bounded : ShortRuns (render dir files) →
    read? (render dir files) = some (read (render dir files))

/-- In an index of files without line breaks in their texts, each file is found under the
first word of its name. -/
theorem namesExact_render (dir : String) (files : List FileOutline)
    (hdir : OneLine (Path.ofString dir).name)
    (h : ∀ f ∈ files, OneLine (baseName f) ∧ Unbroken f.outline) : NamesExact dir files := by
  have hkeys : (read (render dir files)).keys
      = distinct (files.map fun f => leadingWord (baseName f)) := by
    rw [keys_read, linesOf_render hdir h, filterMap_indexLines dir fun f hf => (h f hf).2]
  refine ⟨hkeys, ?_, ?_, fun hshort => read?_eq_some_of_shortRuns hshort⟩
  · constructor
    · intro hkept
      rw [hkeys] at hkept
      have hnodup : (files.map baseName).Nodup := by
        rw [← hkept]
        exact nodup_distinct _
      refine ⟨hnodup, fun f hf => ?_⟩
      -- the name is one of the keys, and those are first words
      have hmem : baseName f ∈ distinct (files.map fun f => leadingWord (baseName f)) := by
        rw [hkept]
        exact List.mem_map_of_mem hf
      obtain ⟨g, -, hg⟩ := List.mem_map.mp (mem_distinct.mp hmem)
      rw [← hg]
      exact blank_notMem_leadingWord _
    · rintro ⟨hnodup, hblank⟩
      have hwords : (files.map fun f => leadingWord (baseName f)) = files.map baseName :=
        List.map_congr_left fun f hf => leadingWord_eq_self (hblank f hf)
      rw [hkeys, hwords, distinct_of_nodup hnodup]
  · rw [hkeys, ← length_distinct_eq_iff, List.length_map]

/-- Two files with names that hold a tab or a hash, and texts that look like other
lines. -/
def oddlyNamed : List FileOutline :=
  [⟨"lib/#a\tb.js", { constants := [⟨"f(x) 1-2", -1, "#c.js"⟩] }⟩,
    ⟨"a.js", { imports := [⟨"@FNMAP", ["#d.js"], []⟩] }⟩]

theorem namesExact_render_oddlyNamed :
    (∀ f ∈ oddlyNamed, OneLine (baseName f) ∧ Unbroken f.outline) ∧
      (read (render "src" oddlyNamed)).keys = ["#a\tb.js", "a.js"] ∧
      read? (render "src" oddlyNamed) = some (read (render "src" oddlyNamed)) := by
  have hdir : OneLine (Path.ofString "src").name := by decide +kernel
  have hfiles : ∀ f ∈ oddlyNamed, OneLine (baseName f) ∧ Unbroken f.outline := by decide +kernel
  have hnames : oddlyNamed.map baseName = ["#a\tb.js", "a.js"] := by decide +kernel
  have hblank : ∀ f ∈ oddlyNamed, ' ' ∉ (baseName f).toList := by decide +kernel
  have hlength : (render "src" oddlyNamed).length ≤ widthLimit := by decide +kernel
  have hexact := namesExact_render "src" oddlyNamed hdir hfiles
  have hbounded := hexact.bounded (shortRuns_of_length hlength)
  refine ⟨hfiles, ?_, hbounded⟩
  rw [← hnames]
  exact hexact.kept_iff.mpr ⟨by rw [hnames]; decide, hblank⟩

/-- Two files whose names differ behind a blank. -/
def spacedFiles : List FileOutline := [⟨"a b.js", {}⟩, ⟨"a c.js", {}⟩]

/-- Files of different names replace one another in the index: the second is found
under a name that neither has, with the rest of its own for a description. -/
theorem blank_in_name_replaces_file :
    (spacedFiles.map baseName).Nodup ∧ (∀ f ∈ spacedFiles, baseName f ≠ "") ∧
      (∀ f ∈ spacedFiles, OneLine (baseName f) ∧ Unbroken f.outline) ∧
      read? (render "d" spacedFiles) = some ⟨[("a", ⟨"a", "c.js", [], []⟩)]⟩ := by
  decide +kernel

end CodeAtlas.Index
