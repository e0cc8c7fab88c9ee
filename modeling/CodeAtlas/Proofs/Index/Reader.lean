import CodeAtlas.Proofs.Index.Lines
/-
  Reading any text as an index.

  Nothing is asked of the text here: it may be cut off, put together from
  pieces or no index at all. The reader goes from line to line with the file and
  the class that are open, and three things are true of it in any case:
    1. `keys_read`: the keys of what is read are the names on the lines of files,
       each once, in the order of their first places. What carries this is that
       the file that is open has an entry (`Reader.Sound`).
    2. `read?_eq_some_of_shortRuns`: a text without a run of digits that is too
       long is read to its end.
    3. `read_joined`: two texts one after the other are read as the one and then
       the other, if the second begins like an index. The class that the first
       leaves open outlives it, and so may its file, but no line gets to see
       them: `Over` is what the two runs over the second text have in common.
-/

namespace CodeAtlas.Index

open CodeAtlas.Text

/-! ## The reader in any state -/

/-- The name on the line of a file. -/
def Line.fileName? : Line → Option String
  | .file name _ => some name
  | _ => none

namespace Reader

/-- Every name has one entry, and the file that is open has one. -/
structure Sound (r : Reader) : Prop where
  nodup : r.files.keys.Nodup
  listed : ∀ name, r.openFile = some name → name ∈ r.files.keys

theorem sound_empty : Sound {} where
  nodup := List.nodup_nil
  listed := fun name h => by cases h

variable {r s : Reader}

/-- A change of the open file leaves the names as they are. -/
theorem keys_updateFile (h : r.Sound) (f : IndexedBlock → IndexedBlock) :
    (r.updateFile f).files.keys = r.files.keys := by
  unfold updateFile
  split
  · rfl
  · next name hopen =>
    rw [Table.keys_alter]
    exact if_pos (h.listed name hopen)

@[simp] theorem openFile_updateFile (r : Reader) (f : IndexedBlock → IndexedBlock) :
    (r.updateFile f).openFile = r.openFile := by
  unfold updateFile
  split <;> simp_all

@[simp] theorem openClass_updateFile (r : Reader) (f : IndexedBlock → IndexedBlock) :
    (r.updateFile f).openClass = r.openClass := by
  unfold updateFile
  split <;> rfl

theorem Sound.updateFile (h : r.Sound) (f : IndexedBlock → IndexedBlock) :
    (r.updateFile f).Sound where
  nodup := by rw [keys_updateFile h]; exact h.nodup
  listed := by rw [keys_updateFile h, openFile_updateFile]; exact h.listed

theorem Sound.withClass (h : r.Sound) (c : Option String) : Sound { r with openClass := c } :=
  ⟨h.nodup, h.listed⟩

/-- Outside a file a line inside a block says nothing. -/
theorem step_of_closed {l : Line} (h : r.openFile = none) (hl : l.fileName? = none) :
    r.step l = r := by
  obtain ⟨files, openFile, openClass⟩ := r
  obtain rfl : openFile = none := h
  cases l with
  | file name description => cases hl
  | _ => rfl

theorem step_other (r : Reader) : r.step .other = r := by
  obtain ⟨files, openFile, openClass⟩ := r
  cases openFile <;> rfl

/-- What a line inside a block can do: close the file, open or close a class, or
change what is known of the file as well. -/
inductive Action where
  | close
  | setClass (c : Option String)
  | change (c : Option String) (f : IndexedBlock → IndexedBlock)

/-- The reader after an action. -/
def Action.apply : Action → Reader → Reader
  | close, r => { r with openFile := none }
  | setClass c, r => { r with openClass := c }
  | change c f, r => ({ r with openClass := c } : Reader).updateFile f

/-- Inside a file the action of a line depends on the line and the open class
alone. -/
theorem exists_action {l : Line} (hl : l.fileName? = none) (c : Option String) :
    ∃ a : Action, ∀ r : Reader, r.openFile ≠ none → r.openClass = c → r.step l = a.apply r := by
  have hstep : ∀ a : Action, (∀ files name, step ⟨files, some name, c⟩ l
      = a.apply ⟨files, some name, c⟩) →
        ∃ a : Action, ∀ r : Reader, r.openFile ≠ none → r.openClass = c → r.step l = a.apply r := by
    intro a ha
    refine ⟨a, ?_⟩
    rintro ⟨files, _ | name, openClass⟩ hopen rfl
    · exact absurd rfl hopen
    · exact ha files name
  cases l with
  | marker => exact hstep .close fun _ _ => rfl
  | file name description => cases hl
  | method m params n =>
    cases c with
    | none => exact hstep (.setClass none) fun _ _ => rfl
    | some c => exact hstep (.change (some c) _) fun _ _ => rfl
  | function m params first last => exact hstep (.change none _) fun _ _ => rfl
  | classHead c => exact hstep (.setClass (some c)) fun _ _ => rfl
  | entry => exact hstep (.setClass none) fun _ _ => rfl
  | other => exact hstep (.setClass c) fun _ _ => rfl

theorem Sound.apply (h : r.Sound) (a : Action) : (a.apply r).Sound := by
  cases a with
  | close => exact ⟨h.nodup, fun name hname => by cases hname⟩
  | setClass c => exact h.withClass c
  | change c f => exact (h.withClass c).updateFile f

theorem keys_apply (h : r.Sound) (a : Action) : (a.apply r).files.keys = r.files.keys := by
  cases a with
  | change c f => exact keys_updateFile (h.withClass c) f
  | _ => rfl

/-- One line adds its name, if it is the line of a file, and nothing else. -/
theorem Sound.step (h : r.Sound) (l : Line) :
    (r.step l).Sound ∧ (r.step l).files.keys = l.fileName?.toList.foldl insertNew r.files.keys := by
  cases hname : l.fileName? with
  | some name =>
    cases l with
    | file other description =>
      obtain rfl : other = name := Option.some.inj hname
      have hkeys : (r.step (.file other description)).files.keys = insertNew r.files.keys other :=
        Table.keys_alter _ _ _
      refine ⟨⟨?_, ?_⟩, hkeys⟩
      · rw [hkeys]
        exact nodup_insertNew h.nodup other
      · rintro name ⟨⟩
        rw [hkeys]
        exact mem_insertNew.mpr (Or.inr rfl)
    | _ => cases hname
  | none =>
    by_cases hopen : r.openFile = none
    · rw [step_of_closed hopen hname]
      exact ⟨h, rfl⟩
    · obtain ⟨a, ha⟩ := exists_action hname r.openClass
      rw [ha r hopen rfl]
      exact ⟨h.apply a, keys_apply h a⟩

/-- After any lines every name has one entry, and the names are those on the lines of
files. -/
theorem Sound.foldl (h : r.Sound) (ls : List Line) :
    (ls.foldl Reader.step r).Sound ∧ (ls.foldl Reader.step r).files.keys
      = (ls.filterMap Line.fileName?).foldl insertNew r.files.keys := by
  induction ls generalizing r with
  | nil => exact ⟨h, rfl⟩
  | cons l ls ih =>
    obtain ⟨hstep, hkeys⟩ := h.step l
    obtain ⟨hsound, hrest⟩ := ih hstep
    refine ⟨hsound, ?_⟩
    rw [List.foldl_cons, hrest, hkeys, ← List.foldl_append]
    cases hname : l.fileName? <;> simp [hname]

end Reader

/-- The keys of what is read are the names on the lines of files, each once. -/
theorem keys_read (text : String) :
    (read text).keys = distinct ((linesOf text).filterMap Line.fileName?) :=
  (Reader.sound_empty.foldl (linesOf text)).2

theorem nodup_keys_read (text : String) : (read text).keys.Nodup := by
  rw [keys_read]
  exact nodup_distinct _

/-! ## Numbers in a text -/

/-- The numeral is written somewhere in the text. -/
def StandsIn (n : Numeral) (cs : List Char) : Prop :=
  ∃ run, run <:+: cs ∧ (∀ c ∈ run, isDigit c = true) ∧ n.width = run.length

theorem StandsIn.within {n : Numeral} {cs ds : List Char} (h : StandsIn n cs)
    (hcs : cs <:+: ds) : StandsIn n ds := by
  obtain ⟨run, hrun, hdigits, hwidth⟩ := h
  exact ⟨run, hrun.trans hcs, hdigits, hwidth⟩

theorem suffix_of_dropPrefix? {word cs rest : List Char} (h : dropPrefix? word cs = some rest) :
    rest <:+ cs := ⟨word, (dropPrefix?_eq_some h).symm⟩

theorem standsIn_of_numeral? {cs rest : List Char} {n : Numeral}
    (h : numeral? cs = some (n, rest)) : StandsIn n cs ∧ rest <:+ cs := by
  unfold numeral? at h
  split at h
  · cases h
  · cases h
    refine ⟨⟨cs.takeWhile isDigit, (List.takeWhile_prefix _).isInfix, ?_, rfl⟩,
      List.dropWhile_suffix _⟩
    intro c hc
    exact List.all_eq_true.mp List.all_takeWhile c hc

theorem standsIn_of_readRange? {cs : List Char} {a b : Numeral}
    (h : Line.readRange? cs = some (a, b)) : StandsIn a cs ∧ StandsIn b cs := by
  simp only [Line.readRange?, Option.bind_eq_bind, Option.bind_eq_some_iff, Prod.exists] at h
  obtain ⟨n, rest, hfirst, dash, hdash, m, rest', hlast, -, -, hpair⟩ := h
  cases hpair
  obtain ⟨ha, hrest⟩ := standsIn_of_numeral? hfirst
  have hsuffix := (suffix_of_dropPrefix? hdash).trans hrest
  exact ⟨ha, (standsIn_of_numeral? hlast).1.within hsuffix.isInfix⟩

theorem suffix_of_readParams? {cs rest : List Char} {params : String}
    (h : Line.readParams? cs = some (params, rest)) : rest <:+ cs := by
  simp only [Line.readParams?, Option.bind_eq_bind, Option.bind_eq_some_iff] at h
  obtain ⟨after, hafter, hpair⟩ := h
  cases hpair
  exact (suffix_of_dropPrefix? hafter).trans (List.dropWhile_suffix _)

theorem exists_of_readMethod? {cs : List Char} {l : Line} (h : Line.readMethod? cs = some l) :
    ∃ name params n, l = .method name params n ∧ StandsIn n cs := by
  simp only [Line.readMethod?, Option.bind_eq_bind, Option.bind_eq_some_iff, Prod.exists] at h
  obtain ⟨indented, hindented, marked, hmarked, -, -, opened, hopened, params, rest, hparams, n,
    after, hnumber, -, -, hline⟩ := h
  cases hline
  have hmark : marked <:+ indented := by
    rcases Option.or_eq_some_iff.mp hmarked with hdot | ⟨-, hplus⟩
    · exact suffix_of_dropPrefix? hdot
    · exact suffix_of_dropPrefix? hplus
  have hopen : opened <:+ marked :=
    (suffix_of_dropPrefix? hopened).trans (List.dropWhile_suffix _)
  have hrest : rest <:+ cs :=
    (((suffix_of_readParams? hparams).trans hopen).trans hmark).trans
      (suffix_of_dropPrefix? hindented)
  exact ⟨_, _, _, rfl, (standsIn_of_numeral? hnumber).1.within hrest.isInfix⟩

theorem exists_of_readFunction? {cs : List Char} {l : Line}
    (h : Line.readFunction? cs = some l) :
    ∃ name params first last, l = .function name params first last ∧
      StandsIn first cs ∧ StandsIn last cs := by
  simp only [Line.readFunction?, Option.bind_eq_bind, Option.bind_eq_some_iff, Prod.exists] at h
  obtain ⟨indented, hindented, -, -, opened, hopened, params, rest, hparams, first, last, hrange,
    hline⟩ := h
  cases hline
  have hopen : opened <:+ indented :=
    (suffix_of_dropPrefix? hopened).trans (List.dropWhile_suffix _)
  have hrest : rest <:+ cs :=
    ((suffix_of_readParams? hparams).trans hopen).trans (suffix_of_dropPrefix? hindented)
  obtain ⟨hfirst, hlast⟩ := standsIn_of_readRange? hrange
  exact ⟨_, _, _, _, rfl, hfirst.within hrest.isInfix, hlast.within hrest.isInfix⟩

theorem exists_of_readClass? {cs : List Char} {l : Line} (h : Line.readClass? cs = some l) :
    ∃ name, l = .classHead name := by
  simp only [Line.readClass?, Option.bind_eq_bind, Option.bind_eq_some_iff] at h
  obtain ⟨_, _, _, _, _, _, _, _, _, _, hline⟩ := h
  cases hline
  exact ⟨_, rfl⟩

/-- The numbers on a line that are gathered. -/
def Line.numbers : Line → List Numeral
  | .method _ _ n => [n]
  | .function _ _ first last => [first, last]
  | _ => []

/-- What a line is read as: the line of a file or a marker by its first characters, and
else one that gathers only numbers that stand in it. -/
theorem Line.read_cases (cs : List Char) :
    Line.read cs = .marker ∨ (∃ rest, cs = '#' :: rest) ∨
      (Line.read cs).fileName? = none ∧ ∀ n ∈ (Line.read cs).numbers, StandsIn n cs := by
  unfold Line.read
  split
  · exact Or.inl rfl
  refine Or.inr ?_
  cases hfile : readFile? cs with
  | some l =>
    simp only [readFile?, Option.bind_eq_bind, Option.bind_eq_some_iff] at hfile
    obtain ⟨rest, hrest, -⟩ := hfile
    exact Or.inl ⟨rest, dropPrefix?_eq_some hrest⟩
  | none =>
    refine Or.inr ?_
    cases hmethod : readMethod? cs with
    | some l =>
      obtain ⟨name, params, n, rfl, hn⟩ := exists_of_readMethod? hmethod
      exact ⟨rfl, by simpa [numbers] using hn⟩
    | none =>
      cases hfunction : readFunction? cs with
      | some l =>
        obtain ⟨name, params, first, last, rfl, hfirst, hlast⟩ := exists_of_readFunction? hfunction
        exact ⟨rfl, by simpa [numbers] using ⟨hfirst, hlast⟩⟩
      | none =>
        cases hclass : readClass? cs with
        | some l =>
          obtain ⟨name, rfl⟩ := exists_of_readClass? hclass
          exact ⟨rfl, by simp [numbers]⟩
        | none =>
          simp only [Option.or_none, Option.getD_none, readRest]
          split <;> exact ⟨rfl, by simp [numbers]⟩

/-- Every run of digits in the text is short enough to be read as a number. -/
def ShortRuns (text : String) : Prop :=
  ∀ run, run <:+: text.toList → (∀ c ∈ run, isDigit c = true) → run.length ≤ widthLimit

theorem shortRuns_of_length {text : String} (h : text.length ≤ widthLimit) : ShortRuns text := by
  intro run hrun _
  exact Nat.le_trans hrun.length_le h

/-- A line asks for no number that is too long. -/
def IsShort (l : Line) : Prop := ∀ r : Reader, r.needsLongNumber l = false

theorem foldlM_step?_of_isShort {ls : List Line} (h : ∀ l ∈ ls, IsShort l) (r : Reader) :
    ls.foldlM Reader.step? r = some (ls.foldl Reader.step r) := by
  induction ls generalizing r with
  | nil => rfl
  | cons l ls ih =>
    have hstep : r.step? l = some (r.step l) := by
      rw [Reader.step?, if_neg (by simp [h l (by simp) r])]
    rw [List.foldlM_cons, List.foldl_cons, hstep]
    exact ih (fun k hk => h k (List.mem_cons_of_mem l hk)) _

/-- A line whose numbers are short asks for no number that is too long. -/
theorem isShort_of_numbers {l : Line} (h : ∀ n ∈ l.numbers, n.isTooLong = false) : IsShort l := by
  rintro ⟨files, openFile, openClass⟩
  cases l with
  | method name params n =>
    have hn := h n (by simp [Line.numbers])
    cases openFile <;> cases openClass <;> simp [Reader.needsLongNumber, hn]
  | function name params first last =>
    have hfirst := h first (by simp [Line.numbers])
    have hlast := h last (by simp [Line.numbers])
    cases openFile <;> simp [Reader.needsLongNumber, hfirst, hlast]
  | _ => rfl

theorem isShort_of_shortRuns {text : String} (h : ShortRuns text) :
    ∀ l ∈ linesOf text, IsShort l := by
  intro l hl
  obtain ⟨cs, hcs, rfl⟩ := List.mem_map.mp hl
  rcases Line.read_cases cs with hmarker | ⟨rest, rfl⟩ | ⟨-, hnumbers⟩
  · rw [hmarker]
    exact fun _ => rfl
  · rw [read_hash]
    exact fun _ => rfl
  · apply isShort_of_numbers
    intro n hn
    obtain ⟨run, hrun, hdigits, hwidth⟩ := hnumbers n hn
    have hshort := h run (hrun.trans ((infix_lines text.toList).1 cs hcs)) hdigits
    exact decide_eq_false (by rw [hwidth]; exact Nat.not_lt.mpr hshort)

/-- A text without a run of digits that is too long is read to its end. -/
theorem read?_eq_some_of_shortRuns {text : String} (h : ShortRuns text) :
    read? text = some (read text) := by
  rw [read?, foldlM_step?_of_isShort (isShort_of_shortRuns h)]
  rfl

/-! ## One index after another -/

/-- Two runs over the same lines: `r` had read `t` before, `s` had read nothing. They
have the same file open, and in a file the same class. -/
structure Over (t : Table String IndexedBlock) (r s : Reader) : Prop where
  nodup : t.keys.Nodup
  sound : s.Sound
  files : r.files = t.update s.files
  openFile : r.openFile = s.openFile
  openClass : s.openFile ≠ none → r.openClass = s.openClass

namespace Over

variable {t : Table String IndexedBlock} {r s : Reader}

theorem updateFile (h : Over t r s) (f : IndexedBlock → IndexedBlock) :
    Over t (r.updateFile f) (s.updateFile f) := by
  refine ⟨h.nodup, h.sound.updateFile f, ?_, by simp [h.openFile], by simpa using h.openClass⟩
  unfold Reader.updateFile
  rw [h.openFile]
  cases hopen : s.openFile with
  | none => exact h.files
  | some name =>
    show r.files.alter name _ = t.update (s.files.alter name _)
    rw [h.files, Table.update_alter h.nodup h.sound.nodup (Or.inl (h.sound.listed name hopen))]

theorem apply (h : Over t r s) (a : Reader.Action) :
    Over t (a.apply r) (a.apply s) := by
  have hset : ∀ c, Over t { r with openClass := c } { s with openClass := c } := fun c =>
    ⟨h.nodup, h.sound.withClass c, h.files, h.openFile, fun _ => rfl⟩
  cases a with
  | close => exact ⟨h.nodup, h.sound.apply .close, h.files, rfl, fun hopen => absurd rfl hopen⟩
  | setClass c => exact hset c
  | change c f => exact (hset c).updateFile f

theorem step (h : Over t r s) (l : Line) : Over t (r.step l) (s.step l) := by
  cases hname : l.fileName? with
  | some name =>
    cases l with
    | file name description =>
      refine ⟨h.nodup, (h.sound.step _).1, ?_, rfl, fun _ => rfl⟩
      show r.files.insert name _ = t.update (s.files.insert name _)
      rw [h.files, Table.insert, Table.insert,
        Table.update_alter h.nodup h.sound.nodup (Or.inr fun _ => rfl)]
    | _ => cases hname
  | none =>
    by_cases hopen : s.openFile = none
    · rw [Reader.step_of_closed hopen hname, Reader.step_of_closed (h.openFile.trans hopen) hname]
      exact h
    · obtain ⟨a, ha⟩ := Reader.exists_action hname s.openClass
      rw [ha s hopen rfl, ha r (h.openFile ▸ hopen) (h.openClass hopen)]
      exact h.apply a

theorem needsLongNumber (h : Over t r s) (l : Line) :
    r.needsLongNumber l = s.needsLongNumber l := by
  cases hopen : s.openFile with
  | none =>
    have hopen' := h.openFile.trans hopen
    cases l <;> simp [Reader.needsLongNumber, hopen, hopen']
  | some name =>
    have hopen' := h.openFile.trans hopen
    have hclass := h.openClass (by simp [hopen])
    cases l <;> simp [Reader.needsLongNumber, hopen, hopen', hclass]

theorem foldl (h : Over t r s) (ls : List Line) :
    Over t (ls.foldl Reader.step r) (ls.foldl Reader.step s) := by
  induction ls generalizing r s with
  | nil => exact h
  | cons l ls ih => exact ih (h.step l)

/-- The bounded runs get stuck at the same line, or neither does. -/
theorem foldlM (h : Over t r s) (ls : List Line) :
    (ls.foldlM Reader.step? r).map Reader.files
      = (ls.foldlM Reader.step? s).map fun s => t.update s.files := by
  induction ls generalizing r s with
  | nil => exact congrArg some h.files
  | cons l ls ih =>
    rw [List.foldlM_cons, List.foldlM_cons, Reader.step?, Reader.step?, h.needsLongNumber l]
    split
    · rfl
    · exact ih (h.step l)

/-- Behind a marker, or the line of a file, nothing is left of what was open. -/
theorem first {l : Line} (hl : l = .marker ∨ ∃ name description, l = .file name description)
    (hr : r.files.keys.Nodup) : Over r.files (r.step l) (({} : Reader).step l) := by
  rcases hl with rfl | ⟨name, description, rfl⟩
  · exact ⟨hr, Reader.sound_empty, rfl, rfl, fun hopen => absurd rfl hopen⟩
  · exact ⟨hr, (Reader.sound_empty.step _).1, rfl, rfl, fun _ => rfl⟩

end Over

/-- A text that begins like an index has a marker or the line of a file for its first
line. -/
theorem exists_linesOf_cons {text : String}
    (h : startsWith marker text = true ∨ startsWith "#" text = true) :
    ∃ l ls, linesOf text = l :: ls ∧
      (l = .marker ∨ ∃ name description, l = .file name description) := by
  have hbegins : ∀ {word : String}, word ≠ "" → OneLine word → startsWith word text = true →
      ∃ l ls, linesOf text = Line.read (word ++ l).toList :: ls := by
    intro word hne hword hstart
    obtain ⟨rest, hrest⟩ := List.isPrefixOf_iff_prefix.mp hstart
    obtain ⟨l, ls, hlines⟩ := exists_lines_append (by simpa using hne) hword rest
    refine ⟨String.ofList l, ls.map Line.read, ?_⟩
    rw [linesOf, ← hrest, hlines]
    simp
  rcases h with h | h
  · obtain ⟨l, ls, hlines⟩ := hbegins (by decide) (by decide) h
    exact ⟨_, ls, hlines, Or.inl (read_marker l)⟩
  · obtain ⟨l, ls, hlines⟩ := hbegins (by decide) (by decide) h
    have hhash : ("#" ++ l).toList = '#' :: l.toList := by simp
    exact ⟨_, ls, hlines, Or.inr ⟨_, _, hhash ▸ read_hash l.toList⟩⟩

/-- The lines of two texts with a line feed between them are those of the one and then
of the other, but for lines that say nothing. -/
theorem exists_linesOf_joined (a b : String) :
    ∃ gap, (∀ l ∈ gap, l = Line.other) ∧
      linesOf (a ++ "\n" ++ b) = linesOf a ++ gap ++ linesOf b := by
  obtain ⟨gap, hgap, hlines⟩ := lines_append_newline_append a.toList b.toList
  refine ⟨gap.map Line.read, ?_, ?_⟩
  · intro l hl
    obtain ⟨cs, hcs, rfl⟩ := List.mem_map.mp hl
    rw [hgap cs hcs]
    rfl
  · have htext : (a ++ "\n" ++ b).toList = a.toList ++ '\n' :: b.toList := by simp
    rw [linesOf, htext, hlines, List.map_append, List.map_append]
    rfl

theorem foldl_step_other {gap : List Line} (h : ∀ l ∈ gap, l = Line.other) (r : Reader) :
    gap.foldl Reader.step r = r := by
  induction gap with
  | nil => rfl
  | cons l gap ih =>
    rw [List.foldl_cons, h l (by simp), Reader.step_other]
    exact ih fun k hk => h k (List.mem_cons_of_mem l hk)

theorem foldlM_step?_other {gap : List Line} (h : ∀ l ∈ gap, l = Line.other) (r : Reader) :
    gap.foldlM Reader.step? r = some r := by
  induction gap with
  | nil => rfl
  | cons l gap ih =>
    have hstep : r.step? .other = some r := congrArg some (Reader.step_other r)
    rw [List.foldlM_cons, h l (by simp), hstep]
    exact ih fun k hk => h k (List.mem_cons_of_mem l hk)

/-- Two texts with a line feed between them, of which the second begins like an index,
are read as the one and then the other: a file of both keeps its place from the first
and has what the second says of it. The bounded reading gives up on the whole exactly
when it gives up on one of the two. -/
theorem read_joined (a b : String)
    (h : startsWith marker b = true ∨ startsWith "#" b = true) :
    read (a ++ "\n" ++ b) = (read a).update (read b) ∧
      read? (a ++ "\n" ++ b) = (do
        let old ← read? a
        let new ← read? b
        return old.update new) := by
  obtain ⟨gap, hgap, hlines⟩ := exists_linesOf_joined a b
  obtain ⟨first, rest, hfirst, hkind⟩ := exists_linesOf_cons h
  refine ⟨?_, ?_⟩
  · have hover := (Over.first hkind (nodup_keys_read a)).foldl rest
    rw [read, read, read, hlines, List.foldl_append, List.foldl_append, foldl_step_other hgap,
      hfirst]
    exact hover.files
  · have hstep : ∀ r : Reader, r.step? first = some (r.step first) := by
      intro r
      rcases hkind with rfl | ⟨name, description, rfl⟩ <;> rfl
    rw [read?, read?, read?, hlines, List.foldlM_append, List.foldlM_append]
    cases hrun : (linesOf a).foldlM Reader.step? {} with
    | none => rfl
    | some r =>
      have hr : r.files.keys.Nodup := by
        rw [← Reader.foldl_step_of_foldlM hrun]
        exact (Reader.sound_empty.foldl (linesOf a)).1.nodup
      have hover := (Over.first hkind hr).foldlM rest
      simp only [Option.bind_eq_bind, Option.bind_some, foldlM_step?_other hgap, hfirst,
        List.foldlM_cons, hstep, hover, Option.map_some]
      cases rest.foldlM Reader.step? (({} : Reader).step first) <;> rfl

/-- An index that breaks off inside a class, at one half of a line break. -/
def brokenOff : String := "#a.js Before\n  A 1-9\n    .m() 2\n#c.js\n  B 3-4\r"

/-- An index with a line in front of its first file that looks like a method. -/
def resumed : String := "@FNMAP d/\n    .late() 4\n#a.js Again\n  f(x) 5-6\n#b.js"

theorem read_joined_resumed :
    startsWith marker resumed = true ∧
      (read (brokenOff ++ "\n" ++ resumed)).entries
        = [("a.js", ⟨"a.js", "Again", [⟨"f", "x", 5, 6⟩], []⟩), ("c.js", ⟨"c.js", "", [], []⟩),
            ("b.js", ⟨"b.js", "", [], []⟩)] := by
  have hstart : startsWith marker resumed = true := by decide +kernel
  refine ⟨hstart, ?_⟩
  rw [(read_joined brokenOff resumed (Or.inl hstart)).1]
  decide +kernel

end CodeAtlas.Index
