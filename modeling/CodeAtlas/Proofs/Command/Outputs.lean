import CodeAtlas.Command.Index
import CodeAtlas.Proofs.Disk.Tree
import CodeAtlas.Proofs.Report
/-
  What an index run writes, and what the disk holds afterwards.

  What is proved:
    1. `result_indexAll`: a run in which every file has an answer gives the disk
       after `outputs` are written. These are known from the list of files
       alone: the folders of the files to be indexed (`folders`), each with all
       of its files in order (`outlines`).
    2. `entry?_writeAll`: after files are written one after the other, a place
       holds the last one that was written there, and what it held before when
       none was.
    3. `allWritten_iff`: whether a file can be written does not depend on the
       files that were written before it.
-/

namespace CodeAtlas.Command

open CodeAtlas.Disk

/-! ## The files to be indexed -/

section

variable (d : Disk) (parse : Intake.Parser) (project : Path)

/-- Whether a file is analysed. -/
def isAnalysed (path : Path) : Bool :=
  match Intake.takeIn d parse path with
  | .ok (.ok _) => true
  | _ => false

/-- The outline with which a file is indexed: there is one when the file is
analysed and holds more than types. -/
def indexed? (path : Path) : Option FileOutline :=
  match Intake.takeIn d parse path with
  | .ok (.ok o) => if o.typesOnly then none else some ⟨seenFrom d project path, o⟩
  | _ => none

/-- The files of a list that are to be indexed. -/
def indexedFiles (files : List Path) : List Path :=
  files.filter fun p => (indexed? d parse project p).isSome

/-- The files to be indexed that lie in a folder. -/
def members (files : List Path) (folder : Path) : List Path :=
  (indexedFiles d parse project files).filter fun p => p.parent = folder

/-- The folders of the files to be indexed. -/
def folders (files : List Path) : List Path :=
  distinct ((indexedFiles d parse project files).map Path.parent)

/-- The outlines to be indexed in a folder. -/
def outlines (files : List Path) (folder : Path) : List FileOutline :=
  (members d parse project files folder).filterMap (indexed? d parse project)

/-- The outlines to be indexed, by folder. -/
def groups (files : List Path) : Table Path (List FileOutline) :=
  ⟨(folders d parse project files).map fun f => (f, outlines d parse project files f)⟩

/-- All that is written for some files, in order. -/
def outputs (single : Bool) (diagram : Option DiagramMode) (files : List Path) : List Output :=
  allIndexes single (groups d parse project files) ++
    match diagram with
    | none => []
    | some mode =>
      if (groups d parse project files).entries = [] then []
      else allDiagrams mode project (groups d parse project files)

end

variable {d d' : Disk} {parse : Intake.Parser} {project : Path} {files : List Path}
  {single : Bool} {diagram : Option DiagramMode}

theorem mem_indexedFiles {p : Path} : p ∈ indexedFiles d parse project files ↔
    p ∈ files ∧ (indexed? d parse project p).isSome := List.mem_filter

theorem mem_members {p folder : Path} : p ∈ members d parse project files folder ↔
    p ∈ indexedFiles d parse project files ∧ p.parent = folder := by
  simp [members]

theorem mem_folders {folder : Path} : folder ∈ folders d parse project files ↔
    ∃ p ∈ indexedFiles d parse project files, p.parent = folder := by
  simp [folders]

/-! ## One run -/

theorem result_analyseOne (p : Path) : (analyseOne d parse project p).result
    = (Intake.takeIn d parse p).map fun r => ⟨p, seenFrom d project p, r⟩ := by
  unfold analyseOne
  rw [Report.result_bind, Report.result_say, ok_bind]
  cases Intake.takeIn d parse p with
  | error c => rfl
  | ok r => rfl

/-- The answer for each file of a list. -/
abbrev AnalysedAs (d : Disk) (parse : Intake.Parser) (project : Path) (p : Path) (a : Analysed) :
    Prop :=
  a.path = p ∧ a.relative = seenFrom d project p ∧ Intake.takeIn d parse p = .ok a.result

theorem mapM_analyseOne {analysed : List Analysed} :
    (files.mapM (analyseOne d parse project)).result = .ok analysed ↔
      List.Forall₂ (AnalysedAs d parse project) files analysed := by
  rw [Report.result_mapM, mapM_eq_ok]
  have hiff : ∀ p a, (analyseOne d parse project p).result = .ok a ↔
      AnalysedAs d parse project p a := by
    intro p a
    obtain ⟨path, relative, result⟩ := a
    rw [result_analyseOne]
    cases htake : Intake.takeIn d parse p with
    | error c => simp [AnalysedAs, Except.map, htake]
    | ok r =>
      simp only [AnalysedAs, Except.map, htake, Except.ok.injEq, Analysed.mk.injEq]
      rw [eq_comm (a := p), eq_comm (a := seenFrom d project p)]
  simp only [hiff]

theorem AnalysedAs.indexed?_eq {p : Path} {a : Analysed} (h : AnalysedAs d parse project p a) :
    a.indexed? = indexed? d parse project p := by
  obtain ⟨-, hrelative, hresult⟩ := h
  unfold Analysed.indexed? indexed?
  rw [hresult, hrelative]
  cases a.result <;> rfl

theorem AnalysedAs.isOk_eq {p : Path} {a : Analysed} (h : AnalysedAs d parse project p a) :
    a.result.isOk = isAnalysed d parse p := by
  unfold isAnalysed
  rw [h.2.2]
  cases a.result <;> rfl

/-- The outlines by folder, from the answers. -/
theorem byFolder_eq {analysed : List Analysed}
    (h : List.Forall₂ (AnalysedAs d parse project) files analysed) :
    byFolder analysed = groups d parse project files := by
  have hpairs : (analysed.filterMap fun a => a.indexed?.map fun f => (a.path.parent, f))
      = files.filterMap fun p => (indexed? d parse project p).map fun f => (p.parent, f) := by
    induction h with
    | nil => rfl
    | cons ha _ ih => rw [List.filterMap_cons, List.filterMap_cons, ih, ha.indexed?_eq, ha.1]
  have hfirst :
      (files.filterMap fun p => (indexed? d parse project p).map fun f => (p.parent, f)).map
        Prod.fst = (indexedFiles d parse project files).map Path.parent := by
    clear h hpairs
    unfold indexedFiles
    induction files with
    | nil => rfl
    | cons p rest ih => cases hp : indexed? d parse project p <;> simp [hp, ih]
  have hvalues : ∀ folder : Path,
      ((files.filterMap fun p => (indexed? d parse project p).map fun f => (p.parent, f)).filter
        fun e => e.1 = folder).map Prod.snd = outlines d parse project files folder := by
    clear h hpairs hfirst
    intro folder
    unfold outlines members indexedFiles
    induction files with
    | nil => rfl
    | cons p rest ih =>
      cases hp : indexed? d parse project p with
      | none => simp [hp, ih]
      | some f => by_cases hf : p.parent = folder <;> simp [hp, hf, ih]
  show Table.mk _ = Table.mk _
  congr 1
  rw [hpairs, Table.entries_gathered, hfirst]
  apply List.map_congr_left
  intro folder _
  rw [hvalues]

theorem count_eq {analysed : List Analysed}
    (h : List.Forall₂ (AnalysedAs d parse project) files analysed) :
    count analysed = ⟨files.countP (isAnalysed d parse), files.countP (!isAnalysed d parse ·)⟩ := by
  simp only [count, List.partition_eq_filter_filter, ← List.countP_eq_length_filter]
  have hgood : analysed.countP (fun a => a.result.isOk) = files.countP (isAnalysed d parse) := by
    induction h with
    | nil => rfl
    | cons ha _ ih => rw [List.countP_cons, List.countP_cons, ih, ha.isOk_eq]
  have hbad : analysed.countP (not ∘ fun a => a.result.isOk)
      = files.countP (!isAnalysed d parse ·) := by
    clear hgood
    induction h with
    | nil => rfl
    | cons ha _ ih =>
      rw [List.countP_cons, List.countP_cons, ih, Function.comp_apply, ha.isOk_eq]
  rw [hgood, hbad]

/-! ## Writing one after the other -/

theorem writeAll_append (os os' : List Output) (d : Disk) :
    (writeAll project d (os ++ os')).1
      = (writeAll project (writeAll project d os).1 os').1 := by
  induction os generalizing d with
  | nil => rfl
  | cons o rest ih =>
    rw [List.cons_append, writeAll, writeAll]
    cases d.write o.path (.text o.text) with
    | error t => exact ih d
    | ok d₁ => exact ih d₁

/-- The result of a run in which every file has an answer. -/
theorem result_indexAll (h : ∀ p ∈ files, Answers (Intake.takeIn d parse p)) :
    (indexAll d parse project single diagram files).result
      = .ok ((writeAll project d (outputs d parse project single diagram files)).1,
          ⟨files.countP (isAnalysed d parse), files.countP (!isAnalysed d parse ·)⟩) := by
  have hanswers : Answers (files.mapM (analyseOne d parse project)).result := by
    rw [Report.result_mapM]
    refine Answers.mapM fun p hp => ?_
    obtain ⟨r, hr⟩ := h p hp
    rw [result_analyseOne, hr]
    exact ⟨_, rfl⟩
  obtain ⟨analysed, hmap⟩ := hanswers
  have hall := mapM_analyseOne.mp hmap
  unfold indexAll outputs
  rw [Report.result_bind, Report.result_note, ok_bind, Report.result_bind, hmap, ok_bind,
    byFolder_eq hall, count_eq hall]
  by_cases hnone : (groups d parse project files).entries = []
  · have hindexes : allIndexes single (groups d parse project files) = [] := by
      rw [allIndexes, hnone]
      rfl
    rw [if_pos hnone, hindexes]
    cases diagram with
    | none => rfl
    | some mode =>
      simp only [hnone, if_true]
      rfl
  · rw [if_neg hnone]
    cases diagram with
    | none =>
      simp only [List.append_nil]
      rfl
    | some mode =>
      simp only [hnone, if_false]
      rw [writeAll_append]
      rfl

/-- A run that gives a result has an answer for every file. -/
theorem answers_of_indexAll {r : Disk × Counts}
    (h : (indexAll d parse project single diagram files).result = .ok r) :
    ∀ p ∈ files, Answers (Intake.takeIn d parse p) := by
  unfold indexAll at h
  rw [Report.result_bind, Report.result_note, ok_bind, Report.result_bind] at h
  obtain ⟨analysed, hmap, -⟩ := bind_eq_ok.mp h
  intro p hp
  rw [Report.result_mapM] at hmap
  obtain ⟨a, -, ha⟩ := exists_ok_of_mapM hmap hp
  rw [result_analyseOne] at ha
  cases htake : Intake.takeIn d parse p with
  | error c => rw [htake] at ha; cases ha
  | ok r => exact ⟨r, rfl⟩

/-- The last of some files that is written at a place. -/
def lastAt (d : Disk) (os : List Output) (q : Place) : Option Output :=
  (os.filter fun o => d.landing o.path = some q).getLast?

theorem lastAt_congr (h : SameWays d d') (os : List Output) (q : Place) :
    lastAt d os q = lastAt d' os q := by
  simp only [lastAt, landing_congr h]

theorem landing_of_lastAt {os : List Output} {q : Place} {o : Output}
    (h : lastAt d os q = some o) : o ∈ os ∧ d.landing o.path = some q := by
  have hmem := List.mem_filter.mp (List.mem_of_getLast? h)
  exact ⟨hmem.1, by simpa using hmem.2⟩

theorem lastAt_eq_none {os : List Output} {q : Place} :
    lastAt d os q = none ↔ ∀ o ∈ os, d.landing o.path ≠ some q := by
  rw [lastAt, List.getLast?_eq_none_iff, List.filter_eq_nil_iff]
  simp

theorem lastAt_cons (o : Output) (rest : List Output) (q : Place) :
    lastAt d (o :: rest) q
      = (lastAt d rest q).or (if d.landing o.path = some q then some o else none) := by
  unfold lastAt
  by_cases h : d.landing o.path = some q
  · rw [List.filter_cons_of_pos (by simpa using h), List.getLast?_cons, if_pos h]
    cases (rest.filter fun o => d.landing o.path = some q).getLast? <;> rfl
  · rw [List.filter_cons_of_neg (by simpa using h), if_neg h, Option.or_none]

/-- Writing files leaves all folders and links as they are. -/
theorem sameWays_writeAll (ho : OpensFiles d) (os : List Output) :
    SameWays d (writeAll project d os).1 := by
  induction os generalizing d with
  | nil => exact .refl d
  | cons o rest ih =>
    rw [writeAll]
    cases hw : d.write o.path (.text o.text) with
    | error t => exact ih ho
    | ok d₁ =>
      obtain ⟨p, hp, rfl⟩ := write_eq_ok.mp hw
      have hways := ho.sameWays (c := .text o.text) hp
      exact hways.trans (ih (ho.congr hways))

/-- A place holds the last file that was written there. -/
theorem entry?_writeAll (ho : OpensFiles d) (os : List Output) (q : Place) :
    Disk.entry? (writeAll project d os).1 q
      = ((lastAt d os q).map fun o => .file (.text o.text)).or (d.entry? q) := by
  induction os generalizing d with
  | nil => rfl
  | cons o rest ih =>
    rw [writeAll, lastAt_cons]
    cases hw : d.write o.path (.text o.text) with
    | error t =>
      have hnone : d.landing o.path ≠ some q := by
        intro hq
        have hok : d.write o.path (.text o.text) = .ok (d.put q (.file (.text o.text))) :=
          write_eq_ok.mpr ⟨q, hq, rfl⟩
        rw [hw] at hok
        cases hok
      rw [if_neg hnone, Option.or_none]
      exact ih ho
    | ok d₁ =>
      obtain ⟨p, hp, rfl⟩ := write_eq_ok.mp hw
      have hways := ho.sameWays (c := .text o.text) hp
      show Disk.entry? (writeAll project _ rest).1 q = _
      rw [ih (ho.congr hways), ← lastAt_congr hways, entry?_put (ne_nil_of_landing hp), hp]
      by_cases hpq : p = q
      · subst hpq
        cases lastAt d rest p <;> simp
      · have hqp : q ≠ p := Ne.symm hpq
        cases lastAt d rest q <;> simp [hpq, hqp]

/-- Every file of a list can be written when its turn comes. -/
inductive AllWritten : Disk → List Output → Prop
  | nil {d : Disk} : AllWritten d []
  | cons {d d' : Disk} {o : Output} {rest : List Output}
    (hw : d.write o.path (.text o.text) = .ok d') (h : AllWritten d' rest) :
    AllWritten d (o :: rest)

/-- Whether a file can be written does not depend on those before it. -/
theorem allWritten_iff (ho : OpensFiles d) (os : List Output) :
    AllWritten d os ↔ ∀ o ∈ os, (d.landing o.path).isSome := by
  induction os generalizing d with
  | nil => simp [AllWritten.nil]
  | cons o rest ih =>
    rw [List.forall_mem_cons]
    constructor
    · rintro (_ | ⟨hw, hrest⟩)
      obtain ⟨p, hp, rfl⟩ := write_eq_ok.mp hw
      have hways := ho.sameWays (c := .text o.text) hp
      refine ⟨by rw [hp]; rfl, fun o' ho' => ?_⟩
      rw [landing_congr hways]
      exact (ih (ho.congr hways)).mp hrest o' ho'
    · rintro ⟨hfirst, hrest⟩
      obtain ⟨p, hp⟩ := Option.isSome_iff_exists.mp hfirst
      have hways := ho.sameWays (c := .text o.text) hp
      refine .cons (write_eq_ok.mpr ⟨p, hp, rfl⟩) ((ih (ho.congr hways)).mpr fun o' ho' => ?_)
      rw [← landing_congr hways]
      exact hrest o' ho'

end CodeAtlas.Command
