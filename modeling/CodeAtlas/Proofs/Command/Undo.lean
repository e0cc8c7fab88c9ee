import CodeAtlas.Command.Run
import CodeAtlas.Proofs.Command.Index
import CodeAtlas.Proofs.Command.Sweep
import CodeAtlas.Settings.Format
/-
  Clearing a project after a folder of it was indexed.

  An index run adds files with generated names in folders that are not passed
  over, and nothing else (`Added`). Clearing takes out just those files, so the
  project is as it was before. That works exactly when the clearing gets past all
  that it comes to in the project (`undone_iff`): one path that is too long stops
  it (`longPath_stops_clear`), and so does a folder that is closed, cannot be
  listed or lies too many levels down.
-/

namespace CodeAtlas.Command

open CodeAtlas.Disk CodeAtlas.Scan

variable {d d' : Disk} {top : Place} {w : World}

/-! ## What an index run adds -/

/-- A path of a generated file in a folder that is not passed over. -/
def IsOwnPath (d : Disk) (top : Place) (path : Path) : Prop :=
  ∃ k name, path = .ofPlace (k ++ [name]) ∧ Within top k ∧ d.entry? k = some .folder ∧
    isOwnOutput name ∧ '/' ∉ name.toList

/-- The disk `d'` is `d` with generated files added in the project, in folders that
can be changed and by paths that can be asked about. -/
structure Added (d d' : Disk) (top : Place) : Prop where
  sound : Sound d'
  ways : SameWays d d'
  rest : d'.without (isCleared top) = d
  loose : ∀ e ∈ d'.entries.entries, isCleared top e → d'.mayChange e.1.dropLast
  fits : ∀ q ∈ d'.entries.keys,
    q ∈ d.entries.keys ∨ checkPath (.ofPlace q) = .ok () ∧ Passable d q

theorem endsWith_append (a b : String) : Text.endsWith b (a ++ b) = true := by
  simp [Text.endsWith, String.toList_append]

theorem isOwnOutput_mermaid (a : String) : isOwnOutput (a ++ ".mermaid") = true := by
  rw [isOwnOutput, endsWith_append, Bool.or_true]

/-- A generated name is a step down. -/
theorem isStep_of_isOwnOutput {name : String} (h : isOwnOutput name) : IsStep name := by
  have hne : isOwnOutput "" = false ∧ isOwnOutput "." = false ∧ isOwnOutput ".." = false := by
    decide
  refine ⟨?_, ?_, ?_⟩ <;> rintro rfl <;> simp_all

/-- A file that can be written anew lies in a folder that can be changed, and so it
can be taken out again. -/
theorem Added.mayChange_of_mayWrite (h : Added d d' top) {k : Place} {name : String}
    (hblocks : Blocks (d'.entry? (k ++ [name])))
    (hold : ∀ e, (k ++ [name], e) ∈ d'.entries.entries → isCleared top (k ++ [name], e))
    (hwritable : d'.mayWrite (k ++ [name])) :
    d'.mayChange (k ++ [name]) ∧ d'.mayChange k := by
  rcases blocks_iff.mp hblocks with hnone | ⟨c, hfile⟩
  · have hwritable : d'.mayChange (k ++ [name]).dropLast := by
      simpa only [mayWrite, hnone, Option.isSome_none, Bool.false_eq_true, if_false]
        using hwritable
    rw [List.dropLast_concat] at hwritable
    exact ⟨h.sound.mayChange_of_none hnone, hwritable⟩
  · have hmem := mem_entries_of_ne_folder hfile (by simp)
    have hloose := h.loose _ hmem (hold _ hmem)
    rw [List.dropLast_concat] at hloose
    exact ⟨by simpa only [mayWrite, hfile, Option.isSome_some, if_true] using hwritable, hloose⟩

/-- A file that is written at such a path is added. -/
theorem Added.write (h : Added d d' top) (hlinks : LinklessBelow d top) {path : Path}
    (hpath : IsOwnPath d top path) {c : Content} {d₁ : Disk} (hwrite : d'.write path c = .ok d₁) :
    Added d d₁ top := by
  obtain ⟨k, name, rfl, hk, hfolder, hown, hslash⟩ := hpath
  obtain ⟨q, hland, rfl⟩ := write_eq_ok.mp hwrite
  have hfolder' : d'.entry? k = some .folder := (h.ways.folder_iff k).mp hfolder
  have hlink : ∀ t, d'.entry? (k ++ [name]) ≠ some (.link t) := fun t ht =>
    hlinks _ t (hk.1.trans (List.prefix_append k [name])) ((h.ways.link_iff _ t).mpr ht)
  obtain ⟨rfl, hname, hcheck⟩ :=
    h.sound.landing_ofPlace hfolder' hlink (isStep_of_isOwnOutput hown) hslash hland
  obtain ⟨hreach, hplain, hwritable⟩ := landing_eq_some.mp hland
  have hblocks : Blocks (d'.entry? (k ++ [name])) := blocks_of_ne hplain hlink
  have hcleared : ∀ e, isFile e → isCleared top (k ++ [name], e) = true := by
    intro e he
    simp [isCleared, reached_concat, hk, hown, he]
  -- the file that it may replace was added, too
  have hold : ∀ e, (k ++ [name], e) ∈ d'.entries.entries → isCleared top (k ++ [name], e) := by
    intro e he
    refine hcleared e ?_
    have hentry := h.sound.entry?_of_mem he (by simp)
    rcases blocks_iff.mp hblocks with hnone | ⟨c', hfile⟩
    · rw [hnone] at hentry
      cases hentry
    · rw [hfile] at hentry
      cases hentry
      rfl
  obtain ⟨hchange, hfolderChange⟩ := h.mayChange_of_mayWrite hblocks hold hwritable
  refine ⟨h.sound.put hfolder' hname hblocks c,
    h.ways.trans (.put (by simp) hblocks hwritable hchange c), ?_, fun e he hclear => ?_,
    fun q hq => ?_⟩
  · rw [← h.rest]
    exact without_put (hcleared _ rfl) hold
  · rcases Table.mem_entries_insert he with he | he
    · rw [he, List.dropLast_concat]
      exact hfolderChange
    · exact h.loose e he hclear
  · have hkeys : (d'.put (k ++ [name]) (.file c)).entries.keys
        = insertNew d'.entries.keys (k ++ [name]) := Table.keys_alter _ _ _
    rcases mem_insertNew.mp (hkeys ▸ hq) with hq | rfl
    · exact h.fits q hq
    · exact Or.inr ⟨hcheck, (Passable.congr h.ways.enter).mpr (passable_of_reach rfl hreach)⟩

theorem Added.sweepable (h : Added d d' top) (hlinks : LinklessBelow d top)
    (hfolder : d.entry? top = some .folder) : Sweepable d' top where
  sound := h.sound
  links k t hk ht := hlinks k t hk ((h.ways.link_iff k t).mpr ht)
  folder := (h.ways.folder_iff top).mp hfolder
  loose := h.loose

theorem Added.writeAll (h : Added d d' top) (hlinks : LinklessBelow d top) (project : Path)
    {os : List Output} (hos : ∀ o ∈ os, IsOwnPath d top o.path) :
    Added d (writeAll project d' os).1 top := by
  induction os generalizing d' with
  | nil => exact h
  | cons o rest ih =>
    obtain ⟨ho, hrest⟩ := List.forall_mem_cons.mp hos
    rw [Command.writeAll]
    cases hwrite : d'.write o.path (.text o.text) with
    | error t => exact ih h hrest
    | ok d₁ => exact ih (h.write hlinks ho hwrite) hrest

/-- A file of the project that a scan finds. -/
def IsProjectFile (d : Disk) (top : Place) (p : Path) : Prop :=
  ∃ q c, p = .ofPlace q ∧ Reached top q ∧ d.entry? q = some (.file c)

/-- Beside a file of the project there is room for generated files. -/
theorem IsProjectFile.isOwnPath (hd : Sound d) {p : Path} (h : IsProjectFile d top p)
    {name : String} (hown : isOwnOutput name) (hslash : '/' ∉ name.toList) :
    IsOwnPath d top (p.parent.child name) := by
  obtain ⟨q, c, rfl, hreached, he⟩ := h
  exact ⟨q.dropLast, name, rfl, hreached.2, hd.folder_above (by rw [he]; rfl), hown, hslash⟩

/-- All that is written for files of the project has such a path. -/
theorem isOwnPath_of_mem_outputs (hd : Sound d) (htop : d.entry? top = some .folder)
    {parse : Intake.Parser} {diagram : Option DiagramMode} {files : List Path}
    (hfiles : ∀ p ∈ files, IsProjectFile d top p) {o : Output}
    (ho : o ∈ outputs d parse (.ofPlace top) false diagram files) : IsOwnPath d top o.path := by
  rcases mem_outputs ho with hindex | hdiagram
  · obtain ⟨folder, hfolder, rfl⟩ := mem_folderIndexes.mp hindex
    obtain ⟨p, hp, rfl⟩ := mem_folders.mp hfolder
    exact (hfiles p (mem_indexedFiles.mp hp).1).isOwnPath hd (by decide) (by decide)
  · generalize o.path = path at hdiagram
    cases hdiagram with
    | @perFile p hp =>
      refine (hfiles p (mem_indexedFiles.mp hp).1).isOwnPath hd (isOwnOutput_mermaid _) ?_
      rw [String.toList_append, List.mem_append]
      rintro (h | h)
      · exact Path.slash_not_mem_stem _ h
      · revert h
        decide
    | project =>
      exact ⟨top, ".fnmap.mermaid", rfl, within_self top, htop, by decide, by decide⟩

/-! ## The runs -/

/-- The words of a run that indexes a folder. -/
def indexWords (given : Option String) (dir : String) (mode : Option String) (log : Bool) : Words :=
  { project := given, dir := some dir, diagram := mode, log := log }

/-- The words of a run that clears a project. -/
def clearWords (given : Option String) (log : Bool) : Words :=
  { project := given, clear := true, log := log }

/-- A project that can be indexed and cleared: a folder without links in which
there is no generated file yet, other than in folders that are passed over. -/
structure IsProject (w : World) (given : Option String) (top : Place) : Prop where
  sound : Sound w.disk
  named : (projectPath w { project := given }).result = .ok (.ofPlace top)
  noNull : pathsAreGood { project := given }
  folder : w.disk.entry? top = some .folder
  links : LinklessBelow w.disk top
  fresh : ∀ e ∈ w.disk.entries.entries, isCleared top e = false

/-- A path in the project that leads to a folder which is not passed over. -/
def IsOpenFolder (d : Disk) (top : Place) (dir : String) : Prop :=
  ∃ k, d.resolve ((Path.ofPlace top).join (Path.ofString dir)) = .ok (.ofPlace k) ∧
    d.entry? k = some .folder ∧ Within top k

theorem IsProject.added {given : Option String} (h : IsProject w given top) :
    Added w.disk w.disk top :=
  ⟨h.sound, .refl _, h.sound.without_eq_self h.fresh,
    fun e he hclear => absurd hclear (by simp [h.fresh e he]), fun _ hq => Or.inl hq⟩

variable {given mode : Option String} {dir : String} {log : Bool}

/-- The files that are found in a folder of the project. -/
theorem isProjectFile_of_scanFrom (hd : Sound d) (hlinks : LinklessBelow d top)
    {k : Place} (hk : Within top k) (hfolder : d.entry? k = some .folder) {files plain : List Path}
    (hscan : (scanFrom d (.ofPlace top) (.ofPlace k) Settings.alwaysSkipped).result = .ok files)
    (hplain : (files.mapM fun p => Report.resolved (d.resolve p)).result = .ok plain) :
    ∀ p ∈ plain, IsProjectFile d top p := by
  unfold scanFrom at hscan
  rw [Report.result_bind] at hscan
  obtain ⟨s, hs, hscan⟩ := bind_eq_ok.mp hscan
  have hs := Report.asked_eq_ok.mp hs
  cases hscan
  rw [Report.result_mapM] at hplain
  intro p hp
  obtain ⟨asked, hasked, hresolve⟩ := exists_of_mem_mapM hplain hp
  obtain ⟨f, hf, rfl⟩ := List.mem_map.mp hasked
  obtain ⟨q, c, hreached, he, hq⟩ :=
    resolve_found hd (found_of_folder hd (isRegion_within hlinks) hk
      (fun f => hd.eq_of_locate (p := .ofPlace k) rfl hfolder (by simp)) hs f hf)
  have hresolve := Report.resolved_eq_ok.mp hresolve
  rw [hq] at hresolve
  cases hresolve
  exact ⟨q, c, rfl, hreached, he⟩

/-- The words of an index run ask for the files of one folder. -/
theorem selectTargets_indexWords (project : Path) :
    selectTargets w project (indexWords given dir mode log)
      = (Report.resolved (w.disk.resolve (project.join (Path.ofString dir))) >>= fun root =>
        scanFrom w.disk project root Settings.alwaysSkipped >>= fun files =>
          pure (some ⟨files, false⟩)) := by
  have hnone : requested w.disk project (indexWords given dir mode log) = pure [] := rfl
  unfold selectTargets
  rw [hnone, pure_bind]
  simp only [indexWords, Bool.or_false, Bool.false_eq_true, if_false, ne_eq, not_true_eq_false]

/-- An index run of a folder of the project adds generated files. -/
theorem added_runIndex (h : IsProject w given top) (hdir : IsOpenFolder w.disk top dir)
    {diagram : Option DiagramMode}
    (hrun : (runIndex w (.ofPlace top) (indexWords given dir mode log) diagram).result = .ok d') :
    Added w.disk d' top := by
  obtain ⟨k, hroot, hfolder, hk⟩ := hdir
  unfold runIndex at hrun
  rw [Report.result_bind] at hrun
  obtain ⟨targets, htargets, hrun⟩ := bind_eq_ok.mp hrun
  rw [selectTargets_indexWords, hroot, Report.result_bind] at htargets
  obtain ⟨root, hr, htargets⟩ := bind_eq_ok.mp htargets
  cases hr
  rw [Report.result_bind] at htargets
  obtain ⟨files, hfiles, htargets⟩ := bind_eq_ok.mp htargets
  cases htargets
  simp only [Report.result_bind] at hrun
  obtain ⟨plain, hplain, hrun⟩ := bind_eq_ok.mp hrun
  have hproject := isProjectFile_of_scanFrom h.sound h.links hk hfolder hfiles hplain
  split at hrun
  · cases hrun
    exact h.added
  · rw [Report.result_bind] at hrun
    obtain ⟨⟨after, counts⟩, hindex, hrun⟩ := bind_eq_ok.mp hrun
    cases hrun
    have hwritten : (indexAll w.disk w.parse (.ofPlace top) false diagram _).result = _ :=
      result_indexAll (answers_of_indexAll hindex)
    rw [hindex] at hwritten
    cases hwritten
    refine h.added.writeAll h.links _ fun o ho => ?_
    exact isOwnPath_of_mem_outputs h.sound h.folder (fun p hp => hproject p (mem_distinct.mp hp)) ho

/-- The disk after an index run of a folder of the project. -/
theorem added_run (h : IsProject w given top) (hdir : IsOpenFolder w.disk top dir)
    {args : List String}
    (hargs : readWords? {} args = some (indexWords given dir mode log)) :
    Added w.disk (run w args).disk top := by
  have hexecute : ∀ diagram result, (execute w (indexWords given dir mode log) diagram).result
      = .ok result → Added w.disk result.1 top := by
    intro diagram result hresult
    have heq : execute w (indexWords given dir mode log) diagram
        = (projectPath w { project := given } >>= fun project =>
          (runIndex w project (indexWords given dir mode log) diagram).attempt w.disk) := rfl
    rw [heq, Report.result_bind, h.named, ok_bind, Report.attempt] at hresult
    cases hrun : (runIndex w (.ofPlace top) (indexWords given dir mode log) diagram).result with
    | error c =>
      rw [hrun] at hresult
      cases hresult
      exact h.added
    | ok d' =>
      rw [hrun] at hresult
      cases hresult
      exact added_runIndex h hdir hrun
  unfold run
  rw [hargs]
  simp only
  split
  · exact h.added
  split
  · exact h.added
  split
  · exact h.added
  split
  · exact h.added
  split
  · next hresult => exact hexecute _ _ hresult
  · next hresult => exact hexecute _ _ hresult
  · exact h.added

/-! ## Clearing -/

/-- What is said about how many files were cleared. -/
def clearedText (n : Nat) : String :=
  if n = 0 then "No generated files found" else s!"Cleared {n} generated file(s)"

/-- A run that ends well, leaves a disk, and says last how many files it has
cleared. -/
structure Clears (w : World) (args : List String) (after : Disk) (n : Nat) : Prop where
  disk : (run w args).disk = after
  ending : (run w args).ending = .done
  said : ∃ before, (run w args).console = before ++ clearedText n ++ "\n"

/-- After a sweep that did not stop, the number of files is said last. -/
theorem runClear_of_swept (given : Option String) (log : Bool) {project : Path} {s : Sweep}
    (hs : (clear w.nesting w.disk project project).result = .ok s) (ht : s.trouble = none) :
    (runClear w project (clearWords given log)).result = .ok (s.disk, none) ∧
      ∃ before, (runClear w project (clearWords given log)).notes
        = before ++ [.line .summary (clearedText s.removed.length)] := by
  unfold runClear
  simp only [clearWords, pure_bind]
  refine ⟨?_, ?_⟩
  · rw [Report.result_bind, Report.result_say, ok_bind, Report.result_bind, hs, ok_bind, ht]
    cases s.removed.length <;> rfl
  · rw [Report.notes_bind (Report.result_say _ _), Report.notes_bind hs, ht]
    refine ⟨[.line .info "fnmap - Clear Generated Files"] ++
      (clear w.nesting w.disk project project).notes, ?_⟩
    rw [List.append_assoc]
    cases s.removed.length <;> rfl

theorem swept_of_runClear {project : Path}
    (h : (runClear w project (clearWords given log)).result = .ok (d, none)) :
    ∃ s, (clear w.nesting w.disk project project).result = .ok s ∧ s.trouble = none := by
  unfold runClear at h
  simp only [clearWords, pure_bind] at h
  rw [Report.result_bind, Report.result_say, ok_bind, Report.result_bind] at h
  obtain ⟨s, hs, h⟩ := bind_eq_ok.mp h
  refine ⟨s, hs, ?_⟩
  cases ht : s.trouble with
  | none => rfl
  | some t =>
    rw [ht] at h
    cases h

section

variable {args : List String}
  (hargs : readWords? {} args = some (clearWords given log))
  (hgood : pathsAreGood { project := given })
include hargs hgood

theorem run_clear : run w args =
    let r := projectPath w { project := given } >>= fun project =>
      runClear w project (clearWords given log)
    match r.result with
    | .ok (d, none) => ⟨d, consoleText true r.notes, loggedTexts r.notes, .done⟩
    | .ok (d, some c) => ⟨d, consoleText true r.notes, loggedTexts r.notes, .crashed c⟩
    | .error c => ⟨w.disk, consoleText true r.notes, loggedTexts r.notes, .crashed c⟩ := by
  have hgood : pathsAreGood (clearWords given log) = true := hgood
  have hverbose : isVerbose (clearWords given log) = true := by
    simp [isVerbose, clearWords]
  unfold run
  rw [hargs]
  simp only [hgood, hverbose]
  rfl

variable (hproject : (projectPath w { project := given }).result = .ok (.ofPlace top))
include hproject

/-- When the project is swept to the end, the run clears it. -/
theorem clears_of_swept {s : Sweep}
    (hs : (clear w.nesting w.disk (.ofPlace top) (.ofPlace top)).result = .ok s)
    (ht : s.trouble = none) :
    Clears w args s.disk s.removed.length := by
  obtain ⟨hresult, before, hnotes⟩ := runClear_of_swept given log hs ht
  have hrun := run_clear (w := w) hargs hgood
  simp only [Report.result_bind, hproject, ok_bind, hresult] at hrun
  refine ⟨by rw [hrun], by rw [hrun], ?_⟩
  refine ⟨consoleText true ((projectPath w { project := given }).notes ++ before), ?_⟩
  rw [hrun, Report.notes_bind hproject, hnotes, ← List.append_assoc, consoleText_append]
  simp [consoleText, Level.mark, String.append_assoc]

/-- A run that ends well has swept the project to the end. -/
theorem swept_of_done (hdone : (run w args).ending = .done) :
    ∃ s, (clear w.nesting w.disk (.ofPlace top) (.ofPlace top)).result = .ok s ∧
      s.trouble = none := by
  have hrun := run_clear (w := w) hargs hgood
  simp only [Report.result_bind, hproject, ok_bind] at hrun
  cases hresult : (runClear w (.ofPlace top) (clearWords given log)).result with
  | error c =>
    rw [hresult] at hrun
    rw [hrun] at hdone
    cases hdone
  | ok r =>
    obtain ⟨d, crash⟩ := r
    cases crash with
    | none => exact swept_of_runClear hresult
    | some c =>
      rw [hresult] at hrun
      rw [hrun] at hdone
      cases hdone

end

/-! ## Clearing after indexing -/

/-- A sweep of the project gets past all that it comes to. -/
def Fits (d : Disk) (top : Place) (nesting : Nat) : Prop :=
  ∀ q, (d.entry? q).isSome → Visited top q → CanVisit d top nesting q

instance (d : Disk) (top : Place) (nesting : Nat) : Decidable (Fits d top nesting) :=
  decidable_of_iff (∀ q ∈ [] :: d.entries.keys, Visited top q → CanVisit d top nesting q) <| by
    refine forall_congr' fun q => ?_
    by_cases hq : q = []
    · simp [hq, entry?]
    · rw [List.mem_cons, or_iff_right hq, mem_keys_iff hq]

section

variable {args : List String} (hargs : readWords? {} args = some (clearWords given log))
  (hgood : pathsAreGood { project := given })
  (hproject : (projectPath w { project := given }).result = .ok (.ofPlace top))
  (hsweep : Sweepable w.disk top)
include hargs hgood hproject hsweep

theorem clears_of_fits (hfits : Fits w.disk top w.nesting) :
    ∃ n, Clears w args (w.disk.without (isCleared top)) n ∧
      n + (w.disk.without (isCleared top)).entries.entries.length
        = w.disk.entries.entries.length := by
  have htop := hfits top (by rw [hsweep.folder]; rfl) (Or.inl rfl)
  have hlocate : w.disk.locate (.ofPlace top) = .ok top :=
    hsweep.sound.locate_eq (p := .ofPlace top) rfl htop.short hsweep.folder htop.passable (by simp)
  have hbalance := balanced_sweepBelow (n := w.disk.entries.entries.length)
    (s := ⟨w.disk, [], none⟩) w.nesting (.ofPlace top) ⟨hsweep.sound.keys, Nat.zero_add _⟩
  cases cleared_sweepBelow (s := ⟨w.disk, [], none⟩) w.nesting hsweep htop.short htop.passable
    rfl rfl with
  | stopped hq hvisited hrange hstuck ht => exact absurd (hfits _ hq hvisited) hstuck
  | swept _ hdisk ht =>
    simp only [Bool.and_true] at hdisk
    refine ⟨_, hdisk ▸ clears_of_swept hargs hgood hproject
      (result_clear w.nesting _ hlocate hsweep.folder) ht, ?_⟩
    rw [← hdisk]
    exact hbalance.count

theorem fits_of_done (hdone : (run w args).ending = .done) : Fits w.disk top w.nesting := by
  obtain ⟨s, hs, ht⟩ := swept_of_done hargs hgood hproject hdone
  have hsome : (w.disk.entry? top).isSome := by rw [hsweep.folder]; rfl
  -- the project could be asked about
  have hasked : ∀ t, w.disk.find (.ofPlace top) ≠ .error t := by
    intro t hfind
    have hexists : w.disk.pathExists (.ofPlace top) = .error t := by
      rw [pathExists, hfind]
      rfl
    unfold clear at hs
    rw [Report.result_bind, Report.asked, hexists] at hs
    cases hs
  have hcheck : checkPath (.ofPlace top) = .ok () :=
    (checkPath_cases (p := .ofPlace top) (Or.inl rfl) fun t =>
      hsweep.sound.isName hsome).resolve_right fun hlong => hasked _ (find_tooLong hlong)
  have hpass : Passable w.disk top := by
    by_contra hclosed
    exact hasked _ (hsweep.sound.find_closed (p := .ofPlace top) rfl hcheck hsome hclosed)
  have hlocate : w.disk.locate (.ofPlace top) = .ok top :=
    hsweep.sound.locate_eq (p := .ofPlace top) rfl hcheck hsweep.folder hpass (by simp)
  rw [result_clear w.nesting _ hlocate hsweep.folder] at hs
  cases hs
  cases cleared_sweepBelow (s := ⟨w.disk, [], none⟩) w.nesting hsweep hcheck hpass rfl rfl with
  | stopped hq hvisited hrange hstuck ht' => exact absurd ht ht'
  | swept hvisit _ _ => exact fun q hq hvisited => hvisit q hq hvisited rfl

end

/-- How many places of a disk are new. -/
def created (before after : Disk) : Nat :=
  (after.entries.keys.filter fun k => (before.entry? k).isNone).length

/-- The new places are those of the files that were added. -/
theorem Added.created_add (h : Added d d' top) :
    created d d' + d.entries.entries.length = d'.entries.entries.length := by
  have hrest : d.entries.entries = d'.entries.entries.filter fun e => !isCleared top e := by
    conv_lhs => rw [← h.rest]
    rfl
  -- a place is new when its entry would be cleared
  have hnew : ∀ e ∈ d'.entries.entries, (d.entry? e.1).isNone = isCleared top e := by
    intro e he
    cases hclear : isCleared top e with
    | true =>
      have hne : e.1 ≠ [] := (reached_of_isCleared hclear).ne_nil
      rw [Option.isNone_iff_eq_none, ← h.rest, h.sound.entry?_without
        (fun e he => ne_folder_of_isFile (isFile_of_isCleared he)), h.sound.entry?_of_mem he hne]
      simp [hclear]
    | false =>
      by_cases hne : e.1 = []
      · rw [hne]
        rfl
      · have hmem : e.1 ∈ d.entries.keys := by
          rw [Table.keys, hrest]
          exact List.mem_map_of_mem (List.mem_filter.mpr ⟨he, by simp [hclear]⟩)
        have hsome := (mem_keys_iff hne).mp hmem
        rw [Option.isNone_eq_false_iff]
        exact hsome
  have hcreated : created d d' = d'.entries.entries.countP (isCleared top) := by
    rw [created, Table.keys, ← List.countP_eq_length_filter, List.countP_map]
    apply List.countP_congr
    intro e he
    simp [hnew e he]
  have hlength := List.length_eq_countP_add_countP (l := d'.entries.entries) (isCleared top)
  rw [hcreated, hrest, ← List.countP_eq_length_filter]
  simp only [Bool.not_eq_true, Bool.decide_eq_false] at hlength
  omega

/-- What was added can be got past, and it changes nothing about the rest. -/
theorem Added.fits_iff (h : Added d d' top) {nesting : Nat} :
    Fits d' top nesting ↔ Fits d top nesting := by
  have hvisit : ∀ q, CanVisit d top nesting q ↔ CanVisit d' top nesting q := fun q =>
    canVisit_congr h.ways.enter (by rw [mayRead, mayRead, h.ways.locks]) (h.ways.folder_iff q)
  constructor
  · intro hfits q hq hvisited
    refine (hvisit q).mpr (hfits q ?_ hvisited)
    by_cases hne : q = []
    · subst hne
      rfl
    · rw [← mem_keys_iff hne] at hq ⊢
      rw [← h.rest] at hq
      exact mem_keys_of_without hq
  · intro hfits q hq hvisited
    refine (hvisit q).mp ?_
    cases hsome : (d.entry? q).isSome with
    | true => exact hfits q hsome hvisited
    | false =>
      have hne : q ≠ [] := by
        rintro rfl
        cases hsome
      have hnew : q ∉ d.entries.keys := fun hmem => by
        rw [mem_keys_iff hne, hsome] at hmem
        cases hmem
      obtain ⟨hcheck, hpass⟩ := (h.fits q ((mem_keys_iff hne).mpr hq)).resolve_left hnew
      refine .of_asked hcheck hpass fun _ hfolder => ?_
      rw [hfolder] at hsome
      cases hsome

/-- The world after a run. -/
def World.after (w : World) (args : List String) : World := { w with disk := (run w args).disk }

/-- A run with the words `index` is undone by one with the words `clear`: the disk
is as it was before, as many files are said to be cleared as there were created,
and there is nothing to be cleared any more. -/
structure Undone (w : World) (index clear : List String) : Prop where
  cleared : Clears (w.after index) clear w.disk (created w.disk (w.after index).disk)
  again : Clears ((w.after index).after clear) clear w.disk 0

/-- A project has the same name after files were added. -/
theorem projectPath_of_added (h : IsProject w given top) (hadded : Added w.disk d' top) :
    (projectPath { w with disk := d' } { project := given }).result = .ok (.ofPlace top) := by
  have hresolve : ∀ path, (Report.resolved (w.disk.resolve path)).result = .ok (.ofPlace top) →
      (Report.resolved (d'.resolve path)).result = .ok (.ofPlace top) := fun path hpath =>
    Report.resolved_eq_ok.mpr
      (hadded.sound.resolve_of_sameWays hadded.ways h.folder (Report.resolved_eq_ok.mp hpath))
  have hnamed := h.named
  cases given with
  | some p => exact hresolve _ hnamed
  | none =>
    have heq : ∀ w : World, projectPath w { project := none }
        = (expandHome w.homeVariable (Path.ofString (w.projectVariable.getD ".")) >>= fun path =>
          Report.resolved (w.disk.resolve path)) := fun _ => rfl
    rw [heq, Report.result_bind] at hnamed ⊢
    obtain ⟨path, hpath, hnamed⟩ := bind_eq_ok.mp hnamed
    exact bind_eq_ok.mpr ⟨path, hpath, hresolve path hnamed⟩

section

variable {args₁ args₂ : List String} {log₂ : Bool}
  (h : IsProject w given top) (hdir : IsOpenFolder w.disk top dir)
  (hargs₁ : readWords? {} args₁ = some (indexWords given dir mode log))
  (hargs₂ : readWords? {} args₂ = some (clearWords given log₂))
include h hdir hargs₁

/-- What was added does not keep the project from being swept. -/
theorem sweepable_after : Sweepable (w.after args₁).disk top :=
  (added_run h hdir hargs₁).sweepable h.links h.folder

include hargs₂

theorem fits_of_undone (hundone : Undone w args₁ args₂) : Fits w.disk top w.nesting := by
  have hadded := added_run h hdir hargs₁
  exact hadded.fits_iff.mp (fits_of_done (w := w.after args₁) hargs₂ h.noNull
    (projectPath_of_added h hadded) (sweepable_after h hdir hargs₁) hundone.cleared.ending)

theorem undone_of_fits (hfits : Fits w.disk top w.nesting) : Undone w args₁ args₂ := by
  have hadded := added_run h hdir hargs₁
  obtain ⟨n, hclears, hn⟩ := clears_of_fits (w := w.after args₁) hargs₂ h.noNull
    (projectPath_of_added h hadded) (sweepable_after h hdir hargs₁) (hadded.fits_iff.mpr hfits)
  have hcreated := hadded.created_add
  have hrest : (w.after args₁).disk.without (isCleared top) = w.disk := hadded.rest
  rw [hrest] at hclears hn
  have hcount : n = created w.disk (w.after args₁).disk := by
    show n = created w.disk (run w args₁).disk
    have hn : n + w.disk.entries.entries.length = (run w args₁).disk.entries.entries.length := hn
    omega
  have hback : (w.after args₁).after args₂ = w := by
    show { w with disk := (run (w.after args₁) args₂).disk } = w
    rw [hclears.disk]
  refine ⟨hcount ▸ hclears, ?_⟩
  rw [hback]
  -- the second clearing finds the disk of the beginning, on which nothing is to be taken out
  obtain ⟨m, hclears, hm⟩ := clears_of_fits hargs₂ h.noNull h.named
    (h.added.sweepable h.links h.folder) hfits
  rw [h.added.rest] at hclears hm
  have hzero : m = 0 := by omega
  exact hzero ▸ hclears

end

/-- Clearing a project undoes that a folder of it was indexed, exactly when the
clearing gets past all that it comes to in the project. -/
theorem undone_iff {args₁ args₂ : List String} {log₂ : Bool} (h : IsProject w given top)
    (hdir : IsOpenFolder w.disk top dir)
    (hargs₁ : readWords? {} args₁ = some (indexWords given dir mode log))
    (hargs₂ : readWords? {} args₂ = some (clearWords given log₂)) :
    Undone w args₁ args₂ ↔ Fits w.disk top w.nesting :=
  ⟨fits_of_undone h hdir hargs₁ hargs₂, undone_of_fits h hdir hargs₁ hargs₂⟩

/-- A project with sources, one of them in a folder that cannot be changed, and a
locked folder that is passed over. A sweep can be inside two others and no more. -/
def desk : World where
  disk := ⟨["p"], ⟨[(["p"], .folder), (["p", "src"], .folder), (["p", "src", "in"], .folder),
    (["p", "src", "a.js"], .file (.text smallCode)),
    (["p", "src", "in", "b.ts"], .file (.text smallCode)), (["p", "build"], .folder),
    (["p", "build", "c.fnmap"], .file (.text "c")), (["l"], .link "p")]⟩,
    ⟨[["p", "build"]], [["p", "build"]], [["p", "src", "in"]]⟩⟩
  parse := smallParser
  decode := Settings.Format.read
  nesting := 3

theorem undone_desk :
    (IsProject desk (some "../l") ["p"] ∧ IsOpenFolder desk.disk ["p"] "./src" ∧
      readWords? {} ["--project", "../l", "--dir=./src", "-mfile"]
        = some (indexWords (some "../l") "./src" (some "file") false) ∧
      readWords? {} ["--clear", "-p", "../l"] = some (clearWords (some "../l") false)) ∧
    Undone desk ["--project", "../l", "--dir=./src", "-mfile"] ["--clear", "-p", "../l"] := by
  have hproject : IsProject desk (some "../l") ["p"] := by
    refine ⟨by decide +kernel, by decide +kernel, by decide +kernel, rfl, ?_, by decide +kernel⟩
    intro k t hk ht
    have hlink : k = ["l"] ∧ t = "p" := by simpa [desk] using mem_entries_of_ne_folder ht (by simp)
    rw [hlink.1] at hk
    revert hk
    decide
  have hdir : IsOpenFolder desk.disk ["p"] "./src" :=
    ⟨["p", "src"], by decide +kernel, rfl, by decide⟩
  have hargs₁ : readWords? {} ["--project", "../l", "--dir=./src", "-mfile"]
      = some (indexWords (some "../l") "./src" (some "file") false) := by decide +kernel
  have hargs₂ : readWords? {} ["--clear", "-p", "../l"]
      = some (clearWords (some "../l") false) := by decide +kernel
  refine ⟨⟨hproject, hdir, hargs₁, hargs₂⟩, (undone_iff hproject hdir hargs₁ hargs₂).mpr ?_⟩
  decide +kernel

/-! ## A path that is too long -/

/-- A project with one source, and folders in folders of one name. -/
def pile (name : String) (height : Nat) : Disk :=
  ⟨[], ⟨(["p", "a.js"], .file (.text smallCode)) ::
    (List.range (height + 1)).map fun i => ("p" :: List.replicate i name, .folder)⟩, {}⟩

variable {name : String} {height : Nat}

theorem mem_pile {e : Place × Entry} : e ∈ (pile name height).entries.entries ↔
    e = (["p", "a.js"], .file (.text smallCode)) ∨
      ∃ i ≤ height, e = ("p" :: List.replicate i name, .folder) := by
  simp only [pile, List.mem_cons, List.mem_map, List.mem_range, Nat.lt_succ_iff]
  exact or_congr_right (exists_congr fun i => and_congr_right fun _ => eq_comm)

theorem nodup_pile (hne : name ≠ "a.js") : (pile name height).entries.keys.Nodup := by
  have hkeys : (pile name height).entries.keys = ["p", "a.js"] ::
      (List.range (height + 1)).map fun i => "p" :: List.replicate i name := by
    simp [pile, Table.keys]
  rw [hkeys, List.nodup_cons]
  refine ⟨?_, ?_⟩
  · intro hmem
    obtain ⟨i, -, hi⟩ := List.mem_map.mp hmem
    rcases i with _ | i
    · cases hi
    · have hname : name = "a.js" := (List.cons.inj (List.cons.inj hi).2).1
      exact hne hname
  · refine List.Nodup.map (fun i j hij => ?_) List.nodup_range
    have hlength := congrArg List.length hij
    simpa using hlength

theorem folder_pile (hne : name ≠ "a.js") {i : Nat} (hi : i ≤ height) :
    Disk.entry? (pile name height) ("p" :: List.replicate i name) = some .folder := by
  rw [entry?_of_ne (by simp)]
  exact Table.get?_of_mem_entries (nodup_pile hne) (mem_pile.mpr (Or.inr ⟨i, hi, rfl⟩))

theorem sound_pile (hname : IsName name) (hne : name ≠ "a.js") : Sound (pile name height) := by
  refine ⟨nodup_pile hne, fun k hk => ?_, fun k hk => ?_, fun _ hk => by simp [pile] at hk, rfl⟩
  · obtain ⟨e, he, rfl⟩ := List.mem_map.mp hk
    rcases mem_pile.mp he with rfl | ⟨i, -, rfl⟩
    · decide +kernel
    · intro s hs
      rcases List.mem_cons.mp hs with rfl | hs
      · decide +kernel
      · rw [List.eq_of_mem_replicate hs]
        exact hname
  · obtain ⟨e, he, rfl⟩ := List.mem_map.mp hk
    rcases mem_pile.mp he with rfl | ⟨i, hi, rfl⟩
    · exact folder_pile hne (Nat.zero_le height)
    · cases i with
      | zero => rfl
      | succ i =>
        have hdrop : ("p" :: List.replicate (i + 1) name).dropLast
            = "p" :: List.replicate i name := by
          rw [List.replicate_succ', ← List.cons_append, List.dropLast_concat]
        rw [hdrop]
        exact folder_pile hne (Nat.le_of_succ_le hi)

theorem size_pile (i : Nat) : (Path.ofPlace ("p" :: List.replicate i name)).toString.utf8ByteSize
    = 2 + i * (1 + name.utf8ByteSize) := by
  induction i with
  | zero =>
    rw [List.replicate_zero, Nat.zero_mul]
    decide +kernel
  | succ i ih =>
    have hchild : Path.ofPlace ("p" :: List.replicate (i + 1) name)
        = (Path.ofPlace ("p" :: List.replicate i name)).child name := by
      rw [List.replicate_succ']
      rfl
    rw [hchild, Path.size_child rfl (by simp [Path.ofPlace]), ih, Nat.succ_mul]
    omega

/-- A name that is as long as need be. -/
def dashes (n : Nat) : String := String.ofList (List.replicate n '-')

theorem size_dashes (n : Nat) : (dashes n).utf8ByteSize = n := by
  induction n with
  | zero => decide
  | succ n ih =>
    have hone : (String.ofList ['-']).utf8ByteSize = 1 := by decide +kernel
    have happend : dashes (n + 1) = String.ofList ['-'] ++ dashes n := by
      rw [dashes, dashes, ← String.ofList_append]
      rfl
    rw [happend, String.utf8ByteSize_append, hone, ih, Nat.add_comm]

theorem dashes_ne {n : Nat} (hpos : 0 < n) {s : String} (hs : '-' ∉ s.toList) : dashes n ≠ s := by
  rintro rfl
  rw [dashes, String.toList_ofList] at hs
  exact hs (List.mem_replicate.mpr ⟨Nat.ne_of_gt hpos, rfl⟩)

theorem isName_dashes {n : Nat} (hpos : 0 < n) (hshort : n ≤ nameLimit) : IsName (dashes n) := by
  have hchars : ∀ c ∈ (dashes n).toList, c = '-' := by
    intro c hc
    rw [dashes, String.toList_ofList] at hc
    exact List.eq_of_mem_replicate hc
  refine ⟨⟨dashes_ne hpos (by decide), dashes_ne hpos (by decide), fun hc => ?_⟩,
    dashes_ne hpos (by decide), fun hc => ?_, ?_⟩
  · exact absurd (hchars _ hc) (by decide)
  · exact absurd (hchars _ hc) (by decide)
  · rw [size_dashes]
    exact hshort

/-- A project in which one path is too long to be asked about. -/
def depot : World where
  disk := pile (dashes 250) 17
  parse := smallParser
  decode := Settings.Format.read
  nesting := 900

/-- Clearing such a project does not undo that it was indexed. -/
theorem longPath_stops_clear :
    IsProject depot (some "/p") ["p"] ∧ IsOpenFolder depot.disk ["p"] "." ∧
      readWords? {} ["--project", "/p", "--dir", "."]
        = some (indexWords (some "/p") "." none false) ∧
      readWords? {} ["--project", "/p", "--clear"] = some (clearWords (some "/p") false) ∧
      ¬Undone depot ["--project", "/p", "--dir", "."] ["--project", "/p", "--clear"] := by
  have hpos : 0 < 250 := by decide
  have hne : dashes 250 ≠ "a.js" := dashes_ne hpos (by decide)
  have hsound : Sound depot.disk := sound_pile (isName_dashes hpos (by decide)) hne
  have hfolder : depot.disk.entry? ["p"] = some .folder := folder_pile hne (Nat.zero_le 17)
  have hresolve : ∀ path : Path, path.isAbsolute → path.parts = ["p"] →
      depot.disk.resolve path = .ok (.ofPlace ["p"]) := by
    intro path habs hparts
    have hplain := hsound.resolve_eq habs (hparts ▸ hfolder) (by simp)
    rwa [hparts] at hplain
  have hproject : IsProject depot (some "/p") ["p"] := by
    refine ⟨hsound, ?_, by decide +kernel, hfolder, ?_, fun e he => ?_⟩
    · exact Report.resolved_eq_ok.mpr
        (hresolve (Path.ofString "/p") (by decide +kernel) (by decide +kernel))
    · refine fun k t _ => linkless_of_entries (fun e he t => ?_) k t
      rcases mem_pile.mp he with rfl | ⟨i, -, rfl⟩ <;> simp
    · rcases mem_pile.mp he with rfl | ⟨i, -, rfl⟩
      · decide +kernel
      · simp [isCleared, isFile]
  have hdir : IsOpenFolder depot.disk ["p"] "." :=
    ⟨["p"], hresolve _ (by decide +kernel) (by decide +kernel), hfolder, within_self _⟩
  have hargs₁ : readWords? {} ["--project", "/p", "--dir", "."]
      = some (indexWords (some "/p") "." none false) := by decide +kernel
  have hargs₂ : readWords? {} ["--project", "/p", "--clear"]
      = some (clearWords (some "/p") false) := by decide +kernel
  refine ⟨hproject, hdir, hargs₁, hargs₂, fun hundone => ?_⟩
  have hfits := fits_of_undone hproject hdir hargs₁ hargs₂ hundone
  have hsome : (depot.disk.entry? ("p" :: List.replicate 17 (dashes 250))).isSome := by
    rw [depot, folder_pile hne (Nat.le_refl 17)]
    rfl
  have hreached : Reached ["p"] ("p" :: List.replicate 17 (dashes 250)) := by
    rw [List.replicate_succ', ← List.cons_append, reached_concat]
    refine within_append.mpr fun s hs hskip => ?_
    have hs : s ∈ List.replicate 16 (dashes 250) := hs
    rw [List.eq_of_mem_replicate hs] at hskip
    have hnone : ∀ s ∈ Settings.alwaysSkipped, '-' ∉ s.toList := by decide +kernel
    exact dashes_ne hpos (hnone _ hskip) rfl
  have hsize := (checkPath_eq_ok.mp (hfits _ hsome (Or.inr hreached)).short).2
  rw [size_pile, size_dashes] at hsize
  revert hsize
  decide

end CodeAtlas.Command
