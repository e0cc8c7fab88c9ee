import CodeAtlas.Proofs.Analysis.Complete
import CodeAtlas.Proofs.Command.Outputs
import CodeAtlas.Proofs.Disk.Plain
import CodeAtlas.TreeFile
/-
  Runs that index files.

  Two ways to lay out the indexes: one for each folder, and one for each file.

  What is proved:
    1. By folder a run comes to its end exactly when a disk can be asked about
       all of its files, and then nothing is lost (`indexedByFolder_indexAll`).
       The files that are to be indexed are dealt out to the indexes of their
       folders, each to one; a file that has no outline, or only types, changes
       nothing that is written; and all else on the disk stays as it is. One file
       with a name that is too long ends the run (`longName_ends_run`).
    2. By file each index is kept exactly when files whose indexes are written
       at one place have the same index (`kept_iff_indexAll`). Indexes of files
       in one folder that differ in their suffix only have the same name, so one
       is lost (`sameStem_loses_index`).
-/

namespace CodeAtlas.Command

open CodeAtlas.Analysis CodeAtlas.Disk CodeAtlas.Syntax

variable {d : Disk} {parse : Intake.Parser} {project : Path} {files : List Path}
  {single : Bool} {diagram : Option DiagramMode}

/-! ## Every file has an answer -/

/-- What a parser promises of its trees. -/
def WellParsed (parse : Intake.Parser) : Prop :=
  ∀ language code, WellPlaced code (parse language code)

theorem analyse_ne_fault {code : String} {tree : SyntaxTree Span} (h : WellPlaced code tree)
    (path : Option String) (f : Fault) : analyse code path tree ≠ .error (.fault f) := by
  cases hbad : (tree.locate code).defect? with
  | some bad =>
    obtain ⟨message, hmessage⟩ :=
      h.readable_locate.syntaxErrorAt path (SyntaxTree.mem_preorder_of_defect? hbad)
    have hanalyse : ∃ e, analyse code path tree = .error (.syntaxError e) := by
      simp only [analyse, readTree, hbad, hmessage]
      exact ⟨_, rfl⟩
    obtain ⟨e, he⟩ := hanalyse
    rw [he]
    intro hf
    cases hf
  | none =>
    obtain ⟨s, calls, hs, hcalls⟩ := h.exists_survey
    rw [analyse_of_survey hbad hs hcalls]
    intro hf
    cases hf

theorem answers_takeContent (hparse : WellParsed parse) (path : Path) (content : Content) :
    Answers (Intake.takeContent parse path content) := by
  unfold Intake.takeContent
  cases Intake.readText content with
  | error f => exact ⟨_, rfl⟩
  | ok code =>
    cases hr : analyse code (some path.toString)
        (parse (Language.ofPath (some path.toString)) code) with
    | ok o =>
      simp only [hr]
      exact ⟨_, rfl⟩
    | error e =>
      cases e with
      | syntaxError e =>
        simp only [hr]
        exact ⟨_, rfl⟩
      | fault f => exact absurd hr (analyse_ne_fault (hparse _ _) _ f)

/-- The disk can be asked about the path. -/
def Askable (d : Disk) (p : Path) : Prop := ∃ e, d.find p = .ok e

/-- A file that can be asked about is taken in or refused, and no other is. -/
theorem answers_takeIn_iff (hparse : WellParsed parse) {p : Path} :
    Answers (Intake.takeIn d parse p) ↔ Askable d p := by
  constructor
  · rintro ⟨r, h⟩
    obtain ⟨checked, hchecked, -⟩ := bind_eq_ok.mp h
    obtain ⟨e, he, -⟩ := map_eq_ok.mp (mapError_eq_ok.mp hchecked)
    exact ⟨e, he⟩
  · rintro ⟨e, he⟩
    have hchecked : ∃ checked, Intake.checkPath d p = .ok checked := by
      rw [Intake.checkPath, he]
      exact ⟨_, rfl⟩
    obtain ⟨checked, hchecked⟩ := hchecked
    rw [Intake.takeIn, hchecked, Except.mapError, ok_bind]
    cases checked with
    | error r => exact ⟨_, rfl⟩
    | ok u =>
      dsimp only
      cases d.content p with
      | error t => exact ⟨_, rfl⟩
      | ok content => exact answers_takeContent hparse p content

/-- A run comes to its end exactly when all of its files can be asked about. -/
theorem answers_indexAll_iff (hparse : WellParsed parse) :
    Answers (indexAll d parse project single diagram files).result ↔ ∀ p ∈ files, Askable d p := by
  constructor
  · rintro ⟨r, h⟩ p hp
    exact (answers_takeIn_iff hparse).mp (answers_of_indexAll h p hp)
  · intro h
    exact ⟨_, result_indexAll fun p hp => (answers_takeIn_iff hparse).mpr (h p hp)⟩

/-! ## What is written -/

/-- The index of a folder. -/
def folderIndex (d : Disk) (parse : Intake.Parser) (project : Path) (files : List Path)
    (folder : Path) : Output :=
  ⟨folder.child ".fnmap",
    Index.render folder.toString (outlines d parse project files folder)⟩

/-- The index of a file that has an outline. -/
def fileIndex (p : Path) (f : FileOutline) : Output :=
  ⟨namedAfter p.parent f ".fnmap", Index.render p.parent.toString [f]⟩

/-- The paths of the diagrams that are asked for: beside each file, or one for
the project. -/
inductive IsDiagramPath (d : Disk) (parse : Intake.Parser) (project : Path) (files : List Path) :
    Option DiagramMode → Path → Prop
  | perFile {p : Path} (h : p ∈ indexedFiles d parse project files) :
    IsDiagramPath d parse project files (some .perFile)
      (p.parent.child ((Path.ofString (seenFrom d project p)).stem ++ ".mermaid"))
  | project : IsDiagramPath d parse project files (some .project) (project.child ".fnmap.mermaid")

theorem path_of_indexed {p : Path} {f : FileOutline} (h : indexed? d parse project p = some f) :
    f.path = seenFrom d project p := by
  unfold indexed? at h
  split at h
  · split at h
    · cases h
    · cases h
      rfl
  · cases h

theorem mem_outlines {folder : Path} {f : FileOutline} :
    f ∈ outlines d parse project files folder ↔
      ∃ p ∈ members d parse project files folder, indexed? d parse project p = some f :=
  List.mem_filterMap

theorem mem_diagrams {mode : DiagramMode} {o : Output}
    (h : o ∈ allDiagrams mode project (groups d parse project files)) :
    IsDiagramPath d parse project files (some mode) o.path := by
  cases mode with
  | project =>
    rw [List.mem_singleton.mp h]
    exact .project
  | perFile =>
    obtain ⟨g, hg, ho⟩ := List.mem_flatMap.mp h
    obtain ⟨folder, -, rfl⟩ := List.mem_map.mp hg
    obtain ⟨f, hf, hdiagram⟩ := List.mem_filterMap.mp ho
    obtain ⟨text, -, rfl⟩ := Option.map_eq_some_iff.mp hdiagram
    obtain ⟨p, hp, hindexed⟩ := mem_outlines.mp hf
    obtain ⟨hfile, hfolder⟩ := mem_members.mp hp
    rw [namedAfter, path_of_indexed hindexed, ← hfolder]
    exact .perFile hfile

/-- What is written is an index or a diagram. -/
theorem mem_outputs {o : Output} (h : o ∈ outputs d parse project single diagram files) :
    o ∈ allIndexes single (groups d parse project files) ∨
      IsDiagramPath d parse project files diagram o.path := by
  rcases List.mem_append.mp h with h | h
  · exact Or.inl h
  · right
    cases diagram with
    | none => cases h
    | some mode =>
      simp only at h
      split at h
      · cases h
      · exact mem_diagrams h

theorem mem_folderIndexes {o : Output} :
    o ∈ allIndexes false (groups d parse project files) ↔
      ∃ folder ∈ folders d parse project files,
        o = folderIndex d parse project files folder := by
  simp only [allIndexes, groups, List.mem_flatMap, List.mem_map, indexOutputs,
    Bool.false_eq_true, if_false, List.mem_singleton]
  constructor
  · rintro ⟨g, ⟨folder, hfolder, rfl⟩, rfl⟩
    exact ⟨folder, hfolder, rfl⟩
  · rintro ⟨folder, hfolder, rfl⟩
    exact ⟨_, ⟨folder, hfolder, rfl⟩, rfl⟩

theorem mem_fileIndexes {o : Output} :
    o ∈ allIndexes true (groups d parse project files) ↔
      ∃ p ∈ files, ∃ f, indexed? d parse project p = some f ∧ o = fileIndex p f := by
  simp only [allIndexes, groups, List.mem_flatMap, List.mem_map, indexOutputs, if_true]
  constructor
  · rintro ⟨g, ⟨folder, -, rfl⟩, f, hf, rfl⟩
    obtain ⟨p, hp, hindexed⟩ := mem_outlines.mp hf
    obtain ⟨hfile, hfolder⟩ := mem_members.mp hp
    refine ⟨p, (mem_indexedFiles.mp hfile).1, f, hindexed, ?_⟩
    rw [fileIndex, hfolder]
  · rintro ⟨p, hp, f, hindexed, rfl⟩
    have hfile : p ∈ indexedFiles d parse project files :=
      mem_indexedFiles.mpr ⟨hp, by rw [hindexed]; rfl⟩
    exact ⟨_, ⟨p.parent, mem_folders.mpr ⟨p, hfile, rfl⟩, rfl⟩, f,
      mem_outlines.mpr ⟨p, mem_members.mpr ⟨hfile, rfl⟩, hindexed⟩, rfl⟩

/-! ## Where it is written -/

/-- The two suffixes set indexes and diagrams apart. -/
theorem diagram_ne_index (a b : String) : a ++ ".mermaid" ≠ b ++ ".fnmap" := by
  intro h
  have hlast := congrArg (fun s : String => s.toList.getLast?) h
  simp [String.toList_append] at hlast

theorem isStep_append {a b : String} (h : 2 < b.length) : IsStep (a ++ b) := by
  have hne : ∀ c : String, c.length ≤ 2 → a ++ b ≠ c := by
    intro c hc he
    have hlength := String.length_append a b
    rw [he] at hlength
    omega
  exact ⟨hne "" (by decide), hne "." (by decide), hne ".." (by decide)⟩

/-- A file in a folder with a plain path is written there. -/
theorem landing_child (hlinks : Linkless d) {folder : Path} {s : String} {q : Place}
    (hplain : folder.IsPlain) (hs : IsStep s) (h : d.landing (folder.child s) = some q) :
    q = folder.parts ++ [s] := by
  obtain ⟨-, hwalk⟩ := reach_eq_ok.mp (landing_eq_some.mp h).1
  have hstart : d.startOf (folder.child s) = [] := if_pos hplain.isAbsolute
  rw [hstart] at hwalk
  refine (hwalk.direct ?_ fun _ _ _ => hlinks _ _).1
  intro t ht
  rcases List.mem_append.mp ht with ht | ht
  · exact hplain.steps t ht
  · rw [List.mem_singleton.mp ht]
    exact hs

/-- Without links a file has the name that its path says. -/
theorem landing_name (hlinks : Linkless d) {folder : Path} {s : String} {q : Place}
    (hs : IsStep s) (h : d.landing (folder.child s) = some q) : ∃ f, q = f ++ [s] := by
  obtain ⟨-, hwalk⟩ := reach_eq_ok.mp (landing_eq_some.mp h).1
  exact hwalk.last hs hlinks

theorem IsDiagramPath.eq_child {path : Path}
    (h : IsDiagramPath d parse project files diagram path) :
    ∃ (folder : Path) (stem : String), path = folder.child (stem ++ ".mermaid") := by
  cases h with
  | perFile h => exact ⟨_, _, rfl⟩
  | project => exact ⟨project, ".fnmap", rfl⟩

/-- The text at a place is that of a file written there, when all files that are
written there have the same text. -/
theorem entry?_writeAll_of_forall (ho : OpensFiles d) {os : List Output} {o : Output} {q : Place}
    (hmem : o ∈ os) (hq : d.landing o.path = some q)
    (hsame : ∀ o' ∈ os, d.landing o'.path = some q → o'.text = o.text) :
    Disk.entry? (writeAll project d os).1 q = some (.file (.text o.text)) := by
  rw [entry?_writeAll ho]
  cases hlast : lastAt d os q with
  | none => exact absurd hq (lastAt_eq_none.mp hlast o hmem)
  | some last =>
    obtain ⟨hmem', hq'⟩ := landing_of_lastAt hlast
    rw [Option.map_some, hsame last hmem' hq']
    rfl

/-- A place that has changed is one where a file was written. -/
theorem exists_landing_of_changed (ho : OpensFiles d) {os : List Output} {q : Place}
    (h : Disk.entry? (writeAll project d os).1 q ≠ d.entry? q) :
    ∃ o ∈ os, d.landing o.path = some q := by
  by_contra hnone
  apply h
  have hlast : lastAt d os q = none :=
    lastAt_eq_none.mpr fun o hmem hq => hnone ⟨o, hmem, hq⟩
  rw [entry?_writeAll ho, hlast]
  rfl

/-! ## By folder -/

/-- The path is the plain path of some path. -/
def IsResolved (d : Disk) (p : Path) : Prop := ∃ asked, d.resolve asked = .ok p

/-- What a run leaves that writes one index for each folder. -/
structure IndexedByFolder (d : Disk) (parse : Intake.Parser) (project : Path)
    (diagram : Option DiagramMode) (files : List Path) (after : Disk) (counts : Counts) :
    Prop where
  analysed : counts.analysed = files.countP (isAnalysed d parse)
  counted : counts.analysed + counts.failed = files.length
  /-- The folder of each file to be indexed has the index of its files. -/
  written : ∀ folder ∈ folders d parse project files,
    after.entry? (folder.parts ++ [".fnmap"]) =
      some (.file (.text (folderIndex d parse project files folder).text))
  /-- The files to be indexed are dealt out to the folders. -/
  dealt : ((folders d parse project files).flatMap (members d parse project files)).Perm
    (indexedFiles d parse project files)
  once : (folders d parse project files).Nodup ∧ (indexedFiles d parse project files).Nodup
  /-- Without files that are not to be indexed all is written as before. -/
  isolated : ∀ fewer, fewer.Sublist files →
    (∀ p ∈ indexedFiles d parse project files, p ∈ fewer) →
    outputs d parse project false diagram fewer = outputs d parse project false diagram files ∧
      ∃ counts', (indexAll d parse project false diagram fewer).result = .ok (after, counts')
  /-- Nothing else has changed. -/
  frame : ∀ q, after.entry? q ≠ d.entry? q →
    (∃ folder ∈ folders d parse project files, q = folder.parts ++ [".fnmap"]) ∨
      ∃ path, IsDiagramPath d parse project files diagram path ∧ d.landing path = some q
  cwd : after.cwd = d.cwd

theorem perm_members :
    ((folders d parse project files).flatMap (members d parse project files)).Perm
      (indexedFiles d parse project files) := by
  have hall : (indexedFiles d parse project files).filter
      (fun p => p.parent ∈ folders d parse project files) = indexedFiles d parse project files := by
    apply List.filter_eq_self.mpr
    intro p hp
    simpa using mem_folders.mpr ⟨p, hp, rfl⟩
  have hperm := perm_flatMap_filter Path.parent (indexedFiles d parse project files)
    (nodup_distinct ((indexedFiles d parse project files).map Path.parent))
  exact hperm.trans (.of_eq hall)

/-- What is written is known from the files to be indexed. -/
theorem outputs_congr {files' : List Path}
    (h : indexedFiles d parse project files = indexedFiles d parse project files') :
    outputs d parse project single diagram files
      = outputs d parse project single diagram files' := by
  have hmembers : members d parse project files = members d parse project files' := by
    funext folder
    rw [members, members, h]
  have hgroups : groups d parse project files = groups d parse project files' := by
    simp only [groups, folders, outlines, hmembers, h]
  unfold outputs
  rw [hgroups]

theorem indexedFiles_of_sublist {fewer : List Path} (hdistinct : files.Nodup)
    (hsub : fewer.Sublist files) (hkeep : ∀ p ∈ indexedFiles d parse project files, p ∈ fewer) :
    indexedFiles d parse project fewer = indexedFiles d parse project files := by
  have hsub' : (indexedFiles d parse project fewer).Sublist (indexedFiles d parse project files) :=
    hsub.filter _
  refine hsub'.eq_of_length_le ?_
  refine (hdistinct.filter _).length_le_of_subset fun p hp => ?_
  exact mem_indexedFiles.mpr ⟨hkeep p hp, (mem_indexedFiles.mp hp).2⟩

section

variable (hd : Sound d) (hlinks : Linkless d) (htargets : ∀ p ∈ files, IsResolved d p)
include hd hlinks htargets

/-- The folders of the files have plain paths. -/
theorem isPlain_of_mem_folders {folder : Path} (h : folder ∈ folders d parse project files) :
    folder.IsPlain := by
  obtain ⟨p, hp, rfl⟩ := mem_folders.mp h
  obtain ⟨asked, hasked⟩ := htargets p (mem_indexedFiles.mp hp).1
  have hplain := hlinks.isPlain_of_resolve hd hasked
  exact ⟨hplain.anchor, fun s hs => hplain.steps s (List.dropLast_subset _ hs)⟩

theorem landing_folderIndex {folder : Path} {q : Place}
    (h : folder ∈ folders d parse project files)
    (hq : d.landing (folderIndex d parse project files folder).path = some q) :
    q = folder.parts ++ [".fnmap"] := by
  have hplain := isPlain_of_mem_folders hd hlinks htargets h
  exact landing_child hlinks hplain ⟨by decide, by decide, by decide⟩ hq

/-- No other file is written where the index of a folder is. -/
theorem text_of_landing_index {folder : Path} {o : Output}
    (h : folder ∈ folders d parse project files)
    (ho : o ∈ outputs d parse project false diagram files)
    (hq : d.landing o.path = some (folder.parts ++ [".fnmap"])) :
    o.text = (folderIndex d parse project files folder).text := by
  rcases mem_outputs ho with hindex | hdiagram
  · obtain ⟨folder', hfolder', rfl⟩ := mem_folderIndexes.mp hindex
    have hplace := landing_folderIndex hd hlinks htargets hfolder' hq
    have hparts : folder.parts = folder'.parts := (List.append_singleton_inj.mp hplace).1
    have hplain := isPlain_of_mem_folders hd hlinks htargets h
    have hplain' := isPlain_of_mem_folders hd hlinks htargets hfolder'
    rw [hplain.eq_ofPlace, hplain'.eq_ofPlace, hparts]
  · obtain ⟨folder', stem, hpath⟩ := hdiagram.eq_child
    rw [hpath] at hq
    obtain ⟨f, hf⟩ := landing_name hlinks (isStep_append (by decide)) hq
    exact absurd (List.append_singleton_inj.mp hf).2.symm (diagram_ne_index stem "")

end

/-- One index for each folder: a run comes to its end exactly when all of its files
can be asked about. Then nothing is lost, files that have no outline leave no
trace, and nothing else changes. -/
theorem indexedByFolder_indexAll (hd : Sound d) (hlinks : Linkless d) (hparse : WellParsed parse)
    (hdistinct : files.Nodup) (htargets : ∀ p ∈ files, IsResolved d p)
    (hwrites : AllWritten d (outputs d parse project false diagram files)) :
    (Answers (indexAll d parse project false diagram files).result ↔ ∀ p ∈ files, Askable d p) ∧
    ∀ after counts,
      (indexAll d parse project false diagram files).result = .ok (after, counts) →
      IndexedByFolder d parse project diagram files after counts := by
  refine ⟨answers_indexAll_iff hparse, fun after counts hrun => ?_⟩
  have hopens : OpensFiles d := hd.opensFiles
  have hanswers := answers_of_indexAll hrun
  rw [result_indexAll hanswers] at hrun
  obtain ⟨rfl, rfl⟩ := Prod.mk.inj (Except.ok.inj hrun)
  constructor
  case analysed => rfl
  case counted =>
    rw [List.length_eq_countP_add_countP (isAnalysed d parse)]
    simp
  case written =>
    intro folder hfolder
    have hmem : folderIndex d parse project files folder
        ∈ outputs d parse project false diagram files :=
      List.mem_append_left _ (mem_folderIndexes.mpr ⟨folder, hfolder, rfl⟩)
    obtain ⟨q, hq⟩ :=
      Option.isSome_iff_exists.mp ((allWritten_iff hopens _).mp hwrites _ hmem)
    have hplace := landing_folderIndex hd hlinks htargets hfolder hq
    subst hplace
    -- what is written there last is this index, for nothing else is written there
    exact entry?_writeAll_of_forall hopens hmem hq fun o ho ho' =>
      text_of_landing_index hd hlinks htargets hfolder ho ho'
  case dealt => exact perm_members
  case once => exact ⟨nodup_distinct _, hdistinct.filter _⟩
  case isolated =>
    intro fewer hsub hkeep
    -- both runs write the same, and start from the same disk
    have hsame : outputs d parse project false diagram fewer
        = outputs d parse project false diagram files :=
      outputs_congr (indexedFiles_of_sublist hdistinct hsub hkeep)
    have hrun : (indexAll d parse project false diagram fewer).result = _ :=
      result_indexAll fun p hp => hanswers p (hsub.subset hp)
    rw [hsame] at hrun
    exact ⟨hsame, _, hrun⟩
  case frame =>
    intro q hq
    obtain ⟨o, ho, hland⟩ := exists_landing_of_changed hopens hq
    rcases mem_outputs ho with hindex | hdiagram
    · obtain ⟨folder, hfolder, rfl⟩ := mem_folderIndexes.mp hindex
      exact Or.inl ⟨folder, hfolder, landing_folderIndex hd hlinks htargets hfolder hland⟩
    · exact Or.inr ⟨o.path, hdiagram, hland⟩
  case cwd => exact (sameWays_writeAll hopens _).cwd.symm

def smallCode : String := "function f()\x7b\x7d"

def smallTree : SyntaxTree Span :=
  construct .program none 0 14 [
    construct .functionDeclaration none 0 14 [
      construct .identifier (some .name) 9 10 [],
      construct (.other "statement_block") (some .body) 12 14 []]]

/-- A parser that knows two sources, one of which has a defect. It finds nothing
in any other. -/
def smallParser : Intake.Parser := fun _ code =>
  if code = smallCode then smallTree
  else if code = brokenCode then brokenTree
  else TreeFile.emptyTree

theorem wellParsed_smallParser : WellParsed smallParser := by
  intro language code
  unfold smallParser
  split
  · next h =>
    subst h
    exact ⟨by decide +kernel, by decide +kernel, by decide +kernel, by decide⟩
  split
  · next h =>
    subst h
    exact ⟨by decide +kernel, by decide +kernel, by decide +kernel, by decide⟩
  · have hroot : ∀ t ∈ TreeFile.emptyTree.preorder, t = TreeFile.emptyTree := by
      intro t ht
      simpa [TreeFile.emptyTree, SyntaxTree.preorder, SyntaxTree.preorderAll] using ht
    refine ⟨?_, ?_, ?_, by decide⟩
    · intro t ht
      rw [hroot t ht]
      exact String.Pos.Raw.isValid_zero
    · intro t ht
      rw [hroot t ht]
      exact String.Pos.Raw.isValid_zero
    · intro t ht hkind
      rw [hroot t ht] at hkind
      cases hkind

/-- Two folders with sources, one of them with a defect, one without callables, and
one that cannot be read. -/
def shelf : Disk :=
  ⟨["p"], ⟨[(["p"], .folder), (["q"], .folder),
    (["p", "a.js"], .file (.text smallCode)), (["p", "b.js"], .file (.text brokenCode)),
    (["p", "c.js"], .file (.text "")), (["q", "e.ts"], .file (.text smallCode)),
    (["q", "f.ts"], .file (.text smallCode))]⟩, { hidden := [["q", "f.ts"]] }⟩

/-- The sources of both folders, in no order, and one that is missing. -/
def shelfFiles : List Path :=
  [.ofPlace ["p", "b.js"], .ofPlace ["q", "e.ts"], .ofPlace ["p", "c.js"],
    .ofPlace ["p", "d.js"], .ofPlace ["q", "f.ts"], .ofPlace ["p", "a.js"]]

theorem askable_shelf : ∀ p ∈ shelfFiles, Askable shelf p := by
  have hfound : ∀ p ∈ shelfFiles, (shelf.find p).toOption.isSome := by decide +kernel
  intro p hp
  have hp' := hfound p hp
  cases hfind : shelf.find p with
  | ok e => exact ⟨e, hfind⟩
  | error t =>
    rw [hfind] at hp'
    cases hp'

theorem indexedByFolder_shelf :
    (Sound shelf ∧ Linkless shelf ∧ WellParsed smallParser ∧ shelfFiles.Nodup ∧
      (∀ p ∈ shelfFiles, IsResolved shelf p) ∧
      AllWritten shelf (outputs shelf smallParser (.ofPlace []) false (some .perFile) shelfFiles)) ∧
    folders shelf smallParser (.ofPlace []) shelfFiles = [.ofPlace ["q"], .ofPlace ["p"]] ∧
    ∃ after counts,
      (indexAll shelf smallParser (.ofPlace []) false (some .perFile) shelfFiles).result
        = .ok (after, counts) ∧
      IndexedByFolder shelf smallParser (.ofPlace []) (some .perFile) shelfFiles after counts := by
  have hd : Sound shelf := by decide +kernel
  have hlinks : Linkless shelf := linkless_of_entries (by simp [shelf])
  have hdistinct : shelfFiles.Nodup := by decide
  have htargets : ∀ p ∈ shelfFiles, IsResolved shelf p := by
    have hplain : ∀ p ∈ shelfFiles, shelf.resolve p = .ok p := by decide +kernel
    exact fun p hp => ⟨p, hplain p hp⟩
  have hwrites : AllWritten shelf
      (outputs shelf smallParser (.ofPlace []) false (some .perFile) shelfFiles) :=
    (allWritten_iff hd.opensFiles _).mpr (by decide +kernel)
  obtain ⟨hanswers, hindexed⟩ :=
    indexedByFolder_indexAll hd hlinks wellParsed_smallParser hdistinct htargets hwrites
  obtain ⟨⟨after, counts⟩, hrun⟩ := hanswers.mpr askable_shelf
  exact ⟨⟨hd, hlinks, wellParsed_smallParser, hdistinct, htargets, hwrites⟩, by decide +kernel,
    after, counts, hrun, hindexed after counts hrun⟩

/-! ### A name that is too long -/

theorem takeIn_of_find {p : Path} {t : Trouble} (h : d.find p = .error t) :
    Intake.takeIn d parse p = .error (.trouble t) := by
  have hchecked : Intake.checkPath d p = .error t := by
    rw [Intake.checkPath, h]
    rfl
  refine bind_eq_error.mpr (Or.inl ?_)
  rw [hchecked]
  rfl

theorem indexed?_of_find {p : Path} {t : Trouble} (h : d.find p = .error t) :
    indexed? d parse project p = none := by
  unfold indexed?
  rw [takeIn_of_find h]

/-- A file that cannot be asked about ends the run. -/
theorem result_indexAll_of_find (before : List Path) {after : List Path} {p : Path} {t : Trouble}
    (hparse : WellParsed parse) (hbefore : ∀ q ∈ before, Askable d q) (hp : d.find p = .error t) :
    (indexAll d parse project single diagram (before ++ p :: after)).result
      = .error (.trouble t) := by
  have hfirst : Answers (before.mapM fun q => (analyseOne d parse project q).result) := by
    refine Answers.mapM fun q hq => ?_
    obtain ⟨r, hr⟩ := (answers_takeIn_iff hparse).mpr (hbefore q hq)
    rw [result_analyseOne, hr]
    exact ⟨_, rfl⟩
  have hfails : (analyseOne d parse project p).result = .error (.trouble t) := by
    rw [result_analyseOne, takeIn_of_find hp]
    rfl
  obtain ⟨analysed, hanalysed⟩ := hfirst
  have hall : ((before ++ p :: after).mapM (analyseOne d parse project)).result
      = .error (.trouble t) := by
    rw [Report.result_mapM, List.mapM_append, hanalysed, ok_bind, List.mapM_cons, hfails]
    rfl
  rw [indexAll, Report.result_bind, Report.result_note, ok_bind, Report.result_bind, hall,
    error_bind]

section

variable {s : String} (hs : IsStep s) (hlong : nameLimit < s.utf8ByteSize)
  (hcheck : checkPath (.ofPlace [s]) = .ok ()) (hin : d.mayEnter [])
include hs hlong hcheck hin

theorem stat_longName : d.stat (.ofPlace [s]) = .error .nameTooLong := by
  obtain ⟨through, heq⟩ := followLinks_eq_follow d false linkLimit
  have hfollow : follow d false through [] [s] = .error .nameTooLong := by
    rw [follow, if_neg hs.ne_empty, if_neg (by simp [hin]), if_neg hs.ne_dot, if_neg hs.ne_up,
      if_neg (by simp), if_pos hlong]
  have hlocate : d.locate (.ofPlace [s]) = .error .nameTooLong := by
    rw [locate, reach, hcheck, ok_bind, heq]
    exact hfollow
  rw [stat, hlocate, error_bind]

/-- The path to a name that is too long is plain. -/
theorem resolve_longName (he : d.entry? [s] = none) :
    d.resolve (.ofPlace [s]) = .ok (.ofPlace [s]) := by
  have hplace : d.placeOf (.ofPlace [s]) = [s] :=
    Path.lexical_eq (p := .ofPlace [s]) rfl (by simpa [Path.ofPlace] using hs) _
  have hask : d.linkAt (Path.child ⟨"/", []⟩ s) = .ok none := by
    refine linkAt_eq_none (p := .ofPlace [s]) (by simp [hcheck]) fun t => ?_
    rw [hplace, he]
    simp
  have hread : readLinks d nestingLimit [] ⟨"/", []⟩ [s] = .ok ⟨true, .ofPlace [s], []⟩ := by
    have hnesting : nestingLimit = 979 + 1 := rfl
    rw [hnesting, readLinks, readSteps, if_neg hs.not_stay, if_neg hs.ne_up]
    simp only [hask]
    rfl
  refine resolve_eq_ok.mpr ⟨?_, ?_⟩
  · show (readLinks d nestingLimit [] ⟨"/", []⟩ [s] >>= _) = _
    rw [hread, ok_bind]
    simp only [hplace]
    rfl
  · rw [stat_longName hs hlong hcheck hin]
    simp

end

theorem checkPath_top {s : String} (hnull : '\x00' ∉ ("/" ++ s).toList)
    (hsize : s.utf8ByteSize < pathLimit) : checkPath (.ofPlace [s]) = .ok () := by
  have htext : (Path.ofPlace [s]).toString = "/" ++ s := by
    rw [Path.toString_of_isAbsolute rfl, Path.ofPlace, String.intercalate_singleton]
  have hslash : "/".utf8ByteSize = 1 := by decide
  refine checkPath_eq_ok.mpr ⟨by rwa [htext], ?_⟩
  rw [htext, String.utf8ByteSize_append, hslash]
  omega

/-- The name of a source, as long as one likes. -/
def sourceName (n : Nat) : String := String.ofList (List.replicate n 'a') ++ ".js"

theorem null_notMem_sourceName (n : Nat) : '\x00' ∉ ("/" ++ sourceName n).toList := by
  simp only [sourceName, String.toList_append, String.toList_ofList, List.mem_append,
    List.mem_replicate, not_or]
  exact ⟨by decide, fun h => absurd h.2 (by decide), by decide⟩

/-- The name of a source that no file can have. -/
def endlessName : String := sourceName 300

/-- One file with a name that is too long to be asked about ends the run, and
nothing is written for the others. -/
theorem longName_ends_run :
    (∀ p ∈ [Path.ofPlace ["p", "a.js"], .ofPlace [endlessName]], IsResolved shelf p) ∧
      (indexed? shelf smallParser (.ofPlace []) (.ofPlace ["p", "a.js"])).isSome ∧
      AllWritten shelf (outputs shelf smallParser (.ofPlace []) false none
        [.ofPlace ["p", "a.js"], .ofPlace [endlessName]]) ∧
      (indexAll shelf smallParser (.ofPlace []) false none
        [.ofPlace ["p", "a.js"], .ofPlace [endlessName]]).result
          = .error (.trouble .nameTooLong) := by
  have hd : Sound shelf := by decide +kernel
  have hsize : endlessName.utf8ByteSize = 303 := by decide +kernel
  have hne : ∀ t : String, t.utf8ByteSize < 303 → endlessName ≠ t := by
    rintro t ht rfl
    omega
  have hstep : IsStep endlessName := ⟨hne _ (by decide), hne _ (by decide), hne _ (by decide)⟩
  have hlong : nameLimit < endlessName.utf8ByteSize := Nat.lt_of_lt_of_eq (by decide) hsize.symm
  have hcheck : checkPath (.ofPlace [endlessName]) = .ok () :=
    checkPath_top (null_notMem_sourceName 300) (hsize ▸ by decide)
  have hentry : shelf.entry? [endlessName] = none := by
    refine Option.not_isSome_iff_eq_none.mp fun hsome => ?_
    have hkey := (mem_keys_iff (by simp)).mpr hsome
    simp [shelf, Table.keys, hne "p" (by decide), hne "q" (by decide)] at hkey
  have hfind : shelf.find (.ofPlace [endlessName]) = .error .nameTooLong :=
    find_eq_error.mpr ⟨Or.inl rfl, stat_longName hstep hlong hcheck rfl⟩
  have hsame : indexedFiles shelf smallParser (.ofPlace [])
      [.ofPlace ["p", "a.js"], .ofPlace [endlessName]]
        = indexedFiles shelf smallParser (.ofPlace []) [.ofPlace ["p", "a.js"]] := by
    have hnone : indexed? shelf smallParser (.ofPlace []) (.ofPlace [endlessName]) = none :=
      indexed?_of_find hfind
    simp [indexedFiles, List.filter_cons, hnone]
  refine ⟨?_, by decide +kernel, ?_, ?_⟩
  · have hfirst : shelf.resolve (.ofPlace ["p", "a.js"]) = .ok (.ofPlace ["p", "a.js"]) := by
      decide +kernel
    exact List.forall_mem_cons.mpr ⟨⟨_, hfirst⟩, List.forall_mem_singleton.mpr
      ⟨_, resolve_longName hstep hlong hcheck rfl hentry⟩⟩
  · have hwrites : AllWritten shelf (outputs shelf smallParser (.ofPlace []) false none
        [.ofPlace ["p", "a.js"]]) := (allWritten_iff hd.opensFiles _).mpr (by decide +kernel)
    exact (outputs_congr hsame).symm ▸ hwrites
  · exact result_indexAll_of_find [.ofPlace ["p", "a.js"]] wellParsed_smallParser
      (List.forall_mem_singleton.mpr (askable_shelf _ (by decide))) hfind

/-! ## By file -/

/-- A file of a run and the outline with which it is indexed. -/
def IsIndexed (d : Disk) (parse : Intake.Parser) (project : Path) (files : List Path) (p : Path)
    (f : FileOutline) : Prop :=
  p ∈ files ∧ indexed? d parse project p = some f

/-- The index of a file can be opened beside it. -/
def HasIndex (after : Disk) (p : Path) (f : FileOutline) : Prop :=
  after.find (fileIndex p f).path = .ok (some (.file (.text (fileIndex p f).text)))

instance (after : Disk) (p : Path) (f : FileOutline) : Decidable (HasIndex after p f) :=
  inferInstanceAs (Decidable (_ = _))

/-- No diagram is written where the index of a file is. Only a link could lead
one there. -/
def DiagramsApart (d : Disk) (parse : Intake.Parser) (project : Path)
    (diagram : Option DiagramMode) (files : List Path) : Prop :=
  ∀ path, IsDiagramPath d parse project files diagram path →
    ∀ p f, IsIndexed d parse project files p f →
      ∀ q, d.landing (fileIndex p f).path = some q → d.landing path ≠ some q

theorem diagramsApart_of_linkless (hlinks : Linkless d) :
    DiagramsApart d parse project diagram files := by
  intro path hpath p f _ q hindex hdiagram
  obtain ⟨folder, stem, rfl⟩ := hpath.eq_child
  obtain ⟨k, hk⟩ := landing_name hlinks (isStep_append (by decide)) hdiagram
  obtain ⟨k', hk'⟩ := landing_name hlinks (isStep_append (by decide)) hindex
  rw [hk] at hk'
  exact diagram_ne_index _ _ (List.append_singleton_inj.mp hk').2

/-- Each index is kept exactly when files whose indexes are written at one place
have the same index. -/
theorem kept_iff_indexAll (hd : Sound d) (hparse : WellParsed parse)
    (hasked : ∀ p ∈ files, ∃ e, d.find p = .ok e)
    (hwrites : AllWritten d (outputs d parse project true diagram files))
    (hdiagrams : DiagramsApart d parse project diagram files) :
    ∃ after counts, (indexAll d parse project true diagram files).result = .ok (after, counts) ∧
      ((∀ p f, IsIndexed d parse project files p f → HasIndex after p f) ↔
        ∀ p f q g, IsIndexed d parse project files p f → IsIndexed d parse project files q g →
          d.landing (fileIndex p f).path = d.landing (fileIndex q g).path →
          (fileIndex p f).text = (fileIndex q g).text) := by
  have hopens : OpensFiles d := hd.opensFiles
  have hways : SameWays d (writeAll project d (outputs d parse project true diagram files)).1 :=
    sameWays_writeAll hopens _
  have hmem : ∀ p f, IsIndexed d parse project files p f →
      fileIndex p f ∈ outputs d parse project true diagram files := fun p f h =>
    List.mem_append_left _ (mem_fileIndexes.mpr ⟨p, h.1, f, h.2, rfl⟩)
  have hplace : ∀ p f, IsIndexed d parse project files p f →
      ∃ place, d.landing (fileIndex p f).path = some place := fun p f h =>
    Option.isSome_iff_exists.mp ((allWritten_iff hopens _).mp hwrites _ (hmem p f h))
  refine ⟨_, _, result_indexAll fun p hp => (answers_takeIn_iff hparse).mpr (hasked p hp), ?_⟩
  constructor
  · intro hkept p f q g hp hq hsame
    obtain ⟨place, hland⟩ := hplace p f hp
    have hfirst := (find_eq_some_of_landing hways hland).mp (hkept p f hp)
    have hsecond := (find_eq_some_of_landing hways (hsame ▸ hland)).mp (hkept q g hq)
    rw [hfirst] at hsecond
    simpa using hsecond
  · intro hsame p f hp
    obtain ⟨place, hland⟩ := hplace p f hp
    refine (find_eq_some_of_landing hways hland).mpr ?_
    refine entry?_writeAll_of_forall hopens (hmem p f hp) hland fun o ho hland' => ?_
    rcases mem_outputs ho with hindex | hdiagram
    · obtain ⟨q, hq, g, hg, rfl⟩ := mem_fileIndexes.mp hindex
      exact hsame q g p f ⟨hq, hg⟩ hp (hland'.trans hland.symm)
    · exact absurd hland' (hdiagrams o.path hdiagram p f hp place hland)

theorem kept_indexAll_shelf :
    (Sound shelf ∧ WellParsed smallParser ∧ (∀ p ∈ shelfFiles, ∃ e, shelf.find p = .ok e) ∧
      AllWritten shelf (outputs shelf smallParser (.ofPlace []) true (some .project) shelfFiles) ∧
      DiagramsApart shelf smallParser (.ofPlace []) (some .project) shelfFiles) ∧
    ∃ after counts,
      (indexAll shelf smallParser (.ofPlace []) true (some .project) shelfFiles).result
        = .ok (after, counts) ∧
      ∀ p f, IsIndexed shelf smallParser (.ofPlace []) shelfFiles p f → HasIndex after p f := by
  have hd : Sound shelf := by decide +kernel
  have hwrites : AllWritten shelf
      (outputs shelf smallParser (.ofPlace []) true (some .project) shelfFiles) :=
    (allWritten_iff hd.opensFiles _).mpr (by decide +kernel)
  have hdiagrams : DiagramsApart shelf smallParser (.ofPlace []) (some .project) shelfFiles :=
    diagramsApart_of_linkless (linkless_of_entries (by simp [shelf]))
  have hapart : ∀ p ∈ shelfFiles, ∀ q ∈ shelfFiles,
      ∀ f ∈ (indexed? shelf smallParser (.ofPlace []) p).toList,
      ∀ g ∈ (indexed? shelf smallParser (.ofPlace []) q).toList,
      shelf.landing (fileIndex p f).path = shelf.landing (fileIndex q g).path →
      (fileIndex p f).text = (fileIndex q g).text := by decide +kernel
  obtain ⟨after, counts, hrun, hiff⟩ :=
    kept_iff_indexAll hd wellParsed_smallParser askable_shelf hwrites hdiagrams
  refine ⟨⟨hd, wellParsed_smallParser, askable_shelf, hwrites, hdiagrams⟩,
    after, counts, hrun, hiff.mpr ?_⟩
  rintro p f q g ⟨hp, hf⟩ ⟨hq, hg⟩
  exact hapart p hp q hq f (by simp [hf]) g (by simp [hg])

/-- A folder with two sources that differ in their suffix only. -/
def twins : Disk :=
  ⟨[], ⟨[(["a.js"], .file (.text smallCode)), (["a.ts"], .file (.text smallCode))]⟩, {}⟩

/-- Of two files with one stem only the last has its index. -/
theorem sameStem_loses_index :
    ∃ f g after,
      indexed? twins smallParser (.ofPlace []) (.ofPlace ["a.js"]) = some f ∧
      indexed? twins smallParser (.ofPlace []) (.ofPlace ["a.ts"]) = some g ∧
      (indexAll twins smallParser (.ofPlace []) true none
        [.ofPlace ["a.js"], .ofPlace ["a.ts"]]).result = .ok (after, ⟨2, 0⟩) ∧
      after.entries.keys = [["a.js"], ["a.ts"], ["a.fnmap"]] ∧
      HasIndex after (.ofPlace ["a.ts"]) g ∧ ¬HasIndex after (.ofPlace ["a.js"]) f := by
  let outline : Outline := { functions := [⟨"f", "", 1, 1, ""⟩] }
  let g : FileOutline := ⟨"a.ts", outline⟩
  refine ⟨⟨"a.js", outline⟩, g,
    twins.put ["a.fnmap"] (.file (.text (fileIndex (.ofPlace ["a.ts"]) g).text)), ?_⟩
  decide +kernel

end CodeAtlas.Command
