import CodeAtlas.Command.Run
import CodeAtlas.Proofs.Command.Index
import CodeAtlas.Proofs.Scan
/-
  The files that a run is given.

  They are asked for by name, found in folders, or stand in folders where
  something has changed. Each of them was asked about before, by a path that is
  not shorter than its plain path and leads through the same folders, so on a
  disk without links the plain path can be asked about, too (`Asked`). So no run
  ends on a file that it has chosen itself (`askable_of_selectTargets`).
-/

namespace CodeAtlas.Command

open CodeAtlas.Disk CodeAtlas.Scan

variable {w : World} {d : Disk} {project : Path} {files : List Path} {words : Words}

/-- The plain path of a path can be asked about. -/
def Asked (d : Disk) (p : Path) : Prop := ∀ q, d.resolve p = .ok q → Askable d q

theorem exists_of_isSourceFile {p : Path} (h : isSourceFile d p = .ok true) :
    ∃ c, d.find p = .ok (some (.file c)) := by
  unfold isSourceFile file? at h
  cases hfind : d.find p with
  | error t =>
    rw [hfind] at h
    cases h
  | ok e =>
    rw [hfind] at h
    rcases e with _ | _ | c | t
    · cases h
    · cases h
    · exact ⟨c, rfl⟩
    · cases h

section

variable (hd : Sound d) (hlinks : Linkless d)
include hd hlinks

theorem asked_of_find {p : Path} {e : Entry} (habs : p.isAbsolute)
    (hparts : ∀ s ∈ p.parts, s ≠ "") (hfind : d.find p = .ok (some e)) : Asked d p :=
  fun _ hq => ⟨_, hlinks.find_of_resolve hd habs hparts hfind hq⟩

/-! ## By name -/

theorem asked_of_requested (hproject : project.IsPlain)
    (h : (requested d project words).result = .ok files) : ∀ p ∈ files, Asked d p := by
  intro p hp
  unfold requested at h
  rw [Report.result_filterM] at h
  obtain ⟨hmem, hthere⟩ := mem_of_filterM h hp
  obtain ⟨n, -, rfl⟩ := List.mem_map.mp hmem
  have hthere := Report.asked_eq_ok.mp hthere
  obtain ⟨e, hfind⟩ := pathExists_eq_true.mp hthere
  have hparts : ∀ s ∈ (Path.ofString n).parts, s ≠ "" := fun s hs =>
    (Path.isComponent_of_mem_components hs).ne_empty
  refine asked_of_find hd hlinks ?_ ?_ hfind
  · unfold Path.join
    split
    · next habs => exact habs
    · exact hproject.isAbsolute
  · unfold Path.join
    split
    · exact hparts
    · intro s hs
      rcases List.mem_append.mp hs with hs | hs
      · exact (hproject.steps s hs).ne_empty
      · exact hparts s hs

/-! ## In folders -/

theorem asked_of_found (hproject : project.IsPlain) {region : Place → Prop} {f : String}
    (h : Found d region project f) : Asked d (project.join (Path.ofString f)) := by
  obtain ⟨k, name, c, -, he, hfind, rfl⟩ := h
  have hnames : ∀ s ∈ k ++ [name], IsName s := fun s hs => hd.isName (by rw [he]; rfl) hs
  obtain ⟨parts, hjoin, hparts, hlexical⟩ := Path.lexical_join_relativeTo
    (p := .ofPlace (k ++ [name])) rfl hnames hproject.isAbsolute hproject.steps (.ofPlace d.cwd)
  intro q hq
  rw [hjoin] at hq
  have hplain : q = .ofPlace (parts.foldl Path.stepLexical []) :=
    hlinks.eq_of_resolve (p := ⟨project.anchor, parts⟩) hproject.isAbsolute hparts hq
  rw [hplain, hlexical]
  exact ⟨_, hfind⟩

theorem asked_of_scanFrom (hproject : project.IsPlain) {dir : Path} (hdir : dir.IsPlain)
    {excluded : List String} (h : (scanFrom d project dir excluded).result = .ok files) :
    ∀ p ∈ files, Asked d p := by
  unfold scanFrom at h
  rw [Report.result_bind] at h
  obtain ⟨s, hs, h⟩ := bind_eq_ok.mp h
  have hs := Report.asked_eq_ok.mp hs
  cases h
  intro p hp
  obtain ⟨f, hf, rfl⟩ := List.mem_map.mp hp
  have hregion : IsRegion d excluded fun _ => True :=
    ⟨fun _ _ => trivial, fun _ => hlinks _ _⟩
  have hplace : ∀ f, d.locate (.ofPlace dir.parts) = .ok f → f = dir.parts := by
    intro f hf
    obtain ⟨-, hwalk⟩ := reach_eq_ok.mp hf
    exact (hwalk.direct hdir.steps fun _ _ _ => hlinks _ _).1
  rw [hdir.eq_ofPlace] at hs
  exact asked_of_found hd hlinks hproject (found_of_folder hd hregion trivial hplace hs f hf)

/-! ## Where something has changed -/

theorem asked_of_single {dir : Path} {warnings : List String}
    (h : Scan.single d dir = .ok (files, warnings)) : ∀ p ∈ files, Asked d p := by
  obtain ⟨real, hreal, hlist⟩ := map_eq_ok.mp h
  have hplain := hlinks.isPlain_of_resolve hd hreal
  intro p hp
  unfold listSources at hlist
  simp only at hlist
  split at hlist
  · next listed hlisted =>
    cases hlist
    obtain ⟨names, hnames, hfilter⟩ := bind_eq_ok.mp hlisted
    obtain ⟨hmem, hsource⟩ := mem_of_filterM hfilter hp
    obtain ⟨name, hname, rfl⟩ := List.mem_map.mp hmem
    obtain ⟨f, -, -, -, rfl⟩ := names_eq_ok.mp (mapError_eq_ok.mp hnames)
    have hstep : IsStep name := (hd.isName (mem_namesAt.mp hname) (by simp)).isStep
    obtain ⟨c, hfile⟩ := exists_of_isSourceFile hsource
    refine asked_of_find hd hlinks hplain.isAbsolute (fun s hs => ?_) hfile
    rcases List.mem_append.mp hs with hs | hs
    · exact (hplain.steps s hs).ne_empty
    · exact List.mem_singleton.mp hs ▸ hstep.ne_empty
  · cases hlist
    cases hp

theorem asked_of_changedFiles (hw : w.disk = d) {stagedOnly : Bool}
    (h : (changedFiles w project stagedOnly).result = .ok files) : ∀ p ∈ files, Asked d p := by
  unfold changedFiles at h
  rw [Report.result_bind, hw] at h
  obtain ⟨changed, -, h⟩ := bind_eq_ok.mp h
  split at h
  · cases h
    simp
  rw [Report.result_bind] at h
  obtain ⟨parts, hparts, h⟩ := bind_eq_ok.mp h
  cases h
  rw [Report.result_mapM] at hparts
  intro p hp
  obtain ⟨dir, -, part, hpart, hp⟩ := (mem_flatten_mapM hparts).mp hp
  rw [Report.result_bind] at hpart
  obtain ⟨⟨listed, warnings⟩, hlisted, hpart⟩ := bind_eq_ok.mp hpart
  cases hpart
  exact asked_of_single hd hlinks (Report.resolved_eq_ok.mp hlisted) p hp

/-! ## By the configuration -/

theorem asked_of_filesUnder (hproject : project.IsPlain) {s : Settings} {dir : Text.Points}
    (h : (filesUnder d project s dir).result = .ok files) : ∀ p ∈ files, Asked d p := by
  unfold filesUnder at h
  rw [Report.result_bind] at h
  obtain ⟨target, htarget, h⟩ := bind_eq_ok.mp h
  cases target with
  | none =>
    cases h
    simp
  | some target =>
    have hplain : target.IsPlain := by
      unfold settingsFolder? at htarget
      split at htarget
      · rw [Report.result_bind] at htarget
        obtain ⟨real, hreal, htarget⟩ := bind_eq_ok.mp htarget
        cases htarget
        exact hlinks.isPlain_of_resolve hd (Report.resolved_eq_ok.mp hreal)
      · split at htarget
        · cases htarget
        · cases htarget
    simp only [Report.result_bind] at h
    obtain ⟨there, -, h⟩ := bind_eq_ok.mp h
    split at h
    · rw [Report.result_bind] at h
      obtain ⟨excluded, -, h⟩ := bind_eq_ok.mp h
      exact asked_of_scanFrom hd hlinks hproject hplain h
    · cases h
      simp

theorem asked_of_configuredFiles {decode : Settings.Decoder} (hproject : project.IsPlain)
    (h : (configuredFiles d decode project).result = .ok (some files)) :
    ∀ p ∈ files, Asked d p := by
  unfold configuredFiles at h
  rw [Report.result_bind] at h
  obtain ⟨loaded, -, h⟩ := bind_eq_ok.mp h
  cases loaded with
  | none => cases h
  | some loaded =>
    simp only [Report.result_bind, Report.result_say] at h
    obtain ⟨-, -, h⟩ := bind_eq_ok.mp h
    obtain ⟨s, -, h⟩ := bind_eq_ok.mp h
    split at h
    · cases h
    rw [Report.result_bind] at h
    obtain ⟨dirs, -, h⟩ := bind_eq_ok.mp h
    rw [Report.result_bind] at h
    obtain ⟨parts, hparts, h⟩ := bind_eq_ok.mp h
    cases h
    rw [Report.result_mapM] at hparts
    intro p hp
    obtain ⟨dir, -, part, hpart, hp⟩ := (mem_flatten_mapM hparts).mp hp
    exact asked_of_filesUnder hd hlinks hproject hpart p hp

end

/-- The files of every run can be asked about. -/
theorem askable_of_selectTargets (hd : Sound w.disk) (hlinks : Linkless w.disk)
    (hproject : project.IsPlain) {targets : Targets}
    (h : (selectTargets w project words).result = .ok (some targets)) {p q : Path}
    (hp : p ∈ targets.files) (hq : w.disk.resolve p = .ok q) : Askable w.disk q := by
  suffices hasked : Asked w.disk p from hasked q hq
  unfold selectTargets at h
  rw [Report.result_bind] at h
  obtain ⟨byName, hname, h⟩ := bind_eq_ok.mp h
  split at h
  · rw [Report.result_bind] at h
    obtain ⟨files, hfiles, h⟩ := bind_eq_ok.mp h
    cases h
    exact asked_of_changedFiles hd hlinks rfl hfiles p hp
  split at h
  · cases h
    exact asked_of_requested hd hlinks hproject hname p hp
  split at h
  · rw [Report.result_bind] at h
    obtain ⟨root, hroot, h⟩ := bind_eq_ok.mp h
    rw [Report.result_bind] at h
    obtain ⟨files, hfiles, h⟩ := bind_eq_ok.mp h
    cases h
    have hplain := hlinks.isPlain_of_resolve hd (Report.resolved_eq_ok.mp hroot)
    exact asked_of_scanFrom hd hlinks hproject hplain hfiles p hp
  · rw [Report.result_bind] at h
    obtain ⟨found, hfound, h⟩ := bind_eq_ok.mp h
    cases found with
    | none => cases h
    | some files =>
      cases h
      exact asked_of_configuredFiles hd hlinks hproject hfound p hp

end CodeAtlas.Command
