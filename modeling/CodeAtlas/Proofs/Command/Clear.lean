import CodeAtlas.Command.Clear
import CodeAtlas.Proofs.Disk.Tree
import CodeAtlas.Proofs.Report
/-
  What a sweep takes out.

  A sweep goes through everything that opens as a folder, so where it comes to
  is a matter of links. `Entered` are the paths that it can come to, on the disk
  as it was before: taking files out opens no new way.

  What is proved:
    1. `swept_sweepBelow`: at every step all that is gone are entries with a
       generated name in a folder that was entered.
    2. `Entered.inside`: when no link in a folder or below it opens a folder
       outside, every folder that is entered lies inside.
    3. `clear_stays_inside` puts the two together; `link_leads_outside` shows
       that the condition on links is needed.
-/

namespace CodeAtlas.Command

open CodeAtlas.Disk

variable {d : Disk} {dir p : Path} {top : Place} {s : Sweep} {down : Path → Sweep → Sweep}

/-- The paths of the folders that a sweep from `dir` can come to. -/
inductive Entered (d : Disk) (dir : Path) : Path → Prop
  | start : Entered d dir dir
  | down {p : Path} {f : Place} {name : String} (h : Entered d dir p) (hp : d.locate p = .ok f)
    (hname : name ∈ d.namesAt f) (hfolder : d.find (p.child name) = .ok (some .folder))
    (hskip : name ∉ Settings.alwaysSkipped) : Entered d dir (p.child name)

/-- A place where a sweep from `dir` takes something out: the folder is entered,
the name is one that is generated, and it opens a file. -/
def IsSwept (d : Disk) (dir : Path) (q : Place) : Prop :=
  ∃ p f name, Entered d dir p ∧ d.locate p = .ok f ∧ q = f ++ [name] ∧ isOwnOutput name ∧
    ∃ c, d.find (p.child name) = .ok (some (.file c))

/-- What is true of a sweep from `dir` all the way: it has only taken out what it
may. -/
structure Swept (d : Disk) (dir : Path) (s : Sweep) : Prop where
  sub : Subdisk s.disk d
  gone : ∀ q, s.disk.entry? q ≠ d.entry? q → s.disk.entry? q = none ∧ IsSwept d dir q

/-- What a sweep does at one entry: it takes nothing out, it goes down, or it
takes the entry out. -/
theorem sweepEntry_cases (down : Path → Sweep → Sweep) (p : Path) (s : Sweep) (name : String) :
    ((sweepEntry down p s name).disk = s.disk ∧
      (sweepEntry down p s name).removed = s.removed) ∨
    (s.disk.find (p.child name) = .ok (some .folder) ∧ name ∉ Settings.alwaysSkipped ∧
      sweepEntry down p s name = down (p.child name) s) ∨
    ((∃ c, s.disk.find (p.child name) = .ok (some (.file c))) ∧ isOwnOutput name ∧
      s.disk.remove (p.child name) = .ok (sweepEntry down p s name).disk ∧
      (sweepEntry down p s name).removed = s.removed ++ [p.child name]) := by
  unfold sweepEntry
  simp only
  split
  · exact Or.inl ⟨rfl, rfl⟩
  · exact Or.inl ⟨rfl, rfl⟩
  · next hfind =>
    split
    · exact Or.inl ⟨rfl, rfl⟩
    · next hskip => exact Or.inr (Or.inl ⟨hfind, by simpa using hskip, rfl⟩)
  · next c _ hfind =>
    split
    · next hown =>
      split
      · next d' hd' =>
        exact Or.inr (Or.inr ⟨⟨c, hfind⟩, hown, hd', by simp [Sweep.removed, List.filter_append]⟩)
      · exact Or.inl ⟨rfl, by simp [Sweep.removed, List.filter_append]⟩
    · exact Or.inl ⟨rfl, rfl⟩
  · exact Or.inl ⟨rfl, rfl⟩

theorem Swept.of_disk_eq {s' : Sweep} (h : Swept d dir s) (heq : s'.disk = s.disk) :
    Swept d dir s' :=
  ⟨heq ▸ h.sub, heq ▸ h.gone⟩

/-- One entry keeps it. The facts about the folder are those of the disk as it
was before the sweep. -/
theorem swept_sweepEntry (hd : Sound d) (h : Swept d dir s) {f : Place} {name : String}
    (hentered : Entered d dir p) (hp : d.locate p = .ok f) (hname : name ∈ d.namesAt f)
    (hdown : ∀ s, Swept d dir s → Entered d dir (p.child name) →
      Swept d dir (down (p.child name) s)) :
    Swept d dir (sweepEntry down p s name) := by
  rcases sweepEntry_cases down p s name with
    ⟨heq, -⟩ | ⟨hfind, hskip, heq⟩ | ⟨⟨c, hfind⟩, hown, hremove, -⟩
  · exact h.of_disk_eq heq
  · rw [heq]
    exact hdown s h (.down hentered hp hname (find_of_subdisk h.sub hfind) hskip)
  · have hup : name ≠ ".." := (hd.isName (mem_namesAt.mp hname) (by simp)).ne_up
    obtain ⟨-, -, f', hf', hfolder, -, -, -, herase⟩ := (remove_child_eq_ok hup).mp hremove
    -- files that are gone do not change where the folder is
    have hplace : f' = f := by
      have hp' := locate_of_subdisk h.sub hf' (by rw [hfolder]; rfl)
      rw [hp] at hp'
      exact (Except.ok.inj hp').symm
    subst hplace
    have hne : f' ++ [name] ≠ [] := by simp
    refine ⟨?_, fun q hq => ?_⟩
    · rw [herase]
      exact (Subdisk.erase hne).trans h.sub
    · rw [herase, entry?_erase hne] at hq ⊢
      by_cases hhere : q = f' ++ [name]
      · rw [if_pos hhere]
        exact ⟨rfl, p, f', name, hentered, hp, hhere, hown, c, find_of_subdisk h.sub hfind⟩
      · rw [if_neg hhere] at hq ⊢
        exact h.gone q hq

/-- All of a sweep keeps it. -/
theorem swept_sweepBelow (hd : Sound d) (nesting : Nat) (h : Swept d dir s)
    (hentered : Entered d dir p) : Swept d dir (sweepBelow nesting p s) := by
  induction nesting generalizing p s with
  | zero => exact h.of_disk_eq rfl
  | succ nesting ih =>
    rw [sweepBelow]
    cases hnames : s.disk.names p with
    | error t => exact h.of_disk_eq rfl
    | ok names =>
      obtain ⟨f, hf, hfolder, -, rfl⟩ := names_eq_ok.mp hnames
      have hp : d.locate p = .ok f := locate_of_subdisk h.sub hf (by rw [hfolder]; rfl)
      have hall : ∀ name ∈ s.disk.namesAt f, name ∈ d.namesAt f := fun name hname =>
        mem_namesAt.mpr (h.sub.isSome (mem_namesAt.mp hname))
      -- the list of names is that from before the first of them was looked at
      refine List.foldlRecOn (motive := Swept d dir) _ _ h ?_
      intro s hs name hname
      exact swept_sweepEntry hd hs hentered hp (hall name hname) fun s hs he => ih hs he

/-! ## Links that stay inside -/

/-- Every link in a folder at or below `top` that opens a folder opens one at or
below `top`, other than links whose names are passed over. -/
def LinksInside (d : Disk) (top : Place) : Prop :=
  ∀ f name target q, top <+: f → name ∉ Settings.alwaysSkipped →
    d.entry? (f ++ [name]) = some (.link target) →
    followLinks d false linkLimit (linkStart f target) (linkSteps target []) = .ok q →
    d.entry? q = some .folder → top <+: q

/-- One name from a folder inside leads to a folder inside. -/
theorem inside_of_step (hlinks : LinksInside d top) {f q : Place} {name : String}
    (hstep : IsStep name) (hskip : name ∉ Settings.alwaysSkipped) (hf : top <+: f)
    (hwalk : Walk d false q linkLimit f [name]) (hq : d.entry? q = some .folder) : top <+: q := by
  have hbelow : top <+: f ++ [name] := hf.trans (List.prefix_append f [name])
  rcases (hwalk.step_cases hstep).2 with ⟨-, -, rfl⟩ | ⟨-, hwalk⟩ | ⟨target, m, hm, he, hwalk⟩
  · exact hbelow
  · cases hwalk
    exact hbelow
  · have hwalk' := hwalk.transfer (.refl d q) id (show m ≤ linkLimit by omega)
    exact hlinks f name target q hf hskip he (followLinks_eq_ok.mpr hwalk') hq

/-- What is entered is inside. -/
theorem Entered.inside (hd : Sound d) (hlinks : LinksInside d top) (hdir : d.locate dir = .ok top)
    (h : Entered d dir p) :
    ∀ q, d.locate p = .ok q → d.entry? q = some .folder → top <+: q := by
  induction h with
  | start =>
    intro q hq _
    rw [hdir] at hq
    exact Except.ok.inj hq ▸ List.prefix_refl top
  | @down p f name _ hp hname _ hskip ih =>
    intro q hq hfolder
    have hname := mem_namesAt.mp hname
    have hf : d.entry? f = some .folder := by
      have habove := hd.folder_above hname
      rwa [List.dropLast_concat] at habove
    -- the walk to the child comes by the folder, and goes on from there
    obtain ⟨-, hwalk⟩ := reach_eq_ok.mp hp
    obtain ⟨-, hwalk'⟩ := reach_eq_ok.mp hq
    have hstep : Walk d false q linkLimit f [name] :=
      hwalk.after_folder hf (List.cons_ne_nil name []) hwalk'
    exact inside_of_step hlinks (hd.isName hname (by simp)).isStep hskip (ih f hp hf) hstep hfolder

/-! ## Clearing -/

/-- Clearing a folder that is there always gives a sweep of it. -/
theorem result_clear (nesting : Nat) (project : Path) (hdir : d.locate dir = .ok top)
    (hfolder : d.entry? top = some .folder) :
    (clear nesting d project dir).result = .ok (sweepBelow nesting dir ⟨d, [], none⟩) := by
  have hexists : d.pathExists dir = .ok true :=
    pathExists_eq_true.mpr ⟨_, find_eq_some.mpr ⟨top, hdir, hfolder⟩⟩
  unfold clear
  rw [Report.result_bind, Report.asked, hexists]
  rfl

/-- Clearing takes out generated files only, and only below the folder when the
links below it do not lead outside. -/
theorem clear_stays_inside (nesting : Nat) (project : Path) (hd : Sound d)
    (hdir : d.locate dir = .ok top) (hfolder : d.entry? top = some .folder) :
    ∃ s, (clear nesting d project dir).result = .ok s ∧ s.disk.cwd = d.cwd ∧
      ∀ q, s.disk.entry? q ≠ d.entry? q → s.disk.entry? q = none ∧
        ∃ folder name, q = folder ++ [name] ∧ isOwnOutput name ∧
          (LinksInside d top → top <+: folder) := by
  have hswept : Swept d dir (sweepBelow nesting dir ⟨d, [], none⟩) :=
    swept_sweepBelow hd nesting ⟨.refl d, fun q hq => absurd rfl hq⟩ .start
  refine ⟨_, result_clear nesting project hdir hfolder, hswept.sub.cwd, fun q hq => ?_⟩
  obtain ⟨hnone, p, f, name, hentered, hp, rfl, hown, c, hfile⟩ := hswept.gone q hq
  refine ⟨hnone, f, name, rfl, hown, fun hlinks => ?_⟩
  have hsome : (d.entry? (f ++ [name])).isSome := by
    rw [hnone] at hq
    exact Option.isSome_iff_ne_none.mpr (Ne.symm hq)
  have habove := hd.folder_above hsome
  rw [List.dropLast_concat] at habove
  exact hentered.inside hd hlinks hdir f hp habove

/-- A folder with a generated file in it, below that a link back up to it and a
folder in which nothing can be changed, and a generated file beside it. -/
def yard : Disk :=
  ⟨[], ⟨[(["d"], .folder), (["d", "a.fnmap"], .file (.text "a")), (["d", "sub"], .folder),
    (["d", "sub", "up"], .link ".."), (["d", "kept"], .folder),
    (["d", "kept", "c.fnmap"], .file (.text "c")), (["b.fnmap"], .file (.text "b"))]⟩,
    ⟨[], [], [["d", "kept"]]⟩⟩

theorem clear_stays_inside_yard :
    (Sound yard ∧ yard.locate (.ofPlace ["d"]) = .ok ["d"] ∧
      yard.entry? ["d"] = some .folder ∧ LinksInside yard ["d"]) ∧
    ∃ s, (clear 900 yard (.ofPlace []) (.ofPlace ["d"])).result = .ok s ∧
      ∀ q, s.disk.entry? q ≠ yard.entry? q → ["d"] <+: q := by
  have hd : Sound yard := by decide +kernel
  have hdir : yard.locate (.ofPlace ["d"]) = .ok ["d"] := by decide +kernel
  have hlinks : LinksInside yard ["d"] := by
    intro f name target q hf _ he hwalk _
    have hplace : f ++ [name] = ["d", "sub"] ++ ["up"] ∧ target = ".." := by
      simpa [yard] using mem_entries_of_ne_folder he (by simp)
    obtain ⟨hplace, rfl⟩ := hplace
    obtain ⟨rfl, rfl⟩ := List.append_singleton_inj.mp hplace
    have hup : followLinks yard false linkLimit (linkStart ["d", "sub"] "..") (linkSteps ".." [])
        = .ok ["d"] := by decide +kernel
    rw [hup] at hwalk
    exact Except.ok.inj hwalk ▸ List.prefix_refl _
  refine ⟨⟨hd, hdir, rfl, hlinks⟩, ?_⟩
  obtain ⟨s, hs, -, hframe⟩ := clear_stays_inside 900 (.ofPlace []) hd hdir rfl
  refine ⟨s, hs, fun q hq => ?_⟩
  obtain ⟨-, folder, name, rfl, -, hinside⟩ := hframe q hq
  exact (hinside hlinks).trans (List.prefix_append folder [name])

/-- A folder with a link to another, where there is a file with a generated
name. -/
def doorway : Disk :=
  ⟨[], ⟨[(["d"], .folder), (["d", "out"], .link "../other"), (["other"], .folder),
    (["other", "a.fnmap"], .file (.text "keep"))]⟩, {}⟩

/-- Clearing a folder goes through a link and takes out a file that is not below
the folder. -/
theorem link_leads_outside :
    Sound doorway ∧ doorway.entry? ["d"] = some .folder ∧
      doorway.entry? ["other", "a.fnmap"] = some (.file (.text "keep")) ∧
      ∃ s, (clear 900 doorway (.ofPlace []) (.ofPlace ["d"])).result = .ok s ∧
        s.disk.entry? ["other", "a.fnmap"] = none := by
  have hdir : doorway.locate (.ofPlace ["d"]) = .ok ["d"] := by decide +kernel
  refine ⟨by decide +kernel, rfl, rfl, _, result_clear 900 (.ofPlace []) hdir rfl, ?_⟩
  decide +kernel

end CodeAtlas.Command
