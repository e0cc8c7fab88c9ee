import CodeAtlas.Proofs.Disk.Opens
import CodeAtlas.Scan
/-
  What a scan does, one thing after the other.

  A scan lists the entries of a folder, or finds a source file in one. `Run` has
  one rule for each case of the functions that scan, and every scan that gives
  an answer is such a run (`exists_run_below`). What holds of all scans is
  proved by induction on runs:

    1. `Run.marks`: plain names stay marked, and a folder is listed only when its
       plain name was not marked before. So folders that are listed differ in
       their plain names (`Run.listed_apart`).
    2. `Run.parent`: a file is found in a folder that is listed. The names in a
       folder differ, so files that are found differ in the plain name of their
       folder or in their own name (`Run.found_apart`).
    3. `Run.way`: a folder is listed at the end of a way down without excluded
       names.
-/

namespace CodeAtlas.Scan

open CodeAtlas.Disk

/-! ## Runs -/

/-- What a scan is at: a folder, or entries of a folder. -/
inductive Task where
  | folder (dir : Path)
  | entries (dir : Path) (names : List String)

/-- The folder that a scan is at. -/
def Task.dir : Task → Path
  | .folder dir => dir
  | .entries dir _ => dir

/-- What a scan does: it lists the entries of a folder, or finds a source file
in one. -/
inductive Event where
  | listed (dir : Path)
  | found (dir : Path) (name : String)

/-- The folders that are listed. -/
def listedIn (events : List Event) : List Path :=
  events.filterMap fun
    | .listed dir => some dir
    | .found _ _ => none

/-- The source files that are found, each by a folder and a name in it. -/
def foundIn (events : List Event) : List (Path × String) :=
  events.filterMap fun
    | .listed _ => none
    | .found dir name => some (dir, name)

section

variable (dir : Path) (name : String) (events events' : List Event)

@[simp] theorem listedIn_listed : listedIn (.listed dir :: events) = dir :: listedIn events := rfl

@[simp] theorem listedIn_found : listedIn (.found dir name :: events) = listedIn events := rfl

@[simp] theorem listedIn_append :
    listedIn (events ++ events') = listedIn events ++ listedIn events' :=
  List.filterMap_append

@[simp] theorem foundIn_listed : foundIn (.listed dir :: events) = foundIn events := rfl

@[simp] theorem foundIn_found :
    foundIn (.found dir name :: events) = (dir, name) :: foundIn events := rfl

@[simp] theorem foundIn_append :
    foundIn (events ++ events') = foundIn events ++ foundIn events' :=
  List.filterMap_append

end

/-- The entry is no source file, and no folder that the scan goes into. -/
structure PassedOver (d : Disk) (excluded : List String) (dir : Path) (name : String) : Prop where
  file : ∀ c, d.find (dir.child name) = .ok (some (.file c)) → ¬ Language.isSource (dir.child name)
  folder : d.find (dir.child name) = .ok (some .folder) →
    name ∈ excluded ∨ ∃ t, d.realPath (dir.child name) = .error t

/-- A scan of so many levels, with the plain names that are marked before and
after it. -/
inductive Run (d : Disk) (excluded : List String) :
    Nat → Task → List Path → List Event → List Path → Prop
  | missing {n : Nat} {dir : Path} {v : List Path} (h : d.pathExists dir = .ok false) :
    Run d excluded n (.folder dir) v [] v
  | tooDeep {dir : Path} {v : List Path} (h : d.pathExists dir = .ok true) :
    Run d excluded 0 (.folder dir) v [] v
  | again {n : Nat} {dir real : Path} {v : List Path} (hreal : d.realPath dir = .ok real)
    (hv : real ∈ v) : Run d excluded (n + 1) (.folder dir) v [] v
  | unlisted {n : Nat} {dir real : Path} {v : List Path} {t : Trouble}
    (hreal : d.realPath dir = .ok real) (hv : real ∉ v) (hnames : d.names dir = .error t) :
    Run d excluded (n + 1) (.folder dir) v [] (real :: v)
  | lists {n : Nat} {dir real : Path} {v v' : List Path} {names : List String}
    {events : List Event} (hreal : d.realPath dir = .ok real) (hv : real ∉ v)
    (hnames : d.names dir = .ok names)
    (h : Run d excluded n (.entries dir names) (real :: v) events v') :
    Run d excluded (n + 1) (.folder dir) v (.listed dir :: events) v'
  | done {n : Nat} {dir : Path} {v : List Path} : Run d excluded n (.entries dir []) v [] v
  | passes {n : Nat} {dir : Path} {v v' : List Path} {name : String} {names : List String}
    {events : List Event} (hpass : PassedOver d excluded dir name)
    (h : Run d excluded n (.entries dir names) v events v') :
    Run d excluded n (.entries dir (name :: names)) v events v'
  | finds {n : Nat} {dir : Path} {v v' : List Path} {name : String} {names : List String}
    {events : List Event} {c : Content} (hfile : d.find (dir.child name) = .ok (some (.file c)))
    (hsource : Language.isSource (dir.child name))
    (h : Run d excluded n (.entries dir names) v events v') :
    Run d excluded n (.entries dir (name :: names)) v (.found dir name :: events) v'
  | enters {n : Nat} {dir : Path} {v v' v'' : List Path} {name : String} {names : List String}
    {events events' : List Event} (hfolder : d.find (dir.child name) = .ok (some .folder))
    (hname : name ∉ excluded) (hdown : Run d excluded n (.folder (dir.child name)) v events v')
    (h : Run d excluded n (.entries dir names) v' events' v'') :
    Run d excluded n (.entries dir (name :: names)) v (events ++ events') v''

variable {d : Disk} {aim : Aim} {dir p : Path} {name : String} {excluded : List String} {n : Nat}
  {task : Task} {v v' : List Path} {events : List Event} {s s' : State}

/-! ## Scans are runs -/

/-- A file that is found, as it is shown. -/
def shown (d : Disk) (base : Path) (f : Path × String) : String :=
  Path.relativeTo (.ofPlace d.cwd) (f.1.child f.2) base

/-- What the scan of one entry does. -/
theorem entry_cases (d : Disk) (aim : Aim) (down : Path → State → Except Trouble State)
    (dir : Path) (s : State) (name : String) :
    (((∀ c, d.find (dir.child name) = .ok (some (.file c)) →
          ¬ Language.isSource (dir.child name)) ∧
        (d.find (dir.child name) = .ok (some .folder) →
          name ∈ aim.excluded ∨ ∃ t, down (dir.child name) s = .error t) ∧
        (entry d aim down dir s name).visited = s.visited ∧
        (entry d aim down dir s name).files = s.files) ∨
      (∃ c, d.find (dir.child name) = .ok (some (.file c)) ∧
        Language.isSource (dir.child name) ∧
        entry d aim down dir s name
          = { s with files := s.files ++ [shown d aim.base (dir, name)] }) ∨
      (d.find (dir.child name) = .ok (some .folder) ∧ name ∉ aim.excluded ∧
        down (dir.child name) s = .ok (entry d aim down dir s name))) := by
  unfold entry
  dsimp only
  cases hfind : d.find (dir.child name) with
  | error t => exact Or.inl ⟨by simp, by simp, rfl, rfl⟩
  | ok e =>
    rw [ok_bind]
    match e with
    | none => exact Or.inl ⟨by simp, by simp, rfl, rfl⟩
    | some (.link target) => exact Or.inl ⟨by simp, by simp, rfl, rfl⟩
    | some (.file c) =>
      by_cases hsource : Language.isSource (dir.child name)
      · simp only [if_pos hsource]
        exact Or.inr (Or.inl ⟨c, rfl, hsource, rfl⟩)
      · simp only [if_neg hsource]
        exact Or.inl ⟨fun _ _ => hsource, by simp, rfl, rfl⟩
    | some .folder =>
      by_cases hskip : aim.excluded.contains name
      · simp only [if_pos hskip]
        exact Or.inl ⟨by simp, fun _ => Or.inl (by simpa using hskip), rfl, rfl⟩
      · simp only [if_neg hskip]
        cases hdown : down (dir.child name) s with
        | error t => exact Or.inl ⟨by simp, fun _ => Or.inr ⟨t, rfl⟩, rfl, rfl⟩
        | ok s' => exact Or.inr (Or.inr ⟨trivial, by simpa using hskip, rfl⟩)

/-- A source file is added to what was found. -/
theorem entry_of_file {down : Path → State → Except Trouble State} {c : Content}
    (hfile : d.find (dir.child name) = .ok (some (.file c)))
    (hsource : Language.isSource (dir.child name)) :
    entry d aim down dir s name
      = { s with files := s.files ++ [shown d aim.base (dir, name)] } := by
  rcases entry_cases d aim down dir s name with ⟨hno, -⟩ | ⟨c, -, -, hentry⟩ | ⟨hfolder, -⟩
  · exact absurd hsource (hno c hfile)
  · exact hentry
  · rw [hfile] at hfolder
    cases hfolder

/-- A folder that is not excluded is scanned. -/
theorem entry_of_folder {down : Path → State → Except Trouble State}
    (hfolder : d.find (dir.child name) = .ok (some .folder)) (hname : name ∉ aim.excluded)
    (hdown : down (dir.child name) s = .ok s') : entry d aim down dir s name = s' := by
  rcases entry_cases d aim down dir s name with ⟨-, hno, -⟩ | ⟨c, hfile, -⟩ | ⟨-, -, hentry⟩
  · rcases hno hfolder with hskip | ⟨t, hfails⟩
    · exact absurd hskip hname
    · rw [hdown] at hfails
      cases hfails
  · rw [hfolder] at hfile
    cases hfile
  · rw [hdown] at hentry
    exact (Except.ok.inj hentry).symm

/-- A folder that is new is marked, and then its entries are scanned. -/
theorem below_of_new {real : Path} {names : List String} (hthere : d.pathExists dir = .ok true)
    (hreal : d.realPath dir = .ok real) (hnew : real ∉ s.visited)
    (hnames : d.names dir = .ok names) :
    below d aim (n + 1) dir s = .ok (names.foldl (entry d aim (below d aim n) dir)
      { s with visited := real :: s.visited }) := by
  refine bind_eq_ok.mpr ⟨true, hthere, bind_eq_ok.mpr ⟨real, hreal, ?_⟩⟩
  rw [if_neg (by simpa using hnew)]
  simp only [hnames]
  rfl

/-- A scan of a folder fails only when the folder cannot be asked about or its
plain name cannot be given. -/
theorem below_eq_error {t : Trouble} (h : below d aim n dir s = .error t) :
    d.find dir = .error t ∨ d.pathExists dir = .ok true ∧ d.realPath dir = .error t := by
  cases n with
  | zero =>
    rcases bind_eq_error.mp h with hthere | ⟨there, -, h⟩
    · exact Or.inl (pathExists_eq_error.mp hthere)
    · cases there <;> cases h
  | succ n =>
    rcases bind_eq_error.mp h with hthere | ⟨there, hthere, h⟩
    · exact Or.inl (pathExists_eq_error.mp hthere)
    cases there with
    | false => cases h
    | true =>
      rcases bind_eq_error.mp h with hreal | ⟨real, -, h⟩
      · exact Or.inr ⟨hthere, hreal⟩
      split at h
      · cases h
      · cases hnames : d.names dir <;> simp only [hnames] at h <;> cases h

/-- The scan of entries is a run, if the scans of folders below are. -/
theorem exists_run_entries {down : Path → State → Except Trouble State}
    (hdown : ∀ {p s s'}, down p s = .ok s' →
      ∃ events, Run d aim.excluded n (.folder p) s.visited events s'.visited ∧
        s'.files = s.files ++ (foundIn events).map (shown d aim.base))
    (hfails : ∀ {p s t}, down p s = .error t → d.find p = .ok (some .folder) →
      d.realPath p = .error t)
    (names : List String) (s : State) :
    ∃ events, Run d aim.excluded n (.entries dir names) s.visited events
        (names.foldl (entry d aim down dir) s).visited ∧
      (names.foldl (entry d aim down dir) s).files
        = s.files ++ (foundIn events).map (shown d aim.base) := by
  induction names generalizing s with
  | nil => exact ⟨[], .done, by simp [foundIn]⟩
  | cons name names ih =>
    obtain ⟨events, hrun, hfiles⟩ := ih (entry d aim down dir s name)
    rw [List.foldl_cons]
    rcases entry_cases d aim down dir s name with ⟨hfile, hfolder, hsame, hsamefiles⟩ |
      ⟨c, hfind, hsource, hentry⟩ | ⟨hfind, hname, hentry⟩
    · refine ⟨events, .passes ⟨hfile, fun hfind => ?_⟩ (hsame ▸ hrun), by rw [hfiles, hsamefiles]⟩
      exact (hfolder hfind).imp id fun ⟨t, ht⟩ => ⟨t, hfails ht hfind⟩
    · rw [hentry] at hrun hfiles ⊢
      exact ⟨_, .finds hfind hsource hrun, by rw [hfiles]; simp⟩
    · obtain ⟨events₁, hrun₁, hfiles₁⟩ := hdown hentry
      exact ⟨_, .enters hfind hname hrun₁ hrun, by rw [hfiles, hfiles₁]; simp⟩

/-- Every scan of a folder that gives an answer is a run. -/
theorem exists_run_below (h : below d aim n dir s = .ok s') :
    ∃ events, Run d aim.excluded n (.folder dir) s.visited events s'.visited ∧
      s'.files = s.files ++ (foundIn events).map (shown d aim.base) := by
  induction n generalizing dir s s' with
  | zero =>
    obtain ⟨there, hthere, h⟩ := bind_eq_ok.mp h
    cases there with
    | false =>
      cases h
      exact ⟨[], .missing hthere, by simp [State.warn, foundIn]⟩
    | true =>
      cases h
      exact ⟨[], .tooDeep hthere, by simp [State.warn, foundIn]⟩
  | succ n ih =>
    obtain ⟨there, hthere, h⟩ := bind_eq_ok.mp h
    cases there with
    | false =>
      cases h
      exact ⟨[], .missing hthere, by simp [State.warn, foundIn]⟩
    | true =>
      obtain ⟨real, hreal, h⟩ := bind_eq_ok.mp h
      split at h
      · next hagain =>
        cases h
        exact ⟨[], .again hreal (by simpa using hagain), by simp [State.warn, foundIn]⟩
      next hnew =>
      have hnew : real ∉ s.visited := by simpa using hnew
      cases hnames : d.names dir with
      | error t =>
        simp only [hnames] at h
        cases h
        exact ⟨[], .unlisted hreal hnew hnames, by simp [State.warn, foundIn]⟩
      | ok names =>
        simp only [hnames] at h
        cases h
        -- a folder that is there fails only for want of a plain name
        have hfails : ∀ {p s t}, below d aim n p s = .error t → d.find p = .ok (some .folder) →
            d.realPath p = .error t := by
          intro p s t hfails hfind
          rcases below_eq_error hfails with herror | ⟨-, herror⟩
          · rw [hfind] at herror
            cases herror
          · exact herror
        obtain ⟨events, hrun, hfiles⟩ := exists_run_entries ih hfails names
          { s with visited := real :: s.visited }
        exact ⟨_, .lists hreal hnew hnames hrun, hfiles⟩

/-! ## What all runs keep -/

namespace Run

/-- Plain names stay marked; those of folders that are listed were not marked
before, and are marked after. -/
theorem marks (h : Run d excluded n task v events v') :
    (∀ x ∈ v, x ∈ v') ∧
      ∀ p ∈ listedIn events, ∃ real, d.realPath p = .ok real ∧ real ∉ v ∧ real ∈ v' := by
  induction h with
  | missing | tooDeep | again | done => exact ⟨fun _ hx => hx, by simp [listedIn]⟩
  | unlisted => exact ⟨fun _ hx => List.mem_cons_of_mem _ hx, by simp [listedIn]⟩
  | @lists n dir real v v' names events hreal hv _ _ ih =>
    obtain ⟨hkept, hlisted⟩ := ih
    refine ⟨fun x hx => hkept x (List.mem_cons_of_mem _ hx), fun p hp => ?_⟩
    rcases List.mem_cons.mp hp with rfl | hp
    · exact ⟨real, hreal, hv, hkept real List.mem_cons_self⟩
    · obtain ⟨other, hother, hnew, hafter⟩ := hlisted p hp
      exact ⟨other, hother, fun hmem => hnew (List.mem_cons_of_mem _ hmem), hafter⟩
  | passes _ _ ih => exact ih
  | finds _ _ _ ih => exact ih
  | enters _ _ _ _ ihdown ih =>
    -- the rest starts with what the scan of the folder has marked
    refine ⟨fun x hx => ih.1 x (ihdown.1 x hx), fun p hp => ?_⟩
    rw [listedIn_append, List.mem_append] at hp
    rcases hp with hp | hp
    · obtain ⟨real, hreal, hnew, hafter⟩ := ihdown.2 p hp
      exact ⟨real, hreal, hnew, ih.1 real hafter⟩
    · obtain ⟨real, hreal, hnew, hafter⟩ := ih.2 p hp
      exact ⟨real, hreal, fun hmem => hnew (ihdown.1 real hmem), hafter⟩

/-- A folder that is listed has another plain name than one that is marked. -/
theorem ne_of_marked (h : Run d excluded n task v events v') {q real : Path}
    (hp : d.realPath p = .ok real) (hreal : real ∈ v) (hq : q ∈ listedIn events) :
    d.realPath p ≠ d.realPath q := by
  obtain ⟨other, hother, hnew, -⟩ := h.marks.2 q hq
  rw [hp, hother]
  rintro ⟨rfl⟩
  exact hnew hreal

/-- Folders that are listed differ in their plain names. -/
theorem listed_apart (h : Run d excluded n task v events v') :
    (listedIn events).Pairwise fun p q => d.realPath p ≠ d.realPath q := by
  induction h with
  | missing | tooDeep | again | done | unlisted => exact .nil
  | lists hreal _ _ hrun ih =>
    exact .cons (fun q hq => hrun.ne_of_marked hreal List.mem_cons_self hq) ih
  | passes _ _ ih => exact ih
  | finds _ _ _ ih => exact ih
  | enters _ _ hdown hrun ihdown ih =>
    rw [listedIn_append, List.pairwise_append]
    refine ⟨ihdown, ih, fun p hp q hq => ?_⟩
    obtain ⟨real, hreal, -, hafter⟩ := hdown.marks.2 p hp
    exact hrun.ne_of_marked hreal hafter hq

/-- A file is found in a folder that is listed, or among the entries that the
run is at. -/
theorem parent (h : Run d excluded n task v events v') : ∀ f ∈ foundIn events,
    f.1 ∈ listedIn events ∨ ∃ names, task = .entries f.1 names ∧ f.2 ∈ names := by
  induction h with
  | missing | tooDeep | again | done | unlisted => simp [foundIn]
  | lists _ _ _ _ ih =>
    intro f hf
    rcases ih f hf with hlisted | ⟨names, htask, -⟩
    · exact Or.inl (List.mem_cons_of_mem _ hlisted)
    · cases htask
      exact Or.inl List.mem_cons_self
  | passes _ _ ih =>
    intro f hf
    refine (ih f hf).imp id fun ⟨names, htask, hname⟩ => ?_
    cases htask
    exact ⟨_, rfl, List.mem_cons_of_mem _ hname⟩
  | finds _ _ _ ih =>
    intro f hf
    rcases List.mem_cons.mp hf with rfl | hf
    · exact Or.inr ⟨_, rfl, List.mem_cons_self⟩
    · refine (ih f hf).imp id fun ⟨names, htask, hname⟩ => ?_
      cases htask
      exact ⟨_, rfl, List.mem_cons_of_mem _ hname⟩
  | enters _ _ _ _ ihdown ih =>
    intro f hf
    rw [foundIn_append, List.mem_append] at hf
    rw [listedIn_append, List.mem_append]
    rcases hf with hf | hf
    · rcases ihdown f hf with hlisted | ⟨names, htask, -⟩
      · exact Or.inl (Or.inl hlisted)
      · cases htask
    · refine (ih f hf).imp Or.inr fun ⟨names, htask, hname⟩ => ?_
      cases htask
      exact ⟨_, rfl, List.mem_cons_of_mem _ hname⟩

end Run

/-- Entries that a scan can be at: distinct names of a folder whose plain name
is marked. -/
def Task.Ready (d : Disk) (v : List Path) : Task → Prop
  | .folder _ => True
  | .entries dir names => names.Nodup ∧ (∀ name ∈ names, IsName name) ∧
    ∃ real ∈ v, d.realPath dir = .ok real

/-- The entries of a folder that was just marked. -/
theorem ready_entries (hd : Sound d) {real : Path} {names : List String}
    (hreal : d.realPath dir = .ok real) (hnames : d.names dir = .ok names) :
    (Task.entries dir names).Ready d (real :: v) := by
  obtain ⟨k, -, -, -, rfl⟩ := names_eq_ok.mp hnames
  refine ⟨nodup_namesAt hd.keys k, fun name hname => ?_, real, List.mem_cons_self, hreal⟩
  exact hd.isName (mem_namesAt.mp hname) (by simp)

/-- The entries that are left after one. -/
theorem Task.Ready.tail {names : List String} (h : (Task.entries dir (name :: names)).Ready d v)
    (hv : ∀ x ∈ v, x ∈ v') : (Task.entries dir names).Ready d v' := by
  obtain ⟨hnodup, hnames, real, hmem, hreal⟩ := h
  exact ⟨(List.nodup_cons.mp hnodup).2, (List.forall_mem_cons.mp hnames).2, real, hv real hmem,
    hreal⟩

namespace Run

/-- Files that are found differ in the plain name of their folder, or in their
name. -/
theorem found_apart (h : Run d excluded n task v events v') (hd : Sound d)
    (hready : task.Ready d v) :
    (foundIn events).Pairwise fun f g => f.2 = g.2 → d.realPath f.1 ≠ d.realPath g.1 := by
  induction h with
  | missing | tooDeep | again | done | unlisted => exact .nil
  | lists hreal _ hnames _ ih => exact ih (ready_entries hd hreal hnames)
  | passes _ _ ih => exact ih (hready.tail fun _ hx => hx)
  | finds _ _ hrun ih =>
    refine .cons (fun g hg hname => ?_) (ih (hready.tail fun _ hx => hx))
    -- what is found later lies in a folder that is listed later, or in this one
    obtain ⟨hnodup, -, real, hmem, hreal⟩ := hready
    rcases hrun.parent g hg with hlisted | ⟨names, htask, hin⟩
    · exact hrun.ne_of_marked hreal hmem hlisted
    · cases htask
      have hname : _ = g.2 := hname
      rw [← hname] at hin
      exact absurd hin (List.nodup_cons.mp hnodup).1
  | enters _ _ hdown hrun ihdown ih =>
    rw [foundIn_append, List.pairwise_append]
    refine ⟨ihdown trivial, ih (hready.tail hdown.marks.1), fun f hf g hg _ => ?_⟩
    have hfolder : f.1 ∈ listedIn _ := (hdown.parent f hf).resolve_right fun ⟨_, htask, _⟩ => by
      cases htask
    -- `f` lies below the entry, `g` in a folder that is listed later or in this one
    rcases hrun.parent g hg with hlisted | ⟨names, htask, -⟩
    · obtain ⟨real, hreal, -, hafter⟩ := hdown.marks.2 f.1 hfolder
      exact hrun.ne_of_marked hreal hafter hlisted
    · cases htask
      obtain ⟨-, -, real, hmem, hreal⟩ := hready
      exact (hdown.ne_of_marked hreal hmem hfolder).symm

/-- A folder is listed at the end of a way down without excluded names. -/
theorem way (h : Run d excluded n task v events v') (hd : Sound d) (hready : task.Ready d v) :
    ∀ p ∈ listedIn events, ∃ way, p = task.dir.join ⟨"", way⟩ ∧
      ∀ s ∈ way, IsName s ∧ s ∉ excluded := by
  induction h with
  | missing | tooDeep | again | done | unlisted => simp [listedIn]
  | @lists n dir real v v' names events hreal _ hnames _ ih =>
    intro p hp
    rcases List.mem_cons.mp hp with rfl | hp
    · exact ⟨[], by simp [Task.dir, Path.join_relative], by simp⟩
    · exact ih (ready_entries hd hreal hnames) p hp
  | passes _ _ ih => exact ih (hready.tail fun _ hx => hx)
  | finds _ _ _ ih => exact ih (hready.tail fun _ hx => hx)
  | enters _ hname hdown _ ihdown ih =>
    intro p hp
    rw [listedIn_append, List.mem_append] at hp
    rcases hp with hp | hp
    · obtain ⟨way, rfl, hway⟩ := ihdown trivial p hp
      refine ⟨_ :: way, (Path.join_cons _ _ way).symm, ?_⟩
      exact List.forall_mem_cons.mpr ⟨⟨hready.2.1 _ List.mem_cons_self, hname⟩, hway⟩
    · exact ih (hready.tail hdown.marks.1) p hp

/-- What is listed can be opened as a folder. -/
theorem folder_of_listed (h : Run d excluded n task v events v') : ∀ p ∈ listedIn events,
    ∃ k, d.locate p = .ok k ∧ d.entry? k = some .folder := by
  induction h with
  | missing | tooDeep | again | done | unlisted => simp [listedIn]
  | lists _ _ hnames _ ih =>
    intro p hp
    rcases List.mem_cons.mp hp with rfl | hp
    · obtain ⟨k, hk, hfolder, -⟩ := names_eq_ok.mp hnames
      exact ⟨k, hk, hfolder⟩
    · exact ih p hp
  | passes _ _ ih => exact ih
  | finds _ _ _ ih => exact ih
  | enters _ _ _ _ ihdown ih =>
    intro p hp
    rw [listedIn_append, List.mem_append] at hp
    exact hp.elim (ihdown p) (ih p)

/-- What is found is a source file, under a name of its folder. -/
theorem source_of_found (h : Run d excluded n task v events v') (hd : Sound d)
    (hready : task.Ready d v) : ∀ f ∈ foundIn events, IsName f.2 ∧
      (∃ c, d.find (f.1.child f.2) = .ok (some (.file c))) ∧
      Language.isSource (f.1.child f.2) := by
  induction h with
  | missing | tooDeep | again | done | unlisted => simp [foundIn]
  | lists hreal _ hnames _ ih => exact ih (ready_entries hd hreal hnames)
  | passes _ _ ih => exact ih (hready.tail fun _ hx => hx)
  | finds hfile hsource _ ih =>
    intro f hf
    rcases List.mem_cons.mp hf with rfl | hf
    · exact ⟨hready.2.1 _ List.mem_cons_self, ⟨_, hfile⟩, hsource⟩
    · exact ih (hready.tail fun _ hx => hx) f hf
  | enters _ _ hdown _ ihdown ih =>
    intro f hf
    rw [foundIn_append, List.mem_append] at hf
    exact hf.elim (ihdown trivial f) (ih (hready.tail hdown.marks.1) f)

end Run

end CodeAtlas.Scan
