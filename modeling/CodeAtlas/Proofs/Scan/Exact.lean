import CodeAtlas.Proofs.Disk.Opens
import CodeAtlas.Scan
/-
  A scan finds exactly the source files below a folder, in order.

  `Sought` says which files these are, each by its way down from the folder:
  source files whose way goes through no excluded and no locked folder and is
  not too deep, and whose path can be asked about. `folder_exact` says that on a
  disk without links a scan finds them all, nothing else, each of them once, and
  in the lexicographic order of their ways. The path limit is needed: a file
  beyond it is missed (`longPath_not_found`).

  One entry of a folder finds what is sought under its own name
  (`exists_finds_entry`). The names of a folder increase, so what several
  entries find can be put together (`Finds.append`), and a folder finds all
  that is sought below it (`exists_finds_below`). No folder is taken for one
  that was listed before, since only places at or below a folder are marked
  while it is scanned (`Marks`).
-/

namespace CodeAtlas.Scan

open CodeAtlas.Disk

variable {d : Disk} {aim : Aim} {dir : Path} {top k way rest : Place} {levels : Nat} {name : String}
  {s s' s'' : State} {excluded heads more : List String} {ways ways' : List Place}

/-! ## What is sought -/

/-- A file that a scan from `dir`, at the place `top`, is to find when it lists
so many levels of folders: the way from `top` down to it. -/
structure Sought (d : Disk) (dir : Path) (top : Place) (excluded : List String) (levels : Nat)
    (way : Place) : Prop where
  below : way ≠ []
  file : ∃ c, d.entry? (top ++ way) = some (.file c)
  source : Language.isSource (.ofPlace (top ++ way))
  kept : ∀ s ∈ way.dropLast, s ∉ excluded
  shallow : way.dropLast.length < levels
  /-- Every folder on the way, from `top` on, can be listed and gone through. -/
  unlocked : ∀ above, above <+: way → above ≠ way →
    d.mayRead (top ++ above) ∧ d.mayEnter (top ++ above)
  /-- The path to the file is one that a system takes. -/
  fits : (dir.join ⟨"", way⟩).toString.utf8ByteSize ≤ pathLimit

theorem isSource_child (p : Path) (k : Place) (name : String) :
    Language.isSource (p.child name) = Language.isSource (.ofPlace (k ++ [name])) := by
  have hname : (p.child name).name = (Path.ofPlace (k ++ [name])).name := by
    simp [Path.name, Path.child, Path.ofPlace]
  rw [Language.isSource, Language.isSource, Path.suffix, Path.suffix, hname]

namespace Sought

theorem isSome (h : Sought d dir k excluded levels way) : (d.entry? (k ++ way)).isSome := by
  obtain ⟨c, hc⟩ := h.file
  rw [hc]
  rfl

/-- What is sought lies under a name of the folder. -/
theorem exists_cons (h : Sought d dir k excluded levels way) (hd : Sound d) :
    ∃ name ∈ d.namesAt k, ∃ rest, way = name :: rest := by
  obtain ⟨name, rest, rfl⟩ := List.exists_cons_of_ne_nil h.below
  refine ⟨name, mem_namesAt.mpr ?_, rest, rfl⟩
  by_cases hrest : rest = []
  · subst hrest
    exact h.isSome
  · have hway : k ++ [name] <+: k ++ name :: rest := ⟨rest, by simp⟩
    rw [hd.folder_of_prefix h.isSome hway (by simpa using Ne.symm hrest)]
    rfl

/-- Nothing is sought below a file. -/
theorem eq_nil_of_file (h : Sought d dir k excluded levels (name :: rest)) (hd : Sound d)
    {c : Content} (hfile : d.entry? (k ++ [name]) = some (.file c)) : rest = [] := by
  by_contra hrest
  have hway : k ++ [name] <+: k ++ name :: rest := ⟨rest, by simp⟩
  have hfolder := hd.folder_of_prefix h.isSome hway (by simpa using Ne.symm hrest)
  rw [hfile] at hfolder
  cases hfolder

theorem ne_nil_of_folder (h : Sought d dir k excluded levels (name :: rest))
    (hfolder : d.entry? (k ++ [name]) = some .folder) : rest ≠ [] := by
  rintro rfl
  obtain ⟨c, hc⟩ := h.file
  rw [hfolder] at hc
  cases hc

/-- The path to what is sought is not shorter than that to the first step. -/
theorem child_fits (h : Sought d dir k excluded levels (name :: rest)) (hd : Sound d) :
    (dir.child name).toString.utf8ByteSize ≤ pathLimit := by
  have hfits := h.fits
  rw [Path.join_cons] at hfits
  refine Nat.le_trans (Path.size_le_of_join fun s hs => ?_) hfits
  exact (hd.isName h.isSome (by simp [hs])).ne_empty

theorem unlocked_top (h : Sought d dir k excluded levels way) : d.mayRead k ∧ d.mayEnter k := by
  have htop := h.unlocked [] List.nil_prefix (Ne.symm h.below)
  rwa [List.append_nil] at htop

end Sought

/-- Below a folder that is not excluded is sought what is sought from there. -/
theorem sought_cons (hread : d.mayRead k) (hin : d.mayEnter k)
    (hfolder : d.entry? (k ++ [name]) = some .folder) (hname : name ∉ excluded) :
    Sought d dir k excluded (levels + 1) (name :: rest) ↔
      Sought d (dir.child name) (k ++ [name]) excluded levels rest := by
  have hplace : k ++ [name] ++ rest = k ++ name :: rest := by simp
  constructor
  · intro h
    have hrest := h.ne_nil_of_folder hfolder
    have hkept := h.kept
    have hshallow := h.shallow
    rw [List.dropLast_cons_of_ne_nil hrest] at hkept hshallow
    refine ⟨hrest, by rw [hplace]; exact h.file, by rw [hplace]; exact h.source, ?_, ?_,
      fun above hpre hne => ?_, ?_⟩
    · exact (List.forall_mem_cons.mp hkept).2
    · rw [List.length_cons] at hshallow
      omega
    · rw [List.append_assoc]
      exact h.unlocked (name :: above) ((List.prefix_cons_inj name).mpr hpre) (by simpa using hne)
    · rw [← Path.join_cons]
      exact h.fits
  · intro h
    have hshallow := h.shallow
    refine ⟨by simp, by rw [← hplace]; exact h.file, by rw [← hplace]; exact h.source, ?_, ?_,
      fun above hpre hne => ?_, ?_⟩
    · rw [List.dropLast_cons_of_ne_nil h.below]
      exact List.forall_mem_cons.mpr ⟨hname, h.kept⟩
    · rw [List.dropLast_cons_of_ne_nil h.below, List.length_cons]
      omega
    · cases above with
      | nil =>
        rw [List.append_nil]
        exact ⟨hread, hin⟩
      | cons x above =>
        obtain ⟨rfl, hbelow⟩ := List.cons_prefix_cons.mp hpre
        have hopen := h.unlocked above hbelow (by simpa using hne)
        rwa [List.append_assoc] at hopen
    · rw [Path.join_cons]
      exact h.fits

/-! ## What a stretch of a scan does -/

/-- A place as it is seen from the base. -/
def seenAs (d : Disk) (base : Path) (k : Place) : String :=
  Path.relativeTo (.ofPlace d.cwd) (.ofPlace k) base

/-- Between two states a scan of the folder at `k` found the ways that are
sought and start with one of `heads`. -/
structure Finds (d : Disk) (aim : Aim) (dir : Path) (k : Place) (levels : Nat)
    (heads : List String) (s s' : State) (ways : List Place) : Prop where
  files : s'.files = s.files ++ ways.map fun way => seenAs d aim.base (k ++ way)
  increasing : ways.Pairwise (· < ·)
  mem_iff : ∀ way, way ∈ ways ↔
    Sought d dir k aim.excluded levels way ∧ ∃ name ∈ heads, ∃ rest, way = name :: rest

theorem Finds.nothing (hfiles : s'.files = s.files)
    (h : ∀ name ∈ heads, ∀ rest, ¬ Sought d dir k aim.excluded levels (name :: rest)) :
    Finds d aim dir k levels heads s s' [] := by
  refine ⟨by rw [hfiles, List.map_nil, List.append_nil], List.Pairwise.nil, fun way => ?_⟩
  simp only [List.not_mem_nil, false_iff, not_and]
  rintro hway ⟨name, hname, rest, rfl⟩
  exact h name hname rest hway

/-- What is found under one name comes before what is found under later
ones. -/
theorem Finds.append (h : Finds d aim dir k levels [name] s s' ways)
    (h' : Finds d aim dir k levels more s' s'' ways') (hmore : ∀ other ∈ more, name < other) :
    Finds d aim dir k levels (name :: more) s s'' (ways ++ ways') := by
  refine ⟨?_, List.pairwise_append.mpr ⟨h.increasing, h'.increasing, ?_⟩, fun way => ?_⟩
  · rw [h'.files, h.files, List.map_append, List.append_assoc]
  · intro way hway way' hway'
    obtain ⟨-, x, hx, rest, rfl⟩ := (h.mem_iff way).mp hway
    obtain ⟨-, y, hy, rest', rfl⟩ := (h'.mem_iff way').mp hway'
    rw [List.mem_singleton.mp hx]
    exact List.Lex.rel (hmore y hy)
  · rw [List.mem_append, h.mem_iff, h'.mem_iff, ← and_or_left]
    simp only [List.mem_cons, List.not_mem_nil, or_false, exists_eq_left, or_and_right, exists_or]

/-- No place at or below `k` is marked yet. -/
def Fresh (s : State) (k : Place) : Prop := ∀ j, k <+: j → .ofPlace j ∉ s.visited

/-- Between two states only places at or below `k` were marked. -/
def Marks (k : Place) (s s' : State) : Prop :=
  ∀ v ∈ s'.visited, v ∈ s.visited ∨ ∃ j, k <+: j ∧ v = .ofPlace j

theorem marks_of_visited_eq (h : s'.visited = s.visited) : Marks k s s' := fun _ hv =>
  Or.inl (h ▸ hv)

theorem Marks.trans (h : Marks k s s') (h' : Marks k s' s'') : Marks k s s'' := by
  intro v hv
  rcases h' v hv with hv | hv
  · exact h v hv
  · exact Or.inr hv

theorem Marks.up (h : Marks (k ++ [name]) s s') : Marks k s s' := by
  intro v hv
  refine (h v hv).imp id fun ⟨j, hj, hvj⟩ => ⟨j, ?_, hvj⟩
  exact (List.prefix_append k [name]).trans hj

/-- What is marked below one name leaves the other names as they are. -/
theorem Marks.fresh (h : Marks (k ++ [name]) s s') {other : String} (hne : other ≠ name)
    (hfresh : Fresh s (k ++ [other])) : Fresh s' (k ++ [other]) := by
  intro j hj hv
  rcases h _ hv with hv | ⟨j', hj', hvj⟩
  · exact hfresh j hj hv
  · have hplace : j = j' := congrArg Path.parts hvj
    subst hplace
    have heq : k ++ [other] = k ++ [name] :=
      (List.prefix_of_prefix_length_le hj hj' (by simp)).eq_of_length (by simp)
    exact hne (List.singleton_inj.mp (List.append_cancel_left heq))

/-! ## One entry -/

/-- How the entry of a folder is seen does not depend on the spelling of the
folder. -/
theorem relativeTo_of_opens (hd : Sound d) (hlinks : Linkless d) (h : Opens d dir k) (base : Path) :
    Path.relativeTo (.ofPlace d.cwd) dir base = seenAs d base k := by
  have hsteps : ∀ s ∈ k, IsStep s := by
    rw [← h.lexical_eq hd hlinks, lexical_eq_foldl hd]
    refine Path.isStep_foldl_stepLexical h.parts fun s hs => ?_
    unfold startOf at hs
    split at hs
    · cases hs
    · exact (hd.isName (by rw [hd.cwd]; rfl) hs).isStep
  have hplace : Path.lexical (.ofPlace d.cwd) (.ofPlace k) = k := Path.lexical_eq rfl hsteps _
  simp only [seenAs, Path.relativeTo, hplace, h.lexical_eq hd hlinks]

/-- What a scan of a folder below does. -/
def Scans (d : Disk) (aim : Aim) (levels : Nat) (down : Path → State → Except Trouble State) :
    Prop :=
  ∀ {p j s}, Opens d p j → d.entry? j = some .folder → Fresh s j →
    ∃ ways s', down p s = .ok s' ∧ Finds d aim p j levels (d.namesAt j) s s' ways ∧ Marks j s s'

/-- An entry under which nothing is sought, and that adds nothing and marks nothing. -/
theorem exists_finds_of_none (hfiles : s'.files = s.files) (hvisited : s'.visited = s.visited)
    (hnone : ∀ rest, ¬ Sought d dir k aim.excluded levels (name :: rest)) :
    ∃ ways, Finds d aim dir k levels [name] s s' ways ∧ Marks (k ++ [name]) s s' := by
  refine ⟨[], Finds.nothing hfiles fun x hx rest => ?_, marks_of_visited_eq hvisited⟩
  rw [List.mem_singleton.mp hx]
  exact hnone rest

/-- A folder in which a scan goes on, by what the scan of it finds. -/
theorem finds_folder (hd : Sound d) (hread : d.mayRead k) (hin : d.mayEnter k)
    (he : d.entry? (k ++ [name]) = some .folder) (hkept : name ∉ aim.excluded)
    {ways : List (List String)}
    (h : Finds d aim (dir.child name) (k ++ [name]) levels (d.namesAt (k ++ [name])) s s' ways) :
    Finds d aim dir k (levels + 1) [name] s s' (ways.map (name :: ·)) := by
  refine ⟨?_, ?_, fun way => ?_⟩
  · rw [h.files, List.map_map]
    congr 2
    funext way
    simp
  · rw [List.pairwise_map]
    exact h.increasing.imp fun h => List.Lex.cons h
  · simp only [List.mem_map, List.mem_singleton, exists_eq_left, h.mem_iff]
    constructor
    · rintro ⟨rest, ⟨hrest, -⟩, rfl⟩
      exact ⟨(sought_cons hread hin he hkept).mpr hrest, rest, rfl⟩
    · rintro ⟨hway, rest, rfl⟩
      have hrest := (sought_cons hread hin he hkept).mp hway
      exact ⟨rest, ⟨hrest, hrest.exists_cons hd⟩, rfl⟩

/-- A source in a folder that can be listed and searched is sought there. -/
theorem sought_source {c : Content} (hread : d.mayRead k) (hin : d.mayEnter k)
    (he : d.entry? (k ++ [name]) = some (.file c)) (hsource : Language.isSource (dir.child name))
    (hfits : (dir.child name).toString.utf8ByteSize ≤ pathLimit) :
    Sought d dir k aim.excluded (levels + 1) [name] := by
  have hsuffix := isSource_child dir k name
  refine ⟨by simp, ⟨c, he⟩, hsuffix ▸ hsource, by simp, by simp, fun above hpre hne => ?_, ?_⟩
  · rw [← List.nil_append [name]] at hpre hne
    rw [List.prefix_nil.mp ((List.prefix_concat_iff.mp hpre).resolve_left hne), List.append_nil]
    exact ⟨hread, hin⟩
  · rw [Path.join_relative]
    exact hfits

/-- One entry finds what is sought under its name. -/
theorem exists_finds_entry (hd : Sound d) (hlinks : Linkless d)
    {down : Path → State → Except Trouble State} (hdown : Scans d aim levels down)
    (hopens : Opens d dir k) (hk : d.entry? k = some .folder) (hread : d.mayRead k)
    (hname : name ∈ d.namesAt k) (hfresh : Fresh s (k ++ [name])) :
    ∃ ways, Finds d aim dir k (levels + 1) [name] s (entry d aim down dir s name) ways ∧
      Marks (k ++ [name]) s (entry d aim down dir s name) := by
  have hsome : (d.entry? (k ++ [name])).isSome := mem_namesAt.mp hname
  have hnm : IsName name := hd.isName hsome (by simp)
  unfold entry
  by_cases hin : d.mayEnter k
  case neg =>
    -- the entries of a closed folder are not opened
    have hnone : ∀ rest, ¬ Sought d dir k aim.excluded (levels + 1) (name :: rest) :=
      fun rest hrest => hin hrest.unlocked_top.2
    cases hfind : d.find (dir.child name) with
    | error t =>
      simp only [hfind, error_bind]
      exact exists_finds_of_none rfl rfl hnone
    | ok e =>
      cases e with
      | none =>
        simp only [hfind, ok_bind]
        exact exists_finds_of_none rfl rfl hnone
      | some e => exact absurd (hopens.mayEnter_of_find hk hnm.isStep hfind) hin
  by_cases hfits : (dir.child name).toString.utf8ByteSize ≤ pathLimit
  · have hchild := hopens.child hd hlinks hk hin hsome hfits
    obtain ⟨e, he⟩ := Option.isSome_iff_exists.mp hsome
    simp only [hchild.find_eq he, ok_bind]
    cases e with
    | folder =>
      simp only
      by_cases hskip : aim.excluded.contains name
      · rw [if_pos hskip]
        refine exists_finds_of_none rfl rfl fun rest hrest => ?_
        apply hrest.kept name ?_ (by simpa using hskip)
        rw [List.dropLast_cons_of_ne_nil (hrest.ne_nil_of_folder he)]
        exact List.mem_cons_self
      · rw [if_neg hskip]
        obtain ⟨ways, s', hscan, hfinds, hmarks⟩ := hdown hchild he hfresh
        rw [hscan]
        exact ⟨_, finds_folder hd hread hin he (by simpa using hskip) hfinds, hmarks⟩
    | file c =>
      simp only
      by_cases hsuffix : Language.isSource (dir.child name)
      · rw [if_pos hsuffix]
        refine ⟨[[name]], ⟨?_, by simp, fun way => ?_⟩, marks_of_visited_eq rfl⟩
        · show s.files ++ [_] = _
          rw [relativeTo_of_opens hd hlinks hchild]
          rfl
        · simp only [List.mem_singleton, exists_eq_left]
          constructor
          · rintro rfl
            exact ⟨sought_source hread hin he hsuffix hfits, [], rfl⟩
          · rintro ⟨hway, rest, rfl⟩
            rw [hway.eq_nil_of_file hd he]
      · rw [if_neg hsuffix]
        refine exists_finds_of_none rfl rfl fun rest hrest => hsuffix ?_
        have hnil := hrest.eq_nil_of_file hd he
        subst hnil
        exact isSource_child dir k name ▸ hrest.source
    | link t => exact absurd he (hlinks _ t)
  · have hlong := hopens.find_tooLong hnm (Nat.lt_of_not_le hfits)
    simp only [hlong, error_bind]
    exact exists_finds_of_none rfl rfl fun rest hrest => hfits (hrest.child_fits hd)

/-! ## Folders -/

/-- The names of a folder increase. -/
theorem increasing_namesAt (hkeys : d.entries.keys.Nodup) (k : Place) :
    (d.namesAt k).Pairwise (· < ·) := by
  have hsorted : (d.namesAt k).Pairwise fun a b => decide (a ≤ b) = true := by
    apply List.pairwise_mergeSort
    · intro a b c hab hbc
      simp only [decide_eq_true_eq] at hab hbc ⊢
      exact String.le_trans hab hbc
    · intro a b
      simpa using String.le_total a b
  refine (hsorted.and (nodup_namesAt hkeys k)).imp fun {a b} ⟨hle, hne⟩ => ?_
  exact Std.lt_of_le_of_ne (of_decide_eq_true hle) hne

/-- Entries in the order of their names find what is sought under them. -/
theorem exists_finds_foldl {step : State → String → State} {names : List String}
    (hstep : ∀ name ∈ names, ∀ s, Fresh s (k ++ [name]) →
      ∃ ways, Finds d aim dir k levels [name] s (step s name) ways ∧
        Marks (k ++ [name]) s (step s name))
    (hnames : names.Pairwise (· < ·)) (hfresh : ∀ name ∈ names, Fresh s (k ++ [name])) :
    ∃ ways, Finds d aim dir k levels names s (names.foldl step s) ways ∧
      Marks k s (names.foldl step s) := by
  induction names generalizing s with
  | nil => exact ⟨[], Finds.nothing rfl (by simp), marks_of_visited_eq rfl⟩
  | cons name more ih =>
    obtain ⟨hlt, hmore⟩ := List.pairwise_cons.mp hnames
    obtain ⟨hfirst, hothers⟩ := List.forall_mem_cons.mp hfresh
    obtain ⟨ways, hfinds, hmarks⟩ := hstep name List.mem_cons_self s hfirst
    have hfresh' : ∀ other ∈ more, Fresh (step s name) (k ++ [other]) := by
      intro other hother
      refine hmarks.fresh ?_ (hothers other hother)
      rintro rfl
      exact String.lt_irrefl _ (hlt _ hother)
    obtain ⟨ways', hfinds', hmarks'⟩ :=
      ih (fun x hx => hstep x (List.mem_cons_of_mem name hx)) hmore hfresh'
    exact ⟨ways ++ ways', hfinds.append hfinds' hlt, hmarks.up.trans hmarks'⟩

/-- A scan of a folder finds what is sought below it. -/
theorem exists_finds_below (hd : Sound d) (hlinks : Linkless d) (aim : Aim) (levels : Nat) :
    Scans d aim levels (below d aim levels) := by
  induction levels with
  | zero =>
    intro dir k s hopens hk hfresh
    have hthere : d.pathExists dir = .ok true := pathExists_eq_true.mpr ⟨_, hopens.find_eq hk⟩
    refine ⟨[], _, bind_eq_ok.mpr ⟨true, hthere, rfl⟩, ?_, marks_of_visited_eq rfl⟩
    exact Finds.nothing rfl fun name _ rest hrest => absurd hrest.shallow (Nat.not_lt_zero _)
  | succ levels ih =>
    intro dir k s hopens hk hfresh
    have hthere : d.pathExists dir = .ok true := pathExists_eq_true.mpr ⟨_, hopens.find_eq hk⟩
    have hreal := hopens.realPath_eq hd hlinks
    have hnew : ¬ s.visited.contains (Path.ofPlace k) := by
      simpa using hfresh k (List.prefix_refl k)
    -- the folder itself is marked before its entries are looked at
    let marked : State := { s with visited := .ofPlace k :: s.visited }
    have hmark : Marks k s marked := by
      intro v hv
      rcases List.mem_cons.mp hv with rfl | hv
      · exact Or.inr ⟨k, List.prefix_refl k, rfl⟩
      · exact Or.inl hv
    have hfresh' : ∀ name ∈ d.namesAt k, Fresh marked (k ++ [name]) := by
      intro name _ j hj hv
      rcases List.mem_cons.mp hv with hself | hv
      · have hplace : j = k := congrArg Path.parts hself
        have hlength := hj.length_le
        rw [hplace, List.length_append, List.length_singleton] at hlength
        omega
      · exact hfresh j ((List.prefix_append k [name]).trans hj) hv
    by_cases hread : d.mayRead k
    case neg =>
      have hnames : d.names dir = .error .notPermitted := by
        rw [Disk.names, hopens.located, ok_bind, hk]
        exact if_neg hread
      refine ⟨[], marked.warn (unlistedText dir.toString .notPermitted), ?_,
        Finds.nothing rfl fun name _ rest hrest => hread hrest.unlocked_top.1, hmark⟩
      refine bind_eq_ok.mpr ⟨true, hthere, bind_eq_ok.mpr ⟨_, hreal, ?_⟩⟩
      rw [if_neg hnew]
      simp only [hnames]
      rfl
    have hnames : d.names dir = .ok (d.namesAt k) :=
      names_eq_ok.mpr ⟨k, hopens.located, hk, hread, rfl⟩
    obtain ⟨ways, hfinds, hmarks⟩ := exists_finds_foldl
      (fun name hname s hs => exists_finds_entry hd hlinks ih hopens hk hread hname hs)
      (increasing_namesAt hd.keys k) hfresh'
    refine ⟨ways, _, ?_, ⟨hfinds.files, hfinds.increasing, hfinds.mem_iff⟩, hmark.trans hmarks⟩
    refine bind_eq_ok.mpr ⟨true, hthere, bind_eq_ok.mpr ⟨_, hreal, ?_⟩⟩
    rw [if_neg hnew]
    simp only [hnames]
    rfl

/-! ## The whole scan -/

/-- The files of a scan are exact for the folder at `top`: they are those at the
end of `ways`, as they are seen from the base. -/
structure ExactScan (d : Disk) (dir base : Path) (top : Place) (excluded : List String)
    (ways : List Place) (files : List String) : Prop where
  files_eq : files = ways.map fun way => seenAs d base (top ++ way)
  /-- Taken from the base, a file leads to its place. -/
  leads : ∀ way ∈ ways, Path.lexical (.ofPlace d.cwd)
    (base.join (.ofString (seenAs d base (top ++ way)))) = top ++ way
  nodup : files.Nodup
  increasing : ways.Pairwise (· < ·)
  mem_iff : ∀ way, way ∈ ways ↔ Sought d dir top excluded (depthLimit + 1) way

/-- A scan that starts from nothing finds all that is sought, and nothing
else. -/
theorem exists_ways_of_folder (hd : Sound d) (hlinks : Linkless d) (hopens : Opens d dir top)
    (hfolder : d.entry? top = some .folder) (base : Path) (excluded : List String) :
    ∃ (s : State) (ways : List Place), folder d dir base excluded = .ok s ∧
      s.files = ways.map (fun way => seenAs d base (top ++ way)) ∧ ways.Pairwise (· < ·) ∧
      ∀ way, way ∈ ways ↔ Sought d dir top excluded (depthLimit + 1) way := by
  have hfresh : Fresh {} top := fun _ _ => List.not_mem_nil
  obtain ⟨ways, s, hscan, hfinds, -⟩ :=
    exists_finds_below hd hlinks ⟨base, excluded⟩ (depthLimit + 1) hopens hfolder hfresh
  refine ⟨s, ways, hscan, hfinds.files, hfinds.increasing, fun way => ?_⟩
  rw [hfinds.mem_iff]
  exact ⟨And.left, fun hway => ⟨hway, hway.exists_cons hd⟩⟩

theorem opens_ofString {text : String} (h : d.locate (.ofString text) = .ok top) :
    Opens d (.ofString text) top :=
  ⟨fun _ hs => (Path.isComponent_of_mem_components hs).ne_empty, h⟩

/-- On a disk without links the scan of a folder is exact, however the folder
and the base are spelled. -/
theorem folder_exact (d : Disk) (hd : Sound d) (hlinks : Linkless d) (dir : String) (base : Path)
    (excluded : List String) (top : Place) (hdir : d.locate (.ofString dir) = .ok top)
    (hfolder : d.entry? top = some .folder) :
    ∃ s ways, folder d (.ofString dir) base excluded = .ok s ∧
      ExactScan d (.ofString dir) base top excluded ways s.files := by
  obtain ⟨s, ways, hscan, hfiles, hincreasing, hmem⟩ :=
    exists_ways_of_folder hd hlinks (opens_ofString hdir) hfolder base excluded
  have hleads : ∀ way ∈ ways, Path.lexical (.ofPlace d.cwd)
      (base.join (.ofString (seenAs d base (top ++ way)))) = top ++ way := by
    intro way hway
    apply Path.lexical_join_relativeTo_ofPlace
    exact fun t ht => hd.isName ((hmem way).mp hway).isSome ht
  refine ⟨s, ways, hscan, hfiles, hleads, ?_, hincreasing, hmem⟩
  -- two files that are seen alike would lead to one place
  rw [hfiles]
  refine List.Nodup.map_on (fun way hway way' hway' heq => ?_) ?_
  · have hplace : top ++ way = top ++ way' := by
      rw [← hleads way hway, heq, hleads way' hway']
    exact List.append_cancel_left hplace
  · refine hincreasing.imp fun {way way'} hlt heq => ?_
    rw [heq] at hlt
    exact List.lt_irrefl way' hlt

/-- A working folder with a folder to scan: source files on two levels, one that
is none, one in a folder that is excluded, and one in a folder that cannot be
listed. -/
def shed : Disk :=
  ⟨["w"], ⟨[(["w"], .folder), (["w", "p"], .folder), (["w", "p", "b.js"], .file (.text "")),
    (["w", "p", "a"], .folder), (["w", "p", "a", "z.ts"], .file (.text "")),
    (["w", "p", "a", "n.txt"], .file (.text "")), (["w", "p", "skip"], .folder),
    (["w", "p", "skip", "c.js"], .file (.text "")), (["w", "p", "a-b.js"], .file (.text "")),
    (["w", "p", "locked"], .folder), (["w", "p", "locked", "x.js"], .file (.text ""))]⟩,
    { closed := [["w", "p", "locked"]], hidden := [["w", "p", "locked"]] }⟩

theorem folder_exact_shed :
    (Sound shed ∧ Linkless shed ∧ shed.locate (.ofString "../w/p") = .ok ["w", "p"] ∧
      shed.entry? ["w", "p"] = some .folder ∧
      Sought shed (.ofString "../w/p") ["w", "p"] ["skip"] (depthLimit + 1) ["a", "z.ts"] ∧
      ¬ Sought shed (.ofString "../w/p") ["w", "p"] ["skip"] (depthLimit + 1) ["skip", "c.js"] ∧
      ¬ Sought shed (.ofString "../w/p") ["w", "p"] ["skip"] (depthLimit + 1) ["locked", "x.js"]) ∧
    ∃ s ways, folder shed (.ofString "../w/p") (.ofString "q") ["skip"] = .ok s ∧
      ExactScan shed (.ofString "../w/p") (.ofString "q") ["w", "p"] ["skip"] ways s.files := by
  have hd : Sound shed := by decide +kernel
  have hlinks : Linkless shed := linkless_of_entries (by simp [shed])
  have hdir : shed.locate (.ofString "../w/p") = .ok ["w", "p"] := by decide +kernel
  have hfolder : shed.entry? ["w", "p"] = some .folder := by decide +kernel
  have hlocked : shed.mayRead ["w", "p", "locked"] = false := by decide +kernel
  refine ⟨⟨hd, hlinks, hdir, hfolder, ?_, fun h => h.kept "skip" (by decide) (by decide),
    fun h => ?_⟩,
    folder_exact shed hd hlinks "../w/p" (.ofString "q") ["skip"] ["w", "p"] hdir hfolder⟩
  · have hunlocked : ∀ i < 2, shed.mayRead (["w", "p"] ++ ["a", "z.ts"].take i) ∧
        shed.mayEnter (["w", "p"] ++ ["a", "z.ts"].take i) := by decide +kernel
    refine ⟨by decide, ⟨.text "", by decide +kernel⟩, by decide +kernel, by decide, by decide,
      fun above hpre hne => ?_, by decide +kernel⟩
    have hlength : above.length < 2 :=
      Nat.lt_of_le_of_ne hpre.length_le fun heq => hne (hpre.eq_of_length heq)
    rw [List.prefix_iff_eq_take.mp hpre]
    exact hunlocked _ hlength
  · have hread := (h.unlocked ["locked"] (by decide) (by decide)).1
    rw [← Bool.not_eq_true] at hlocked
    exact hlocked hread

/-! ## A path that is too long -/

/-- The name of a source file. -/
def longName : String := String.ofList (List.replicate 64 'b') ++ ".js"

/-- A folder with one source file. -/
def nook : Disk := ⟨[], ⟨[(["x"], .folder), (["x", longName], .file (.text ""))]⟩, {}⟩

/-- A long way to `x`: there and back so many times, and there. -/
def detour : Nat → List String
  | 0 => ["x"]
  | n + 1 => "x" :: ".." :: detour n

theorem mem_detour {n : Nat} {t : String} (h : t ∈ detour n) : t = "x" ∨ t = ".." := by
  induction n with
  | zero => exact Or.inl (List.mem_singleton.mp h)
  | succ n ih =>
    rw [detour, List.mem_cons, List.mem_cons] at h
    rcases h with h | h | h
    · exact Or.inl h
    · exact Or.inr h
    · exact ih h

theorem detour_ne_nil (n : Nat) : detour n ≠ [] := by
  cases n <;> simp [detour]

theorem size_detour (n : Nat) : (Path.toString ⟨"", detour n⟩).utf8ByteSize = 5 * n + 1 := by
  have hsum : ((detour n).map fun t => t.utf8ByteSize + 1).sum = 5 * n + 2 := by
    have hx : "x".utf8ByteSize = 1 := by decide
    have hup : "..".utf8ByteSize = 2 := by decide
    induction n with
    | zero => simp [detour, hx]
    | succ n ih =>
      simp only [detour, List.map_cons, List.sum_cons, ih, hx, hup]
      omega
  have hsize := Path.size_relative (detour_ne_nil n)
  omega

theorem walk_detour (n m : Nat) : Walk nook false ["x"] m [] (detour n) := by
  have hx : ∀ rest, CanStep false "x" rest := IsName.canStep (by decide)
  have hfolder : nook.entry? ([] ++ ["x"]) = some .folder := by decide +kernel
  induction n with
  | zero => exact .down rfl (hx _) hfolder .done
  | succ n ih => exact .down rfl (hx _) hfolder (.up rfl ih)

theorem opens_detour {n : Nat} (hn : 5 * n + 1 ≤ pathLimit) :
    Opens nook ⟨"", detour n⟩ ["x"] := by
  refine ⟨fun t ht => ?_, reach_eq_ok.mpr ⟨checkPath_eq_ok.mpr ⟨fun hnull => ?_, ?_⟩, ?_⟩⟩
  · rcases mem_detour ht with rfl | rfl <;> decide
  · rw [Path.toString_relative (detour_ne_nil n)] at hnull
    rcases Path.mem_intercalate_slash hnull with hslash | ⟨t, ht, hc⟩
    · exact absurd hslash (by decide)
    · rcases mem_detour ht with rfl | rfl <;> exact absurd hc (by decide)
  · rw [size_detour]
    exact hn
  · exact walk_detour n linkLimit

theorem ofString_detour (n : Nat) :
    Path.ofString ("/".intercalate (detour n)) = ⟨"", detour n⟩ := by
  apply Path.ofString_intercalate
  intro t ht
  rcases mem_detour ht with rfl | rfl <;> exact ⟨by decide, by decide, by decide⟩

/-- The scan of a folder misses a source file right in it, when the path to the
file is too long to be asked about. -/
theorem longPath_not_found :
    Sound nook ∧ Linkless nook ∧
      nook.locate (.ofString ("/".intercalate (detour 806))) = .ok ["x"] ∧
      nook.entry? ["x"] = some .folder ∧
      nook.entry? ["x", longName] = some (.file (.text "")) ∧
      Language.isSource (.ofPlace ["x", longName]) ∧
      ∃ s, folder nook (.ofString ("/".intercalate (detour 806))) (.ofString "x") [] = .ok s ∧
        s.files = [] := by
  have hd : Sound nook := by decide +kernel
  have hlinks : Linkless nook := linkless_of_entries (by simp [nook])
  have hfolder : nook.entry? ["x"] = some .folder := by decide +kernel
  have hopens : Opens nook ⟨"", detour 806⟩ ["x"] := opens_detour (by decide)
  rw [ofString_detour]
  refine ⟨hd, hlinks, hopens.located, hfolder, by decide +kernel, by decide +kernel, ?_⟩
  obtain ⟨s, ways, hscan, hfiles, -, hmem⟩ :=
    exists_ways_of_folder hd hlinks hopens hfolder (.ofString "x") []
  have hways : ways = [] := by
    rw [List.eq_nil_iff_forall_not_mem]
    intro way hway
    have hsought := (hmem way).mp hway
    obtain ⟨name, hname, rest, rfl⟩ := hsought.exists_cons hd
    have hkey : ["x"] ++ [name] ∈ nook.entries.keys :=
      (mem_keys_iff (by simp)).mpr (mem_namesAt.mp hname)
    have hlong : name = longName := by simpa [nook, Table.keys] using hkey
    have hsize : longName.utf8ByteSize = 67 := by decide +kernel
    have hslash : "/".utf8ByteSize = 1 := by decide
    have hlimit : pathLimit = 4095 := rfl
    have hfits := hsought.child_fits hd
    rw [Path.toString_child, if_neg (detour_ne_nil 806), hlong, String.utf8ByteSize_append,
      String.utf8ByteSize_append, size_detour, hsize, hslash] at hfits
    omega
  refine ⟨s, hscan, ?_⟩
  rw [hfiles, hways, List.map_nil]

end CodeAtlas.Scan
