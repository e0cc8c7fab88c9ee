import CodeAtlas.Proofs.Disk.Tree
/-
  Plain names: the reading of a path that takes links apart.

  What is proved:
    1. `Sound.resolve_eq`: a path from the top to an entry, without a link on
       the way, is its own plain name.
    2. `Sound.resolve_of_sameWays`: the plain name of a folder does not depend
       on the files of a disk.
    3. `Linkless.isPlain_of_resolve`: on a disk without links every plain name
       goes down from the top, one name after the other.
    4. `Linkless.find_of_resolve`: on such a disk, what a path from the top
       opens its plain name opens.
-/

namespace CodeAtlas

namespace Path

open CodeAtlas.Disk

/-- A path that goes down from the top only. -/
structure IsPlain (p : Path) : Prop where
  anchor : p.anchor = "/"
  steps : ∀ s ∈ p.parts, IsStep s

theorem IsPlain.eq_ofPlace {p : Path} (h : IsPlain p) : p = .ofPlace p.parts := by
  rw [ofPlace, ← h.anchor]

theorem IsPlain.isAbsolute {p : Path} (h : IsPlain p) : p.isAbsolute := by
  simp [Path.isAbsolute, h.anchor]

theorem stepLexical_of_isStep {s : String} (hs : IsStep s) (seen : List String) :
    stepLexical seen s = seen ++ [s] := by
  rw [stepLexical, if_neg hs.ne_up, if_neg hs.ne_dot]

theorem stepLexical_up (seen : List String) : stepLexical seen ".." = seen.dropLast := if_pos rfl

theorem stepLexical_dot (seen : List String) : stepLexical seen "." = seen := rfl

/-- A path from the top that goes down only names the place that it spells. -/
theorem foldl_stepLexical {parts : List String} (h : ∀ s ∈ parts, IsStep s) (seen : List String) :
    parts.foldl stepLexical seen = seen ++ parts := by
  induction parts generalizing seen with
  | nil => rw [List.foldl_nil, List.append_nil]
  | cons s rest ih =>
    rw [List.foldl_cons, stepLexical_of_isStep (h s List.mem_cons_self),
      ih fun t ht => h t (List.mem_cons_of_mem s ht), List.append_assoc]
    rfl

/-- As many steps up as there are names lead back. -/
theorem foldl_stepLexical_up (above names : List String) :
    (names.map fun _ => "..").foldl stepLexical (above ++ names) = above := by
  induction names using List.reverseRecOn with
  | nil => exact List.append_nil above
  | append_singleton names s ih =>
    have hups : (names ++ [s]).map (fun _ => "..") = ".." :: names.map fun _ => ".." := by
      simp [← List.replicate_succ, List.replicate_succ']
    rw [hups, List.foldl_cons, stepLexical_up, ← List.append_assoc, List.dropLast_concat, ih]

/-- The textual reading makes no path longer. -/
theorem sum_foldl_stepLexical_le (size : String → Nat) (parts seen : List String) :
    ((parts.foldl stepLexical seen).map size).sum ≤ (seen.map size).sum + (parts.map size).sum := by
  induction parts generalizing seen with
  | nil => simp
  | cons s rest ih =>
    have hstep : ((stepLexical seen s).map size).sum ≤ (seen.map size).sum + size s := by
      unfold stepLexical
      split
      · rcases List.eq_nil_or_concat seen with rfl | ⟨front, last, rfl⟩ <;> simp
        omega
      split
      · omega
      · simp
    have hrest := ih (stepLexical seen s)
    rw [List.foldl_cons, List.map_cons, List.sum_cons]
    omega

theorem size_lexical_le {p : Path} (habs : p.isAbsolute) :
    (ofPlace (p.parts.foldl stepLexical [])).toString.utf8ByteSize ≤ p.toString.utf8ByteSize := by
  have hslash : "/".utf8ByteSize = 1 := by decide
  have hanchor : 1 ≤ p.anchor.utf8ByteSize := by
    rw [Nat.one_le_iff_ne_zero, Ne, String.utf8ByteSize_eq_zero_iff]
    simpa [isAbsolute] using habs
  rw [toString_of_isAbsolute habs, String.utf8ByteSize_append]
  by_cases hk : p.parts.foldl stepLexical [] = []
  · rw [hk]
    have htop : (ofPlace []).toString.utf8ByteSize = 1 := by decide
    omega
  · have hparts : p.parts ≠ [] := fun hnil => hk (by rw [hnil]; rfl)
    have hsum := sum_foldl_stepLexical_le (fun s => s.utf8ByteSize + 1) p.parts []
    have hsize := size_ofPlace hparts
    rw [toString_of_isAbsolute (p := ofPlace p.parts) rfl, String.utf8ByteSize_append] at hsize
    have hfirst : (ofPlace p.parts).anchor.utf8ByteSize = 1 := hslash
    have hrest : (ofPlace p.parts).parts = p.parts := rfl
    rw [hfirst, hrest] at hsize
    rw [List.map_nil, List.sum_nil, Nat.zero_add] at hsum
    rw [size_ofPlace hk]
    omega

theorem lexical_eq {p : Path} (habs : p.isAbsolute) (h : ∀ s ∈ p.parts, IsStep s) (cwd : Path) :
    lexical cwd p = p.parts := by
  rw [lexical, join, if_pos habs, foldl_stepLexical h, List.nil_append]

/-- A place below another is seen from it by the steps down to it. -/
theorem relativeTo_below {top rest : Place} (h : ∀ s ∈ top ++ rest, IsStep s) (hne : rest ≠ [])
    (cwd : Path) :
    relativeTo cwd (.ofPlace (top ++ rest)) (.ofPlace top) = "/".intercalate rest := by
  have htop : lexical cwd (.ofPlace top) = top :=
    lexical_eq rfl (fun s hs => h s (List.mem_append_left rest hs)) cwd
  have hall : lexical cwd (.ofPlace (top ++ rest)) = top ++ rest := lexical_eq rfl h cwd
  simp only [relativeTo, htop, hall, afterCommon_append, List.map_nil, List.nil_append]

/-- One path from another: steps up to where they part, and then down. -/
theorem ofString_relativeTo_of_names {p : Path} (hp : p.isAbsolute)
    (hnames : ∀ s ∈ p.parts, IsName s) (cwd base : Path) :
    ∃ common up down, lexical cwd base = common ++ up ∧ p.parts = common ++ down ∧
      ofString (relativeTo cwd p base) = ⟨"", up.map (fun _ => "..") ++ down⟩ := by
  obtain ⟨common, hup, hdown⟩ := exists_common (lexical cwd base) p.parts
  refine ⟨common, _, _, hup, hdown, ?_⟩
  have hcomponents : ∀ s ∈ (afterCommon (lexical cwd base) p.parts).1.map (fun _ => "..") ++
      (afterCommon (lexical cwd base) p.parts).2, IsComponent s := by
    intro s hs
    rcases List.mem_append.mp hs with hs | hs
    · obtain ⟨t, -, rfl⟩ := List.mem_map.mp hs
      exact ⟨by decide, by decide, by decide⟩
    · have hmem : s ∈ p.parts := hdown ▸ List.mem_append_right common hs
      exact (hnames s hmem).toIsComponent
  simp only [relativeTo, lexical_eq hp fun s hs => (hnames s hs).isStep]
  split
  · next hnil =>
    rw [hnil]
    decide
  · exact ofString_intercalate hcomponents

theorem ofString_relativeTo {p base : Path} (hp : p.isAbsolute) (hnames : ∀ s ∈ p.parts, IsName s)
    (hbase : base.isAbsolute) (hsteps : ∀ s ∈ base.parts, IsStep s) (cwd : Path) :
    ∃ common up down, base.parts = common ++ up ∧ p.parts = common ++ down ∧
      ofString (relativeTo cwd p base) = ⟨"", up.map (fun _ => "..") ++ down⟩ := by
  rw [← lexical_eq hbase hsteps cwd]
  exact ofString_relativeTo_of_names hp hnames cwd base

/-- What one path is from another, taken from there, leads to the path again. -/
theorem lexical_join_relativeTo {p base : Path} (hp : p.isAbsolute)
    (hnames : ∀ s ∈ p.parts, IsName s) (hbase : base.isAbsolute)
    (hsteps : ∀ s ∈ base.parts, IsStep s) (cwd : Path) :
    ∃ parts, base.join (ofString (relativeTo cwd p base)) = ⟨base.anchor, parts⟩ ∧
      (∀ s ∈ parts, s ≠ "") ∧ parts.foldl stepLexical [] = p.parts := by
  obtain ⟨common, up, down, hup, hdown, hread⟩ := ofString_relativeTo hp hnames hbase hsteps cwd
  refine ⟨base.parts ++ (up.map (fun _ => "..") ++ down), ?_, fun s hs => ?_, ?_⟩
  · rw [hread, join, if_neg (by simp [isAbsolute])]
  · simp only [List.mem_append, List.mem_map] at hs
    rcases hs with hs | ⟨t, -, rfl⟩ | hs
    · exact (hsteps s hs).ne_empty
    · decide
    · have hmem : s ∈ p.parts := hdown ▸ List.mem_append_right common hs
      exact (hnames s hmem).ne_empty
  · have hrest : ∀ s ∈ down, IsStep s := fun s hs =>
      (hnames s (hdown ▸ List.mem_append_right common hs)).isStep
    rw [List.foldl_append, List.foldl_append, foldl_stepLexical hsteps, List.nil_append, hup,
      foldl_stepLexical_up, foldl_stepLexical hrest, hdown]

/-- The textual reading leaves steps down only. -/
theorem isStep_foldl_stepLexical {parts : List String} (h : ∀ s ∈ parts, s ≠ "")
    {seen : List String} (hseen : ∀ s ∈ seen, IsStep s) :
    ∀ s ∈ parts.foldl stepLexical seen, IsStep s := by
  induction parts generalizing seen with
  | nil => exact hseen
  | cons s rest ih =>
    refine ih (fun t ht => h t (List.mem_cons_of_mem s ht)) ?_
    unfold stepLexical
    split
    · intro t ht
      exact hseen t (List.dropLast_subset _ ht)
    next hup =>
    split
    · exact hseen
    next hdot =>
    intro t ht
    rcases List.mem_append.mp ht with ht | ht
    · exact hseen t ht
    · rw [List.mem_singleton.mp ht]
      exact ⟨h s List.mem_cons_self, hdot, hup⟩

end Path

namespace Disk

variable {d d' : Disk} {p : Path} {k : Place}
  {through : Seen → Path → List String → Except Trouble Reading} {seen : Seen}

/-! ## Reading without links -/

/-- There is no link at a path that can be asked about, or is too long for it,
when there is none at its place. -/
theorem linkAt_eq_none (hcheck : checkPath p ≠ .error .nullCharacter)
    (h : ∀ t, d.entry? (d.placeOf p) ≠ some (.link t)) : d.linkAt p = .ok none := by
  unfold linkAt
  split
  · next hc => exact absurd hc hcheck
  · rfl
  · split
    · next t he => exact absurd he (h t)
    · rfl

theorem checkPath_ne_null (hanchor : p.anchor = "/" ∨ p.anchor = "//")
    (hnames : ∀ s ∈ p.parts, IsName s) : checkPath p ≠ .error .nullCharacter := by
  rcases checkPath_cases hanchor hnames with h | h <;> simp [h]

/-- Steps down from the top that meet no link are read as they are written. -/
theorem readSteps_plain {here : Path} {steps : List String} (hanchor : here.anchor = "/")
    (hnames : ∀ s ∈ here.parts ++ steps, IsName s)
    (hway : ∀ way t, way <+: steps → d.entry? (here.parts ++ way) ≠ some (.link t)) :
    readSteps d through seen here steps = .ok ⟨true, ⟨"/", here.parts ++ steps⟩, seen⟩ := by
  induction steps generalizing here with
  | nil =>
    rw [readSteps, List.append_nil, ← hanchor]
  | cons s rest ih =>
    have hs : IsName s := hnames s (by simp)
    have hthere : ∀ t ∈ (here.child s).parts, IsName t := by
      intro t ht
      refine hnames t ?_
      simp only [Path.child, List.mem_append, List.mem_singleton] at ht
      simp only [List.mem_append, List.mem_cons]
      exact ht.imp id Or.inl
    have habs : (here.child s).isAbsolute := by simp [Path.isAbsolute, Path.child, hanchor]
    have hplace : d.placeOf (here.child s) = here.parts ++ [s] :=
      Path.lexical_eq habs (fun t ht => (hthere t ht).isStep) _
    have hnone : d.linkAt (here.child s) = .ok none := by
      refine linkAt_eq_none (checkPath_ne_null (Or.inl hanchor) hthere) fun t => ?_
      rw [hplace]
      exact hway [s] t ⟨rest, rfl⟩
    have hstep : ¬(s = "" ∨ s = ".") := fun h => h.elim hs.ne_empty hs.ne_dot
    rw [readSteps, if_neg hstep, if_neg hs.ne_up]
    simp only [hnone]
    have hnames' : ∀ t ∈ (here.child s).parts ++ rest, IsName t := by
      intro t ht
      refine hnames t ?_
      rwa [Path.child, List.append_assoc] at ht
    have hway' : ∀ way t, way <+: rest →
        d.entry? ((here.child s).parts ++ way) ≠ some (.link t) := by
      intro way t hw
      rw [Path.child, List.append_assoc]
      exact hway (s :: way) t ((List.prefix_cons_inj s).mpr hw)
    have hanchor' : (here.child s).anchor = "/" := hanchor
    rw [ih hanchor' hnames' hway', Path.child, List.append_assoc]
    rfl

/-- A path from the top to an entry that is no link is read as the place that it
spells. -/
theorem Sound.realPath_eq (h : Sound d) {e : Entry} (habs : p.isAbsolute)
    (he : d.entry? p.parts = some e) (hlink : ∀ t, e ≠ .link t) :
    d.realPath p = .ok (.ofPlace p.parts) := by
  have hsome : (d.entry? p.parts).isSome := by rw [he]; rfl
  have hnames : ∀ s ∈ p.parts, IsName s := fun s hs => h.isName hsome hs
  have hway : ∀ way t, way <+: p.parts → d.entry? ([] ++ way) ≠ some (.link t) := by
    intro way t hway
    rw [List.nil_append]
    by_cases heq : way = p.parts
    · rw [heq, he]
      exact fun hl => hlink t (Option.some.inj hl)
    · rw [h.folder_of_prefix hsome hway heq]
      simp
  have hread : readLinks d nestingLimit [] ⟨"/", []⟩ p.parts = .ok ⟨true, ⟨"/", p.parts⟩, []⟩ :=
    readSteps_plain rfl (by simpa using hnames) hway
  have hplace : d.placeOf ⟨"/", p.parts⟩ = p.parts :=
    Path.lexical_eq (p := ⟨"/", p.parts⟩) rfl (fun s hs => (hnames s hs).isStep) _
  rw [realPath, if_pos habs, hread, ok_bind]
  simp only [hplace]
  rfl

/-- A plain path that leads to nothing worse than nowhere. -/
theorem resolve_eq_ok {q : Path} : d.resolve p = .ok q ↔ d.realPath p = .ok q ∧
    d.stat q ≠ .error .tooManyLinks ∧ d.stat q ≠ .error .nullCharacter := by
  rw [resolve, bind_eq_ok]
  constructor
  · rintro ⟨real, hreal, h⟩
    split at h
    · cases h
    · cases h
    · next hloop hnull =>
      cases h
      exact ⟨hreal, hloop, hnull⟩
  · rintro ⟨hreal, hloop, hnull⟩
    refine ⟨q, hreal, ?_⟩
    split
    · next h => exact absurd h hloop
    · next h => exact absurd h hnull
    · rfl

/-- The path to a place opens the entry there, or it is too long or leads through
a closed folder. -/
theorem Sound.stat_ofPlace (h : Sound d) {e : Entry} (he : d.entry? k = some e)
    (hlink : ∀ t, e ≠ .link t) :
    d.stat (.ofPlace k) = .ok e ∨ d.stat (.ofPlace k) = .error .nameTooLong ∨
      d.stat (.ofPlace k) = .error .notPermitted := by
  have hsome : (d.entry? k).isSome := by rw [he]; rfl
  have hnames : ∀ s ∈ k, IsName s := fun s hs => h.isName hsome hs
  rcases checkPath_cases (p := .ofPlace k) (Or.inl rfl) hnames with hc | hc
  · by_cases hpass : Passable d k
    · left
      exact stat_eq_ok.mpr ⟨_, h.locate_eq (p := .ofPlace k) rfl hc he hpass hlink, he⟩
    · right
      right
      rw [stat, h.locate_closed (p := .ofPlace k) rfl hc hsome hpass, error_bind]
  · right
    left
    rw [stat, locate, reach, hc, error_bind, error_bind]

theorem Sound.resolve_of_realPath (h : Sound d) {e : Entry} (he : d.entry? k = some e)
    (hlink : ∀ t, e ≠ .link t) (hreal : d.realPath p = .ok (.ofPlace k)) :
    d.resolve p = .ok (.ofPlace k) := by
  refine resolve_eq_ok.mpr ⟨hreal, ?_⟩
  rcases h.stat_ofPlace he hlink with hs | hs | hs <;> simp [hs]

theorem Sound.resolve_eq (h : Sound d) {e : Entry} (habs : p.isAbsolute)
    (he : d.entry? p.parts = some e) (hlink : ∀ t, e ≠ .link t) :
    d.resolve p = .ok (.ofPlace p.parts) :=
  h.resolve_of_realPath he hlink (h.realPath_eq habs he hlink)

/-! ## Readings of two disks -/

theorem linkAt_congr (h : SameWays d d') (p : Path) : d.linkAt p = d'.linkAt p := by
  have hplace : ∀ p, d.placeOf p = d'.placeOf p := fun p => by rw [placeOf, placeOf, h.cwd]
  have hopen : d.isOpenWay p = d'.isOpenWay p := by
    simp only [isOpenWay, hplace, h.enter]
  unfold linkAt
  rw [← hplace, hopen]
  rcases h.entry (d.placeOf p) with he | ⟨hb, hb'⟩
  · rw [he]
  · rcases blocks_iff.mp hb with he | ⟨c, he⟩ <;> rcases blocks_iff.mp hb' with he' | ⟨c', he'⟩ <;>
      rw [he, he']

/-- Readings go by links only. -/
theorem readSteps_congr (h : SameWays d d')
    {through' : Seen → Path → List String → Except Trouble Reading}
    (ht : ∀ seen here steps, through seen here steps = through' seen here steps)
    (seen : Seen) (here : Path) (steps : List String) :
    readSteps d through seen here steps = readSteps d' through' seen here steps := by
  have heq : through = through' := by
    funext seen here steps
    exact ht seen here steps
  subst heq
  induction steps generalizing seen here with
  | nil => rfl
  | cons s rest ih => simp only [readSteps, ih, linkAt_congr h]

theorem readLinks_congr (h : SameWays d d') (n : Nat) (seen : Seen) (here : Path)
    (steps : List String) : readLinks d n seen here steps = readLinks d' n seen here steps := by
  induction n generalizing seen here steps with
  | zero => rfl
  | succ n ih => exact readSteps_congr h ih seen here steps

theorem realPath_congr (h : SameWays d d') (p : Path) : d.realPath p = d'.realPath p := by
  have hplace : ∀ q, d.placeOf q = d'.placeOf q := fun q => by rw [placeOf, placeOf, h.cwd]
  simp only [realPath, readLinks_congr h, hplace]

/-- The plain name of a folder does not depend on the files. -/
theorem Sound.resolve_of_sameWays (hd' : Sound d') (h : SameWays d d')
    (hk : d.entry? k = some .folder) (hp : d.resolve p = .ok (.ofPlace k)) :
    d'.resolve p = .ok (.ofPlace k) := by
  refine hd'.resolve_of_realPath ((h.folder_iff k).mp hk) (by simp) ?_
  rw [← realPath_congr h]
  exact (resolve_eq_ok.mp hp).1

/-! ## Plain names on a disk without links -/

section

variable {here : Path} {s : String} {steps rest : List String} {r : Reading}

theorem Linkless.linkAt (h : Linkless d) {target : Option String}
    (ht : d.linkAt p = .ok target) : target = none := by
  unfold Disk.linkAt at ht
  split at ht
  · cases ht
  · cases ht
    rfl
  split at ht
  · next he => exact absurd he (h _ _)
  · cases ht
    rfl

/-- What one step of a reading does: it stays, it goes up, or it goes down. -/
theorem Linkless.readSteps_cons (h : Linkless d)
    (hr : readSteps d through seen here (s :: rest) = .ok r) :
    ((s = "" ∨ s = ".") ∧ readSteps d through seen here rest = .ok r) ∨
    (s = ".." ∧ readSteps d through seen here.up rest = .ok r) ∨
    (IsStep s ∧ readSteps d through seen (here.child s) rest = .ok r) := by
  rw [readSteps] at hr
  split at hr
  · next hs => exact Or.inl ⟨hs, hr⟩
  split at hr
  · next hup => exact Or.inr (Or.inl ⟨hup, hr⟩)
  next hstay hup =>
  obtain ⟨hempty, hdot⟩ := not_or.mp hstay
  refine Or.inr (Or.inr ⟨⟨hempty, hdot, hup⟩, ?_⟩)
  cases hlink : d.linkAt (here.child s) with
  | error t =>
    simp only [hlink] at hr
    cases hr
  | ok target =>
    have hnone := h.linkAt hlink
    subst hnone
    simp only [hlink] at hr
    exact hr

/-- A reading keeps what it starts from, and its steps are not empty. -/
theorem Linkless.ne_empty_of_readSteps (h : Linkless d) (hhere : ∀ t ∈ here.parts, t ≠ "")
    (hr : readSteps d through seen here steps = .ok r) :
    r.path.anchor = here.anchor ∧ ∀ t ∈ r.path.parts, t ≠ "" := by
  induction steps generalizing here with
  | nil =>
    cases hr
    exact ⟨rfl, hhere⟩
  | cons s rest ih =>
    have hchild : ∀ t, t ≠ "" → ∀ u ∈ (here.child t).parts, u ≠ "" := by
      intro t ht u hu
      rcases List.mem_append.mp hu with hu | hu
      · exact hhere u hu
      · exact List.mem_singleton.mp hu ▸ ht
    rcases h.readSteps_cons hr with ⟨-, hr⟩ | ⟨-, hr⟩ | ⟨hs, hr⟩
    · exact ih hhere hr
    · have hup : ∀ u ∈ here.up.parts, u ≠ "" := by
        unfold Path.up
        split
        · exact fun u hu => hhere u (List.dropLast_subset _ hu)
        split
        · exact hchild ".." (by decide)
        · exact hchild ".." (by decide)
        · exact fun u hu => hhere u (List.dropLast_subset _ hu)
      have hanchor : here.up.anchor = here.anchor := by
        unfold Path.up
        split
        · rfl
        split <;> rfl
      rw [← hanchor]
      exact ih hup hr
    · show r.path.anchor = (here.child s).anchor ∧ _
      exact ih (hchild s hs.ne_empty) hr

/-- A reading from the top is the textual one. -/
theorem Linkless.path_of_readSteps (h : Linkless d) (habs : here.isAbsolute)
    (hsteps : ∀ t ∈ steps, t ≠ "") (hr : readSteps d through seen here steps = .ok r) :
    r.path = ⟨here.anchor, steps.foldl Path.stepLexical here.parts⟩ := by
  induction steps generalizing here with
  | nil =>
    cases hr
    rfl
  | cons s rest ih =>
    obtain ⟨hne, hrest⟩ := List.forall_mem_cons.mp hsteps
    rw [List.foldl_cons]
    rcases h.readSteps_cons hr with ⟨hs, hr'⟩ | ⟨rfl, hr'⟩ | ⟨hs, hr'⟩
    · rw [hs.resolve_left hne, Path.stepLexical_dot]
      exact ih habs hrest hr'
    · have hup : here.up = here.parent := if_pos habs
      rw [Path.stepLexical_up]
      have habs' : here.up.isAbsolute := hup ▸ habs
      rw [ih habs' hrest hr', hup]
      rfl
    · rw [Path.stepLexical_of_isStep hs]
      have habs' : (here.child s).isAbsolute := habs
      rw [ih habs' hrest hr']
      rfl

end

/-- The plain path of a path from the top is the textual one. -/
theorem Linkless.eq_of_resolve (h : Linkless d) {q : Path} (habs : p.isAbsolute)
    (hparts : ∀ s ∈ p.parts, s ≠ "") (hq : d.resolve p = .ok q) :
    q = .ofPlace (p.parts.foldl Path.stepLexical []) := by
  obtain ⟨reading, hread, hreal⟩ := bind_eq_ok.mp (resolve_eq_ok.mp hq).1
  cases hreal
  rw [if_pos habs] at hread
  have hpath := h.path_of_readSteps rfl hparts hread
  have hsteps : ∀ s ∈ p.parts.foldl Path.stepLexical [], IsStep s :=
    Path.isStep_foldl_stepLexical hparts (by simp)
  have hplace : d.placeOf ⟨"/", p.parts.foldl Path.stepLexical []⟩ = _ :=
    Path.lexical_eq (p := ⟨"/", p.parts.foldl Path.stepLexical []⟩) rfl hsteps _
  simp only [hpath, hplace]
  rfl

/-- A walk without links ends where the textual reading says. -/
theorem Linkless.eq_of_walk (h : Linkless d) {making : Bool} {n : Nat} {here : Place}
    {steps : List String} (hwalk : Walk d making k n here steps) (hsteps : ∀ s ∈ steps, s ≠ "") :
    k = steps.foldl Path.stepLexical here := by
  induction hwalk with
  | done => rfl
  | stay hs _ ih =>
    obtain ⟨hne, hrest⟩ := List.forall_mem_cons.mp hsteps
    rw [List.foldl_cons, (hs.resolve_left hne).1, Path.stepLexical_dot]
    exact ih hrest
  | up _ _ ih =>
    rw [List.foldl_cons, Path.stepLexical_up]
    exact ih (List.forall_mem_cons.mp hsteps).2
  | ends _ hs _ hq =>
    rw [List.foldl_cons, Path.stepLexical_of_isStep hs.toIsStep]
    exact hq
  | down _ hs _ _ ih =>
    rw [List.foldl_cons, Path.stepLexical_of_isStep hs.toIsStep]
    exact ih (List.forall_mem_cons.mp hsteps).2
  | link _ _ he _ _ => exact absurd he (h _ _)

/-- What a path from the top opens, its plain path opens too: it is not longer. -/
theorem Linkless.find_of_resolve (h : Linkless d) (hd : Sound d) {q : Path} {e : Entry}
    (habs : p.isAbsolute) (hparts : ∀ s ∈ p.parts, s ≠ "") (hfind : d.find p = .ok (some e))
    (hq : d.resolve p = .ok q) : d.find q = .ok (some e) := by
  obtain ⟨place, hplace, he⟩ := find_eq_some.mp hfind
  obtain ⟨hcheck, hwalk⟩ := reach_eq_ok.mp hplace
  rw [startOf, if_pos habs] at hwalk
  have heq := h.eq_of_walk hwalk hparts
  have hnames : ∀ s ∈ place, IsName s := fun s hs => hd.isName (by rw [he]; rfl) hs
  rw [h.eq_of_resolve habs hparts hq, ← heq]
  have hshort : (Path.ofPlace place).toString.utf8ByteSize ≤ pathLimit := by
    rw [heq]
    exact Nat.le_trans (Path.size_lexical_le habs) (checkPath_eq_ok.mp hcheck).2
  refine hd.find_eq (p := .ofPlace place) rfl ?_ he (passable_of_reach habs hplace)
    fun t ht => h place t (ht ▸ he)
  exact checkPath_eq_ok.mpr ⟨null_not_mem_toString (Or.inl rfl) hnames, hshort⟩

/-- On a disk without links what a path is resolved to is plain. -/
theorem Linkless.isPlain_of_resolve (h : Linkless d) (hd : Sound d) {q : Path}
    (hq : d.resolve p = .ok q) : Path.IsPlain q := by
  obtain ⟨reading, hread, hreal⟩ := bind_eq_ok.mp (resolve_eq_ok.mp hq).1
  cases hreal
  obtain ⟨hanchor, hparts⟩ := h.ne_empty_of_readSteps (by simp) hread
  refine ⟨?_, ?_⟩
  · have hne : reading.path.anchor ≠ "//" := by
      rw [hanchor]
      simp only
      split <;> decide
    exact if_neg hne
  · refine Path.isStep_foldl_stepLexical ?_ (by simp)
    intro s hs
    unfold Path.join at hs
    split at hs
    · exact hparts s hs
    · rcases List.mem_append.mp hs with hs | hs
      · have hcwd : (d.entry? d.cwd).isSome := by rw [hd.cwd]; rfl
        exact (hd.isName hcwd hs).ne_empty
      · exact hparts s hs

end Disk

end CodeAtlas
