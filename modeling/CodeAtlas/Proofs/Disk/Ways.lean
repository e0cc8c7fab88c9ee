import CodeAtlas.Disk.Change
import CodeAtlas.Proofs.Disk.Entries
import CodeAtlas.Proofs.Path
/-
  Where paths lead.

  `Walk d making q n here steps` says that the steps lead from `here` to `q`,
  through at most `n` links. It has one rule for each thing that a step can do,
  and says the same as the function that takes the steps (`followLinks_eq_ok`).

  What is proved:
    1. `Walk.transfer`: a walk can be made on another disk where its ways are
       kept. So paths lead to the same places on disks with the same folders and
       links (`reach_congr`), and what a path opens on a disk it opens on every
       disk that holds more (`find_of_subdisk`).
    2. `Walk.after_folder`: a walk that has come to a folder goes on from there.
    3. `Walk.direct` and `walk_of_folders`: a walk that meets no link ends where
       its steps say, and it does end there when there are folders all the way
       and none of them is closed.
    4. `Walk.passable`: what can be walked to from the top lies below folders
       that can be gone through.
-/

namespace CodeAtlas.Disk

variable {d d' : Disk} {making : Bool} {here q : Place} {s : String} {steps rest : List String}
  {n m : Nat}

/-- A step that leads to the entry of its name. -/
structure IsStep (s : String) : Prop where
  ne_empty : s ≠ ""
  ne_dot : s ≠ "."
  ne_up : s ≠ ".."

/-! ## Walks -/

/-- A step to an entry that is not refused. -/
structure CanStep (making : Bool) (s : String) (rest : List String) : Prop extends IsStep s where
  short : s.utf8ByteSize ≤ nameLimit
  notSlash : ¬(making ∧ rest = [""])

/-- The steps lead from a place to `q`, through at most so many links. -/
inductive Walk (d : Disk) (making : Bool) (q : Place) : Nat → Place → List String → Prop
  | done {n : Nat} : Walk d making q n q []
  | stay {n : Nat} {here : Place} {s : String} {rest : List String}
    (hs : s = "" ∨ s = "." ∧ d.mayEnter here) (h : Walk d making q n here rest) :
    Walk d making q n here (s :: rest)
  | up {n : Nat} {here : Place} {rest : List String} (hin : d.mayEnter here)
    (h : Walk d making q n here.dropLast rest) : Walk d making q n here (".." :: rest)
  | ends {n : Nat} {here : Place} {s : String} (hin : d.mayEnter here) (hs : CanStep making s [])
    (hb : Blocks (d.entry? (here ++ [s]))) (hq : q = here ++ [s]) : Walk d making q n here [s]
  | down {n : Nat} {here : Place} {s : String} {rest : List String} (hin : d.mayEnter here)
    (hs : CanStep making s rest) (he : d.entry? (here ++ [s]) = some .folder)
    (h : Walk d making q n (here ++ [s]) rest) : Walk d making q n here (s :: rest)
  | link {n : Nat} {here : Place} {s target : String} {rest : List String} (hin : d.mayEnter here)
    (hs : CanStep making s rest) (he : d.entry? (here ++ [s]) = some (.link target))
    (h : Walk d making q n (linkStart here target) (linkSteps target rest)) :
    Walk d making q (n + 1) here (s :: rest)

theorem Walk.of_follow {through : Place → List String → Except Trouble Place}
    (ht : ∀ here steps, through here steps = .ok q → ∃ m, n = m + 1 ∧ Walk d making q m here steps)
    (h : follow d making through here steps = .ok q) : Walk d making q n here steps := by
  induction steps generalizing here with
  | nil =>
    cases h
    exact .done
  | cons s rest ih =>
    rw [follow] at h
    split at h
    · next hempty => exact .stay (Or.inl hempty) (ih h)
    split at h
    · cases h
    next hempty hclosed =>
    have hin : d.mayEnter here := by simpa using hclosed
    split at h
    · next hdot => exact .stay (Or.inr ⟨hdot, hin⟩) (ih h)
    split at h
    · next hup =>
      subst hup
      exact .up hin (ih h)
    split at h
    · cases h
    split at h
    · cases h
    next hdot hup hslash hlong =>
    have hs : CanStep making s rest := ⟨⟨hempty, hdot, hup⟩, Nat.not_lt.mp hlong, hslash⟩
    -- nothing and a file both end the walk
    have hends : ∀ t : Trouble, Blocks (d.entry? (here ++ [s])) →
        (if rest = [] then Except.ok (here ++ [s]) else .error t) = .ok q →
        Walk d making q n here (s :: rest) := by
      intro t hb hq
      split at hq
      · next hrest =>
        subst hrest
        exact .ends hin hs hb (Except.ok.inj hq).symm
      · cases hq
    cases he : d.entry? (here ++ [s]) with
    | none =>
      simp only [he] at h
      exact hends _ (he ▸ trivial) h
    | some e =>
      simp only [he] at h
      cases e with
      | folder => exact .down hin hs he (ih h)
      | file c => exact hends _ (he ▸ trivial) h
      | link target =>
        obtain ⟨m, rfl, hwalk⟩ := ht _ _ h
        exact .link hin hs he hwalk

theorem followLinks_eq_follow (d : Disk) (making : Bool) (n : Nat) :
    ∃ through, followLinks d making n = follow d making through := by
  cases n with
  | zero => exact ⟨_, rfl⟩
  | succ n => exact ⟨_, rfl⟩

theorem follow_of_canStep (through : Place → List String → Except Trouble Place)
    (hin : d.mayEnter here) (hs : CanStep making s rest) : follow d making through here (s :: rest)
      = match d.entry? (here ++ [s]) with
        | none => if rest = [] then .ok (here ++ [s]) else .error .notFound
        | some .folder => follow d making through (here ++ [s]) rest
        | some (.file _) => if rest = [] then .ok (here ++ [s]) else .error .notFolder
        | some (.link target) => through (linkStart here target) (linkSteps target rest) := by
  rw [follow, if_neg hs.ne_empty, if_neg (by simp [hin]), if_neg hs.ne_dot, if_neg hs.ne_up,
    if_neg hs.notSlash]
  exact if_neg (Nat.not_lt.mpr hs.short)

/-- The walks are those that are made. -/
theorem followLinks_eq_ok : followLinks d making n here steps = .ok q ↔
    Walk d making q n here steps := by
  constructor
  · intro h
    induction n generalizing here steps with
    | zero => exact .of_follow (fun _ _ ht => by cases ht) h
    | succ n ih => exact .of_follow (fun _ _ ht => ⟨n, rfl, ih ht⟩) h
  · intro h
    induction h with
    | @done n =>
      obtain ⟨through, heq⟩ := followLinks_eq_follow d making n
      rw [heq]
      rfl
    | @stay n here s rest hs _ ih =>
      obtain ⟨through, heq⟩ := followLinks_eq_follow d making n
      rw [heq] at ih ⊢
      rw [follow]
      rcases hs with hempty | ⟨rfl, hin⟩
      · rw [if_pos hempty]
        exact ih
      · rw [if_neg (by decide), if_neg (by simp [hin]), if_pos rfl]
        exact ih
    | @up n here rest hin _ ih =>
      obtain ⟨through, heq⟩ := followLinks_eq_follow d making n
      rw [heq] at ih ⊢
      rw [follow, if_neg (by decide), if_neg (by simp [hin]), if_neg (by decide), if_pos rfl]
      exact ih
    | @ends n here s hin hs hb hq =>
      obtain ⟨through, heq⟩ := followLinks_eq_follow d making n
      rw [heq, follow_of_canStep through hin hs, hq]
      rcases blocks_iff.mp hb with he | ⟨c, he⟩ <;> rw [he] <;> rfl
    | @down n here s rest hin hs he _ ih =>
      obtain ⟨through, heq⟩ := followLinks_eq_follow d making n
      rw [heq] at ih ⊢
      rw [follow_of_canStep through hin hs, he]
      exact ih
    | link hin hs he _ ih =>
      rw [followLinks, follow_of_canStep _ hin hs, he]
      exact ih

theorem reach_eq_ok {p : Path} : d.reach making p = .ok q ↔
    checkPath p = .ok () ∧ Walk d making q linkLimit (d.startOf p) p.parts := by
  rw [reach, bind_eq_ok, ← followLinks_eq_ok]
  constructor
  · rintro ⟨u, hcheck, hwalk⟩
    exact ⟨hcheck, hwalk⟩
  · rintro ⟨hcheck, hwalk⟩
    exact ⟨(), hcheck, hwalk⟩

/-! ## One step -/

theorem IsStep.not_stay (hs : IsStep s) : ¬(s = "" ∨ s = ".") := fun h =>
  h.elim hs.ne_empty hs.ne_dot

theorem Walk.tail_of_stay (hs : s = "" ∨ s = ".") (h : Walk d making q n here (s :: rest)) :
    Walk d making q n here rest := by
  cases h with
  | stay _ h => exact h
  | up => simp at hs
  | ends _ hs' => exact absurd hs hs'.not_stay
  | down _ hs' => exact absurd hs hs'.not_stay
  | link _ hs' => exact absurd hs hs'.not_stay

theorem walk_up : Walk d making q n here (".." :: rest) ↔
    d.mayEnter here ∧ Walk d making q n here.dropLast rest := by
  refine ⟨fun h => ?_, fun ⟨hin, h⟩ => .up hin h⟩
  cases h with
  | stay hs h => simp at hs
  | up hin h => exact ⟨hin, h⟩
  | ends _ hs => exact absurd rfl hs.ne_up
  | down _ hs => exact absurd rfl hs.ne_up
  | link _ hs => exact absurd rfl hs.ne_up

/-- A step to an entry goes through the folder, and then ends the walk, goes on
below, or goes through a link. -/
theorem Walk.step_cases (hs : IsStep s) (h : Walk d making q n here (s :: rest)) :
    d.mayEnter here ∧
    ((Blocks (d.entry? (here ++ [s])) ∧ rest = [] ∧ q = here ++ [s]) ∨
    (d.entry? (here ++ [s]) = some .folder ∧ Walk d making q n (here ++ [s]) rest) ∨
    ∃ target m, n = m + 1 ∧ d.entry? (here ++ [s]) = some (.link target) ∧
      Walk d making q m (linkStart here target) (linkSteps target rest)) := by
  cases h with
  | stay hs' => exact absurd (hs'.imp id And.left) hs.not_stay
  | up => exact absurd rfl hs.ne_up
  | ends hin _ hb hq => exact ⟨hin, Or.inl ⟨hb, rfl, hq⟩⟩
  | down hin _ he h => exact ⟨hin, Or.inr (Or.inl ⟨he, h⟩)⟩
  | link hin _ he h => exact ⟨hin, Or.inr (Or.inr ⟨_, _, rfl, he, h⟩)⟩

/-! ## The walks of two disks -/

/-- The ways to `q` on the first disk are ways on the second: the same folders
can be gone through, where the disks differ no way goes on, and at `q` itself
none needs to. -/
structure KeepsWays (d d' : Disk) (q : Place) : Prop where
  enter : ∀ p, d.mayEnter p = d'.mayEnter p
  entries : ∀ p, d.entry? p = d'.entry? p ∨
    Blocks (d.entry? p) ∧ (p = q → Blocks (d'.entry? p))

theorem KeepsWays.refl (d : Disk) (q : Place) : KeepsWays d d q :=
  ⟨fun _ => rfl, fun _ => Or.inl rfl⟩

theorem SameWays.keepsWays (h : SameWays d d') (q : Place) : KeepsWays d d' q :=
  ⟨h.enter, fun p => (h.entry p).imp id fun ⟨hb, hb'⟩ => ⟨hb, fun _ => hb'⟩⟩

theorem Subdisk.keepsWays (h : Subdisk d' d) (hq : (d'.entry? q).isSome) : KeepsWays d' d q := by
  refine ⟨h.enter, fun p => ?_⟩
  cases he : d'.entry? p with
  | some e => exact Or.inl (h.entry he).symm
  | none =>
    refine Or.inr ⟨trivial, ?_⟩
    rintro rfl
    rw [he] at hq
    cases hq

theorem KeepsWays.entry {p : Place} {e : Entry} (h : KeepsWays d d' q) (he : d.entry? p = some e)
    (hb : ¬Blocks (some e)) : d'.entry? p = some e := by
  rcases h.entries p with heq | ⟨hb', -⟩
  · rw [← heq]
    exact he
  · rw [he] at hb'
    exact absurd hb' hb

theorem CanStep.mono {making' : Bool} (hs : CanStep making s rest) (h : making' → making) :
    CanStep making' s rest :=
  ⟨hs.toIsStep, hs.short, fun hslash => hs.notSlash ⟨h hslash.1, hslash.2⟩⟩

/-- A walk can be made where its ways are kept, also when nothing is to be made
at its end, and with more links to go through. -/
theorem Walk.transfer {making' : Bool} (hwalk : Walk d making q m here steps)
    (h : KeepsWays d d' q) (hmaking : making' → making) (hmn : m ≤ n) :
    Walk d' making' q n here steps := by
  induction hwalk generalizing n with
  | done => exact .done
  | stay hs _ ih => exact .stay (hs.imp id (And.imp id (h.enter _ ▸ ·))) (ih hmn)
  | up hin _ ih => exact .up (h.enter _ ▸ hin) (ih hmn)
  | ends hin hs hb hq =>
    refine .ends (h.enter _ ▸ hin) (hs.mono hmaking) ?_ hq
    rcases h.entries (_ ++ [_]) with heq | ⟨-, hb'⟩
    · exact heq ▸ hb
    · exact hb' hq.symm
  | down hin hs he _ ih =>
    exact .down (h.enter _ ▸ hin) (hs.mono hmaking) (h.entry he id) (ih hmn)
  | link hin hs he _ ih =>
    obtain ⟨n, rfl⟩ := Nat.exists_eq_add_of_le' (Nat.zero_lt_of_lt hmn)
    exact .link (h.enter _ ▸ hin) (hs.mono hmaking) (h.entry he id)
      (ih (Nat.le_of_succ_le_succ hmn))

theorem reach_of_keepsWays {making' : Bool} (h : KeepsWays d d' q) (hcwd : d.cwd = d'.cwd)
    (hmaking : making' → making) {p : Path} (hp : d.reach making p = .ok q) :
    d'.reach making' p = .ok q := by
  obtain ⟨hcheck, hwalk⟩ := reach_eq_ok.mp hp
  refine reach_eq_ok.mpr ⟨hcheck, ?_⟩
  rw [startOf, ← hcwd]
  exact hwalk.transfer h hmaking (Nat.le_refl _)

/-- A path leads to the same place on disks with the same folders and links, if
it leads anywhere. -/
theorem reach_congr (h : SameWays d d') {p : Path} :
    d.reach making p = .ok q ↔ d'.reach making p = .ok q :=
  ⟨reach_of_keepsWays (h.keepsWays q) h.cwd id,
    reach_of_keepsWays (h.symm.keepsWays q) h.cwd.symm id⟩

theorem locate_of_subdisk (h : Subdisk d' d) {p : Path} (hp : d'.locate p = .ok q)
    (hq : (d'.entry? q).isSome) : d.locate p = .ok q :=
  reach_of_keepsWays (h.keepsWays hq) h.cwd id hp

/-! ## What a path opens -/

theorem stat_eq_ok {p : Path} {e : Entry} :
    d.stat p = .ok e ↔ ∃ q, d.locate p = .ok q ∧ d.entry? q = some e := by
  unfold stat
  rw [bind_eq_ok]
  constructor
  · rintro ⟨q, hq, h⟩
    cases he : d.entry? q with
    | none => rw [he] at h; cases h
    | some e' =>
      rw [he] at h
      cases h
      exact ⟨q, hq, he⟩
  · rintro ⟨q, hq, he⟩
    exact ⟨q, hq, by rw [he]; rfl⟩

theorem find_eq_some {p : Path} {e : Entry} :
    d.find p = .ok (some e) ↔ ∃ q, d.locate p = .ok q ∧ d.entry? q = some e := by
  rw [← stat_eq_ok, find]
  cases d.stat p with
  | ok e' => simp
  | error t => cases t <;> simp

theorem pathExists_eq_true {p : Path} :
    d.pathExists p = .ok true ↔ ∃ e, d.find p = .ok (some e) := by
  rw [pathExists]
  cases d.find p with
  | error t => simp [Except.map]
  | ok e => cases e <;> simp [Except.map]

theorem pathExists_eq_error {p : Path} {t : Trouble} :
    d.pathExists p = .error t ↔ d.find p = .error t := by
  rw [pathExists]
  cases d.find p <;> simp [Except.map]

/-- Only a path that is too long and one through a closed folder cannot be asked
about. -/
theorem find_eq_error {p : Path} {t : Trouble} :
    d.find p = .error t ↔ (t = .nameTooLong ∨ t = .notPermitted) ∧ d.stat p = .error t := by
  rw [find]
  cases d.stat p with
  | ok e => simp
  | error u => cases u <;> cases t <;> simp

theorem locateFolder_eq_ok {p : Path} :
    d.locateFolder p = .ok q ↔ d.locate p = .ok q ∧ d.entry? q = some .folder := by
  rw [locateFolder, bind_eq_ok]
  constructor
  · rintro ⟨f, hf, h⟩
    split at h
    · next he =>
      cases h
      exact ⟨hf, he⟩
    · cases h
    · cases h
  · rintro ⟨hq, he⟩
    refine ⟨q, hq, ?_⟩
    rw [he]
    rfl

theorem names_eq_ok {p : Path} {names : List String} : d.names p = .ok names ↔
    ∃ f, d.locate p = .ok f ∧ d.entry? f = some .folder ∧ d.mayRead f ∧ names = d.namesAt f := by
  rw [Disk.names, bind_eq_ok]
  constructor
  · rintro ⟨f, hf, h⟩
    split at h
    · next he =>
      split at h
      · next hread =>
        cases h
        exact ⟨f, hf, he, hread, rfl⟩
      · cases h
    · cases h
    · cases h
  · rintro ⟨f, hf, he, hread, rfl⟩
    refine ⟨f, hf, ?_⟩
    rw [he]
    exact if_pos hread

/-- What a path opens it opens on every disk that holds more. -/
theorem find_of_subdisk (h : Subdisk d' d) {p : Path} {e : Entry}
    (hp : d'.find p = .ok (some e)) : d.find p = .ok (some e) := by
  obtain ⟨q, hq, he⟩ := find_eq_some.mp hp
  exact find_eq_some.mpr ⟨q, locate_of_subdisk h hq (by rw [he]; rfl), h.entry he⟩

/-! ## Going on from a folder -/

theorem linkSteps_of_ne_nil (target : String) (h : rest ≠ []) :
    linkSteps target rest = (linkParts target).filter (· ≠ "") ++ rest := by
  simp [linkSteps, h]

/-- An empty step may stand before others. -/
theorem Walk.insert_empty (hrest : rest ≠ []) (h : Walk d false q n here (steps ++ rest)) :
    Walk d false q n here (steps ++ "" :: rest) := by
  generalize hall : steps ++ rest = all at h
  induction h generalizing steps with
  | done => simp [hrest] at hall
  | @stay n here s more hs h ih =>
    cases steps with
    | nil => exact .stay (Or.inl rfl) ((List.nil_append rest).symm.trans hall ▸ .stay hs h)
    | cons t steps =>
      obtain ⟨rfl, hmore⟩ := List.cons.inj hall
      exact .stay hs (ih hmore)
  | @up n here more hin h ih =>
    cases steps with
    | nil => exact .stay (Or.inl rfl) ((List.nil_append rest).symm.trans hall ▸ .up hin h)
    | cons t steps =>
      obtain ⟨rfl, hmore⟩ := List.cons.inj hall
      exact .up hin (ih hmore)
  | @ends n here s hin hs hb hq =>
    cases steps with
    | nil => exact .stay (Or.inl rfl) ((List.nil_append rest).symm.trans hall ▸ .ends hin hs hb hq)
    | cons t steps => simp [hrest] at hall
  | @down n here s more hin hs he h ih =>
    cases steps with
    | nil => exact .stay (Or.inl rfl) ((List.nil_append rest).symm.trans hall ▸ .down hin hs he h)
    | cons t steps =>
      obtain ⟨rfl, hmore⟩ := List.cons.inj hall
      exact .down hin ⟨hs.toIsStep, hs.short, by simp⟩ he (ih hmore)
  | @link n here s target more hin hs he h ih =>
    cases steps with
    | nil => exact .stay (Or.inl rfl) ((List.nil_append rest).symm.trans hall ▸ .link hin hs he h)
    | cons t steps =>
      rw [List.cons_append] at hall ⊢
      obtain ⟨rfl, rfl⟩ := List.cons.inj hall
      refine .link hin ⟨hs.toIsStep, hs.short, by simp⟩ he ?_
      rw [linkSteps_of_ne_nil target (by simp), ← List.append_assoc]
      refine ih ?_
      rw [linkSteps_of_ne_nil target (by simp [hrest]), List.append_assoc]

/-- A walk that has come to a folder goes on from there. -/
theorem Walk.after_folder {f : Place} (h : Walk d false f n here steps)
    (hf : d.entry? f = some .folder) (hrest : rest ≠ [])
    (hq : Walk d false q n here (steps ++ rest)) : Walk d false q n f rest := by
  induction h with
  | done => exact hq
  | stay hs _ ih => exact ih (hq.tail_of_stay (hs.imp id And.left))
  | up _ _ ih => exact ih (walk_up.mp hq).2
  | ends _ hs hb hplace =>
    rw [← hplace, hf] at hb
    exact absurd hb id
  | down _ hs he _ ih =>
    rcases (hq.step_cases hs.toIsStep).2 with ⟨hb, -⟩ | ⟨-, hq⟩ | ⟨target, m, -, he', -⟩
    · rw [he] at hb
      exact absurd hb id
    · exact ih hq
    · rw [he] at he'
      cases he'
  | @link n here s target xs _ hs he _ ih =>
    rw [List.cons_append] at hq
    rcases (hq.step_cases hs.toIsStep).2 with ⟨hb, -⟩ | ⟨he', -⟩ | ⟨target', m, hm, he', hq⟩
    · rw [he] at hb
      exact absurd hb id
    · rw [he] at he'
      cases he'
    · rw [he] at he'
      cases he'
      cases hm
      refine (ih ?_).transfer (.refl d q) id (Nat.le_succ n)
      have hne : xs ++ rest ≠ [] := by simp [hrest]
      rw [linkSteps_of_ne_nil target hne] at hq
      by_cases hslash : (linkParts target).getLast? = some "" ∧ xs = []
      · -- The slash at the end of the link asked for a folder; now a step asks for it.
        rw [hslash.2, List.nil_append] at hq
        rw [linkSteps, if_pos hslash, hslash.2, List.append_nil, List.append_assoc]
        exact hq.insert_empty hrest
      · rw [linkSteps, if_neg hslash, List.append_nil, List.append_assoc]
        exact hq

/-! ## Walks that meet no link -/

/-- A walk that meets no link ends where its steps say. None of the steps is too
long, and all folders but the last can be gone through. -/
theorem Walk.direct (h : Walk d making q n here steps) (hsteps : ∀ s ∈ steps, IsStep s)
    (hway : ∀ way t, way <+: steps → d.entry? (here ++ way) ≠ some (.link t)) :
    q = here ++ steps ∧ (∀ s ∈ steps, s.utf8ByteSize ≤ nameLimit) ∧
      ∀ way, way <+: steps → way ≠ steps → d.mayEnter (here ++ way) := by
  induction h with
  | done =>
    exact ⟨(List.append_nil q).symm, by simp, fun way hway hne =>
      absurd (List.prefix_nil.mp hway) hne⟩
  | stay hs _ _ => exact absurd (hs.imp id And.left) (hsteps _ List.mem_cons_self).not_stay
  | up _ _ _ => exact absurd rfl (hsteps _ List.mem_cons_self).ne_up
  | ends hin hs _ hq =>
    refine ⟨hq, by simpa using hs.short, fun way hway hne => ?_⟩
    rw [← List.nil_append [_]] at hway hne
    rw [List.prefix_nil.mp ((List.prefix_concat_iff.mp hway).resolve_left hne), List.append_nil]
    exact hin
  | @down n here s rest hin hs he _ ih =>
    have hrest := ih (fun t ht => hsteps t (List.mem_cons_of_mem s ht)) fun way t hpre => by
      rw [List.append_assoc, List.singleton_append]
      exact hway (s :: way) t ((List.prefix_cons_inj s).mpr hpre)
    rw [List.append_assoc, List.singleton_append] at hrest
    refine ⟨hrest.1, List.forall_mem_cons.mpr ⟨hs.short, hrest.2.1⟩, fun way hpre hne => ?_⟩
    cases way with
    | nil =>
      rw [List.append_nil]
      exact hin
    | cons t way =>
      obtain ⟨rfl, hbelow⟩ := List.cons_prefix_cons.mp hpre
      have henter := hrest.2.2 way hbelow (by simpa using hne)
      rwa [List.append_assoc, List.singleton_append] at henter
  | @link n here s target rest _ hs he _ _ => exact absurd he (hway [s] target ⟨rest, rfl⟩)

/-- A walk through folders, none of them closed, comes to its end, also when there
is no entry. -/
theorem walk_of_folders (hsteps : ∀ s ∈ steps, IsStep s)
    (hshort : ∀ s ∈ steps, s.utf8ByteSize ≤ nameLimit)
    (hway : ∀ way, way <+: steps → way ≠ steps → d.entry? (here ++ way) = some .folder)
    (henter : ∀ way, way <+: steps → way ≠ steps → d.mayEnter (here ++ way))
    (hend : ∀ t, d.entry? (here ++ steps) ≠ some (.link t)) :
    Walk d making (here ++ steps) n here steps := by
  induction steps generalizing here with
  | nil =>
    rw [List.append_nil]
    exact .done
  | cons s rest ih =>
    have hs : CanStep making s rest := by
      refine ⟨hsteps s List.mem_cons_self, hshort s List.mem_cons_self, ?_⟩
      rintro ⟨-, rfl⟩
      exact (hsteps "" (by simp)).ne_empty rfl
    have hhere : here ++ s :: rest = here ++ [s] ++ rest := by simp
    have hin : d.mayEnter here := by
      have hin := henter [] List.nil_prefix (by simp)
      rwa [List.append_nil] at hin
    have hbelow : ∀ {P : Place → Prop}, (∀ way, way <+: s :: rest → way ≠ s :: rest →
        P (here ++ way)) → ∀ way, way <+: rest → way ≠ rest → P (here ++ [s] ++ way) := by
      intro P hP way hpre hne
      rw [List.append_assoc, List.singleton_append]
      exact hP (s :: way) ((List.prefix_cons_inj s).mpr hpre) (by simpa using hne)
    have hrest := ih (fun t ht => hsteps t (List.mem_cons_of_mem s ht))
      (fun t ht => hshort t (List.mem_cons_of_mem s ht))
      (hbelow (P := fun k => d.entry? k = some .folder) hway)
      (hbelow (P := fun k => d.mayEnter k) henter) (by rwa [← hhere])
    rw [hhere]
    by_cases hlast : rest = []
    · subst hlast
      cases he : d.entry? (here ++ [s]) with
      | none => exact .ends hin hs (he ▸ trivial) (List.append_nil _)
      | some e =>
        cases e with
        | folder => exact .down hin hs he hrest
        | file c => exact .ends hin hs (he ▸ trivial) (List.append_nil _)
        | link target => exact absurd he (hend target)
    · exact .down hin hs (hway [s] ⟨rest, rfl⟩ (by simpa using Ne.symm hlast)) hrest

/-- Without links a walk ends under the name of its last step. -/
theorem Walk.last (h : Walk d making q n here (steps ++ [s])) (hs : IsStep s)
    (hlinks : ∀ p t, d.entry? p ≠ some (.link t)) : ∃ f, q = f ++ [s] := by
  generalize hall : steps ++ [s] = all at h
  induction h generalizing steps with
  | done => simp at hall
  | stay hx _ ih =>
    cases steps with
    | nil =>
      obtain ⟨rfl, -⟩ := List.cons.inj hall
      exact absurd (hx.imp id And.left) hs.not_stay
    | cons t steps => exact ih (List.cons.inj hall).2
  | up _ _ ih =>
    cases steps with
    | nil => exact absurd (List.cons.inj hall).1 hs.ne_up
    | cons t steps => exact ih (List.cons.inj hall).2
  | @ends n here x _ hx hb hq =>
    cases steps with
    | nil => exact ⟨here, (List.cons.inj hall).1 ▸ hq⟩
    | cons t steps => simp at hall
  | @down n here x rest _ hx he h ih =>
    cases steps with
    | nil =>
      obtain ⟨rfl, rfl⟩ := List.cons.inj hall
      cases h
      exact ⟨here, rfl⟩
    | cons t steps => exact ih (List.cons.inj hall).2
  | link _ hx he _ _ => exact absurd he (hlinks _ _)

/-! ## Closed folders -/

/-- Every folder on the way down to a place can be gone through. -/
def Passable (d : Disk) (k : Place) : Prop := ∀ way, way <+: k → way ≠ k → d.mayEnter way

variable {k : Place}

theorem passable_nil (d : Disk) : Passable d [] := fun _ hway hne =>
  absurd (List.prefix_nil.mp hway) hne

theorem passable_concat : Passable d (k ++ [s]) ↔ Passable d k ∧ d.mayEnter k := by
  constructor
  · intro h
    refine ⟨fun way hway _ => h way (hway.trans (List.prefix_append _ _)) ?_,
      h k (List.prefix_append _ _) (by simp)⟩
    rintro rfl
    have hlen := hway.length_le
    rw [List.length_append, List.length_singleton] at hlen
    omega
  · rintro ⟨hk, hin⟩ way hway hne
    have hway := (List.prefix_concat_iff.mp hway).resolve_left hne
    by_cases heq : way = k
    · rw [heq]
      exact hin
    · exact hk way hway heq

theorem Passable.of_prefix {way : Place} (h : Passable d k) (hway : way <+: k) :
    Passable d way := by
  intro way' hway' hne
  refine h way' (hway'.trans hway) ?_
  rintro rfl
  exact hne (hway'.eq_of_length (Nat.le_antisymm hway'.length_le hway.length_le))

theorem Passable.congr (h : ∀ p, d.mayEnter p = d'.mayEnter p) : Passable d k ↔ Passable d' k := by
  simp only [Passable, h]

theorem passable_iff : Passable d k ↔ ∀ i < k.length, d.mayEnter (k.take i) := by
  constructor
  · intro h i hi
    refine h _ (List.take_prefix i k) fun heq => ?_
    have hlen := congrArg List.length heq
    rw [List.length_take] at hlen
    omega
  · intro h way hway hne
    have hlen : way.length < k.length :=
      Nat.lt_of_le_of_ne hway.length_le fun heq => hne (hway.eq_of_length heq)
    rw [List.prefix_iff_eq_take.mp hway]
    exact h _ hlen

instance (d : Disk) (k : Place) : Decidable (Passable d k) := decidable_of_iff _ passable_iff.symm

/-- What is walked to from below folders that can be gone through lies below such
folders. -/
theorem Walk.passable (h : Walk d making q n here steps) (hhere : Passable d here) :
    Passable d q := by
  induction h with
  | done => exact hhere
  | stay _ _ ih => exact ih hhere
  | up _ _ ih => exact ih (hhere.of_prefix (List.dropLast_prefix _))
  | ends hin _ _ hq => exact hq ▸ passable_concat.mpr ⟨hhere, hin⟩
  | down hin _ _ _ ih => exact ih (passable_concat.mpr ⟨hhere, hin⟩)
  | @link n here s target rest _ _ _ _ ih =>
    refine ih ?_
    rw [linkStart]
    split
    · exact passable_nil d
    · exact hhere

end CodeAtlas.Disk
