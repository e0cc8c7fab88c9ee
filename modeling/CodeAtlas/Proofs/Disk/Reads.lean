import CodeAtlas.Proofs.Disk.Opens
/-
  Plain names on a disk with links.

  `Reads d n here steps r` says that the steps lead from `here` to the path `r`,
  through `n` links, those inside links counted. It has one rule for each thing
  that a step can do. It remembers nothing, and it never takes a link for a
  plain name; the function that gives plain names does both.

  What is proved:
    1. `Reads.exists_readLinks`: the function comes to the same path. What it
       remembers of links is true, and a link that is still being read does not
       come up again: it would go through fewer links than itself.
    2. `Reads.walk`: opening takes the same way.
    3. `Opens.realPath_of_legible`: so the plain name of a path that opens an
       entry is that of its place, unless a link on the way is spelled by a path
       that cannot be asked about: it is too long, or leads through a closed
       folder.
    4. `Opens.legible`: there is no such link on a path from the top when no link
       on the disk lies too deep to be asked about at its own place.
-/

namespace CodeAtlas

theorem Path.parent_child (p : Path) (s : String) : (p.child s).parent = p := by
  simp [Path.parent, Path.child]

namespace Disk

variable {d : Disk} {p here inner r r' : Path} {k j : Place} {s target : String}
  {steps rest : List String} {m n n' depth : Nat} {seen : Seen}

/-- Where the path that a link holds is read from. -/
def readingFrom (here : Path) (target : String) : Path :=
  if target.toList.head? = some '/' then ⟨"/", []⟩ else here

/-- The steps lead from a path to `r`, through so many links. -/
inductive Reads (d : Disk) : Nat → Path → List String → Path → Prop
  | done {here : Path} : Reads d 0 here [] here
  | stay {n : Nat} {here r : Path} {s : String} {rest : List String} (hs : s = "" ∨ s = ".")
    (h : Reads d n here rest r) : Reads d n here (s :: rest) r
  | up {n : Nat} {here r : Path} {rest : List String} (h : Reads d n here.up rest r) :
    Reads d n here (".." :: rest) r
  | plain {n : Nat} {here r : Path} {s : String} {rest : List String} (hs : IsStep s)
    (hask : d.linkAt (here.child s) = .ok none)
    (he : ∀ target, d.entry? (d.placeOf (here.child s)) ≠ some (.link target))
    (h : Reads d n (here.child s) rest r) : Reads d n here (s :: rest) r
  | link {m n : Nat} {here inner r : Path} {s target : String} {rest : List String}
    (hs : IsStep s) (hask : d.linkAt (here.child s) = .ok (some target))
    (hin : Reads d m (readingFrom here target) (linkParts target) inner)
    (h : Reads d n inner rest r) : Reads d (m + n + 1) here (s :: rest) r

theorem linkAt_eq_some : d.linkAt p = .ok (some target) ↔
    checkPath p = .ok () ∧ d.isOpenWay p ∧ d.entry? (d.placeOf p) = some (.link target) := by
  unfold linkAt
  split
  · next hcheck => simp [hcheck]
  · next t _ hcheck => simp [hcheck]
  · next hcheck =>
    cases he : d.entry? (d.placeOf p) with
    | none => simp
    | some e => cases e <;> cases d.isOpenWay p <;> simp [hcheck]

/-- What is too long to be asked about is taken for no link. -/
theorem linkAt_of_tooLong (h : checkPath p = .error .nameTooLong) : d.linkAt p = .ok none := by
  unfold linkAt
  rw [h]

/-- No path with the null character is asked about. -/
theorem null_notMem_of_linkAt {o : Option String} (h : d.linkAt p = .ok o) :
    '\x00' ∉ p.toString.toList := by
  intro hnull
  have hcheck : checkPath p = .error .nullCharacter := by
    simp only [checkPath, List.contains_iff_mem, if_pos hnull]
  unfold linkAt at h
  rw [hcheck] at h
  cases h

theorem Reads.deterministic (h : Reads d n here steps r) (h' : Reads d n' here steps r') :
    n = n' ∧ r = r' := by
  induction h generalizing n' r' with
  | done =>
    cases h'
    exact ⟨rfl, rfl⟩
  | stay hs _ ih =>
    cases h' with
    | stay _ h => exact ih h
    | up h => simp at hs
    | plain hs' => exact absurd hs hs'.not_stay
    | link hs' => exact absurd hs hs'.not_stay
  | up _ ih =>
    cases h' with
    | stay hs => simp at hs
    | up h => exact ih h
    | plain hs => exact absurd rfl hs.ne_up
    | link hs => exact absurd rfl hs.ne_up
  | plain hs hask _ _ ih =>
    cases h' with
    | stay hs' => exact absurd hs' hs.not_stay
    | up => exact absurd rfl hs.ne_up
    | plain _ _ _ h => exact ih h
    | link _ hask' =>
      rw [hask] at hask'
      cases hask'
  | link hs hask _ _ ihin ih =>
    cases h' with
    | stay hs' => exact absurd hs' hs.not_stay
    | up => exact absurd rfl hs.ne_up
    | plain _ hask' =>
      rw [hask] at hask'
      cases hask'
    | link _ hask' hin h =>
      rw [hask] at hask'
      cases hask'
      obtain ⟨rfl, rfl⟩ := ihin hin
      obtain ⟨rfl, rfl⟩ := ih h
      exact ⟨rfl, rfl⟩

/-! ## What is remembered of links -/

/-- The link at a path leads to `r`, through so many links. -/
def LinkLeads (d : Disk) (p : Path) (n : Nat) (r : Path) : Prop :=
  ∃ target, d.linkAt p = .ok (some target) ∧
    Reads d n (readingFrom p.parent target) (linkParts target) r

theorem LinkLeads.deterministic (h : LinkLeads d p n r) (h' : LinkLeads d p n' r') :
    n = n' ∧ r = r' := by
  obtain ⟨target, hask, hreads⟩ := h
  obtain ⟨target', hask', hreads'⟩ := h'
  rw [hask] at hask'
  cases hask'
  exact hreads.deterministic hreads'

/-- Links that were read lead where they are remembered to lead, and links that
are still being read lead through `n` links or more. -/
structure Remembers (d : Disk) (n : Nat) (seen : Seen) : Prop where
  known : ∀ p r, seen.lookup p = some (some r) → ∃ m, LinkLeads d p m r
  pending : ∀ p, seen.lookup p = some none → ∀ m r, LinkLeads d p m r → n ≤ m

theorem Remembers.mono (h : Remembers d n seen) (hle : m ≤ n) : Remembers d m seen :=
  ⟨h.known, fun p hp j r hlead => Nat.le_trans hle (h.pending p hp j r hlead)⟩

theorem lookup_cons_self (p : Path) (o : Option Path) (seen : Seen) :
    List.lookup p ((p, o) :: seen) = some o := by
  simp

theorem lookup_cons_of_ne {q : Path} (h : q ≠ p) (o : Option Path) (seen : Seen) :
    List.lookup q ((p, o) :: seen) = seen.lookup q := by
  have hbeq : (q == p) = false := by simpa using h
  simp [List.lookup_cons, hbeq]

/-- A link is about to be read. -/
theorem Remembers.begin (h : Remembers d n seen) (hle : m ≤ n) (hlead : LinkLeads d p m r) :
    Remembers d m ((p, none) :: seen) := by
  constructor
  · intro q r' hq
    by_cases hqp : q = p
    · rw [hqp, lookup_cons_self] at hq
      cases hq
    · rw [lookup_cons_of_ne hqp] at hq
      exact h.known q r' hq
  · intro q hq j r' hlead'
    by_cases hqp : q = p
    · rw [hqp] at hlead'
      exact Nat.le_of_eq (hlead.deterministic hlead').1
    · rw [lookup_cons_of_ne hqp] at hq
      exact Nat.le_trans hle (h.pending q hq j r' hlead')

/-- More links have been read: what is remembered of them is true, and no more
links are being read than before. -/
structure Grown (d : Disk) (seen seen' : Seen) : Prop where
  known : ∀ p r, seen'.lookup p = some (some r) → ∃ m, LinkLeads d p m r
  pending : ∀ p, seen'.lookup p = some none → seen.lookup p = some none

theorem Remembers.grown (h : Remembers d n seen) : Grown d seen seen := ⟨h.known, fun _ hp => hp⟩

theorem Grown.trans {seen' seen'' : Seen} (h : Grown d seen seen') (h' : Grown d seen' seen'') :
    Grown d seen seen'' :=
  ⟨h'.known, fun p hp => h.pending p (h'.pending p hp)⟩

theorem Grown.remembers {seen' : Seen} (h : Grown d seen seen') (hseen : Remembers d n seen) :
    Remembers d n seen' :=
  ⟨h.known, fun p hp => hseen.pending p (h.pending p hp)⟩

/-- A link has been read. -/
theorem Grown.finish {seen' : Seen} (h : Grown d ((p, none) :: seen) seen')
    (hlead : LinkLeads d p m r) : Grown d seen ((p, some r) :: seen') := by
  constructor
  · intro q r' hq
    by_cases hqp : q = p
    · rw [hqp, lookup_cons_self] at hq
      cases hq
      exact hqp ▸ ⟨m, hlead⟩
    · rw [lookup_cons_of_ne hqp] at hq
      exact h.known q r' hq
  · intro q hq
    by_cases hqp : q = p
    · rw [hqp, lookup_cons_self] at hq
      cases hq
    · rw [lookup_cons_of_ne hqp] at hq
      have hq := h.pending q hq
      rwa [lookup_cons_of_ne hqp] at hq

/-! ## The function that reads -/

theorem readLinks_succ (d : Disk) (depth : Nat) :
    readLinks d (depth + 1) = readSteps d (readLinks d depth) := rfl

section

variable {through : Seen → Path → List String → Except Trouble Reading} (hs : IsStep s)
include hs

/-- A step to what is no link. -/
theorem readSteps_plainStep (hask : d.linkAt (here.child s) = .ok none) :
    readSteps d through seen here (s :: rest) = readSteps d through seen (here.child s) rest := by
  rw [readSteps, if_neg hs.not_stay, if_neg hs.ne_up]
  simp only [hask]

/-- A step to a link that was read before. -/
theorem readSteps_known (hask : d.linkAt (here.child s) = .ok (some target))
    (hseen : seen.lookup (here.child s) = some (some inner)) :
    readSteps d through seen here (s :: rest) = readSteps d through seen inner rest := by
  rw [readSteps, if_neg hs.not_stay, if_neg hs.ne_up]
  simp only [hask, hseen]

/-- A step to a link that is read now. -/
theorem readSteps_link {seen' : Seen} (hask : d.linkAt (here.child s) = .ok (some target))
    (hseen : seen.lookup (here.child s) = none)
    (hin : through ((here.child s, none) :: seen) (readingFrom here target) (linkParts target)
      = .ok ⟨true, inner, seen'⟩) :
    readSteps d through seen here (s :: rest)
      = readSteps d through ((here.child s, some inner) :: seen') inner rest := by
  unfold readingFrom at hin
  rw [readSteps, if_neg hs.not_stay, if_neg hs.ne_up]
  simp only [hask, hseen, hin, if_true]

end

/-- The function comes to the same path, and what it remembers stays true. -/
theorem Reads.exists_readLinks (h : Reads d n here steps r) (hdepth : n ≤ depth)
    (hseen : Remembers d n seen) :
    ∃ seen', readLinks d (depth + 1) seen here steps = .ok ⟨true, r, seen'⟩ ∧
      Grown d seen seen' := by
  induction h generalizing depth seen with
  | done => exact ⟨seen, rfl, hseen.grown⟩
  | stay hs _ ih =>
    rw [readLinks_succ, readSteps, if_pos hs]
    exact ih hdepth hseen
  | up _ ih =>
    rw [readLinks_succ, readSteps, if_neg (by decide), if_pos rfl]
    exact ih hdepth hseen
  | plain hs hask _ _ ih =>
    rw [readLinks_succ, readSteps_plainStep hs hask]
    exact ih hdepth hseen
  | @link m n here inner r s target rest hs hask hin _ ihin ih =>
    have hlead : LinkLeads d (here.child s) m inner :=
      ⟨target, hask, by rw [Path.parent_child]; exact hin⟩
    have hm : m ≤ m + n + 1 := by omega
    have hn : n ≤ m + n + 1 := by omega
    rw [readLinks_succ]
    cases hlook : seen.lookup (here.child s) with
    | none =>
      -- the link is read, and then the rest from where it leads
      obtain ⟨depth, rfl⟩ : ∃ less, depth = less + 1 := ⟨depth - 1, by omega⟩
      have hless : m ≤ depth := by omega
      obtain ⟨seen₁, hread₁, hgrown₁⟩ := ihin hless (hseen.begin hm hlead)
      have hgrown := hgrown₁.finish hlead
      obtain ⟨seen₂, hread₂, hgrown₂⟩ := ih (Nat.le_trans hn hdepth)
        ((hgrown.remembers hseen).mono hn)
      refine ⟨seen₂, ?_, hgrown.trans hgrown₂⟩
      rw [readSteps_link hs hask hlook hread₁]
      exact hread₂
    | some known =>
      cases known with
      | none =>
        -- a link that is being read leads through more links than are left
        have := hseen.pending _ hlook m inner hlead
        omega
      | some known =>
        obtain ⟨m', hlead'⟩ := hseen.known _ _ hlook
        obtain ⟨-, rfl⟩ := hlead.deterministic hlead'
        rw [readSteps_known hs hask hlook]
        exact ih (Nat.le_trans hn hdepth) (hseen.mono hn)

/-! ## Opening takes the same way -/

theorem placeOf_child (hs : IsStep s) : d.placeOf (here.child s) = d.placeOf here ++ [s] := by
  rw [placeOf, Path.lexical_child, Path.stepLexical_of_isStep hs, placeOf]

theorem IsStand.placeOf_up (h : IsStand here) : d.placeOf here.up = (d.placeOf here).dropLast :=
  Path.lexical_up _ h.steps h.ne_dot

theorem placeOf_readingFrom (here : Path) (target : String) :
    d.placeOf (readingFrom here target) = linkStart (d.placeOf here) target := by
  unfold readingFrom linkStart
  split
  · rfl
  · rfl

theorem IsStand.child_of_linkAt {o : Option String} (h : IsStand here) (hs : IsStep s)
    (hask : d.linkAt (here.child s) = .ok o) : IsStand (here.child s) := by
  refine h.child hs.ne_dot (fun _ => hs) fun hnull => null_notMem_of_linkAt hask ?_
  exact Path.mem_toString_of_mem (by simp [Path.child]) hnull

theorem isStand_top : IsStand ⟨"/", []⟩ := ⟨by simp, by simp, by decide, by simp⟩

theorem IsStand.readingFrom (h : IsStand here) (target : String) :
    IsStand (Disk.readingFrom here target) := by
  unfold Disk.readingFrom
  split
  · exact isStand_top
  · exact h

theorem Reads.isStand (h : Reads d n here steps r) (hhere : IsStand here) : IsStand r := by
  induction h with
  | done => exact hhere
  | stay _ _ ih => exact ih hhere
  | up _ ih => exact ih hhere.up
  | plain hs hask _ _ ih => exact ih (hhere.child_of_linkAt hs hask)
  | link _ _ _ _ ihin ih => exact ih (ihin (hhere.readingFrom _))

/-! ### Steps that say nothing -/

theorem filter_step (hs : s ≠ "") (steps rest : List String) :
    (s :: steps).filter (· ≠ "") ++ rest = s :: (steps.filter (· ≠ "") ++ rest) := by
  rw [List.filter_cons_of_pos (by simpa using hs), List.cons_append]

theorem Walk.of_stay (hs : s = "" ∨ s = ".")
    (h : Walk d false k m j ((s :: steps).filter (· ≠ "") ++ rest)) :
    Walk d false k m j (steps.filter (· ≠ "") ++ rest) := by
  by_cases hempty : s = ""
  · simpa [hempty] using h
  · rw [filter_step hempty] at h
    exact h.tail_of_stay hs

/-- A slash at the end of a link's path says nothing more once a walk has come
to it. -/
theorem Walk.of_slash {c : Prop} [Decidable c]
    (h : Walk d false k m j ((if c then [""] else []) ++ rest)) : Walk d false k m j rest := by
  split at h
  · exact h.tail_of_stay (Or.inl rfl)
  · exact h

theorem Reads.eq_of_blank (h : Reads d n here steps r) (hblank : steps.filter (· ≠ "") = []) :
    n = 0 ∧ r = here := by
  induction h with
  | done => exact ⟨rfl, rfl⟩
  | @stay n here r s rest hs _ ih =>
    by_cases hempty : s = ""
    · exact ih (by simpa [hempty] using hblank)
    · simp [hempty] at hblank
  | up _ _ => simp at hblank
  | plain hs _ _ _ _ => simp [hs.ne_empty] at hblank
  | link hs _ _ _ _ _ => simp [hs.ne_empty] at hblank

theorem reads_of_blank (here : Path) (hblank : steps.filter (· ≠ "") = []) :
    Reads d 0 here steps here := by
  induction steps with
  | nil => exact .done
  | cons s steps ih =>
    obtain ⟨hs, hsteps⟩ := List.forall_mem_cons.mp (List.filter_eq_nil_iff.mp hblank)
    exact .stay (Or.inl (by simpa using hs)) (ih (List.filter_eq_nil_iff.mpr hsteps))

/-! ### Steps that are read -/

theorem passable_linkStart (h : Passable d j) (target : String) :
    Passable d (linkStart j target) := by
  rw [linkStart]
  split
  · exact passable_nil d
  · exact h

/-- A walk over steps that are read comes to where the reading comes, and has
gone through the links of the reading. -/
theorem Reads.walk (h : Reads d n here steps r) (hhere : IsStand here)
    (hwalk : Walk d false k m (d.placeOf here) (steps.filter (· ≠ "") ++ rest)) :
    ∃ m', m = m' + n ∧ Walk d false k m' (d.placeOf r) rest ∧
      (Passable d (d.placeOf here) → Passable d (d.placeOf r)) := by
  induction h generalizing m rest with
  | done => exact ⟨m, rfl, hwalk, id⟩
  | stay hs _ ih => exact ih hhere (hwalk.of_stay hs)
  | up _ ih =>
    rw [filter_step (by decide), walk_up] at hwalk
    obtain ⟨m', hm, hend, hpass⟩ := ih hhere.up (by rw [hhere.placeOf_up]; exact hwalk.2)
    refine ⟨m', hm, hend, fun h => hpass ?_⟩
    rw [hhere.placeOf_up]
    exact h.of_prefix (List.dropLast_prefix _)
  | @plain n here r s more hs hask he h ih =>
    rw [filter_step hs.ne_empty] at hwalk
    have hchild := hhere.child_of_linkAt hs hask
    obtain ⟨hin, hcases⟩ := hwalk.step_cases hs
    have hpass : Passable d (d.placeOf here) → Passable d (d.placeOf (here.child s)) := by
      intro h
      rw [placeOf_child hs]
      exact passable_concat.mpr ⟨h, hin⟩
    rcases hcases with ⟨-, hlast, hk⟩ | ⟨-, hwalk⟩ | ⟨target, -, -, hlink, -⟩
    · obtain ⟨hblank, rfl⟩ := List.append_eq_nil_iff.mp hlast
      obtain ⟨rfl, rfl⟩ := h.eq_of_blank hblank
      refine ⟨m, rfl, ?_, hpass⟩
      rw [placeOf_child hs, ← hk]
      exact .done
    · obtain ⟨m', hm, hend, hpass'⟩ := ih hchild (by rwa [placeOf_child hs])
      exact ⟨m', hm, hend, hpass' ∘ hpass⟩
    · rw [← placeOf_child hs] at hlink
      exact absurd hlink (he target)
  | @link i n here inner r s target more hs hask hin _ ihin ih =>
    rw [filter_step hs.ne_empty] at hwalk
    have hlink := (linkAt_eq_some.mp hask).2.2
    rw [placeOf_child hs] at hlink
    rcases (hwalk.step_cases hs).2 with ⟨hb, -⟩ | ⟨hfolder, -⟩ | ⟨target', m', rfl, hlink', hwalk⟩
    · rw [hlink] at hb
      exact absurd hb id
    · rw [hlink] at hfolder
      cases hfolder
    · rw [hlink] at hlink'
      cases hlink'
      rw [← placeOf_readingFrom, linkSteps, List.append_assoc] at hwalk
      obtain ⟨m₁, rfl, hwalk₁, hpass₁⟩ := ihin (hhere.readingFrom target) hwalk
      obtain ⟨m₂, rfl, hwalk₂, hpass₂⟩ :=
        ih (hin.isStand (hhere.readingFrom target)) hwalk₁.of_slash
      refine ⟨m₂, by omega, hwalk₂, fun h => hpass₂ (hpass₁ ?_)⟩
      rw [placeOf_readingFrom]
      exact passable_linkStart h target

/-! ## Plain names -/

/-- Where the reading of a path starts from. -/
def readingStart (p : Path) : Path := ⟨if p.isAbsolute then "/" else "", []⟩

/-- The path can be read to its end: every link on the way can be asked about as
it is spelled there. -/
def Legible (d : Disk) (p : Path) : Prop := ∃ n r, Reads d n (readingStart p) p.parts r

theorem isStand_readingStart (p : Path) : IsStand (readingStart p) := by
  refine ⟨by simp [readingStart], by simp [readingStart], ?_, by simp [readingStart]⟩
  unfold readingStart
  split <;> decide

theorem placeOf_readingStart (hd : Sound d) (p : Path) :
    d.placeOf (readingStart p) = d.startOf p := by
  rw [placeOf, lexical_eq_foldl hd, readingStart, List.foldl_nil, startOf, startOf]
  by_cases habs : p.isAbsolute <;> simp [Path.isAbsolute]

theorem anchor_up (p : Path) : p.up.anchor = p.anchor := by
  unfold Path.up
  split
  · rfl
  · split <;> rfl

/-- A reading stays where it starts, or goes to the top. -/
theorem Reads.anchor (h : Reads d n here steps r) : r.anchor = here.anchor ∨ r.anchor = "/" := by
  induction h with
  | done => exact Or.inl rfl
  | stay _ _ ih => exact ih
  | up _ ih => rwa [anchor_up] at ih
  | plain _ _ _ _ ih => exact ih
  | @link m n here inner r s target rest _ _ _ _ ihin ih =>
    have hinner : inner.anchor = here.anchor ∨ inner.anchor = "/" := by
      unfold readingFrom at ihin
      split at ihin
      · exact Or.inr (ihin.elim id id)
      · exact ihin
    rcases ih with ih | ih
    · rw [ih]
      exact hinner
    · exact Or.inr ih

namespace Opens

theorem filter_parts (h : Opens d p k) : p.parts.filter (· ≠ "") ++ [] = p.parts := by
  rw [List.append_nil, List.filter_eq_self]
  simpa using h.parts

/-- A walk along a path is the reading of the path. -/
theorem eq_of_reads (h : Opens d p k) (hd : Sound d)
    (hreads : Reads d n (readingStart p) p.parts r) :
    d.placeOf r = k ∧ n ≤ linkLimit := by
  obtain ⟨-, hwalk⟩ := reach_eq_ok.mp h.located
  rw [← placeOf_readingStart hd, ← h.filter_parts] at hwalk
  obtain ⟨m, hm, hend, -⟩ := hreads.walk (isStand_readingStart p) hwalk
  cases hend
  exact ⟨rfl, by omega⟩

/-- The plain name of a path that can be read is that of the place that it
opens. -/
theorem realPath_of_legible (h : Opens d p k) (hd : Sound d) (hlegible : Legible d p) :
    d.realPath p = .ok (.ofPlace k) := by
  obtain ⟨n, r, hreads⟩ := hlegible
  obtain ⟨hplace, hn⟩ := h.eq_of_reads hd hreads
  have hnothing : Remembers d n [] := ⟨by simp, by simp⟩
  have hdepth : n ≤ 979 := Nat.le_trans hn (by decide)
  obtain ⟨seen, hread, -⟩ := hreads.exists_readLinks hdepth hnothing
  have hread : readLinks d nestingLimit [] (readingStart p) p.parts = .ok ⟨true, r, seen⟩ := hread
  have hanchor : ¬ r.anchor = "//" := by
    rcases hreads.anchor with hr | hr <;> rw [hr]
    · unfold readingStart
      split <;> decide
    · decide
  unfold readingStart at hread
  rw [realPath]
  simp only [hread, ok_bind, if_neg hanchor, hplace]
  rfl

end Opens

/-! ## Paths from the top -/

theorem size_le_of_link
    (h : ∀ e ∈ d.entries.entries, (Path.ofPlace e.1).toString.utf8ByteSize ≤ pathLimit) :
    ∀ j target, d.entry? j = some (.link target) →
      (Path.ofPlace j).toString.utf8ByteSize ≤ pathLimit := by
  intro j target hj
  exact h _ (mem_entries_of_ne_folder hj (by simp))

/-- A path from the top that a reading stands at is that of its place. -/
theorem IsStand.eq_ofPlace (h : IsStand here) (hanchor : here.anchor = "/") :
    here = .ofPlace (d.placeOf here) := by
  have habs : here.isAbsolute := by simp [Path.isAbsolute, hanchor]
  rw [placeOf, Path.lexical_eq habs (h.steps habs), Path.ofPlace, ← hanchor]

theorem IsStand.linkAt_of_entry (h : IsStand here) (hd : Sound d) (hs : IsStep s)
    (hsome : (d.entry? (d.placeOf here ++ [s])).isSome)
    (he : ∀ target, d.entry? (d.placeOf (here.child s)) ≠ some (.link target)) :
    d.linkAt (here.child s) = .ok none := by
  have hname : IsName s := hd.isName hsome (by simp)
  exact linkAt_eq_none (h.child hs.ne_dot (fun _ => hs) hname.no_null).checkPath_ne_null he

/-- The way of a path that a reading stands at, from the top. -/
theorem IsStand.isOpenWay (h : IsStand here) (hanchor : here.anchor = "/") :
    d.isOpenWay here ↔ Passable d (d.placeOf here) := by
  have habs : here.isAbsolute := by simp [Path.isAbsolute, hanchor]
  have hplace : d.placeOf here = here.parts := Path.lexical_eq habs (h.steps habs) _
  have htake : ∀ i, d.placeOf ⟨here.anchor, here.parts.take i⟩ = here.parts.take i := fun i =>
    Path.lexical_eq (p := ⟨here.anchor, here.parts.take i⟩) habs
      (fun s hs => h.steps habs s (List.mem_of_mem_take hs)) _
  rw [hplace, passable_iff]
  simp only [Disk.isOpenWay, List.all_eq_true, List.mem_range, htake]

/-- A link that can be asked about is read. -/
theorem IsStand.linkAt_of_link (h : IsStand here) (hanchor : here.anchor = "/")
    (hshort : (Path.ofPlace (d.placeOf here)).toString.utf8ByteSize ≤ pathLimit)
    (hpass : Passable d (d.placeOf here))
    (hlink : d.entry? (d.placeOf here) = some (.link target)) :
    d.linkAt here = .ok (some target) := by
  rw [← h.eq_ofPlace hanchor] at hshort
  refine linkAt_eq_some.mpr ⟨checkPath_eq_ok.mpr ⟨fun hnull => ?_, hshort⟩,
    (h.isOpenWay hanchor).mpr hpass, hlink⟩
  apply h.checkPath_ne_null
  simp only [checkPath, List.contains_iff_mem, if_pos hnull]

/-- Steps of a walk can be read from the top, when every link can be asked about
at its own place. -/
theorem Walk.exists_reads (hd : Sound d)
    (hshort : ∀ j target, d.entry? j = some (.link target) →
      (Path.ofPlace j).toString.utf8ByteSize ≤ pathLimit)
    (hk : (d.entry? k).isSome) (hanchor : here.anchor = "/") (hhere : IsStand here)
    (hpass : Passable d (d.placeOf here))
    (hwalk : Walk d false k m (d.placeOf here) (steps.filter (· ≠ "") ++ rest)) :
    ∃ n r, Reads d n here steps r := by
  induction m using Nat.strongRecOn generalizing here steps rest with
  | ind m ih =>
    induction steps generalizing here with
    | nil => exact ⟨0, here, .done⟩
    | cons s more ihsteps =>
      by_cases hstay : s = "" ∨ s = "."
      · obtain ⟨n, r, hreads⟩ := ihsteps hanchor hhere hpass (hwalk.of_stay hstay)
        exact ⟨n, r, .stay hstay hreads⟩
      by_cases hup : s = ".."
      · subst hup
        rw [filter_step (by decide), walk_up, ← hhere.placeOf_up] at hwalk
        have hup : Passable d (d.placeOf here.up) := by
          rw [hhere.placeOf_up]
          exact hpass.of_prefix (List.dropLast_prefix _)
        obtain ⟨n, r, hreads⟩ := ihsteps ((anchor_up here).trans hanchor) hhere.up hup hwalk.2
        exact ⟨n, r, .up hreads⟩
      obtain ⟨hempty, hdot⟩ := not_or.mp hstay
      have hs : IsStep s := ⟨hempty, hdot, hup⟩
      rw [filter_step hempty] at hwalk
      obtain ⟨hin, hcases⟩ := hwalk.step_cases hs
      have hpass' : Passable d (d.placeOf (here.child s)) := by
        rw [placeOf_child hs]
        exact passable_concat.mpr ⟨hpass, hin⟩
      rcases hcases with ⟨hb, hlast, rfl⟩ | ⟨hfolder, hwalk⟩ | ⟨target, m', rfl, hlink, hwalk⟩
      · have he : ∀ target, d.entry? (d.placeOf (here.child s)) ≠ some (.link target) := by
          intro target hlink
          rw [placeOf_child hs] at hlink
          rw [hlink] at hb
          exact hb
        have hask := hhere.linkAt_of_entry hd hs hk he
        exact ⟨0, _, .plain hs hask he (reads_of_blank _ (List.append_eq_nil_iff.mp hlast).1)⟩
      · have he : ∀ target, d.entry? (d.placeOf (here.child s)) ≠ some (.link target) := by
          intro target hlink
          rw [placeOf_child hs, hfolder] at hlink
          cases hlink
        have hask := hhere.linkAt_of_entry hd hs (by rw [hfolder]; rfl) he
        rw [← placeOf_child hs] at hwalk
        have hchild : (here.child s).anchor = "/" := hanchor
        obtain ⟨n, r, hreads⟩ := ihsteps hchild (hhere.child_of_linkAt hs hask) hpass' hwalk
        exact ⟨n, r, .plain hs hask he hreads⟩
      · have hname : IsName s := hd.isName (by rw [hlink]; rfl) (List.mem_concat_self)
        have hchild := hhere.child hdot (fun _ => hs) hname.no_null
        rw [← placeOf_child hs] at hlink
        have hask := hchild.linkAt_of_link hanchor (hshort _ _ hlink) hpass' hlink
        rw [← placeOf_readingFrom, linkSteps, List.append_assoc] at hwalk
        have hfrom : (readingFrom here target).anchor = "/" := by
          unfold readingFrom
          split
          · rfl
          · exact hanchor
        have hstand := hhere.readingFrom target
        -- the path of the link is read first, and the rest from where it leads
        have hstart : Passable d (d.placeOf (readingFrom here target)) := by
          rw [placeOf_readingFrom]
          exact passable_linkStart hpass target
        obtain ⟨i, inner, hread⟩ := ih m' (Nat.lt_succ_self m') hfrom hstand hstart hwalk
        obtain ⟨m₁, rfl, hwalk₁, hpass₁⟩ := hread.walk hstand hwalk
        have hinner : inner.anchor = "/" := hread.anchor.elim (fun h => h.trans hfrom) id
        obtain ⟨n, r, hreads⟩ :=
          ih m₁ (by omega) hinner (hread.isStand hstand) (hpass₁ hstart) hwalk₁.of_slash
        exact ⟨_, r, .link hs hask hread hreads⟩

/-- A path from the top to an entry can be read, when every link on the disk can
be asked about at its own place. -/
theorem Opens.legible (h : Opens d p k) (hd : Sound d) (hk : (d.entry? k).isSome)
    (habs : p.isAbsolute) (hshort : ∀ j target, d.entry? j = some (.link target) →
      (Path.ofPlace j).toString.utf8ByteSize ≤ pathLimit) : Legible d p := by
  obtain ⟨-, hwalk⟩ := reach_eq_ok.mp h.located
  have hpass : Passable d (d.placeOf (readingStart p)) := by
    rw [placeOf_readingStart hd, startOf, if_pos habs]
    exact passable_nil d
  rw [← placeOf_readingStart hd, ← h.filter_parts] at hwalk
  exact hwalk.exists_reads hd hshort hk (by simp [readingStart, habs]) (isStand_readingStart p)
    hpass

end Disk

end CodeAtlas
