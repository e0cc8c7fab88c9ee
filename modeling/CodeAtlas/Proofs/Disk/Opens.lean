import CodeAtlas.Proofs.Disk.Plain
/-
  Paths that open an entry, however they are spelled.

  A path may be relative, and it may go up and come down again. `Opens d p k`
  says that `p` leads to the place `k`. Where there are no links,

    1. the textual reading of such a path is `k` (`Opens.lexical_eq`), and so
       is its plain name (`Opens.realPath_eq`);
    2. each entry of the folder that it opens is opened by one step more
       (`Opens.child`), as long as the folder is not closed
       (`Opens.mayEnter_of_find`) and the path is not too long for that
       (`Opens.find_tooLong`).

  `Path.lexical_join_relativeTo_ofPlace` says that a place, as it is seen from
  any base, is found again from there.
-/

namespace CodeAtlas

namespace Path

open CodeAtlas.Disk

variable {p : Path} {s : String}

/-! ## One more part -/

/-- One more part stands after a slash, unless it is the first. -/
theorem toString_child (p : Path) (s : String) : (p.child s).toString
    = if p.parts = [] then p.anchor ++ s else p.toString ++ "/" ++ s := by
  have htext : (p.child s).toString = p.anchor ++ "/".intercalate (p.parts ++ [s]) :=
    if_neg (by simp [child])
  rw [htext]
  split
  · next hparts => rw [hparts, List.nil_append, String.intercalate_singleton]
  · next hparts =>
    have hp : p.toString = p.anchor ++ "/".intercalate p.parts := if_neg fun h => hparts h.2
    rw [hp, String.intercalate_append_of_ne_nil hparts (by simp), String.intercalate_singleton]
    simp only [String.append_assoc]

/-- No path is longer than the paths to what it opens. -/
theorem size_le_of_child (hs : s ≠ "") :
    p.toString.utf8ByteSize ≤ (p.child s).toString.utf8ByteSize := by
  rw [toString_child]
  have hpos : 1 ≤ s.utf8ByteSize := by
    rw [Nat.one_le_iff_ne_zero, Ne, String.utf8ByteSize_eq_zero_iff]
    exact hs
  split
  · next hparts =>
    have hdot : ".".utf8ByteSize = 1 := by decide
    rw [toString, hparts, String.utf8ByteSize_append]
    split
    · omega
    · rw [String.utf8ByteSize_append, String.intercalate_nil]
      simp
  · simp only [String.utf8ByteSize_append]
    omega

/-- The path with some parts more. -/
theorem join_relative (p : Path) (way : List String) :
    p.join ⟨"", way⟩ = ⟨p.anchor, p.parts ++ way⟩ := if_neg (by simp [isAbsolute])

theorem join_cons (p : Path) (s : String) (way : List String) :
    p.join ⟨"", s :: way⟩ = (p.child s).join ⟨"", way⟩ := by
  rw [join_relative, join_relative, child, List.append_assoc, List.singleton_append]

theorem size_le_of_join {way : List String} (hway : ∀ s ∈ way, s ≠ "") :
    p.toString.utf8ByteSize ≤ (p.join ⟨"", way⟩).toString.utf8ByteSize := by
  induction way generalizing p with
  | nil =>
    have hjoin : p.join ⟨"", []⟩ = p := by
      rw [join_relative, List.append_nil]
    exact Nat.le_of_eq (by rw [hjoin])
  | cons s way ih =>
    obtain ⟨hs, hway⟩ := List.forall_mem_cons.mp hway
    rw [join_cons]
    exact Nat.le_trans (size_le_of_child hs) (ih hway)

theorem mem_intercalate_of_mem {parts : List String} {c : Char} (hs : s ∈ parts)
    (hc : c ∈ s.toList) : c ∈ ("/".intercalate parts).toList := by
  induction parts with
  | nil => cases hs
  | cons t rest ih =>
    by_cases hrest : rest = []
    · subst hrest
      rw [String.intercalate_singleton, ← List.mem_singleton.mp hs]
      exact hc
    · rw [String.intercalate_cons_of_ne_nil hrest, String.toList_append, String.toList_append,
        List.mem_append, List.mem_append]
      rcases List.mem_cons.mp hs with rfl | hs
      · exact Or.inl (Or.inl hc)
      · exact Or.inr (ih hs)

/-- What stands in a part of a path stands in its text. -/
theorem mem_toString_of_mem {c : Char} (hs : s ∈ p.parts) (hc : c ∈ s.toList) :
    c ∈ p.toString.toList := by
  have hp : p.toString = p.anchor ++ "/".intercalate p.parts :=
    if_neg fun h => List.ne_nil_of_mem hs h.2
  rw [hp, String.toList_append, List.mem_append]
  exact Or.inr (mem_intercalate_of_mem hs hc)

/-! ## The textual reading -/

/-- Parts that are added are steps from the place before. -/
theorem lexical_join (cwd p : Path) (way : List String) :
    lexical cwd (p.join ⟨"", way⟩) = way.foldl stepLexical (lexical cwd p) := by
  have hparts : (cwd.join ⟨p.anchor, p.parts ++ way⟩).parts = (cwd.join p).parts ++ way := by
    by_cases habs : p.isAbsolute
    · have habs' : isAbsolute ⟨p.anchor, p.parts ++ way⟩ := habs
      rw [join, if_pos habs', join, if_pos habs]
    · have habs' : ¬ isAbsolute ⟨p.anchor, p.parts ++ way⟩ := habs
      rw [join, if_neg habs', join, if_neg habs]
      exact (List.append_assoc _ _ _).symm
  rw [join_relative, lexical, hparts, List.foldl_append]
  rfl

theorem lexical_child (cwd p : Path) (s : String) :
    lexical cwd (p.child s) = stepLexical (lexical cwd p) s := by
  have hjoin : p.child s = p.join ⟨"", [s]⟩ := (join_relative p [s]).symm
  rw [hjoin, lexical_join]
  rfl

/-- One step up takes back the last name. -/
theorem lexical_up (cwd : Path) (hsteps : p.isAbsolute → ∀ s ∈ p.parts, IsStep s)
    (hdot : ∀ s ∈ p.parts, s ≠ ".") : lexical cwd p.up = (lexical cwd p).dropLast := by
  unfold up
  split
  · next habs =>
    have hparent : ∀ s ∈ p.parent.parts, IsStep s := fun s hs =>
      hsteps habs s (List.dropLast_subset _ hs)
    rw [lexical_eq habs (hsteps habs), lexical_eq (p := p.parent) habs hparent]
    rfl
  split
  · rw [lexical_child, stepLexical_up]
  · rw [lexical_child, stepLexical_up]
  · next last hup hlast =>
    have hchild : p = p.parent.child last := by
      rw [child, parent, List.dropLast_append_getLast? last hlast]
    have hdot : last ≠ "." := hdot last (List.mem_of_getLast? hlast)
    have hstep : lexical cwd p = lexical cwd p.parent ++ [last] := by
      conv_lhs => rw [hchild, lexical_child]
      rw [stepLexical, if_neg hup, if_neg hdot]
    rw [hstep, List.dropLast_concat]

/-- A place, as it is seen from a base, leads back to it from there. -/
theorem lexical_join_relativeTo_ofPlace {k : Place} (hnames : ∀ s ∈ k, IsName s)
    (cwd base : Path) :
    lexical cwd (base.join (ofString (relativeTo cwd (.ofPlace k) base))) = k := by
  obtain ⟨common, up, down, hup, hdown, hread⟩ :=
    ofString_relativeTo_of_names (p := .ofPlace k) rfl hnames cwd base
  have hdown : k = common ++ down := hdown
  have hsteps : ∀ s ∈ down, IsStep s := fun s hs =>
    (hnames s (hdown ▸ List.mem_append_right common hs)).isStep
  calc lexical cwd (base.join (ofString (relativeTo cwd (.ofPlace k) base)))
      = (up.map (fun _ => "..") ++ down).foldl stepLexical (lexical cwd base) := by
        rw [hread, lexical_join]
    _ = down.foldl stepLexical common := by
        rw [hup, List.foldl_append, foldl_stepLexical_up]
    _ = k := by rw [foldl_stepLexical hsteps, hdown]

end Path

namespace Disk

variable {d : Disk} {p : Path} {k : Place} {s : String}

/-! ## Reading -/

/-- A path that a reading can stand at where there are no links: it has no `.`,
and `..` only when it is relative. -/
structure IsStand (p : Path) : Prop where
  ne_dot : ∀ t ∈ p.parts, t ≠ "."
  steps : p.isAbsolute → ∀ t ∈ p.parts, IsStep t
  null : '\x00' ∉ p.anchor.toList ∧ ∀ t ∈ p.parts, '\x00' ∉ t.toList

theorem IsStand.child (h : IsStand p) (hs : s ≠ ".") (hstep : p.isAbsolute → IsStep s)
    (hnull : '\x00' ∉ s.toList) : IsStand (p.child s) := by
  have hparts : ∀ {P : String → Prop}, (∀ t ∈ p.parts, P t) → P s →
      ∀ t ∈ (p.child s).parts, P t := by
    intro P hp hlast t ht
    rcases List.mem_append.mp ht with ht | ht
    · exact hp t ht
    · exact List.mem_singleton.mp ht ▸ hlast
  exact ⟨hparts h.ne_dot hs, fun habs => hparts (h.steps habs) (hstep habs),
    h.null.1, hparts h.null.2 hnull⟩

theorem IsStand.up (h : IsStand p) : IsStand p.up := by
  have hparent : IsStand p.parent :=
    ⟨fun t ht => h.ne_dot t (List.dropLast_subset _ ht),
      fun habs t ht => h.steps habs t (List.dropLast_subset _ ht),
      h.null.1, fun t ht => h.null.2 t (List.dropLast_subset _ ht)⟩
  unfold Path.up
  split
  · exact hparent
  · next habs =>
    have hchild : IsStand (p.child "..") :=
      h.child (by decide) (fun h => absurd h habs) (by decide)
    split
    · exact hchild
    · exact hchild
    · exact hparent

theorem IsStand.checkPath_ne_null (h : IsStand p) : checkPath p ≠ .error .nullCharacter := by
  have hnull : '\x00' ∉ p.toString.toList := by
    unfold Path.toString
    split
    · decide
    · rw [String.toList_append, List.mem_append, not_or]
      refine ⟨h.null.1, fun hmem => ?_⟩
      rcases Path.mem_intercalate_slash hmem with hslash | ⟨t, ht, hc⟩
      · exact absurd hslash (by decide)
      · exact h.null.2 t ht hc
  intro hcheck
  simp only [checkPath, List.contains_iff_mem, if_neg hnull] at hcheck
  split at hcheck <;> cases hcheck

/-- A reading without links comes to its end, at the place of the textual
reading. -/
theorem Linkless.exists_readSteps (h : Linkless d)
    (through : Seen → Path → List String → Except Trouble Reading) (seen : Seen) {here : Path}
    (hhere : IsStand here) {steps : List String} (hsteps : ∀ t ∈ steps, t ≠ "")
    (hnull : ∀ t ∈ steps, '\x00' ∉ t.toList) (cwd : Path) :
    ∃ r, readSteps d through seen here steps = .ok r ∧ r.path.anchor = here.anchor ∧
      Path.lexical cwd r.path = steps.foldl Path.stepLexical (Path.lexical cwd here) := by
  induction steps generalizing here with
  | nil => exact ⟨_, rfl, rfl, rfl⟩
  | cons s rest ih =>
    obtain ⟨hs, hsteps⟩ := List.forall_mem_cons.mp hsteps
    obtain ⟨hsnull, hnull⟩ := List.forall_mem_cons.mp hnull
    rw [readSteps, List.foldl_cons]
    by_cases hdot : s = "."
    · rw [if_pos (Or.inr hdot), hdot, Path.stepLexical_dot]
      exact ih hhere hsteps hnull
    rw [if_neg (not_or.mpr ⟨hs, hdot⟩)]
    by_cases hup : s = ".."
    · have hanchor : here.up.anchor = here.anchor := by
        unfold Path.up
        split
        · rfl
        split <;> rfl
      rw [if_pos hup, hup, Path.stepLexical_up, ← Path.lexical_up cwd hhere.steps hhere.ne_dot,
        ← hanchor]
      exact ih hhere.up hsteps hnull
    · have hchild := hhere.child hdot (fun _ => ⟨hs, hdot, hup⟩) hsnull
      have hnone : d.linkAt (here.child s) = .ok none :=
        linkAt_eq_none hchild.checkPath_ne_null fun t => h _ t
      rw [if_neg hup]
      simp only [hnone]
      rw [← Path.lexical_child]
      exact ih hchild hsteps hnull

/-! ## Opening -/

/-- The path leads to the place. -/
structure Opens (d : Disk) (p : Path) (k : Place) : Prop where
  parts : ∀ s ∈ p.parts, s ≠ ""
  located : d.locate p = .ok k

theorem lexical_eq_foldl (hd : Sound d) (p : Path) :
    Path.lexical (.ofPlace d.cwd) p = p.parts.foldl Path.stepLexical (d.startOf p) := by
  rw [Path.lexical, Path.join, startOf]
  by_cases habs : p.isAbsolute
  · rw [if_pos habs, if_pos habs]
  · have hcwd : ∀ s ∈ d.cwd, IsStep s := fun s hs => (hd.isName (by rw [hd.cwd]; rfl) hs).isStep
    rw [if_neg habs, if_neg habs, List.foldl_append]
    congr 1
    exact (Path.foldl_stepLexical hcwd []).trans (List.nil_append d.cwd)

namespace Opens

theorem check (h : Opens d p k) : checkPath p = .ok () := (reach_eq_ok.mp h.located).1

theorem find_eq (h : Opens d p k) {e : Entry} (he : d.entry? k = some e) :
    d.find p = .ok (some e) :=
  find_eq_some.mpr ⟨k, h.located, he⟩

theorem lexical_eq (h : Opens d p k) (hd : Sound d) (hlinks : Linkless d) :
    Path.lexical (.ofPlace d.cwd) p = k := by
  obtain ⟨-, hwalk⟩ := reach_eq_ok.mp h.located
  rw [lexical_eq_foldl hd, ← hlinks.eq_of_walk hwalk h.parts]

/-- The plain name of a path is that of the place that it opens. -/
theorem realPath_eq (h : Opens d p k) (hd : Sound d) (hlinks : Linkless d) :
    d.realPath p = .ok (.ofPlace k) := by
  have hnull : ∀ t ∈ p.parts, '\x00' ∉ t.toList := fun t ht hc =>
    (checkPath_eq_ok.mp h.check).1 (Path.mem_toString_of_mem ht hc)
  have hstand : IsStand ⟨if p.isAbsolute then "/" else "", []⟩ := by
    refine ⟨by simp, by simp, ?_, by simp⟩
    split <;> decide
  obtain ⟨r, hread, hanchor, hplace⟩ :=
    hlinks.exists_readSteps (readLinks d 979) [] hstand h.parts hnull (.ofPlace d.cwd)
  have hstart : Path.lexical (.ofPlace d.cwd) ⟨if p.isAbsolute then "/" else "", []⟩
      = d.startOf p := by
    rw [lexical_eq_foldl hd, List.foldl_nil, startOf, startOf]
    by_cases habs : p.isAbsolute <;> simp [Path.isAbsolute]
  have hslash : ¬ r.path.anchor = "//" := by
    rw [hanchor]
    simp only
    split <;> decide
  have hk : d.placeOf r.path = k := by
    rw [placeOf, hplace, hstart, ← lexical_eq_foldl hd, h.lexical_eq hd hlinks]
  have hlinks' : readLinks d nestingLimit [] ⟨if p.isAbsolute then "/" else "", []⟩ p.parts
      = .ok r := hread
  rw [realPath]
  simp only [hlinks', ok_bind, if_neg hslash, hk]
  rfl

end Opens

/-- A walk to a folder can be taken one step further. -/
theorem Linkless.walk_concat (hlinks : Linkless d) {n : Nat} {here f : Place}
    {steps : List String} (h : Walk d false f n here steps) (hf : d.entry? f = some .folder)
    (hin : d.mayEnter f) (hs : CanStep false s []) :
    Walk d false (f ++ [s]) n here (steps ++ [s]) := by
  induction h with
  | @done n =>
    cases he : d.entry? (f ++ [s]) with
    | none => exact .ends hin hs (he ▸ trivial) rfl
    | some e =>
      cases e with
      | folder => exact .down hin hs he .done
      | file c => exact .ends hin hs (he ▸ trivial) rfl
      | link t => exact absurd he (hlinks _ t)
  | stay hx _ ih => exact .stay hx ih
  | up hx _ ih => exact .up hx ih
  | ends _ _ hb hq =>
    rw [← hq, hf] at hb
    exact absurd hb id
  | down hx hs he _ ih => exact .down hx ⟨hs.toIsStep, hs.short, by simp⟩ he ih
  | link _ _ he _ _ => exact absurd he (hlinks _ _)

/-- One more name that a system takes adds no null character to a path. -/
theorem null_notMem_child (h : checkPath p = .ok ()) (hs : IsName s) :
    '\x00' ∉ (p.child s).toString.toList := by
  obtain ⟨hnull, -⟩ := checkPath_eq_ok.mp h
  rw [Path.toString_child]
  split
  · next hparts =>
    rw [String.toList_append, List.mem_append, not_or]
    refine ⟨fun hmem => hnull ?_, hs.no_null⟩
    rw [Path.toString, hparts]
    split
    · next hdot =>
      rw [hdot.1] at hmem
      cases hmem
    · rw [String.toList_append, List.mem_append]
      exact Or.inl hmem
  · simp only [String.toList_append, List.mem_append, not_or]
    exact ⟨⟨hnull, by decide⟩, hs.no_null⟩

namespace Opens

/-- An entry of a folder that is not closed is opened by one step more. -/
theorem child (h : Opens d p k) (hd : Sound d) (hlinks : Linkless d)
    (hk : d.entry? k = some .folder) (hin : d.mayEnter k) (hs : (d.entry? (k ++ [s])).isSome)
    (hfits : (p.child s).toString.utf8ByteSize ≤ pathLimit) :
    Opens d (p.child s) (k ++ [s]) := by
  have hname : IsName s := hd.isName hs (by simp)
  obtain ⟨hcheck, hwalk⟩ := reach_eq_ok.mp h.located
  refine ⟨fun t ht => ?_, reach_eq_ok.mpr ⟨?_, ?_⟩⟩
  · rcases List.mem_append.mp ht with ht | ht
    · exact h.parts t ht
    · exact List.mem_singleton.mp ht ▸ hname.ne_empty
  · exact checkPath_eq_ok.mpr ⟨null_notMem_child hcheck hname, hfits⟩
  · exact hlinks.walk_concat hwalk hk hin ⟨hname.isStep, hname.short, by simp⟩

/-- No entry of a closed folder is opened. -/
theorem mayEnter_of_find (h : Opens d p k) (hk : d.entry? k = some .folder) (hs : IsStep s)
    {e : Entry} (hfind : d.find (p.child s) = .ok (some e)) : d.mayEnter k := by
  obtain ⟨q, hq, -⟩ := find_eq_some.mp hfind
  obtain ⟨-, hwalk⟩ := reach_eq_ok.mp h.located
  obtain ⟨-, hwalk'⟩ := reach_eq_ok.mp hq
  exact ((hwalk.after_folder hk (by simp) hwalk').step_cases hs).1

/-- Unless the path is too long. -/
theorem find_tooLong (h : Opens d p k) (hs : IsName s)
    (hlong : pathLimit < (p.child s).toString.utf8ByteSize) :
    d.find (p.child s) = .error .nameTooLong := by
  have hnull := null_notMem_child h.check hs
  apply Disk.find_tooLong
  simp only [checkPath, List.contains_iff_mem, if_neg hnull, if_pos hlong]

end Opens

end Disk

end CodeAtlas
