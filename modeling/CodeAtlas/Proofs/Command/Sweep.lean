import CodeAtlas.Proofs.Command.Clear
import CodeAtlas.Proofs.Scan
/-
  The sweep of a folder that holds no links.

  Without links a sweep comes to each folder once, and what it does is known
  from the disk alone. What it comes to it has to get past (`CanVisit`): the
  path must not be too long and lead through no closed folder, and a folder that
  is swept must be one that can be listed and not lie too many levels down. What
  is proved:
    1. `cleared_sweepBelow`: when the sweep gets past all that it comes to, the
       files with a generated name in folders that are not passed over are gone,
       and nothing else is. When it does not, it stops.
    2. `balanced_sweepBelow`: as many paths are noted as entries are gone.
-/

namespace CodeAtlas.Command

open CodeAtlas.Disk CodeAtlas.Scan

variable {d : Disk} {k : Place} {name : String} {s s' : Sweep} {nesting : Nat}
  {down : Path → Sweep → Sweep}

/-! ## What is to be taken out -/

/-- Whether an entry is a file. -/
def isFile : Entry → Bool
  | .file _ => true
  | _ => false

/-- Whether an entry is one that a sweep of the folder at `top` takes out: a file
with a generated name in a folder that is not passed over. -/
def isCleared (top : Place) (e : Place × Entry) : Bool :=
  decide (Reached top e.1) && e.1.getLast?.any isOwnOutput && isFile e.2

theorem ne_folder_of_isFile {e : Entry} (h : isFile e) : e ≠ .folder := by
  rintro rfl
  cases h

theorem isFile_of_isCleared {top : Place} {e : Place × Entry} (h : isCleared top e) :
    isFile e.2 := by
  simp only [isCleared, Bool.and_eq_true] at h
  exact h.2

theorem reached_of_isCleared {top : Place} {e : Place × Entry} (h : isCleared top e) :
    Reached top e.1 := by
  simp only [isCleared, Bool.and_eq_true, decide_eq_true_eq] at h
  exact h.1.1

theorem isCleared_concat {e : Entry} :
    isCleared k (k ++ [name], e) = (isOwnOutput name && isFile e) := by
  simp [isCleared, reached_concat, within_self]

/-- A disk on which the folder at a place can be swept: it holds no links, and what
is to be taken out lies in folders that can be changed. -/
structure Sweepable (d : Disk) (k : Place) : Prop where
  sound : Sound d
  links : LinklessBelow d k
  folder : d.entry? k = some .folder
  loose : ∀ e ∈ d.entries.entries, isCleared k e → d.mayChange e.1.dropLast

/-- The places at and below one name of a folder. -/
def under (k : Place) (name : String) (q : Place) : Bool := (k ++ [name]).isPrefixOf q

theorem under_iff {q : Place} : under k name q ↔ k ++ [name] <+: q := List.isPrefixOf_iff_prefix

theorem under_self (k : Place) (name : String) : under k name (k ++ [name]) :=
  under_iff.mpr (List.prefix_refl _)

/-- A place is under one name of a folder only. -/
theorem eq_of_under {q : Place} {name' : String} (h : under k name q) (h' : under k name' q) :
    name = name' := by
  have hsame := List.prefix_of_prefix_length_le (under_iff.mp h) (under_iff.mp h') (by simp)
  exact (List.append_singleton_inj.mp (hsame.eq_of_length (by simp))).2

/-- Of what lies below a folder that is not passed over, the same is taken out
from there as from above. -/
theorem isCleared_child {e : Place × Entry} (hskip : name ∉ Settings.alwaysSkipped)
    (hplace : e.1 ≠ k ++ [name]) :
    isCleared (k ++ [name]) e = (isCleared k e && under k name e.1) := by
  cases hunder : under k name e.1 with
  | true =>
    have hiff := reached_below (under_iff.mp hunder) hplace
    simp only [hskip, not_false_eq_true, true_and] at hiff
    rw [isCleared, isCleared, decide_eq_decide.mpr hiff, Bool.and_true]
  | false =>
    rw [Bool.and_false]
    cases hclear : isCleared (k ++ [name]) e with
    | false => rfl
    | true =>
      rw [under_iff.mpr (reached_of_isCleared hclear).below] at hunder
      cases hunder

namespace Sweepable

theorem without {drop : Place × Entry → Bool} (h : Sweepable d k)
    (hdrop : ∀ e, drop e → isFile e.2) : Sweepable (d.without drop) k := by
  have hdrop : ∀ e, drop e → e.2 ≠ .folder := fun e he => ne_folder_of_isFile (hdrop e he)
  refine ⟨h.sound.without hdrop, fun q t hq he => ?_, (h.sound.folder_without hdrop).mpr h.folder,
    fun e he hclear => mayChange_without (h.loose e (List.mem_filter.mp he).1 hclear)⟩
  rw [h.sound.entry?_without hdrop] at he
  exact h.links q t hq (Option.filter_eq_some_iff.mp he).1

theorem child (h : Sweepable d k) (hfolder : d.entry? (k ++ [name]) = some .folder)
    (hskip : name ∉ Settings.alwaysSkipped) : Sweepable d (k ++ [name]) := by
  have hbelow : k <+: k ++ [name] := List.prefix_append k [name]
  refine ⟨h.sound, fun q t hq => h.links q t (hbelow.trans hq), hfolder, fun e he hclear => ?_⟩
  rw [isCleared_child hskip (reached_of_isCleared hclear).ne_top, Bool.and_eq_true] at hclear
  exact h.loose e he hclear.1

/-- The table has one entry at a place. -/
theorem eq_of_mem (h : Sweepable d k) {e : Entry} {e' : Place × Entry}
    (he : d.entry? (k ++ [name]) = some e) (he' : e' ∈ d.entries.entries)
    (hplace : e'.1 = k ++ [name]) : e' = (k ++ [name], e) := by
  have hentry := h.sound.entry?_of_mem he' (by rw [hplace]; simp)
  rw [hplace, he] at hentry
  exact Prod.ext hplace (Option.some.inj hentry).symm

/-- There is nothing below an entry that is no folder. -/
theorem eq_of_prefix (h : Sweepable d k) {q : Place} (hq : (d.entry? q).isSome)
    (hentry : d.entry? (k ++ [name]) ≠ some .folder) (hbelow : k ++ [name] <+: q) :
    q = k ++ [name] := by
  by_contra hne
  exact hentry (h.sound.folder_of_prefix hq hbelow (Ne.symm hne))

/-- The table has nothing under the name of a file but the file. -/
theorem eq_file (h : Sweepable d k) {c : Content} {e : Place × Entry}
    (hfile : d.entry? (k ++ [name]) = some (.file c)) (he : e ∈ d.entries.entries)
    (hunder : under k name e.1) : e = (k ++ [name], .file c) := by
  have hne : e.1 ≠ [] := by
    intro hnil
    rw [hnil, under_iff] at hunder
    simp at hunder
  have hsome : (d.entry? e.1).isSome := (mem_keys_iff hne).mp (List.mem_map_of_mem he)
  exact h.eq_of_mem hfile he (h.eq_of_prefix hsome (by rw [hfile]; simp) (under_iff.mp hunder))

/-- A file with a generated name can be taken out. -/
theorem remove_file (h : Sweepable d k) {c : Content}
    (hfile : d.entry? (k ++ [name]) = some (.file c)) (hown : isOwnOutput name = true)
    (hcheck : checkPath (.ofPlace (k ++ [name])) = .ok ()) (hpass : Passable d (k ++ [name])) :
    d.remove (.ofPlace (k ++ [name])) = .ok (d.erase (k ++ [name])) := by
  have hname : IsName name := h.sound.isName (by rw [hfile]; rfl) (by simp)
  obtain ⟨hpass, henter⟩ := passable_concat.mp hpass
  have hk : d.locate (.ofPlace k) = .ok k :=
    h.sound.locate_eq (p := .ofPlace k) rfl (checkPath_of_child rfl hcheck) h.folder hpass
      (by simp)
  have hchange : d.mayChange k := by
    have hmem := mem_entries_of_ne_folder hfile (by simp)
    have hloose := h.loose _ hmem (by rw [isCleared_concat, hown]; rfl)
    rwa [List.dropLast_concat] at hloose
  have hchild : (Path.ofPlace k).child name = .ofPlace (k ++ [name]) := rfl
  rw [← hchild, remove_child_eq_ok hname.ne_up]
  exact ⟨hcheck, hname.short, k, hk, h.folder, henter, hchange, ⟨_, hfile, by simp⟩, rfl⟩

/-- Such a file is all that is to be taken out under its name. -/
theorem erase_file (h : Sweepable d k) {c : Content}
    (hfile : d.entry? (k ++ [name]) = some (.file c)) (hown : isOwnOutput name = true) :
    d.erase (k ++ [name]) = d.without fun e => isCleared k e && under k name e.1 := by
  rw [h.sound.erase_eq_without (by simp)]
  apply without_congr
  intro e he
  cases hunder : under k name e.1 with
  | false =>
    have hne : e.1 ≠ k ++ [name] := by
      intro hplace
      rw [hplace, under_self] at hunder
      cases hunder
    simp [hne]
  | true =>
    rw [h.eq_file hfile he hunder, isCleared_concat, hown]
    simp [isFile]

/-- Every place that is reached is at or below one of the names of the folder. -/
theorem exists_name (h : Sweepable d k) {q : Place} (hq : (d.entry? q).isSome)
    (hreached : Reached k q) : ∃ name ∈ d.namesAt k, k ++ [name] <+: q := by
  obtain ⟨way, rfl⟩ := hreached.below
  cases way with
  | nil => exact absurd (List.append_nil k) hreached.ne_top
  | cons name rest =>
    have hbelow : k ++ [name] <+: k ++ name :: rest := ⟨rest, by simp⟩
    refine ⟨name, mem_namesAt.mpr ?_, hbelow⟩
    by_cases heq : k ++ [name] = k ++ name :: rest
    · rw [heq]
      exact hq
    · rw [h.sound.folder_of_prefix hq hbelow heq]
      rfl

end Sweepable

/-! ## What a sweep comes to -/

/-- The places that a sweep of the folder at `top` comes to: the folder, and what
lies in folders that are not passed over. -/
def Visited (top q : Place) : Prop := q = top ∨ Reached top q

instance (top q : Place) : Decidable (Visited top q) := inferInstanceAs (Decidable (_ ∨ _))

/-- A sweep of the folder at `top` gets past what it finds at a place. -/
structure CanVisit (d : Disk) (top : Place) (nesting : Nat) (q : Place) : Prop where
  short : checkPath (.ofPlace q) = .ok ()
  passable : Passable d q
  listed : Within top q → d.entry? q = some .folder →
    d.mayRead q ∧ q.length < top.length + nesting

instance (d : Disk) (top : Place) (nesting : Nat) (q : Place) :
    Decidable (CanVisit d top nesting q) :=
  decidable_of_iff (checkPath (.ofPlace q) = .ok () ∧ Passable d q ∧
      (Within top q → d.entry? q = some .folder → d.mayRead q ∧ q.length < top.length + nesting))
    ⟨fun ⟨h₁, h₂, h₃⟩ => ⟨h₁, h₂, h₃⟩, fun h => ⟨h.short, h.passable, h.listed⟩⟩

/-- There is nothing to be listed in what is passed over, and in what is no
folder. -/
theorem CanVisit.of_asked {q : Place} (hcheck : checkPath (.ofPlace q) = .ok ())
    (hpass : Passable d q) (hnot : Within k q → d.entry? q ≠ some .folder) :
    CanVisit d k nesting q :=
  ⟨hcheck, hpass, fun hwithin hfolder => absurd hfolder (hnot hwithin)⟩

/-- What a sweep gets past from one folder it gets past from the one above. -/
theorem canVisit_child {q : Place} (hskip : name ∉ Settings.alwaysSkipped)
    (hbelow : k ++ [name] <+: q) :
    CanVisit d (k ++ [name]) nesting q ↔ CanVisit d k (nesting + 1) q := by
  have hwithin : Within k q ↔ Within (k ++ [name]) q := by
    rw [within_below hbelow]
    exact and_iff_right hskip
  have hdepth : (k ++ [name]).length + nesting = k.length + (nesting + 1) := by
    rw [List.length_append, List.length_singleton]
    omega
  constructor
  · exact fun h => ⟨h.short, h.passable, fun hk hq => hdepth ▸ h.listed (hwithin.mp hk) hq⟩
  · exact fun h => ⟨h.short, h.passable, fun hk hq => hdepth ▸ h.listed (hwithin.mpr hk) hq⟩

/-- What a sweep gets past depends on the locks and on the folders. -/
theorem canVisit_congr {d' : Disk} {q : Place} (henter : ∀ p, d.mayEnter p = d'.mayEnter p)
    (hread : d.mayRead q = d'.mayRead q)
    (hfolder : d.entry? q = some .folder ↔ d'.entry? q = some .folder) :
    CanVisit d k nesting q ↔ CanVisit d' k nesting q := by
  have hpass : Passable d q ↔ Passable d' q := Passable.congr henter
  constructor
  · exact fun h => ⟨h.short, hpass.mp h.passable, fun hk hq => hread ▸ h.listed hk (hfolder.mpr hq)⟩
  · exact fun h => ⟨h.short, hpass.mpr h.passable, fun hk hq => hread ▸ h.listed hk (hfolder.mp hq)⟩

theorem canVisit_without {drop : Place × Entry → Bool} {q : Place} (hd : Sound d)
    (hdrop : ∀ e, drop e → isFile e.2) (hq : (Disk.entry? (d.without drop) q).isSome) :
    CanVisit (d.without drop) k nesting q ↔ CanVisit d k nesting q :=
  canVisit_congr (fun _ => rfl) (mayRead_without hq)
    (hd.folder_without fun e he => ne_folder_of_isFile (hdrop e he))

/-! ## One sweep -/

/-- What comes of a sweep over the places of a range: it got past all of them and
what is to be taken out is gone, or it did not get past one of them and stopped. -/
inductive Cleared (d : Disk) (k : Place) (nesting : Nat) (range : Place → Bool) (s : Sweep) : Prop
  | swept (hvisit : ∀ q, (d.entry? q).isSome → Visited k q → range q → CanVisit d k nesting q)
    (hdisk : s.disk = d.without fun e => isCleared k e && range e.1) (ht : s.trouble = none)
  | stopped {q : Place} (hq : (d.entry? q).isSome) (hvisited : Visited k q) (hrange : range q)
    (hstuck : ¬CanVisit d k nesting q) (ht : s.trouble ≠ none)

/-- A sweep that has stopped stays as it is. -/
theorem sweepEntry_stopped (p : Path) (h : s.trouble ≠ none) : sweepEntry down p s name = s := by
  unfold sweepEntry
  cases ht : s.trouble with
  | none => exact absurd ht h
  | some t => rfl

theorem foldl_stopped (p : Path) (names : List String) (h : s.trouble ≠ none) :
    names.foldl (sweepEntry down p) s = s := by
  induction names with
  | nil => rfl
  | cons name names ih => rw [List.foldl_cons, sweepEntry_stopped p h, ih]

/-- What a sweep comes to at and below a name of the folder is that name, or is
come to from there. -/
theorem visited_of_under {q : Place} (hq : Visited k q) (hunder : under k name q)
    (hne : q ≠ k ++ [name]) : name ∉ Settings.alwaysSkipped ∧ Reached (k ++ [name]) q := by
  have hbelow := under_iff.mp hunder
  rcases hq with rfl | hreached
  · exact absurd hbelow.length_le (by simp)
  · exact (reached_below hbelow hne).mp hreached

/-- A sweep of a name below which nothing is to be taken out. -/
theorem Cleared.of_unchanged (hd : Sound d) (hs : s.disk = d) (ht : s.trouble = none)
    (hvisit : ∀ q, (d.entry? q).isSome → Visited k q → under k name q → CanVisit d k nesting q)
    (hkeep : ∀ e ∈ d.entries.entries, under k name e.1 → isCleared k e = false) :
    Cleared d k nesting (under k name) s := by
  refine .swept hvisit ?_ ht
  rw [hs, hd.without_eq_self]
  intro e he
  cases hunder : under k name e.1 with
  | false => rw [Bool.and_false]
  | true => rw [hkeep e he hunder, Bool.false_and]

/-- A folder that is swept is swept as part of the one above it. -/
theorem cleared_folder (h : Sweepable d k) (hfolder : d.entry? (k ++ [name]) = some .folder)
    (hskip : name ∉ Settings.alwaysSkipped)
    (hbelow : Cleared d (k ++ [name]) nesting (fun _ => true) s') :
    Cleared d k (nesting + 1) (under k name) s' := by
  cases hbelow with
  | @stopped q hq hvisited hrange hstuck htrouble =>
    have hunder : k ++ [name] <+: q := by
      rcases hvisited with rfl | hreached
      · exact List.prefix_refl _
      · exact hreached.below
    have hvisited : Visited k q := by
      rcases hvisited with rfl | hreached
      · exact Or.inr (reached_concat.mpr (within_self k))
      · exact Or.inr ((reached_below hunder hreached.ne_top).mpr ⟨hskip, hreached⟩)
    exact .stopped hq hvisited (under_iff.mpr hunder)
      (fun hvisit => hstuck ((canVisit_child hskip hunder).mpr hvisit)) htrouble
  | swept hvisit hdisk htrouble =>
    refine .swept (fun q hq hvisited hunder => ?_) ?_ htrouble
    · rw [← canVisit_child hskip (under_iff.mp hunder)]
      by_cases hplace : q = k ++ [name]
      · exact hvisit q hq (Or.inl hplace) rfl
      · exact hvisit q hq (Or.inr (visited_of_under hvisited hunder hplace).2) rfl
    · rw [hdisk]
      apply without_congr
      intro e he
      rw [Bool.and_true]
      by_cases hplace : e.1 = k ++ [name]
      · rw [h.eq_of_mem hfolder he hplace]
        simp [isCleared, isFile]
      · exact isCleared_child hskip hplace

section

variable (hs : s.disk = d) (ht : s.trouble = none)
include hs ht

/-- A name that cannot be asked about stops the sweep. -/
theorem cleared_stuck {t : Trouble} (hname : (d.entry? (k ++ [name])).isSome)
    (hfind : d.find (.ofPlace (k ++ [name])) = .error t)
    (hstuck : ¬CanVisit d k nesting (k ++ [name])) :
    Cleared d k nesting (under k name) (sweepEntry down (.ofPlace k) s name) := by
  have hchild : (Path.ofPlace k).child name = .ofPlace (k ++ [name]) := rfl
  have heq : sweepEntry down (.ofPlace k) s name = { s with trouble := some t } := by
    simp only [sweepEntry, hchild, ht, hs, hfind]
  rw [heq]
  exact .stopped hname (Or.inr (reached_concat.mpr (within_self k)))
    (under_self k name) hstuck (by simp)

variable (h : Sweepable d k)
include h

/-- A folder that is passed over is left as it is. -/
theorem cleared_skipped (hfolder : d.entry? (k ++ [name]) = some .folder)
    (hcheck : checkPath (.ofPlace (k ++ [name])) = .ok ()) (hpass : Passable d (k ++ [name]))
    (hskip : name ∈ Settings.alwaysSkipped) : Cleared d k nesting (under k name) s := by
  have hplace : ∀ q, Visited k q → under k name q → q = k ++ [name] := by
    intro q hq hunder
    by_contra hne
    exact (visited_of_under hq hunder hne).1 hskip
  refine .of_unchanged h.sound hs ht (fun q _ hq hunder => ?_) ?_
  · rw [hplace q hq hunder]
    refine .of_asked hcheck hpass fun hwithin => ?_
    exact absurd hskip ((within_below (List.prefix_refl _)).mp hwithin).1
  · intro e he hunder
    cases hclear : isCleared k e with
    | false => rfl
    | true =>
      rw [h.eq_of_mem hfolder he (hplace e.1 (Or.inr (reached_of_isCleared hclear)) hunder)]
        at hclear
      cases isFile_of_isCleared hclear

/-- A file is taken out when its name is generated. -/
theorem cleared_file {c : Content} (hfile : d.entry? (k ++ [name]) = some (.file c))
    (hcheck : checkPath (.ofPlace (k ++ [name])) = .ok ()) (hpass : Passable d (k ++ [name])) :
    Cleared d k nesting (under k name) (sweepEntry down (.ofPlace k) s name) := by
  have hchild : (Path.ofPlace k).child name = .ofPlace (k ++ [name]) := rfl
  have hfind : s.disk.find (.ofPlace (k ++ [name])) = .ok (some (.file c)) := by
    rw [hs]
    exact h.sound.find_eq rfl hcheck hfile hpass (by simp)
  have hvisit : ∀ q, (d.entry? q).isSome → Visited k q → under k name q →
      CanVisit d k nesting q := by
    intro q hq _ hunder
    rw [h.eq_of_prefix hq (by rw [hfile]; simp) (under_iff.mp hunder)]
    exact .of_asked hcheck hpass fun _ => by rw [hfile]; simp
  cases hown : isOwnOutput name with
  | false =>
    have heq : sweepEntry down (.ofPlace k) s name = s := by
      simp [sweepEntry, hchild, ht, hfind, hown]
    rw [heq]
    refine .of_unchanged h.sound hs ht hvisit fun e he hunder => ?_
    rw [h.eq_file hfile he hunder, isCleared_concat, hown]
    rfl
  | true =>
    have hremove := h.remove_file hfile hown hcheck hpass
    rw [← hs] at hremove
    have heq : sweepEntry down (.ofPlace k) s name =
        { s with
          disk := s.disk.erase (k ++ [name])
          tried := s.tried ++ [(.ofPlace (k ++ [name]), none)] } := by
      simp only [sweepEntry, hchild, ht, hfind, hown, hremove, if_true]
    rw [heq]
    exact .swept hvisit (hs ▸ h.erase_file hfile hown) ht

/-- One entry: it cannot be asked about, or it is taken out if it is to be, or what
is below it is. -/
theorem cleared_sweepEntry (hname : (d.entry? (k ++ [name])).isSome)
    (hdown : Sweepable d (k ++ [name]) → checkPath (.ofPlace (k ++ [name])) = .ok () →
      Passable d (k ++ [name]) →
      Cleared d (k ++ [name]) nesting (fun _ => true) (down (.ofPlace (k ++ [name])) s)) :
    Cleared d k (nesting + 1) (under k name) (sweepEntry down (.ofPlace k) s name) := by
  have hchild : (Path.ofPlace k).child name = .ofPlace (k ++ [name]) := rfl
  have hnames : ∀ t ∈ k ++ [name], IsName t := fun t => h.sound.isName hname
  rcases checkPath_cases (p := .ofPlace (k ++ [name])) (Or.inl rfl) hnames with hcheck | hlong
  · by_cases hpass : Passable d (k ++ [name])
    · obtain ⟨e, he⟩ := Option.isSome_iff_exists.mp hname
      cases e with
      | link t => exact absurd he (h.links _ t (List.prefix_append k [name]))
      | file c => exact cleared_file hs ht h he hcheck hpass
      | folder =>
        have hfind : s.disk.find (.ofPlace (k ++ [name])) = .ok (some .folder) := by
          rw [hs]
          exact h.sound.find_eq rfl hcheck he hpass (by simp)
        by_cases hskip : name ∈ Settings.alwaysSkipped
        · have heq : sweepEntry down (.ofPlace k) s name = s := by
            simp only [sweepEntry, hchild, ht, hfind]
            rw [if_pos (by simpa using hskip)]
          rw [heq]
          exact cleared_skipped hs ht h he hcheck hpass hskip
        · have heq : sweepEntry down (.ofPlace k) s name = down (.ofPlace (k ++ [name])) s := by
            simp only [sweepEntry, hchild, ht, hfind]
            rw [if_neg (by simpa using hskip)]
          rw [heq]
          exact cleared_folder h he hskip (hdown (h.child he hskip) hcheck hpass)
    · exact cleared_stuck hs ht hname (h.sound.find_closed rfl hcheck hname hpass)
        fun hvisit => hpass hvisit.passable
  · refine cleared_stuck hs ht hname (find_tooLong hlong) fun hvisit => ?_
    have hshort := hvisit.short
    rw [hlong] at hshort
    cases hshort

end

theorem isFile_of_dropped {range : Place → Bool} {e : Place × Entry}
    (h : (isCleared k e && range e.1) = true) : isFile e.2 :=
  isFile_of_isCleared ((Bool.and_eq_true _ _).mp h).1

/-- What is not in the range is there after the sweep as before. -/
theorem entry?_outside {range : Place → Bool} {q : Place} (h : Sweepable d k)
    (hq : range q = false) :
    Disk.entry? (d.without fun e => isCleared k e && range e.1) q = d.entry? q := by
  rw [h.sound.entry?_without fun e he => ne_folder_of_isFile (isFile_of_dropped he)]
  cases d.entry? q <;> simp [hq]

/-- A sweep of one name, and then of places that are not under it. -/
theorem Cleared.after {range : Place → Bool} (h : Sweepable d k)
    (hvisit : ∀ q, (d.entry? q).isSome → Visited k q → under k name q → CanVisit d k nesting q)
    (hapart : ∀ q, range q → under k name q = false)
    (hrest : Cleared (d.without fun e => isCleared k e && under k name e.1) k nesting range s) :
    Cleared d k nesting (fun q => under k name q || range q) s := by
  cases hrest with
  | @stopped q hq hvisited hrange hstuck htrouble =>
    rw [canVisit_without h.sound (fun _ => isFile_of_dropped) hq] at hstuck
    rw [entry?_outside h (hapart q hrange)] at hq
    exact .stopped hq hvisited (by simp [hrange]) hstuck htrouble
  | swept hvisit' hdisk htrouble =>
    refine .swept (fun q hq hvisited hrange => ?_) ?_ htrouble
    · rcases (Bool.or_eq_true _ _).mp hrange with hrange | hrange
      · exact hvisit q hq hvisited hrange
      · rw [← entry?_outside h (hapart q hrange)] at hq
        rw [← canVisit_without h.sound (fun _ => isFile_of_dropped) hq]
        exact hvisit' q hq hvisited hrange
    · rw [hdisk, without_without]
      apply without_congr
      intro e _
      rw [Bool.and_or_distrib_left]

/-- The entries of a folder one after the other. What one of them takes out is
not under the name of another. -/
theorem cleared_foldl {names : List String} (h : Sweepable d k) (hs : s.disk = d)
    (ht : s.trouble = none) (hdistinct : names.Nodup)
    (hnames : ∀ name ∈ names, (d.entry? (k ++ [name])).isSome)
    (hdown : ∀ d s name, s.disk = d → s.trouble = none → Sweepable d (k ++ [name]) →
      checkPath (.ofPlace (k ++ [name])) = .ok () → Passable d (k ++ [name]) →
      Cleared d (k ++ [name]) nesting (fun _ => true) (down (.ofPlace (k ++ [name])) s)) :
    Cleared d k (nesting + 1) (fun q => names.any fun name => under k name q)
      (names.foldl (sweepEntry down (.ofPlace k)) s) := by
  induction names generalizing d s with
  | nil =>
    refine .swept (fun q _ _ hrange => by cases hrange) ?_ ht
    rw [List.foldl_nil, hs, h.sound.without_eq_self]
    simp
  | cons name names ih =>
    obtain ⟨hnew, hdistinct⟩ := List.nodup_cons.mp hdistinct
    rw [List.foldl_cons]
    have hapart : ∀ q, (names.any fun name => under k name q) → under k name q = false := by
      intro q hq
      obtain ⟨name', hname', hunder'⟩ := List.any_eq_true.mp hq
      by_contra hunder
      exact hnew (eq_of_under (eq_true_of_ne_false hunder) hunder' ▸ hname')
    have hfirst := cleared_sweepEntry hs ht h (hnames name List.mem_cons_self)
      fun hsweep hcheck hpass => hdown d s name hs ht hsweep hcheck hpass
    cases hfirst with
    | @stopped q hq hvisited hrange hstuck htrouble =>
      rw [foldl_stopped _ names htrouble]
      exact .stopped hq hvisited (by simp [hrange]) hstuck htrouble
    | swept hvisit hdisk htrouble =>
      refine .after h hvisit hapart ?_
      refine ih (h.without fun _ => isFile_of_dropped) hdisk htrouble hdistinct ?_
      intro name' hname'
      have hrange : (names.any fun name => under k name (k ++ [name'])) = true :=
        List.any_eq_true.mpr ⟨name', hname', under_self k name'⟩
      rw [entry?_outside h (hapart _ hrange)]
      exact hnames name' (List.mem_cons_of_mem name hname')

/-- A folder that cannot be swept itself stops the sweep. -/
theorem Cleared.of_unlisted (h : Sweepable d k) {range : Place → Bool} (hrange : range k)
    (hnot : ¬(d.mayRead k ∧ 0 < nesting)) (ht : s.trouble ≠ none) :
    Cleared d k nesting range s := by
  refine .stopped (by rw [h.folder]; rfl) (Or.inl rfl) hrange (fun hvisit => hnot ?_) ht
  obtain ⟨hread, hdepth⟩ := hvisit.listed (within_self k) h.folder
  exact ⟨hread, by omega⟩

/-- All of a folder that holds no links. -/
theorem cleared_sweepBelow (nesting : Nat) (h : Sweepable d k)
    (hcheck : checkPath (.ofPlace k) = .ok ()) (hpass : Passable d k) (hs : s.disk = d)
    (ht : s.trouble = none) :
    Cleared d k nesting (fun _ => true) (sweepBelow nesting (.ofPlace k) s) := by
  induction nesting generalizing d k s with
  | zero => exact .of_unlisted h rfl (by simp) (by simp [sweepBelow])
  | succ nesting ih =>
    have hlocate : d.locate (.ofPlace k) = .ok k :=
      h.sound.locate_eq (p := .ofPlace k) rfl hcheck h.folder hpass (by simp)
    by_cases hread : d.mayRead k
    · have hnames : s.disk.names (.ofPlace k) = .ok (d.namesAt k) := by
        rw [hs]
        exact names_eq_ok.mpr ⟨k, hlocate, h.folder, hread, rfl⟩
      have hfold := cleared_foldl h hs ht (nodup_namesAt h.sound.keys k)
        (fun name hname => mem_namesAt.mp hname)
        fun d s name hs ht hsweep hcheck hpass => ih hsweep hcheck hpass hs ht
      have heq : sweepBelow (nesting + 1) (.ofPlace k) s
          = (d.namesAt k).foldl (sweepEntry (sweepBelow nesting) (.ofPlace k)) s := by
        rw [sweepBelow, hnames]
      rw [heq]
      -- every place that is reached is under one of the names
      have hall : ∀ q, (d.entry? q).isSome → Reached k q →
          ((d.namesAt k).any fun name => under k name q) = true := fun q hq hreached => by
        obtain ⟨name, hname, hunder⟩ := h.exists_name hq hreached
        exact List.any_eq_true.mpr ⟨name, hname, under_iff.mpr hunder⟩
      cases hfold with
      | stopped hq hvisited hrange hstuck htrouble =>
        exact .stopped hq hvisited rfl hstuck htrouble
      | swept hvisit hdisk htrouble =>
        refine .swept (fun q hq hvisited _ => ?_) ?_ htrouble
        · rcases hvisited with rfl | hreached
          · exact ⟨hcheck, hpass, fun _ _ => ⟨hread, by omega⟩⟩
          · exact hvisit q hq (Or.inr hreached) (hall q hq hreached)
        · rw [hdisk]
          apply without_congr
          intro e he
          cases hclear : isCleared k e with
          | false => rfl
          | true =>
            have hreached := reached_of_isCleared hclear
            rw [hall e.1 ((mem_keys_iff hreached.ne_nil).mp (List.mem_map_of_mem he)) hreached]
    · have hnames : s.disk.names (.ofPlace k) = .error .notPermitted := by
        rw [hs, Disk.names, hlocate, ok_bind]
        simp only [h.folder, hread]
        rfl
      refine .of_unlisted h rfl (fun hlisted => hread hlisted.1) ?_
      rw [sweepBelow, hnames]
      simp

/-! ## How much is taken out -/

/-- The paths that are noted and the entries that are left add up. -/
structure Balanced (n : Nat) (s : Sweep) : Prop where
  keys : s.disk.entries.keys.Nodup
  count : s.removed.length + s.disk.entries.entries.length = n

theorem balanced_sweepEntry {n : Nat} {p : Path} (h : Balanced n s)
    (hdown : ∀ p s, Balanced n s → Balanced n (down p s)) :
    Balanced n (sweepEntry down p s name) := by
  rcases sweepEntry_cases down p s name with
    ⟨hdisk, hremoved⟩ | ⟨-, -, heq⟩ | ⟨-, -, hremove, hremoved⟩
  · exact ⟨hdisk ▸ h.keys, by rw [hdisk, hremoved]; exact h.count⟩
  · rw [heq]
    exact hdown _ s h
  · obtain ⟨q, e, he, hne, herase⟩ := exists_of_remove hremove
    have hq : q ≠ [] := by
      rintro rfl
      exact hne (Option.some.inj he).symm
    have hkey : q ∈ s.disk.entries.keys := (mem_keys_iff hq).mpr (by rw [he]; rfl)
    have hlength := Table.length_erase h.keys hkey
    have hcount := h.count
    refine ⟨?_, ?_⟩
    · rw [herase]
      exact h.keys.sublist (List.filter_sublist.map Prod.fst)
    · rw [herase, hremoved, List.length_append, List.length_singleton]
      show s.removed.length + 1 + (s.disk.entries.erase q).entries.length = n
      omega

theorem balanced_sweepBelow {n : Nat} (nesting : Nat) (p : Path) (h : Balanced n s) :
    Balanced n (sweepBelow nesting p s) := by
  induction nesting generalizing p s with
  | zero => exact ⟨h.keys, h.count⟩
  | succ nesting ih =>
    rw [sweepBelow]
    cases s.disk.names p with
    | error t => exact ⟨h.keys, h.count⟩
    | ok names =>
      refine List.foldlRecOn (motive := Balanced n) _ _ h ?_
      intro s hs name _
      exact balanced_sweepEntry hs fun p s hs => ih p hs

end CodeAtlas.Command
