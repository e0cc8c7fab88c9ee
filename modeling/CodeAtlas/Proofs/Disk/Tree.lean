import CodeAtlas.Proofs.Disk.Ways
import Mathlib.Algebra.GroupWithZero.Nat
/-
  Disks that are trees of names, and what is written and removed on them.

  `Sound` is what every disk keeps: no place is listed twice, every entry has a
  name that a system takes and lies in a folder, what is locked is there, and
  paths start from a folder. On such a disk a path from the top that meets no
  link and no closed folder opens the entry of its name (`Sound.find_eq`), one
  that meets a closed folder is refused (`Sound.find_closed`), and a path that
  can be written leads to a file or to nothing (`Sound.opensFiles`).

  `landing` is the place where a path is written. It does not depend on the
  files of a disk, so it stays the same while files are written
  (`landing_congr`).
-/

namespace CodeAtlas

/-! ## The text of a path -/

namespace Path

theorem mem_intercalate_slash {parts : List String} {c : Char}
    (h : c ∈ ("/".intercalate parts).toList) : c = '/' ∨ ∃ s ∈ parts, c ∈ s.toList := by
  induction parts with
  | nil => simp at h
  | cons s rest ih =>
    by_cases hrest : rest = []
    · subst hrest
      rw [String.intercalate_singleton] at h
      exact Or.inr ⟨s, List.mem_cons_self, h⟩
    · rw [String.intercalate_cons_of_ne_nil hrest, String.toList_append, String.toList_append,
        List.mem_append, List.mem_append] at h
      rcases h with (h | h) | h
      · exact Or.inr ⟨s, List.mem_cons_self, h⟩
      · left
        simpa using h
      · rcases ih h with h | ⟨t, ht, hc⟩
        · exact Or.inl h
        · exact Or.inr ⟨t, List.mem_cons_of_mem s ht, hc⟩

theorem toString_of_isAbsolute {p : Path} (h : p.isAbsolute) :
    p.toString = p.anchor ++ "/".intercalate p.parts := by
  have hne : p.anchor ≠ "" := by simpa [isAbsolute] using h
  rw [toString, if_neg (fun hp => hne hp.1)]

/-- The last part of a path is in its text. -/
theorem mem_toString_child {p : Path} (h : p.isAbsolute) {s : String} {c : Char}
    (hc : c ∈ s.toList) : c ∈ (p.child s).toString.toList := by
  rw [toString_of_isAbsolute (p := p.child s) h, String.toList_append, List.mem_append]
  right
  rw [child]
  by_cases hp : p.parts = []
  · rw [hp, List.nil_append, String.intercalate_singleton]
    exact hc
  · rw [String.intercalate_append_of_ne_nil hp (by simp)]
    simp only [String.toList_append, List.mem_append, String.intercalate_singleton]
    exact Or.inr hc

/-- One more part makes the text of a path longer by itself and a slash. -/
theorem size_child {p : Path} (h : p.isAbsolute) (hp : p.parts ≠ []) (s : String) :
    (p.child s).toString.utf8ByteSize = p.toString.utf8ByteSize + 1 + s.utf8ByteSize := by
  have hslash : "/".utf8ByteSize = 1 := by decide
  rw [toString_of_isAbsolute h, toString_of_isAbsolute (p := p.child s) h, child,
    String.intercalate_append_of_ne_nil hp (by simp)]
  simp only [String.utf8ByteSize_append, String.intercalate_singleton, hslash]
  omega

/-- A path from the top is not shorter than the path to its folder. -/
theorem size_le_size_child {p : Path} (h : p.isAbsolute) (s : String) :
    p.toString.utf8ByteSize ≤ (p.child s).toString.utf8ByteSize := by
  by_cases hp : p.parts = []
  · rw [toString_of_isAbsolute h, toString_of_isAbsolute (p := p.child s) h, child, hp,
      String.utf8ByteSize_append, String.utf8ByteSize_append]
    simp
  · rw [size_child h hp]
    omega

/-- The path to a place is as long as its names, with a slash before each. -/
theorem size_ofPlace {k : Place} (hk : k ≠ []) : (ofPlace k).toString.utf8ByteSize
    = (k.map fun s => s.utf8ByteSize + 1).sum := by
  induction k using List.reverseRecOn with
  | nil => exact absurd rfl hk
  | append_singleton k s ih =>
    rw [List.map_append, List.sum_append, List.map_singleton, List.sum_singleton]
    by_cases hk' : k = []
    · subst hk'
      have hslash : "/".utf8ByteSize = 1 := by decide
      rw [toString_of_isAbsolute (p := ofPlace ([] ++ [s])) rfl, List.nil_append, ofPlace,
        String.intercalate_singleton, String.utf8ByteSize_append, hslash]
      simp [Nat.add_comm]
    · have hchild : ofPlace (k ++ [s]) = (ofPlace k).child s := rfl
      rw [hchild, size_child rfl hk', ih hk']
      omega

theorem toString_relative {parts : List String} (h : parts ≠ []) :
    toString ⟨"", parts⟩ = "/".intercalate parts := by
  have htext : toString ⟨"", parts⟩ = "" ++ "/".intercalate parts := if_neg fun hnil => h hnil.2
  rw [htext, String.empty_append]

/-- A relative path has no slash before its first part. -/
theorem size_relative {parts : List String} (h : parts ≠ []) :
    (toString ⟨"", parts⟩).utf8ByteSize + 1 = (parts.map fun s => s.utf8ByteSize + 1).sum := by
  have hslash : "/".utf8ByteSize = 1 := by decide
  have htop : (ofPlace parts).toString = "/" ++ "/".intercalate parts := toString_of_isAbsolute rfl
  rw [← size_ofPlace h, htop, toString_relative h, String.utf8ByteSize_append, hslash, Nat.add_comm]

end Path

namespace Disk

variable {d d' : Disk} {p : Path} {k q : Place}

/-! ## Names and trees -/

/-- A text that a system takes as the name of an entry. -/
structure IsName (s : String) : Prop extends Path.IsComponent s where
  ne_up : s ≠ ".."
  no_null : '\x00' ∉ s.toList
  short : s.utf8ByteSize ≤ nameLimit

theorem IsName.isStep {s : String} (h : IsName s) : IsStep s := ⟨h.ne_empty, h.ne_dot, h.ne_up⟩

theorem IsName.canStep {s : String} (h : IsName s) (rest : List String) : CanStep false s rest :=
  ⟨h.isStep, h.short, by simp⟩

instance (s : String) : Decidable (IsName s) :=
  decidable_of_iff ((s ≠ "" ∧ s ≠ "." ∧ '/' ∉ s.toList) ∧ s ≠ ".." ∧ '\x00' ∉ s.toList ∧
      s.utf8ByteSize ≤ nameLimit)
    ⟨fun ⟨⟨h₁, h₂, h₃⟩, h₄, h₅, h₆⟩ => ⟨⟨h₁, h₂, h₃⟩, h₄, h₅, h₆⟩,
      fun h => ⟨⟨h.ne_empty, h.ne_dot, h.no_slash⟩, h.ne_up, h.no_null, h.short⟩⟩

/-- What every disk keeps: it is a tree of names, what cannot be read or changed
is in it, and paths start inside it. -/
structure Sound (d : Disk) : Prop where
  keys : d.entries.keys.Nodup
  names : ∀ k ∈ d.entries.keys, ∀ s ∈ k, IsName s
  parents : ∀ k ∈ d.entries.keys, d.entry? k.dropLast = some .folder
  locked : ∀ k ∈ d.locks.hidden ++ d.locks.fixed, (d.entry? k).isSome
  cwd : d.entry? d.cwd = some .folder

instance (d : Disk) : Decidable (Sound d) :=
  decidable_of_iff (d.entries.keys.Nodup ∧ (∀ k ∈ d.entries.keys, ∀ s ∈ k, IsName s) ∧
      (∀ k ∈ d.entries.keys, d.entry? k.dropLast = some .folder) ∧
      (∀ k ∈ d.locks.hidden ++ d.locks.fixed, (d.entry? k).isSome) ∧
      d.entry? d.cwd = some .folder)
    ⟨fun ⟨h₁, h₂, h₃, h₄, h₅⟩ => ⟨h₁, h₂, h₃, h₄, h₅⟩,
      fun h => ⟨h.keys, h.names, h.parents, h.locked, h.cwd⟩⟩

namespace Sound

variable (h : Sound d)
include h

theorem isName {s : String} (hk : (d.entry? k).isSome) (hs : s ∈ k) : IsName s := by
  by_cases htop : k = []
  · subst htop
    cases hs
  · exact h.names k ((mem_keys_iff htop).mpr hk) s hs

theorem folder_above (hk : (d.entry? k).isSome) : d.entry? k.dropLast = some .folder := by
  by_cases htop : k = []
  · subst htop
    rfl
  · exact h.parents k ((mem_keys_iff htop).mpr hk)

/-- There are folders all the way to an entry. -/
theorem folder_of_prefix {way : Place} (hk : (d.entry? k).isSome) (hway : way <+: k)
    (hne : way ≠ k) : d.entry? way = some .folder := by
  induction k using List.reverseRecOn with
  | nil => exact absurd (List.prefix_nil.mp hway) hne
  | append_singleton k s ih =>
    have hfolder : d.entry? k = some .folder := by
      have := h.folder_above hk
      rwa [List.dropLast_concat] at this
    rcases List.prefix_concat_iff.mp hway with rfl | hway
    · exact absurd rfl hne
    · by_cases heq : way = k
      · rw [heq]
        exact hfolder
      · exact ih (by rw [hfolder]; rfl) hway heq

/-- A file at a place in a folder leaves a tree. -/
theorem put {f : Place} {s : String} (hf : d.entry? f = some .folder) (hs : IsName s)
    (hb : Blocks (d.entry? (f ++ [s]))) (c : Content) : Sound (d.put (f ++ [s]) (.file c)) := by
  have hne : f ++ [s] ≠ [] := by simp
  have hput := fun q => entry?_put (d := d) hne (.file c) q
  have hfolder : ∀ q, d.entry? q = some .folder →
      entry? (d.put (f ++ [s]) (.file c)) q = some .folder := by
    intro q hq
    rw [hput, if_neg]
    · exact hq
    · rintro rfl
      rw [hq] at hb
      exact hb
  have hkeys : (d.put (f ++ [s]) (.file c)).entries.keys = insertNew d.entries.keys (f ++ [s]) :=
    Table.keys_alter _ _ _
  refine ⟨?_, fun k hk => ?_, fun k hk => ?_, fun k hk => ?_, hfolder _ h.cwd⟩
  · rw [hkeys]
    exact nodup_insertNew h.keys _
  · rw [hkeys, mem_insertNew] at hk
    rcases hk with hk | rfl
    · exact h.names k hk
    · intro t ht
      rcases List.mem_append.mp ht with ht | ht
      · exact h.isName (by rw [hf]; rfl) ht
      · exact List.mem_singleton.mp ht ▸ hs
  · rw [hkeys, mem_insertNew] at hk
    refine hfolder _ ?_
    rcases hk with hk | rfl
    · exact h.parents k hk
    · rw [List.dropLast_concat]
      exact hf
  · rw [hput]
    split
    · rfl
    · exact h.locked k hk

/-- What is not there is not locked. -/
theorem mayChange_of_none (hk : d.entry? k = none) : d.mayChange k := by
  rw [mayChange, Bool.not_eq_true', List.contains_eq_mem, decide_eq_false_iff_not]
  intro hmem
  have hsome := h.locked k (List.mem_append_right _ hmem)
  rw [hk] at hsome
  cases hsome

/-- An entry of the table is the entry at its place. -/
theorem entry?_of_mem {e : Place × Entry} (he : e ∈ d.entries.entries) (hne : e.1 ≠ []) :
    d.entry? e.1 = some e.2 := by
  rw [entry?_of_ne hne]
  exact Table.get?_of_mem_entries h.keys he

/-- How deep an entry lies is bounded by the number of entries: all the folders
above it are entries, too. -/
theorem length_le (hk : k ∈ d.entries.keys) : k.length ≤ d.entries.entries.length := by
  let ways := (List.range k.length).map fun i => k.take (i + 1)
  have hnodup : ways.Nodup := by
    refine List.Nodup.map_on (fun i hi j hj hij => ?_) List.nodup_range
    have hlen := congrArg List.length hij
    rw [List.mem_range] at hi hj
    rw [List.length_take, List.length_take] at hlen
    omega
  have hmem : ways ⊆ d.entries.keys := by
    intro way hway
    obtain ⟨i, hi, rfl⟩ := List.mem_map.mp hway
    rw [List.mem_range] at hi
    have hne : k.take (i + 1) ≠ [] := by
      rw [Ne, List.take_eq_nil_iff]
      rintro (h | rfl)
      · omega
      · simp at hi
    by_cases heq : k.take (i + 1) = k
    · rw [heq]
      exact hk
    have hk' : (d.entry? k).isSome := by
      rw [← mem_keys_iff]
      · exact hk
      · rintro rfl
        simp at hi
    rw [mem_keys_iff hne, h.folder_of_prefix hk' (List.take_prefix _ _) heq]
    rfl
  calc k.length = ways.length := by simp [ways]
    _ ≤ d.entries.keys.length := hnodup.length_le_of_subset hmem
    _ = d.entries.entries.length := by simp [Table.keys]

end Sound

/-! ## Without some entries -/

/-- The disk with other entries. The locks on what is gone are gone, too. -/
def withEntries (d : Disk) (entries : Table Place Entry) : Disk :=
  { d with entries := entries, locks := d.locks.keep fun k => k = [] ∨ k ∈ entries.keys }

/-- The disk without some of its entries. -/
def without (d : Disk) (drop : Place × Entry → Bool) : Disk :=
  d.withEntries ⟨d.entries.entries.filter fun e => !drop e⟩

variable {drop drop' : Place × Entry → Bool}

theorem without_congr (h : ∀ e ∈ d.entries.entries, drop e = drop' e) :
    d.without drop = d.without drop' := by
  unfold without
  rw [List.filter_congr fun e he => by rw [h e he]]

theorem Sound.mem_keys_of_locked (h : Sound d) (hk : k ∈ d.locks.hidden ++ d.locks.fixed)
    (hne : k ≠ []) : k ∈ d.entries.keys := (mem_keys_iff hne).mpr (h.locked k hk)

theorem keep_congr {l : Locks} {stays stays' : Place → Bool}
    (h : ∀ k ∈ l.hidden ++ l.fixed, stays k = stays' k) : l.keep stays = l.keep stays' := by
  rw [Locks.keep, Locks.keep, List.filter_congr fun k hk => h k (List.mem_append_left _ hk),
    List.filter_congr fun k hk => h k (List.mem_append_right _ hk)]

theorem Sound.without_eq_self (hd : Sound d) (h : ∀ e ∈ d.entries.entries, drop e = false) :
    d.without drop = d := by
  have hkeep : d.locks.keep (fun k => k = [] ∨ k ∈ d.entries.keys)
      = d.locks.keep fun _ => true := by
    refine keep_congr fun k hk => ?_
    rw [decide_eq_true_eq]
    exact or_iff_not_imp_left.mpr (hd.mem_keys_of_locked hk)
  have hlocks : d.locks.keep (fun _ => true) = d.locks := by
    rw [Locks.keep, List.filter_true, List.filter_true]
  rw [without, List.filter_eq_self.mpr fun e he => by rw [h e he]; rfl, withEntries, hkeep, hlocks]

theorem without_without :
    (d.without drop).without drop' = d.without fun e => drop e || drop' e := by
  have hfilter : (d.entries.entries.filter fun e => !drop e).filter (fun e => !drop' e)
      = d.entries.entries.filter fun e => !(drop e || drop' e) := by
    rw [List.filter_filter]
    refine List.filter_congr fun e _ => ?_
    cases drop e <;> cases drop' e <;> rfl
  -- what is left of the rest is left of the whole
  have hsub : ∀ k ∈ Table.keys ⟨d.entries.entries.filter fun e => !(drop e || drop' e)⟩,
      k ∈ Table.keys ⟨d.entries.entries.filter fun e => !drop e⟩ := by
    intro k hk
    rw [← hfilter] at hk
    exact (List.filter_sublist.map Prod.fst).subset hk
  simp only [without, withEntries, hfilter, Locks.keep, List.filter_filter]
  congr 2 <;>
  · refine List.filter_congr fun k _ => ?_
    rw [← Bool.decide_and, decide_eq_decide]
    exact ⟨And.left, fun hk => ⟨hk, hk.imp id (hsub k)⟩⟩

theorem Sound.erase_eq_without (h : Sound d) (hk : k ≠ []) :
    d.erase k = d.without fun e => e.1 = k := by
  have hentries : (⟨d.entries.entries.filter fun e => !decide (e.1 = k)⟩ : Table Place Entry)
      = d.entries.erase k := by
    simp [Table.erase]
  rw [without, hentries, withEntries, erase, keep_congr]
  intro q hq
  rw [decide_eq_decide]
  constructor
  · intro hne
    refine or_iff_not_imp_left.mpr fun htop => ?_
    obtain ⟨e, he, rfl⟩ := List.mem_map.mp (h.mem_keys_of_locked hq htop)
    exact List.mem_map_of_mem (List.mem_filter.mpr ⟨he, by simpa using hne⟩)
  · rintro (rfl | hmem)
    · exact hk.symm
    · obtain ⟨e, he, rfl⟩ := List.mem_map.mp hmem
      simpa using (List.mem_filter.mp he).2

/-- An entry that is left out together with the one it replaces. -/
theorem without_put {e : Entry} (hnew : drop (k, e) = true)
    (hold : ∀ e', (k, e') ∈ d.entries.entries → drop (k, e') = true) :
    (d.put k e).without drop = d.without drop := by
  have hfilter : (d.entries.insert k e).entries.filter (fun e => !drop e)
      = d.entries.entries.filter (fun e => !drop e) :=
    Table.filter_insert (by simp [hnew]) fun e' he' => by simp [hold e' he']
  unfold without put
  simp only [hfilter]
  rfl

theorem mem_keys_of_without (hk : k ∈ (d.without drop).entries.keys) : k ∈ d.entries.keys :=
  (List.filter_sublist.map Prod.fst).subset hk

theorem mayChange_without (h : d.mayChange k) : (d.without drop).mayChange k := by
  rw [mayChange, Bool.not_eq_true', List.contains_eq_mem, decide_eq_false_iff_not] at h ⊢
  exact fun hk => h (List.mem_filter.mp hk).1

/-- What is left can be read as before. -/
theorem mayRead_without (hk : (Disk.entry? (d.without drop) k).isSome) :
    (d.without drop).mayRead k = d.mayRead k := by
  have hstays : k = [] ∨ k ∈ (d.without drop).entries.keys :=
    or_iff_not_imp_left.mpr fun hne => (mem_keys_iff hne).mpr hk
  have hmem : k ∈ (d.without drop).locks.hidden ↔ k ∈ d.locks.hidden := by
    refine ⟨fun hk => (List.mem_filter.mp hk).1, fun hk => List.mem_filter.mpr ⟨hk, ?_⟩⟩
    exact decide_eq_true hstays
  rw [mayRead, mayRead, List.contains_eq_mem, List.contains_eq_mem, decide_eq_decide.mpr hmem]

section

variable (h : Sound d) (hdrop : ∀ e, drop e → e.2 ≠ .folder)
include h hdrop

theorem Sound.entry?_without (q : Place) :
    entry? (d.without drop) q = (d.entry? q).filter fun e => !drop (q, e) := by
  by_cases hq : q = []
  · subst hq
    have hkeep : drop ([], .folder) = false := by
      cases hd : drop ([], .folder) with
      | false => rfl
      | true => exact absurd rfl (hdrop _ hd)
    rw [entry?_top, entry?_top, Option.filter_some, hkeep]
    rfl
  · rw [entry?_of_ne hq, entry?_of_ne hq]
    exact Table.get?_filter h.keys _ q

theorem Sound.folder_without {q : Place} :
    entry? (d.without drop) q = some .folder ↔ d.entry? q = some .folder := by
  rw [h.entry?_without hdrop, Option.filter_eq_some_iff]
  refine ⟨And.left, fun hq => ⟨hq, ?_⟩⟩
  cases hd : drop (q, .folder) with
  | false => rfl
  | true => exact absurd rfl (hdrop _ hd)

/-- Without entries that are no folders it is still a tree. -/
theorem Sound.without : Sound (d.without drop) := by
  refine ⟨h.keys.sublist (List.filter_sublist.map Prod.fst),
    fun k hk => h.names k (mem_keys_of_without hk), fun k hk => ?_, fun k hk => ?_, ?_⟩
  · rw [h.folder_without hdrop]
    exact h.parents k (mem_keys_of_without hk)
  · have hstays : k = [] ∨ k ∈ (d.without drop).entries.keys := by
      rcases List.mem_append.mp hk with hk | hk <;>
        exact of_decide_eq_true (List.mem_filter.mp hk).2
    rcases hstays with rfl | hmem
    · rfl
    · by_cases htop : k = []
      · subst htop
        rfl
      · exact (mem_keys_iff htop).mp hmem
  · rw [h.folder_without hdrop]
    exact h.cwd

end

/-! ## What a path from the top opens -/

theorem checkPath_eq_ok : checkPath p = .ok () ↔
    '\x00' ∉ p.toString.toList ∧ p.toString.utf8ByteSize ≤ pathLimit := by
  simp only [checkPath, List.contains_iff_mem]
  split
  · next hnull => simp [hnull]
  · next hnull =>
    split
    · next hlong => simp [Nat.not_le.mpr hlong]
    · next hlong => simp [hnull, Nat.not_lt.mp hlong]

theorem null_not_mem_toString (hanchor : p.anchor = "/" ∨ p.anchor = "//")
    (hnames : ∀ s ∈ p.parts, IsName s) : '\x00' ∉ p.toString.toList := by
  have habs : p.isAbsolute := by rcases hanchor with h | h <;> simp [Path.isAbsolute, h]
  rw [Path.toString_of_isAbsolute habs, String.toList_append, List.mem_append]
  rintro (h | h)
  · rcases hanchor with ha | ha <;> rw [ha] at h <;> simp at h
  · rcases Path.mem_intercalate_slash h with h | ⟨s, hs, hc⟩
    · exact absurd h (by decide)
    · exact (hnames s hs).no_null hc

/-- A path whose parts are names is too long or can be asked about. -/
theorem checkPath_cases (hanchor : p.anchor = "/" ∨ p.anchor = "//")
    (hnames : ∀ s ∈ p.parts, IsName s) :
    checkPath p = .ok () ∨ checkPath p = .error .nameTooLong := by
  have hnull := null_not_mem_toString hanchor hnames
  by_cases hlong : p.toString.utf8ByteSize ≤ pathLimit
  · exact Or.inl (checkPath_eq_ok.mpr ⟨hnull, hlong⟩)
  · right
    simp only [checkPath, List.contains_iff_mem, if_neg hnull, if_pos (Nat.not_le.mp hlong)]

/-- A relative path of names is refused when it is too long. -/
theorem checkPath_relative {parts : List String} (hne : parts ≠ [])
    (hnames : ∀ t ∈ parts, IsName t) :
    checkPath ⟨"", parts⟩ =
      if pathLimit + 1 < (parts.map fun t => t.utf8ByteSize + 1).sum then .error .nameTooLong
      else .ok () := by
  have hnull : '\x00' ∉ (Path.toString ⟨"", parts⟩).toList := by
    rw [Path.toString_relative hne]
    intro hmem
    rcases Path.mem_intercalate_slash hmem with hslash | ⟨t, ht, hc⟩
    · exact absurd hslash (by decide)
    · exact (hnames t ht).no_null hc
  simp only [checkPath, List.contains_iff_mem, if_neg hnull, ← Path.size_relative hne,
    Nat.add_lt_add_iff_right]

/-- When the path to an entry can be asked about, so can that to its folder. -/
theorem checkPath_of_child (habs : p.isAbsolute) {s : String}
    (h : checkPath (p.child s) = .ok ()) : checkPath p = .ok () := by
  obtain ⟨hnull, hlong⟩ := checkPath_eq_ok.mp h
  have hsize := Path.size_le_size_child habs s
  refine checkPath_eq_ok.mpr ⟨fun hmem => hnull ?_, by omega⟩
  rw [Path.toString_of_isAbsolute habs, String.toList_append, List.mem_append] at hmem
  rw [Path.toString_of_isAbsolute (p := p.child s) habs, String.toList_append, List.mem_append]
  refine hmem.imp id fun hmem => ?_
  by_cases hp : p.parts = []
  · simp [hp] at hmem
  · rw [Path.child, String.intercalate_append_of_ne_nil hp (by simp)]
    simp only [String.toList_append, List.mem_append]
    exact Or.inl (Or.inl hmem)

theorem find_tooLong (h : checkPath p = .error .nameTooLong) :
    d.find p = .error .nameTooLong := by
  have hstat : d.stat p = .error .nameTooLong := by
    rw [stat, locate, reach, h, error_bind, error_bind]
  exact find_eq_error.mpr ⟨Or.inl rfl, hstat⟩

/-- Steps through folders end at a closed one. -/
theorem follow_closed {making : Bool} {through : Place → List String → Except Trouble Place}
    {here : Place} {steps : List String} (hnames : ∀ s ∈ steps, IsName s)
    (hway : ∀ way, way <+: steps → way ≠ steps → d.entry? (here ++ way) = some .folder)
    (hclosed : ∃ way, way <+: steps ∧ way ≠ steps ∧ ¬d.mayEnter (here ++ way)) :
    follow d making through here steps = .error .notPermitted := by
  induction steps generalizing here with
  | nil =>
    obtain ⟨way, hpre, hne, -⟩ := hclosed
    exact absurd (List.prefix_nil.mp hpre) hne
  | cons s rest ih =>
    have hs := hnames s List.mem_cons_self
    by_cases hin : d.mayEnter here
    · obtain ⟨way, hpre, hne, hway'⟩ := hclosed
      cases way with
      | nil =>
        rw [List.append_nil] at hway'
        exact absurd hin hway'
      | cons t way =>
        obtain ⟨rfl, hbelow⟩ := List.cons_prefix_cons.mp hpre
        have hrest : rest ≠ [] := by
          rintro rfl
          exact hne (by rw [List.prefix_nil.mp hbelow])
        have hcan : CanStep making t rest := by
          refine ⟨hs.isStep, hs.short, ?_⟩
          rintro ⟨-, rfl⟩
          exact (hnames "" (by simp)).ne_empty rfl
        rw [follow_of_canStep through hin hcan, hway [t] ⟨rest, rfl⟩ (by simpa using hrest.symm)]
        refine ih (fun s hs => hnames s (List.mem_cons_of_mem t hs)) (fun way hpre hne => ?_)
          ⟨way, hbelow, by simpa using hne, by simpa using hway'⟩
        rw [List.append_assoc]
        exact hway (t :: way) ((List.prefix_cons_inj t).mpr hpre) (by simpa using hne)
    · rw [follow, if_neg hs.ne_empty, if_pos (by simpa using hin)]

/-- The folders above what a path from the top leads to can be gone through. -/
theorem passable_of_reach {making : Bool} (habs : p.isAbsolute) (hq : d.reach making p = .ok q) :
    Passable d q := by
  have hwalk := (reach_eq_ok.mp hq).2
  rw [startOf, if_pos habs] at hwalk
  exact hwalk.passable (passable_nil d)

namespace Sound

variable (h : Sound d)
include h

/-- A path from the top through folders, none of them closed, leads where it says,
also when there is no entry. -/
theorem reach_eq {making : Bool} (habs : p.isAbsolute) (hcheck : checkPath p = .ok ())
    (hnames : ∀ s ∈ p.parts, IsName s) (hfolder : d.entry? p.parts.dropLast = some .folder)
    (hpass : Passable d p.parts) (hend : ∀ t, d.entry? p.parts ≠ some (.link t)) :
    d.reach making p = .ok p.parts := by
  have hstart : d.startOf p = [] := by rw [startOf, if_pos habs]
  have hway : ∀ way, way <+: p.parts → way ≠ p.parts → d.entry? ([] ++ way) = some .folder := by
    intro way hway hne
    rw [List.nil_append]
    by_cases heq : way = p.parts.dropLast
    · rw [heq]
      exact hfolder
    · refine h.folder_of_prefix (by rw [hfolder]; rfl) ?_ heq
      have hparts : p.parts ≠ [] := by
        intro hnil
        rw [hnil] at hway hne
        exact hne (List.prefix_nil.mp hway)
      rw [← List.dropLast_concat_getLast hparts] at hway
      exact (List.prefix_concat_iff.mp hway).resolve_left fun e =>
        hne (e.trans (List.dropLast_concat_getLast hparts))
  refine reach_eq_ok.mpr ⟨hcheck, ?_⟩
  rw [hstart]
  exact walk_of_folders (fun s hs => (hnames s hs).isStep) (fun s hs => (hnames s hs).short)
    hway hpass hend

/-- A path from the top to an entry that is no link leads to it, if no folder on
the way is closed. -/
theorem locate_eq {e : Entry} (habs : p.isAbsolute) (hcheck : checkPath p = .ok ())
    (he : d.entry? p.parts = some e) (hpass : Passable d p.parts) (hlink : ∀ t, e ≠ .link t) :
    d.locate p = .ok p.parts := by
  have hsome : (d.entry? p.parts).isSome := by rw [he]; rfl
  refine h.reach_eq habs hcheck (fun s hs => h.isName hsome hs) (h.folder_above hsome) hpass ?_
  intro t ht
  rw [he] at ht
  cases ht
  exact hlink t rfl

/-- A path to an entry through a closed folder is refused. -/
theorem locate_closed (habs : p.isAbsolute) (hcheck : checkPath p = .ok ())
    (hsome : (d.entry? p.parts).isSome) (hclosed : ¬Passable d p.parts) :
    d.locate p = .error .notPermitted := by
  have hstart : d.startOf p = [] := by rw [startOf, if_pos habs]
  obtain ⟨through, heq⟩ := followLinks_eq_follow d false linkLimit
  rw [locate, reach, hcheck, ok_bind, heq, hstart]
  simp only [Passable, not_forall] at hclosed
  obtain ⟨way, hway, hne, hin⟩ := hclosed
  exact follow_closed (fun s hs => h.isName hsome hs)
    (fun way hway hne => h.folder_of_prefix hsome hway hne) ⟨way, hway, hne, hin⟩

/-- Such a path leads nowhere else. -/
theorem eq_of_locate {e : Entry} (habs : p.isAbsolute) (he : d.entry? p.parts = some e)
    (hlink : ∀ t, e ≠ .link t) (hq : d.locate p = .ok q) : q = p.parts := by
  have hcheck := (reach_eq_ok.mp hq).1
  by_cases hpass : Passable d p.parts
  · have heq := h.locate_eq habs hcheck he hpass hlink
    rw [hq] at heq
    exact Except.ok.inj heq
  · rw [h.locate_closed habs hcheck (by rw [he]; rfl) hpass] at hq
    cases hq

theorem find_eq {e : Entry} (habs : p.isAbsolute) (hcheck : checkPath p = .ok ())
    (he : d.entry? p.parts = some e) (hpass : Passable d p.parts) (hlink : ∀ t, e ≠ .link t) :
    d.find p = .ok (some e) :=
  find_eq_some.mpr ⟨p.parts, h.locate_eq habs hcheck he hpass hlink, he⟩

theorem find_closed (habs : p.isAbsolute) (hcheck : checkPath p = .ok ())
    (hsome : (d.entry? p.parts).isSome) (hclosed : ¬Passable d p.parts) :
    d.find p = .error .notPermitted := by
  have hstat : d.stat p = .error .notPermitted := by
    rw [stat, h.locate_closed habs hcheck hsome hclosed, error_bind]
  exact find_eq_error.mpr ⟨Or.inr rfl, hstat⟩

end Sound

/-! ## Writing -/

/-- The place where a path is written, if it can be. -/
def landing (d : Disk) (p : Path) : Option Place :=
  (d.reach true p).toOption.filter fun place =>
    d.entry? place ≠ some .folder ∧ d.mayWrite place

theorem landing_eq_some : d.landing p = some q ↔
    d.reach true p = .ok q ∧ d.entry? q ≠ some .folder ∧ d.mayWrite q := by
  rw [landing, Option.filter_eq_some_iff]
  cases d.reach true p <;> simp [Except.toOption]

theorem write_eq_ok {c : Content} : d.write p c = .ok d' ↔
    ∃ q, d.landing p = some q ∧ d' = d.put q (.file c) := by
  rw [write, bind_eq_ok]
  constructor
  · rintro ⟨q, hq, hw⟩
    split at hw
    · cases hw
    · next hfolder =>
      split at hw
      · next hwrite =>
        cases hw
        exact ⟨q, landing_eq_some.mpr ⟨hq, hfolder, hwrite⟩, rfl⟩
      · cases hw
  · rintro ⟨q, hq, rfl⟩
    obtain ⟨hreach, hfolder, hwrite⟩ := landing_eq_some.mp hq
    refine ⟨q, hreach, ?_⟩
    split
    · next he => exact absurd he hfolder
    · exact if_pos hwrite

/-- A path from the top to a name in a folder is written there, if it is, and the
name is one that a system takes. -/
theorem Sound.landing_ofPlace (h : Sound d) {name : String} (hfolder : d.entry? k = some .folder)
    (hlink : ∀ t, d.entry? (k ++ [name]) ≠ some (.link t)) (hstep : IsStep name)
    (hslash : '/' ∉ name.toList) (hland : d.landing (.ofPlace (k ++ [name])) = some q) :
    q = k ++ [name] ∧ IsName name ∧ checkPath (.ofPlace (k ++ [name])) = .ok () := by
  obtain ⟨hcheck, hwalk⟩ := reach_eq_ok.mp (landing_eq_some.mp hland).1
  have hsome : (d.entry? k).isSome := by rw [hfolder]; rfl
  have hsteps : ∀ s ∈ k ++ [name], IsStep s := by
    intro s hs
    rcases List.mem_append.mp hs with hs | hs
    · exact (h.isName hsome hs).isStep
    · rw [List.mem_singleton.mp hs]
      exact hstep
  have hway : ∀ way t, way <+: k ++ [name] → d.entry? ([] ++ way) ≠ some (.link t) := by
    intro way t hway
    rw [List.nil_append]
    rcases List.prefix_concat_iff.mp hway with rfl | hway
    · exact hlink t
    · by_cases heq : way = k
      · rw [heq, hfolder]
        simp
      · rw [h.folder_of_prefix hsome hway heq]
        simp
  have hwalk : Walk d true q linkLimit [] (k ++ [name]) := hwalk
  obtain ⟨hq, hshort, -⟩ := hwalk.direct hsteps hway
  refine ⟨hq, ⟨⟨hstep.ne_empty, hstep.ne_dot, hslash⟩, hstep.ne_up, fun hnull => ?_,
    hshort name (by simp)⟩, hcheck⟩
  exact (checkPath_eq_ok.mp hcheck).1 (Path.mem_toString_child (p := .ofPlace k) rfl hnull)

/-- Where a path is written does not depend on the files. -/
theorem landing_congr (h : SameWays d d') (p : Path) : d.landing p = d'.landing p := by
  apply Option.ext
  intro q
  rw [landing_eq_some, landing_eq_some, reach_congr h, Ne, Ne, h.folder_iff, h.write]

/-- What is at the place where a path is written is what the path opens. -/
theorem find_eq_some_of_landing (hways : SameWays d d') (h : d.landing p = some q) {e : Entry} :
    d'.find p = .ok (some e) ↔ d'.entry? q = some e := by
  have hlocate : d'.locate p = .ok q :=
    reach_of_keepsWays (hways.keepsWays q) hways.cwd (by simp) (landing_eq_some.mp h).1
  rw [find_eq_some]
  constructor
  · rintro ⟨q', hq', he⟩
    rw [hlocate] at hq'
    cases hq'
    exact he
  · intro he
    exact ⟨q, hlocate, he⟩

theorem exists_of_remove (h : d.remove p = .ok d') :
    ∃ k e, d.entry? k = some e ∧ e ≠ .folder ∧ d' = d.erase k := by
  obtain ⟨place, -, h⟩ := bind_eq_ok.mp h
  split at h
  · cases h
  · next k =>
    split at h
    · cases h
    · cases h
    · cases h
    · next _ e hne he _ =>
      cases h
      exact ⟨k, e, he, hne, rfl⟩

/-- Where a name of a folder is. -/
theorem locateName_child_eq_ok {name : String} (hname : name ≠ "..") {place : Option Place} :
    d.locateName (p.child name) = .ok place ↔
      checkPath (p.child name) = .ok () ∧ name.utf8ByteSize ≤ nameLimit ∧
        ∃ f, d.locate p = .ok f ∧ d.entry? f = some .folder ∧ d.mayEnter f ∧
          place = some (f ++ [name]) := by
  have hparent : (p.child name).parent = p := by
    rw [Path.parent, Path.child, List.dropLast_concat]
  have hlast : (p.child name).parts.getLast? = some name := by
    rw [Path.child, List.getLast?_concat]
  rw [locateName, hparent, hlast, bind_eq_ok]
  simp only [bind_eq_ok, locateFolder_eq_ok, if_neg hname]
  constructor
  · rintro ⟨u, hcheck, f, ⟨hf, he⟩, h⟩
    split at h
    · cases h
    · next hin =>
      split at h
      · cases h
      · next hshort =>
        cases h
        exact ⟨hcheck, Nat.not_lt.mp hshort, f, hf, he, by simpa using hin, rfl⟩
  · rintro ⟨hcheck, hshort, f, hf, he, hin, rfl⟩
    refine ⟨(), hcheck, f, ⟨hf, he⟩, ?_⟩
    rw [if_neg (by simp [hin]), if_neg (Nat.not_lt.mpr hshort)]
    rfl

/-- What it takes to take a name out of a folder. -/
theorem remove_child_eq_ok {name : String} (hname : name ≠ "..") :
    d.remove (p.child name) = .ok d' ↔
      checkPath (p.child name) = .ok () ∧ name.utf8ByteSize ≤ nameLimit ∧
        ∃ f, d.locate p = .ok f ∧ d.entry? f = some .folder ∧ d.mayEnter f ∧ d.mayChange f ∧
          (∃ e, d.entry? (f ++ [name]) = some e ∧ e ≠ .folder) ∧ d' = d.erase (f ++ [name]) := by
  rw [remove, bind_eq_ok]
  constructor
  · rintro ⟨place, hplace, h⟩
    obtain ⟨hcheck, hshort, f, hf, he, hin, rfl⟩ :=
      (locateName_child_eq_ok hname).mp hplace
    refine ⟨hcheck, hshort, f, hf, he, hin, ?_⟩
    simp only [List.dropLast_concat] at h
    split at h
    · cases h
    · cases h
    · cases h
    next _ e hne hentry hchange =>
    cases h
    exact ⟨hchange, ⟨e, hentry, hne⟩, rfl⟩
  · rintro ⟨hcheck, hshort, f, hf, he, hin, hchange, ⟨e, hentry, hne⟩, rfl⟩
    refine ⟨_, (locateName_child_eq_ok hname).mpr ⟨hcheck, hshort, f, hf, he, hin, rfl⟩, ?_⟩
    simp only [hentry, List.dropLast_concat, hchange]
    rfl

/-- Every path that can be written leads to a file or to nothing, and no lock is
left over there. -/
def OpensFiles (d : Disk) : Prop :=
  ∀ p q, d.landing p = some q → Blocks (d.entry? q) ∧ d.mayChange q

theorem OpensFiles.congr (ho : OpensFiles d) (h : SameWays d d') : OpensFiles d' := by
  intro p q hq
  rw [← landing_congr h] at hq
  rw [← h.change]
  refine ⟨?_, (ho p q hq).2⟩
  rcases h.entry q with heq | ⟨-, hb⟩
  · rw [← heq]
    exact (ho p q hq).1
  · exact hb

theorem ne_nil_of_landing (h : d.landing p = some q) : q ≠ [] := by
  rintro rfl
  exact (landing_eq_some.mp h).2.1 rfl

theorem OpensFiles.sameWays (ho : OpensFiles d) {c : Content} (h : d.landing p = some q) :
    SameWays d (d.put q (.file c)) :=
  SameWays.put (ne_nil_of_landing h) (ho p q h).1 (landing_eq_some.mp h).2.2 (ho p q h).2 c

theorem blocks_of_ne {e : Option Entry} (hfolder : e ≠ some .folder)
    (hlink : ∀ t, e ≠ some (.link t)) : Blocks e := by
  rcases e with _ | _ | c | t
  · trivial
  · exact absurd rfl hfolder
  · trivial
  · exact absurd rfl (hlink t)

/-- No entry is a link. -/
def Linkless (d : Disk) : Prop := ∀ p t, d.entry? p ≠ some (.link t)

theorem linkless_of_entries (h : ∀ e ∈ d.entries.entries, ∀ t, e.2 ≠ .link t) : Linkless d := by
  intro p t hp
  exact h _ (mem_entries_of_ne_folder hp (by simp)) t rfl

/-- A walk from a folder never ends at a link. -/
theorem Sound.ne_link_of_walk (h : Sound d) {making : Bool} {n : Nat} {here : Place}
    {steps : List String} (hwalk : Walk d making q n here steps)
    (hhere : d.entry? here = some .folder) : ∀ t, d.entry? q ≠ some (.link t) := by
  induction hwalk with
  | done => simp [hhere]
  | stay _ _ ih => exact ih hhere
  | up _ _ ih => exact ih (h.folder_above (by rw [hhere]; rfl))
  | ends _ _ hb hq =>
    rw [hq]
    intro t ht
    rw [ht] at hb
    exact hb
  | down _ _ he _ ih => exact ih he
  | @link n here s target rest _ _ _ _ ih =>
    refine ih ?_
    rw [linkStart]
    split
    · rfl
    · exact hhere

theorem Sound.opensFiles (h : Sound d) : OpensFiles d := by
  intro p q hq
  obtain ⟨hreach, hfolder, hwrite⟩ := landing_eq_some.mp hq
  obtain ⟨-, hwalk⟩ := reach_eq_ok.mp hreach
  constructor
  · refine blocks_of_ne hfolder (h.ne_link_of_walk hwalk ?_)
    rw [startOf]
    split
    · rfl
    · exact h.cwd
  · cases he : d.entry? q with
    | none => exact h.mayChange_of_none he
    | some e =>
      rw [mayWrite, he] at hwrite
      exact hwrite

end Disk

end CodeAtlas
