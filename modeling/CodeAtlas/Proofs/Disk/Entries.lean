import CodeAtlas.Disk.Change
import CodeAtlas.Proofs.Fallible
import CodeAtlas.Proofs.Table
/-
  What a disk holds after one entry is put or taken out.

  Everything else about a disk is said through `Disk.entry?`, so this is the
  only place where the table of entries is opened: one law for `put`, one for
  `erase`, and `mem_namesAt`, which says that a folder lists exactly the names
  under which it has entries.

  Two disks can be compared in two ways. `SameWays` says that they differ only
  in files, which no path goes through, and that files can be written at the
  same places. `Subdisk` says that one of them holds nothing that the other does
  not.
-/

namespace CodeAtlas

namespace Table

variable {α β : Type} [DecidableEq α]

theorem get?_erase (t : Table α β) (k j : α) :
    (t.erase k).get? j = if j = k then none else t.get? j := by
  obtain ⟨l⟩ := t
  simp only [get?, erase, List.find?_filter]
  split
  · next h =>
    subst h
    simp
  · next h =>
    congr 2
    funext e
    by_cases he : e.1 = j
    · simp [he, h]
    · simp [he]

/-- Without a key that it has, a table is shorter by one. -/
theorem length_erase {t : Table α β} {k : α} (hkeys : t.keys.Nodup) (hk : k ∈ t.keys) :
    (t.erase k).entries.length + 1 = t.entries.length := by
  have hone : t.entries.countP (fun e => e.1 = k) = 1 := by
    have hcount := List.count_eq_one_of_mem hkeys hk
    rw [keys, List.count, List.countP_map] at hcount
    rw [← hcount]
    apply List.countP_congr
    intro e _
    simp
  have hothers : (t.erase k).entries.length = t.entries.countP (fun e => !decide (e.1 = k)) := by
    rw [List.countP_eq_length_filter, erase]
    simp
  have hall := List.length_eq_countP_add_countP (l := t.entries) (fun e => decide (e.1 = k))
  simp only [decide_eq_true_eq, decide_not] at hall
  omega

theorem get?_filter {t : Table α β} (hkeys : t.keys.Nodup) (keep : α × β → Bool) (k : α) :
    (⟨t.entries.filter keep⟩ : Table α β).get? k = (t.get? k).filter fun v => keep (k, v) := by
  have hsub : (⟨t.entries.filter keep⟩ : Table α β).keys.Sublist t.keys :=
    List.filter_sublist.map Prod.fst
  apply Option.ext
  intro v
  rw [Option.filter_eq_some_iff]
  constructor
  · intro h
    obtain ⟨hmem, hkeep⟩ := List.mem_filter.mp (mem_entries_of_get? h)
    exact ⟨get?_of_mem_entries hkeys hmem, hkeep⟩
  · rintro ⟨h, hkeep⟩
    exact get?_of_mem_entries (e := (k, v)) (hkeys.sublist hsub)
      (List.mem_filter.mpr ⟨mem_entries_of_get? h, hkeep⟩)

/-- A key whose values are all left out makes no difference to the rest. -/
theorem filter_insert {t : Table α β} {k : α} {v : β} {keep : α × β → Bool}
    (hnew : keep (k, v) = false) (hold : ∀ w, (k, w) ∈ t.entries → keep (k, w) = false) :
    (t.insert k v).entries.filter keep = t.entries.filter keep := by
  obtain ⟨l⟩ := t
  show (alterEntries k (fun _ => v) l).filter keep = l.filter keep
  replace hold : ∀ w, (k, w) ∈ l → keep (k, w) = false := hold
  induction l with
  | nil => simp [alterEntries, hnew]
  | cons e l ih =>
    obtain ⟨k', w⟩ := e
    rw [alterEntries]
    split
    · next hk =>
      subst hk
      rw [List.filter_cons_of_neg (by simp [hnew]),
        List.filter_cons_of_neg (by simp [hold w List.mem_cons_self])]
    · rw [List.filter_cons, List.filter_cons,
        ih fun w hw => hold w (List.mem_cons_of_mem (k', _) hw)]

theorem get?_insert (t : Table α β) (k j : α) (v : β) :
    (t.insert k v).get? j = if j = k then some v else t.get? j := by
  rw [insert, get?_alter]
  by_cases h : k = j
  · simp [h]
  · simp [h, Ne.symm h]

end Table

namespace Disk

variable {d d' d'' : Disk} {p q : Place}

/-! ## One entry -/

@[simp] theorem entry?_top (d : Disk) : d.entry? [] = some .folder := rfl

theorem entry?_of_ne (h : p ≠ []) : d.entry? p = d.entries.get? p := if_neg h

/-- A place with an entry is the top or a key of the table. -/
theorem mem_keys_iff (hp : p ≠ []) : p ∈ d.entries.keys ↔ (d.entry? p).isSome := by
  rw [entry?_of_ne hp, Option.isSome_iff_ne_none, Ne, Table.get?_eq_none_iff, not_not]

/-- An entry that is no folder is in the table. -/
theorem mem_entries_of_ne_folder {e : Entry} (he : d.entry? p = some e) (hne : e ≠ .folder) :
    (p, e) ∈ d.entries.entries := by
  have hp : p ≠ [] := by
    rintro rfl
    rw [entry?_top] at he
    exact hne (Option.some.inj he).symm
  rw [entry?_of_ne hp] at he
  exact Table.mem_entries_of_get? he

theorem entry?_put (hp : p ≠ []) (e : Entry) (q : Place) :
    entry? (d.put p e) q = if q = p then some e else d.entry? q := by
  by_cases hq : q = []
  · subst hq
    simp [Ne.symm hp]
  · rw [entry?_of_ne hq, entry?_of_ne hq]
    exact Table.get?_insert _ _ _ _

theorem entry?_erase (hp : p ≠ []) (q : Place) :
    entry? (d.erase p) q = if q = p then none else d.entry? q := by
  by_cases hq : q = []
  · subst hq
    simp [Ne.symm hp]
  · rw [entry?_of_ne hq, entry?_of_ne hq]
    exact Table.get?_erase _ _ _

/-- What is put at a place where a file can be written can be written again. -/
theorem mayWrite_put (hp : p ≠ []) (e : Entry) (hwrite : d.mayWrite p) (hchange : d.mayChange p)
    (q : Place) : mayWrite (d.put p e) q = d.mayWrite q := by
  have hlocks : ∀ r, mayChange (d.put p e) r = d.mayChange r := fun _ => rfl
  by_cases hq : q = p
  · subst hq
    rw [hwrite, mayWrite, hlocks, entry?_put hp, if_pos rfl]
    exact hchange
  · rw [mayWrite, mayWrite, hlocks, entry?_put hp, if_neg hq]

/-- A folder lists the names under which it has entries. -/
theorem mem_namesAt {name : String} : name ∈ d.namesAt p ↔ (d.entry? (p ++ [name])).isSome := by
  rw [← mem_keys_iff (by simp), namesAt, List.mem_mergeSort, List.mem_filterMap]
  constructor
  · rintro ⟨k, hk, hlast⟩
    split at hlast
    · next hdrop =>
      rw [← hdrop, List.dropLast_append_getLast? _ hlast]
      exact hk
    · cases hlast
  · intro hk
    exact ⟨p ++ [name], hk, by simp⟩

theorem nodup_namesAt (hkeys : d.entries.keys.Nodup) (p : Place) : (d.namesAt p).Nodup := by
  refine (List.mergeSort_perm _ _).nodup_iff.mpr ?_
  refine hkeys.filterMap fun k k' name hk hk' => ?_
  have hname : ∀ k, name ∈ (if k.dropLast = p then k.getLast? else none) → k = p ++ [name] := by
    intro k hk
    split at hk
    · next hdrop =>
      rw [← hdrop]
      exact (List.dropLast_append_getLast? name hk).symm
    · cases hk
  rw [hname k hk, hname k' hk']

/-! ## Disks that differ in files only -/

/-- What no path goes through: nothing, or a file. -/
def Blocks : Option Entry → Prop
  | none | some (.file _) => True
  | some .folder | some (.link _) => False

theorem blocks_iff {e : Option Entry} : Blocks e ↔ e = none ∨ ∃ c, e = some (.file c) := by
  rcases e with _ | _ | c | t <;> simp [Blocks]

/-- The two disks have the same folders, the same links and the same locks, and
files can be written at the same places. -/
structure SameWays (d d' : Disk) : Prop where
  cwd : d.cwd = d'.cwd
  locks : d.locks = d'.locks
  write : ∀ p, d.mayWrite p = d'.mayWrite p
  entry : ∀ p, d.entry? p = d'.entry? p ∨ Blocks (d.entry? p) ∧ Blocks (d'.entry? p)

namespace SameWays

theorem refl (d : Disk) : SameWays d d := ⟨rfl, rfl, fun _ => rfl, fun _ => Or.inl rfl⟩

theorem symm (h : SameWays d d') : SameWays d' d :=
  ⟨h.cwd.symm, h.locks.symm, fun p => (h.write p).symm,
    fun p => (h.entry p).imp Eq.symm And.symm⟩

theorem enter (h : SameWays d d') (p : Place) : d.mayEnter p = d'.mayEnter p := by
  rw [mayEnter, mayEnter, h.locks]

theorem change (h : SameWays d d') (p : Place) : d.mayChange p = d'.mayChange p := by
  rw [mayChange, mayChange, h.locks]

theorem trans (h : SameWays d d') (h' : SameWays d' d'') : SameWays d d'' := by
  refine ⟨h.cwd.trans h'.cwd, h.locks.trans h'.locks, fun p => (h.write p).trans (h'.write p),
    fun p => ?_⟩
  rcases h.entry p with e | ⟨b, b'⟩
  · rw [e]
    exact h'.entry p
  · right
    rcases h'.entry p with e | ⟨-, b''⟩
    · exact ⟨b, e ▸ b'⟩
    · exact ⟨b, b''⟩

theorem folder_iff (h : SameWays d d') (p : Place) :
    d.entry? p = some .folder ↔ d'.entry? p = some .folder := by
  rcases h.entry p with e | ⟨b, b'⟩
  · rw [e]
  · constructor <;> intro hf <;> simp_all [Blocks]

theorem link_iff (h : SameWays d d') (p : Place) (t : String) :
    d.entry? p = some (.link t) ↔ d'.entry? p = some (.link t) := by
  rcases h.entry p with e | ⟨b, b'⟩
  · rw [e]
  · constructor <;> intro hl <;> simp_all [Blocks]

/-- A file that is written in place of a file or of nothing changes no way. -/
theorem put (hp : p ≠ []) (hb : Blocks (d.entry? p)) (hwrite : d.mayWrite p)
    (hchange : d.mayChange p) (c : Content) : SameWays d (d.put p (.file c)) := by
  refine ⟨rfl, rfl, fun q => (mayWrite_put hp _ hwrite hchange q).symm, fun q => ?_⟩
  rw [entry?_put hp]
  split
  · next e =>
    subst e
    exact Or.inr ⟨hb, trivial⟩
  · exact Or.inl rfl

end SameWays

/-! ## Disks that hold less -/

/-- The first disk holds nothing that the second does not, and the same folders
can be gone through. -/
structure Subdisk (d' d : Disk) : Prop where
  cwd : d'.cwd = d.cwd
  enter : ∀ p, d'.mayEnter p = d.mayEnter p
  entry : ∀ {p e}, d'.entry? p = some e → d.entry? p = some e

namespace Subdisk

theorem refl (d : Disk) : Subdisk d d := ⟨rfl, fun _ => rfl, fun h => h⟩

theorem trans (h : Subdisk d'' d') (h' : Subdisk d' d) : Subdisk d'' d :=
  ⟨h.cwd.trans h'.cwd, fun p => (h.enter p).trans (h'.enter p), fun he => h'.entry (h.entry he)⟩

theorem erase (hp : p ≠ []) : Subdisk (d.erase p) d := by
  refine ⟨rfl, fun _ => rfl, fun {q e} he => ?_⟩
  rw [entry?_erase hp] at he
  split at he
  · cases he
  · exact he

theorem isSome (h : Subdisk d' d) (hp : (d'.entry? p).isSome) : (d.entry? p).isSome := by
  obtain ⟨e, he⟩ := Option.isSome_iff_exists.mp hp
  rw [h.entry he]
  rfl

end Subdisk

end Disk

end CodeAtlas
