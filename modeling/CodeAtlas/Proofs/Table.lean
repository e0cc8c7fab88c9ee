import CodeAtlas.Table
import Mathlib.Data.List.Induction
import Mathlib.Data.List.Nodup
/-
  Tables that are built one key at a time.

  A table that comes from a list of steps, each of which sets or changes the
  value of one key, is known from the list alone: its keys are the distinct
  keys of the steps in the order of their first places (`keys_foldl_alter`),
  and the value of a key is what the steps for that key make of it, in order
  (`get?_foldl_alter`). What each step keeps true of one value is true of all
  (`forall_entries_foldl_alter`). Records that replace one another, members by
  module and callees by caller are all such tables.

  One table can be put over another (`update`): the keys of the first keep their
  places (`keys_update`), and a key of both has its value from the second
  (`get?_update`).

  `pairwise_distinct` says what the order of `distinct` means in terms of the
  list it is taken from; `Leads.of_flatMap` says what it means when that list
  is put together from several.
-/

namespace CodeAtlas

/-! ## Distinct members -/

section Distinct
variable {α : Type} [DecidableEq α]

theorem mem_insertNew {xs : List α} {x y : α} : y ∈ insertNew xs x ↔ y ∈ xs ∨ y = x := by
  unfold insertNew
  split
  · next h =>
    constructor
    · exact Or.inl
    · rintro (hy | rfl)
      · exact hy
      · exact h
  · simp

theorem nodup_insertNew {xs : List α} (h : xs.Nodup) (x : α) : (insertNew xs x).Nodup := by
  unfold insertNew
  split
  · exact h
  · next hx =>
    refine List.nodup_append.mpr ⟨h, by simp, ?_⟩
    intro a ha b hb hab
    simp only [List.mem_singleton] at hb
    exact hx (hb ▸ hab ▸ ha)

theorem mem_foldl_insertNew {xs ys : List α} {y : α} :
    y ∈ xs.foldl insertNew ys ↔ y ∈ ys ∨ y ∈ xs := by
  induction xs generalizing ys with
  | nil => simp
  | cons x xs ih => rw [List.foldl_cons, ih, mem_insertNew, List.mem_cons, or_assoc]

/-- Putting in one more member and then all is putting in all and then the one. -/
theorem foldl_insertNew_insertNew (xs ys : List α) (x : α) :
    (insertNew xs x).foldl insertNew ys = insertNew (xs.foldl insertNew ys) x := by
  unfold insertNew
  split
  · next h =>
    have hmem : x ∈ xs.foldl insertNew ys := mem_foldl_insertNew.mpr (Or.inr h)
    exact (if_pos hmem).symm
  · rw [List.foldl_append]
    rfl

/-- Members without repetition come in behind those that are there, less what is
there already. -/
theorem foldl_insertNew_eq {xs : List α} (h : xs.Nodup) (ys : List α) :
    xs.foldl insertNew ys = ys ++ xs.filter (· ∉ ys) := by
  induction xs generalizing ys with
  | nil => simp
  | cons x xs ih =>
    obtain ⟨hx, hxs⟩ := List.nodup_cons.mp h
    rw [List.foldl_cons, ih hxs, insertNew]
    split
    · next hmem => simp [hmem]
    · next hmem =>
      have hrest : xs.filter (fun y => decide (y ∉ ys ++ [x])) = xs.filter (· ∉ ys) := by
        apply List.filter_congr
        intro y hy
        have hne : y ≠ x := fun e => hx (e ▸ hy)
        simp [hne]
      rw [hrest, List.append_assoc]
      simp [hmem]

@[simp] theorem mem_distinct {xs : List α} {y : α} : y ∈ distinct xs ↔ y ∈ xs := by
  simp [distinct, mem_foldl_insertNew]

theorem distinct_append_singleton (xs : List α) (x : α) :
    distinct (xs ++ [x]) = insertNew (distinct xs) x := by
  simp [distinct]

theorem nodup_distinct (xs : List α) : (distinct xs).Nodup := by
  induction xs using List.reverseRecOn with
  | nil => exact List.nodup_nil
  | append_singleton xs x ih => rw [distinct_append_singleton]; exact nodup_insertNew ih x

/-- A list without repetition has its members for its distinct ones. -/
theorem distinct_of_nodup {xs : List α} (h : xs.Nodup) : distinct xs = xs := by
  rw [distinct, foldl_insertNew_eq h]
  simp

theorem length_distinct_le (xs : List α) : (distinct xs).length ≤ xs.length := by
  induction xs using List.reverseRecOn with
  | nil => exact Nat.le_refl 0
  | append_singleton xs x ih =>
    rw [distinct_append_singleton, insertNew, List.length_append, List.length_singleton]
    split
    · omega
    · simp; omega

/-- No member is lost exactly where there is no repetition. -/
theorem length_distinct_eq_iff {xs : List α} :
    (distinct xs).length = xs.length ↔ xs.Nodup := by
  constructor
  · intro h
    induction xs using List.reverseRecOn with
    | nil => exact List.nodup_nil
    | append_singleton xs x ih =>
      have hle := length_distinct_le xs
      rw [distinct_append_singleton, insertNew, List.length_append, List.length_singleton] at h
      split at h
      · omega
      · next hx =>
        rw [mem_distinct] at hx
        have hxs : xs.Nodup := ih (by simpa using h)
        refine List.nodup_append.mpr ⟨hxs, List.nodup_singleton x, ?_⟩
        intro a ha b hb hab
        rw [List.mem_singleton] at hb
        exact hx (hb ▸ hab ▸ ha)
  · intro h
    rw [distinct_of_nodup h]

theorem distinct_eq_eraseDups (xs : List α) : distinct xs = xs.eraseDups := by
  induction xs using List.reverseRecOn with
  | nil => rfl
  | append_singleton xs x ih =>
    rw [distinct_append_singleton, ih, List.eraseDups_append, insertNew, ← ih]
    by_cases h : x ∈ xs <;> simp [h, List.removeAll, List.eraseDups_cons]

/-- `a` stands in the list before the first place of `b`. -/
def Leads (xs : List α) (a b : α) : Prop :=
  ∃ before after, xs = before ++ a :: after ∧ b ∉ before ∧ b ≠ a

omit [DecidableEq α] in
theorem Leads.append {xs : List α} {a b : α} (h : Leads xs a b) (ys : List α) :
    Leads (xs ++ ys) a b := by
  obtain ⟨before, after, rfl, hb, hne⟩ := h
  exact ⟨before, after ++ ys, by simp, hb, hne⟩

omit [DecidableEq α] in
theorem leads_cons {xs : List α} {x a b : α} :
    Leads (x :: xs) a b ↔ b ≠ x ∧ (x = a ∨ Leads xs a b) := by
  constructor
  · rintro ⟨before, after, e, hb, hne⟩
    cases before with
    | nil =>
      obtain ⟨rfl, -⟩ := List.cons.inj e
      exact ⟨hne, Or.inl rfl⟩
    | cons y before =>
      obtain ⟨rfl, rfl⟩ := List.cons.inj e
      rw [List.mem_cons, not_or] at hb
      exact ⟨hb.1, Or.inr ⟨before, after, rfl, hb.2, hne⟩⟩
  · rintro ⟨hbx, rfl | ⟨before, after, rfl, hb, hne⟩⟩
    · exact ⟨[], xs, rfl, List.not_mem_nil, hbx⟩
    · exact ⟨x :: before, after, rfl, by simp [hbx, hb], hne⟩

/-- Distinct members stand in the order of their first places. -/
theorem pairwise_distinct (xs : List α) : (distinct xs).Pairwise (Leads xs) := by
  induction xs using List.reverseRecOn with
  | nil => exact List.Pairwise.nil
  | append_singleton xs x ih =>
    have ih' := ih.imp fun h => Leads.append h [x]
    rw [distinct_append_singleton]
    unfold insertNew
    split
    · exact ih'
    · next hx =>
      refine List.pairwise_append.mpr ⟨ih', List.pairwise_singleton _ _, ?_⟩
      intro a ha b hb
      rw [List.mem_singleton] at hb
      subst hb
      rw [mem_distinct] at ha hx
      obtain ⟨before, after, rfl⟩ := List.append_of_mem ha
      refine ⟨before, after ++ [b], by simp, fun h => hx (by simp [h]), ?_⟩
      rintro rfl
      exact hx ha

/-- What leads among the distinct members leads in the list. -/
theorem Leads.of_distinct {xs : List α} {a b : α} (h : Leads (distinct xs) a b) : Leads xs a b := by
  obtain ⟨before, after, heq, hb, hne⟩ := h
  have ha : a ∈ xs := by
    rw [← mem_distinct, heq]
    simp
  by_cases hmem : b ∈ xs
  · rw [← mem_distinct, heq, List.mem_append, List.mem_cons] at hmem
    have hafter : b ∈ after := (hmem.resolve_left hb).resolve_left hne
    have hpairs := pairwise_distinct xs
    rw [heq, List.pairwise_append, List.pairwise_cons] at hpairs
    exact hpairs.2.1.1 b hafter
  · obtain ⟨front, back, rfl⟩ := List.append_of_mem ha
    exact ⟨front, back, rfl, fun h => hmem (List.mem_append_left _ h), hne⟩

omit [DecidableEq α] in
/-- In two lists one after the other, the order is that of the first list which
has one of the two. -/
theorem Leads.of_append {xs ys : List α} {a b : α} (h : Leads (xs ++ ys) a b) :
    Leads xs a b ∨ a ∉ xs ∧ b ∉ xs ∧ Leads ys a b := by
  induction xs with
  | nil => exact Or.inr ⟨List.not_mem_nil, List.not_mem_nil, h⟩
  | cons x xs ih =>
    obtain ⟨hbx, hlead⟩ := leads_cons.mp h
    by_cases hax : x = a
    · exact Or.inl (leads_cons.mpr ⟨hbx, Or.inl hax⟩)
    · rcases ih (hlead.resolve_left hax) with hxs | ⟨ha, hb, hys⟩
      · exact Or.inl (leads_cons.mpr ⟨hbx, Or.inr hxs⟩)
      · exact Or.inr ⟨by simp [Ne.symm hax, ha], by simp [hbx, hb], hys⟩

omit [DecidableEq α] in
theorem Leads.of_flatMap {β : Type} {f : β → List α} {l : List β} {a b : α}
    (h : Leads (l.flatMap f) a b) :
    ∃ before x after, l = before ++ x :: after ∧ (∀ y ∈ before, a ∉ f y ∧ b ∉ f y) ∧
      Leads (f x) a b := by
  induction l with
  | nil =>
    obtain ⟨before, after, heq, -⟩ := h
    simp at heq
  | cons x l ih =>
    rw [List.flatMap_cons] at h
    rcases h.of_append with hx | ⟨ha, hb, hl⟩
    · exact ⟨[], x, l, rfl, by simp, hx⟩
    · obtain ⟨before, z, after, rfl, hbefore, hz⟩ := ih hl
      refine ⟨x :: before, z, after, rfl, ?_, hz⟩
      intro y hy
      rcases List.mem_cons.mp hy with rfl | hy
      · exact ⟨ha, hb⟩
      · exact hbefore y hy

/-- Groups by some keys make up all the members that have one of the keys. -/
theorem perm_flatMap_filter {β : Type} (f : β → α) (l : List β) {keys : List α}
    (h : keys.Nodup) :
    (keys.flatMap fun k => l.filter fun x => f x = k).Perm (l.filter fun x => f x ∈ keys) := by
  induction keys with
  | nil => simp
  | cons k rest ih =>
    obtain ⟨hk, hrest⟩ := List.nodup_cons.mp h
    have hfirst : (l.filter fun x => f x ∈ k :: rest).filter (fun x => f x = k)
        = l.filter fun x => f x = k := by
      rw [List.filter_filter]
      apply List.filter_congr
      intro x _
      by_cases hx : f x = k <;> simp [hx]
    have hothers : (l.filter fun x => f x ∈ k :: rest).filter (fun x => !decide (f x = k))
        = l.filter fun x => f x ∈ rest := by
      rw [List.filter_filter]
      apply List.filter_congr
      intro x _
      by_cases hx : f x = k
      · simp [hx, hk]
      · simp [hx]
    have hsplit := List.filter_append_perm (fun x => decide (f x = k))
      (l.filter fun x => f x ∈ k :: rest)
    rw [hfirst, hothers] at hsplit
    rw [List.flatMap_cons]
    exact ((ih hrest).append_left _).trans hsplit

end Distinct

namespace Table

variable {α β γ : Type}

/-! ## One step -/

variable [DecidableEq α]

@[simp] theorem get?_empty (k : α) : (empty : Table α β).get? k = none := rfl

theorem get?_alter (t : Table α β) (k j : α) (f : Option β → β) :
    (t.alter k f).get? j = if k = j then some (f (t.get? k)) else t.get? j := by
  split
  · next h => rw [← h, get?_alter_self]
  · next h => exact get?_alter_of_ne t f (Ne.symm h)

/-- Changing a key that was just set is setting it to the changed value. -/
theorem alter_insert (t : Table α β) (k : α) (v : β) (f : Option β → β) :
    (t.insert k v).alter k f = t.insert k (f (some v)) := by
  obtain ⟨l⟩ := t
  simp only [insert, alter, mk.injEq]
  induction l with
  | nil => simp [alterEntries]
  | cons e l ih =>
    obtain ⟨j, w⟩ := e
    by_cases h : j = k
    · simp [alterEntries, h]
    · simpa [alterEntries, h] using ih

/-- What a changed table holds is the changed entry or was there before. -/
theorem mem_alterEntries {k : α} {f : Option β → β} {l : List (α × β)} {e : α × β}
    (h : e ∈ alterEntries k f l) :
    e = (k, f none) ∨ (∃ old, (k, old) ∈ l ∧ e = (k, f (some old))) ∨ e ∈ l := by
  induction l with
  | nil => exact Or.inl (List.mem_singleton.mp h)
  | cons d l ih =>
    obtain ⟨j, v⟩ := d
    unfold alterEntries at h
    split at h
    · next hj =>
      subst hj
      rcases List.mem_cons.mp h with rfl | h
      · exact Or.inr (Or.inl ⟨v, List.mem_cons_self, rfl⟩)
      · exact Or.inr (Or.inr (List.mem_cons_of_mem _ h))
    · rcases List.mem_cons.mp h with rfl | h
      · exact Or.inr (Or.inr List.mem_cons_self)
      · rcases ih h with h | ⟨old, hold, h⟩ | h
        · exact Or.inl h
        · exact Or.inr (Or.inl ⟨old, List.mem_cons_of_mem _ hold, h⟩)
        · exact Or.inr (Or.inr (List.mem_cons_of_mem _ h))

theorem mem_entries_insert {t : Table α β} {k : α} {v : β} {e : α × β}
    (h : e ∈ (t.insert k v).entries) : e = (k, v) ∨ e ∈ t.entries := by
  rcases mem_alterEntries h with h | ⟨_, -, h⟩ | h
  · exact Or.inl h
  · exact Or.inl h
  · exact Or.inr h

theorem contains_eq_true {t : Table α β} {k : α} : t.contains k = true ↔ k ∈ t.keys := by
  simp [contains]

theorem mem_entries_of_get? {t : Table α β} {k : α} {v : β} (h : t.get? k = some v) :
    (k, v) ∈ t.entries := by
  simp only [get?, Option.map_eq_some_iff] at h
  obtain ⟨e, he, rfl⟩ := h
  have hk : e.1 = k := by simpa using List.find?_some he
  rw [← hk]
  exact List.mem_of_find?_eq_some he

theorem get?_eq_none_iff {t : Table α β} {k : α} : t.get? k = none ↔ k ∉ t.keys := by
  simp only [get?, Option.map_eq_none_iff, List.find?_eq_none, keys, List.mem_map, not_exists,
    not_and, decide_eq_true_eq]

omit [DecidableEq α] in
/-- Without repeated keys an entry is known by its key. -/
theorem eq_of_mem_entries {t : Table α β} (h : t.keys.Nodup) {d e : α × β} (hd : d ∈ t.entries)
    (he : e ∈ t.entries) (hkey : d.1 = e.1) : d = e :=
  List.inj_on_of_nodup_map h hd he hkey

theorem get?_of_mem_entries {t : Table α β} (h : t.keys.Nodup) {e : α × β}
    (he : e ∈ t.entries) : t.get? e.1 = some e.2 := by
  cases hget : t.get? e.1 with
  | none => exact absurd (List.mem_map_of_mem he) (get?_eq_none_iff.mp hget)
  | some v => rw [← eq_of_mem_entries h (mem_entries_of_get? hget) he rfl]

/-- Without repeated keys the entries are the keys with their values. -/
theorem entries_eq_map {t : Table α β} (h : t.keys.Nodup) {f : α → β}
    (hf : ∀ k ∈ t.keys, t.get? k = some (f k)) :
    t.entries = t.keys.map fun k => (k, f k) := by
  rw [keys, List.map_map]
  refine List.map_id' t.entries |>.symm.trans (List.map_congr_left ?_)
  intro e he
  have hget := mem_entries_of_get? (hf e.1 (List.mem_map_of_mem he))
  exact eq_of_mem_entries h he hget rfl

/-! ## A list of steps -/

theorem keys_foldl_alter (g : Option β → γ → β) (l : List (α × γ)) (t : Table α β) :
    (l.foldl (fun t e => t.alter e.1 fun old => g old e.2) t).keys
      = (l.map Prod.fst).foldl insertNew t.keys := by
  induction l generalizing t with
  | nil => rfl
  | cons e l ih => rw [List.foldl_cons, ih, keys_alter, List.map_cons, List.foldl_cons]

theorem get?_foldl_alter (g : Option β → γ → β) (l : List (α × γ)) (t : Table α β) (k : α) :
    (l.foldl (fun t e => t.alter e.1 fun old => g old e.2) t).get? k
      = (l.filter fun e => e.1 = k).foldl (fun old e => some (g old e.2)) (t.get? k) := by
  induction l generalizing t with
  | nil => rfl
  | cons e l ih =>
    rw [List.foldl_cons, ih, get?_alter]
    by_cases h : e.1 = k <;> simp [h]

/-- The keys of a list of settings are its distinct keys. -/
theorem keys_ofList (l : List (α × β)) : (ofList l).keys = distinct (l.map Prod.fst) :=
  keys_foldl_alter (fun _ v => v) l empty

/-- A list of settings without repeated keys is the table. -/
theorem entries_ofList {l : List (α × β)} (h : (l.map Prod.fst).Nodup) :
    (ofList l).entries = l := by
  have hnew : ∀ (l : List (α × β)) (e : α × β), e.1 ∉ l.map Prod.fst →
      alterEntries e.1 (fun _ => e.2) l = l ++ [e] := by
    intro l e
    induction l with
    | nil => intro _; rfl
    | cons d l ih =>
      intro hout
      rw [List.map_cons, List.mem_cons, not_or] at hout
      rw [alterEntries, if_neg (Ne.symm hout.1), ih hout.2, List.cons_append]
  induction l using List.reverseRecOn with
  | nil => rfl
  | append_singleton l e ih =>
    rw [List.map_append, List.nodup_append] at h
    have hout : e.1 ∉ l.map Prod.fst := by
      intro hmem
      exact h.2.2 _ hmem _ (List.mem_singleton_self e.1) rfl
    rw [ofList, List.foldl_append]
    exact (congrArg _ (ih h.1)).trans (hnew l e hout)

/-- What each step keeps true of the value of its key is true of all values. -/
theorem forall_entries_foldl_alter (g : Option β → γ → β) (Q : α → β → Prop) {l : List (α × γ)}
    (hnew : ∀ e ∈ l, Q e.1 (g none e.2))
    (hold : ∀ e ∈ l, ∀ old, Q e.1 old → Q e.1 (g (some old) e.2)) {t : Table α β}
    (ht : ∀ e ∈ t.entries, Q e.1 e.2) :
    ∀ e ∈ (l.foldl (fun t e => t.alter e.1 fun old => g old e.2) t).entries, Q e.1 e.2 := by
  induction l generalizing t with
  | nil => exact ht
  | cons d l ih =>
    apply ih (fun e he => hnew e (List.mem_cons_of_mem d he))
      (fun e he => hold e (List.mem_cons_of_mem d he))
    intro e he
    rcases mem_alterEntries he with rfl | ⟨old, hmem, rfl⟩ | he
    · exact hnew d List.mem_cons_self
    · exact hold d List.mem_cons_self old (ht _ hmem)
    · exact ht e he

/-- A list of settings puts nothing else into the table. -/
theorem mem_of_mem_entries_ofList {l : List (α × β)} {e : α × β} (h : e ∈ (ofList l).entries) :
    e ∈ l :=
  forall_entries_foldl_alter (fun _ v => v) (fun k v => (k, v) ∈ l) (fun _ he => he)
    (fun _ he _ _ => he) (fun _ he => by cases he) e h

/-- The last setting of a key stands. -/
theorem get?_ofList (l : List (α × β)) (k : α) :
    (ofList l).get? k = ((l.filter fun e => e.1 = k).getLast?).map Prod.snd := by
  have h := get?_foldl_alter (fun _ v => v) l (empty : Table α β) k
  have hlast : ∀ (m : List (α × β)) (old : Option β), m.foldl (fun _ e => some e.2) old
      = (m.getLast?.map Prod.snd).or old := by
    intro m
    induction m using List.reverseRecOn with
    | nil => intro old; rfl
    | append_singleton m e _ => intro old; simp
  rw [hlast, get?_empty, Option.or_none] at h
  exact h

/-- Values that are gathered under their keys: each key has all of its values,
in order. -/
theorem entries_gathered (l : List (α × β)) :
    (l.foldl (fun t e => t.alter e.1 fun old => old.getD [] ++ [e.2]) empty).entries
      = (distinct (l.map Prod.fst)).map fun k => (k, (l.filter fun e => e.1 = k).map Prod.snd) := by
  have hkeys :=
    keys_foldl_alter (fun old (v : β) => old.getD [] ++ [v]) l (empty : Table α (List β))
  have hfold : ∀ (m : List (α × β)) (vs : List β),
      m.foldl (fun old e => some (old.getD [] ++ [e.2])) (some vs)
        = some (vs ++ m.map Prod.snd) := by
    intro m
    induction m with
    | nil => simp
    | cons e m ih => intro vs; simp [ih]
  have hnodup := nodup_distinct (l.map Prod.fst)
  rw [entries_eq_map (f := fun k => (l.filter fun e => e.1 = k).map Prod.snd)]
  · rw [hkeys]
    rfl
  · rw [hkeys]
    exact hnodup
  · intro k hk
    rw [hkeys] at hk
    have hmem : k ∈ l.map Prod.fst := mem_distinct.mp hk
    rw [get?_foldl_alter (fun old (v : β) => old.getD [] ++ [v])]
    cases hfilter : l.filter fun e => e.1 = k with
    | nil =>
      obtain ⟨e, he, hek⟩ := List.mem_map.mp hmem
      have : e ∈ l.filter fun e => e.1 = k := List.mem_filter.mpr ⟨he, by simpa using hek⟩
      rw [hfilter] at this
      cases this
    | cons e m =>
      rw [List.foldl_cons]
      exact hfold m [e.2]

/-! ## One table over another -/

/-- The first table with every key of the second set to its value there. -/
def update (t u : Table α β) : Table α β := u.entries.foldl (fun t e => t.insert e.1 e.2) t

theorem keys_update_eq_foldl (t u : Table α β) :
    (t.update u).keys = u.keys.foldl insertNew t.keys :=
  keys_foldl_alter (fun _ v => v) u.entries t

/-- The keys of the first table keep their places, and the new ones of the second
follow in their order. -/
theorem keys_update (t : Table α β) {u : Table α β} (h : u.keys.Nodup) :
    (t.update u).keys = t.keys ++ u.keys.filter (· ∉ t.keys) := by
  rw [keys_update_eq_foldl, foldl_insertNew_eq h]

theorem get?_cons (e : α × β) (l : List (α × β)) (k : α) :
    (mk (e :: l)).get? k = if e.1 = k then some e.2 else (mk l).get? k := by
  by_cases h : e.1 = k <;> simp [get?, h]

/-- A key of the second table has its value there. -/
theorem get?_update (t : Table α β) {u : Table α β} (h : u.keys.Nodup) (k : α) :
    (t.update u).get? k = (u.get? k).or (t.get? k) := by
  obtain ⟨l⟩ := u
  induction l generalizing t with
  | nil => rfl
  | cons e l ih =>
    obtain ⟨hout, hl⟩ := List.nodup_cons.mp h
    have hupdate : t.update ⟨e :: l⟩ = (t.insert e.1 e.2).update ⟨l⟩ := rfl
    rw [hupdate, ih _ hl, get?_cons, insert, get?_alter]
    split
    · next hk =>
      have hnone : (mk l).get? k = none := get?_eq_none_iff.mpr (hk ▸ hout)
      rw [hnone]
      rfl
    · rfl

/-- Tables without repeated keys are known from their keys and values. -/
theorem ext_of_nodup {t u : Table α β} (hkeys : t.keys = u.keys) (h : t.keys.Nodup)
    (hget : ∀ k, t.get? k = u.get? k) : t = u := by
  obtain ⟨l⟩ := t
  obtain ⟨m⟩ := u
  induction l generalizing m with
  | nil =>
    cases m with
    | nil => rfl
    | cons e m => cases hkeys
  | cons d l ih =>
    cases m with
    | nil => cases hkeys
    | cons e m =>
      obtain ⟨hkey, hrest⟩ := List.cons.inj hkeys
      obtain ⟨hout, hl⟩ := List.nodup_cons.mp h
      have hvalue : d = e := by
        have := hget d.1
        rw [get?_cons, get?_cons, if_pos rfl, if_pos hkey.symm] at this
        exact Prod.ext hkey (Option.some.inj this)
      have htail : mk l = mk m := by
        refine ih hl m hrest fun k => ?_
        by_cases hk : d.1 = k
        · have hl' : k ∉ (mk l).keys := hk ▸ hout
          have hm' : k ∉ (mk m).keys := by rwa [keys, ← hrest]
          rw [get?_eq_none_iff.mpr hl', get?_eq_none_iff.mpr hm']
        · have := hget k
          rwa [get?_cons, get?_cons, if_neg hk, if_neg (hvalue ▸ hk)] at this
      rw [hvalue, mk.inj htail]

theorem nodup_keys_update {t u : Table α β} (ht : t.keys.Nodup) (hu : u.keys.Nodup) :
    (t.update u).keys.Nodup := by
  rw [keys_update t hu, List.nodup_append]
  refine ⟨ht, hu.filter _, ?_⟩
  rintro a ha b hb rfl
  simp [ha] at hb

/-- To change the second table at a key is to change the whole, if the key is there or
its old value does not matter. -/
theorem update_alter {t u : Table α β} (ht : t.keys.Nodup) (hu : u.keys.Nodup) {k : α}
    {f : Option β → β} (hf : k ∈ u.keys ∨ ∀ old, f old = f none) :
    t.update (u.alter k f) = (t.update u).alter k f := by
  have hchanged : (u.alter k f).keys.Nodup := by
    rw [keys_alter]
    exact nodup_insertNew hu k
  have hvalue : f (u.get? k) = f ((u.get? k).or (t.get? k)) := by
    rcases hf with hk | hf
    · cases hget : u.get? k with
      | none => exact absurd hk (get?_eq_none_iff.mp hget)
      | some v => rfl
    · rw [hf, hf ((u.get? k).or (t.get? k))]
  refine ext_of_nodup ?_ (nodup_keys_update ht hchanged) fun j => ?_
  · rw [keys_update_eq_foldl, keys_alter, keys_alter, keys_update_eq_foldl,
      foldl_insertNew_insertNew]
  · rw [get?_update t hchanged, get?_alter, get?_alter, get?_update t hu, get?_update t hu,
      ← hvalue]
    split <;> rfl

end Table

end CodeAtlas
