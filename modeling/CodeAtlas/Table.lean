/-
  Tables that remember the order of their keys.

  A key keeps the place at which it first came in; giving it a new value does
  not move it. Records by name, aliases, callers and configuration objects are
  all kept so, because their order shows in everything that is written.
-/

namespace CodeAtlas

/-- `x` at the end of `xs`, unless it is there already. -/
def insertNew {α : Type} [DecidableEq α] (xs : List α) (x : α) : List α :=
  if x ∈ xs then xs else xs ++ [x]

/-- The distinct members of a list, in the order of their first places. -/
def distinct {α : Type} [DecidableEq α] (xs : List α) : List α := xs.foldl insertNew []

/-- Values by key, in the order in which the keys first came in. -/
structure Table (α β : Type) where
  entries : List (α × β)
  deriving DecidableEq, Repr

namespace Table

variable {α β : Type}

/-- The table with no keys. -/
def empty : Table α β := ⟨[]⟩

instance : Inhabited (Table α β) := ⟨empty⟩

/-- The keys, in order. -/
def keys (t : Table α β) : List α := t.entries.map Prod.fst

/-- The values, in the order of their keys. -/
def values (t : Table α β) : List β := t.entries.map Prod.snd

variable [DecidableEq α]

/-- Whether the table has a key. -/
def contains (t : Table α β) (k : α) : Bool := t.keys.contains k

/-- The value of a key. -/
def get? (t : Table α β) (k : α) : Option β :=
  (t.entries.find? fun e => e.1 = k).map Prod.snd

/-- Sets the value of `k` from its value so far, at its place or, for a new
key, at the end. -/
def alterEntries (k : α) (f : Option β → β) : List (α × β) → List (α × β)
  | [] => [(k, f none)]
  | (k', v) :: rest =>
    if k' = k then (k', f (some v)) :: rest else (k', v) :: alterEntries k f rest

/-- The table with the value of `k` computed from its value so far. -/
def alter (t : Table α β) (k : α) (f : Option β → β) : Table α β := ⟨alterEntries k f t.entries⟩

/-- The table with `v` as the value of `k`. -/
def insert (t : Table α β) (k : α) (v : β) : Table α β := t.alter k fun _ => v

/-- The table without a key. -/
def erase (t : Table α β) (k : α) : Table α β := ⟨t.entries.filter fun e => e.1 ≠ k⟩

/-- The table that results from setting the keys of a list one after the
other. -/
def ofList (l : List (α × β)) : Table α β := l.foldl (fun t e => t.insert e.1 e.2) empty

/-! ## Small laws -/

theorem keys_alter (t : Table α β) (k : α) (f : Option β → β) :
    (t.alter k f).keys = insertNew t.keys k := by
  obtain ⟨l⟩ := t
  simp only [keys, alter, insertNew]
  induction l with
  | nil => simp [alterEntries]
  | cons e l ih =>
    obtain ⟨k', v⟩ := e
    by_cases h : k' = k
    · subst h; simp [alterEntries]
    · have h' : ¬ k = k' := fun e => h e.symm
      simp only [alterEntries, h, if_false, List.map_cons, ih, List.mem_cons, h', false_or]
      split <;> simp_all

theorem get?_alter_self (t : Table α β) (k : α) (f : Option β → β) :
    (t.alter k f).get? k = some (f (t.get? k)) := by
  obtain ⟨l⟩ := t
  simp only [get?, alter]
  induction l with
  | nil => simp [alterEntries]
  | cons e l ih =>
    obtain ⟨k', v⟩ := e
    by_cases h : k' = k <;> simp_all [alterEntries]

theorem get?_alter_of_ne (t : Table α β) {k k' : α} (f : Option β → β) (h : k' ≠ k) :
    (t.alter k f).get? k' = t.get? k' := by
  obtain ⟨l⟩ := t
  simp only [get?, alter]
  induction l with
  | nil => simp [alterEntries, Ne.symm h]
  | cons e l ih =>
    obtain ⟨j, v⟩ := e
    by_cases hj : j = k
    · subst hj; simp [alterEntries, Ne.symm h]
    · by_cases hj' : j = k' <;> simp_all [alterEntries]

end Table

end CodeAtlas
