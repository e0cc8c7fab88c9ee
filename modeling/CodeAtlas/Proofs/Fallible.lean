import CodeAtlas.Syntax.Tree
import Mathlib.Data.List.Forall2
import Mathlib.Data.Option.Basic
/-
  Passes that can fail.

  Every pass over a file reads texts, and stops at the first text that is
  none. The lemmas here take such a pass apart once it has succeeded: one step
  of it (`bind_eq_ok`, or `bind_eq_error` once it has failed), a step for every
  member of a list (`mapM_eq_ok`), and a step for a node that may be there
  (`optionMapM_eq_ok`). `Answers` says that a pass does succeed, with one lemma
  for each of these steps.
-/

namespace CodeAtlas

variable {ε α β : Type}

theorem bind_eq_ok {x : Except ε α} {f : α → Except ε β} {b : β} :
    x >>= f = .ok b ↔ ∃ a, x = .ok a ∧ f a = .ok b := by
  cases x with
  | error e =>
    constructor
    · intro h; cases h
    · rintro ⟨a, h, -⟩; cases h
  | ok a =>
    constructor
    · intro h; exact ⟨a, rfl, h⟩
    · rintro ⟨a', h, hb⟩; cases h; exact hb

theorem bind_eq_error {x : Except ε α} {f : α → Except ε β} {e : ε} :
    x >>= f = .error e ↔ x = .error e ∨ ∃ a, x = .ok a ∧ f a = .error e := by
  cases x with
  | error e' =>
    constructor
    · intro h; cases h; exact Or.inl rfl
    · rintro (h | ⟨a, h, -⟩) <;> cases h; rfl
  | ok a =>
    constructor
    · intro h; exact Or.inr ⟨a, rfl, h⟩
    · rintro (h | ⟨a', h, he⟩) <;> cases h; exact he

/-- Going on from an answer. The function is kept apart, so that what it does is
not opened when this is used. -/
theorem ok_bind (a : α) (f : α → Except ε β) : (Except.ok a >>= f) = f a := rfl

theorem error_bind (e : ε) (f : α → Except ε β) : (Except.error e >>= f) = .error e := rfl

theorem pure_eq_ok {a b : α} : (pure a : Except ε α) = .ok b ↔ a = b := by
  constructor
  · intro h; cases h; rfl
  · rintro rfl; rfl

/-- A pass that gives nothing gives no member. -/
theorem not_mem_of_pure_nil {l : List α} {a : α} (h : (pure [] : Except ε (List α)) = .ok l)
    (ha : a ∈ l) : False := by
  rw [← pure_eq_ok.mp h] at ha
  cases ha

/-- A pass that gives one thing gives no other member. -/
theorem eq_of_pure_singleton {l : List α} {a b : α}
    (h : (pure [a] : Except ε (List α)) = .ok l) (hb : b ∈ l) : b = a := by
  rw [← pure_eq_ok.mp h] at hb
  exact List.mem_singleton.mp hb

theorem map_eq_ok {f : α → β} {x : Except ε α} {b : β} :
    f <$> x = .ok b ↔ ∃ a, x = .ok a ∧ f a = b := by
  cases x with
  | error e =>
    constructor
    · intro h; cases h
    · rintro ⟨a, h, -⟩; cases h
  | ok a =>
    constructor
    · intro h; cases h; exact ⟨a, rfl, rfl⟩
    · rintro ⟨a', h, rfl⟩; cases h; rfl

theorem mapError_eq_ok {δ : Type} {f : ε → δ} {x : Except ε α} {a : α} :
    x.mapError f = .ok a ↔ x = .ok a := by
  cases x with
  | error e => constructor <;> intro h <;> cases h
  | ok b =>
    constructor
    · intro h; cases h; rfl
    · intro h; cases h; rfl

/-- A step for every member of a list succeeds when each of them does. -/
theorem mapM_eq_ok {f : α → Except ε β} {l : List α} {bs : List β} :
    l.mapM f = .ok bs ↔ List.Forall₂ (fun a b => f a = .ok b) l bs := by
  induction l generalizing bs with
  | nil => rw [List.mapM_nil, pure_eq_ok, List.forall₂_nil_left_iff, eq_comm]
  | cons a l ih =>
    rw [List.mapM_cons, List.forall₂_cons_left_iff, bind_eq_ok]
    constructor
    · rintro ⟨b, hb, h⟩
      rw [bind_eq_ok] at h
      obtain ⟨bs', hbs, h⟩ := h
      exact ⟨b, bs', hb, ih.mp hbs, (pure_eq_ok.mp h).symm⟩
    · rintro ⟨b, bs', hb, hbs, rfl⟩
      exact ⟨b, hb, bind_eq_ok.mpr ⟨bs', ih.mpr hbs, rfl⟩⟩

theorem mapM_congr {f g : α → Except ε β} {l : List α} (h : ∀ a ∈ l, f a = g a) :
    l.mapM f = l.mapM g := by
  induction l with
  | nil => rfl
  | cons a l ih =>
    rw [List.mapM_cons, List.mapM_cons, h a List.mem_cons_self,
      ih fun b hb => h b (List.mem_cons_of_mem a hb)]

/-- Steps that do the same on members that belong together do the same. -/
theorem mapM_eq_of_forall₂ {γ : Type} {R : α → γ → Prop} {f : α → Except ε β} {g : γ → Except ε β}
    (hfg : ∀ a c, R a c → f a = g c) {l : List α} {m : List γ} (h : List.Forall₂ R l m) :
    l.mapM f = m.mapM g := by
  induction h with
  | nil => rfl
  | cons hac _ ih => rw [List.mapM_cons, List.mapM_cons, hfg _ _ hac, ih]

/-- Each answer of the steps is the answer of one member. -/
theorem exists_of_mem_mapM {f : α → Except ε β} {l : List α} {bs : List β} {b : β}
    (h : l.mapM f = .ok bs) (hb : b ∈ bs) : ∃ a ∈ l, f a = .ok b := by
  have h := mapM_eq_ok.mp h
  induction h with
  | nil => cases hb
  | cons hab _ ih =>
    rcases List.mem_cons.mp hb with rfl | hb
    · exact ⟨_, List.mem_cons_self, hab⟩
    · obtain ⟨a, ha, e⟩ := ih (mapM_eq_ok.mpr ‹_›) hb
      exact ⟨a, List.mem_cons_of_mem _ ha, e⟩

/-- Each member has an answer. -/
theorem exists_ok_of_mapM {f : α → Except ε β} {l : List α} {bs : List β} {a : α}
    (h : l.mapM f = .ok bs) (ha : a ∈ l) : ∃ b ∈ bs, f a = .ok b := by
  have h := mapM_eq_ok.mp h
  induction h with
  | nil => cases ha
  | cons hab _ ih =>
    rcases List.mem_cons.mp ha with rfl | ha
    · exact ⟨_, List.mem_cons_self, hab⟩
    · obtain ⟨b, hb, e⟩ := ih (mapM_eq_ok.mpr ‹_›) ha
      exact ⟨b, List.mem_cons_of_mem _ hb, e⟩

theorem mem_mapM {f : α → Except ε β} {l : List α} {bs : List β} {b : β}
    (h : l.mapM f = .ok bs) : b ∈ bs ↔ ∃ a ∈ l, f a = .ok b := by
  constructor
  · exact exists_of_mem_mapM h
  · rintro ⟨a, ha, hb⟩
    obtain ⟨b', hb', e⟩ := exists_ok_of_mapM h ha
    cases hb.symm.trans e
    exact hb'

/-- Members that are kept when the step says so. -/
theorem mem_of_filterM {f : α → Except ε Bool} {l kept : List α} {a : α}
    (h : l.filterM f = .ok kept) (ha : a ∈ kept) : a ∈ l ∧ f a = .ok true := by
  have haux : ∀ (l acc kept : List α), l.filterAuxM f acc = .ok kept →
      ∀ a ∈ kept, a ∈ acc ∨ a ∈ l ∧ f a = .ok true := by
    intro l
    induction l with
    | nil =>
      intro acc kept h a ha
      rw [List.filterAuxM, pure_eq_ok] at h
      exact Or.inl (h ▸ ha)
    | cons b l ih =>
      intro acc kept h a ha
      rw [List.filterAuxM] at h
      obtain ⟨keep, hkeep, h⟩ := bind_eq_ok.mp h
      rcases ih _ _ h a ha with hacc | ⟨hl, hf⟩
      · cases keep with
        | false => exact Or.inl hacc
        | true =>
          rcases List.mem_cons.mp hacc with rfl | hacc
          · exact Or.inr ⟨List.mem_cons_self, hkeep⟩
          · exact Or.inl hacc
      · exact Or.inr ⟨List.mem_cons_of_mem b hl, hf⟩
  obtain ⟨back, hback, h⟩ := bind_eq_ok.mp h
  rw [pure_eq_ok] at h
  rw [← h, List.mem_reverse] at ha
  exact (haux l [] back hback a ha).resolve_left (by simp)

/-- What several lists of answers hold together. -/
theorem mem_flatten_mapM {f : α → Except ε (List β)} {l : List α} {bss : List (List β)} {b : β}
    (h : l.mapM f = .ok bss) : b ∈ bss.flatten ↔ ∃ a ∈ l, ∃ bs, f a = .ok bs ∧ b ∈ bs := by
  rw [List.mem_flatten]
  constructor
  · rintro ⟨bs, hbs, hb⟩
    obtain ⟨a, ha, e⟩ := exists_of_mem_mapM h hbs
    exact ⟨a, ha, bs, e, hb⟩
  · rintro ⟨a, ha, bs, e, hb⟩
    obtain ⟨bs', hbs', e'⟩ := exists_ok_of_mapM h ha
    rw [e] at e'
    cases e'
    exact ⟨bs, hbs', hb⟩

/-- What the answers hold that are not nothing. -/
theorem mem_filterMap_mapM {f : α → Except ε (Option β)} {l : List α} {bs : List (Option β)} {b : β}
    (h : l.mapM f = .ok bs) : b ∈ bs.filterMap id ↔ ∃ a ∈ l, f a = .ok (some b) := by
  simp only [List.mem_filterMap, id_eq, exists_eq_right]
  constructor
  · exact exists_of_mem_mapM h
  · intro ⟨a, ha, e⟩
    obtain ⟨out, hout, e'⟩ := exists_ok_of_mapM h ha
    rw [e] at e'
    cases e'
    exact hout

theorem optionMapM_eq_ok {f : α → Except ε β} {x : Option α} {y : Option β} :
    x.mapM f = .ok y ↔
      (x = none ∧ y = none) ∨ ∃ a b, x = some a ∧ f a = .ok b ∧ y = some b := by
  cases x with
  | none =>
    constructor
    · intro h; cases h; exact Or.inl ⟨rfl, rfl⟩
    · rintro (⟨-, rfl⟩ | ⟨a, b, h, -⟩)
      · rfl
      · cases h
  | some a =>
    have e : (some a).mapM f = some <$> f a := rfl
    rw [e, map_eq_ok]
    constructor
    · rintro ⟨b, hb, rfl⟩; exact Or.inr ⟨a, b, rfl, hb, rfl⟩
    · rintro (⟨h, -⟩ | ⟨a', b, h, hb, rfl⟩)
      · cases h
      · cases h; exact ⟨b, hb, rfl⟩

/-- What is true of all that a step gives is true of what it gave. -/
theorem forall_mem_optionMapM {o : Option α} {f : α → Except ε β} {r : Option β}
    (h : o.mapM f = .ok r) {P : β → Prop} (hP : ∀ a b, o = some a → f a = .ok b → P b) :
    ∀ b ∈ r, P b := by
  intro b hb
  rcases optionMapM_eq_ok.mp h with ⟨-, rfl⟩ | ⟨a, b', ha, hf, rfl⟩
  · cases hb
  · cases hb
    exact hP a _ ha hf

/-! ## Passes that give an answer -/

/-- The pass gives an answer. -/
def Answers (x : Except ε α) : Prop := ∃ a, x = .ok a

namespace Answers

theorem pure (a : α) : Answers (Pure.pure a : Except ε α) := ⟨a, rfl⟩

theorem bind {x : Except ε α} {f : α → Except ε β} (hx : Answers x)
    (hf : ∀ a, x = .ok a → Answers (f a)) : Answers (x >>= f) := by
  obtain ⟨a, ha⟩ := hx
  obtain ⟨b, hb⟩ := hf a ha
  exact ⟨b, bind_eq_ok.mpr ⟨a, ha, hb⟩⟩

/-- The first part of a pass that gives an answer gives one. -/
theorem of_bind {x : Except ε α} {f : α → Except ε β} (h : Answers (x >>= f)) : Answers x := by
  obtain ⟨b, h⟩ := h
  obtain ⟨a, ha, -⟩ := bind_eq_ok.mp h
  exact ⟨a, ha⟩

theorem map {f : α → β} {x : Except ε α} (hx : Answers x) : Answers (f <$> x) := by
  obtain ⟨a, ha⟩ := hx
  exact ⟨f a, map_eq_ok.mpr ⟨a, ha, rfl⟩⟩

theorem mapM {f : α → Except ε β} {l : List α} (h : ∀ a ∈ l, Answers (f a)) :
    Answers (l.mapM f) := by
  induction l with
  | nil => exact pure []
  | cons a l ih =>
    rw [List.mapM_cons]
    refine bind (h a List.mem_cons_self) fun b _ => ?_
    refine bind (ih fun c hc => h c (List.mem_cons_of_mem a hc)) fun bs _ => ?_
    exact pure (b :: bs)

theorem optionMapM {f : α → Except ε β} {x : Option α} (h : ∀ a, x = some a → Answers (f a)) :
    Answers (x.mapM f) := by
  cases x with
  | none => exact pure none
  | some a => exact map (h a rfl)

end Answers

/-- A search goes on past a condition when that holds. -/
theorem guard_bind_eq_some {p : Prop} [Decidable p] {f : Unit → Option β} {b : β} :
    guard p >>= f = some b ↔ p ∧ f () = some b := by
  by_cases hp : p
  · simp [guard, hp]
  · simp [guard, hp]

end CodeAtlas
