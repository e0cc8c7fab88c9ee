import CodeAtlas.Diagram
import CodeAtlas.Proofs.Text
import Mathlib.Logic.Function.Basic
/-
  Identifiers of a diagram tell their names apart.

  A character is spelled by itself or by digits between underscores, so where
  one character ends can be read off the spelling (`idChar_append_inj`), and
  with it the whole name, as long as what follows is not itself the spelling
  of a character (`spelled_append_inj`). The underscore between a path and a
  name is followed by a letter, which no spelling has there.

  So equal identifiers have equal names (`idOf_inj`), equal identifiers of
  callables have the same file and name (`memberId_inj`), and none is that of a
  file (`memberId_ne_idOf`); `identifiers_apart` says this of all names.
-/

namespace CodeAtlas.Diagram

open CodeAtlas.Text

/-- The spelling of a name in an identifier. -/
def spelled (cs : List Char) : List Char := cs.flatMap idChar

theorem spelled_cons (c : Char) (cs : List Char) : spelled (c :: cs) = idChar c ++ spelled cs :=
  List.flatMap_cons

/-! ## One character -/

theorem isPlain_ne_underscore {c : Char} (h : isPlain c = true) : c ≠ '_' := by
  rintro rfl
  exact absurd h (by decide)

theorem isDigit_of_mem_code {c d : Char} (h : d ∈ Nat.toDigits 10 c.toNat) : d.isDigit = true :=
  Nat.isDigit_of_mem_toDigits (by decide) (by decide) h

theorem stops_underscore (cs : List Char) : Stops Char.isDigit ('_' :: cs) :=
  stops_cons (by decide) cs

/-- The digits of a code point end at the underscore. -/
theorem code_append_inj {c d : Char} {x y : List Char}
    (h : Nat.toDigits 10 c.toNat ++ '_' :: x = Nat.toDigits 10 d.toNat ++ '_' :: y) :
    c = d ∧ x = y := by
  have hc : ∀ e ∈ Nat.toDigits 10 c.toNat, e.isDigit = true := fun _ => isDigit_of_mem_code
  have hd : ∀ e ∈ Nat.toDigits 10 d.toNat, e.isDigit = true := fun _ => isDigit_of_mem_code
  have hdigits := congrArg (List.takeWhile Char.isDigit) h
  have hrest := congrArg (List.dropWhile Char.isDigit) h
  rw [takeWhile_run hc (stops_underscore x), takeWhile_run hd (stops_underscore y)] at hdigits
  rw [dropWhile_run hc (stops_underscore x), dropWhile_run hd (stops_underscore y)] at hrest
  have hcode : c.toNat = d.toNat := by
    rw [← numeralValue_toDigits c.toNat, hdigits, numeralValue_toDigits]
  exact ⟨Char.toNat_inj.mp hcode, (List.cons.inj hrest).2⟩

theorem idChar_of_isPlain {c : Char} (h : isPlain c = true) : idChar c = [c] := if_pos h

theorem idChar_of_not_isPlain {c : Char} (h : isPlain c = false) :
    idChar c = '_' :: (Nat.toDigits 10 c.toNat ++ ['_']) := if_neg (by simp [h])

/-- The spelling of a character is known from its beginning. -/
theorem idChar_append_inj {c d : Char} {x y : List Char} (h : idChar c ++ x = idChar d ++ y) :
    c = d ∧ x = y := by
  cases hc : isPlain c with
  | true =>
    rw [idChar_of_isPlain hc] at h
    cases hd : isPlain d with
    | true =>
      rw [idChar_of_isPlain hd] at h
      exact List.cons.inj h
    | false =>
      rw [idChar_of_not_isPlain hd] at h
      exact absurd (List.cons.inj h).1 (isPlain_ne_underscore hc)
  | false =>
    rw [idChar_of_not_isPlain hc] at h
    cases hd : isPlain d with
    | true =>
      rw [idChar_of_isPlain hd] at h
      exact absurd (List.cons.inj h).1.symm (isPlain_ne_underscore hd)
    | false =>
      rw [idChar_of_not_isPlain hd] at h
      simp only [List.cons_append, List.append_assoc, List.cons.injEq, true_and] at h
      exact code_append_inj h

/-! ## Names -/

/-- The text does not begin with the spelling of a character. -/
def EndsName (x : List Char) : Prop := ∀ c rest, x ≠ idChar c ++ rest

theorem endsName_nil : EndsName [] := by
  intro c rest h
  cases hc : isPlain c with
  | true => rw [idChar_of_isPlain hc] at h; cases h
  | false => rw [idChar_of_not_isPlain hc] at h; cases h

/-- An underscore and a letter begin no spelling. -/
theorem endsName_letter {l : Char} (hl : l.isDigit = false) (x : List Char) :
    EndsName ('_' :: l :: x) := by
  intro c rest h
  cases hc : isPlain c with
  | true =>
    rw [idChar_of_isPlain hc] at h
    exact isPlain_ne_underscore hc (List.cons.inj h).1.symm
  | false =>
    rw [idChar_of_not_isPlain hc] at h
    have h := (List.cons.inj h).2
    -- the letter would be the first digit of a code point
    cases hcode : Nat.toDigits 10 c.toNat with
    | nil => exact absurd hcode Nat.toDigits_ne_nil
    | cons e es =>
      rw [hcode] at h
      have hdigit : e.isDigit = true := isDigit_of_mem_code (hcode ▸ List.mem_cons_self)
      rw [← (List.cons.inj h).1, hl] at hdigit
      cases hdigit

/-- A name is known from the beginning of its spelling. -/
theorem spelled_append_inj {s t x y : List Char} (hx : EndsName x) (hy : EndsName y)
    (h : spelled s ++ x = spelled t ++ y) : s = t ∧ x = y := by
  induction s generalizing t with
  | nil =>
    cases t with
    | nil => exact ⟨rfl, h⟩
    | cons d t =>
      rw [spelled_cons, List.append_assoc] at h
      exact (hx d _ h).elim
  | cons c s ih =>
    cases t with
    | nil =>
      rw [spelled_cons, List.append_assoc] at h
      exact (hy c _ h.symm).elim
    | cons d t =>
      rw [spelled_cons, spelled_cons, List.append_assoc, List.append_assoc] at h
      obtain ⟨hchar, htail⟩ := idChar_append_inj h
      obtain ⟨hname, hrest⟩ := ih htail
      exact ⟨by rw [hchar, hname], hrest⟩

theorem toList_idOf (name : String) :
    (idOf name).toList = 'i' :: 'd' :: '_' :: spelled name.toList := by
  simp [idOf, String.toList_append, spelled]

theorem toList_memberId (path name : String) :
    (memberId path name).toList
      = 'i' :: 'd' :: '_' :: (spelled path.toList ++ '_' :: (idOf name).toList) := by
  rw [memberId, String.toList_append, String.toList_append, toList_idOf path]
  simp

/-- Equal identifiers have equal names. -/
theorem idOf_inj {a b : String} (h : idOf a = idOf b) : a = b := by
  have h := congrArg String.toList h
  rw [toList_idOf, toList_idOf] at h
  simp only [List.cons.injEq, true_and] at h
  rw [← List.append_nil (spelled a.toList), ← List.append_nil (spelled b.toList)] at h
  exact String.toList_inj.mp (spelled_append_inj endsName_nil endsName_nil h).1

/-- What stands between a path and a name ends the path. -/
theorem endsName_idOf (name : String) : EndsName ('_' :: (idOf name).toList) := by
  rw [toList_idOf]
  exact endsName_letter (by decide) _

/-- Equal identifiers of callables have the same file and the same name. -/
theorem memberId_inj {p c q d : String} (h : memberId p c = memberId q d) : p = q ∧ c = d := by
  have h := congrArg String.toList h
  rw [toList_memberId, toList_memberId] at h
  simp only [List.cons.injEq, true_and] at h
  obtain ⟨hpath, hname⟩ := spelled_append_inj (endsName_idOf c) (endsName_idOf d) h
  exact ⟨String.toList_inj.mp hpath, idOf_inj (String.toList_inj.mp (List.cons.inj hname).2)⟩

/-- No callable has the identifier of a file. -/
theorem memberId_ne_idOf (p c q : String) : memberId p c ≠ idOf q := by
  intro h
  have h := congrArg String.toList h
  rw [toList_memberId, toList_idOf q, ← List.append_nil (spelled q.toList)] at h
  simp only [List.cons.injEq, true_and] at h
  have hrest := (spelled_append_inj (endsName_idOf c) endsName_nil h).2
  cases hrest

/-- Identifiers tell apart all that they name: files among each other, callables
by their file and their name, and callables from files. -/
theorem identifiers_apart :
    Function.Injective idOf ∧ Function.Injective2 memberId ∧
      ∀ path name file, memberId path name ≠ idOf file :=
  ⟨fun _ _ h => idOf_inj h, fun _ _ _ _ h => memberId_inj h, memberId_ne_idOf⟩

/-! ## Lines -/

/-- The characters of an identifier are plain ones and underscores. -/
theorem mem_spelled {cs : List Char} {c : Char} (h : c ∈ spelled cs) :
    isPlain c = true ∨ c = '_' := by
  obtain ⟨d, -, hc⟩ := List.mem_flatMap.mp h
  cases hd : isPlain d with
  | true =>
    rw [idChar_of_isPlain hd, List.mem_singleton] at hc
    rw [hc]
    exact Or.inl hd
  | false =>
    rw [idChar_of_not_isPlain hd] at hc
    simp only [List.mem_cons, List.mem_append, List.not_mem_nil, or_false] at hc
    rcases hc with hc | hc | hc
    · exact Or.inr hc
    · have hdigit := isDigit_of_mem_code hc
      simp only [Char.isDigit, Bool.and_eq_true, decide_eq_true_eq] at hdigit
      left
      simp only [isPlain, Bool.or_eq_true, Bool.and_eq_true, decide_eq_true_eq]
      exact Or.inl (Or.inl hdigit)
    · exact Or.inr hc

theorem mem_idOf {name : String} {c : Char} (h : c ∈ (idOf name).toList) :
    isPlain c = true ∨ c = '_' := by
  rw [toList_idOf] at h
  simp only [List.mem_cons] at h
  rcases h with rfl | rfl | rfl | h
  · exact Or.inl (by decide)
  · exact Or.inl (by decide)
  · exact Or.inr rfl
  · exact mem_spelled h

theorem mem_memberId {path name : String} {c : Char} (h : c ∈ (memberId path name).toList) :
    isPlain c = true ∨ c = '_' := by
  rw [memberId, String.toList_append, String.toList_append, List.mem_append, List.mem_append] at h
  rcases h with (h | h) | h
  · exact mem_idOf h
  · exact Or.inr (List.mem_singleton.mp h)
  · exact mem_idOf h

theorem toList_arrow (a b : String) :
    (arrow a b).toList
      = ' ' :: ' ' :: (a.toList ++ ' ' :: '-' :: '-' :: '>' :: ' ' :: b.toList) := by
  simp [arrow, String.toList_append]

end CodeAtlas.Diagram
