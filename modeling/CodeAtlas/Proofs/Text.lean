import CodeAtlas.Text.Blank
import CodeAtlas.Text.Digit
import CodeAtlas.Text.Find
import CodeAtlas.Text.Line
import Mathlib.Algebra.Group.Nat.Defs
/-
  Texts that stay in one line, runs of characters, and numerals that read
  back.

  What is proved:
    1. `lines_join`: lines that hold no break, put together with line feeds,
       are taken apart into the same lines.
    2. `lines_append_newline_append`: a line feed between any two texts
       separates their lines.
    3. `takeWhile_run`, `dropWhile_run`: a run of characters of a class ends
       where a character of another class follows, and nowhere else.
    4. `numeral?_digits`: a number that is written with the plain digits reads
       back, with its width, whatever follows that is no digit.

  `OneLine` and `Solid` are the two conditions that everything below an index
  is stated with; both are closed under putting texts together.
-/

namespace CodeAtlas.Text

/-! ## Texts without breaks and without blanks -/

/-- The text holds no line break. -/
def OneLine (s : String) : Prop := ∀ c ∈ s.toList, isLineBreak c = false

/-- The text holds no white space. -/
def Solid (s : String) : Prop := ∀ c ∈ s.toList, isBlank c = false

instance (s : String) : Decidable (OneLine s) :=
  List.decidableBAll (fun c => isLineBreak c = false) s.toList

instance (s : String) : Decidable (Solid s) :=
  List.decidableBAll (fun c => isBlank c = false) s.toList

/-- Every line break is white space. -/
theorem isBlank_of_isLineBreak {c : Char} (h : isLineBreak c = true) : isBlank c = true := by
  simp only [isLineBreak, Bool.or_eq_true, Bool.and_eq_true, decide_eq_true_eq, beq_iff_eq] at h
  simp only [isBlank, Bool.or_eq_true, Bool.and_eq_true, decide_eq_true_eq, beq_iff_eq]
  omega

theorem isLineBreak_of_not_isBlank {c : Char} (h : isBlank c = false) :
    isLineBreak c = false := by
  cases hb : isLineBreak c with
  | false => rfl
  | true => rw [isBlank_of_isLineBreak hb] at h; cases h

theorem Solid.oneLine {s : String} (h : Solid s) : OneLine s :=
  fun c hc => isLineBreak_of_not_isBlank (h c hc)

@[simp] theorem oneLine_append {s t : String} : OneLine (s ++ t) ↔ OneLine s ∧ OneLine t := by
  simp only [OneLine, String.toList_append, List.mem_append, or_imp, forall_and]

@[simp] theorem solid_append {s t : String} : Solid (s ++ t) ↔ Solid s ∧ Solid t := by
  simp only [Solid, String.toList_append, List.mem_append, or_imp, forall_and]

theorem oneLine_intercalate {sep : String} {l : List String} (hs : OneLine sep)
    (hl : ∀ s ∈ l, OneLine s) : OneLine (sep.intercalate l) := by
  induction l with
  | nil => intro c hc; simp at hc
  | cons s l ih =>
    cases l with
    | nil => simpa using hl s
    | cons t l =>
      rw [String.intercalate_cons_cons, oneLine_append, oneLine_append]
      exact ⟨⟨hl s (by simp), hs⟩, ih fun u hu => hl u (List.mem_cons_of_mem s hu)⟩

/-- What is cut off a text in one line is in one line. -/
theorem OneLine.first {s : String} (h : OneLine s) (n : Nat) : OneLine (first n s) := by
  intro c hc
  rw [Text.first, String.toList_ofList] at hc
  exact h c (List.mem_of_mem_take hc)

/-! ## Parts of a text -/

theorem trimStart_subset (cs : List Char) : trimStart cs ⊆ cs :=
  (List.dropWhile_suffix isBlank).subset

theorem trimEnd_subset (cs : List Char) : trimEnd cs ⊆ cs := by
  intro c hc
  rw [trimEnd, List.mem_reverse] at hc
  exact List.mem_reverse.mp ((List.dropWhile_suffix isBlank).subset hc)

theorem trim_subset (cs : List Char) : trim cs ⊆ cs :=
  List.Subset.trans (trimEnd_subset _) (trimStart_subset cs)

/-- The parts between the places of a character do not hold it. -/
theorem mem_splitOn {α : Type} [BEq α] [LawfulBEq α] {a : α} {xs l : List α}
    (h : l ∈ xs.splitOn a) : a ∉ l ∧ l ⊆ xs := by
  induction xs generalizing l with
  | nil =>
    rw [List.splitOn_nil, List.mem_singleton] at h
    rw [h]
    exact ⟨List.not_mem_nil, fun _ hc => hc⟩
  | cons x xs ih =>
    rw [List.splitOn, List.splitOnP_cons_eq_if_modifyHead] at h
    split at h
    · rcases List.mem_cons.mp h with rfl | h
      · exact ⟨List.not_mem_nil, List.nil_subset _⟩
      · obtain ⟨ha, hl⟩ := ih h
        exact ⟨ha, List.subset_cons_of_subset x hl⟩
    · next hx =>
      have hxa : a ≠ x := by
        rintro rfl
        simp at hx
      -- the first part gets the character, the others stay
      cases hparts : xs.splitOnP (· == a) with
      | nil => exact absurd hparts (List.splitOnP_ne_nil _ _)
      | cons part parts =>
        rw [hparts, List.modifyHead_cons] at h
        rcases List.mem_cons.mp h with rfl | h
        · obtain ⟨ha, hl⟩ := ih (show part ∈ xs.splitOn a by rw [List.splitOn, hparts]; simp)
          exact ⟨by simp [hxa, ha], List.cons_subset_cons x hl⟩
        · obtain ⟨ha, hl⟩ := ih (show l ∈ xs.splitOn a by rw [List.splitOn, hparts]; simp [h])
          exact ⟨ha, List.subset_cons_of_subset x hl⟩

/-- Parts with a sign between them, none of which holds it, are the parts
between the signs. -/
theorem splitOn_intercalate {sep : String} {c : Char} (hsep : sep.toList = [c])
    {parts : List String} (hne : parts ≠ []) (h : ∀ s ∈ parts, c ∉ s.toList) :
    (sep.intercalate parts).toList.splitOn c = parts.map String.toList := by
  rw [String.toList_intercalate, hsep]
  apply List.splitOn_intercalate
  · intro l hl
    obtain ⟨s, hs, rfl⟩ := List.mem_map.mp hl
    exact h s hs
  · simpa using hne

theorem map_ofList_map_toList (parts : List String) :
    (parts.map String.toList).map String.ofList = parts := by
  rw [List.map_map]
  exact List.map_id'' (fun s => String.ofList_toList) parts

/-! ## Lines -/

theorem lines_cons_of_not_isLineBreak {c : Char} (h : isLineBreak c = false) (cs : List Char) :
    lines (c :: cs) = extendFirst c (lines cs) := by
  have hr : c ≠ '\r' := by rintro rfl; exact absurd h (by decide)
  rw [lines.eq_def]
  split
  · next he => cases he
  · next he => cases he; exact absurd rfl hr
  · next he => cases he; rw [if_neg (by simp [h])]

theorem lines_cons_of_isLineBreak {c : Char} (h : isLineBreak c = true) {cs : List Char}
    (hpair : c = '\r' → cs.head? ≠ some '\n') : lines (c :: cs) = [] :: lines cs := by
  rw [lines.eq_def]
  split
  · next he => cases he
  · next he => cases he; exact absurd rfl (hpair rfl)
  · next he => cases he; rw [if_pos h]

theorem lines_newline (cs : List Char) : lines ('\n' :: cs) = [] :: lines cs := by
  rw [lines.eq_def]
  simp [isLineBreak]

/-- A line feed ends the line before it. -/
theorem lines_append_newline {l : List Char} (h : ∀ c ∈ l, isLineBreak c = false)
    (rest : List Char) : lines (l ++ '\n' :: rest) = l :: lines rest := by
  induction l with
  | nil => exact lines_newline rest
  | cons c l ih =>
    rw [List.cons_append, lines_cons_of_not_isLineBreak (h c (by simp)),
      ih fun d hd => h d (List.mem_cons_of_mem c hd)]
    rfl

/-- A text without breaks that is not empty is one line. -/
theorem lines_single {l : List Char} (hne : l ≠ []) (h : ∀ c ∈ l, isLineBreak c = false) :
    lines l = [l] := by
  induction l with
  | nil => exact absurd rfl hne
  | cons c l ih =>
    rw [lines_cons_of_not_isLineBreak (h c (by simp))]
    cases l with
    | nil => rfl
    | cons d l => rw [ih (by simp) fun e he => h e (List.mem_cons_of_mem c he)]; rfl

theorem lines_ne_nil {cs : List Char} (h : cs ≠ []) : lines cs ≠ [] := by
  fun_induction lines cs with
  | case1 => exact absurd rfl h
  | case2 rest ih => simp
  | case3 c rest _ hc ih => simp
  | case4 c rest _ hc ih =>
    cases hl : lines rest with
    | nil => simp [extendFirst]
    | cons l ls => simp [extendFirst]

/-- A line is a stretch of the text, and the first line is its beginning. -/
theorem infix_lines (cs : List Char) :
    (∀ l ∈ lines cs, l <:+: cs) ∧ ∀ l ∈ (lines cs).head?, l <+: cs := by
  fun_induction lines cs with
  | case1 => simp
  | case2 rest ih =>
    refine ⟨?_, by simp⟩
    intro l hl
    rcases List.mem_cons.mp hl with rfl | hl
    · exact List.nil_infix
    · exact (ih.1 l hl).trans ((List.suffix_append ['\r', '\n'] rest).isInfix)
  | case3 c rest _ hc ih =>
    refine ⟨?_, by simp⟩
    intro l hl
    rcases List.mem_cons.mp hl with rfl | hl
    · exact List.nil_infix
    · exact (ih.1 l hl).trans (List.suffix_cons c rest).isInfix
  | case4 c rest _ hc ih =>
    cases hlines : lines rest with
    | nil =>
      have hone : [c] <+: c :: rest := ⟨rest, rfl⟩
      simp [extendFirst, hone.isInfix]
    | cons first ls =>
      rw [hlines] at ih
      have hfirst : c :: first <+: c :: rest := List.prefix_cons_inj c |>.mpr (ih.2 first rfl)
      refine ⟨?_, by simpa [extendFirst] using hfirst⟩
      intro l hl
      rcases List.mem_cons.mp hl with rfl | hl
      · exact hfirst.isInfix
      · exact (ih.1 l (List.mem_cons_of_mem first hl)).trans (List.suffix_cons c rest).isInfix

/-- A line feed between two texts separates their lines; where the first text ends
with a break, or is empty, it leaves at most an empty line. -/
theorem lines_append_newline_append (a b : List Char) :
    ∃ gap, (∀ l ∈ gap, l = []) ∧ lines (a ++ '\n' :: b) = lines a ++ gap ++ lines b := by
  fun_induction lines a with
  | case1 => exact ⟨[[]], by simp, lines_newline b⟩
  | case2 rest ih =>
    obtain ⟨gap, hgap, h⟩ := ih
    refine ⟨gap, hgap, ?_⟩
    rw [List.cons_append, List.cons_append, lines, h]
    rfl
  | case3 c rest hpair hc ih =>
    obtain ⟨gap, hgap, h⟩ := ih
    by_cases hseam : c = '\r' ∧ rest = []
    · -- the carriage return and the line feed are one break
      obtain ⟨rfl, rfl⟩ := hseam
      exact ⟨[], by simp, rfl⟩
    · refine ⟨gap, hgap, ?_⟩
      rw [List.cons_append, lines_cons_of_isLineBreak hc, h]
      · rfl
      · rintro rfl hhead
        cases rest with
        | nil => exact hseam ⟨rfl, rfl⟩
        | cons d rest =>
          obtain rfl : d = '\n' := by simpa using hhead
          exact hpair rest rfl rfl
  | case4 c rest hpair hc ih =>
    rw [List.cons_append, lines_cons_of_not_isLineBreak (by simpa using hc)]
    cases rest with
    | nil => exact ⟨[], by simp, by rw [List.nil_append, lines_newline]; rfl⟩
    | cons d rest =>
      obtain ⟨gap, hgap, h⟩ := ih
      refine ⟨gap, hgap, ?_⟩
      rw [h]
      cases hl : lines (d :: rest) with
      | nil => exact absurd hl (lines_ne_nil (by simp))
      | cons l ls => rfl

/-- A text that begins with a word in one line has a first line that does. -/
theorem exists_lines_append {word : List Char} (hne : word ≠ [])
    (h : ∀ c ∈ word, isLineBreak c = false) (rest : List Char) :
    ∃ l ls, lines (word ++ rest) = (word ++ l) :: ls := by
  induction word with
  | nil => exact absurd rfl hne
  | cons c word ih =>
    rw [List.cons_append, lines_cons_of_not_isLineBreak (h c (by simp))]
    by_cases hword : word = []
    · subst hword
      cases hl : lines rest with
      | nil => exact ⟨[], [], by simp [hl, extendFirst]⟩
      | cons l ls => exact ⟨l, ls, by simp [hl, extendFirst]⟩
    · obtain ⟨l, ls, hlines⟩ := ih hword fun d hd => h d (List.mem_cons_of_mem c hd)
      exact ⟨l, ls, by rw [hlines]; rfl⟩

/-- Lines that are joined by line feeds are read back, provided that none
holds a break and none is empty. -/
theorem lines_join {ls : List String} (h : ∀ l ∈ ls, OneLine l) (hne : ∀ l ∈ ls, l ≠ "") :
    lines ("\n".intercalate ls).toList = ls.map String.toList := by
  induction ls with
  | nil => simp [lines]
  | cons l ls ih =>
    have hl := h l (by simp)
    have hl' : l.toList ≠ [] := by simpa using hne l (by simp)
    cases ls with
    | nil => rw [String.intercalate_singleton, lines_single hl' hl]; rfl
    | cons k ls =>
      have ih := ih (fun m hm => h m (List.mem_cons_of_mem l hm))
        (fun m hm => hne m (List.mem_cons_of_mem l hm))
      have e : ("\n".intercalate (l :: k :: ls)).toList
          = l.toList ++ '\n' :: ("\n".intercalate (k :: ls)).toList := by
        rw [String.intercalate_cons_cons, String.toList_append, String.toList_append]
        simp
      rw [e, lines_append_newline hl, ih]
      rfl

/-! ## Runs -/

/-- No run of `p` goes on: the text is empty or begins with another
character. -/
def Stops (p : Char → Bool) (cs : List Char) : Prop := ∀ c ∈ cs.head?, p c = false

theorem stops_cons {p : Char → Bool} {c : Char} (h : p c = false) (cs : List Char) :
    Stops p (c :: cs) := by
  intro d hd
  simp only [List.head?_cons, Option.mem_some_iff] at hd
  rwa [← hd]

variable {p : Char → Bool} {xs ys : List Char}

theorem Stops.takeWhile (h : Stops p ys) : ys.takeWhile p = [] := by
  cases ys with
  | nil => rfl
  | cons c ys => exact List.takeWhile_cons_of_neg (by simp [h c (by simp)])

theorem Stops.dropWhile (h : Stops p ys) : ys.dropWhile p = ys := by
  cases ys with
  | nil => rfl
  | cons c ys => exact List.dropWhile_cons_of_neg (by simp [h c (by simp)])

/-- A run that ends in a text ends there too when no run goes on behind it. -/
theorem takeWhile_append_of_stops (h : Stops p ys) : (xs ++ ys).takeWhile p = xs.takeWhile p := by
  induction xs with
  | nil => exact h.takeWhile
  | cons x xs ih =>
    rw [List.cons_append, List.takeWhile_cons, List.takeWhile_cons, ih]

/-- A run is taken whole and no more. -/
theorem takeWhile_run (hx : ∀ c ∈ xs, p c = true) (hy : Stops p ys) :
    (xs ++ ys).takeWhile p = xs := by
  rw [List.takeWhile_append_of_pos hx, hy.takeWhile, List.append_nil]

/-- What follows a run is left whole. -/
theorem dropWhile_run (hx : ∀ c ∈ xs, p c = true) (hy : Stops p ys) :
    (xs ++ ys).dropWhile p = ys := by
  rw [List.dropWhile_append_of_pos hx, hy.dropWhile]

/-- A text without blanks at its ends is left as it is. -/
theorem trim_of_stops {cs : List Char} (hfront : Stops isBlank cs)
    (hback : Stops isBlank cs.reverse) : trim cs = cs := by
  rw [trim, trimStart, hfront.dropWhile, trimEnd, hback.dropWhile, List.reverse_reverse]

/-! ## Words in front -/

theorem startsWith_iff {word s : String} : startsWith word s = true ↔ ∃ rest, s = word ++ rest := by
  rw [startsWith, List.isPrefixOf_iff_prefix]
  constructor
  · rintro ⟨rest, hrest⟩
    refine ⟨String.ofList rest, ?_⟩
    apply String.toList_injective
    rw [String.toList_append, String.toList_ofList, hrest]
  · rintro ⟨rest, rfl⟩
    rw [String.toList_append]
    exact List.prefix_append _ _

variable {α : Type} [DecidableEq α]

@[simp] theorem dropPrefix?_nil (cs : List α) : dropPrefix? [] cs = some cs := by
  cases cs <;> rfl

@[simp] theorem dropPrefix?_cons_self (w : α) (ws cs : List α) :
    dropPrefix? (w :: ws) (w :: cs) = dropPrefix? ws cs := by
  simp [dropPrefix?]

theorem dropPrefix?_cons_of_ne {w c : α} (h : w ≠ c) (ws cs : List α) :
    dropPrefix? (w :: ws) (c :: cs) = none := by
  simp [dropPrefix?, h]

/-- A word is taken off the front of what it stands in front of. -/
theorem dropPrefix?_append (word cs : List α) : dropPrefix? word (word ++ cs) = some cs := by
  induction word with
  | nil => exact dropPrefix?_nil cs
  | cons w ws ih => rw [List.cons_append, dropPrefix?_cons_self, ih]

/-! ## Numerals -/

/-- A plain digit has its value, and it is the first script that has it. -/
theorem digit?_of_isDigit {c : Char} (h : c.isDigit = true) : digit? c = some (c.toNat - 48) := by
  simp only [Char.isDigit, Bool.and_eq_true, decide_eq_true_eq] at h
  have h1 : 48 ≤ c.toNat := UInt32.le_iff_toNat_le.mp h.1
  have h2 : c.toNat ≤ 57 := UInt32.le_iff_toNat_le.mp h.2
  have hz : ((0x30 ≤ c.toNat && c.toNat < 0x30 + 10 : Bool)) = true := by
    simp only [Bool.and_eq_true, decide_eq_true_eq]; omega
  simp only [digit?, zeros, List.find?_cons, hz, Option.map_some]

theorem isDigit_of_isDigit {c : Char} (h : c.isDigit = true) : isDigit c = true := by
  simp [isDigit, digit?_of_isDigit h]

/-- The number that plain digits denote is the one that they are the digits
of. -/
theorem numeralValue_toDigits (n : Nat) : numeralValue (Nat.toDigits 10 n) = n := by
  have hfold : ∀ (cs : List Char) (m : Nat), (∀ c ∈ cs, c.isDigit = true) →
      cs.foldl (fun n c => 10 * n + (digit? c).getD 0) m = Nat.ofDigitChars 10 cs m := by
    intro cs
    induction cs with
    | nil => intro m _; simp
    | cons c cs ih =>
      intro m h
      rw [Nat.ofDigitChars_cons, List.foldl_cons, digit?_of_isDigit (h c (by simp))]
      exact ih _ fun d hd => h d (List.mem_cons_of_mem c hd)
  rw [numeralValue, hfold _ _ fun c hc => Nat.isDigit_of_mem_toDigits (by decide) (by decide) hc,
    Nat.ofDigitChars_ten_toDigits]

/-- A number as it is written: its value and how many digits it has. -/
def written (n : Nat) : Numeral := ⟨n, (Nat.toDigits 10 n).length⟩

/-- A written number is read back, if no digit follows. -/
theorem numeral?_digits (n : Nat) {rest : List Char} (h : Stops isDigit rest) :
    numeral? (Nat.toDigits 10 n ++ rest) = some (written n, rest) := by
  have hd : ∀ c ∈ Nat.toDigits 10 n, isDigit c = true := fun c hc =>
    isDigit_of_isDigit (Nat.isDigit_of_mem_toDigits (by decide) (by decide) hc)
  rw [numeral?, takeWhile_run hd h, dropWhile_run hd h]
  split
  · next he => exact absurd he Nat.toDigits_ne_nil
  · rw [numeralValue_toDigits, written]

/-- A number below the bound is not too long when it is written. -/
theorem isTooLong_written {n : Nat} (h : n < 10 ^ widthLimit) :
    (written n).isTooLong = false := by
  have : (Nat.toDigits 10 n).length ≤ widthLimit :=
    (Nat.length_toDigits_le_iff (by decide) (by decide)).mpr h
  exact decide_eq_false (Nat.not_lt.mpr this)

/-- The digits of a number that is not negative. -/
theorem toList_repr_of_nonneg {n : Int} (h : 0 ≤ n) :
    n.repr.toList = Nat.toDigits 10 n.toNat := by
  obtain ⟨m, rfl⟩ := Int.eq_ofNat_of_zero_le h
  exact Nat.toList_repr

theorem isBlank_of_isDigit {c : Char} (h : c.isDigit = true) : isBlank c = false := by
  simp only [Char.isDigit, Bool.and_eq_true, decide_eq_true_eq] at h
  have h1 : 48 ≤ c.toNat := UInt32.le_iff_toNat_le.mp h.1
  have h2 : c.toNat ≤ 57 := UInt32.le_iff_toNat_le.mp h.2
  simp only [isBlank, Bool.or_eq_false_iff, Bool.and_eq_false_iff, decide_eq_false_iff_not,
    beq_eq_false_iff_ne]
  omega

theorem solid_toString {n : Int} (h : 0 ≤ n) : Solid (toString n) := by
  intro c hc
  have hd : c ∈ Nat.toDigits 10 n.toNat := toList_repr_of_nonneg h ▸ hc
  exact isBlank_of_isDigit (Nat.isDigit_of_mem_toDigits (by decide) (by decide) hd)

end CodeAtlas.Text
