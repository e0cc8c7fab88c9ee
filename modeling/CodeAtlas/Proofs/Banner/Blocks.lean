import CodeAtlas.Banner
import CodeAtlas.Proofs.Text
import Mathlib.Data.List.Infix
/-
  Blocks in a text, and a banner that is taken out again.

  `spanAt?` is a block without the blanks after it. It loses nothing, and what
  stands behind the text in which a block was found does not change the block
  (`spanAt?_append`), because each mark is looked for at its first place.

  Erasing goes over a text from the left: a stretch in which no block starts is
  kept (`eraseFrom_quiet`), and a block is left out (`eraseFrom_block`). So a
  banner in front of a source goes, with the blanks between them, and the
  source is stripped as it would have been alone (`strip_render`).
-/

namespace CodeAtlas.Text

variable {α : Type} [DecidableEq α] {word cs before after : List α}

/-! ## The first place of a word -/

/-- Whether a text starts with a word that is not longer does not depend on
what follows. -/
theorem dropPrefix?_append_of_le (h : word.length ≤ cs.length) (more : List α) :
    dropPrefix? word (cs ++ more) = (dropPrefix? word cs).map (· ++ more) := by
  induction word generalizing cs with
  | nil => simp
  | cons w ws ih =>
    cases cs with
    | nil => simp at h
    | cons c cs =>
      simp only [List.cons_append, dropPrefix?]
      split
      · exact ih (Nat.le_of_succ_le_succ h)
      · rfl

/-- The first place of a word is not moved by what follows the text. -/
theorem breakOn_append (h : breakOn word cs = some (before, after)) (more : List α) :
    breakOn word (cs ++ more) = some (before, after ++ more) := by
  have hfits : word.length ≤ cs.length := by
    rw [breakOn_eq_some h]
    simp only [List.length_append]
    omega
  induction cs generalizing before with
  | nil =>
    have hword : word = [] := List.eq_nil_of_length_eq_zero (Nat.le_zero.mp hfits)
    subst hword
    cases h
    cases more <;> rfl
  | cons c cs ih =>
    have hfront := dropPrefix?_append_of_le hfits more
    rw [List.cons_append] at hfront ⊢
    unfold breakOn at h ⊢
    rw [hfront]
    cases hdrop : dropPrefix? word (c :: cs) with
    | some rest =>
      simp only [hdrop] at h
      cases h
      rfl
    | none =>
      simp only [hdrop, Option.map_eq_some_iff, Prod.exists] at h
      obtain ⟨b, a, hb, heq⟩ := h
      cases heq
      have hlater : word.length ≤ cs.length := by
        rw [breakOn_eq_some hb]
        simp only [List.length_append]
        omega
      simp only [Option.map_none, ih hb hlater, Option.map_some]

/-- No place of a word is before the first one. -/
theorem length_le_of_breakOn (h : breakOn word cs = some (before, after)) {x y : List α}
    (hxy : cs = x ++ (word ++ y)) : before.length ≤ x.length := by
  induction cs generalizing before x with
  | nil =>
    simp only [breakOn, Option.map_eq_some_iff, Prod.mk.injEq] at h
    obtain ⟨_, -, rfl, -⟩ := h
    exact Nat.zero_le _
  | cons c cs ih =>
    rw [breakOn] at h
    split at h
    · cases h
      exact Nat.zero_le _
    next hdrop =>
    simp only [Option.map_eq_some_iff, Prod.exists] at h
    obtain ⟨b, a, hb, heq⟩ := h
    cases heq
    cases x with
    | nil =>
      rw [hxy, List.nil_append, dropPrefix?_append] at hdrop
      cases hdrop
    | cons d x =>
      rw [List.cons_append] at hxy
      exact Nat.succ_le_succ (ih hb (List.cons.inj hxy).2)

/-- What follows any place of a word follows the first one. -/
theorem suffix_of_breakOn (h : breakOn word cs = some (before, after)) {x y : List α}
    (hxy : cs = x ++ (word ++ y)) : y <:+ after := by
  have hfirst := length_le_of_breakOn h hxy
  have hsplit := breakOn_eq_some h
  have hy : y <:+ cs := ⟨x ++ word, by rw [hxy, List.append_assoc]⟩
  have hafter : after <:+ cs := ⟨before ++ word, by rw [hsplit, List.append_assoc]⟩
  apply List.suffix_of_suffix_length_le hy hafter
  have hlength := congrArg List.length (hsplit.symm.trans hxy)
  simp only [List.length_append] at hlength
  omega

/-- A word that stands in a text is found. -/
theorem exists_breakOn (h : word <:+: cs) :
    ∃ before after, breakOn word cs = some (before, after) := by
  obtain ⟨x, y, rfl⟩ := h
  induction x with
  | nil =>
    have hfront := dropPrefix?_append word y
    rw [List.nil_append]
    cases hcs : word ++ y with
    | nil =>
      rw [hcs] at hfront
      exact ⟨[], y, by rw [breakOn, hfront]; rfl⟩
    | cons c cs =>
      rw [hcs] at hfront
      exact ⟨[], y, by rw [breakOn, hfront]⟩
  | cons c x ih =>
    obtain ⟨b, a, hb⟩ := ih
    simp only [List.cons_append, breakOn]
    cases dropPrefix? word (c :: (x ++ word ++ y)) with
    | some rest => exact ⟨[], rest, rfl⟩
    | none => exact ⟨c :: b, a, by rw [hb]; rfl⟩

end CodeAtlas.Text

namespace CodeAtlas.Banner

open CodeAtlas.Text

variable {start text rest cs after more : List Char} {marks : List (List Char)}

/-! ## Blocks -/

/-- A text that was read up to some place, read on through a mark. -/
def readTo (p : List Char × List Char) (mark : List Char) : Option (List Char × List Char) :=
  (breakOn mark p.2).map fun q => (p.1 ++ q.1 ++ mark, q.2)

/-- The text of a block that starts here, and what follows it. -/
def spanAt? (start : List Char) (marks : List (List Char)) (cs : List Char) :
    Option (List Char × List Char) :=
  (dropPrefix? start cs).bind fun rest => marks.foldlM readTo (start, rest)

/-- A block is its text with the blanks after it. -/
theorem blockAt?_eq (start : List Char) (marks : List (List Char)) (cs : List Char) :
    blockAt? start marks cs
      = (spanAt? start marks cs).map fun p => p.1 ++ p.2.takeWhile isBlank := by
  unfold blockAt? spanAt?
  cases dropPrefix? start cs with
  | none => rfl
  | some rest =>
    show (marks.foldlM readTo (start, rest)).bind _ = Option.map _ (marks.foldlM readTo _)
    cases marks.foldlM readTo (start, rest) <;> rfl

theorem readTo_eq_some {p q : List Char × List Char} {mark : List Char} :
    readTo p mark = some q ↔
      ∃ gap, breakOn mark p.2 = some (gap, q.2) ∧ q.1 = p.1 ++ gap ++ mark := by
  obtain ⟨text, rest⟩ := q
  simp only [readTo, Option.map_eq_some_iff, Prod.exists, Prod.mk.injEq]
  constructor
  · rintro ⟨gap, after, h, htext, rfl⟩
    exact ⟨gap, h, htext.symm⟩
  · rintro ⟨gap, h, rfl⟩
    exact ⟨gap, rest, h, rfl, rfl⟩

/-- Reading on loses nothing, and keeps what was read. -/
theorem foldlM_readTo_eq (h : marks.foldlM readTo (text, rest) = some (cs, after)) :
    ∃ read, cs = text ++ read ∧ rest = read ++ after := by
  induction marks generalizing text rest with
  | nil =>
    cases h
    exact ⟨[], (List.append_nil _).symm, rfl⟩
  | cons mark marks ih =>
    rw [List.foldlM_cons] at h
    obtain ⟨⟨text', rest'⟩, hread, h⟩ := Option.bind_eq_some_iff.mp h
    obtain ⟨gap, hgap, htext⟩ := readTo_eq_some.mp hread
    obtain ⟨read, hcs, hrest⟩ := ih h
    have hbreak := breakOn_eq_some hgap
    simp only at htext hrest hbreak
    refine ⟨gap ++ mark ++ read, ?_, ?_⟩
    · rw [hcs, htext]
      simp only [List.append_assoc]
    · rw [hbreak, hrest]
      simp only [List.append_assoc]

theorem foldlM_readTo_append (h : marks.foldlM readTo (text, rest) = some (cs, after))
    (more : List Char) :
    marks.foldlM readTo (text, rest ++ more) = some (cs, after ++ more) := by
  induction marks generalizing text rest with
  | nil =>
    cases h
    rfl
  | cons mark marks ih =>
    rw [List.foldlM_cons] at h ⊢
    obtain ⟨⟨text', rest'⟩, hread, h⟩ := Option.bind_eq_some_iff.mp h
    obtain ⟨gap, hgap, htext⟩ := readTo_eq_some.mp hread
    refine Option.bind_eq_some_iff.mpr ⟨(text', rest' ++ more), ?_, ih h⟩
    exact readTo_eq_some.mpr ⟨gap, breakOn_append hgap more, htext⟩

theorem spanAt?_eq_some : spanAt? start marks cs = some (text, after) ↔
    ∃ rest, cs = start ++ rest ∧ marks.foldlM readTo (start, rest) = some (text, after) := by
  rw [spanAt?, Option.bind_eq_some_iff]
  constructor
  · rintro ⟨rest, hrest, h⟩
    exact ⟨rest, dropPrefix?_eq_some hrest, h⟩
  · rintro ⟨rest, rfl, h⟩
    exact ⟨rest, dropPrefix?_append start rest, h⟩

/-- A block begins with its start, and nothing is lost. -/
theorem eq_of_spanAt? (h : spanAt? start marks cs = some (text, after)) :
    ∃ read, text = start ++ read ∧ cs = text ++ after := by
  obtain ⟨rest, rfl, hread⟩ := spanAt?_eq_some.mp h
  obtain ⟨read, rfl, rfl⟩ := foldlM_readTo_eq hread
  exact ⟨read, rfl, (List.append_assoc _ _ _).symm⟩

/-- What follows a text does not change the block that starts in front. -/
theorem spanAt?_append (h : spanAt? start marks cs = some (text, after)) (more : List Char) :
    spanAt? start marks (cs ++ more) = some (text, after ++ more) := by
  obtain ⟨rest, rfl, hread⟩ := spanAt?_eq_some.mp h
  refine spanAt?_eq_some.mpr ⟨rest ++ more, List.append_assoc _ _ _, ?_⟩
  exact foldlM_readTo_append hread more

/-- A text that is a block is one also where something follows, which gives it
the blanks in front. -/
theorem blockAt?_append (h : spanAt? start marks cs = some (cs, [])) (more : List Char) :
    blockAt? start marks (cs ++ more) = some (cs ++ more.takeWhile isBlank) := by
  rw [blockAt?_eq, spanAt?_append h more]
  rfl

/-! ## Erasing -/

section

variable {block? : List Char → Option (List Char)} {block : List Char}

/-- No block starts in a stretch of text, when `after` follows it. -/
def Quiet (block? : List Char → Option (List Char)) (cs after : List Char) : Prop :=
  ∀ x y, cs = x ++ y → y ≠ [] → block? (y ++ after) = none

theorem Quiet.tail {c : Char} (h : Quiet block? (c :: cs) after) : Quiet block? cs after := by
  intro x y hxy hy
  exact h (c :: x) y (by rw [hxy, List.cons_append]) hy

theorem eraseFrom_eq_drop (n : Nat) (cs : List Char) :
    eraseFrom block? n cs = eraseFrom block? 0 (cs.drop n) := by
  induction n generalizing cs with
  | zero => rfl
  | succ n ih =>
    cases cs with
    | nil => rfl
    | cons c cs => exact ih cs

/-- A stretch in which no block starts stays. -/
theorem eraseFrom_quiet (h : Quiet block? cs after) :
    eraseFrom block? 0 (cs ++ after) = cs ++ eraseFrom block? 0 after := by
  induction cs with
  | nil => rfl
  | cons c cs ih =>
    have hnone : block? (c :: (cs ++ after)) = none := h [] (c :: cs) rfl (by simp)
    rw [List.cons_append, eraseFrom, hnone, List.cons_append, ih h.tail]

/-- A block goes. -/
theorem eraseFrom_block (h : block? (block ++ after) = some block) (hne : block ≠ []) :
    eraseFrom block? 0 (block ++ after) = eraseFrom block? 0 after := by
  cases block with
  | nil => exact absurd rfl hne
  | cons c cs =>
    rw [List.cons_append] at h ⊢
    rw [eraseFrom, h]
    simp only [if_neg hne]
    rw [eraseFrom_eq_drop, List.length_cons, Nat.add_sub_cancel, List.drop_left]

end

/-! ## A banner in front of a source -/

/-- The text holds the closing of a banner at its end only. -/
def ClosesAtEnd (cs : List Char) : Prop :=
  ∀ before after, cs = before ++ (closing.toList ++ after) → after = []

theorem closesAtEnd_of_breakOn {before : List Char}
    (h : breakOn closing.toList cs = some (before, [])) : ClosesAtEnd cs := by
  intro x y hxy
  exact List.suffix_nil.mp (suffix_of_breakOn h hxy)

theorem exists_firstLine_eq (name : String) (o : Outline) :
    ∃ words, firstLine name o = opening ++ words := by
  unfold firstLine closingWords
  split
  · rw [String.intercalate_singleton, String.append_assoc]
    exact ⟨_, rfl⟩
  · rw [String.intercalate_cons_cons, String.append_assoc, String.append_assoc, String.append_assoc]
    exact ⟨_, rfl⟩

/-- A banner begins with its opening and ends with its closing. -/
theorem exists_render_eq (name : String) (o : Outline) :
    ∃ inner, render name o = opening ++ inner ++ closing := by
  obtain ⟨words, hwords⟩ := exists_firstLine_eq name o
  have hlast : ∃ lines, "\n".intercalate (innerLines o ++ [closing]) = lines ++ closing := by
    by_cases hinner : innerLines o = []
    · exact ⟨"", by rw [hinner, List.nil_append, String.intercalate_singleton, String.empty_append]⟩
    · rw [String.intercalate_append_of_ne_nil hinner (by simp), String.intercalate_singleton]
      exact ⟨_, rfl⟩
  obtain ⟨lines, hlines⟩ := hlast
  refine ⟨words ++ "\n" ++ lines, ?_⟩
  rw [render, bannerLines, List.cons_append, String.intercalate_cons_of_ne_nil (by simp), hlines,
    hwords]
  simp only [String.append_assoc]

/-- A banner that holds its closing at its end only is one block. -/
theorem spanAt?_render {name : String} {o : Outline} (h : ClosesAtEnd (render name o).toList) :
    spanAt? opening.toList [closing.toList] (render name o).toList
      = some ((render name o).toList, []) := by
  obtain ⟨inner, hrender⟩ := exists_render_eq name o
  rw [hrender, String.toList_append, String.toList_append, List.append_assoc] at h ⊢
  obtain ⟨before, after, hbreak⟩ :=
    exists_breakOn (List.infix_append inner.toList closing.toList [])
  rw [List.append_nil] at hbreak
  have hsplit := breakOn_eq_some hbreak
  have hafter : after = [] := by
    refine h (opening.toList ++ before) after ?_
    rw [hsplit, List.append_assoc]
  subst hafter
  refine spanAt?_eq_some.mpr ⟨inner.toList ++ closing.toList, rfl, ?_⟩
  have hread : readTo (opening.toList, inner.toList ++ closing.toList) closing.toList
      = some (opening.toList ++ before ++ closing.toList, []) :=
    readTo_eq_some.mpr ⟨before, hbreak, rfl⟩
  rw [List.foldlM_cons, hread, hsplit]
  simp only [List.append_nil, List.append_assoc]
  rfl

/-- A banner in front of a source is taken out with the blanks after it, and
the rest is stripped as if it had been alone. -/
theorem strip_render (name : String) (o : Outline) (code : String)
    (h : ClosesAtEnd (render name o).toList) :
    strip (render name o ++ "\n" ++ code) = strip (String.ofList (trimStart code.toList)) := by
  have hblock : bannerAt? ((render name o).toList ++ ('\n' :: code.toList))
      = some ((render name o).toList ++ ('\n' :: code.toList.takeWhile isBlank)) := by
    refine (blockAt?_append (spanAt?_render h) _).trans ?_
    rw [List.takeWhile_cons_of_pos (by decide)]
  have herase : eraseFrom bannerAt? 0 (render name o ++ "\n" ++ code).toList
      = eraseFrom bannerAt? 0 (trimStart code.toList) := by
    have htext : (render name o ++ "\n" ++ code).toList
        = ((render name o).toList ++ ('\n' :: code.toList.takeWhile isBlank))
          ++ trimStart code.toList := by
      rw [trimStart, List.append_assoc, List.cons_append, List.takeWhile_append_dropWhile]
      simp
    rw [htext]
    refine eraseFrom_block ?_ (by simp)
    rw [← hblock, trimStart, List.append_assoc, List.cons_append, List.takeWhile_append_dropWhile]
  rw [strip, herase, strip, String.toList_ofList]

/-- A file with one function. -/
def smallOutline : Outline := { functions := [⟨"f", "", 1, 1, "Calls @AI"⟩] }

/-- A source with a banner in front, and blocks of both other sorts. -/
def bannered : String := "\n \t/*@AI a.js\n@AI*/\n/** @ai-context-end */ f(); /** g */"

theorem strip_render_bannered :
    ClosesAtEnd (render "a.js" smallOutline).toList ∧
      strip (render "a.js" smallOutline ++ "\n" ++ bannered)
        = strip (String.ofList (trimStart bannered.toList)) ∧
      strip (String.ofList (trimStart bannered.toList)) = "f(); /** g */" := by
  have h : ClosesAtEnd (render "a.js" smallOutline).toList := by
    have hbreak : breakOn closing.toList (render "a.js" smallOutline).toList
        = some ("/*@AI a.js\nf() 1-1 Calls @AI\n".toList, []) := by decide +kernel
    exact closesAtEnd_of_breakOn hbreak
  exact ⟨h, strip_render "a.js" smallOutline bannered h, by decide +kernel⟩

end CodeAtlas.Banner
