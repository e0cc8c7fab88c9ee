import CodeAtlas.Proofs.Banner.Blocks
import Mathlib.Data.List.TakeWhile
/-
  Taking banners out spares the code, as long as every block is a comment.

  A `Source` is code and block comments in turn. What is taken out of a text
  are stretches that open and close like a comment (`Cut`). Such a stretch need
  not be one comment: it may start inside a comment, or reach from the opening
  of a comment to the closing of a later one, and then the code between them
  goes with it (`strip_loses_code`).

  `Orderly` says that this does not happen: a comment in which a block starts
  is that block. Then each pass goes over the source comment by comment
  (`eraseFrom_textOf`), so what is left is the source without some of its
  comments and the blanks after these (`Thinned`), and all of the code is still
  there, in its order (`strip_spares_code`).
-/

namespace CodeAtlas.Banner

open CodeAtlas.Text

variable {cs x y after : List Char} {words : List (List Char)}

/-! ## Words in turn -/

/-- The words stand in the text one after the other. -/
def InTurn : List (List Char) → List Char → Prop
  | [], _ => True
  | w :: ws, cs => ∃ before after, cs = before ++ (w ++ after) ∧ InTurn ws after

theorem InTurn.append_left (h : InTurn words cs) (before : List Char) :
    InTurn words (before ++ cs) := by
  cases words with
  | nil => trivial
  | cons w ws =>
    obtain ⟨gap, after, rfl, hws⟩ := h
    exact ⟨before ++ gap, after, (List.append_assoc _ _ _).symm, hws⟩

/-- Marks that stand in a text in turn are found, each at its first place. -/
theorem exists_foldlM_readTo {marks : List (List Char)} (h : InTurn marks cs) (text : List Char) :
    ∃ p, marks.foldlM readTo (text, cs) = some p := by
  induction marks generalizing text cs with
  | nil => exact ⟨_, rfl⟩
  | cons mark marks ih =>
    obtain ⟨gap, rest, rfl, hrest⟩ := h
    have hinfix : mark <:+: gap ++ (mark ++ rest) := ⟨gap, rest, List.append_assoc _ _ _⟩
    obtain ⟨first, later, hbreak⟩ := exists_breakOn hinfix
    -- what follows this place follows the first one, so the other marks do
    have hlater : InTurn marks later := by
      obtain ⟨more, rfl⟩ := suffix_of_breakOn hbreak rfl
      exact hrest.append_left more
    obtain ⟨p, hp⟩ := ih hlater (text ++ first ++ mark)
    refine ⟨p, ?_⟩
    rw [List.foldlM_cons]
    exact Option.bind_eq_some_iff.mpr
      ⟨(text ++ first ++ mark, later), readTo_eq_some.mpr ⟨first, hbreak, rfl⟩, hp⟩

theorem inTurn_of_foldlM_readTo {marks : List (List Char)} {text : List Char}
    {p : List Char × List Char} (h : marks.foldlM readTo (text, cs) = some p) :
    InTurn marks cs := by
  induction marks generalizing text cs with
  | nil => trivial
  | cons mark marks ih =>
    rw [List.foldlM_cons] at h
    obtain ⟨⟨text', rest⟩, hread, h⟩ := Option.bind_eq_some_iff.mp h
    obtain ⟨gap, hgap, -⟩ := readTo_eq_some.mp hread
    exact ⟨gap, rest, breakOn_eq_some hgap, ih h⟩

instance (words : List (List Char)) (cs : List Char) : Decidable (InTurn words cs) :=
  decidable_of_iff ((words.foldlM readTo ([], cs)).isSome = true) <| by
    rw [Option.isSome_iff_exists]
    exact ⟨fun ⟨_, h⟩ => inTurn_of_foldlM_readTo h, fun h => exists_foldlM_readTo h []⟩

/-! ## Forms of blocks -/

/-- A form of block: how it starts, and the marks that it goes through. It opens
and closes like a comment. -/
structure Form where
  start : List Char
  marks : List (List Char)
  opens : ∃ rest, start = '/' :: '*' :: rest ∧ '/' ∉ rest
  closes : ∃ front last, marks = front ++ [last ++ ['*', '/']]

/-- Banners. -/
def banner : Form where
  start := opening.toList
  marks := [closing.toList]
  opens := ⟨['@', 'A', 'I'], by decide⟩
  closes := ⟨[], ['@', 'A', 'I'], by decide⟩

/-- Blocks of the older form. -/
def older : Form where
  start := ['/', '*', '*']
  marks := [legacyMark.toList, ['*', '/']]
  opens := ⟨['*'], by decide⟩
  closes := ⟨[legacyMark.toList], [], rfl⟩

/-- Documentation comments. -/
def doc : Form where
  start := ['/', '*', '*']
  marks := [['*', '/']]
  opens := ⟨['*'], by decide⟩
  closes := ⟨[], [], rfl⟩

namespace Form

/-- A block of the form that starts here. -/
def block? (f : Form) : List Char → Option (List Char) := blockAt? f.start f.marks

/-- The text is a block, or starts with one. -/
def Starts (f : Form) (cs : List Char) : Prop :=
  ∃ inner, cs = f.start ++ inner ∧ InTurn f.marks inner

variable {f : Form} {block : List Char}

theorem starts_of_block? (h : f.block? cs = some block) : f.Starts cs := by
  rw [block?, blockAt?_eq, Option.map_eq_some_iff] at h
  obtain ⟨⟨text, rest⟩, hspan, -⟩ := h
  obtain ⟨inner, rfl, hread⟩ := spanAt?_eq_some.mp hspan
  exact ⟨inner, rfl, inTurn_of_foldlM_readTo hread⟩

theorem Starts.ne_nil (h : f.Starts cs) : cs ≠ [] := by
  obtain ⟨inner, rfl, -⟩ := h
  obtain ⟨rest, hopen, -⟩ := f.opens
  simp [hopen]

theorem exists_spanAt? (h : f.Starts cs) :
    ∃ text after, spanAt? f.start f.marks cs = some (text, after) := by
  obtain ⟨inner, rfl, hturn⟩ := h
  obtain ⟨⟨text, after⟩, hread⟩ := exists_foldlM_readTo hturn f.start
  exact ⟨text, after, spanAt?_eq_some.mpr ⟨inner, rfl, hread⟩⟩

instance (f : Form) (cs : List Char) : Decidable (f.Starts cs) :=
  decidable_of_iff ((f.block? cs).isSome = true) <| by
    rw [Option.isSome_iff_exists]
    constructor
    · rintro ⟨block, h⟩
      exact starts_of_block? h
    · intro h
      obtain ⟨text, after, hspan⟩ := exists_spanAt? h
      exact ⟨_, by rw [block?, blockAt?_eq, hspan]; rfl⟩

/-- The last thing in the text of a block is the closing of a comment. -/
theorem closes_of_spanAt? {text : List Char} (h : spanAt? f.start f.marks cs = some (text, after)) :
    ∃ inner, text = f.start ++ (inner ++ ['*', '/']) := by
  obtain ⟨rest, rfl, hread⟩ := spanAt?_eq_some.mp h
  obtain ⟨front, last, hmarks⟩ := f.closes
  rw [hmarks, List.foldlM_append] at hread
  obtain ⟨⟨text', rest'⟩, hfront, hlast⟩ := Option.bind_eq_some_iff.mp hread
  obtain ⟨read, rfl, -⟩ := foldlM_readTo_eq hfront
  rw [List.foldlM_cons] at hlast
  obtain ⟨⟨text'', rest''⟩, hlast, hend⟩ := Option.bind_eq_some_iff.mp hlast
  cases hend
  obtain ⟨gap, -, htext⟩ := readTo_eq_some.mp hlast
  exact ⟨read ++ gap ++ last, by simpa using htext⟩

end Form

/-! ## What is taken out of any text -/

/-- The second text is the first without some stretches, each of which opens
and closes like a comment and goes with the blanks after it. -/
inductive Cut : List Char → List Char → Prop
  | nil : Cut [] []
  | keep (c : Char) {cs out : List Char} : Cut cs out → Cut (c :: cs) (c :: out)
  | drop (inner blanks : List Char) {cs out : List Char} (hblank : ∀ c ∈ blanks, isBlank c) :
      Cut cs out → Cut ('/' :: '*' :: (inner ++ '*' :: '/' :: blanks) ++ cs) out

theorem Cut.refl (cs : List Char) : Cut cs cs := by
  induction cs with
  | nil => exact .nil
  | cons c cs ih => exact .keep c ih

/-- A block is a stretch that opens and closes like a comment. -/
theorem Form.exists_of_block? {f : Form} {block : List Char} (h : f.block? cs = some block) :
    ∃ inner blanks rest, block = '/' :: '*' :: (inner ++ '*' :: '/' :: blanks) ∧
      (∀ c ∈ blanks, isBlank c) ∧ cs = block ++ rest := by
  rw [block?, blockAt?_eq, Option.map_eq_some_iff] at h
  obtain ⟨⟨text, rest⟩, hspan, rfl⟩ := h
  obtain ⟨inner, htext⟩ := closes_of_spanAt? hspan
  obtain ⟨-, -, rfl⟩ := eq_of_spanAt? hspan
  obtain ⟨more, hstart, -⟩ := f.opens
  refine ⟨more ++ inner, rest.takeWhile isBlank, rest.dropWhile isBlank, ?_,
    fun c hc => List.mem_takeWhile_imp hc, ?_⟩
  · simp [htext, hstart]
  · simp only [List.append_assoc, List.takeWhile_append_dropWhile]

/-- Erasing blocks cuts such stretches out. -/
theorem cut_eraseFrom (f : Form) (cs : List Char) : Cut cs (eraseFrom f.block? 0 cs) := by
  -- a block can be of any length, so the induction is on that of the text
  induction hn : cs.length using Nat.strong_induction_on generalizing cs with
  | h n ih =>
    cases cs with
    | nil => exact .nil
    | cons c cs =>
      rw [List.length_cons] at hn
      cases hblock : f.block? (c :: cs) with
      | none =>
        rw [eraseFrom, hblock]
        exact .keep c (ih cs.length (by omega) cs rfl)
      | some block =>
        obtain ⟨inner, blanks, rest, hopen, hblank, hcs⟩ := f.exists_of_block? hblock
        rw [hcs] at hblock ⊢
        rw [eraseFrom_block hblock (by simp [hopen])]
        have hlength := congrArg List.length hcs
        rw [hopen] at hlength ⊢
        simp only [List.length_cons, List.length_append] at hlength
        exact .drop inner blanks hblank (ih rest.length (by omega) rest rfl)

theorem cut_dropDoc (cs : List Char) : Cut cs (dropDoc cs) := by
  unfold dropDoc
  split
  · next block hblock =>
    obtain ⟨inner, blanks, rest, hopen, hblank, hcs⟩ := doc.exists_of_block? hblock
    have hdrop : cs.drop block.length = rest := by rw [hcs, List.drop_left]
    rw [hdrop, hcs, hopen]
    exact .drop inner blanks hblank (.refl rest)
  · exact .refl cs

/-! ## Code and comments -/

/-- No comment opens in the text. -/
def IsCode (cs : List Char) : Prop := ¬ ['/', '*'] <:+: cs

/-- A block comment: it ends with the first closing after its opening. -/
def IsComment (cs : List Char) : Prop :=
  ∃ body, cs = '/' :: '*' :: (body ++ ['*', '/']) ∧ ¬ ['*', '/'] <:+: body ++ ['*']

instance (cs : List Char) : Decidable (IsCode cs) := inferInstanceAs (Decidable (¬ _))

/-- Nothing follows a closing that is the first one at the end of a text. -/
theorem eq_nil_of_first_closing {body before : List Char} (h : ¬ ['*', '/'] <:+: body ++ ['*'])
    (heq : body ++ ['*', '/'] = before ++ (['*', '/'] ++ after)) : after = [] := by
  rcases List.eq_nil_or_concat after with rfl | ⟨front, last, rfl⟩
  · rfl
  · exfalso
    apply h
    have hsplit : body ++ ['*'] ++ ['/'] = before ++ (['*', '/'] ++ front) ++ [last] := by
      simpa using heq
    obtain ⟨hbody, -⟩ := List.append_inj' hsplit rfl
    exact ⟨before, front, by rw [hbody, List.append_assoc]⟩

instance (cs : List Char) : Decidable (IsComment cs) :=
  decidable_of_iff (((dropPrefix? ['/', '*'] cs).bind (breakOn ['*', '/'])).map Prod.snd = some [])
    <| by
    simp only [Option.map_eq_some_iff, Option.bind_eq_some_iff, Prod.exists]
    constructor
    · rintro ⟨body, _, ⟨rest, hrest, hbreak⟩, rfl⟩
      refine ⟨body, ?_, ?_⟩
      · rw [dropPrefix?_eq_some hrest, breakOn_eq_some hbreak]
        rfl
      · rintro ⟨x, y, hxy⟩
        have hlater : rest = x ++ (['*', '/'] ++ (y ++ ['/'])) := by
          rw [breakOn_eq_some hbreak, List.append_nil]
          simpa using congrArg (· ++ ['/']) hxy.symm
        have hnil := List.suffix_nil.mp (suffix_of_breakOn hbreak hlater)
        simp at hnil
    · rintro ⟨body, rfl, hfirst⟩
      obtain ⟨before, after, hbreak⟩ :=
        exists_breakOn (List.suffix_append body ['*', '/']).isInfix
      have hnil := eq_nil_of_first_closing hfirst (breakOn_eq_some hbreak)
      exact ⟨before, after, ⟨_, dropPrefix?_append ['/', '*'] _, hbreak⟩, hnil⟩

/-- A comment and the code after it. -/
structure Piece where
  comment : List Char
  code : List Char
  deriving DecidableEq

/-- The text of a piece. -/
def Piece.text (p : Piece) : List Char := p.comment ++ p.code

/-- A piece without its comment and the blanks after that. -/
def Piece.bare (p : Piece) : Piece := ⟨[], trimStart p.code⟩

/-- The text of some pieces. -/
def textOf (ps : List Piece) : List Char := ps.flatMap Piece.text

theorem textOf_cons (p : Piece) (ps : List Piece) : textOf (p :: ps) = p.text ++ textOf ps := rfl

/-- The blanks after a comment stand before the rest of the code. -/
theorem Piece.text_append (p : Piece) (after : List Char) : p.text ++ after
    = (p.comment ++ p.code.takeWhile isBlank) ++ (trimStart p.code ++ after) := by
  rw [text, trimStart, ← List.append_assoc, List.append_assoc p.comment (p.code.takeWhile isBlank),
    List.takeWhile_append_dropWhile]

/-- Code and comments in turn, either of which may come first. -/
structure Source where
  head : List Char
  pieces : List Piece
  head_isCode : IsCode head
  isComment : ∀ p ∈ pieces, IsComment p.comment
  isCode : ∀ p ∈ pieces, IsCode p.code

namespace Source

/-- The text of a source. -/
def text (s : Source) : List Char := s.head ++ textOf s.pieces

/-- The stretches of code in a source, in order. -/
def codes (s : Source) : List (List Char) := s.head :: s.pieces.map Piece.code

end Source

/-- The second pieces are the first, some of them without their comments. -/
def Thinned (ps qs : List Piece) : Prop := List.Forall₂ (fun p q => q = p ∨ q = p.bare) ps qs

/-- A text is left of a source that is spared: only whole comments are missing
and the blanks after them, so that all of the code is there, in its order. -/
structure Spared (s : Source) (out : List Char) : Prop where
  thinned : ∃ qs, Thinned s.pieces qs ∧ out = s.head ++ textOf qs
  codes : InTurn (s.codes.map trimStart) out

theorem stops_trimStart (cs : List Char) : Stops isBlank (trimStart cs) := by
  intro c hc
  have hfirst := List.head?_dropWhile_not isBlank cs
  rw [trimStart, Option.mem_def] at hc
  rw [hc] at hfirst
  exact hfirst

theorem bare_bare (p : Piece) : p.bare.bare = p.bare := by
  simp only [Piece.bare, Piece.mk.injEq, true_and]
  exact (stops_trimStart p.code).dropWhile

theorem Thinned.refl (ps : List Piece) : Thinned ps ps := by
  induction ps with
  | nil => exact .nil
  | cons p ps ih => exact .cons (Or.inl rfl) ih

theorem Thinned.trans {ps qs rs : List Piece} (h : Thinned ps qs) (h' : Thinned qs rs) :
    Thinned ps rs := by
  induction h generalizing rs with
  | nil => exact h'
  | cons hp _ ih =>
    cases h' with
    | cons hq hrest =>
      refine List.Forall₂.cons ?_ (ih hrest)
      rcases hp with rfl | rfl
      · exact hq
      · right
        rcases hq with rfl | rfl
        · rfl
        · exact bare_bare _

/-- Every piece that is left still has its code. -/
theorem Thinned.codes {ps qs : List Piece} (h : Thinned ps qs) :
    InTurn ((ps.map Piece.code).map trimStart) (textOf qs) := by
  induction h with
  | nil => trivial
  | @cons p q ps qs hq _ ih =>
    have htext : ∃ before, q.text = before ++ trimStart p.code := by
      rcases hq with rfl | rfl
      · refine ⟨q.comment ++ q.code.takeWhile isBlank, ?_⟩
        rw [List.append_assoc, trimStart, List.takeWhile_append_dropWhile]
        rfl
      · exact ⟨[], rfl⟩
    obtain ⟨before, hbefore⟩ := htext
    refine ⟨before, textOf qs, ?_, ih⟩
    rw [textOf, List.flatMap_cons, hbefore, List.append_assoc]
    rfl

theorem spared_of_thinned {s : Source} {qs : List Piece} (h : Thinned s.pieces qs) :
    Spared s (s.head ++ textOf qs) := by
  refine ⟨⟨qs, h, rfl⟩, s.head.takeWhile isBlank, textOf qs, ?_, h.codes⟩
  rw [← List.append_assoc, trimStart, List.takeWhile_append_dropWhile]

/-! ## Where blocks start -/

section

variable {f : Form} {c : List Char}

theorem IsCode.trimStart (h : IsCode cs) : IsCode (trimStart cs) :=
  fun hopen => h (hopen.trans (List.dropWhile_suffix isBlank).isInfix)

/-- No block starts in code, unless a star follows it. -/
theorem IsCode.quiet (h : IsCode cs) (hafter : after.head? ≠ some '*') :
    Quiet f.block? cs after := by
  intro x y hxy hy
  rw [Option.eq_none_iff_forall_ne_some]
  intro block hblock
  obtain ⟨inner, hstart, -⟩ := f.starts_of_block? hblock
  obtain ⟨rest, hopen, -⟩ := f.opens
  rw [hopen] at hstart
  rcases y with _ | ⟨a, _ | ⟨b, y⟩⟩
  · exact hy rfl
  · -- the opening lies across the end of the code
    rw [List.cons_append, List.cons_append, List.cons_append, List.nil_append] at hstart
    apply hafter
    rw [(List.cons.inj hstart).2]
    rfl
  · simp only [List.cons_append, List.cons.injEq] at hstart
    exact h ⟨x, y, by rw [hxy, hstart.1, hstart.2.1]; simp⟩

/-- A block that starts in a comment starts with all of its opening, unless a
star follows the comment. -/
theorem IsComment.start_of_append (hc : IsComment c) (hafter : after.head? ≠ some '*')
    (hxy : c = x ++ y) (hy : y ≠ []) {inner : List Char} (h : y ++ after = f.start ++ inner) :
    ∃ rest, y = f.start ++ rest ∧ inner = rest ++ after := by
  obtain ⟨body, hbody, -⟩ := hc
  obtain ⟨rest, hopen, hslash⟩ := f.opens
  rcases List.append_eq_append_iff.mp h with ⟨more, hmore, hinner⟩ | ⟨more, hmore, hinner⟩
  · exfalso
    -- the comment ends inside the opening, so with its first character
    have hlast : y.getLast? = some '/' := by
      have hend : x ++ y = ('/' :: '*' :: (body ++ ['*'])) ++ ['/'] := by
        rw [← hxy, hbody]
        simp
      rw [← List.getLast?_append_of_ne_nil x hy, hend, List.getLast?_concat]
    rw [hopen] at hmore
    rcases y with _ | ⟨a, _ | ⟨b, y⟩⟩
    · exact hy rfl
    · simp only [List.cons_append, List.nil_append, List.cons.injEq] at hmore
      apply hafter
      rw [hinner, ← hmore.2]
      rfl
    · simp only [List.cons_append, List.cons.injEq] at hmore
      have hmem : '/' ∈ '*' :: rest := by
        rw [List.getLast?_cons_cons] at hlast
        rw [hmore.2.1, hmore.2.2]
        exact List.mem_append_left more (List.mem_of_getLast? hlast)
      rw [List.mem_cons] at hmem
      rcases hmem with hmem | hmem
      · exact absurd hmem (by decide)
      · exact hslash hmem
  · exact ⟨more, hmore, hinner⟩

/-- A comment that starts with a block is that block. -/
theorem IsComment.spanAt? (hc : IsComment c) (h : f.Starts c) :
    spanAt? f.start f.marks c = some (c, []) := by
  obtain ⟨text, after, hspan⟩ := Form.exists_spanAt? h
  obtain ⟨inner, htext⟩ := Form.closes_of_spanAt? hspan
  obtain ⟨-, -, hsplit⟩ := eq_of_spanAt? hspan
  obtain ⟨body, hbody, hfirst⟩ := hc
  obtain ⟨rest, hopen, -⟩ := f.opens
  -- otherwise the block would end before the comment, at an earlier closing
  have hafter : after = [] := by
    have heq := hbody.symm.trans hsplit
    rw [htext, hopen] at heq
    refine eq_nil_of_first_closing hfirst (?_ : _ = (rest ++ inner) ++ _)
    simpa using heq
  subst hafter
  rw [hspan, hsplit, List.append_nil]

end

/-! ## Going over a source comment by comment -/

/-- The comment is a block of a form, or no block of the form starts in it when
`after` follows. -/
def Own (f : Form) (c after : List Char) : Prop :=
  f.Starts c ∨ ∀ x y, c = x ++ (f.start ++ y) → ¬ InTurn f.marks (y ++ after)

theorem forall_dropPrefix?_iff {word cs : List Char} {P : List Char → Prop} :
    (∀ rest ∈ dropPrefix? word cs, P rest) ↔ ∀ rest, cs = word ++ rest → P rest := by
  constructor
  · rintro h rest rfl
    exact h rest (dropPrefix?_append word rest)
  · intro h rest hrest
    exact h rest (dropPrefix?_eq_some hrest)

instance (f : Form) (c after : List Char) : Decidable (Own f c after) :=
  decidable_of_iff (f.Starts c ∨ ∀ y ∈ c.tails, ∀ rest ∈ dropPrefix? f.start y,
      ¬ InTurn f.marks (rest ++ after)) <| by
    refine or_congr_right ⟨fun h x y hxy => ?_, fun h y hy => ?_⟩
    · exact forall_dropPrefix?_iff.mp (h _ ((List.mem_tails _ _).mpr ⟨x, hxy.symm⟩)) y rfl
    · obtain ⟨x, rfl⟩ := (List.mem_tails _ _).mp hy
      exact forall_dropPrefix?_iff.mpr fun rest hrest => h x rest (by rw [hrest])

/-- A block of a form that starts in one of the comments is that comment. -/
def OwnBlocks (f : Form) : List Piece → Prop
  | [] => True
  | p :: later => Own f p.comment (p.code ++ textOf later) ∧ OwnBlocks f later

instance decidableOwnBlocks (f : Form) : (ps : List Piece) → Decidable (OwnBlocks f ps)
  | [] => .isTrue trivial
  | _ :: later =>
    have := decidableOwnBlocks f later
    inferInstanceAs (Decidable (_ ∧ _))

/-- The piece without its comment, if that is a block. -/
def Piece.clear (f : Form) (p : Piece) : Piece := if f.Starts p.comment then p.bare else p

/-- What holds of every piece while comments are taken out. Where the comment
is gone the code starts at once, and no code starts with a star, which could
make an opening with a slash before it. -/
structure Fit (p : Piece) : Prop where
  comment : p.comment = [] ∨ IsComment p.comment
  code : IsCode p.code
  trimmed : p.comment = [] → Stops isBlank p.code
  unstarred : p.code.head? ≠ some '*'
  bare : banner.start <+: p.comment ∨ doc.start <+: p.comment → p.bare.code.head? ≠ some '*'

section

variable {f : Form} {p : Piece} {ps : List Piece}

/-- One that is taken out starts like a banner or like a documentation
comment. -/
theorem Fit.bare_fit (h : Fit p) (hstart : banner.start <+: p.comment ∨ doc.start <+: p.comment) :
    Fit p.bare where
  comment := Or.inl rfl
  code := h.code.trimStart
  trimmed _ := stops_trimStart p.code
  unstarred := h.bare hstart
  bare hstart' := by
    rw [bare_bare]
    exact h.bare hstart

theorem Fit.clear (h : Fit p) (hf : f.start = banner.start ∨ f.start = doc.start) :
    Fit (p.clear f) := by
  unfold Piece.clear
  split
  · next hstarts =>
    obtain ⟨inner, hinner, -⟩ := hstarts
    apply h.bare_fit
    rcases hf with hf | hf
    · exact Or.inl ⟨inner, by rw [← hf, hinner]⟩
    · exact Or.inr ⟨inner, by rw [← hf, hinner]⟩
  · exact h

/-- The text of fit pieces does not start with a star, and no blank is in front
that would not follow a comment. -/
theorem head_textOf (h : ∀ p ∈ ps, Fit p) :
    (textOf ps).head? ≠ some '*' ∧ Stops isBlank (textOf ps) := by
  induction ps with
  | nil => simp [textOf, Stops]
  | cons p ps ih =>
    obtain ⟨hp, hps⟩ := List.forall_mem_cons.mp h
    rw [textOf_cons, Piece.text, List.append_assoc]
    rcases hp.comment with hnone | ⟨body, hbody, -⟩
    · rw [hnone, List.nil_append]
      cases hcode : p.code with
      | nil => exact ih hps
      | cons c cs =>
        have hfirst := hp.unstarred
        have hstops := hp.trimmed hnone
        rw [hcode] at hfirst hstops
        exact ⟨hfirst, stops_cons (hstops c rfl) _⟩
    · rw [hbody]
      exact ⟨by simp, stops_cons (by decide) _⟩

theorem Fit.head_code (h : Fit p) (hafter : after.head? ≠ some '*') :
    (p.code ++ after).head? ≠ some '*' := by
  have hcode := h.unstarred
  cases hcs : p.code with
  | nil => exact hafter
  | cons c cs =>
    rw [hcs] at hcode
    exact hcode

/-- A comment that is a block is taken out with the blanks after it. -/
theorem block?_comment (hc : IsComment p.comment) (hstops : Stops isBlank after)
    (h : f.Starts p.comment) :
    f.block? (p.text ++ after) = some (p.comment ++ p.code.takeWhile isBlank) := by
  have hblanks : (p.code ++ after).takeWhile isBlank = p.code.takeWhile isBlank := by
    rw [List.takeWhile_append, hstops.takeWhile, List.append_nil]
    split
    · next hall => exact ((List.takeWhile_prefix isBlank).eq_of_length hall).symm
    · rfl
  rw [Piece.text, List.append_assoc]
  exact (blockAt?_append (hc.spanAt? h) _).trans (by rw [hblanks])

/-- No block starts in a comment that owns its blocks and is none. -/
theorem IsComment.quiet {c : List Char} (hc : IsComment c) (hafter : after.head? ≠ some '*')
    (hnone : ∀ x y, c = x ++ (f.start ++ y) → ¬ InTurn f.marks (y ++ after)) :
    Quiet f.block? c after := by
  intro x y hxy hy
  rw [Option.eq_none_iff_forall_ne_some]
  intro block hblock
  obtain ⟨inner, hstart, hturn⟩ := f.starts_of_block? hblock
  obtain ⟨rest, rfl, rfl⟩ := hc.start_of_append hafter hxy hy hstart
  exact hnone x rest hxy hturn

/-- A pass over fit pieces takes out the comments that are blocks. -/
theorem eraseFrom_textOf (hfit : ∀ p ∈ ps, Fit p) (hown : OwnBlocks f ps) :
    eraseFrom f.block? 0 (textOf ps) = textOf (ps.map (Piece.clear f)) := by
  induction ps with
  | nil => rfl
  | cons p ps ih =>
    obtain ⟨hp, hps⟩ := List.forall_mem_cons.mp hfit
    obtain ⟨hown, hlater⟩ := hown
    obtain ⟨hstar, hstops⟩ := head_textOf hps
    rw [List.map_cons, textOf_cons, textOf_cons, ← ih hps hlater, Piece.clear]
    split
    · next hstarts =>
      have hc : IsComment p.comment := hp.comment.resolve_left hstarts.ne_nil
      have hblock := block?_comment hc hstops hstarts
      rw [p.text_append] at hblock ⊢
      rw [eraseFrom_block hblock (by simp [hstarts.ne_nil]),
        eraseFrom_quiet (hp.code.trimStart.quiet hstar)]
      rfl
    · next hstarts =>
      have hquiet : Quiet f.block? p.comment (p.code ++ textOf ps) := by
        rcases hp.comment with hnone | hc
        · rw [hnone]
          intro x y hxy hy
          exact absurd (List.append_eq_nil_iff.mp hxy.symm).2 hy
        · exact hc.quiet (hp.head_code hstar) (hown.resolve_left hstarts)
      rw [Piece.text, List.append_assoc, eraseFrom_quiet hquiet,
        eraseFrom_quiet (hp.code.quiet hstar), List.append_assoc]

end

/-! ## The passes together -/

/-- A source in which every block is one of the comments. The four conditions
are what keeps a block from reaching into the code:

  1. no code begins with a star, which with the end of a comment would open
     another one; nor does it after its blanks, where the comment may go;
  2. a comment in which a banner starts is that banner;
  3. the same for blocks of the older form, once the banners are gone;
  4. what is then left does not open with a comment that is no more than
     `/**/`, whose closing is not seen, while there is another closing. -/
structure Orderly (s : Source) : Prop where
  stars : ∀ p ∈ s.pieces, p.code.head? ≠ some '*' ∧
    (banner.start <+: p.comment ∨ doc.start <+: p.comment → p.bare.code.head? ≠ some '*')
  ownBanners : OwnBlocks banner s.pieces
  ownOlder : OwnBlocks older (s.pieces.map (Piece.clear banner))
  front : ∀ rest, s.head ++ textOf ((s.pieces.map (Piece.clear banner)).map (Piece.clear older))
    = ['/', '*', '*', '/'] ++ rest → ¬ ['*', '/'] <:+: rest

instance (s : Source) : Decidable (Orderly s) :=
  decidable_of_iff ((∀ p ∈ s.pieces, p.code.head? ≠ some '*' ∧
      (banner.start <+: p.comment ∨ doc.start <+: p.comment → p.bare.code.head? ≠ some '*')) ∧
      OwnBlocks banner s.pieces ∧ OwnBlocks older (s.pieces.map (Piece.clear banner)) ∧
      ∀ rest ∈ dropPrefix? ['/', '*', '*', '/']
        (s.head ++ textOf ((s.pieces.map (Piece.clear banner)).map (Piece.clear older))),
        ¬ ['*', '/'] <:+: rest)
    ⟨fun ⟨h₁, h₂, h₃, h₄⟩ => ⟨h₁, h₂, h₃, forall_dropPrefix?_iff.mp h₄⟩,
      fun h => ⟨h.stars, h.ownBanners, h.ownOlder, forall_dropPrefix?_iff.mpr h.front⟩⟩

theorem thinned_clear (f : Form) (ps : List Piece) : Thinned ps (ps.map (Piece.clear f)) := by
  induction ps with
  | nil => exact .nil
  | cons p ps ih =>
    refine .cons ?_ ih
    unfold Piece.clear
    split
    · exact Or.inr rfl
    · exact Or.inl rfl

/-- A comment that starts like a documentation comment is one, or is no more
than its opening and its closing. -/
theorem IsComment.doc_cases {c inner : List Char} (hc : IsComment c) (h : c = doc.start ++ inner) :
    doc.Starts c ∨ c = ['/', '*', '*', '/'] := by
  obtain ⟨body, hbody, -⟩ := hc
  cases body with
  | nil => exact Or.inr hbody
  | cons b body =>
    left
    rw [hbody] at h
    simp only [doc, List.cons_append, List.nil_append, List.cons.injEq, true_and] at h
    refine ⟨body ++ ['*', '/'], by rw [hbody, h.1]; rfl, body, [], ?_, trivial⟩
    simp

/-- The documentation comment that opens a text is the comment in front. -/
theorem docAt?_comment {p : Piece} (hp : Fit p) (hafter : after.head? ≠ some '*')
    (hstops : Stops isBlank after) (hne : p.text ≠ [])
    (hfront : ∀ rest, p.text ++ after = ['/', '*', '*', '/'] ++ rest → ¬ ['*', '/'] <:+: rest) :
    docAt? (p.text ++ after) = none ∨
      docAt? (p.text ++ after) = some (p.comment ++ p.code.takeWhile isBlank) := by
  rw [or_iff_not_imp_left]
  intro hdoc
  obtain ⟨block, hblock⟩ := Option.ne_none_iff_exists'.mp hdoc
  obtain ⟨inner, hstart, hturn⟩ := doc.starts_of_block? hblock
  rw [Piece.text, List.append_assoc] at hstart hdoc hfront
  rcases hp.comment with hnone | hc
  · -- code only, in which no block starts
    have hcode : p.code ≠ [] := by
      intro hcode
      apply hne
      rw [Piece.text, hnone, hcode, List.append_nil]
    rw [hnone, List.nil_append] at hdoc
    exact absurd ((hp.code.quiet (f := doc) hafter) [] p.code rfl hcode) hdoc
  · have hc' : p.comment ≠ [] := by
      obtain ⟨body, hbody, -⟩ := hc
      simp [hbody]
    obtain ⟨rest, hrest, rfl⟩ :=
      hc.start_of_append (hp.head_code hafter) (List.nil_append p.comment).symm hc' hstart
    rcases hc.doc_cases hrest with hstarts | hshort
    · exact block?_comment hc hstops hstarts
    · -- the closing of the comment is taken as part of the opening
      exfalso
      rw [hshort] at hrest hfront
      have hslash : doc.start ++ ['/'] = doc.start ++ rest := hrest
      have hslash := List.append_cancel_left hslash
      obtain ⟨gap, more, hmore, -⟩ := hturn
      apply hfront (p.code ++ after) rfl
      rw [← hslash] at hmore
      rcases gap with _ | ⟨a, gap⟩
      · simp at hmore
      · simp only [List.cons_append, List.nil_append, List.cons.injEq] at hmore
        exact ⟨gap, more, by rw [hmore.2]; simp⟩

/-- What opens fit pieces is taken out with one of the comments, if at all. -/
theorem exists_dropDoc_textOf {ps : List Piece} (hfit : ∀ p ∈ ps, Fit p)
    (hfront : ∀ rest, textOf ps = ['/', '*', '*', '/'] ++ rest → ¬ ['*', '/'] <:+: rest) :
    ∃ qs, Thinned ps qs ∧ dropDoc (textOf ps) = textOf qs := by
  induction ps with
  | nil => exact ⟨[], .nil, rfl⟩
  | cons p ps ih =>
    obtain ⟨hp, hps⟩ := List.forall_mem_cons.mp hfit
    obtain ⟨hstar, hstops⟩ := head_textOf hps
    rw [textOf_cons] at hfront ⊢
    by_cases hempty : p.text = []
    · -- nothing is left of the first piece
      rw [hempty, List.nil_append] at hfront ⊢
      obtain ⟨qs, hqs, hdrop⟩ := ih hps hfront
      refine ⟨p :: qs, .cons (Or.inl rfl) hqs, ?_⟩
      rw [hdrop, textOf_cons, hempty, List.nil_append]
    · rcases docAt?_comment hp hstar hstops hempty hfront with hdoc | hdoc
      · exact ⟨p :: ps, Thinned.refl _, by rw [dropDoc, hdoc]; rfl⟩
      · refine ⟨p.bare :: ps, .cons (Or.inr rfl) (Thinned.refl ps), ?_⟩
        rw [dropDoc, hdoc]
        simp only
        rw [p.text_append, List.drop_left]
        rfl

/-- The pieces of an orderly source are fit. -/
theorem Orderly.fit {s : Source} (h : Orderly s) : ∀ p ∈ s.pieces, Fit p := by
  intro p hp
  have hc := s.isComment p hp
  refine ⟨Or.inr hc, s.isCode p hp, fun hnone => ?_, (h.stars p hp).1, (h.stars p hp).2⟩
  obtain ⟨body, hbody, -⟩ := hc
  rw [hbody] at hnone
  cases hnone

/-- A pass over a source whose pieces are fit. -/
theorem eraseFrom_source {f : Form} {head : List Char} {ps : List Piece} (hhead : IsCode head)
    (hfit : ∀ p ∈ ps, Fit p) (hown : OwnBlocks f ps) :
    eraseFrom f.block? 0 (head ++ textOf ps) = head ++ textOf (ps.map (Piece.clear f)) := by
  rw [eraseFrom_quiet (hhead.quiet (head_textOf hfit).1), eraseFrom_textOf hfit hown]

/-- The three passes over an orderly source take out whole comments only. -/
theorem Orderly.spared {s : Source} (h : Orderly s) :
    Spared s (dropDoc (eraseFrom legacyAt? 0 (eraseFrom bannerAt? 0 s.text))) := by
  have hfit₁ := h.fit
  have hfit₂ : ∀ p ∈ s.pieces.map (Piece.clear banner), Fit p := by
    intro p hp
    obtain ⟨q, hq, rfl⟩ := List.mem_map.mp hp
    exact (hfit₁ q hq).clear (Or.inl rfl)
  have hfit₃ : ∀ p ∈ (s.pieces.map (Piece.clear banner)).map (Piece.clear older), Fit p := by
    intro p hp
    obtain ⟨q, hq, rfl⟩ := List.mem_map.mp hp
    exact (hfit₂ q hq).clear (Or.inr rfl)
  have hbanners := eraseFrom_source s.head_isCode hfit₁ h.ownBanners
  have holder := eraseFrom_source s.head_isCode hfit₂ h.ownOlder
  have hthinned := (thinned_clear banner s.pieces).trans (thinned_clear older _)
  show Spared s (dropDoc (eraseFrom older.block? 0 (eraseFrom banner.block? 0 s.text)))
  rw [Source.text, hbanners, holder]
  by_cases hhead : s.head = []
  · have hfront := h.front
    rw [hhead, List.nil_append] at hfront ⊢
    obtain ⟨qs, hqs, hdrop⟩ := exists_dropDoc_textOf hfit₃ hfront
    rw [hdrop, ← List.nil_append (textOf qs), ← hhead]
    exact spared_of_thinned (hthinned.trans hqs)
  · have hnone := (s.head_isCode.quiet (f := doc) (head_textOf hfit₃).1) [] s.head rfl hhead
    have hdrop : ∀ cs, doc.block? cs = none → dropDoc cs = cs := by
      intro cs hcs
      have hdoc : docAt? cs = none := hcs
      rw [dropDoc, hdoc]
    rw [hdrop _ hnone]
    exact spared_of_thinned hthinned

/-- What is taken out of a source are stretches that open and close like
comments; and where every block is a comment, all of the code stays. -/
theorem strip_spares_code (s : Source) :
    (∃ mid mid', Cut s.text mid ∧ Cut mid mid' ∧ Cut mid' (strip (String.ofList s.text)).toList) ∧
      (Orderly s → Spared s (strip (String.ofList s.text)).toList) := by
  have hstrip : (strip (String.ofList s.text)).toList
      = dropDoc (eraseFrom legacyAt? 0 (eraseFrom bannerAt? 0 s.text)) := by
    rw [strip, String.toList_ofList, String.toList_ofList]
  rw [hstrip]
  refine ⟨⟨_, _, cut_eraseFrom banner _, cut_eraseFrom older _, cut_dropDoc _⟩, ?_⟩
  exact fun h => h.spared

/-! ## Sources that are spared, and some that are not -/

/-- A piece from its two texts. -/
def piece (comment code : String) : Piece := ⟨comment.toList, code.toList⟩

/-- A source with a block of each form, and with a comment that is none. -/
def tidy : Source where
  head := []
  pieces := [piece "/*@AI a.js\n@AI*/" "\n", piece "/** @ai-context-end */" "\n\n",
    piece "/** Reads. */" "\nf(a ", piece "/* note */" " * 2);\n"]
  head_isCode := by decide
  isComment := by decide +kernel
  isCode := by decide +kernel

theorem strip_spares_code_tidy :
    Orderly tidy ∧ Spared tidy (strip (String.ofList tidy.text)).toList ∧
      strip (String.ofList tidy.text) = "f(a /* note */ * 2);\n" := by
  have h : Orderly tidy := by decide +kernel
  exact ⟨h, (strip_spares_code tidy).2 h, by decide +kernel⟩

/-- A documentation comment before a block of the older form. -/
def docBeforeOlder : Source where
  head := []
  pieces := [piece "/** Adds. */" "\nfunction add() \x7b\x7d\n",
    piece "/**\n * @ai-context-end\n */" "\nconst x = 1;\n"]
  head_isCode := by decide
  isComment := by decide +kernel
  isCode := by decide +kernel

/-- A comment that opens like a banner, and a later one that closes like one. -/
def openBanner : Source where
  head := []
  pieces := [piece "/*@AI todo */" " f(); ", piece "/* @AI*/" " g();"]
  head_isCode := by decide
  isComment := by decide +kernel
  isCode := by decide +kernel

/-- An empty comment in front. -/
def emptyDoc : Source where
  head := []
  pieces := [piece "/**/" " f(); ", piece "/* note */" "\n"]
  head_isCode := by decide
  isComment := by decide +kernel
  isCode := by decide +kernel

/-- A star that makes an opening with the end of the comment before it. -/
def starred : Source where
  head := []
  pieces := [piece "/* a */" "*@AI f(); @AI*/ g();"]
  head_isCode := by decide
  isComment := by decide +kernel
  isCode := by decide +kernel

/-- Each of the four conditions of `Orderly` is needed: without it code is
lost. -/
theorem strip_loses_code :
    ¬ Spared docBeforeOlder (strip (String.ofList docBeforeOlder.text)).toList ∧
      ¬ Spared openBanner (strip (String.ofList openBanner.text)).toList ∧
      ¬ Spared emptyDoc (strip (String.ofList emptyDoc.text)).toList ∧
      ¬ Spared starred (strip (String.ofList starred.text)).toList := by
  refine ⟨fun h => absurd h.codes ?_, fun h => absurd h.codes ?_, fun h => absurd h.codes ?_,
    fun h => absurd h.codes ?_⟩
  all_goals decide +kernel

end CodeAtlas.Banner
