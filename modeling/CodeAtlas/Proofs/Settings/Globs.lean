import CodeAtlas.Proofs.Table
import CodeAtlas.Proofs.Text
import CodeAtlas.Settings.Globs
import Mathlib.Data.List.TakeWhile
/-
  The directory of an include pattern and its leading directory.

  The leading directory of a pattern is made of the components before the first
  one with a star (`leading`). The endings that `directory` cuts off are found
  by their first place in the text and not by components, so the two agree only
  where the text from that component on begins like an ending (`Reduces`).

  In a pattern without line feeds the four endings are cut one after the other
  from the whole text (`reduce`). Text without a star in front of the first
  wildcard is passed over by all four (`reduce_append`), and so everything is
  decided by what is left of the rest: `reduce_slash_eq_nil_iff` where the rest
  follows a directory, `reduce_eq_nil_iff` where nothing is in front of it.
-/

namespace CodeAtlas.Globs

open CodeAtlas.Text

/-- The code point that separates components. -/
def slash : Nat := '/'.toNat

/-- The code point of every wildcard. -/
def star : Nat := '*'.toNat

/-- The code point in front of an extension. -/
def dot : Nat := '.'.toNat

theorem star_ne_slash : star ≠ slash := by decide

theorem star_ne_dot : star ≠ dot := by decide

theorem slash_ne_dot : slash ≠ dot := by decide

/-! ## Components -/

/-- The components of a pattern. -/
def components (p : Points) : List (List Nat) := p.codes.splitOn slash

/-- The components before the first one with a star. -/
def plainParts (p : Points) : List (List Nat) := (components p).takeWhile (star ∉ ·)

/-- The components from the first one with a star on. -/
def wildParts (p : Points) : List (List Nat) := (components p).dropWhile (star ∉ ·)

/-- Components put together again. -/
def join (parts : List (List Nat)) : List Nat := [slash].intercalate parts

/-- The leading directory of a pattern: its longest run of leading components without a
star, or the project itself when it has none. -/
def leading (p : Points) : Points :=
  if plainParts p = [] then .ofString "." else ⟨join (plainParts p)⟩

/-- A pattern inside a project: not empty, not absolute, and in one line. -/
structure IsPattern (p : Points) : Prop where
  nonempty : p.codes ≠ []
  relative : ¬ [slash] <+: p.codes
  unbroken : lineFeed ∉ p.codes

instance (p : Points) : Decidable (IsPattern p) :=
  decidable_of_iff (p.codes ≠ [] ∧ ¬ [slash] <+: p.codes ∧ lineFeed ∉ p.codes)
    ⟨fun h => ⟨h.1, h.2.1, h.2.2⟩, fun h => ⟨h.nonempty, h.relative, h.unbroken⟩⟩

theorem join_components (p : Points) : join (components p) = p.codes :=
  List.intercalate_splitOn slash

theorem plainParts_append_wildParts (p : Points) : plainParts p ++ wildParts p = components p :=
  List.takeWhile_append_dropWhile

theorem join_append {front back : List (List Nat)} (hf : front ≠ []) (hb : back ≠ []) :
    join (front ++ back) = join front ++ slash :: join back := by
  induction front with
  | nil => exact absurd rfl hf
  | cons part front ih =>
    cases front with
    | nil => simp [join, List.intercalate_cons_of_ne_nil hb]
    | cons next front =>
      have hmore := ih (List.cons_ne_nil _ _)
      simp only [join, List.cons_append, List.intercalate_cons_cons] at hmore ⊢
      rw [hmore]
      simp only [List.append_assoc]

theorem star_notMem_join {parts : List (List Nat)} (h : ∀ part ∈ parts, star ∉ part) :
    star ∉ join parts := by
  induction parts with
  | nil => exact List.not_mem_nil
  | cons part parts ih =>
    have hpart := h part List.mem_cons_self
    have hparts := ih fun part hp => h part (List.mem_cons_of_mem _ hp)
    rw [join] at hparts ⊢
    cases parts with
    | nil => rwa [List.intercalate_singleton]
    | cons next parts =>
      rw [List.intercalate_cons_cons]
      simp [hpart, hparts, star_ne_slash]

theorem star_notMem_of_mem_plainParts {p : Points} {part : List Nat} (h : part ∈ plainParts p) :
    star ∉ part := by
  have := List.all_eq_true.mp List.all_takeWhile part h
  simpa using this

/-- A pattern with a star has a first component with one. -/
theorem exists_wildParts {p : Points} (h : star ∈ p.codes) :
    ∃ part more, wildParts p = part :: more ∧ star ∈ part := by
  cases hwild : wildParts p with
  | nil =>
    have hall := plainParts_append_wildParts p
    rw [hwild, List.append_nil] at hall
    rw [← join_components, ← hall] at h
    exact absurd h (star_notMem_join fun _ => star_notMem_of_mem_plainParts)
  | cons part more =>
    refine ⟨part, more, rfl, ?_⟩
    have hhead := List.head?_dropWhile_not (fun part => decide (star ∉ part)) (components p)
    rw [wildParts] at hwild
    rw [hwild] at hhead
    simpa using hhead

/-! ## Cutting at a word -/

/-- A text up to the first place of a word. -/
def cut (word cs : List Nat) : List Nat :=
  match breakOn word cs with
  | some (front, _) => front
  | none => cs

theorem prefix_cut (word cs : List Nat) : cut word cs <+: cs := by
  rw [cut]
  split
  · next front rest h => exact ⟨word ++ rest, (breakOn_eq_some h).symm⟩
  · exact List.prefix_refl cs

@[simp] theorem cut_nil (word : List Nat) : cut word [] = [] :=
  List.prefix_nil.mp (prefix_cut word [])

theorem cut_of_starts {word cs : List Nat} (h : word <+: cs) : cut word cs = [] := by
  obtain ⟨rest, rfl⟩ := h
  have hfront := dropPrefix?_append word rest
  cases hcs : word ++ rest with
  | nil => exact cut_nil word
  | cons c cs =>
    rw [hcs] at hfront
    rw [cut, breakOn, hfront]

theorem cut_cons {word cs : List Nat} {c : Nat} (h : ¬ word <+: c :: cs) :
    cut word (c :: cs) = c :: cut word cs := by
  have hfront : dropPrefix? word (c :: cs) = none := by
    cases hdrop : dropPrefix? word (c :: cs) with
    | none => rfl
    | some rest => exact absurd ⟨rest, (dropPrefix?_eq_some hdrop).symm⟩ h
  rw [cut, breakOn, hfront, cut]
  cases breakOn word cs <;> rfl

theorem cut_cons_eq_nil_iff {word cs : List Nat} {c : Nat} :
    cut word (c :: cs) = [] ↔ word <+: c :: cs := by
  constructor
  · intro h
    by_contra hno
    rw [cut_cons hno] at h
    cases h
  · exact cut_of_starts

theorem cut_cons_of_ne {w c : Nat} (h : w ≠ c) (ws cs : List Nat) :
    cut (w :: ws) (c :: cs) = c :: cut (w :: ws) cs :=
  cut_cons fun hw => h (List.cons_prefix_cons.mp hw).1

/-- In a text in one line an ending is cut off at its first place. -/
theorem cutEnding_eq {cs : List Nat} (h : lineFeed ∉ cs) (start : Points) :
    cutEnding ⟨cs⟩ start = ⟨cut start.codes cs⟩ := by
  have hlast : cs.getLast? ≠ some lineFeed := fun hl => h (List.mem_of_getLast? hl)
  have hline : cs.reverse.takeWhile (· ≠ lineFeed) = cs.reverse := by
    apply List.takeWhile_eq_self_iff.mpr
    intro c hc
    have hne : c ≠ lineFeed := fun e => h (e ▸ List.mem_reverse.mp hc)
    simpa using hne
  rw [cutEnding, lastLine, if_neg hlast, cut]
  simp only [hline, List.reverse_reverse, Nat.sub_self, List.take_zero, List.nil_append,
    List.append_nil]
  cases breakOn start.codes cs <;> rfl

/-! ## All four endings -/

/-- A text without its endings. -/
def reduce (cs : List Nat) : List Nat :=
  cut [star, dot] (cut [slash, star, dot]
    (cut [star, star, slash] (cut [slash, star, star, slash] cs)))

theorem directory_eq {p : Points} (h : lineFeed ∉ p.codes) :
    directory p = if reduce p.codes = [] then .ofString "." else ⟨reduce p.codes⟩ := by
  have hrest : endings.foldl cutEnding p = ⟨reduce p.codes⟩ := by
    have keep {word cs : List Nat} (hcs : lineFeed ∉ cs) : lineFeed ∉ cut word cs :=
      fun hc => hcs ((prefix_cut word cs).subset hc)
    rw [endings, List.foldl_cons, List.foldl_cons, List.foldl_cons, List.foldl_cons,
      List.foldl_nil, cutEnding_eq h, cutEnding_eq (keep h), cutEnding_eq (keep (keep h)),
      cutEnding_eq (keep (keep (keep h)))]
    rfl
  rw [directory, hrest]

theorem prefix_reduce (cs : List Nat) : reduce cs <+: cs :=
  (prefix_cut _ _).trans <| (prefix_cut _ _).trans <| (prefix_cut _ _).trans (prefix_cut _ _)

/-- No ending begins at a code point that is no star and is not followed by one after a
separator. -/
theorem reduce_cons {c : Nat} {cs : List Nat} (hc : c ≠ star)
    (hnext : c = slash → ¬ [star] <+: cs) : reduce (c :: cs) = c :: reduce cs := by
  have stays {ws us : List Nat} (hus : us <+: cs) :
      cut (slash :: star :: ws) (c :: us) = c :: cut (slash :: star :: ws) us := by
    apply cut_cons
    intro hw
    obtain ⟨hslash, hws⟩ := List.cons_prefix_cons.mp hw
    have hstar : [star] <+: us := (List.prefix_append [star] ws).trans hws
    exact hnext hslash.symm (hstar.trans hus)
  rw [reduce, stays (List.prefix_refl cs), cut_cons_of_ne hc.symm,
    stays ((prefix_cut _ _).trans (prefix_cut _ _)), cut_cons_of_ne hc.symm, reduce]

/-- Text without a star is passed over, unless a wildcard follows it directly. -/
theorem reduce_append {xs cs : List Nat} (hxs : star ∉ xs) (hcs : ¬ [star] <+: cs) :
    reduce (xs ++ cs) = xs ++ reduce cs := by
  induction xs with
  | nil => rfl
  | cons x xs ih =>
    rw [List.mem_cons, not_or] at hxs
    rw [List.cons_append, List.cons_append, reduce_cons (Ne.symm hxs.1), ih hxs.2]
    intro _ hstar
    cases xs with
    | nil => exact hcs hstar
    | cons y xs =>
      have hy := (List.cons_prefix_cons.mp hstar).1
      exact hxs.2 (hy ▸ List.mem_cons_self)

/-- A name that is all extension is not touched by the endings for directories. -/
theorem cut_star_dot (cs : List Nat) :
    cut [star, star, slash] (cut [slash, star, star, slash] (star :: dot :: cs))
      = star :: dot :: cut [star, star, slash] (cut [slash, star, star, slash] cs) := by
  rw [cut_cons_of_ne star_ne_slash.symm, cut_cons_of_ne slash_ne_dot, cut_cons,
    cut_cons_of_ne star_ne_dot]
  intro h
  exact star_ne_dot (List.cons_prefix_cons.mp (List.cons_prefix_cons.mp h).2).1

/-- Behind a directory nothing is left of an ending, and something of all else. -/
theorem reduce_slash_eq_nil_iff (cs : List Nat) :
    reduce (slash :: cs) = [] ↔ [star, dot] <+: cs ∨ [star, star, slash] <+: cs := by
  constructor
  · intro h
    by_contra hno
    obtain ⟨hname, hdirs⟩ := not_or.mp hno
    have hfirst : cut [slash, star, star, slash] (slash :: cs)
        = slash :: cut [slash, star, star, slash] cs :=
      cut_cons fun hw => hdirs (List.cons_prefix_cons.mp hw).2
    have hthird {us : List Nat} (hus : us <+: cs) :
        cut [slash, star, dot] (slash :: us) = slash :: cut [slash, star, dot] us :=
      cut_cons fun hw => hname ((List.cons_prefix_cons.mp hw).2.trans hus)
    rw [reduce, hfirst, cut_cons_of_ne star_ne_slash,
      hthird ((prefix_cut _ _).trans (prefix_cut _ _)), cut_cons_of_ne star_ne_slash] at h
    cases h
  · rintro (⟨rest, rfl⟩ | hdirs)
    · have hfirst : ¬ [slash, star, star, slash] <+: slash :: star :: dot :: rest := by
        simp [List.cons_prefix_cons, star_ne_dot]
      have hthird (us : List Nat) : cut [slash, star, dot] (slash :: star :: dot :: us) = [] :=
        cut_of_starts ⟨us, rfl⟩
      rw [List.cons_append, List.cons_append, List.nil_append, reduce, cut_cons hfirst,
        cut_cons_of_ne star_ne_slash, cut_star_dot, hthird, cut_nil]
    · have hfirst : [slash, star, star, slash] <+: slash :: cs :=
        List.cons_prefix_cons.mpr ⟨rfl, hdirs⟩
      rw [reduce, cut_of_starts hfirst, cut_nil, cut_nil, cut_nil]

/-- Nothing is left of the text: it begins with a name that is all extension, or with
one wildcard for directories and not with two. -/
def Vanishes (cs : List Nat) : Prop :=
  [star, dot] <+: cs ∨
    [star, star, slash] <+: cs ∧ ¬ [star, star, slash, star, star, slash] <+: cs

instance (cs : List Nat) : Decidable (Vanishes cs) := inferInstanceAs (Decidable (_ ∨ _))

/-- Two wildcards for directories in a row lose the separator between them to the
first ending. -/
theorem starts_cut_iff (cs : List Nat) :
    [star, star, slash] <+: cut [slash, star, star, slash] cs ↔
      [star, star, slash] <+: cs ∧ ¬ [star, star, slash, star, star, slash] <+: cs := by
  have hopen (us : List Nat) : cut [slash, star, star, slash] (star :: star :: us)
      = star :: star :: cut [slash, star, star, slash] us := by
    rw [cut_cons_of_ne star_ne_slash.symm, cut_cons_of_ne star_ne_slash.symm]
  constructor
  · intro h
    have hstarts := h.trans (prefix_cut _ _)
    refine ⟨hstarts, ?_⟩
    rintro ⟨rest, rfl⟩
    have hagain : [slash, star, star, slash] <+: slash :: star :: star :: slash :: rest :=
      ⟨rest, rfl⟩
    simp only [List.cons_append, List.nil_append] at h
    rw [hopen, cut_of_starts hagain] at h
    simp [List.cons_prefix_cons] at h
  · rintro ⟨⟨rest, rfl⟩, honce⟩
    have hnot : ¬ [slash, star, star, slash] <+: slash :: rest := by
      simpa [List.cons_prefix_cons] using honce
    simp only [List.cons_append, List.nil_append]
    rw [hopen, cut_cons hnot]
    simp [List.cons_prefix_cons]

/-- A dot in front stays in front of every cut but the last. -/
theorem dot_starts_cut_iff (cs : List Nat) :
    [dot] <+: cut [slash, star, dot] (cut [star, star, slash] (cut [slash, star, star, slash] cs)) ↔
      [dot] <+: cs := by
  constructor
  · intro h
    exact h.trans <| (prefix_cut _ _).trans <| (prefix_cut _ _).trans (prefix_cut _ _)
  · rintro ⟨rest, rfl⟩
    rw [List.cons_append, List.nil_append, cut_cons_of_ne slash_ne_dot,
      cut_cons_of_ne star_ne_dot, cut_cons_of_ne slash_ne_dot]
    exact ⟨_, rfl⟩

/-- What is left of a text with nothing in front of it. -/
theorem reduce_eq_nil_iff {cs : List Nat} (hne : cs ≠ []) (hrel : ¬ [slash] <+: cs) :
    reduce cs = [] ↔ Vanishes cs := by
  by_cases hdirs : [star, star, slash] <+: cut [slash, star, star, slash] cs
  · have hnil : reduce cs = [] := by
      rw [reduce, cut_of_starts hdirs, cut_nil, cut_nil]
    exact ⟨fun _ => Or.inr ((starts_cut_iff cs).mp hdirs), fun _ => hnil⟩
  · cases cs with
    | nil => exact absurd rfl hne
    | cons c cs =>
      have hc : slash ≠ c := fun e => hrel (List.cons_prefix_cons.mpr ⟨e, List.nil_prefix⟩)
      have hkept : reduce (c :: cs) = cut [star, dot] (c :: cut [slash, star, dot]
          (cut [star, star, slash] (cut [slash, star, star, slash] cs))) := by
        rw [cut_cons_of_ne hc] at hdirs
        rw [reduce, cut_cons_of_ne hc, cut_cons hdirs, cut_cons_of_ne hc]
      rw [Vanishes, ← starts_cut_iff, or_iff_left hdirs, hkept, cut_cons_eq_nil_iff,
        List.cons_prefix_cons, List.cons_prefix_cons, dot_starts_cut_iff]

/-! ## Patterns that reduce -/

/-- The pattern is reduced to its leading directory. The rest of it is one of the
endings where a directory is in front of it. Where none is, nothing may be left of the
pattern, or a single dot, which stands for the project too. -/
def Reduces (p : Points) : Prop :=
  star ∉ p.codes ∨
    (plainParts p ≠ [] ∧
      ([star, dot] <+: join (wildParts p) ∨ [star, star, slash] <+: join (wildParts p))) ∨
    (plainParts p = [] ∧
      (Vanishes p.codes ∨ [dot] <+: p.codes ∧ Vanishes p.codes.tail))

instance (p : Points) : Decidable (Reduces p) := inferInstanceAs (Decidable (_ ∨ _ ∨ _))

theorem directory_of_star_notMem {p : Points} (hp : IsPattern p) (h : star ∉ p.codes) :
    directory p = leading p := by
  have hreduce : reduce p.codes = p.codes := by
    have := reduce_append h (show ¬ [star] <+: [] by decide)
    rwa [List.append_nil, show reduce [] = [] from rfl, List.append_nil] at this
  have hplain : plainParts p = components p := by
    apply List.takeWhile_eq_self_iff.mpr
    intro part hpart
    have : star ∉ part := fun hs => h ((mem_splitOn hpart).2 hs)
    simpa using this
  have hne : components p ≠ [] := List.splitOn_ne_nil slash p.codes
  rw [directory_eq hp.unbroken, hreduce, if_neg hp.nonempty, leading, hplain, if_neg hne,
    join_components]

/-- A wildcard behind a directory. -/
theorem directory_eq_iff_of_plainParts {p : Points} (hp : IsPattern p) (h : star ∈ p.codes)
    (hplain : plainParts p ≠ []) :
    directory p = leading p ↔
      [star, dot] <+: join (wildParts p) ∨ [star, star, slash] <+: join (wildParts p) := by
  obtain ⟨part, more, hwild, -⟩ := exists_wildParts h
  have hcodes : p.codes = join (plainParts p) ++ slash :: join (wildParts p) := by
    rw [← join_components, ← plainParts_append_wildParts, join_append hplain]
    rw [hwild]
    exact List.cons_ne_nil _ _
  have hreduce : reduce p.codes = join (plainParts p) ++ reduce (slash :: join (wildParts p)) := by
    rw [hcodes]
    apply reduce_append (star_notMem_join fun _ => star_notMem_of_mem_plainParts)
    exact fun hs => star_ne_slash (List.cons_prefix_cons.mp hs).1
  -- the directory in front is not empty, since the pattern does not begin with a slash
  have hfront : join (plainParts p) ≠ [] := by
    intro hnil
    apply hp.relative
    rw [hcodes, hnil]
    exact ⟨_, rfl⟩
  have hne : reduce p.codes ≠ [] := by
    rw [hreduce]
    exact List.append_ne_nil_of_left_ne_nil hfront _
  rw [directory_eq hp.unbroken, if_neg hne, leading, if_neg hplain, Points.mk.injEq, hreduce,
    List.append_right_eq_self, reduce_slash_eq_nil_iff]

/-- Behind the dot that opens a component with a star the component goes on. -/
theorem starts_behind_dot {part rest : List Nat} (hpart : part <+: dot :: rest)
    (hstar : star ∈ part) (hslash : slash ∉ part) : rest ≠ [] ∧ ¬ [slash] <+: rest := by
  cases part with
  | nil => exact absurd hstar List.not_mem_nil
  | cons c part =>
    obtain ⟨rfl, hmore⟩ := List.cons_prefix_cons.mp hpart
    have hmem : star ∈ part := (List.mem_cons.mp hstar).resolve_left star_ne_dot
    cases part with
    | nil => exact absurd hmem List.not_mem_nil
    | cons d part =>
      obtain ⟨more, rfl⟩ := hmore
      refine ⟨List.cons_ne_nil _ _, fun hd => ?_⟩
      have : slash = d := (List.cons_prefix_cons.mp hd).1
      simp [this] at hslash

/-- A wildcard in the first component. -/
theorem directory_eq_iff_of_wild {p : Points} (hp : IsPattern p) (h : star ∈ p.codes)
    (hplain : plainParts p = []) :
    directory p = leading p ↔ Vanishes p.codes ∨ [dot] <+: p.codes ∧ Vanishes p.codes.tail := by
  obtain ⟨part, more, hwild, hstar⟩ := exists_wildParts h
  have hparts : components p = part :: more := by
    rw [← plainParts_append_wildParts, hplain, hwild, List.nil_append]
  have hslash : slash ∉ part := by
    have hmem : part ∈ components p := by
      rw [hparts]
      exact List.mem_cons_self
    exact (mem_splitOn hmem).1
  have hfront : part <+: p.codes := by
    rw [← join_components, hparts, join]
    cases more with
    | nil => exact ⟨[], by rw [List.append_nil, List.intercalate_singleton]⟩
    | cons next more =>
      rw [List.intercalate_cons_cons, List.append_assoc]
      exact List.prefix_append _ _
  have hdot : reduce p.codes = [dot] ↔ [dot] <+: p.codes ∧ Vanishes p.codes.tail := by
    by_cases hstarts : [dot] <+: p.codes
    · obtain ⟨rest, hrest⟩ := hstarts
      rw [List.cons_append, List.nil_append] at hrest
      rw [← hrest] at hfront ⊢
      obtain ⟨hne, hrel⟩ := starts_behind_dot hfront hstar hslash
      have hcons : reduce (dot :: rest) = dot :: reduce rest :=
        reduce_cons star_ne_dot.symm fun e => absurd e slash_ne_dot.symm
      rw [hcons, List.tail_cons, ← reduce_eq_nil_iff hne hrel]
      simp
    · have hno : reduce p.codes ≠ [dot] := fun e => hstarts (e ▸ prefix_reduce p.codes)
      simp [hno, hstarts]
  rw [directory_eq hp.unbroken, leading, if_pos hplain, ← hdot,
    ← reduce_eq_nil_iff hp.nonempty hp.relative]
  by_cases hnil : reduce p.codes = []
  · simp [hnil]
  · rw [if_neg hnil, or_iff_right hnil, Points.ofString, Points.ofChars, Points.mk.injEq]
    rfl

/-- A pattern is reduced to its leading directory exactly when it has one of the shapes
that the endings are for. -/
theorem directory_eq_leading_iff {p : Points} (hp : IsPattern p) :
    directory p = leading p ↔ Reduces p := by
  rw [Reduces]
  by_cases hstar : star ∈ p.codes
  · by_cases hplain : plainParts p = []
    · rw [directory_eq_iff_of_wild hp hstar hplain]
      simp [hstar, hplain]
    · rw [directory_eq_iff_of_plainParts hp hstar hplain]
      simp [hstar, hplain]
  · exact ⟨fun _ => Or.inl hstar, fun _ => directory_of_star_notMem hp hstar⟩

/-- What the directories of some patterns are. -/
structure DirectoriesExact (patterns : List Points) : Prop where
  /-- They are the directories of the patterns, and no others. -/
  mem_iff : ∀ d, d ∈ directories patterns ↔ ∃ p ∈ patterns, directory p = d
  /-- The directory of a pattern is its leading directory exactly when the pattern has a
  shape that the endings are for. -/
  leading_iff : ∀ p ∈ patterns, directory p = leading p ↔ Reduces p
  /-- None is given twice. -/
  nodup : (directories patterns).Nodup
  /-- They are given in the order in which the patterns name them first. -/
  ordered : (directories patterns).Pairwise (Leads (patterns.map directory))

/-- The directories of patterns inside a project are their leading directories as far as
the endings reach. -/
theorem directoriesExact_of_isPattern {patterns : List Points}
    (h : ∀ p ∈ patterns, IsPattern p) : DirectoriesExact patterns where
  mem_iff d := by rw [directories, mem_distinct, List.mem_map]
  leading_iff p hp := directory_eq_leading_iff (h p hp)
  nodup := nodup_distinct _
  ordered := pairwise_distinct _

/-- Patterns of the shapes that the endings are for. -/
def plainPatterns : List Points :=
  [.ofString "src/**/*.js", .ofString "**/*.ts", .ofString "lib/a-b/*.js", .ofString "src/**/**/x",
    .ofString "tests/", .ofString "*.mjs"]

theorem directoriesExact_plainPatterns :
    (∀ p ∈ plainPatterns, IsPattern p) ∧
      (∀ p ∈ plainPatterns, directory p = leading p) ∧
      directories plainPatterns
        = [.ofString "src", .ofString ".", .ofString "lib/a-b", .ofString "tests/"] := by
  have hpatterns : ∀ p ∈ plainPatterns, IsPattern p := by decide +kernel
  have hreduces : ∀ p ∈ plainPatterns, Reduces p := by decide +kernel
  have hexact := directoriesExact_of_isPattern hpatterns
  exact ⟨hpatterns, fun p hp => (hexact.leading_iff p hp).mpr (hreduces p hp), by decide +kernel⟩

/-- Patterns with a star for one level, with two wildcards for directories, and with a
star inside a name. -/
def otherPatterns : List Points :=
  [.ofString "src/*", .ofString "**/**/*.js", .ofString "src/a*.js"]

/-- A directory can keep its wildcards, or end inside a name, and is then none that the
project has. -/
theorem wildcard_left_in_directory :
    (∀ p ∈ otherPatterns, IsPattern p) ∧
      otherPatterns.map leading = [.ofString "src", .ofString ".", .ofString "src"] ∧
      directories otherPatterns = [.ofString "src/*", .ofString "**", .ofString "src/a"] := by
  decide +kernel

end CodeAtlas.Globs
