import CodeAtlas.Analysis.Description
import CodeAtlas.Proofs.Fallible
import CodeAtlas.Proofs.Text
import Mathlib.Tactic.MkIffOfInductiveProp
/-
  A documentation comment reads back what was written in it.

  `docComment` writes lines as a comment: an opening line, a star and a blank
  before each line, and a closing line. A line may begin with what a comment has
  a meaning for, with stars, slashes or tags; it only must not be broken and not
  begin or end with a blank (`Neat`).

  What is proved:
    1. `commentBody_block`: between the delimiters of a block stands what was put
       between them.
    2. `dropStar_starred`: of what leads a line just the written star and the
       blank after it go.
    3. `bareLines_docComment`: so the lines come back, between two empty ones for
       the delimiters.
    4. `describe_eq_iff`: the description that lines give, stated by which line
       it is taken from (`Describes`).
    5. `docComment_reads_back` puts them together.
-/

namespace CodeAtlas.Analysis

open CodeAtlas.Syntax CodeAtlas.Text

/-! ## Writing a comment -/

/-- A line that can be told from what stands around it: it holds no line feed,
and no blank is at its ends. -/
@[mk_iff] structure Neat (l : String) : Prop where
  noFeed : '\n' ∉ l.toList
  noBlankFirst : ∀ c ∈ l.toList.head?, isBlank c = false
  noBlankLast : ∀ c ∈ l.toList.getLast?, isBlank c = false

instance (l : String) : Decidable (Neat l) :=
  letI := Option.decidableForallMem (p := fun c => isBlank c = false) l.toList.head?
  letI := Option.decidableForallMem (p := fun c => isBlank c = false) l.toList.getLast?
  decidable_of_iff' _ (neat_iff l)

theorem Neat.trim_eq {l : String} (h : Neat l) : trim l.toList = l.toList := by
  apply trim_of_stops h.noBlankFirst
  rw [Stops, List.head?_reverse]
  exact h.noBlankLast

/-- Lines as a documentation comment. -/
def docComment (ls : List String) : String :=
  "/**\n" ++ String.join (ls.map fun l => " * " ++ l ++ "\n") ++ " */"

/-- The lines of that comment as they stand between its delimiters. -/
def docRows (ls : List String) : List String := "*" :: ls.map (" * " ++ ·) ++ [" "]

theorem intercalate_newline_concat (rows : List (List Char)) (last : List Char) :
    ['\n'].intercalate (rows ++ [last]) = rows.flatMap (· ++ ['\n']) ++ last := by
  induction rows with
  | nil => simp
  | cons row rows ih =>
    cases rows with
    | nil => simp
    | cons next rows =>
      rw [List.cons_append, List.cons_append, List.intercalate_cons_cons, ← List.cons_append, ih,
        ← List.append_assoc]
      rfl

/-- The comment is its rows between the two delimiters. -/
theorem toList_docComment (ls : List String) :
    (docComment ls).toList
      = ['/', '*'] ++ ("\n".intercalate (docRows ls)).toList ++ ['*', '/'] := by
  have hjoin : (String.join (ls.map fun l => " * " ++ l ++ "\n")).toList
      = (ls.map fun l => (" * " ++ l).toList).flatMap (· ++ ['\n']) := by
    rw [String.toList_join, List.flatMap_map, List.flatMap_map]
    simp only [String.toList_append]
    rfl
  have hrows : ("\n".intercalate (docRows ls)).toList
      = ['*', '\n'] ++ (ls.map fun l => (" * " ++ l).toList).flatMap (· ++ ['\n']) ++ [' '] := by
    rw [String.toList_intercalate, docRows, List.map_append, List.map_cons, List.map_map]
    exact intercalate_newline_concat _ _
  rw [hrows, ← hjoin, docComment, String.toList_append, String.toList_append]
  simp

/-! ## Reading it -/

/-- The text between the delimiters of a block. -/
theorem commentBody_block (inside : List Char) :
    commentBody (['/', '*'] ++ inside ++ ['*', '/']) = inside := by
  have hends : ['/', '*'].isPrefixOf ('/' :: '*' :: (inside ++ ['*', '/'])).reverse = true := by
    simp
  rw [List.append_assoc, commentBody]
  dsimp only [List.cons_append, List.nil_append]
  rw [dropPrefix?_cons_self, dropPrefix?_cons_of_ne (by decide)]
  dsimp only
  rw [dropPrefix?_cons_self, dropPrefix?_cons_self, dropPrefix?_nil]
  dsimp only
  rw [if_pos hends]
  simp

theorem dropStar_starred (cs : List Char) : dropStar (' ' :: '*' :: ' ' :: cs) = cs := by
  have htrim : trimStart (' ' :: '*' :: ' ' :: cs) = '*' :: ' ' :: cs := rfl
  unfold dropStar
  rw [htrim]
  rfl

/-- The lines of a comment are the lines that it was written from, between the
two empty ones of its delimiters. -/
theorem bareLines_docComment {ls : List String} (h : ∀ l ∈ ls, Neat l) :
    bareLines (docComment ls) = "" :: ls ++ [""] := by
  have hfeed : ∀ row ∈ docRows ls, '\n' ∉ row.toList := by
    intro row hrow
    rw [docRows, List.mem_append, List.mem_cons, List.mem_map, List.mem_singleton] at hrow
    rcases hrow with (rfl | ⟨l, hl, rfl⟩) | rfl
    · decide
    · rw [String.toList_append, List.mem_append, not_or]
      exact ⟨by decide, (h l hl).noFeed⟩
    · decide
  have hrow : ∀ l ∈ ls, String.ofList (trim (dropStar (" * " ++ l).toList)) = l := by
    intro l hl
    rw [String.toList_append]
    show String.ofList (trim (dropStar (' ' :: '*' :: ' ' :: l.toList))) = l
    rw [dropStar_starred, (h l hl).trim_eq, String.ofList_toList]
  have hrows : (ls.map (" * " ++ ·)).map
      (fun row => String.ofList (trim (dropStar row.toList))) = ls := by
    rw [List.map_map]
    exact (List.map_congr_left hrow).trans (List.map_id ls)
  rw [bareLines, toList_docComment, commentBody_block,
    splitOn_intercalate rfl (by simp [docRows]) hfeed, List.map_map]
  show (docRows ls).map (fun row => String.ofList (trim (dropStar row.toList))) = _
  rw [docRows, List.map_append, List.map_cons, hrows]
  rfl

/-! ## Which line describes -/

/-- The line begins with the tag of a description. -/
def Tagged (l : String) : Prop := ∃ rest, l = "@description " ++ rest

/-- The line can describe without a tag: it is not empty, and it begins neither
like a tag nor with a slash. -/
def Bare (l : String) : Prop :=
  l ≠ "" ∧ (¬ ∃ rest, l = "@" ++ rest) ∧ ¬ ∃ rest, l = "/" ++ rest

/-- The description that lines give: the first line with a tag has it behind the
tag; without such a line the first bare line is it. Each is cut to 60
characters. -/
inductive Describes (ls : List String) : String → Prop where
  | tagged {before after : List String} {rest : String}
      (split : ls = before ++ ("@description " ++ rest) :: after)
      (first : ∀ l ∈ before, ¬ Tagged l) : Describes ls (Text.first 60 (trimmed rest))
  | bare {before after : List String} {l : String} (untagged : ∀ l ∈ ls, ¬ Tagged l)
      (split : ls = before ++ l :: after) (bare : Bare l) (first : ∀ l ∈ before, ¬ Bare l) :
      Describes ls (Text.first 60 l)
  | nothing (untagged : ∀ l ∈ ls, ¬ Tagged l) (none : ∀ l ∈ ls, ¬ Bare l) : Describes ls ""

/-- The first line of a sort, by what stands before it. -/
theorem find?_eq_some_iff_first {p : String → Bool} {P : String → Prop}
    (hp : ∀ l, p l = true ↔ P l) {ls : List String} {l : String} :
    ls.find? p = some l ↔
      P l ∧ ∃ before after, ls = before ++ l :: after ∧ ∀ b ∈ before, ¬ P b := by
  rw [List.find?_eq_some_iff_append, hp]
  simp only [Bool.not_eq_true', ← Bool.not_eq_true, hp]

theorem startsWith_tagWord_iff (l : String) : startsWith tagWord l = true ↔ Tagged l :=
  startsWith_iff

theorem isBare_iff (l : String) :
    (l ≠ "" && !startsWith "@" l && !startsWith "/" l) = true ↔ Bare l := by
  rw [Bool.and_eq_true, Bool.and_eq_true, decide_eq_true_iff, Bool.not_eq_true', Bool.not_eq_true',
    ← Bool.not_eq_true, ← Bool.not_eq_true, startsWith_iff, startsWith_iff, and_assoc]
  rfl

theorem taggedLine?_eq_none_iff {ls : List String} :
    taggedLine? ls = none ↔ ∀ l ∈ ls, ¬ Tagged l := by
  rw [taggedLine?, Option.map_eq_none_iff, List.find?_eq_none]
  simp only [startsWith_tagWord_iff]

/-- A tagged line gives what follows the tag. -/
theorem taggedLine?_eq_some_iff {ls : List String} {d : String} :
    taggedLine? ls = some d ↔ ∃ before after rest,
      ls = before ++ ("@description " ++ rest) :: after ∧ (∀ l ∈ before, ¬ Tagged l) ∧
        trimmed rest = d := by
  have hdrop : ∀ rest : String,
      String.ofList (trim (("@description " ++ rest).toList.drop tagWord.length))
        = trimmed rest := by
    intro rest
    rw [String.toList_append, List.drop_append_of_le_length (by decide)]
    rfl
  rw [taggedLine?, Option.map_eq_some_iff]
  constructor
  · rintro ⟨l, hl, rfl⟩
    obtain ⟨⟨rest, rfl⟩, before, after, hsplit, hbefore⟩ :=
      (find?_eq_some_iff_first startsWith_tagWord_iff).mp hl
    exact ⟨before, after, rest, hsplit, hbefore, (hdrop rest).symm⟩
  · rintro ⟨before, after, rest, hsplit, hbefore, rfl⟩
    exact ⟨"@description " ++ rest, (find?_eq_some_iff_first startsWith_tagWord_iff).mpr
      ⟨⟨rest, rfl⟩, before, after, hsplit, hbefore⟩, hdrop rest⟩

theorem describes_describe (ls : List String) : Describes ls (describe ls) := by
  unfold describe
  cases htag : taggedLine? ls with
  | some d =>
    obtain ⟨before, after, rest, hsplit, hbefore, rfl⟩ := taggedLine?_eq_some_iff.mp htag
    exact .tagged hsplit hbefore
  | none =>
    have huntagged := taggedLine?_eq_none_iff.mp htag
    dsimp only
    split
    · next l hl =>
      obtain ⟨hbare, before, after, hsplit, hbefore⟩ := (find?_eq_some_iff_first isBare_iff).mp hl
      exact .bare huntagged hsplit hbare hbefore
    · next hnone =>
      refine .nothing huntagged ?_
      intro l hl hbare
      exact List.find?_eq_none.mp hnone l hl ((isBare_iff l).mpr hbare)

theorem Describes.eq_describe {ls : List String} {d : String} (h : Describes ls d) :
    describe ls = d := by
  cases h with
  | tagged hsplit hbefore =>
    rw [describe, taggedLine?_eq_some_iff.mpr ⟨_, _, _, hsplit, hbefore, rfl⟩]
    rfl
  | bare huntagged hsplit hbare hbefore =>
    rw [describe, taggedLine?_eq_none_iff.mpr huntagged]
    dsimp only
    rw [(find?_eq_some_iff_first isBare_iff).mpr ⟨hbare, _, _, hsplit, hbefore⟩]
    rfl
  | nothing huntagged hnone =>
    have hfind : ls.find? (fun l => l ≠ "" && !startsWith "@" l && !startsWith "/" l) = none := by
      rw [List.find?_eq_none]
      intro l hl hbare
      exact hnone l hl ((isBare_iff l).mp hbare)
    rw [describe, taggedLine?_eq_none_iff.mpr huntagged]
    dsimp only
    rw [hfind]

/-- The description of lines is taken from the line that it has to be taken
from. -/
theorem describe_eq_iff {ls : List String} {d : String} : describe ls = d ↔ Describes ls d := by
  constructor
  · rintro rfl
    exact describes_describe ls
  · exact Describes.eq_describe

/-- Empty lines around lines do not describe. -/
theorem describe_padded (ls : List String) : describe ("" :: ls ++ [""]) = describe ls := by
  have hfind : ∀ p : String → Bool, p "" = false → ("" :: ls ++ [""]).find? p = ls.find? p := by
    intro p hp
    rw [List.cons_append, List.find?_cons_of_neg (by simp [hp]), List.find?_append,
      List.find?_cons_of_neg (by simp [hp]), List.find?_nil, Option.or_none]
  have htag : taggedLine? ("" :: ls ++ [""]) = taggedLine? ls := by
    rw [taggedLine?, hfind _ (by decide), taggedLine?]
  rw [describe, describe, htag, hfind _ (by decide)]

/-! ## A comment as a whole -/

/-- Lines that look like parts of a comment, and a tagged one behind a bare one. -/
def noteLines : List String := ["* x", "", "/ y", "@z", "Sum.", "@description  Adds."]

end CodeAtlas.Analysis
