/-
  Fixed words inside a text.

  `dropPrefix?` takes a word off the front, `breakOn` cuts a text at the first
  place where a word stands, `pieces` at every one. Every delimiter the library
  looks for (comment ends, banner marks, glob tails) is found by these.

  They work on lists of anything that can be compared, since texts are lists of
  characters in most places and lists of code points in some.
-/

namespace CodeAtlas.Text

variable {α : Type} [DecidableEq α]

/-- What follows `word` at the front of a text, if it starts so. -/
def dropPrefix? : (word cs : List α) → Option (List α)
  | [], cs => some cs
  | _ :: _, [] => none
  | w :: ws, c :: cs => if w = c then dropPrefix? ws cs else none

/-- The text before the first place where `word` stands and the text after
it. -/
def breakOn (word : List α) : List α → Option (List α × List α)
  | [] => (dropPrefix? word []).map fun rest => ([], rest)
  | c :: cs =>
    match dropPrefix? word (c :: cs) with
    | some rest => some ([], rest)
    | none => (breakOn word cs).map fun p => (c :: p.1, p.2)

/-- The pieces of a text between the first `n` places where `word` stands. -/
def piecesUpTo (word : List α) : (n : Nat) → List α → List (List α)
  | 0, cs => [cs]
  | n + 1, cs =>
    match breakOn word cs with
    | none => [cs]
    | some (before, after) => before :: piecesUpTo word n after

/-- The pieces of a text between the places where `word`, which is not empty,
stands. -/
def pieces (word cs : List α) : List (List α) := piecesUpTo word cs.length cs

/-- In how many places of a text a word stands, none of them overlapping. -/
def occurrences (word cs : List α) : Nat := (pieces word cs).length - 1

/-- Whether a word stands somewhere in a text. -/
def holds (word cs : List α) : Bool := (breakOn word cs).isSome

/-- Whether a string starts with a word. -/
def startsWith (word s : String) : Bool := word.toList.isPrefixOf s.toList

/-- Whether a string ends with a word. -/
def endsWith (word s : String) : Bool := word.toList.reverse.isPrefixOf s.toList.reverse

theorem dropPrefix?_eq_some {word cs rest : List α} (h : dropPrefix? word cs = some rest) :
    cs = word ++ rest := by
  induction word generalizing cs with
  | nil => simp_all [dropPrefix?]
  | cons w ws ih =>
    cases cs with
    | nil => simp [dropPrefix?] at h
    | cons c cs =>
      simp only [dropPrefix?] at h
      split at h
      · next e => subst e; simp [ih h]
      · simp at h

/-- A cut loses nothing: the parts and the word between them are the text. -/
theorem breakOn_eq_some {word cs before after : List α}
    (h : breakOn word cs = some (before, after)) : cs = before ++ (word ++ after) := by
  induction cs generalizing before with
  | nil =>
    simp only [breakOn, Option.map_eq_some_iff, Prod.mk.injEq] at h
    obtain ⟨r, hr, rfl, rfl⟩ := h
    simpa using dropPrefix?_eq_some hr
  | cons c cs ih =>
    simp only [breakOn] at h
    split at h
    · next rest hr =>
      simp only [Option.some.injEq, Prod.mk.injEq] at h
      obtain ⟨rfl, rfl⟩ := h
      simpa using dropPrefix?_eq_some hr
    · simp only [Option.map_eq_some_iff, Prod.mk.injEq, Prod.exists] at h
      obtain ⟨b, a, hb, rfl, rfl⟩ := h
      simp [ih hb]

end CodeAtlas.Text
