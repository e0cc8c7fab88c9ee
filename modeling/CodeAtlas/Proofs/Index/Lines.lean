import CodeAtlas.Index.Read
import CodeAtlas.Proofs.Table
import CodeAtlas.Proofs.Text
import Mathlib.Data.Option.Basic
import Mathlib.Tactic.MkIffOfInductiveProp
/-
  Every line of an index is read as what it was written for.

  Six kinds of line share one layout, and the reader tells them apart by
  trying methods, functions and classes in this order. What an entry must not
  hold for this to work is said once (`EntryName`, `FunctionFits`,
  `MethodFits`, `ClassFits`, `ConstantFits`), and there is one theorem for each
  kind of line: `read_function`, `read_method`, `read_class`, `read_constant`,
  `read_import`, `read_export` and `read_fileLine`. Descriptions and callees at
  the end of a line are free texts: the reader stops at the blank before them.
-/

namespace CodeAtlas.Index

open CodeAtlas.Text

/-! ## What an index can hold -/

/-- A name that can begin an entry: it is not empty, holds no white space and
no opening bracket, and does not begin like an import or an export. -/
@[mk_iff] structure EntryName (s : String) : Prop where
  ne_empty : s ≠ ""
  solid : Solid s
  no_bracket : '(' ∉ s.toList
  not_import : s.toList.head? ≠ some '<'
  not_export : s.toList.head? ≠ some '>'

/-- Parameters that end where their bracket is closed. -/
@[mk_iff] structure Enclosed (s : String) : Prop where
  oneLine : OneLine s
  no_bracket : ')' ∉ s.toList

/-- A function that can be written on a line. -/
@[mk_iff] structure FunctionFits (f : FunctionEntry) : Prop where
  name : EntryName f.name
  params : Enclosed f.params
  startLine : 0 ≤ f.startLine
  endLine : 0 ≤ f.endLine
  description : OneLine f.description

/-- A method that can be written on a line. Its name may hold blanks. -/
@[mk_iff] structure MethodFits (m : MethodEntry) : Prop where
  ne_empty : m.name ≠ ""
  name : OneLine m.name
  no_bracket : '(' ∉ m.name.toList
  no_colon : ':' ∉ m.name.toList
  params : Enclosed m.params
  line : 0 ≤ m.line
  description : OneLine m.description

/-- A class that can be written with its methods. -/
@[mk_iff] structure ClassFits (c : ClassEntry) : Prop where
  name : EntryName c.name
  no_colon : ':' ∉ c.name.toList
  baseClass : ∀ s ∈ c.baseClass, Solid s ∧ '(' ∉ s.toList
  startLine : 0 ≤ c.startLine
  endLine : 0 ≤ c.endLine
  description : OneLine c.description
  methods : ∀ m ∈ c.methods, MethodFits m

/-- A constant that can be written on a line. -/
@[mk_iff] structure ConstantFits (k : ConstantEntry) : Prop where
  name : EntryName k.name
  line : 0 ≤ k.line
  description : OneLine k.description

/-- An outline whose entries can all be written. -/
@[mk_iff] structure OutlineFits (o : Outline) : Prop where
  description : OneLine o.description
  imports : ∀ i ∈ o.imports, OneLine i.module ∧ ∀ m ∈ i.members, OneLine m
  classes : ∀ c ∈ o.classes, ClassFits c
  functions : ∀ f ∈ o.functions, FunctionFits f
  constants : ∀ k ∈ o.constants, ConstantFits k
  exports : ∀ e ∈ o.exports, OneLine e.name ∧ ∀ l ∈ e.localName, OneLine l
  calls : ∀ e ∈ o.calls.entries, ∀ callee ∈ e.2, OneLine callee

instance (s : String) : Decidable (EntryName s) := decidable_of_iff' _ (entryName_iff s)

instance (s : String) : Decidable (Enclosed s) := decidable_of_iff' _ (enclosed_iff s)

instance (f : FunctionEntry) : Decidable (FunctionFits f) :=
  decidable_of_iff' _ (functionFits_iff f)

instance (m : MethodEntry) : Decidable (MethodFits m) := decidable_of_iff' _ (methodFits_iff m)

instance (c : ClassEntry) : Decidable (ClassFits c) := decidable_of_iff' _ (classFits_iff c)

instance (k : ConstantEntry) : Decidable (ConstantFits k) :=
  decidable_of_iff' _ (constantFits_iff k)

instance (o : Outline) : Decidable (OutlineFits o) := decidable_of_iff' _ (outlineFits_iff o)

/-! ## What follows an entry -/

theorem endsEntry_append {s t : List Char} (hs : Line.endsEntry s = true)
    (ht : Line.endsEntry t = true) : Line.endsEntry (s ++ t) = true := by
  cases s with
  | nil => exact ht
  | cons c s => exact hs

/-- A digit does not follow an entry. -/
theorem stops_isDigit_of_endsEntry {rest : List Char} (h : Line.endsEntry rest = true) :
    Stops isDigit rest := by
  cases rest with
  | nil => intro c hc; simp at hc
  | cons c rest =>
    simp only [Line.endsEntry, decide_eq_true_eq] at h
    exact stops_cons (by rw [h]; decide) rest

/-- A dash does not follow an entry. -/
theorem dropPrefix?_dash_of_endsEntry {rest : List Char} (h : Line.endsEntry rest = true) :
    dropPrefix? ['-'] rest = none := by
  cases rest with
  | nil => rfl
  | cons c rest =>
    simp only [Line.endsEntry, decide_eq_true_eq] at h
    exact dropPrefix?_cons_of_ne (by rw [h]; decide) _ _

/-- The description at the end of a line. -/
def descriptionTail (d : String) : String := if d = "" then "" else " " ++ d

theorem describe_eq (line d : String) : describe line d = line ++ descriptionTail d := by
  unfold describe descriptionTail
  split
  · simp
  · rw [String.append_assoc]

theorem endsEntry_descriptionTail (d : String) :
    Line.endsEntry (descriptionTail d).toList = true := by
  unfold descriptionTail
  split
  · rfl
  · simp [Line.endsEntry]

theorem oneLine_descriptionTail {d : String} (h : OneLine d) : OneLine (descriptionTail d) := by
  unfold descriptionTail
  split
  · decide
  · exact oneLine_append.mpr ⟨by decide, h⟩

theorem endsEntry_calleesText (o : Outline) (callers : List String) :
    Line.endsEntry (calleesText o callers).toList = true := by
  unfold calleesText
  split
  · simp [Line.endsEntry]
  · rfl

/-! ## Names and parameters on a line -/

section Pieces
open Line

theorem EntryName.toList_ne_nil {s : String} (h : EntryName s) : s.toList ≠ [] := by
  simpa using h.ne_empty

theorem EntryName.beginsEntry {s : String} (h : EntryName s) : beginsEntry s.toList = true := by
  have hi := h.not_import
  have he := h.not_export
  cases hs : s.toList with
  | nil => exact absurd hs h.toList_ne_nil
  | cons c cs =>
    rw [hs] at hi he
    simp only [List.head?_cons, ne_eq, Option.some.injEq] at hi he
    simp [Line.beginsEntry, hi, he]

/-- A name that begins an entry begins with no blank. -/
theorem EntryName.exists_cons {s : String} (h : EntryName s) :
    ∃ c cs, s.toList = c :: cs ∧ c ≠ ' ' := by
  have hsolid := h.solid
  unfold Solid at hsolid
  cases hs : s.toList with
  | nil => exact absurd hs h.toList_ne_nil
  | cons c cs =>
    refine ⟨c, cs, rfl, ?_⟩
    rintro rfl
    have := hsolid ' ' (by rw [hs]; exact List.mem_cons_self)
    exact absurd this (by decide)

theorem isFunctionChar_of_solid {s : String} (hs : Solid s) (hb : '(' ∉ s.toList) :
    ∀ c ∈ s.toList, isFunctionChar c = true := by
  intro c hc
  have hne : c ≠ '(' := fun e => hb (e ▸ hc)
  simp [isFunctionChar, hs c hc, hne]

/-- Parameters are read up to their bracket. -/
theorem readParams?_eq {s : String} (h : Enclosed s) (rest : List Char) :
    readParams? (s.toList ++ ')' :: ' ' :: rest) = some (s, rest) := by
  have hin : ∀ c ∈ s.toList, decide (c ≠ ')') = true := by
    intro c hc
    have hne : c ≠ ')' := fun e => h.no_bracket (e ▸ hc)
    simpa using hne
  have hstop : Stops (fun c => decide (c ≠ ')')) (')' :: ' ' :: rest) := stops_cons (by simp) _
  rw [readParams?, dropWhile_run hin hstop, takeWhile_run hin hstop]
  simp

/-- A written range is read at the end of an entry. -/
theorem readRange?_eq (a b : Nat) {rest : List Char} (h : endsEntry rest = true) :
    readRange? (Nat.toDigits 10 a ++ '-' :: (Nat.toDigits 10 b ++ rest))
      = some (written a, written b) := by
  have hdash : Stops isDigit ('-' :: (Nat.toDigits 10 b ++ rest)) := stops_cons (by decide) _
  rw [readRange?, numeral?_digits a hdash]
  simp [numeral?_digits b (stops_isDigit_of_endsEntry h), h]

/-- A single number is no range. -/
theorem readRange?_number (a : Nat) {rest : List Char} (h : endsEntry rest = true) :
    readRange? (Nat.toDigits 10 a ++ rest) = none := by
  rw [readRange?, numeral?_digits a (stops_isDigit_of_endsEntry h)]
  simp [dropPrefix?_dash_of_endsEntry h]

/-- A function line is read as one. -/
theorem readFunction?_eq {name params : String} (hn : EntryName name) (hp : Enclosed params)
    (a b : Nat) {rest : List Char} (h : endsEntry rest = true) :
    readFunction? (' ' :: ' ' :: (name.toList ++ '(' :: (params.toList ++ ')' :: ' ' ::
        (Nat.toDigits 10 a ++ '-' :: (Nat.toDigits 10 b ++ rest)))))
      = some (.function name params (written a) (written b)) := by
  have hin := isFunctionChar_of_solid hn.solid hn.no_bracket
  have hstop : ∀ cs, Stops isFunctionChar ('(' :: cs) := stops_cons (by decide)
  simp only [readFunction?, dropPrefix?_cons_self, dropPrefix?_nil, Option.bind_eq_bind,
    Option.bind_some, takeWhile_run hin (hstop _), dropWhile_run hin (hstop _), hn.beginsEntry,
    guard_true, readParams?_eq hp, readRange?_eq a b h]
  simp

/-- A word and a blank are no function: there is no bracket. -/
theorem readFunction?_word {s : String} (hs : Solid s) (hb : '(' ∉ s.toList) (rest : List Char) :
    readFunction? (' ' :: ' ' :: (s.toList ++ ' ' :: rest)) = none := by
  have hin := isFunctionChar_of_solid hs hb
  have hstop : Stops isFunctionChar (' ' :: rest) := stops_cons (by decide) _
  simp only [readFunction?, dropPrefix?_cons_self, dropPrefix?_nil, Option.bind_eq_bind,
    Option.bind_some, takeWhile_run hin hstop, dropWhile_run hin hstop,
    dropPrefix?_cons_of_ne (show '(' ≠ ' ' by decide)]
  simp

/-- Import and export lines are neither functions nor classes. -/
theorem readFunction?_mark {c : Char} (hc : c = '<' ∨ c = '>') (cs : List Char) :
    readFunction? (' ' :: ' ' :: c :: cs) = none := by
  rcases hc with rfl | rfl <;>
    simp [readFunction?, isFunctionChar, isBlank, beginsEntry, guard]

theorem readClass?_mark {c : Char} (hc : c = '<' ∨ c = '>') (cs : List Char) :
    readClass? (' ' :: ' ' :: c :: cs) = none := by
  rcases hc with rfl | rfl <;>
    simp [readClass?, isClassChar, isBlank, beginsEntry, guard]

/-- After a word, the name of a class that is extended is dropped with its
colon, or there was a colon and no name; what follows the blank is left. -/
theorem dropSuper?_word {s : String} (hs : Solid s) (hb : '(' ∉ s.toList) (rest : List Char) :
    dropSuper? ((s.toList ++ ' ' :: rest).dropWhile isClassChar) = none ∨
      dropSuper? ((s.toList ++ ' ' :: rest).dropWhile isClassChar) = some (' ' :: rest) := by
  unfold Solid at hs
  generalize s.toList = cs at hs hb
  induction cs with
  | nil => exact Or.inr rfl
  | cons c cs ih =>
    have hc := hs c (by simp)
    have hcs : ∀ d ∈ cs, isBlank d = false := fun d hd => hs d (List.mem_cons_of_mem c hd)
    by_cases hcolon : c = ':'
    · -- the first colon ends the name, and the run of what it extends ends at the blank
      subst hcolon
      have hin : ∀ d ∈ cs, (!isBlank d) = true := fun d hd => by simp [hcs d hd]
      have hstop : Stops (fun d => !isBlank d) (' ' :: rest) := stops_cons (by decide) _
      have hdrop : (':' :: cs ++ ' ' :: rest).dropWhile isClassChar = ':' :: (cs ++ ' ' :: rest) :=
        List.dropWhile_cons_of_neg (by decide)
      rw [hdrop]
      simp only [dropSuper?, dropPrefix?_cons_self, dropPrefix?_nil, takeWhile_run hin hstop,
        dropWhile_run hin hstop]
      split
      · exact Or.inl rfl
      · exact Or.inr rfl
    · have hbr : c ≠ '(' := fun e => hb (by simp [e])
      have hchar : isClassChar c = true := by simp [isClassChar, hc, hbr, hcolon]
      rw [List.cons_append, List.dropWhile_cons_of_pos hchar]
      exact ih hcs fun h => hb (List.mem_cons_of_mem c h)

/-- A word and a number are no class: there is no range. -/
theorem readClass?_number {s : String} (hs : Solid s) (hb : '(' ∉ s.toList) (a : Nat)
    {rest : List Char} (h : endsEntry rest = true) :
    readClass? (' ' :: ' ' :: (s.toList ++ ' ' :: (Nat.toDigits 10 a ++ rest))) = none := by
  simp only [readClass?, dropPrefix?_cons_self, dropPrefix?_nil, Option.bind_eq_bind,
    Option.bind_some]
  rcases dropSuper?_word hs hb (Nat.toDigits 10 a ++ rest) with hd | hd <;>
    simp [hd, readRange?_number a h]

/-- A class line is read as one: the name ends at a colon or at the blank. -/
theorem readClass?_eq {name heading : String} (hn : EntryName name) (hc : ':' ∉ name.toList)
    (hh : heading = name ∨ ∃ base, base ≠ "" ∧ Solid base ∧ heading = name ++ ":" ++ base)
    (a b : Nat) {rest : List Char} (h : endsEntry rest = true) :
    readClass? (' ' :: ' ' :: (heading.toList ++ ' ' ::
        (Nat.toDigits 10 a ++ '-' :: (Nat.toDigits 10 b ++ rest))))
      = some (.classHead name) := by
  have hin : ∀ c ∈ name.toList, isClassChar c = true := by
    intro c hm
    have h1 : c ≠ '(' := fun e => hn.no_bracket (e ▸ hm)
    have h2 : c ≠ ':' := fun e => hc (e ▸ hm)
    simp [isClassChar, hn.solid c hm, h1, h2]
  simp only [readClass?, dropPrefix?_cons_self, dropPrefix?_nil, Option.bind_eq_bind,
    Option.bind_some]
  rcases hh with rfl | ⟨base, hne, hbase, rfl⟩
  · have hstop : ∀ cs, Stops isClassChar (' ' :: cs) := stops_cons (by decide)
    have hsup : ∀ cs, dropSuper? (' ' :: cs) = some (' ' :: cs) := fun cs => rfl
    simp [takeWhile_run hin (hstop _), dropWhile_run hin (hstop _), hn.beginsEntry, hsup,
      readRange?_eq a b h]
  · have hstop : ∀ cs, Stops isClassChar (':' :: cs) := stops_cons (by decide)
    have hin' : ∀ c ∈ base.toList, (!isBlank c) = true := fun c hm => by simp [hbase c hm]
    have hstop' : ∀ cs, Stops (fun c => !isBlank c) (' ' :: cs) := stops_cons (by decide)
    have hsup : ∀ cs, dropSuper? (':' :: (base.toList ++ ' ' :: cs)) = some (' ' :: cs) := by
      intro cs
      simp only [dropSuper?, dropPrefix?_cons_self, dropPrefix?_nil,
        takeWhile_run hin' (hstop' _), dropWhile_run hin' (hstop' _)]
      rw [if_neg (by simpa using hne)]
    have hl : ∀ cs, (name ++ ":" ++ base).toList ++ cs
        = name.toList ++ ':' :: (base.toList ++ cs) := by
      intro cs; simp
    rw [hl]
    simp [takeWhile_run hin (hstop _), dropWhile_run hin (hstop _), hn.beginsEntry, hsup,
      readRange?_eq a b h]

/-- The word for an accessor is not read into a name without a colon. -/
theorem bareName_eq (k : MemberKind) {name : String} (hne : name ≠ "") (hc : ':' ∉ name.toList) :
    let full := k.accessor.toList ++ name.toList
    let bare := ((dropPrefix? ['g', 'e', 't', ':'] full).or
      (dropPrefix? ['s', 'e', 't', ':'] full)).getD full
    (if bare = [] then full else bare) = name.toList := by
  have hnil : name.toList ≠ [] := by simpa using hne
  have hnone : ∀ word : List Char, ':' ∈ word → dropPrefix? word name.toList = none := by
    intro word hw
    cases hd : dropPrefix? word name.toList with
    | none => rfl
    | some rest =>
      have := dropPrefix?_eq_some hd
      exact absurd (by rw [this]; exact List.mem_append_left _ hw) hc
  cases k with
  | getter => simp [MemberKind.accessor, hnil]
  | setter => simp [MemberKind.accessor, dropPrefix?, hnil]
  | constructor => simp [MemberKind.accessor, hnone, hnil]
  | method => simp [MemberKind.accessor, hnone, hnil]

/-- A method line is read as one, with the name and without the accessor. -/
theorem readMethod?_eq {mark : Char} (hm : mark = '.' ∨ mark = '+') (k : MemberKind)
    {name params : String} (hne : name ≠ "") (hb : '(' ∉ name.toList) (hc : ':' ∉ name.toList)
    (hp : Enclosed params) (a : Nat) {rest : List Char} (h : endsEntry rest = true) :
    readMethod? (' ' :: ' ' :: ' ' :: ' ' :: mark :: (k.accessor.toList ++ (name.toList ++ '(' ::
        (params.toList ++ ')' :: ' ' :: (Nat.toDigits 10 a ++ rest)))))
      = some (.method name params (written a)) := by
  have hin : ∀ c ∈ k.accessor.toList ++ name.toList, decide (c ≠ '(') = true := by
    intro c hm
    have hne : c ≠ '(' := by
      rintro rfl
      rcases List.mem_append.mp hm with hm | hm
      · cases k <;> exact absurd hm (by decide)
      · exact hb hm
    simpa using hne
  have hstop : ∀ cs, Stops (fun c => decide (c ≠ '(')) ('(' :: cs) := stops_cons (by simp)
  have hnil : name.toList ≠ [] := by simpa using hne
  have hmark : ∀ cs, (dropPrefix? ['.'] (mark :: cs)).or (dropPrefix? ['+'] (mark :: cs))
      = some cs := by
    intro cs
    rcases hm with rfl | rfl <;> simp [dropPrefix?]
  rw [← List.append_assoc]
  simp only [readMethod?, dropPrefix?_cons_self, dropPrefix?_nil, Option.bind_eq_bind,
    Option.bind_some, hmark, takeWhile_run hin (hstop _), dropWhile_run hin (hstop _),
    bareName_eq k hne hc, readParams?_eq hp, numeral?_digits a (stops_isDigit_of_endsEntry h), h]
  simp [hnil]

end Pieces

/-! ## Lines as they are written -/

section Written
open Line

/-- A line with two blanks in front is no marker, no file and no method. -/
theorem read_indented {c : Char} (hc : c ≠ ' ') (cs : List Char) :
    Line.read (' ' :: ' ' :: c :: cs)
      = ((readFunction? (' ' :: ' ' :: c :: cs)).or (readClass? (' ' :: ' ' :: c :: cs))).getD
          .entry := by
  have hmarker : Index.marker.toList.isPrefixOf (' ' :: ' ' :: c :: cs) = false := rfl
  have hfile : readFile? (' ' :: ' ' :: c :: cs) = none := rfl
  have hmethod : readMethod? (' ' :: ' ' :: c :: cs) = none := by
    simp [readMethod?, dropPrefix?, Ne.symm hc]
  have hrest : readRest (' ' :: ' ' :: c :: cs) = .entry := by
    simp [readRest, List.isPrefixOf, Ne.symm hc]
  simp [Line.read, hmarker, hfile, hmethod, hrest]

theorem read_indented_append {s : String} (hs : ∃ c cs, s.toList = c :: cs ∧ c ≠ ' ')
    (rest : List Char) :
    Line.read (' ' :: ' ' :: (s.toList ++ rest))
      = ((readFunction? (' ' :: ' ' :: (s.toList ++ rest))).or
          (readClass? (' ' :: ' ' :: (s.toList ++ rest)))).getD .entry := by
  obtain ⟨c, cs, hs, hc⟩ := hs
  rw [hs, List.cons_append]
  exact read_indented hc _

theorem toList_rangeText {a b : Int} (ha : 0 ≤ a) (hb : 0 ≤ b) :
    (rangeText a b).toList = Nat.toDigits 10 a.toNat ++ '-' :: Nat.toDigits 10 b.toNat := by
  simp [rangeText, toList_repr_of_nonneg ha, toList_repr_of_nonneg hb]

theorem read_function {f : FunctionEntry} (h : FunctionFits f) {tail : String}
    (ht : endsEntry tail.toList = true) :
    Line.read ("  " ++ functionText f ++ tail).toList
      = .function f.name f.params (written f.startLine.toNat) (written f.endLine.toNat) := by
  have hline : ("  " ++ functionText f ++ tail).toList = ' ' :: ' ' :: (f.name.toList ++ '(' ::
      (f.params.toList ++ ')' :: ' ' :: (Nat.toDigits 10 f.startLine.toNat ++ '-' ::
        (Nat.toDigits 10 f.endLine.toNat ++
          ((descriptionTail f.description).toList ++ tail.toList))))) := by
    simp [functionText, describe_eq, toList_rangeText h.startLine h.endLine]
  have hread := readFunction?_eq h.name h.params f.startLine.toNat f.endLine.toNat
    (endsEntry_append (endsEntry_descriptionTail f.description) ht)
  rw [hline, read_indented_append h.name.exists_cons, hread]
  rfl

/-- The heading of a class is its name, or its name and the class that it
extends with a colon between them. -/
theorem classHeading_cases {c : ClassEntry} (h : ClassFits c) :
    classHeading c = c.name ∨ ∃ base, base ≠ "" ∧ (Solid base ∧ '(' ∉ base.toList) ∧
      classHeading c = c.name ++ ":" ++ base := by
  have hbase := h.baseClass
  unfold classHeading
  cases hb : c.baseClass with
  | none => exact Or.inl rfl
  | some base =>
    by_cases hne : base = ""
    · simp [hne]
    · exact Or.inr ⟨base, hne, hbase base (by rw [hb]; rfl), by simp [hne]⟩

theorem solid_classHeading {c : ClassEntry} (h : ClassFits c) :
    Solid (classHeading c) ∧ '(' ∉ (classHeading c).toList := by
  rcases classHeading_cases h with e | ⟨base, -, ⟨hs, hb⟩, e⟩
  · rw [e]
    exact ⟨h.name.solid, h.name.no_bracket⟩
  · rw [e, solid_append, solid_append]
    exact ⟨⟨⟨h.name.solid, by decide⟩, hs⟩, by simp [h.name.no_bracket, hb]⟩

theorem classHeading_exists_cons {c : ClassEntry} (h : ClassFits c) :
    ∃ d ds, (classHeading c).toList = d :: ds ∧ d ≠ ' ' := by
  obtain ⟨d, ds, hname, hd⟩ := h.name.exists_cons
  rcases classHeading_cases h with e | ⟨base, -, -, e⟩
  · exact ⟨d, ds, by rw [e, hname], hd⟩
  · exact ⟨d, ds ++ ':' :: base.toList, by rw [e]; simp [hname], hd⟩

theorem read_class {c : ClassEntry} (h : ClassFits c) :
    Line.read ("  " ++ classText c).toList = .classHead c.name := by
  have hline : ("  " ++ classText c).toList = ' ' :: ' ' :: ((classHeading c).toList ++ ' ' ::
      (Nat.toDigits 10 c.startLine.toNat ++ '-' :: (Nat.toDigits 10 c.endLine.toNat ++
        (descriptionTail c.description).toList))) := by
    simp [classText, describe_eq, toList_rangeText h.startLine h.endLine]
  have hread := readClass?_eq h.name h.no_colon
    ((classHeading_cases h).imp_right fun ⟨base, hne, hs, e⟩ => ⟨base, hne, hs.1, e⟩)
    c.startLine.toNat c.endLine.toNat (endsEntry_descriptionTail c.description)
  -- with no bracket in the heading, the line is not taken for a function first
  have hfun := readFunction?_word (solid_classHeading h).1 (solid_classHeading h).2
    (Nat.toDigits 10 c.startLine.toNat ++ '-' ::
      (Nat.toDigits 10 c.endLine.toNat ++ (descriptionTail c.description).toList))
  rw [hline, read_indented_append (classHeading_exists_cons h), hread, hfun]
  rfl

theorem read_constant {k : ConstantEntry} (h : ConstantFits k) :
    Line.read ("  " ++ constantText k).toList = .entry := by
  have hline : ("  " ++ constantText k).toList = ' ' :: ' ' :: (k.name.toList ++ ' ' ::
      (Nat.toDigits 10 k.line.toNat ++ (descriptionTail k.description).toList)) := by
    simp [constantText, describe_eq, toList_repr_of_nonneg h.line]
  have hclass := readClass?_number h.name.solid h.name.no_bracket k.line.toNat
    (endsEntry_descriptionTail k.description)
  have hfun := readFunction?_word h.name.solid h.name.no_bracket
    (Nat.toDigits 10 k.line.toNat ++ (descriptionTail k.description).toList)
  rw [hline, read_indented_append h.name.exists_cons, hclass, hfun]
  rfl

theorem read_mark {c : Char} (hc : c = '<' ∨ c = '>') (cs : List Char) :
    Line.read (' ' :: ' ' :: c :: cs) = .entry := by
  have hne : c ≠ ' ' := by rcases hc with rfl | rfl <;> decide
  rw [read_indented hne, readFunction?_mark hc, readClass?_mark hc]
  rfl

theorem read_import (i : ImportEntry) : Line.read ("  " ++ importText i).toList = .entry := by
  have hline : ("  " ++ importText i).toList = ' ' :: ' ' :: '<' ::
      (i.module.toList ++ ':' :: (",".intercalate i.members).toList) := by
    simp [importText]
  rw [hline]
  exact read_mark (Or.inl rfl) _

theorem read_export (s : String) : Line.read ("  >" ++ s).toList = .entry := by
  have hline : ("  >" ++ s).toList = ' ' :: ' ' :: '>' :: s.toList := by simp
  rw [hline]
  exact read_mark (Or.inr rfl) _

theorem read_method {m : MethodEntry} (h : MethodFits m) {tail : String}
    (ht : endsEntry tail.toList = true) :
    Line.read ("    " ++ methodText m ++ tail).toList
      = .method m.name m.params (written m.line.toNat) := by
  obtain ⟨mark, hmark, hm⟩ : ∃ mark : Char,
      (methodMark m).toList = [mark] ∧ (mark = '.' ∨ mark = '+') := by
    unfold methodMark
    split
    · exact ⟨'+', rfl, Or.inr rfl⟩
    · exact ⟨'.', rfl, Or.inl rfl⟩
  have hline : ("    " ++ methodText m ++ tail).toList = ' ' :: ' ' :: ' ' :: ' ' :: mark ::
      (m.kind.accessor.toList ++ (m.name.toList ++ '(' :: (m.params.toList ++ ')' :: ' ' ::
        (Nat.toDigits 10 m.line.toNat ++
          ((descriptionTail m.description).toList ++ tail.toList))))) := by
    simp [methodText, describe_eq, hmark, toList_repr_of_nonneg h.line]
  have hread := readMethod?_eq hm m.kind h.ne_empty h.no_bracket h.no_colon h.params m.line.toNat
    (endsEntry_append (endsEntry_descriptionTail m.description) ht)
  rw [hline, Line.read, hread]
  rfl

/-- What stands behind a hash is cut at its first blank. -/
theorem read_hash (cs : List Char) :
    Line.read ('#' :: cs)
      = .file (String.ofList (cutAt ' ' cs).1) (String.ofList (cutAt ' ' cs).2) := by
  have hmarker : marker.toList.isPrefixOf ('#' :: cs) = false := rfl
  have hfile : readFile? ('#' :: cs)
      = some (.file (String.ofList (cutAt ' ' cs).1) (String.ofList (cutAt ' ' cs).2)) := by
    simp [readFile?]
  rw [Line.read, hfile, if_neg (by simp [hmarker])]
  rfl

/-- The line of a file is cut at the first blank, which is before the
description. -/
theorem read_fileLine {name : String} (hn : Solid name) (o : Outline) :
    Line.read (fileLine name o).toList
      = .file name (Text.first descriptionWidth o.description) := by
  have hin : ∀ c ∈ name.toList, decide (c ≠ ' ') = true := by
    intro c hc
    have hne : c ≠ ' ' := by rintro rfl; exact absurd (hn ' ' hc) (by decide)
    simpa using hne
  generalize hd : Text.first descriptionWidth o.description = d
  have hline : (fileLine name o).toList = '#' :: (name.toList ++ (descriptionTail d).toList) := by
    simp [fileLine, describe_eq, hd]
  have hcut : cutAt ' ' (name.toList ++ (descriptionTail d).toList) = (name.toList, d.toList) := by
    unfold cutAt descriptionTail
    split
    · next he =>
      have hstop : Stops (fun c => decide (c ≠ ' ')) [] := fun c hc => by simp at hc
      rw [String.toList_empty, takeWhile_run hin hstop, dropWhile_run hin hstop, he]
      rfl
    · have hstop : Stops (fun c => decide (c ≠ ' ')) (' ' :: d.toList) := stops_cons (by simp) _
      have hl : (" " ++ d).toList = ' ' :: d.toList := by simp
      rw [hl, takeWhile_run hin hstop, dropWhile_run hin hstop]
      rfl
  rw [hline, read_hash, hcut]
  simp

theorem read_marker (s : String) : Line.read (marker ++ s).toList = .marker := by
  have hmarker : marker.toList.isPrefixOf (marker ++ s).toList = true := by
    simp
  rw [Line.read, if_pos hmarker]

/-- The first line of an index is a marker, whatever its folder is called. -/
theorem read_openingLine (folder : String) :
    Line.read (marker ++ " " ++ folder ++ "/").toList = .marker := by
  rw [String.append_assoc, String.append_assoc]
  exact read_marker _

/-- So is its last line. -/
theorem read_closingLine : Line.read marker.toList = .marker := by
  have hread := read_marker ""
  rwa [String.append_empty] at hread

end Written

end CodeAtlas.Index
