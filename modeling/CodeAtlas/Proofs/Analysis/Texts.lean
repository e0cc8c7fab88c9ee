import CodeAtlas.Proofs.Analysis.Passes
import CodeAtlas.Proofs.Analysis.Places
import CodeAtlas.Proofs.Analysis.Recorded
import CodeAtlas.Proofs.Index.Lines
import CodeAtlas.Proofs.Syntax.Source
import Mathlib.Tactic.MkIffOfInductiveProp
/-
  The texts of an outline stay inside what an index can hold.

  `Clean` says what is asked of a tree: its names are plain, its strings stay
  in one line. Every name that a pass makes is the text of such a node, a
  stand-in in brackets, or two of these with a dot between them, and all three
  are plain; parameters are names with marks; descriptions are lines of
  comments, one line each.
-/

namespace CodeAtlas.Analysis

open CodeAtlas.Syntax CodeAtlas.Text CodeAtlas.Index

/-! ## Plain names -/

/-- The characters that the lines of an index use as signs. -/
def signs : List Char := ['(', ')', ':', '<', '>']

/-- A name that is not empty and holds no white space and no sign. -/
@[mk_iff] structure Plain (s : String) : Prop where
  ne_empty : s ≠ ""
  solid : Solid s
  no_sign : ∀ c ∈ s.toList, c ∉ signs

instance (s : String) : Decidable (Plain s) :=
  have : Decidable (∀ c ∈ s.toList, c ∉ signs) := List.decidableBAll (fun c => c ∉ signs) s.toList
  decidable_of_iff' _ (plain_iff s)

theorem Plain.not_mem {s : String} (h : Plain s) {c : Char} (hc : c ∈ signs) : c ∉ s.toList :=
  fun hmem => h.no_sign c hmem hc

theorem Plain.oneLine {s : String} (h : Plain s) : OneLine s := h.solid.oneLine

theorem Plain.append {s t : String} (hs : Plain s) (ht : Plain t) : Plain (s ++ t) := by
  refine ⟨?_, solid_append.mpr ⟨hs.solid, ht.solid⟩, ?_⟩
  · intro h
    exact hs.ne_empty (String.append_eq_empty_iff.mp h).1
  · intro c hc
    rw [String.toList_append, List.mem_append] at hc
    exact hc.elim (hs.no_sign c) (ht.no_sign c)

/-- A member of something with a plain name has a plain name. -/
theorem Plain.member {s t : String} (hs : Plain s) (ht : Plain t) : Plain (s ++ "." ++ t) :=
  (hs.append (by decide)).append ht

theorem Plain.entryName {s : String} (h : Plain s) : EntryName s := by
  refine ⟨h.ne_empty, h.solid, h.not_mem (by decide), ?_, ?_⟩
  · intro hhead
    exact h.not_mem (by decide) (List.mem_of_head? hhead)
  · intro hhead
    exact h.not_mem (by decide) (List.mem_of_head? hhead)

theorem Plain.enclosed {s : String} (h : Plain s) : Enclosed s :=
  ⟨h.oneLine, h.not_mem (by decide)⟩

theorem enclosed_append {s t : String} (hs : Enclosed s) (ht : Enclosed t) :
    Enclosed (s ++ t) := by
  refine ⟨oneLine_append.mpr ⟨hs.oneLine, ht.oneLine⟩, ?_⟩
  rw [String.toList_append, List.mem_append]
  exact fun h => h.elim hs.no_bracket ht.no_bracket

theorem enclosed_intercalate {sep : String} {l : List String} (hs : Enclosed sep)
    (hl : ∀ s ∈ l, Enclosed s) : Enclosed (sep.intercalate l) := by
  induction l with
  | nil =>
    rw [String.intercalate_nil]
    decide
  | cons s l ih =>
    cases l with
    | nil => simpa using hl s
    | cons t l =>
      rw [String.intercalate_cons_cons]
      refine enclosed_append (enclosed_append (hl s (by simp)) hs) ?_
      exact ih fun u hu => hl u (List.mem_cons_of_mem s hu)

/-! ## Clean trees -/

/-- The text of a node, if it has one, satisfies `P`. -/
def TextIs (P : String → Prop) (n : Node) : Prop := ∀ s, n.text = .ok s → P s

instance (P : String → Prop) [DecidablePred P] (n : Node) : Decidable (TextIs P n) :=
  match h : n.text with
  | .error _ => isTrue fun s hs => by rw [h] at hs; cases hs
  | .ok t =>
    decidable_of_iff (P t) ⟨fun ht s hs => by rw [h] at hs; cases hs; exact ht, fun ht => ht t h⟩

/-- The kinds of nodes that are a word. -/
def wordKinds : List Kind :=
  [.identifier, .propertyIdentifier, .privatePropertyIdentifier,
    .shorthandPropertyIdentifierPattern]

/-- The kinds of nodes that have a name of their own: functions, classes and
types. -/
def namingKinds : List Kind :=
  [.functionDeclaration, .generatorFunctionDeclaration, .functionExpression, .function,
    .generatorFunction, .arrowFunction, .classDeclaration, .abstractClassDeclaration,
    .classExpression, .enumDeclaration, .interfaceDeclaration, .typeAliasDeclaration]

/-- A tree whose words and names are plain, and whose strings stay in one
line. A name in braces may also be a string. -/
@[mk_iff] structure Clean (root : Node) : Prop where
  words : ∀ n ∈ root.preorder, n.kind ∈ wordKinds → TextIs Plain n
  names : ∀ n ∈ root.preorder, n.kind ∈ namingKinds → ∀ t ∈ n.child? .name, TextIs Plain t
  specifiers : ∀ n ∈ root.preorder, n.kind = .importSpecifier ∨ n.kind = .exportSpecifier →
    ∀ f ∈ [Field.name, Field.renamed], ∀ t ∈ n.child? f, t.kind = .string ∨ TextIs Plain t
  strings : ∀ n ∈ root.preorder, n.kind = .string → TextIs OneLine n

instance (root : Node) : Decidable (Clean root) := decidable_of_iff' _ (clean_iff root)

theorem plain_placedClassTitle? {K : Cursor} {title : Option String}
    (htitle : placedClassTitle? K = .ok title) : ∀ s ∈ title, Plain s := by
  unfold placedClassTitle? at htitle
  have hnone : (pure none : Except Fault (Option String)) = .ok title → ∀ s ∈ title, Plain s := by
    intro htitle s hs
    rw [← pure_eq_ok.mp htitle] at hs
    cases hs
  split at htitle
  · exact hnone htitle
  split at htitle
  · rw [← pure_eq_ok.mp htitle]
    intro s hs
    cases hs
    decide
  split at htitle
  · split at htitle
    · exact hnone htitle
    · obtain ⟨whole, -, htitle⟩ := bind_eq_ok.mp htitle
      cases whole with
      | false => exact hnone htitle
      | true =>
        cases pure_eq_ok.mp htitle
        intro s hs
        cases hs
        decide
  · exact hnone htitle

namespace Clean

variable {root : Node} (h : Clean root)
include h

theorem identifier {n : Node} (hn : n ∈ root.preorder) (kind : n.kind = .identifier) :
    TextIs Plain n := h.words n hn (by rw [kind]; decide)

/-! ## Names -/

theorem declaredName? {n : Node} {name : Option String} (hn : n ∈ root.preorder)
    (kind : n.kind ∈ namingKinds) (hname : Analysis.declaredName? n = .ok name) :
    ∀ s ∈ name, Plain s := by
  refine forall_mem_optionMapM hname ?_
  intro t s ht hs
  exact h.names n hn kind t ht s hs

theorem nameOr {standIn name : String} {n : Node} (hn : n ∈ root.preorder)
    (kind : n.kind ∈ namingKinds) (hstand : Plain standIn)
    (hname : Analysis.nameOr standIn n = .ok name) : Plain name := by
  obtain ⟨declared, hdeclared, hname⟩ := bind_eq_ok.mp hname
  rw [← pure_eq_ok.mp hname]
  cases declared with
  | none => exact hstand
  | some s => exact h.declaredName? hn kind hdeclared s rfl

theorem memberName {n : Node} {name : String} (hn : n ∈ root.preorder)
    (hname : Analysis.memberName n = .ok name) : Plain name := by
  unfold Analysis.memberName at hname
  split at hname
  · next t ht =>
    split at hname
    · next kind =>
      refine h.words t (SyntaxTree.mem_preorder_of_child? hn ht) ?_ name hname
      rcases kind with kind | kind
      · rw [kind]; decide
      · rw [kind]; decide
    · rw [← pure_eq_ok.mp hname]
      decide
  · rw [← pure_eq_ok.mp hname]
    decide

theorem boundName? {c : Cursor} {name : Option String} (hc : c ∈ (Cursor.root root).preorder)
    (hname : Analysis.boundName? c = .ok name) : ∀ s ∈ name, Plain s := by
  refine forall_mem_optionMapM hname ?_
  intro t s ht hs
  obtain ⟨htree, hkind⟩ := mem_preorder_of_binding? hc ht
  exact h.identifier htree hkind s hs

theorem classTitle? {K : Cursor} {title : Option String} (hK : K ∈ (Cursor.root root).preorder)
    (kind : K.kind ∈ namingKinds) (htitle : Analysis.classTitle? K = .ok title) :
    ∀ s ∈ title, Plain s := by
  obtain ⟨bound, hbound, htitle⟩ := bind_eq_ok.mp htitle
  cases bound with
  | some name =>
    cases pure_eq_ok.mp htitle
    unfold boundClassTitle? at hbound
    split at hbound
    · obtain ⟨name', hname', hbound⟩ := bind_eq_ok.mp hbound
      obtain ⟨rfl, -⟩ := Option.filter_eq_some_iff.mp (pure_eq_ok.mp hbound)
      exact h.boundName? hK hname'
    · cases hbound
  | none =>
    obtain ⟨declared, hdeclared, htitle⟩ := bind_eq_ok.mp htitle
    cases declared with
    | some name =>
      cases pure_eq_ok.mp htitle
      exact h.declaredName? (SyntaxTree.focus_mem_preorder hK) kind hdeclared
    | none => exact plain_placedClassTitle? htitle

theorem baseName? {n : Node} {base : Option String} (hn : n ∈ root.preorder)
    (hbase : Analysis.baseName? n = .ok base) : ∀ s ∈ base, Plain s := by
  refine forall_mem_optionMapM hbase ?_
  intro t s ht hs
  obtain ⟨htree, hkind⟩ := mem_preorder_of_base? hn ht
  exact h.identifier htree hkind s hs

/-! ## Parameters -/

theorem written {r : Except Fault String} {p : String} (hr : WrittenIn root r) (hp : r = .ok p) :
    Enclosed p := by
  cases hr with
  | unnamed =>
    cases hp
    decide
  | named inside isName marks =>
    have hmarks : ∀ m ∈ parameterMarks, Enclosed m.1 ∧ Enclosed m.2 := by decide
    obtain ⟨hbefore, hafter⟩ := hmarks _ marks
    obtain ⟨name, hname, hp⟩ := bind_eq_ok.mp hp
    rw [← pure_eq_ok.mp hp]
    have hname := (h.identifier inside isName name hname).enclosed
    exact enclosed_append (enclosed_append hbefore hname) hafter

theorem parameters {p : String} {n : Node} (hn : n ∈ root.preorder)
    (hp : Analysis.parameters n = .ok p) : Enclosed p := by
  rw [parameters_eq] at hp
  obtain ⟨texts, htexts, rfl⟩ := map_eq_ok.mp hp
  apply enclosed_intercalate (by decide)
  intro text htext
  obtain ⟨m, hm, hmtext⟩ := exists_of_mem_mapM htexts htext
  exact h.written (parameter_cases (mem_preorder_of_mem_parametersOf hn hm)) hmtext

end Clean

/-! ## Descriptions -/

/-- The text breaks its lines by line feeds only. -/
def LineFed (s : String) : Prop := ∀ c ∈ s.toList, isLineBreak c = true → c = '\n'

instance (s : String) : Decidable (LineFed s) :=
  List.decidableBAll (fun c => isLineBreak c = true → c = '\n') s.toList

theorem oneLine_of_subset {cs : List Char} {t : String} (h : cs ⊆ t.toList) (ht : OneLine t) :
    OneLine (String.ofList cs) := by
  intro c hc
  rw [String.toList_ofList] at hc
  exact ht c (h hc)

theorem commentBody_subset (cs : List Char) : commentBody cs ⊆ cs := by
  unfold commentBody
  split
  · next rest hrest =>
    rw [dropPrefix?_eq_some hrest]
    exact List.subset_append_right _ _
  split
  · exact List.Subset.refl cs
  next rest hrest =>
  split
  · exact fun c hc => List.mem_of_mem_drop (List.mem_of_mem_take hc)
  · rw [dropPrefix?_eq_some hrest]
    exact List.subset_append_right _ _

theorem dropStar_subset (line : List Char) : dropStar line ⊆ line := by
  have htrim := trimStart_subset line
  unfold dropStar
  split
  · next c rest hline =>
    rw [hline] at htrim
    intro d hd
    split at hd
    · exact htrim (List.mem_cons_of_mem _ (List.mem_cons_of_mem _ hd))
    · exact htrim (List.mem_cons_of_mem _ hd)
  · exact List.nil_subset _
  · exact List.Subset.refl line

/-- The lines of a comment are lines. -/
theorem oneLine_bareLines {text : String} (h : LineFed text) : ∀ l ∈ bareLines text, OneLine l := by
  intro l hl
  obtain ⟨part, hpart, rfl⟩ := List.mem_map.mp hl
  obtain ⟨hfeed, hsub⟩ := mem_splitOn hpart
  intro c hc
  rw [String.toList_ofList] at hc
  have hc := dropStar_subset part (trim_subset _ hc)
  cases hbreak : isLineBreak c with
  | false => rfl
  | true =>
    have hcn := h c (commentBody_subset _ (hsub hc)) hbreak
    exact absurd (hcn ▸ hc) hfeed

theorem oneLine_taggedLine? {lines : List String} (h : ∀ l ∈ lines, OneLine l) :
    ∀ l ∈ taggedLine? lines, OneLine l := by
  intro l hl
  obtain ⟨line, hline, rfl⟩ := Option.map_eq_some_iff.mp hl
  exact oneLine_of_subset (fun c hc => List.mem_of_mem_drop (trim_subset _ hc))
    (h line (List.mem_of_find?_eq_some hline))

theorem oneLine_commentDescription {text : String} (h : LineFed text) :
    OneLine (commentDescription text) := by
  have hlines := oneLine_bareLines h
  unfold commentDescription Analysis.describe
  split
  · next l hl => exact (oneLine_taggedLine? hlines l hl).first _
  split
  · next l hl => exact (hlines l (List.mem_of_find?_eq_some hl)).first _
  · decide

/-- The description of a declaration is a line of a comment of the file. -/
theorem oneLine_descriptionOf {root : Node} (hfed : ∀ n ∈ root.preorder, TextIs LineFed n)
    {c : Cursor} {description : String} (hc : c ∈ (Cursor.root root).preorder)
    (h : descriptionOf c = .ok description) : OneLine description := by
  unfold descriptionOf at h
  split at h
  · next comment hcomment =>
    obtain ⟨text, htext, h⟩ := bind_eq_ok.mp h
    rw [← pure_eq_ok.mp h]
    have hmem := (mem_preorder_of_describingComment? hc hcomment).1
    exact oneLine_commentDescription
      (hfed _ (SyntaxTree.focus_mem_preorder hmem) text htext)
  · rw [← pure_eq_ok.mp h]
    decide

theorem oneLine_openingDescription {code : String} (h : LineFed code) :
    OneLine (openingDescription code) := by
  unfold openingDescription
  split
  · decide
  next block hblock =>
  obtain ⟨rest, hrest, hblock⟩ := Option.bind_eq_some_iff.mp hblock
  obtain ⟨⟨inside, after⟩, hinside, hblock⟩ := Option.bind_eq_some_iff.mp hblock
  cases hblock
  -- the block is the beginning of the source
  have hcode : code.toList = ['/', '*', '*'] ++ inside ++ ['*', '/'] ++ after := by
    rw [dropPrefix?_eq_some hrest, breakOn_eq_some hinside]
    simp
  have hfed : LineFed (String.ofList (['/', '*', '*'] ++ inside ++ ['*', '/'])) := by
    intro c hc
    rw [String.toList_ofList] at hc
    apply h c
    rw [hcode]
    exact List.mem_append_left after hc
  have hlines : ∀ l ∈ (bareLines (String.ofList (['/', '*', '*'] ++ inside ++ ['*', '/']))).filter
      (fun l => l ≠ "" && !startsWith "/" l && !startsWith "@ai" l), OneLine l :=
    fun l hl => oneLine_bareLines hfed l (List.mem_filter.mp hl).1
  dsimp only
  cases htag : taggedLine? _ with
  | some l => exact oneLine_taggedLine? hlines l htag
  | none =>
    rw [Option.getD_none]
    cases hfind : List.find? _ _ with
    | some l => exact hlines l (List.mem_of_find?_eq_some hfind)
    | none => decide

end CodeAtlas.Analysis
