import CodeAtlas.Proofs.Analysis.CallGraph
import CodeAtlas.Proofs.Diagram.File
/-
  Recursion in the diagram of a file.

  The table of calls leaves out a call of a callable to itself. It compares full
  names for that, and a method is called by its own name only; the diagram puts
  the class in front again. So a function that calls itself is drawn without an
  edge, while a method that calls itself gets one from its node to the same node,
  unless there is a function with the method's own name.

  `loopsExact_analyse` says this of every file that is analysed, and
  `method_calls_itself` shows a file with such an edge.
-/

namespace CodeAtlas.Diagram

open CodeAtlas.Analysis CodeAtlas.Syntax

/-! ## Loops among the calls within a file -/

/-- A callee that stands for its own caller is the caller itself, or the own name
of the caller, which is then a method. -/
theorem ResolvesWithin.loop_cases {f : FileOutline} {caller callee target : String}
    (h : ResolvesWithin f caller callee target) (hloop : target = caller) :
    callee = caller ∨ ∃ owner, caller = owner ++ "." ++ callee ∧ '.' ∉ callee.toList ∧
      callee ∉ f.outline.callables := by
  cases h with
  | itself _ => exact Or.inl hloop
  | @sameClass owner own hnot hcaller hown _ =>
    -- the class is put in front of the callee, and it is the caller's own class
    have hcallee : callee = own := by simpa using hloop.trans hcaller
    exact Or.inr ⟨owner, by rw [hcallee, hcaller], hcallee ▸ hown, hnot⟩

/-- When no call of a callable to itself is listed, the loops are the methods that
list their own name, if no function has it. -/
theorem self_mem_localCalls {f : FileOutline} {name : String} (hself : ¬ Calls f name name) :
    (name, name) ∈ localCalls f.outline ↔
      name ∈ f.outline.callables ∧ ∃ owner own, name = owner ++ "." ++ own ∧
        '.' ∉ own.toList ∧ own ∉ f.outline.callables ∧ Calls f name own := by
  rw [mem_localCalls]
  constructor
  · rintro ⟨hname, callee, hcalls, hresolves⟩
    rcases hresolves.loop_cases rfl with rfl | ⟨owner, heq, hown, hnot⟩
    · exact absurd hcalls hself
    · exact ⟨hname, owner, callee, heq, hown, hnot, hcalls⟩
  · rintro ⟨hname, owner, own, heq, hown, hnot, hcalls⟩
    refine ⟨hname, own, hcalls, ?_⟩
    have hresolves : ResolvesWithin f name own (owner ++ "." ++ own) :=
      .sameClass hnot heq hown (heq ▸ hname)
    rwa [← heq] at hresolves

/-! ## Loops of a file that is analysed -/

theorem calls_iff_mem_calleesOf {f : FileOutline} (h : f.outline.calls.keys.Nodup)
    {caller callee : String} : Calls f caller callee ↔ callee ∈ f.outline.calleesOf caller := by
  rw [Outline.calleesOf]
  constructor
  · rintro ⟨callees, hentry, hcallee⟩
    rw [Table.get?_of_mem_entries h hentry]
    exact hcallee
  · intro hcallee
    cases hget : f.outline.calls.get? caller with
    | none => rw [hget] at hcallee; cases hcallee
    | some callees =>
      rw [hget] at hcallee
      exact ⟨callees, Table.mem_entries_of_get? hget, hcallee⟩

/-- The node calls `own` in the method of that name of `owner`. -/
structure IsSelfCall (s : Survey) (n : Cursor) (owner own : String) : Prop where
  undotted : '.' ∉ own.toList
  call : IsCall s n (owner ++ "." ++ own) own

/-- The edges of a diagram that lead from a node to the same node: they are the
calls of methods to themselves, by nodes of the file. -/
structure LoopsExact (nodes : List Cursor) (s : Survey) (f : FileOutline) : Prop where
  text : ∀ text, ofFile f.path f.outline = some text → text = "\n".intercalate (fileLines f)
  loop_iff : ∀ id, (id, id) ∈ edges (fileLines f) ↔
    ∃ n ∈ nodes, ∃ owner own, IsSelfCall s n owner own ∧ own ∉ f.outline.callables ∧
      id = idOf (owner ++ "." ++ own)
  /-- No function has one. -/
  function : ∀ name, '.' ∉ name.toList → (idOf name, idOf name) ∉ edges (fileLines f)

theorem loopsExact_of_exactCalls {nodes : List Cursor} {s : Survey} {f : FileOutline}
    (h : ExactCalls nodes s f.outline) : LoopsExact nodes s f := by
  have hcalls : ∀ caller callee, Calls f caller callee ↔ ∃ n ∈ nodes, IsCall s n caller callee :=
    fun caller callee => (calls_iff_mem_calleesOf h.nodup_callers).trans (h.mem_iff caller callee)
  have hself : ∀ name, ¬ Calls f name name := by
    intro name hname
    obtain ⟨n, -, hcall⟩ := (hcalls name name).mp hname
    exact hcall.other rfl
  have hloop : ∀ name, (idOf name, idOf name) ∈ edges (fileLines f) ↔
      name ∈ f.outline.callables ∧ ∃ owner own, name = owner ++ "." ++ own ∧
        '.' ∉ own.toList ∧ own ∉ f.outline.callables ∧ Calls f name own :=
    fun name => mem_edges_fileLines.trans (self_mem_localCalls (hself name))
  constructor
  case text =>
    intro text htext
    have hne : f.outline.callables ≠ [] := by
      intro hnil
      simp [ofFile, hnil] at htext
    rw [ofFile_eq hne] at htext
    exact (Option.some.inj htext).symm
  case loop_iff =>
    intro id
    constructor
    · intro hid
      -- `id` is a bare text here; it is a name's because it stands on an edge
      obtain ⟨name, -, -, hname, -⟩ := exists_of_mem_edges hid
      rw [hname, hloop] at hid
      obtain ⟨-, owner, own, rfl, hown, hnot, hcall⟩ := hid
      obtain ⟨n, hn, hcall⟩ := (hcalls _ _).mp hcall
      exact ⟨n, hn, owner, own, ⟨hown, hcall⟩, hnot, hname⟩
    · rintro ⟨n, hn, owner, own, hcall, hnot, rfl⟩
      have hlisted := (hcalls _ _).mpr ⟨n, hn, hcall.call⟩
      have hcaller : owner ++ "." ++ own ∈ f.outline.calls.keys := by
        obtain ⟨callees, hentry, -⟩ := hlisted
        exact List.mem_map_of_mem hentry
      exact (hloop _).mpr ⟨h.callers_callable _ hcaller, owner, own, rfl, hcall.undotted, hnot,
        hlisted⟩
  case function =>
    intro name hname hmem
    obtain ⟨-, owner, own, rfl, -⟩ := (hloop name).mp hmem
    simp [String.toList_append] at hname

/-- In the diagram of a file that is analysed, an edge leads from a node to the
same node exactly where a method calls itself and no function has its own name.
A function that calls itself has none. -/
theorem loopsExact_analyse (code : String) (path : Option String) (tree : SyntaxTree Span)
    (m : Outline) (h : analyse code path tree = .ok m) (file : String) :
    ∃ s, survey (tree.locate code) = .ok s ∧
      LoopsExact (Cursor.root (tree.locate code)).preorder s ⟨file, m⟩ := by
  obtain ⟨s, calls, hs, hcalls, rfl⟩ := analyse_eq_ok h
  obtain ⟨found, hpasses⟩ := survey_eq_ok hs
  refine ⟨s, hs, loopsExact_of_exactCalls ?_⟩
  rw [← Cursor.descendants_eq_preorder]
  exact exactCalls_outline (Inventory.holds_collect hpasses.declarations) hcalls _

/-! ## A function and a method that call themselves -/

def recursiveCode : String := "function f()\x7bf()\x7d\nclass A\x7bm()\x7bthis.m()\x7d\x7d\n"

def recursiveTree : SyntaxTree Span :=
  construct .program none 0 41 [
    construct .functionDeclaration none 0 17 [
      construct .identifier (some .name) 9 10 [],
      construct (.other "statement_block") (some .body) 12 17 [
        callStatement 13 16 (construct .identifier (some .function) 13 14 [])]],
    construct .classDeclaration none 18 40 [
      construct .identifier (some .name) 24 25 [],
      construct .classBody (some .body) 25 40 [
        construct .methodDefinition none 26 39 [
          construct .propertyIdentifier (some .name) 26 27 [],
          construct (.other "statement_block") (some .body) 29 39 [
            callStatement 30 38 (construct .memberExpression (some .function) 30 36 [
              construct (.other "this") (some .object) 30 34 [],
              construct .propertyIdentifier (some .property) 35 36 []])]]]]]

def recursiveOutline : Outline :=
  { functions := [⟨"f", "", 1, 1, ""⟩]
    classes := [⟨"A", 2, 2, none, "", [⟨"m", "", 2, false, .method, ""⟩]⟩]
    calls := ⟨[("A.m", ["m"])]⟩ }

theorem loopsExact_analyse_recursive :
    analyse recursiveCode none recursiveTree = .ok recursiveOutline ∧
      ∃ s, survey (recursiveTree.locate recursiveCode) = .ok s ∧
        LoopsExact (Cursor.root (recursiveTree.locate recursiveCode)).preorder s
          ⟨"a.js", recursiveOutline⟩ := by
  have h : analyse recursiveCode none recursiveTree = .ok recursiveOutline := by decide +kernel
  exact ⟨h, loopsExact_analyse recursiveCode none recursiveTree recursiveOutline h "a.js"⟩

/-- A method that calls itself has an edge from its node to the same node. -/
theorem method_calls_itself :
    analyse recursiveCode none recursiveTree = .ok recursiveOutline ∧
      edges (fileLines ⟨"a.js", recursiveOutline⟩) = [("id_A_46_m", "id_A_46_m")] := by
  decide +kernel

end CodeAtlas.Diagram
