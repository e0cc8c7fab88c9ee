import CodeAtlas.Proofs.Analysis.CallGraph
/-
  The callables that use an imported module, exactly.

  `IsUse` says, node by node, what the use of a local name is, and
  `standsFor?` which module a name stands for once all imports of the file are
  known: that of the last import which binds it. A module is used by the
  callables that use one of its names, and they are listed name by name, in
  the order in which the names were first bound; for one name they stand in
  the order in which the document first has them use it (`UsedBefore`).

  The two passes are one run of events, first the imports and then the uses
  (`eq_run_of_passes`). So each name has the users of the whole list of uses
  (`get?_aliases_events`), and the users of a module are put together from
  those of its names (`usersOf_events`).
-/

namespace CodeAtlas.Analysis

open CodeAtlas.Syntax

/-! ## Uses -/

/-- The node stands where a name is bound: it is the name of a variable, or
part of an import or of a pair in a pattern. -/
def IsBindingSite (n : Cursor) : Prop :=
  ∃ p, n.parent? = some p ∧
    (p.kind = .variableDeclarator ∧ n.fills .name = true ∨
      p.kind ∈ [.importSpecifier, .importClause, .namespaceImport, .importRequireClause,
        .pairPattern])

theorem bindsName_iff {n : Cursor} : bindsName n = true ↔ IsBindingSite n := by
  unfold bindsName IsBindingSite
  cases n.parent? with
  | none => simp
  | some p =>
    simp only [Option.some.injEq, exists_eq_left']
    cases p.kind <;> simp

/-- The node uses a local name inside a callable. -/
structure IsUse (callables : List String) (n : Cursor) (name caller : String) : Prop where
  kind : n.kind = .identifier ∨ n.kind = .shorthandPropertyIdentifier
  text : n.text = .ok name
  free : ¬ IsBindingSite n
  around : enclosing? callables n = .ok (some caller)
  named : caller ≠ ""

section

variable {isAlias : String → Bool} {callables : List String} {n : Cursor} {name caller : String}

theorem usedAlias?_eq_ok_some :
    usedAlias? isAlias n = .ok (some name) ↔
      (n.kind = .identifier ∨ n.kind = .shorthandPropertyIdentifier) ∧ n.text = .ok name ∧
        isAlias name = true ∧ ¬ IsBindingSite n := by
  unfold usedAlias?
  rw [← bindsName_iff]
  constructor
  · intro h
    split at h
    · next hkind =>
      obtain ⟨text, htext, h⟩ := bind_eq_ok.mp h
      split at h
      · next hused =>
        cases pure_eq_ok.mp h
        rw [Bool.and_eq_true, Bool.not_eq_true'] at hused
        exact ⟨hkind, htext, hused.1, by simp [hused.2]⟩
      · cases pure_eq_ok.mp h
    · cases pure_eq_ok.mp h
  · intro ⟨hkind, htext, halias, hfree⟩
    rw [if_pos hkind]
    refine bind_eq_ok.mpr ⟨name, htext, ?_⟩
    rw [if_pos (by simp [halias, hfree])]
    rfl

/-- The node makes a use exactly when it is one, and the name is imported. -/
theorem useAt?_eq_ok_some :
    useAt? isAlias callables n = .ok (some (name, caller)) ↔
      IsUse callables n name caller ∧ isAlias name = true := by
  unfold useAt?
  constructor
  · intro h
    obtain ⟨used, hused, h⟩ := bind_eq_ok.mp h
    cases used with
    | none => cases pure_eq_ok.mp h
    | some used =>
      obtain ⟨around, haround, h⟩ := bind_eq_ok.mp h
      have hmap := pure_eq_ok.mp h
      obtain ⟨scope, hfilter, hpair⟩ := Option.map_eq_some_iff.mp hmap
      cases hpair
      obtain ⟨rfl, hnamed⟩ := Option.filter_eq_some_iff.mp hfilter
      obtain ⟨hkind, htext, halias, hfree⟩ := usedAlias?_eq_ok_some.mp hused
      exact ⟨⟨hkind, htext, hfree, haround, by simpa using hnamed⟩, halias⟩
  · intro ⟨huse, halias⟩
    refine bind_eq_ok.mpr ⟨some name, ?_, bind_eq_ok.mpr ⟨some caller, huse.around, ?_⟩⟩
    · exact usedAlias?_eq_ok_some.mpr ⟨huse.kind, huse.text, halias, huse.free⟩
    · simp [pure_eq_ok, Option.filter, huse.named]

/-- A use is made by one of the callables. -/
theorem IsUse.caller_mem (h : IsUse callables n name caller) : caller ∈ callables := by
  obtain ⟨scope, -, -, hcaller⟩ := enclosing?_eq_ok_some.mp h.around
  exact hcaller

end

/-! ## The names of a module -/

/-- The module that a local name stands for: that of the last import which
binds it. -/
def standsFor? (steps : List ImportStep) (name : String) : Option String :=
  (steps.filter fun s => s.bound? = some name).getLast?.map (·.module)

/-- The local names, in the order in which they are first bound. -/
def namesBound (steps : List ImportStep) : List String := distinct (steps.filterMap (·.bound?))

/-- The local names that stand for a module, in the order in which they are
first bound. -/
def namesOf (steps : List ImportStep) (module : String) : List String :=
  (namesBound steps).filter fun name => standsFor? steps name = some module

section

variable {steps : List ImportStep} {uses : List (String × String)} {name caller module : String}

theorem mem_namesBound_of_standsFor? (h : standsFor? steps name = some module) :
    name ∈ namesBound steps := by
  obtain ⟨s, hs, -⟩ := Option.map_eq_some_iff.mp h
  have hmem := List.mem_filter.mp (List.mem_of_getLast? hs)
  rw [namesBound, mem_distinct, List.mem_filterMap]
  exact ⟨s, hmem.1, by simpa using hmem.2⟩

theorem mem_namesOf : name ∈ namesOf steps module ↔ standsFor? steps name = some module := by
  rw [namesOf, List.mem_filter, decide_eq_true_eq]
  exact ⟨fun h => h.2, fun h => ⟨mem_namesBound_of_standsFor? h, h⟩⟩

/-! ## The run of a file -/

/-- The event of a use. -/
def useEvent (use : String × String) : Imports.Event := .use use.1 use.2

/-- The events of a file: all imports, and then all uses. -/
def eventsOf (steps : List ImportStep) (uses : List (String × String)) : List Imports.Event :=
  steps.map .add ++ uses.map useEvent

/-- The callables that use a name, in the order of their first uses. -/
def callersIn (uses : List (String × String)) (name : String) : List String :=
  distinct (uses.filterMap (Imports.Event.callerOf? name ∘ useEvent))

theorem callerOf?_useEvent {use : String × String} :
    (Imports.Event.callerOf? name ∘ useEvent) use = some caller ↔ use = (name, caller) := by
  obtain ⟨used, user⟩ := use
  simp [useEvent, Imports.Event.callerOf?]

theorem mem_callersIn : caller ∈ callersIn uses name ↔ (name, caller) ∈ uses := by
  rw [callersIn, mem_distinct, List.mem_filterMap]
  simp only [callerOf?_useEvent, exists_eq_right]

/-- Noting uses, none of which is refused, is the run of their events. -/
theorem eq_foldl_of_noteUses {t t' : Imports} (h : uses.foldlM noteUse t = .ok t') :
    t' = (uses.map useEvent).foldl Imports.step t := by
  induction uses generalizing t with
  | nil =>
    cases h
    rfl
  | cons use uses ih =>
    rw [List.foldlM_cons] at h
    obtain ⟨t₁, hnote, h⟩ := bind_eq_ok.mp h
    have hstep : t.step (useEvent use) = t₁ := by
      show (t.noteUser? use.1 use.2).getD t = t₁
      rw [noteUse_eq_ok.mp hnote]
      rfl
    rw [List.map_cons, List.foldl_cons, hstep]
    exact ih h

theorem filterMap_bound?_eventsOf (steps : List ImportStep) (uses : List (String × String)) :
    (eventsOf steps uses).filterMap Imports.Event.bound? = steps.filterMap (·.bound?) := by
  have huses : (uses.map useEvent).filterMap Imports.Event.bound? = [] := by
    rw [List.filterMap_map, List.filterMap_eq_nil_iff]
    intro use _
    rfl
  rw [eventsOf, List.filterMap_append, huses, List.append_nil, List.filterMap_map]
  rfl

theorem boundNames_eventsOf (steps : List ImportStep) (uses : List (String × String)) :
    Imports.boundNames (eventsOf steps uses) = namesBound steps := by
  rw [Imports.boundNames, filterMap_bound?_eventsOf, ← distinct_eq_eraseDups, namesBound]

theorem add_notMem_map_useEvent (uses : List (String × String)) (s : ImportStep) :
    .add s ∉ uses.map useEvent := by
  intro h
  obtain ⟨use, -, heq⟩ := List.mem_map.mp h
  cases heq

/-- The last import of a name is one of the imports, and all uses come since. -/
theorem exists_of_lastBound {s : ImportStep} {since : List Imports.Event}
    (h : Imports.LastBound (eventsOf steps uses) name s since) :
    ∃ before after, steps = before ++ s :: after ∧ since = after.map .add ++ uses.map useEvent := by
  obtain ⟨before, hsplit⟩ := h.split
  rcases List.append_eq_append_iff.mp hsplit with ⟨more, -, huses⟩ | ⟨more, hsteps, hsince⟩
  · exact absurd (by simp [huses]) (add_notMem_map_useEvent uses s)
  · rcases List.cons_eq_append_iff.mp hsince with ⟨-, huses⟩ | ⟨later, rfl, hlater⟩
    · exact absurd (by simp [huses]) (add_notMem_map_useEvent uses s)
    · obtain ⟨front, back, rfl, -, hback⟩ := List.map_eq_append_iff.mp hsteps
      obtain ⟨s', after, rfl, hs, hafter⟩ := List.map_eq_cons_iff.mp hback
      cases hs
      exact ⟨front, after, rfl, by rw [hlater, hafter]⟩

theorem standsFor?_of_lastBound {s : ImportStep} {since : List Imports.Event}
    (h : Imports.LastBound (eventsOf steps uses) name s since) :
    standsFor? steps name = some s.module := by
  obtain ⟨before, after, rfl, rfl⟩ := exists_of_lastBound h
  have hafter : after.filter (fun s => s.bound? = some name) = [] := by
    rw [List.filter_eq_nil_iff]
    intro t ht
    have hlast : t.bound? ≠ some name :=
      h.last (.add t) (List.mem_append_left _ (List.mem_map_of_mem ht))
    simpa using hlast
  simp [standsFor?, List.filter_append, h.binds, hafter]

theorem callersOf_of_lastBound {s : ImportStep} {since : List Imports.Event}
    (h : Imports.LastBound (eventsOf steps uses) name s since) :
    Imports.callersOf name since = callersIn uses name := by
  obtain ⟨before, after, -, rfl⟩ := exists_of_lastBound h
  have hafter : (after.map Imports.Event.add).filterMap (Imports.Event.callerOf? name) = [] := by
    rw [List.filterMap_map, List.filterMap_eq_nil_iff]
    intro t _
    rfl
  rw [Imports.callersOf, List.filterMap_append, hafter, List.nil_append, List.filterMap_map,
    ← distinct_eq_eraseDups, callersIn]

/-- A name stands for its module, with all of its users. -/
theorem get?_aliases_eventsOf (uses : List (String × String)) (hname : name ∈ namesBound steps) :
    ∃ module, standsFor? steps name = some module ∧
      (Imports.run (eventsOf steps uses)).aliases.get? name
        = some ⟨module, callersIn uses name⟩ := by
  rw [← boundNames_eventsOf steps uses] at hname
  obtain ⟨s, since, hlast, hget⟩ := Imports.get?_aliases_run hname
  rw [callersOf_of_lastBound hlast] at hget
  exact ⟨s.module, standsFor?_of_lastBound hlast, hget⟩

theorem entries_aliases_eventsOf (steps : List ImportStep) (uses : List (String × String)) :
    (Imports.run (eventsOf steps uses)).aliases.entries = (namesBound steps).map fun name =>
      (name, ⟨(standsFor? steps name).getD "", callersIn uses name⟩) := by
  have hkeys := Imports.keys_aliases_run (eventsOf steps uses)
  rw [boundNames_eventsOf] at hkeys
  rw [← hkeys]
  apply Table.entries_eq_map
  · rw [hkeys]
    exact nodup_distinct _
  · intro name hname
    rw [hkeys] at hname
    obtain ⟨module, hmodule, hget⟩ := get?_aliases_eventsOf uses hname
    rw [hget, hmodule]
    rfl

/-- The users of a module are put together from the users of its names. -/
theorem usersOf_eventsOf (steps : List ImportStep) (uses : List (String × String))
    (module : String) :
    (Imports.run (eventsOf steps uses)).usersOf module
      = distinct ((namesOf steps module).flatMap (callersIn uses)) := by
  rw [Imports.usersOf, Table.values, entries_aliases_eventsOf, List.map_map, List.filter_map,
    List.flatMap_map, namesOf]
  congr 2
  apply List.filter_congr
  intro name hname
  obtain ⟨standing, hstanding, -⟩ := get?_aliases_eventsOf uses hname
  simp [hstanding]

theorem mem_aliasModules_eventsOf :
    (name, module) ∈ (Imports.run (eventsOf steps uses)).aliasModules ↔
      standsFor? steps name = some module := by
  rw [Imports.aliasModules, entries_aliases_eventsOf, List.map_map, List.mem_map]
  constructor
  · rintro ⟨name', hname', heq⟩
    obtain ⟨standing, hstanding, -⟩ := get?_aliases_eventsOf uses hname'
    simp only [Function.comp_apply, hstanding, Option.getD_some, Prod.mk.injEq] at heq
    rw [← heq.1, ← heq.2, hstanding]
  · intro h
    exact ⟨name, mem_namesBound_of_standsFor? h, by simp [h]⟩

end

/-! ## The users of a module -/

/-- The steps and the uses that the passes over a file found, and the tables
that these give. -/
theorem eq_run_of_passes {root : Node} {found : Imports} {s : Survey}
    (h : Passes root found s) :
    ∃ lists outs, (nodesOf root).mapM importSteps = .ok lists ∧
      (nodesOf root).mapM (useAt? found.aliases.contains s.declarations.callables) = .ok outs ∧
      found = Imports.run (eventsOf lists.flatten []) ∧
      s.imports = Imports.run (eventsOf lists.flatten (outs.filterMap id)) := by
  obtain ⟨lists, hlists, hfound⟩ := bind_eq_ok.mp h.imports
  obtain ⟨outs, houts, huses⟩ := bind_eq_ok.mp h.uses
  have hrun : found = (lists.flatten.map Imports.Event.add).foldl Imports.step .empty := by
    rw [List.foldl_map]
    exact (pure_eq_ok.mp hfound).symm
  refine ⟨lists, outs, hlists, houts, ?_, ?_⟩
  · rw [hrun, eventsOf, List.map_nil, List.append_nil]
    rfl
  · rw [eq_foldl_of_noteUses huses, Imports.run, eventsOf, List.foldl_append, ← hrun]

section

variable {nodes : List Cursor} {isAlias : String → Bool} {callables : List String}
  {outs : List (Option (String × String))} {name caller : String}

/-- The listed uses of an imported name are those of the nodes. -/
theorem mem_uses_iff (h : nodes.mapM (useAt? isAlias callables) = .ok outs)
    (halias : isAlias name = true) :
    (name, caller) ∈ outs.filterMap id ↔ ∃ n ∈ nodes, IsUse callables n name caller := by
  rw [mem_filterMap_mapM h]
  simp only [useAt?_eq_ok_some, halias, and_true]

theorem callers_firstUse (h : nodes.mapM (useAt? isAlias callables) = .ok outs)
    (halias : isAlias name = true) {c d : String}
    (hlead : Leads (callersIn (outs.filterMap id) name) c d) :
    FirstBefore nodes (fun n => IsUse callables n name c) (fun n => IsUse callables n name d) := by
  apply (firstBefore_of_leads h hlead.of_distinct).congr
  · intro n ⟨use, huse, hc⟩
    rw [callerOf?_useEvent.mp hc] at huse
    exact (useAt?_eq_ok_some.mp huse).1
  · intro n huse
    exact ⟨(name, d), useAt?_eq_ok_some.mpr ⟨huse, halias⟩, callerOf?_useEvent.mpr rfl⟩

end

/-- Of some names, the first that `c` or `d` uses is one that `c` uses, and `c`
does so before `d`. -/
def UsedBefore (nodes : List Cursor) (callables names : List String) (c d : String) : Prop :=
  ∃ before name after, names = before ++ name :: after ∧
    (∀ other ∈ before, ∀ n ∈ nodes, ¬ IsUse callables n other c ∧ ¬ IsUse callables n other d) ∧
    FirstBefore nodes (fun n => IsUse callables n name c) (fun n => IsUse callables n name d)

/-- The users of the modules in an outline are exact for the nodes of a file
and the imports that these make: who they are, that none is repeated, and their
order. -/
structure ExactUses (nodes : List Cursor) (callables : List String) (found : Imports)
    (steps : List ImportStep) (m : Outline) : Prop where
  /-- The table of imports has the names in the order in which they are first
  bound, each with the module that it stands for. -/
  alias_names : found.aliasModules.map Prod.fst = namesBound steps
  alias_module : ∀ name module,
    (name, module) ∈ found.aliasModules ↔ standsFor? steps name = some module
  modules : m.imports.map (·.module) = distinct (steps.map (·.module))
  mem_iff : ∀ i ∈ m.imports, ∀ c, c ∈ i.usedIn ↔
    ∃ name, standsFor? steps name = some i.module ∧ ∃ n ∈ nodes, IsUse callables n name c
  nodup : ∀ i ∈ m.imports, i.usedIn.Nodup
  callable : ∀ i ∈ m.imports, ∀ c ∈ i.usedIn, c ∈ m.callables
  ordered : ∀ i ∈ m.imports,
    i.usedIn.Pairwise (UsedBefore nodes callables (namesOf steps i.module))

theorem map_module_entries (steps : List ImportStep) (uses : List (String × String)) :
    (Imports.run (eventsOf steps uses)).entries.map (·.module)
      = distinct (steps.map (·.module)) := by
  have huses : (uses.map useEvent).filterMap Imports.Event.module? = [] := by
    rw [List.filterMap_map, List.filterMap_eq_nil_iff]
    intro use _
    rfl
  have hsteps : (steps.map Imports.Event.add).filterMap Imports.Event.module?
      = steps.map (·.module) := by
    rw [List.filterMap_map, ← List.filterMap_eq_map]
    rfl
  calc (Imports.run (eventsOf steps uses)).entries.map (·.module)
      = (Imports.run (eventsOf steps uses)).members.keys := by
        rw [Imports.entries, List.map_map]
        rfl
    _ = Imports.addedModules (eventsOf steps uses) := Imports.keys_members_run _
    _ = distinct (steps.map (·.module)) := by
        rw [Imports.addedModules, eventsOf, List.filterMap_append, hsteps, huses,
          List.append_nil, distinct_eq_eraseDups]

theorem exactUses_outline {root : Node} {found : Imports} {s : Survey} (h : Passes root found s)
    (calls : Table String (List String)) (description : String) :
    ∃ lists, (nodesOf root).mapM importSteps = .ok lists ∧
      ExactUses (nodesOf root) s.declarations.callables found lists.flatten
        (s.outline calls description) := by
  obtain ⟨lists, outs, hlists, houts, hfound, himports⟩ := eq_run_of_passes h
  refine ⟨lists, hlists, ?_⟩
  have hentries : (s.outline calls description).imports
      = (Imports.run (eventsOf lists.flatten (outs.filterMap id))).entries := by
    rw [← himports]
    rfl
  have husedIn : ∀ i ∈ (s.outline calls description).imports, i.usedIn
      = distinct ((namesOf lists.flatten i.module).flatMap (callersIn (outs.filterMap id))) := by
    intro i hi
    rw [hentries] at hi
    obtain ⟨e, -, rfl⟩ := List.mem_map.mp hi
    exact usersOf_eventsOf _ _ _
  -- a name that stands for a module is one that uses are looked for
  have halias : ∀ {name module}, standsFor? lists.flatten name = some module →
      found.aliases.contains name = true := by
    intro name module hname
    rw [Table.contains_eq_true, hfound, Imports.keys_aliases_run, boundNames_eventsOf]
    exact mem_namesBound_of_standsFor? hname
  have hmem : ∀ i ∈ (s.outline calls description).imports, ∀ c, c ∈ i.usedIn ↔
      ∃ name, standsFor? lists.flatten name = some i.module ∧
        ∃ n ∈ nodesOf root, IsUse s.declarations.callables n name c := by
    intro i hi c
    rw [husedIn i hi, mem_distinct, List.mem_flatMap]
    simp only [mem_namesOf, mem_callersIn]
    apply exists_congr
    intro name
    apply and_congr_right
    intro hname
    exact mem_uses_iff houts (halias hname)
  constructor
  case alias_names =>
    rw [hfound, ← boundNames_eventsOf lists.flatten [], ← Imports.keys_aliases_run,
      Imports.aliasModules, List.map_map]
    rfl
  case alias_module =>
    intro name module
    rw [hfound]
    exact mem_aliasModules_eventsOf
  case modules =>
    rw [hentries]
    exact map_module_entries _ _
  case mem_iff => exact hmem
  case nodup =>
    intro i hi
    rw [husedIn i hi]
    exact nodup_distinct _
  case callable =>
    intro i hi c hc
    obtain ⟨name, -, n, -, huse⟩ := (hmem i hi c).mp hc
    exact (mem_callables_outline (Inventory.holds_collect h.declarations) _ _ c).mpr
      huse.caller_mem
  case ordered =>
    intro i hi
    rw [husedIn i hi]
    refine (pairwise_distinct _).imp ?_
    intro c d hlead
    obtain ⟨before, name, after, hnames, hbefore, hname⟩ := hlead.of_flatMap
    have hstands : ∀ other ∈ before ++ name :: after,
        found.aliases.contains other = true := fun other hother =>
      halias (mem_namesOf.mp (hnames ▸ hother))
    refine ⟨before, name, after, hnames, ?_, callers_firstUse houts (hstands name (by simp)) hname⟩
    intro other hother n hn
    have halias := hstands other (List.mem_append_left _ hother)
    obtain ⟨hc, hd⟩ := hbefore other hother
    rw [mem_callersIn, mem_uses_iff houts halias] at hc hd
    exact ⟨fun huse => hc ⟨n, hn, huse⟩, fun huse => hd ⟨n, hn, huse⟩⟩

/-- The users of the imported modules are exact in every file that is
analysed: they are the callables around the uses of the names that stand for
the module in the end, name by name and in document order. -/
theorem uses_exact (code : String) (path : Option String) (tree : SyntaxTree Span) (m : Outline)
    (h : analyse code path tree = .ok m) :
    ∃ s found lists, survey (tree.locate code) = .ok s ∧
      importsIn (Cursor.root (tree.locate code)).preorder = .ok found ∧
      (Cursor.root (tree.locate code)).preorder.mapM importSteps = .ok lists ∧
      ExactUses (Cursor.root (tree.locate code)).preorder s.declarations.callables found
        lists.flatten m := by
  obtain ⟨s, calls, hs, -, rfl⟩ := analyse_eq_ok h
  obtain ⟨found, hpasses⟩ := survey_eq_ok hs
  obtain ⟨lists, hlists, hexact⟩ := exactUses_outline hpasses calls (openingDescription code)
  refine ⟨s, found, lists, hs, ?_⟩
  rw [← Cursor.descendants_eq_preorder]
  exact ⟨hpasses.imports, hlists, hexact⟩

/-! ## A file with several names of one module -/

/-- Two names of one module are used in an order other than that in which they
are bound, and a third is bound again. -/
def rebindingCode : String :=
  "import a,\x7bb,c\x7d from 'm'\nimport c from 'n'\nfunction f()\x7bb(c)\x7d\n"
    ++ "function g()\x7ba();b()\x7d\n"

def rebindingTree : SyntaxTree Span :=
  construct .program none 0 83 [
    construct .importStatement none 0 23 [
      construct .importClause none 7 14 [
        construct .identifier none 7 8 [],
        construct .namedImports none 9 14 [
          construct .importSpecifier none 10 11 [construct .identifier (some .name) 10 11 []],
          construct .importSpecifier none 12 13 [construct .identifier (some .name) 12 13 []]]],
      construct .string (some .source) 20 23 []],
    construct .importStatement none 24 41 [
      construct .importClause none 31 32 [construct .identifier none 31 32 []],
      construct .string (some .source) 38 41 []],
    construct .functionDeclaration none 42 60 [
      construct .identifier (some .name) 51 52 [],
      construct (.other "statement_block") (some .body) 54 60 [
        construct .callExpression none 55 59 [
          construct .identifier (some .function) 55 56 [],
          construct (.other "arguments") (some .arguments) 56 59 [
            construct .identifier none 57 58 []]]]],
    construct .functionDeclaration none 61 82 [
      construct .identifier (some .name) 70 71 [],
      construct (.other "statement_block") (some .body) 73 82 [
        callStatement 74 77 (construct .identifier (some .function) 74 75 []),
        callStatement 78 81 (construct .identifier (some .function) 78 79 [])]]]

def rebindingOutline : Outline :=
  { description := ""
    imports := [⟨"m", ["default", "b", "c"], ["g", "f"]⟩, ⟨"n", ["default"], ["f"]⟩]
    functions := [⟨"f", "", 3, 3, ""⟩, ⟨"g", "", 4, 4, ""⟩]
    calls := ⟨[("f", ["b"]), ("g", ["a", "b"])]⟩ }

theorem uses_exact_rebinding :
    analyse rebindingCode none rebindingTree = .ok rebindingOutline ∧
      ∃ s found lists, survey (rebindingTree.locate rebindingCode) = .ok s ∧
        importsIn (Cursor.root (rebindingTree.locate rebindingCode)).preorder = .ok found ∧
        (Cursor.root (rebindingTree.locate rebindingCode)).preorder.mapM importSteps
          = .ok lists ∧
        ExactUses (Cursor.root (rebindingTree.locate rebindingCode)).preorder
          s.declarations.callables found lists.flatten rebindingOutline := by
  have h : analyse rebindingCode none rebindingTree = .ok rebindingOutline := by decide +kernel
  exact ⟨h, uses_exact rebindingCode none rebindingTree rebindingOutline h⟩

end CodeAtlas.Analysis
