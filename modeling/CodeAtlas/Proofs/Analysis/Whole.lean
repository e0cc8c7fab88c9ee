import CodeAtlas.Proofs.Analysis.Exported
import CodeAtlas.Proofs.Analysis.Uses
/-
  A source is refused with its first defect, or it has a whole outline.

  `Whole` says of each field of an outline what it holds, and says it by what
  the nodes of the file make one by one: the declarations that they record
  (`Recordings`), the imports (`ImportSteps`), the exports, uses and calls. An
  outline in which something was left out is not whole.

  What the passes found is put together in `whole_outline`, and
  `answered_analyse` adds that on the tree of a parser no pass fails.
-/

namespace CodeAtlas.Analysis

open CodeAtlas.Syntax

/-! ## What a file holds -/

/-- The imports that the nodes of a file make, in document order. -/
def ImportSteps (root : Node) (steps : List ImportStep) : Prop :=
  ∃ parts, (Cursor.root root).preorder.mapM importSteps = .ok parts ∧ steps = parts.flatten

/-- The members of a module that some imports take, in the order in which they are
first taken. -/
def membersOf (steps : List ImportStep) (module : String) : List String :=
  distinct (steps.filterMap fun s => if s.module = module then s.taken? else none)

/-- The outline has a function or a method of that name, or a method with its class
in front. -/
def Declares (o : Outline) (name : String) : Prop :=
  (∃ f ∈ o.functions, f.name = name) ∨
    ∃ c ∈ o.classes, ∃ m ∈ c.methods, m.name = name ∨ c.qualify m = name

/-- The node is a call from `caller` to `callee`, by the names that a file has in
its outline and by its imports. -/
structure CallsFrom (o : Outline) (steps : List ImportStep) (n : Cursor)
    (caller callee : String) : Prop where
  kind : n.kind = .callExpression
  called : calledName? (namesBound steps).contains n.focus = .ok (some callee)
  around : enclosing? o.callables n = .ok (some caller)
  named : caller ≠ ""
  other : callee ≠ caller
  known : Declares o callee ∨ beforeDot callee ∈ namesBound steps

/-- The outline holds all of a file whose nodes make these declarations and these
imports. -/
structure Whole (code : String) (root : Node) (events : List Declaration)
    (steps : List ImportStep) (o : Outline) : Prop where
  description : o.description = openingDescription code
  modules : o.imports.map (·.module) = distinct (steps.map (·.module))
  members : ∀ i ∈ o.imports, i.members = membersOf steps i.module
  users : ∀ i ∈ o.imports, ∀ c, c ∈ i.usedIn ↔
    ∃ name, standsFor? steps name = some i.module ∧
      ∃ n ∈ (Cursor.root root).preorder, IsUse o.callables n name c
  functions : LastOfEach FunctionEntry.name (events.filterMap Declaration.function?) o.functions
  classes : LastOfEach ClassEntry.name (events.filterMap Declaration.class?) o.classes
  methods : ∀ c ∈ o.classes, ∃ host ∈ (Cursor.root root).preorder, ∃ K,
    Recorded host K (.classDef c) ∧ MembersListed K c.methods
  constants : LastOfEach ConstantEntry.name (events.filterMap Declaration.constant?) o.constants
  exports : ∀ e, e ∈ o.exports ↔
    ∃ stmt ∈ exportStatements root, ∃ source, ExportedFrom stmt source e
  callers : ∀ f, f ∈ o.calls.keys ↔
    ∃ n ∈ (Cursor.root root).preorder, ∃ c, CallsFrom o steps n f c
  callees : ∀ f c, c ∈ o.calleesOf f ↔
    ∃ n ∈ (Cursor.root root).preorder, CallsFrom o steps n f c
  typesOnly : o.typesOnly = true ↔
    ∀ n ∈ root.namedChildren, n.kind = .comment ∨ isTypeStatement n = true

/-! ## Names -/

/-- All that counts of the callables is which they are. -/
theorem isUse_congr {callables callables' : List String}
    (h : ∀ name, name ∈ callables ↔ name ∈ callables') {n : Cursor} {name caller : String} :
    IsUse callables n name caller ↔ IsUse callables' n name caller := by
  have haround := enclosing?_congr h n
  constructor
  · exact fun hu => ⟨hu.kind, hu.text, hu.free, haround ▸ hu.around, hu.named⟩
  · exact fun hu => ⟨hu.kind, hu.text, hu.free, haround ▸ hu.around, hu.named⟩

section

variable {s : Survey} {P : Declaration → Prop} (hs : s.declarations.Holds P)
  (calls : Table String (List String)) (description : String)
include hs

theorem declares_outline (name : String) :
    Declares (s.outline calls description) name ↔ name ∈ s.declarations.declared := by
  rw [Inventory.declared, List.mem_append, ← hs.map_name_functions, Declares]
  refine or_congr List.mem_map.symm ?_
  simp only [List.mem_flatMap, List.mem_cons, List.not_mem_nil, or_false]
  exact exists_congr fun c => and_congr_right fun _ => exists_congr fun m =>
    and_congr_right fun _ => or_congr eq_comm eq_comm

/-- The calls by the names of the outline are those of the file as it was
surveyed. -/
theorem callsFrom_outline {steps : List ImportStep}
    (hnames : s.imports.aliases.keys = namesBound steps) {n : Cursor} {f c : String} :
    CallsFrom (s.outline calls description) steps n f c ↔ IsCall s n f c := by
  have halias : s.imports.aliases.contains = (namesBound steps).contains := by
    funext name
    rw [Bool.eq_iff_iff, Table.contains_eq_true, List.contains_iff_mem, hnames]
  have haround := enclosing?_congr (mem_callables_outline hs calls description) n
  have hknown : Declares (s.outline calls description) c ∨ beforeDot c ∈ namesBound steps ↔
      c ∈ s.declarations.declared ∨ beforeDot c ∈ s.imports.aliases.keys := by
    rw [declares_outline hs, hnames]
  constructor
  · exact fun h => ⟨h.kind, halias ▸ h.called, haround ▸ h.around, h.named, h.other,
      hknown.mp h.known⟩
  · exact fun h => ⟨h.kind, halias ▸ h.called, haround ▸ h.around, h.named, h.other,
      hknown.mpr h.known⟩

end

/-! ## The whole outline -/

/-- The members of the modules in the table of imports. -/
theorem members_entries (steps : List ImportStep) (uses : List (String × String)) :
    ∀ i ∈ (Imports.run (eventsOf steps uses)).entries, i.members = membersOf steps i.module := by
  intro i hi
  rw [Imports.entries, Imports.entries_members_run, List.map_map] at hi
  obtain ⟨module, -, rfl⟩ := List.mem_map.mp hi
  have huses : (uses.map useEvent).filterMap (Imports.Event.memberOf? module) = [] := by
    rw [List.filterMap_map, List.filterMap_eq_nil_iff]
    intro use _
    rfl
  show Imports.takenFrom module (eventsOf steps uses) = membersOf steps module
  rw [Imports.takenFrom, eventsOf, List.filterMap_append, huses, List.append_nil,
    List.filterMap_map, membersOf, distinct_eq_eraseDups]
  rfl

theorem typesOnly_iff {root : Node} : holdsTypesOnly root = true ↔
    ∀ n ∈ root.namedChildren, n.kind = .comment ∨ isTypeStatement n = true := by
  simp [holdsTypesOnly]

/-- What the passes find gives an outline of the whole file. -/
theorem whole_outline (code : String) {root : Node} {s : Survey} (hs : survey root = .ok s)
    {calls : Table String (List String)} (hcalls : s.callsIn root = .ok calls) :
    ∃ events steps, Recordings root events ∧ ImportSteps root steps ∧
      Whole code root events steps (s.outline calls (openingDescription code)) := by
  obtain ⟨found, hpasses⟩ := survey_eq_ok hs
  obtain ⟨events, hevents, hlisted⟩ := exists_recordings hpasses.declarations
  have hholds := Inventory.holds_collect hpasses.declarations
  obtain ⟨lists, outs, hlists, -, hfound, himports⟩ := eq_run_of_passes hpasses
  obtain ⟨lists', hlists', hexact⟩ := exactUses_outline hpasses calls (openingDescription code)
  have hsame : lists' = lists := Except.ok.inj (hlists'.symm.trans hlists)
  subst hsame
  have hnodes : nodesOf root = (Cursor.root root).preorder := Cursor.descendants_eq_preorder _
  have hnames : s.imports.aliases.keys = namesBound lists'.flatten := by
    rw [(withUses_keep hpasses.uses).2, ← hexact.alias_names, Imports.aliasModules, List.map_map]
    rfl
  have hcall : ∀ n f c, CallsFrom (s.outline calls (openingDescription code)) lists'.flatten n f c
      ↔ IsCall s n f c := fun n f c => callsFrom_outline hholds _ _ hnames
  have hgraph := exactCalls_outline hholds hcalls (openingDescription code)
  rw [hnodes] at hexact hgraph hlists'
  refine ⟨events, lists'.flatten, hevents, ⟨lists', hlists', rfl⟩, ?_⟩
  constructor
  case description => rfl
  case modules => exact hexact.modules
  case members =>
    intro i hi
    have hi : i ∈ s.imports.entries := hi
    rw [himports] at hi
    exact members_entries _ _ i hi
  case users =>
    intro i hi c
    simp only [hexact.mem_iff i hi c, isUse_congr (mem_callables_outline hholds _ _)]
  case functions => exact hlisted.functions
  case classes => exact hlisted.classes
  case methods => exact fun c hc => exists_membersListed hpasses.declarations hc
  case constants => exact hlisted.constants
  case exports => exact fun e => mem_exportsOf hpasses.exports
  case callers =>
    intro f
    simp only [hcall]
    constructor
    · intro hf
      obtain ⟨c, hc⟩ := List.exists_mem_of_ne_nil _ (hgraph.callees_ne_nil f hf)
      obtain ⟨n, hn, hnc⟩ := (hgraph.mem_iff f c).mp hc
      exact ⟨n, hn, c, hnc⟩
    · rintro ⟨n, hn, c, hnc⟩
      have hc := (hgraph.mem_iff f c).mpr ⟨n, hn, hnc⟩
      by_contra hf
      rw [Outline.calleesOf, Table.get?_eq_none_iff.mpr hf] at hc
      cases hc
  case callees =>
    intro f c
    simp only [hcall]
    exact hgraph.mem_iff f c
  case typesOnly =>
    show s.typesOnly = true ↔ _
    rw [typesOnly_of_survey hs, typesOnly_iff]

/-! ## Sources and their trees -/

/-- What comes of a source: a report of its first defect, or an outline of the
whole file, and no pass that fails. -/
structure Answered (code : String) (path : Option String) (tree : SyntaxTree Span) : Prop where
  refused : ∀ bad, (tree.locate code).defect? = some bad → ∃ message,
    analyse code path tree =
      .error (.syntaxError ⟨message, bad.extent.start.row + 1, bad.extent.start.column⟩)
  outlined : (tree.locate code).defect? = none → ∃ events steps o,
    Recordings (tree.locate code) events ∧ ImportSteps (tree.locate code) steps ∧
      analyse code path tree = .ok o ∧ Whole code (tree.locate code) events steps o
  /-- The passes do not fail on a tree that is refused, either. -/
  imports : Answers (importsIn (nodesOf (tree.locate code)))
  declarations : Answers (Inventory.collect (nodesOf (tree.locate code)))
  exports : Answers (exportsOf (tree.locate code))
  /-- Whatever the table holds, each use that is noted is of a name in it. -/
  uses : ∀ callables (t : Imports), Answers (withUses (nodesOf (tree.locate code)) callables t)
  calls : ∀ isAlias declared callables,
    Answers (callTable (nodesOf (tree.locate code)) isAlias declared callables)

/-- A source is refused exactly when its tree has a defect, with the place of
that defect, and otherwise has a whole outline. -/
theorem answered_analyse {code : String} {tree : SyntaxTree Span} (h : WellPlaced code tree)
    (path : Option String) : Answered code path tree where
  refused bad hbad := by
    obtain ⟨message, hmessage⟩ :=
      h.readable_locate.syntaxErrorAt path (SyntaxTree.mem_preorder_of_defect? hbad)
    refine ⟨message, ?_⟩
    simp only [analyse, readTree, hbad, hmessage]
    rfl
  outlined hnone := by
    obtain ⟨s, calls, hs, hcalls⟩ := h.exists_survey
    obtain ⟨events, steps, hevents, hsteps, hwhole⟩ := whole_outline code hs hcalls
    exact ⟨events, steps, _, hevents, hsteps, analyse_of_survey hnone hs hcalls, hwhole⟩
  imports := h.readable_locate.importsIn
  declarations := h.readable_locate.collect
  exports := h.readable_locate.exportsOf h.specifiers_locate
  uses callables t := h.readable_locate.withUses h.kind_locate_ne callables t
  calls := h.readable_locate.callTable h.kind_locate_ne

theorem answered_analyse_sample :
    (WellPlaced sampleCode sampleTree ∧ analyse sampleCode none sampleTree = .ok sampleOutline ∧
      ∃ events steps, Recordings (sampleTree.locate sampleCode) events ∧
        ImportSteps (sampleTree.locate sampleCode) steps ∧
        Whole sampleCode (sampleTree.locate sampleCode) events steps sampleOutline) ∧
      WellPlaced brokenCode brokenTree ∧
      ∃ message, analyse brokenCode none brokenTree = .error (.syntaxError ⟨message, 1, 2⟩) := by
  have hsample : WellPlaced sampleCode sampleTree :=
    ⟨by decide +kernel, by decide +kernel, by decide +kernel, by decide⟩
  have hbroken : WellPlaced brokenCode brokenTree :=
    ⟨by decide +kernel, by decide +kernel, by decide +kernel, by decide⟩
  have houtline : analyse sampleCode none sampleTree = .ok sampleOutline := by decide +kernel
  obtain ⟨events, steps, o, hevents, hsteps, ho, hwhole⟩ :=
    (answered_analyse hsample none).outlined (by decide +kernel)
  rw [houtline] at ho
  cases ho
  refine ⟨⟨hsample, houtline, events, steps, hevents, hsteps, hwhole⟩, hbroken, ?_⟩
  exact (answered_analyse hbroken none).refused _ rfl

end CodeAtlas.Analysis
