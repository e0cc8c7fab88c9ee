import CodeAtlas.Proofs.Analysis.Complete
import CodeAtlas.Proofs.Analysis.Recorded
/-
  Names that are declared more than once.

  The nodes of a file make declarations one after the other, in document order
  (`Recordings`). What is listed in the end is known from them alone:
  `LastOfEach` says that each name is listed once, at the place of its first
  declaration, and as its last one has it. Every table is of this kind
  (`lastOfEach_ofList`), so the functions, the classes and the constants of a
  file are (`listed_foldl_add`), and so are the methods of each class, which
  are told apart by name, by being static and by being accessors
  (`membersListed_of_methodsOf`).
-/

namespace CodeAtlas

/-! ## Lists in which the last one counts -/

section

variable {α κ : Type} [DecidableEq κ]

/-- What is kept of a list of events, when an event takes the place of the ones
before it with the same key. -/
structure LastOfEach (key : α → κ) (events kept : List α) : Prop where
  /-- No key is kept twice. -/
  nodup : (kept.map key).Nodup
  /-- No key is lost, and none is made up. -/
  keys : ∀ k, k ∈ kept.map key ↔ k ∈ events.map key
  /-- Of two keys the one that comes up first stands first. -/
  ordered : (kept.map key).Pairwise (Leads (events.map key))
  /-- Under each key stands its last event. -/
  last : ∀ e ∈ kept, (events.filter fun x => key x = key e).getLast? = some e

theorem LastOfEach.exists_of_mem {key : α → κ} {events kept : List α}
    (h : LastOfEach key events kept) {e : α} (he : e ∈ events) : ∃ x ∈ kept, key x = key e :=
  List.mem_map.mp ((h.keys (key e)).mpr (List.mem_map_of_mem he))

theorem lastOfEach_ofList (key : α → κ) (events : List α) :
    LastOfEach key events (Table.ofList (events.map fun e => (key e, e))).values := by
  have hfst : (events.map fun e => (key e, e)).map Prod.fst = events.map key := by
    rw [List.map_map]
    rfl
  have hkeys := Table.keys_ofList (events.map fun e => (key e, e))
  rw [hfst] at hkeys
  -- every event stands under its own key
  have hown : ∀ x ∈ (Table.ofList (events.map fun e => (key e, e))).entries, key x.2 = x.1 := by
    intro x hx
    obtain ⟨e, -, rfl⟩ := List.mem_map.mp (Table.mem_of_mem_entries_ofList hx)
    rfl
  have hkept : (Table.ofList (events.map fun e => (key e, e))).values.map key
      = distinct (events.map key) := by
    rw [Table.values, List.map_map, ← hkeys]
    exact List.map_congr_left hown
  constructor
  case nodup =>
    rw [hkept]
    exact nodup_distinct _
  case keys =>
    intro k
    rw [hkept]
    exact mem_distinct
  case ordered =>
    rw [hkept]
    exact pairwise_distinct _
  case last =>
    intro e he
    obtain ⟨x, hx, rfl⟩ := List.mem_map.mp he
    have hget := Table.get?_of_mem_entries (hkeys ▸ nodup_distinct _) hx
    rw [Table.get?_ofList, List.filter_map, List.getLast?_map, Option.map_map, ← hown x hx] at hget
    obtain ⟨y, hy, hyx⟩ := Option.map_eq_some_iff.mp hget
    replace hyx : y = x.2 := hyx
    rw [hyx] at hy
    exact hy

end

namespace Analysis

open CodeAtlas.Syntax

/-! ## Functions, classes and constants -/

/-- What an inventory lists of some declarations. -/
structure Listed (events : List Declaration) (ds : Inventory) : Prop where
  functions : LastOfEach FunctionEntry.name (events.filterMap Declaration.function?)
    ds.functions.values
  classes : LastOfEach ClassEntry.name (events.filterMap Declaration.class?) ds.classes.values
  constants : LastOfEach ConstantEntry.name (events.filterMap Declaration.constant?)
    ds.constants.values

/-- Declarations of one sort go into the table of that sort. -/
theorem foldl_add (events : List Declaration) (ds : Inventory) :
    events.foldl Inventory.add ds =
      { functions := (events.filterMap Declaration.function?).foldl
          (fun t f => t.insert f.name f) ds.functions
        classes := (events.filterMap Declaration.class?).foldl
          (fun t c => t.insert c.name c) ds.classes
        constants := (events.filterMap Declaration.constant?).foldl
          (fun t k => t.insert k.name k) ds.constants } := by
  induction events generalizing ds with
  | nil => rfl
  | cons d events ih =>
    rw [List.foldl_cons, ih]
    cases d <;> rfl

theorem listed_foldl_add (events : List Declaration) : Listed events (events.foldl .add {}) := by
  rw [foldl_add]
  constructor
  case functions =>
    have h := lastOfEach_ofList FunctionEntry.name (events.filterMap Declaration.function?)
    rwa [Table.ofList, List.foldl_map] at h
  case classes =>
    have h := lastOfEach_ofList ClassEntry.name (events.filterMap Declaration.class?)
    rwa [Table.ofList, List.foldl_map] at h
  case constants =>
    have h := lastOfEach_ofList ConstantEntry.name (events.filterMap Declaration.constant?)
    rwa [Table.ofList, List.foldl_map] at h

/-- The declarations that the nodes of a file make, in document order. -/
def Recordings (root : Node) (events : List Declaration) : Prop :=
  ∃ parts, (Cursor.root root).preorder.mapM declarationsAt = .ok parts ∧ events = parts.flatten

theorem exists_recordings {root : Node} {ds : Inventory}
    (h : Inventory.collect (nodesOf root) = .ok ds) :
    ∃ events, Recordings root events ∧ Listed events ds := by
  obtain ⟨parts, hparts, h⟩ := bind_eq_ok.mp h
  rw [nodesOf, Cursor.descendants_eq_preorder] at hparts
  refine ⟨parts.flatten, ⟨parts, hparts, rfl⟩, ?_⟩
  rw [← pure_eq_ok.mp h]
  exact listed_foldl_add _

/-! ## Methods -/

/-- The definitions of methods in the body of a class, in document order. -/
def methodDefinitions (K : Cursor) : List Cursor :=
  match K.child? .body with
  | none => []
  | some body => body.namedChildren.filter (·.kind = .methodDefinition)

/-- What a class lists of the methods that its body defines. -/
structure MembersListed (K : Cursor) (methods : List MethodEntry) : Prop where
  listed : ∃ defined, (methodDefinitions K).mapM methodEntry = .ok defined ∧
    LastOfEach methodKey defined methods
  /-- A getter, a setter, a static and an instance member of one name all stay. -/
  kept : ∀ F ∈ methodDefinitions K, ∃ f, methodEntry F = .ok f ∧ ∃ m ∈ methods,
    m.name = f.name ∧ m.isStatic = f.isStatic ∧ m.kind.accessor = f.kind.accessor

theorem membersListed_of_methodsOf {K : Cursor} {methods : List MethodEntry}
    (h : methodsOf K = .ok methods) : MembersListed K methods := by
  have hlisted : ∃ defined, (methodDefinitions K).mapM methodEntry = .ok defined ∧
      LastOfEach methodKey defined methods := by
    rw [methodsOf] at h
    rw [methodDefinitions]
    cases hbody : K.child? .body with
    | none =>
      simp only [hbody] at h
      rw [← pure_eq_ok.mp h]
      exact ⟨[], rfl, lastOfEach_ofList methodKey []⟩
    | some body =>
      simp only [hbody] at h
      obtain ⟨defined, hdefined, h⟩ := bind_eq_ok.mp h
      rw [← pure_eq_ok.mp h]
      exact ⟨defined, hdefined, lastOfEach_ofList methodKey defined⟩
  refine ⟨hlisted, fun F hF => ?_⟩
  obtain ⟨defined, hdefined, hlast⟩ := hlisted
  obtain ⟨f, hf, hentry⟩ := exists_ok_of_mapM hdefined hF
  obtain ⟨m, hm, hkey⟩ := hlast.exists_of_mem hf
  simp only [methodKey, Prod.mk.injEq] at hkey
  exact ⟨f, hentry, m, hm, hkey⟩

/-! ## Files -/

/-- Every class of an inventory lists the members of the node that it was last
recorded from. -/
theorem exists_membersListed {root : Node} {ds : Inventory}
    (h : Inventory.collect (nodesOf root) = .ok ds) {c : ClassEntry} (hc : c ∈ ds.classes.values) :
    ∃ host ∈ (Cursor.root root).preorder, ∃ K, Recorded host K (.classDef c) ∧
      MembersListed K c.methods := by
  obtain ⟨e, he, rfl⟩ := List.mem_map.mp hc
  obtain ⟨-, host, hhost, made, hmade, hd⟩ := (Inventory.holds_collect h).classes e he
  obtain ⟨K, hrec⟩ := exists_recorded hmade hd
  refine ⟨host, mem_nodesOf.mp hhost, K, hrec, ?_⟩
  cases hrec with
  | classDef _ _ entry => exact membersListed_of_methodsOf (classEntry_eq_ok entry).2.1

/-- In the listing of a file the last declaration of a name counts, at the place
of the first, and so does the last definition of a method. A file is listed if
its texts can be read. -/
theorem listed_declarationsOf (root : Node) :
    (Readable root →
      (∀ n ∈ root.preorder, n.kind = .exportSpecifier → n.child? .name ≠ none) →
      Answers (declarationsOf root)) ∧
    ∀ ds exports, declarationsOf root = .ok (ds, exports) →
      (∃ events, Recordings root events ∧ Listed events ds) ∧
      ∀ c ∈ ds.classes.values, ∃ host ∈ (Cursor.root root).preorder, ∃ K,
        Recorded host K (.classDef c) ∧ MembersListed K c.methods := by
  constructor
  · intro hreadable hspecifiers
    refine hreadable.collect.bind fun _ _ => ?_
    exact (hreadable.exportsOf hspecifiers).bind fun _ _ => .pure _
  · intro ds exports h
    obtain ⟨found, hfound, h⟩ := bind_eq_ok.mp h
    obtain ⟨listed, -, h⟩ := bind_eq_ok.mp h
    cases pure_eq_ok.mp h
    exact ⟨exists_recordings hfound, fun c hc => exists_membersListed hfound hc⟩

/-! ## A file with a function that is declared twice, and members of one name -/

def twiceCode : String :=
  "function f()\x7b\x7d\nfunction g()\x7b\x7d\nfunction f(z)\x7b\x7d\n"
    ++ "class A\x7bget x()\x7b\x7dset x(v)\x7b\x7dstatic x()\x7b\x7dx()\x7b\x7dx(y)\x7b\x7d\x7d\n"

/-- A list of parameters: nothing, or one name. -/
def parameterList (start stop : Nat) : SyntaxTree Span :=
  construct (.other "formal_parameters") (some .parameters) start stop
    (if start + 2 = stop then [] else [construct .identifier none (start + 1) (stop - 1) []])

/-- The definition of a method with a name of one letter after some tokens. -/
def definition (tokens : List (SyntaxTree Span)) (start name stop : Nat) : SyntaxTree Span :=
  construct .methodDefinition none start stop (tokens ++ [
    construct .propertyIdentifier (some .name) name (name + 1) [],
    parameterList (name + 1) (stop - 2)])

def twiceTree : SyntaxTree Span :=
  construct .program none 0 98 [
    construct .functionDeclaration none 0 14 [
      construct .identifier (some .name) 9 10 [], parameterList 10 12],
    construct .functionDeclaration none 15 29 [
      construct .identifier (some .name) 24 25 [], parameterList 25 27],
    construct .functionDeclaration none 30 45 [
      construct .identifier (some .name) 39 40 [], parameterList 40 43],
    construct .classDeclaration none 46 97 [
      construct .identifier (some .name) 52 53 [],
      construct .classBody (some .body) 53 97 [
        definition [token .get 54 57] 54 58 63,
        definition [token .set 63 66] 63 67 73,
        definition [token .static 73 79] 73 80 85,
        definition [] 85 85 90,
        definition [] 90 90 96]]]

theorem listed_declarationsOf_twice :
    (Readable (twiceTree.locate twiceCode) ∧
      Answers (declarationsOf (twiceTree.locate twiceCode))) ∧
    ∃ ds, declarationsOf (twiceTree.locate twiceCode) = .ok (ds, []) ∧
      ds.functions.values = [⟨"f", "z", 3, 3, ""⟩, ⟨"g", "", 2, 2, ""⟩] ∧
      ds.classes.values = [⟨"A", 4, 4, none, "", [⟨"x", "", 4, false, .getter, ""⟩,
        ⟨"x", "v", 4, false, .setter, ""⟩, ⟨"x", "", 4, true, .method, ""⟩,
        ⟨"x", "y", 4, false, .method, ""⟩]⟩] ∧
      (∃ events, Recordings (twiceTree.locate twiceCode) events ∧ Listed events ds) ∧
      ∀ c ∈ ds.classes.values,
        ∃ host ∈ (Cursor.root (twiceTree.locate twiceCode)).preorder, ∃ K,
          Recorded host K (.classDef c) ∧ MembersListed K c.methods := by
  have hplaced : WellPlaced twiceCode twiceTree :=
    ⟨by decide +kernel, by decide +kernel, by decide +kernel, by decide⟩
  have hreadable := hplaced.readable_locate
  refine ⟨⟨hreadable, (listed_declarationsOf _).1 hreadable hplaced.specifiers_locate⟩, ?_⟩
  have hfound : (declarationsOf (twiceTree.locate twiceCode)).map
      (fun found => (found.1.functions.values, found.1.classes.values, found.2))
      = .ok ([⟨"f", "z", 3, 3, ""⟩, ⟨"g", "", 2, 2, ""⟩],
        [⟨"A", 4, 4, none, "", [⟨"x", "", 4, false, .getter, ""⟩,
          ⟨"x", "v", 4, false, .setter, ""⟩, ⟨"x", "", 4, true, .method, ""⟩,
          ⟨"x", "y", 4, false, .method, ""⟩]⟩], []) := by decide +kernel
  obtain ⟨⟨ds, exports⟩, hds, heq⟩ := map_eq_ok.mp hfound
  simp only [Prod.mk.injEq] at heq
  obtain ⟨hfunctions, hclasses, rfl⟩ := heq
  exact ⟨ds, hds, hfunctions, hclasses, (listed_declarationsOf _).2 ds [] hds⟩

end Analysis

end CodeAtlas
