import CodeAtlas.Proofs.Analysis.Passes
import CodeAtlas.Proofs.Analysis.Scopes
/-
  The call graph of a file holds exactly its calls.

  `IsCall` says what a call of the file is, node by node: the name that is
  called, the callable around the node, and that the name is known. The table
  of calls lists the callers, and under each its callees, without repetition
  and in the order in which the document first has them (`FirstBefore`).

  The table is built from the list of calls that the nodes make. So each order
  in the table is an order of distinct members of that list (`Leads`), and
  `firstBefore_of_leads` carries it over to the nodes.
-/

namespace CodeAtlas.Analysis

open CodeAtlas.Syntax

/-! ## Calls -/

/-- The part of a name before its first dot. -/
def beforeDot (name : String) : String := String.ofList (name.toList.takeWhile (· ≠ '.'))

/-- The node is a call from `caller` to `callee`, in a file that was
surveyed. -/
structure IsCall (s : Survey) (n : Cursor) (caller callee : String) : Prop where
  kind : n.kind = .callExpression
  called : calledName? s.imports.aliases.contains n.focus = .ok (some callee)
  around : enclosing? s.declarations.callables n = .ok (some caller)
  named : caller ≠ ""
  other : callee ≠ caller
  known : callee ∈ s.declarations.declared ∨ beforeDot callee ∈ s.imports.aliases.keys

/-- The call that a node of a surveyed file makes. -/
def Survey.callAt? (s : Survey) (n : Cursor) : Except Fault (Option (String × String)) :=
  Analysis.callAt? s.imports.aliases.contains s.declarations.declared s.declarations.callables n

theorem isKnownCallee_iff (s : Survey) (callee : String) :
    isKnownCallee s.imports.aliases.contains s.declarations.declared callee = true ↔
      callee ∈ s.declarations.declared ∨ beforeDot callee ∈ s.imports.aliases.keys := by
  rw [isKnownCallee, Bool.or_eq_true, List.contains_iff_mem, Table.contains_eq_true, beforeDot]

/-- The node makes a call exactly when it is one. -/
theorem callAt?_eq_ok_some {s : Survey} {n : Cursor} {caller callee : String} :
    s.callAt? n = .ok (some (caller, callee)) ↔ IsCall s n caller callee := by
  unfold Survey.callAt? Analysis.callAt?
  constructor
  · intro h
    split at h
    · cases h
    next hkind =>
    obtain ⟨called, hcalled, h⟩ := bind_eq_ok.mp h
    cases called with
    | none => cases h
    | some name =>
      obtain ⟨around, haround, h⟩ := bind_eq_ok.mp h
      cases around with
      | none => cases h
      | some scope =>
        dsimp only at h
        split at h
        · next hall =>
          cases pure_eq_ok.mp h
          exact ⟨not_not.mp hkind, hcalled, haround, hall.1, hall.2.1.symm,
            (isKnownCallee_iff s _).mp hall.2.2⟩
        · cases h
  · intro h
    rw [if_neg (not_not.mpr h.kind), h.called]
    refine bind_eq_ok.mpr ⟨_, rfl, ?_⟩
    rw [h.around]
    refine bind_eq_ok.mpr ⟨_, rfl, ?_⟩
    exact if_pos ⟨h.named, h.other.symm, (isKnownCallee_iff s _).mpr h.known⟩

/-! ## Document order -/

/-- Some node satisfies `P`, and up to and with that one no node satisfies
`Q`. -/
def FirstBefore (nodes : List Cursor) (P Q : Cursor → Prop) : Prop :=
  ∃ before n after, nodes = before ++ n :: after ∧ P n ∧ ∀ k ∈ before ++ [n], ¬ Q k

theorem FirstBefore.cons {nodes : List Cursor} {P Q : Cursor → Prop} {n : Cursor}
    (h : FirstBefore nodes P Q) (hn : ¬ Q n) : FirstBefore (n :: nodes) P Q := by
  obtain ⟨before, k, after, rfl, hk, hq⟩ := h
  refine ⟨n :: before, k, after, rfl, hk, ?_⟩
  intro j hj
  rcases List.mem_cons.mp hj with rfl | hj
  · exact hn
  · exact hq j hj

theorem FirstBefore.congr {nodes : List Cursor} {P Q P' Q' : Cursor → Prop}
    (h : FirstBefore nodes P Q) (hP : ∀ n, P n → P' n) (hQ : ∀ n, Q' n → Q n) :
    FirstBefore nodes P' Q' := by
  obtain ⟨before, n, after, e, hp, hq⟩ := h
  exact ⟨before, n, after, e, hP n hp, fun k hk hk' => hq k hk (hQ k hk')⟩

section

variable {α β : Type} {F : Cursor → Except Fault (Option α)} {pick : α → Option β} {x y : β}

/-- The node gives something that `x` is picked from. -/
def Gives (F : Cursor → Except Fault (Option α)) (pick : α → Option β) (x : β) (n : Cursor) :
    Prop :=
  ∃ a, F n = .ok (some a) ∧ pick a = some x

theorem gives_iff {n : Cursor} {out : Option α} (hn : F n = .ok out) :
    Gives F pick x n ↔ out.bind pick = some x := by
  rw [Gives, hn, Option.bind_eq_some_iff]
  simp

/-- The order of first places among the values that are picked is the order of
first nodes that give them. -/
theorem firstBefore_of_leads {nodes : List Cursor} {outs : List (Option α)}
    (h : nodes.mapM F = .ok outs) (hlead : Leads ((outs.filterMap id).filterMap pick) x y) :
    FirstBefore nodes (Gives F pick x) (Gives F pick y) := by
  simp only [List.filterMap_filterMap, id_eq] at hlead
  have hall := mapM_eq_ok.mp h
  clear h
  induction hall with
  | nil =>
    obtain ⟨before, after, e, -⟩ := hlead
    simp at e
  | @cons n out nodes outs hn _ ih =>
    cases hpick : out.bind pick with
    | none =>
      -- a node that gives nothing, or nothing that is picked, leads nothing
      simp only [List.filterMap_cons, hpick] at hlead
      refine (ih hlead).cons ?_
      rw [gives_iff hn, hpick]
      exact nofun
    | some z =>
      simp only [List.filterMap_cons, hpick] at hlead
      obtain ⟨hyz, hlead⟩ := leads_cons.mp hlead
      have hno : ¬ Gives F pick y n := by
        rw [gives_iff hn, hpick]
        exact fun hzy => hyz (Option.some.inj hzy).symm
      rcases hlead with rfl | hlead
      · refine ⟨[], n, nodes, rfl, (gives_iff hn).mpr hpick, ?_⟩
        intro k hk
        rw [List.nil_append, List.mem_singleton] at hk
        rw [hk]
        exact hno
      · exact (ih hlead).cons hno

end

/-! ## The table of calls -/

/-- The callee of a call that `caller` makes. -/
def calleeFrom (caller : String) (call : String × String) : Option String :=
  if call.1 = caller then some call.2 else none

theorem calleeFrom_eq_some {caller callee : String} {call : String × String} :
    calleeFrom caller call = some callee ↔ call = (caller, callee) := by
  obtain ⟨f, c⟩ := call
  simp [calleeFrom]

theorem mem_filterMap_calleeFrom {calls : List (String × String)} {caller callee : String} :
    callee ∈ calls.filterMap (calleeFrom caller) ↔ (caller, callee) ∈ calls := by
  simp only [List.mem_filterMap, calleeFrom_eq_some, exists_eq_right]

theorem keys_foldl_addCall (calls : List (String × String)) :
    (calls.foldl addCall .empty).keys = distinct (calls.map Prod.fst) :=
  Table.keys_foldl_alter (fun old callee => insertNew (old.getD []) callee) calls .empty

theorem foldl_insert_some (calls : List (String × String)) (known : List String) :
    calls.foldl (fun old e => some (insertNew (old.getD []) e.2)) (some known)
      = some ((calls.map Prod.snd).foldl insertNew known) := by
  induction calls generalizing known with
  | nil => rfl
  | cons call calls ih => exact ih (insertNew known call.2)

/-- A caller stands in the table with its distinct callees, if it has any. -/
theorem get?_foldl_addCall (calls : List (String × String)) (caller : String) :
    (calls.foldl addCall .empty).get? caller
      = if calls.filterMap (calleeFrom caller) = [] then none
        else some (distinct (calls.filterMap (calleeFrom caller))) := by
  have hget := Table.get?_foldl_alter (fun old callee => insertNew (old.getD []) callee) calls
    (.empty : Table String (List String)) caller
  have hcallees : calls.filterMap (calleeFrom caller)
      = (calls.filter fun e => e.1 = caller).map Prod.snd := by
    rw [← List.filterMap_eq_map, List.filterMap_filter]
    congr 1
    funext call
    simp [calleeFrom]
  rw [hcallees]
  refine hget.trans ?_
  cases calls.filter fun e => e.1 = caller with
  | nil => rfl
  | cons call rest => exact foldl_insert_some rest [call.2]

theorem getD_get?_foldl_addCall (calls : List (String × String)) (caller : String) :
    ((calls.foldl addCall .empty).get? caller).getD []
      = distinct (calls.filterMap (calleeFrom caller)) := by
  rw [get?_foldl_addCall]
  split
  · next h => rw [h]; rfl
  · rfl

/-- The table of calls comes from the list of the calls that the nodes make. -/
theorem callsIn_eq_ok {s : Survey} {root : Node} {t : Table String (List String)}
    (h : s.callsIn root = .ok t) :
    ∃ outs, (nodesOf root).mapM s.callAt? = .ok outs ∧
      t = (outs.filterMap id).foldl addCall .empty := by
  obtain ⟨outs, houts, h⟩ := bind_eq_ok.mp h
  exact ⟨outs, houts, (pure_eq_ok.mp h).symm⟩

/-- The listed calls are those of the nodes. -/
theorem mem_calls_iff {s : Survey} {nodes : List Cursor}
    {outs : List (Option (String × String))} (h : nodes.mapM s.callAt? = .ok outs)
    {caller callee : String} :
    (caller, callee) ∈ outs.filterMap id ↔ ∃ n ∈ nodes, IsCall s n caller callee := by
  rw [mem_filterMap_mapM h]
  simp only [callAt?_eq_ok_some]

/-- A callable that the inventory lists is one of the outline. -/
theorem mem_callables_outline {P : Declaration → Prop} {s : Survey}
    (h : s.declarations.Holds P) (calls : Table String (List String)) (description name : String) :
    name ∈ (s.outline calls description).callables ↔ name ∈ s.declarations.callables := by
  rw [Outline.callables, mem_distinct]
  have hnames : (s.outline calls description).functions.map (·.name)
      = s.declarations.functions.keys := h.map_name_functions
  rw [hnames]
  rfl

/-! ## The call graph -/

/-- The table of calls of an outline is exact for the nodes of a file: what it
holds, that it repeats nothing, and its order. -/
structure ExactCalls (nodes : List Cursor) (s : Survey) (m : Outline) : Prop where
  mem_iff : ∀ f c, c ∈ m.calleesOf f ↔ ∃ n ∈ nodes, IsCall s n f c
  nodup_callers : m.calls.keys.Nodup
  callers_ordered : m.calls.keys.Pairwise fun f g =>
    FirstBefore nodes (fun n => ∃ c, IsCall s n f c) (fun n => ∃ c, IsCall s n g c)
  callers_callable : ∀ f ∈ m.calls.keys, f ∈ m.callables
  callees_ne_nil : ∀ f ∈ m.calls.keys, m.calleesOf f ≠ []
  nodup_callees : ∀ f, (m.calleesOf f).Nodup
  callees_ordered : ∀ f, (m.calleesOf f).Pairwise fun c d =>
    FirstBefore nodes (fun n => IsCall s n f c) (fun n => IsCall s n f d)

theorem callers_firstBefore {s : Survey} {nodes : List Cursor}
    {outs : List (Option (String × String))} (h : nodes.mapM s.callAt? = .ok outs)
    {f g : String} (hlead : Leads ((outs.filterMap id).map Prod.fst) f g) :
    FirstBefore nodes (fun n => ∃ c, IsCall s n f c) (fun n => ∃ c, IsCall s n g c) := by
  rw [← List.filterMap_eq_map] at hlead
  apply (firstBefore_of_leads h hlead).congr
  · rintro n ⟨⟨f', c⟩, hcall, hf⟩
    cases hf
    exact ⟨c, callAt?_eq_ok_some.mp hcall⟩
  · rintro n ⟨c, hcall⟩
    exact ⟨(g, c), callAt?_eq_ok_some.mpr hcall, rfl⟩

theorem callees_firstBefore {s : Survey} {nodes : List Cursor}
    {outs : List (Option (String × String))} (h : nodes.mapM s.callAt? = .ok outs)
    {f c d : String} (hlead : Leads ((outs.filterMap id).filterMap (calleeFrom f)) c d) :
    FirstBefore nodes (fun n => IsCall s n f c) (fun n => IsCall s n f d) := by
  apply (firstBefore_of_leads h hlead).congr
  · rintro n ⟨call, hcall, hc⟩
    rw [calleeFrom_eq_some.mp hc] at hcall
    exact callAt?_eq_ok_some.mp hcall
  · intro n hcall
    exact ⟨(f, d), callAt?_eq_ok_some.mpr hcall, calleeFrom_eq_some.mpr rfl⟩

/-- The callers are callables of the outline. -/
theorem IsCall.caller_mem {s : Survey} {n : Cursor} {f c : String} (h : IsCall s n f c) :
    f ∈ s.declarations.callables := by
  obtain ⟨scope, -, -, hf⟩ := enclosing?_eq_ok_some.mp h.around
  exact hf

theorem exactCalls_outline {root : Node} {s : Survey} {P : Declaration → Prop}
    (hs : s.declarations.Holds P) {calls : Table String (List String)}
    (hcalls : s.callsIn root = .ok calls) (description : String) :
    ExactCalls (nodesOf root) s (s.outline calls description) := by
  obtain ⟨outs, houts, rfl⟩ := callsIn_eq_ok hcalls
  have hcallees : ∀ f, Outline.calleesOf (s.outline _ description) f
      = distinct ((outs.filterMap id).filterMap (calleeFrom f)) :=
    fun f => getD_get?_foldl_addCall (outs.filterMap id) f
  have hkeys := keys_foldl_addCall (outs.filterMap id)
  -- a caller in the table makes one of the listed calls
  have hcaller : ∀ f ∈ ((outs.filterMap id).foldl addCall .empty).keys,
      ∃ c, (f, c) ∈ outs.filterMap id := by
    intro f hf
    rw [hkeys, mem_distinct] at hf
    obtain ⟨⟨f', c⟩, hmem, rfl⟩ := List.mem_map.mp hf
    exact ⟨c, hmem⟩
  constructor
  case mem_iff =>
    intro f c
    rw [hcallees, mem_distinct, mem_filterMap_calleeFrom, mem_calls_iff houts]
  case nodup_callers =>
    show ((outs.filterMap id).foldl addCall .empty).keys.Nodup
    rw [hkeys]
    exact nodup_distinct _
  case callers_ordered =>
    show ((outs.filterMap id).foldl addCall .empty).keys.Pairwise _
    rw [hkeys]
    exact (pairwise_distinct _).imp fun hlead => callers_firstBefore houts hlead
  case callers_callable =>
    intro f hf
    obtain ⟨c, hmem⟩ := hcaller f hf
    obtain ⟨n, -, hcall⟩ := (mem_calls_iff houts).mp hmem
    exact (mem_callables_outline hs _ _ f).mpr hcall.caller_mem
  case callees_ne_nil =>
    intro f hf
    obtain ⟨c, hmem⟩ := hcaller f hf
    rw [hcallees]
    exact List.ne_nil_of_mem (mem_distinct.mpr (mem_filterMap_calleeFrom.mpr hmem))
  case nodup_callees =>
    intro f
    rw [hcallees]
    exact nodup_distinct _
  case callees_ordered =>
    intro f
    rw [hcallees]
    exact (pairwise_distinct _).imp fun hlead => callees_firstBefore houts hlead

/-- A node lies outside the callables when no node above it is the scope of
one. -/
def OutsideCallables (callables : List String) (n : Cursor) : Prop :=
  ∀ scope, Cursor.Inside (fun _ => True) scope n →
    ∀ name ∈ callables, scopeLabel? scope ≠ .ok (some name)

theorem not_isCall_of_outside {s : Survey} {n : Cursor}
    (h : OutsideCallables s.declarations.callables n) (f c : String) : ¬ IsCall s n f c := by
  intro hcall
  obtain ⟨scope, hin, hlabel, hf⟩ := enclosing?_eq_ok_some.mp hcall.around
  exact h scope (hin.imp fun _ _ => trivial) f hf hlabel

/-- The call graph of a file that is analysed is exact: it holds the calls of
the file and no others, in document order, and a call outside the callables
adds nothing to it. -/
theorem calls_exact (code : String) (path : Option String) (tree : SyntaxTree Span) (m : Outline)
    (h : analyse code path tree = .ok m) :
    ∃ s, survey (tree.locate code) = .ok s ∧
      ExactCalls (Cursor.root (tree.locate code)).preorder s m ∧
      ∀ n, OutsideCallables s.declarations.callables n → ∀ f c, ¬ IsCall s n f c := by
  obtain ⟨s, calls, hs, hcalls, rfl⟩ := analyse_eq_ok h
  obtain ⟨found, hpasses⟩ := survey_eq_ok hs
  refine ⟨s, hs, ?_, fun n hn f c => not_isCall_of_outside hn f c⟩
  rw [← Cursor.descendants_eq_preorder]
  exact exactCalls_outline (Inventory.holds_collect hpasses.declarations) hcalls _

theorem calls_exact_sample :
    analyse sampleCode none sampleTree = .ok sampleOutline ∧
      ∃ s, survey (sampleTree.locate sampleCode) = .ok s ∧
        ExactCalls (Cursor.root (sampleTree.locate sampleCode)).preorder s sampleOutline ∧
        ∀ n, OutsideCallables s.declarations.callables n → ∀ f c, ¬ IsCall s n f c := by
  have h : analyse sampleCode none sampleTree = .ok sampleOutline := by decide +kernel
  exact ⟨h, calls_exact sampleCode none sampleTree sampleOutline h⟩

end CodeAtlas.Analysis
