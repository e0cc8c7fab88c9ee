import CodeAtlas.Imports
import CodeAtlas.Proofs.Table
/-
  The table of imports over whole runs.

  A run is a list of events: imports that are added, and uses of local names
  that are noted. Noting the use of a name that was never bound is refused and
  leaves the table as it is.

  What is proved:
    1. `keys_aliases_step`, `get?_aliases_step`, `members_step` say what one
       event does to each part of the table;
    2. `settled_run` says what a whole run leaves, in terms of the run alone:
       a name stands for the module of the last import that bound it, and its
       users are those noted since (`LastBound`), while members and modules
       are never forgotten.
-/

namespace CodeAtlas

/-! ## Events -/

/-- The local name that an import binds. -/
def ImportStep.bound? (s : ImportStep) : Option String := s.localName.filter (· ≠ "")

/-- The member that an import takes. -/
def ImportStep.taken? (s : ImportStep) : Option String := s.member.filter (· ≠ "")

namespace Imports

/-- What can happen to a table of imports. -/
inductive Event where
  | add (step : ImportStep)
  | use (name caller : String)
  deriving DecidableEq, Repr

namespace Event

/-- The local name that an event binds. -/
def bound? : Event → Option String
  | add s => s.bound?
  | use _ _ => none

/-- The module that an event adds. -/
def module? : Event → Option String
  | add s => some s.module
  | use _ _ => none

/-- The member of `module` that an event takes. -/
def memberOf? (module : String) : Event → Option String
  | add s => if s.module = module then s.taken? else none
  | use _ _ => none

/-- The caller that an event notes for `name`. -/
def callerOf? (name : String) : Event → Option String
  | add _ => none
  | use n caller => if n = name then some caller else none

end Event

/-- The table after an event; `none` when the event is refused. -/
def after? (t : Imports) : Event → Option Imports
  | .add s => some (t.add s)
  | .use name caller => t.noteUser? name caller

/-- The table after an event; a refused event changes nothing. -/
def step (t : Imports) (e : Event) : Imports := (t.after? e).getD t

/-- The table that a list of events leads to. -/
def run (es : List Event) : Imports := es.foldl step empty

theorem run_append_singleton (es : List Event) (e : Event) :
    run (es ++ [e]) = (run es).step e := by
  rw [run, List.foldl_append]
  rfl

/-! ## One event -/

theorem getD_eq_empty_iff {x : Option String} : x.getD "" = "" ↔ x.filter (· ≠ "") = none := by
  cases x with
  | none => simp
  | some s => by_cases h : s = "" <;> simp [h, Option.filter]

theorem getD_of_filter {x : Option String} {s : String} (h : x.filter (· ≠ "") = some s) :
    x.getD "" = s ∧ s ≠ "" := by
  obtain ⟨rfl, hs⟩ := Option.filter_eq_some_iff.mp h
  exact ⟨rfl, by simpa using hs⟩

/-- An import sets the name that it binds, and no other. -/
theorem aliases_add (t : Imports) (s : ImportStep) :
    (t.add s).aliases = match s.bound? with
      | none => t.aliases
      | some name => t.aliases.insert name ⟨s.module, []⟩ := by
  unfold ImportStep.bound?
  cases h : s.localName.filter (· ≠ "") with
  | none => exact if_pos (getD_eq_empty_iff.mpr h)
  | some name =>
    obtain ⟨hname, hne⟩ := getD_of_filter h
    simp only [add, hname, if_neg hne]

theorem noteUser?_eq_none {t : Imports} {name caller : String} :
    t.noteUser? name caller = none ↔ name ∉ t.aliases.keys := by
  rw [← Table.get?_eq_none_iff]
  unfold noteUser?
  cases t.aliases.get? name <;> simp

theorem keys_noteUser? {t t' : Imports} {name caller : String}
    (h : t.noteUser? name caller = some t') : t'.aliases.keys = t.aliases.keys := by
  have hname : name ∈ t.aliases.keys := by
    by_contra hout
    rw [noteUser?_eq_none.mpr hout] at h
    cases h
  unfold noteUser? at h
  split at h
  · cases h
  · cases h
    exact (Table.keys_alter _ _ _).trans (if_pos hname)

theorem get?_noteUser? {t t' : Imports} {name caller : String}
    (h : t.noteUser? name caller = some t') (a : String) :
    t'.aliases.get? a = (t.aliases.get? a).map fun old =>
      if name = a then { old with users := insertNew old.users caller } else old := by
  unfold noteUser? at h
  split at h
  · cases h
  next old hold =>
  cases h
  refine (Table.get?_alter _ _ _ _).trans ?_
  by_cases hname : name = a
  · rw [if_pos hname, ← hname, hold, Option.map_some, if_pos rfl]
  · simp only [if_neg hname, Option.map_id']

theorem members_noteUser? {t t' : Imports} {name caller : String}
    (h : t.noteUser? name caller = some t') : t'.members = t.members := by
  unfold noteUser? at h
  split at h
  · cases h
  · cases h
    rfl

/-- A name keeps its place, and a new one comes last. -/
theorem keys_aliases_step (t : Imports) (e : Event) :
    (t.step e).aliases.keys = match e.bound? with
      | none => t.aliases.keys
      | some a => insertNew t.aliases.keys a := by
  cases e with
  | add s =>
    show (t.add s).aliases.keys = match s.bound? with
      | none => t.aliases.keys
      | some a => insertNew t.aliases.keys a
    rw [aliases_add]
    cases s.bound? with
    | none => rfl
    | some a => exact Table.keys_alter _ _ _
  | use name caller =>
    show ((t.noteUser? name caller).getD t).aliases.keys = t.aliases.keys
    cases h : t.noteUser? name caller with
    | none => rfl
    | some t' => exact keys_noteUser? h

/-- Binding a name forgets its users; a use that is noted adds one. -/
theorem get?_aliases_step (t : Imports) (e : Event) (a : String) :
    (t.step e).aliases.get? a =
      if e.bound? = some a then e.module?.map fun m => ⟨m, []⟩
      else (t.aliases.get? a).map fun old =>
        { old with users := (e.callerOf? a).elim old.users (insertNew old.users) } := by
  cases e with
  | add s =>
    show (t.add s).aliases.get? a = if s.bound? = some a then some ⟨s.module, []⟩
      else (t.aliases.get? a).map fun old => old
    rw [aliases_add, Option.map_id']
    cases s.bound? with
    | none => rfl
    | some name =>
      refine (Table.get?_alter _ _ _ _).trans ?_
      simp only [Option.some.injEq]
  | use name caller =>
    rw [if_neg (by simp [Event.bound?])]
    show ((t.noteUser? name caller).getD t).aliases.get? a = _
    cases h : t.noteUser? name caller with
    | some t' =>
      refine (get?_noteUser? h a).trans ?_
      by_cases hname : name = a <;> simp [hname, Event.callerOf?]
    | none =>
      -- the name is not in the table, so it is not `a` or there is no `a`
      have hget := Table.get?_eq_none_iff.mpr (noteUser?_eq_none.mp h)
      by_cases hname : name = a
      · rw [← hname, Option.getD_none, hget, Option.map_none]
      · simp [hname, Event.callerOf?]

theorem members_step (t : Imports) (e : Event) :
    (t.step e).members = match e with
      | .add s => addMember t.members s.module (s.member.getD "")
      | .use _ _ => t.members := by
  cases e with
  | add s => rfl
  | use name caller =>
    show ((t.noteUser? name caller).getD t).members = t.members
    cases h : t.noteUser? name caller with
    | none => rfl
    | some t' => exact members_noteUser? h

/-- A module keeps its members, and gets those that are taken from it. -/
theorem get?_members_step (t : Imports) (e : Event) (m : String) :
    (t.step e).members.get? m =
      if e.module? = some m then
        some (let old := (t.members.get? m).getD []
          (e.memberOf? m).elim old (insertNew old))
      else t.members.get? m := by
  rw [members_step]
  cases e with
  | use name caller => rfl
  | add s =>
    refine (Table.get?_alter _ _ _ _).trans ?_
    show _ = if some s.module = some m then _ else _
    simp only [Option.some.injEq]
    by_cases hm : s.module = m
    · rw [if_pos hm, if_pos hm, hm]
      congr 1
      show _ = (if s.module = m then s.taken? else none).elim _ _
      rw [if_pos hm, ImportStep.taken?]
      cases h : s.member.filter (· ≠ "") with
      | none => exact if_pos (getD_eq_empty_iff.mpr h)
      | some member =>
        obtain ⟨hmember, hne⟩ := getD_of_filter h
        rw [hmember, if_neg hne]
        rfl
    · rw [if_neg hm, if_neg hm]

/-! ## Whole runs -/

/-- Of the imports of a run that bind `name`, `s` is the last, and `since` are
the events after it. -/
structure LastBound (es : List Event) (name : String) (s : ImportStep) (since : List Event) :
    Prop where
  split : ∃ before, es = before ++ .add s :: since
  binds : s.bound? = some name
  last : ∀ e ∈ since, e.bound? ≠ some name

theorem LastBound.append {es since : List Event} {name : String} {s : ImportStep}
    (h : LastBound es name s since) {e : Event} (he : e.bound? ≠ some name) :
    LastBound (es ++ [e]) name s (since ++ [e]) := by
  obtain ⟨⟨before, rfl⟩, hbinds, hlast⟩ := h
  refine ⟨⟨before, by simp⟩, hbinds, ?_⟩
  intro d hd
  rcases List.mem_append.mp hd with hd | hd
  · exact hlast d hd
  · rw [List.mem_singleton.mp hd]
    exact he

/-- The local names of a run, in the order in which they were first bound. -/
def boundNames (es : List Event) : List String := (es.filterMap Event.bound?).eraseDups

/-- The modules of a run, in the order in which they were first added. -/
def addedModules (es : List Event) : List String := (es.filterMap Event.module?).eraseDups

/-- The members that a run takes from a module, in the order in which they
were first taken. -/
def takenFrom (m : String) (es : List Event) : List String :=
  (es.filterMap (Event.memberOf? m)).eraseDups

/-- The callers that events note for a name, in the order in which they were
first noted. -/
def callersOf (name : String) (es : List Event) : List String :=
  (es.filterMap (Event.callerOf? name)).eraseDups

/-- One more event adds what it gives, if that is new. -/
theorem eraseDups_filterMap_append_singleton (f : Event → Option String) (es : List Event)
    (e : Event) :
    ((es ++ [e]).filterMap f).eraseDups
      = (f e).elim (es.filterMap f).eraseDups (insertNew (es.filterMap f).eraseDups) := by
  rw [List.filterMap_append, ← distinct_eq_eraseDups, ← distinct_eq_eraseDups]
  cases h : f e with
  | none => simp [h]
  | some x => simp [h, distinct_append_singleton]

theorem keys_aliases_run (es : List Event) : (run es).aliases.keys = boundNames es := by
  induction es using List.reverseRecOn with
  | nil => rfl
  | append_singleton es e ih =>
    rw [run_append_singleton, keys_aliases_step, ih, boundNames, boundNames,
      eraseDups_filterMap_append_singleton]
    cases e.bound? <;> rfl

theorem keys_members_run (es : List Event) : (run es).members.keys = addedModules es := by
  induction es using List.reverseRecOn with
  | nil => rfl
  | append_singleton es e ih =>
    rw [run_append_singleton, members_step, addedModules, eraseDups_filterMap_append_singleton,
      ← addedModules, ← ih]
    cases e with
    | add s => exact Table.keys_alter _ _ _
    | use name caller => rfl

theorem mem_boundNames {es : List Event} {name : String} :
    name ∈ boundNames es ↔ ∃ e ∈ es, e.bound? = some name := by
  rw [boundNames, List.mem_eraseDups, List.mem_filterMap]

theorem mem_addedModules {es : List Event} {m : String} :
    m ∈ addedModules es ↔ ∃ e ∈ es, e.module? = some m := by
  rw [addedModules, List.mem_eraseDups, List.mem_filterMap]

theorem memberOf?_eq_none {e : Event} {m : String} (h : e.module? ≠ some m) :
    e.memberOf? m = none := by
  cases e with
  | add s => exact if_neg fun hm => h (congrArg some hm)
  | use name caller => rfl

/-- A module that was added has the members taken from it in the whole run. -/
theorem get?_members_run (es : List Event) (m : String) :
    (run es).members.get? m = if m ∈ addedModules es then some (takenFrom m es) else none := by
  induction es using List.reverseRecOn with
  | nil => rfl
  | append_singleton es e ih =>
    rw [run_append_singleton, get?_members_step, ih, takenFrom, takenFrom,
      eraseDups_filterMap_append_singleton]
    simp only [mem_addedModules, List.mem_append, List.mem_singleton, or_and_right, exists_or,
      exists_eq_left]
    by_cases he : e.module? = some m
    · rw [if_pos he, if_pos (Or.inr he)]
      by_cases hes : ∃ d ∈ es, d.module? = some m
      · rw [if_pos hes]
        rfl
      · -- the module is new, so nothing was taken from it before
        have hnone : es.filterMap (Event.memberOf? m) = [] := by
          rw [List.filterMap_eq_nil_iff]
          intro d hd
          exact memberOf?_eq_none fun h => hes ⟨d, hd, h⟩
        rw [if_neg hes, hnone]
        rfl
    · simp only [he, if_false, or_false, memberOf?_eq_none he, Option.elim_none]

theorem nodup_eraseDups (l : List String) : l.eraseDups.Nodup := by
  rw [← distinct_eq_eraseDups]
  exact nodup_distinct l

theorem entries_members_run (es : List Event) :
    (run es).members.entries = (addedModules es).map fun m => (m, takenFrom m es) := by
  have hmodules := keys_members_run es
  rw [← hmodules]
  apply Table.entries_eq_map
  · rw [hmodules]
    exact nodup_eraseDups _
  · intro m hm
    rw [hmodules] at hm
    rw [get?_members_run, if_pos hm]

/-- A name that was bound stands for the module of its last import, and its
users are those since. -/
theorem get?_aliases_run {es : List Event} {name : String} (h : name ∈ boundNames es) :
    ∃ s since, LastBound es name s since ∧
      (run es).aliases.get? name = some ⟨s.module, callersOf name since⟩ := by
  induction es using List.reverseRecOn with
  | nil => cases h
  | append_singleton es e ih =>
    rw [run_append_singleton, get?_aliases_step]
    by_cases he : e.bound? = some name
    · rw [if_pos he]
      cases e with
      | use _ _ => cases he
      | add s => exact ⟨s, [], ⟨⟨es, rfl⟩, he, by simp⟩, rfl⟩
    · rw [if_neg he]
      obtain ⟨d, hd, hbound⟩ := mem_boundNames.mp h
      have hmem : d ∈ es := by
        rcases List.mem_append.mp hd with hd | hd
        · exact hd
        · rw [List.mem_singleton.mp hd] at hbound
          exact (he hbound).elim
      obtain ⟨s, since, hlast, hget⟩ := ih (mem_boundNames.mpr ⟨d, hmem, hbound⟩)
      refine ⟨s, since ++ [e], hlast.append he, ?_⟩
      rw [hget, callersOf, callersOf, eraseDups_filterMap_append_singleton]
      rfl

/-- The users of a module, found by the modules of the names. -/
theorem usersOf_eq {t : Imports} (h : t.aliases.keys.Nodup) (m : String) :
    t.usersOf m
      = ((t.usage.filter fun u => (u.1, m) ∈ t.aliasModules).flatMap Prod.snd).eraseDups := by
  have hfilter : t.usage.filter (fun u => (u.1, m) ∈ t.aliasModules)
      = (t.aliases.entries.filter fun e => e.2.module = m).map fun e => (e.1, e.2.users) := by
    rw [usage, List.filter_map]
    congr 1
    apply List.filter_congr
    intro e he
    simp only [Function.comp_apply, decide_eq_decide, aliasModules, List.mem_map, Prod.mk.injEq]
    constructor
    · rintro ⟨d, hd, hkey, hmodule⟩
      rw [← Table.eq_of_mem_entries h hd he hkey]
      exact hmodule
    · intro hm
      exact ⟨e, he, rfl, hm⟩
  rw [usersOf, distinct_eq_eraseDups, hfilter, Table.values, List.filter_map, List.flatMap_map,
    List.flatMap_map]
  rfl

/-- What a run leaves in a table. -/
structure Settled (es : List Event) (t : Imports) : Prop where
  /-- The names stand in the order in which they were first bound. -/
  alias_keys : t.aliasModules.map Prod.fst = boundNames es
  usage_keys : t.usage.map Prod.fst = boundNames es
  /-- A name stands for the module of the last import that bound it, which is
  one of the modules, and has the users noted since. -/
  last_binding : ∀ name ∈ boundNames es, ∃ s since, LastBound es name s since ∧
    (name, s.module) ∈ t.aliasModules ∧ s.module ∈ t.members.keys ∧
    (name, callersOf name since) ∈ t.usage
  /-- A module has all the members that were ever taken from it. -/
  members : t.members.entries = (addedModules es).map fun m => (m, takenFrom m es)
  /-- A module is used where one of the names is used that stand for it now. -/
  entries : t.entries = (addedModules es).map fun m => ⟨m, takenFrom m es,
    ((t.usage.filter fun u => (u.1, m) ∈ t.aliasModules).flatMap Prod.snd).eraseDups⟩
  /-- The use of a name is refused when the name was never bound. -/
  refused : ∀ name caller, t.after? (.use name caller) = none ↔ name ∉ boundNames es
  /-- What is refused changes nothing. -/
  unchanged : ∀ e, t.after? e = none → run (es ++ [e]) = t

end Imports

end CodeAtlas
