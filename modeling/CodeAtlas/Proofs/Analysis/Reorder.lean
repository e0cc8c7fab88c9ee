import CodeAtlas.Proofs.Analysis.CallGraph
import CodeAtlas.Proofs.Analysis.Complete
import CodeAtlas.Proofs.Analysis.Under
/-
  The order at the top of a file does not matter to its call graph.

  The calls are read last, from nodes in their place, and all that they read
  besides is whether a name is imported, declared or callable. The tables of
  these names are filled in document order and a later entry replaces an
  earlier one, but which names they hold does not depend on that order
  (`mem_keys_importsIn`, `Inventory.Names`), as long as no two classes of a
  file have the same name.

  `Reordered` relates two files that differ in the order of the nodes at the
  top. `Reordered.exists_call` carries a call from one to the other, and
  `sameCalls_reorder` says it of a source and its tree. A class body that stands
  at the top itself takes its name from there, and is the one place where the
  order can show.
-/

namespace CodeAtlas.Analysis

open CodeAtlas.Syntax Cursor

/-! ## Names in the tables -/

namespace Inventory

/-- The inventory has the names of the functions and the classes that were
declared. -/
structure Names (l : List Declaration) (ds : Inventory) : Prop where
  functions : ∀ name, name ∈ ds.functions.keys ↔ ∃ e, .function e ∈ l ∧ e.name = name
  classes : ∀ name, name ∈ ds.classes.keys ↔ ∃ e, .classDef e ∈ l ∧ e.name = name

theorem names_foldl_add (l : List Declaration) : Names l (l.foldl add {}) := by
  induction l using List.reverseRecOn with
  | nil => constructor <;> intro name <;> simp [Table.keys, Table.empty]
  | append_singleton l d ih =>
    rw [List.foldl_append, List.foldl_cons, List.foldl_nil]
    constructor
    · intro name
      cases d with
      | function e =>
        show name ∈ (Table.alter _ _ _).keys ↔ _
        rw [Table.keys_alter, mem_insertNew, ih.functions]
        simp [or_and_right, exists_or, eq_comm]
      | classDef e => simpa [add] using ih.functions name
      | constant e => simpa [add] using ih.functions name
    · intro name
      cases d with
      | classDef e =>
        show name ∈ (Table.alter _ _ _).keys ↔ _
        rw [Table.keys_alter, mem_insertNew, ih.classes]
        simp [or_and_right, exists_or, eq_comm]
      | function e => simpa [add] using ih.classes name
      | constant e => simpa [add] using ih.classes name

/-- Every declaration of the first list is one of the second, their
descriptions apart. -/
def Covered (l l' : List Declaration) : Prop :=
  ∀ d ∈ l, ∃ d' ∈ l', d.undescribed = d'.undescribed

/-- Classes of one name have the same methods. -/
def Consistent (l : List Declaration) : Prop :=
  ∀ e e', .classDef e ∈ l → .classDef e' ∈ l → e.name = e'.name → e.methods = e'.methods

section Covered
variable {l l' : List Declaration} (h : Covered l l')
include h

theorem Covered.function {e : FunctionEntry} (he : .function e ∈ l) :
    ∃ e', .function e' ∈ l' ∧ e'.name = e.name := by
  obtain ⟨d, hd, hsame⟩ := h _ he
  cases d with
  | function e' =>
    simp only [Declaration.undescribed, Declaration.function.injEq, FunctionEntry.mk.injEq] at hsame
    exact ⟨e', hd, hsame.1.symm⟩
  | classDef e' => cases hsame
  | constant e' => cases hsame

theorem Covered.classDef {e : ClassEntry} (he : .classDef e ∈ l) :
    ∃ e', .classDef e' ∈ l' ∧ e'.name = e.name ∧ e'.methods = e.methods := by
  obtain ⟨d, hd, hsame⟩ := h _ he
  cases d with
  | classDef e' =>
    simp only [Declaration.undescribed, Declaration.classDef.injEq, ClassEntry.mk.injEq] at hsame
    exact ⟨e', hd, hsame.1.symm, hsame.2.2.2.2.2.symm⟩
  | function e' => cases hsame
  | constant e' => cases hsame

theorem Covered.consistent (hcons : Consistent l') : Consistent l := by
  intro e f he hf hname
  obtain ⟨e', he', hename, hemethods⟩ := h.classDef he
  obtain ⟨f', hf', hfname, hfmethods⟩ := h.classDef hf
  rw [← hemethods, ← hfmethods]
  exact hcons e' f' he' hf' (hename.trans (hname.trans hfname.symm))

theorem Covered.keys_functions {ds ds' : Inventory} (hds : Names l ds) (hds' : Names l' ds') :
    ds.functions.keys ⊆ ds'.functions.keys := by
  intro name hname
  obtain ⟨e, he, rfl⟩ := (hds.functions name).mp hname
  obtain ⟨e', he', hname⟩ := h.function he
  exact (hds'.functions e.name).mpr ⟨e', he', hname⟩

/-- Whatever holds of the name and the methods of a class holds of a class of
the other inventory. -/
theorem Covered.exists_class (hcons : Consistent l') {ds ds' : Inventory} (hds : Holds (· ∈ l) ds)
    (hds' : Holds (· ∈ l') ds') (hnames : Names l' ds') {P : String → List MethodEntry → Prop}
    (hP : ∃ e ∈ ds.classes.values, P e.name e.methods) :
    ∃ e ∈ ds'.classes.values, P e.name e.methods := by
  obtain ⟨e, he, hP⟩ := hP
  obtain ⟨entry, hentry, rfl⟩ := List.mem_map.mp he
  obtain ⟨f, hf, hname, hmethods⟩ := h.classDef (hds.classes entry hentry).2
  -- the class that the table has under this name may be another one, with the same methods
  obtain ⟨entry', hentry', hkey⟩ := List.mem_map.mp ((hnames.classes f.name).mpr ⟨f, hf, rfl⟩)
  obtain ⟨htitle, hmem⟩ := hds'.classes entry' hentry'
  have hname' : entry'.2.name = f.name := htitle.symm.trans hkey
  refine ⟨entry'.2, List.mem_map_of_mem hentry', ?_⟩
  rw [hname', hcons _ _ hmem hf hname', hname, hmethods]
  exact hP

end Covered

/-- The names that calls are ascribed to and go to, as far as they depend on
what was declared. -/
theorem Covered.names_subset {l l' : List Declaration} (h : Covered l l') (hcons : Consistent l') :
    (l.foldl add {}).callables ⊆ (l'.foldl add {}).callables ∧
      (l.foldl add {}).declared ⊆ (l'.foldl add {}).declared := by
  have hfunctions := h.keys_functions (names_foldl_add l) (names_foldl_add l')
  have hclasses := fun P => h.exists_class hcons ((holds_empty _).foldl_add fun _ hd => hd)
    ((holds_empty _).foldl_add fun _ hd => hd) (names_foldl_add l') (P := P)
  constructor
  · intro name hname
    rcases List.mem_append.mp hname with hname | hname
    · exact List.mem_append_left _ (hfunctions hname)
    · refine List.mem_append_right _ ?_
      simp only [List.mem_flatMap, List.mem_map, ClassEntry.qualify] at hname ⊢
      exact hclasses (fun title methods => ∃ m ∈ methods, title ++ "." ++ m.name = name) hname
  · intro name hname
    rcases List.mem_append.mp hname with hname | hname
    · exact List.mem_append_left _ (hfunctions hname)
    · refine List.mem_append_right _ ?_
      simp only [List.mem_flatMap, ClassEntry.qualify] at hname ⊢
      exact hclasses
        (fun title methods => ∃ m ∈ methods, name ∈ [m.name, title ++ "." ++ m.name]) hname

end Inventory

/-! ## Files in another order -/

/-- Two files with the same nodes at the top, which give the same name to a
class body there. -/
structure Reordered (n n' : Node) : Prop where
  kind : n.kind = .program
  kind' : n'.kind = .program
  perm : n.children.Perm n'.children
  title : (∃ t ∈ n.children, t.kind = .classBody) →
    classTitle? (root n) = classTitle? (root n')

namespace Reordered

variable {n n' : Node} (h : Reordered n n')
include h

theorem symm : Reordered n' n :=
  ⟨h.kind', h.kind, h.perm.symm, fun ⟨t, ht, hkind⟩ =>
    (h.title ⟨t, h.perm.mem_iff.mpr ht, hkind⟩).symm⟩

section SamePlace
variable {c c' : Cursor} (hp : SamePlace n n' c c')
include hp

theorem importSteps_eq : importSteps c = importSteps c' := by
  cases hp with
  | intro => rw [importSteps_under h.kind, importSteps_under h.kind']

theorem enclosing?_eq (callables : List String) :
    enclosing? callables c = enclosing? callables c' := by
  cases hp with
  | intro here _ below =>
    refine enclosing?_under h.kind h.kind' below (fun hkind => ?_) callables
    exact h.title ⟨_, List.mem_of_getElem? here, hkind⟩

theorem useAt?_eq (isAlias : String → Bool) (callables : List String) :
    useAt? isAlias callables c = useAt? isAlias callables c' := by
  have hused : usedAlias? isAlias c = usedAlias? isAlias c' := by
    cases hp with
    | intro => rw [usedAlias?_under h.kind, usedAlias?_under h.kind']
  rw [useAt?, useAt?, hused, h.enclosing?_eq hp]

theorem callAt?_eq (isAlias : String → Bool) (declared callables : List String) :
    callAt? isAlias declared callables c = callAt? isAlias declared callables c' := by
  rw [callAt?, callAt?, h.enclosing?_eq hp, Cursor.kind, Cursor.kind, hp.focus_eq]

theorem declarationsAt_repeats {D : Prop} (hdesc : D → Answers (descriptionOf c')) :
    Repeats D (declarationsAt c) (declarationsAt c') := by
  cases hp with
  | intro => exact declarationsAt_under h.kind h.kind' hdesc

end SamePlace

/-- What some node of the one file has, a node of the other one has. -/
theorem exists_node {P P' : Cursor → Prop} (htop : ¬ P (root n))
    (hP : ∀ c c', SamePlace n n' c c' → P c → P' c') (hc : ∃ c ∈ nodesOf n, P c) :
    ∃ c ∈ nodesOf n', P' c := by
  obtain ⟨c, hc, hPc⟩ := hc
  rcases exists_samePlace h.perm.subset (mem_nodesOf.mp hc) with rfl | ⟨c', hp⟩
  · exact (htop hPc).elim
  · exact ⟨c', mem_nodesOf.mpr hp.mem_right, hP c c' hp hPc⟩

/-- A pass over the one file answers when the pass over the other one does. -/
theorem answers_mapM {α : Type} {F F' : Cursor → Except Fault α} (htop : Answers (F' (root n')))
    (hF : ∀ c c', SamePlace n n' c c' → Answers (F c) → Answers (F' c'))
    (hall : Answers ((nodesOf n).mapM F)) : Answers ((nodesOf n').mapM F') := by
  obtain ⟨outs, houts⟩ := hall
  refine .mapM fun c' hc' => ?_
  rcases exists_samePlace h.perm.symm.subset (mem_nodesOf.mp hc') with rfl | ⟨c, hp⟩
  · exact htop
  · obtain ⟨out, -, hout⟩ := exists_ok_of_mapM houts (mem_nodesOf.mpr hp.mem_right)
    exact hF c c' hp.symm ⟨out, hout⟩

/-! ## The passes -/

theorem keys_aliases {found found' : Imports} (hfound : importsIn (nodesOf n) = .ok found)
    (hfound' : importsIn (nodesOf n') = .ok found') :
    found.aliases.keys ⊆ found'.aliases.keys := by
  intro name hname
  apply (mem_keys_importsIn hfound').mpr
  refine h.exists_node ?_ ?_ ((mem_keys_importsIn hfound).mp hname)
  · rintro ⟨steps, hsteps, s, hs, -⟩
    simp only [importSteps, root, Cursor.kind, h.kind] at hsteps
    exact not_mem_of_pure_nil hsteps hs
  · rintro c c' hp ⟨steps, hsteps, hs⟩
    rw [h.importSteps_eq hp] at hsteps
    exact ⟨steps, hsteps, hs⟩

theorem covered {lists lists' : List (List Declaration)}
    (hlists : (nodesOf n).mapM declarationsAt = .ok lists)
    (hlists' : (nodesOf n').mapM declarationsAt = .ok lists') :
    Inventory.Covered lists.flatten lists'.flatten := by
  intro d hd
  have hfellow : ∃ c' ∈ nodesOf n', ∃ l', declarationsAt c' = .ok l' ∧
      ∃ d' ∈ l', d.undescribed = d'.undescribed := by
    refine h.exists_node ?_ ?_ ((mem_flatten_mapM hlists).mp hd)
    · rintro ⟨l, hl, hd⟩
      simp only [declarationsAt, root, Cursor.kind, h.kind] at hl
      exact not_mem_of_pure_nil hl hd
    · rintro c c' hp ⟨l, hl, hd⟩
      obtain ⟨l', -, hl'⟩ := exists_ok_of_mapM hlists' (mem_nodesOf.mpr hp.mem_right)
      have hmap := (h.declarationsAt_repeats hp False.elim l hl).1 l' hl'
      have hmem : d.undescribed ∈ l.map Declaration.undescribed := List.mem_map_of_mem hd
      rw [hmap] at hmem
      obtain ⟨d', hd', hsame⟩ := List.mem_map.mp hmem
      exact ⟨l', hl', d', hd', hsame.symm⟩
  obtain ⟨c', hc', l', hl', d', hd', hsame⟩ := hfellow
  exact ⟨d', (mem_flatten_mapM hlists').mpr ⟨c', hc', l', hl', hd'⟩, hsame⟩

/-- Every comment that describes a node can be read, when the comments of the
file can be read. -/
theorem answers_descriptionOf
    (hcomments : ∀ t ∈ n.preorder, t.kind = .comment → Answers t.text) {c : Cursor}
    (hc : c ∈ (root n').preorder) : Answers (descriptionOf c) := by
  unfold descriptionOf
  split
  · next comment hcomment =>
    obtain ⟨hmem, hkind⟩ := mem_preorder_of_describingComment? hc hcomment
    rcases exists_samePlace h.perm.symm.subset hmem with rfl | ⟨fellow, hp⟩
    · exact absurd (h.kind'.symm.trans hkind) (by decide)
    · have htext := hcomments fellow.focus (SyntaxTree.focus_mem_preorder hp.mem_right)
      rw [← hp.focus_eq] at htext
      exact (htext hkind).bind fun _ _ => .pure _
  · exact .pure _

theorem answers_importsIn (hfound : Answers (importsIn (nodesOf n))) :
    Answers (importsIn (nodesOf n')) := by
  obtain ⟨found, hfound⟩ := hfound
  obtain ⟨steps, hsteps, -⟩ := bind_eq_ok.mp hfound
  refine (h.answers_mapM ?_ ?_ ⟨steps, hsteps⟩).bind fun _ _ => .pure _
  · simp only [importSteps, root, Cursor.kind, h.kind']
    exact .pure _
  · intro c c' hp hc
    rw [← h.importSteps_eq hp]
    exact hc

theorem answers_collect
    (hcomments : ∀ t ∈ n.preorder, t.kind = .comment → Answers t.text)
    (hds : Answers (Inventory.collect (nodesOf n))) :
    Answers (Inventory.collect (nodesOf n')) := by
  obtain ⟨ds, hds⟩ := hds
  obtain ⟨lists, hlists, -⟩ := bind_eq_ok.mp hds
  refine (h.answers_mapM ?_ ?_ ⟨lists, hlists⟩).bind fun _ _ => .pure _
  · simp only [declarationsAt, root, Cursor.kind, h.kind']
    exact .pure _
  · intro c c' hp hc
    obtain ⟨l, hl⟩ := hc
    have hdesc : True → Answers (descriptionOf c') := fun _ =>
      h.answers_descriptionOf hcomments hp.mem_right
    exact (h.declarationsAt_repeats hp hdesc l hl).2 trivial

theorem answers_exportsOf (hexports : Answers (exportsOf n)) : Answers (exportsOf n') := by
  obtain ⟨parts, hparts, -⟩ := bind_eq_ok.mp hexports.choose_spec
  refine (Answers.mapM fun t ht => ?_).bind fun _ _ => .pure _
  have hmem : t ∈ n.namedChildren.filter (·.kind = .exportStatement) :=
    ((h.perm.filter _).filter _).mem_iff.mpr ht
  obtain ⟨part, -, hpart⟩ := exists_ok_of_mapM hparts hmem
  exact ⟨part, hpart⟩

end Reordered

/-! ## Names that calls depend on -/

/-- The names of the classes that are declared. -/
def classNames (l : List Declaration) : List String := (l.filterMap Declaration.class?).map (·.name)

/-- No two classes of the file are recorded under one name. -/
def ClassesApart (n : Node) : Prop :=
  ∀ lists, (nodesOf n).mapM declarationsAt = .ok lists → (classNames lists.flatten).Nodup

instance (n : Node) : Decidable (ClassesApart n) :=
  match h : (nodesOf n).mapM declarationsAt with
  | .ok lists => decidable_of_iff (classNames lists.flatten).Nodup (by
      constructor
      · intro hnodup lists' hlists'
        cases h.symm.trans hlists'
        exact hnodup
      · intro hall
        exact hall lists h)
  | .error e => isTrue (by
      intro lists hlists
      cases h.symm.trans hlists)

theorem consistent_of_nodup {l : List Declaration} (h : (classNames l).Nodup) :
    Inventory.Consistent l := by
  intro e e' he he' hname
  have hmem : e ∈ l.filterMap Declaration.class? := List.mem_filterMap.mpr ⟨_, he, rfl⟩
  have hmem' : e' ∈ l.filterMap Declaration.class? := List.mem_filterMap.mpr ⟨_, he', rfl⟩
  rw [List.inj_on_of_nodup_map h hmem hmem' hname]

/-- The same names are imported, callable and declared. -/
structure SameNames (t t' : Imports) (ds ds' : Inventory) : Prop where
  aliases : t.aliases.contains = t'.aliases.contains
  callables : ∀ name, name ∈ ds.callables ↔ name ∈ ds'.callables
  declared : ∀ name, name ∈ ds.declared ↔ name ∈ ds'.declared

theorem contains_congr {t t' : Imports}
    (h : ∀ name, name ∈ t.aliases.keys ↔ name ∈ t'.aliases.keys) :
    t.aliases.contains = t'.aliases.contains := by
  funext name
  rw [Bool.eq_iff_iff, Table.contains_eq_true, Table.contains_eq_true, h]

namespace SameNames

variable {t t' : Imports} {ds ds' : Inventory} (h : SameNames t t' ds ds')
include h

theorem symm : SameNames t' t ds' ds :=
  ⟨h.aliases.symm, fun name => (h.callables name).symm, fun name => (h.declared name).symm⟩

/-- Noting uses changes none of the names. -/
theorem withUses {nodes nodes' : List Cursor} {callables callables' : List String} {u u' : Imports}
    (hu : Analysis.withUses nodes callables t = .ok u)
    (hu' : Analysis.withUses nodes' callables' t' = .ok u') : SameNames u u' ds ds' := by
  refine ⟨?_, h.callables, h.declared⟩
  calc u.aliases.contains = t.aliases.contains :=
        contains_congr fun _ => by rw [(withUses_keep hu).2]
    _ = t'.aliases.contains := h.aliases
    _ = u'.aliases.contains := contains_congr fun _ => by rw [(withUses_keep hu').2]

theorem enclosing?_eq (c : Cursor) : enclosing? ds.callables c = enclosing? ds'.callables c :=
  enclosing?_congr h.callables c

theorem useAt?_eq (c : Cursor) :
    useAt? t.aliases.contains ds.callables c = useAt? t'.aliases.contains ds'.callables c := by
  rw [useAt?, useAt?, h.aliases, h.enclosing?_eq]

theorem callAt?_eq (c : Cursor) :
    callAt? t.aliases.contains ds.declared ds.callables c
      = callAt? t'.aliases.contains ds'.declared ds'.callables c := by
  have hknown : isKnownCallee t.aliases.contains ds.declared
      = isKnownCallee t'.aliases.contains ds'.declared := by
    funext callee
    rw [Bool.eq_iff_iff]
    simp only [isKnownCallee, Bool.or_eq_true, List.contains_iff_mem, h.declared, h.aliases]
  rw [callAt?, callAt?, h.enclosing?_eq, hknown, h.aliases]

end SameNames

namespace Reordered

variable {n n' : Node} (h : Reordered n n')
include h

theorem sameNames (hapart : ClassesApart n) {found found' : Imports} {ds ds' : Inventory}
    (hfound : importsIn (nodesOf n) = .ok found) (hfound' : importsIn (nodesOf n') = .ok found')
    (hds : Inventory.collect (nodesOf n) = .ok ds)
    (hds' : Inventory.collect (nodesOf n') = .ok ds') : SameNames found found' ds ds' := by
  obtain ⟨lists, hlists, hds⟩ := bind_eq_ok.mp hds
  obtain ⟨lists', hlists', hds'⟩ := bind_eq_ok.mp hds'
  cases pure_eq_ok.mp hds
  cases pure_eq_ok.mp hds'
  have hcovered := h.covered hlists hlists'
  have hcovered' := h.symm.covered hlists' hlists
  -- the classes are known to be apart in one order only, and are the same in the other
  have hcons := consistent_of_nodup (hapart lists hlists)
  have hto := hcovered.names_subset (hcovered'.consistent hcons)
  have hfrom := hcovered'.names_subset hcons
  refine ⟨contains_congr fun name => ⟨?_, ?_⟩, fun name => ⟨?_, ?_⟩, fun name => ⟨?_, ?_⟩⟩
  · exact fun hname => h.keys_aliases hfound hfound' hname
  · exact fun hname => h.symm.keys_aliases hfound' hfound hname
  · exact fun hname => hto.1 hname
  · exact fun hname => hfrom.1 hname
  · exact fun hname => hto.2 hname
  · exact fun hname => hfrom.2 hname

/-- A call of the one file is a call of the other. -/
theorem exists_call {s s' : Survey}
    (hnames : SameNames s.imports s'.imports s.declarations s'.declarations) {f k : String}
    (hcall : ∃ c ∈ nodesOf n, IsCall s c f k) : ∃ c ∈ nodesOf n', IsCall s' c f k := by
  refine h.exists_node ?_ ?_ hcall
  · intro htop
    exact absurd (h.kind.symm.trans htop.kind) (by decide)
  · intro c c' hp hcall
    rw [← callAt?_eq_ok_some, Survey.callAt?, ← hnames.callAt?_eq, ← h.callAt?_eq hp]
    exact callAt?_eq_ok_some.mpr hcall

/-- Two surveyed files in another order have the same callers and callees. -/
theorem calleesOf_iff (hapart : ClassesApart n) {s s' : Survey} (hs : survey n = .ok s)
    (hs' : survey n' = .ok s') {calls calls' : Table String (List String)}
    (hcalls : s.callsIn n = .ok calls) (hcalls' : s'.callsIn n' = .ok calls')
    (description description' f k : String) :
    k ∈ (s.outline calls description).calleesOf f ↔
      k ∈ (s'.outline calls' description').calleesOf f := by
  obtain ⟨found, hpasses⟩ := survey_eq_ok hs
  obtain ⟨found', hpasses'⟩ := survey_eq_ok hs'
  have hnames := (h.sameNames hapart hpasses.imports hpasses'.imports hpasses.declarations
    hpasses'.declarations).withUses hpasses.uses hpasses'.uses
  have hexact := exactCalls_outline (Inventory.holds_collect hpasses.declarations) hcalls
    description
  have hexact' := exactCalls_outline (Inventory.holds_collect hpasses'.declarations) hcalls'
    description'
  rw [hexact.mem_iff, hexact'.mem_iff]
  exact ⟨h.exists_call hnames, h.symm.exists_call hnames.symm⟩

theorem answers_uses {found found' : Imports} {ds ds' : Inventory}
    (hnames : SameNames found found' ds ds')
    (huses : Answers (withUses (nodesOf n) ds.callables found)) :
    Answers (withUses (nodesOf n') ds'.callables found') := by
  obtain ⟨_, huses⟩ := huses
  obtain ⟨outs, houts, -⟩ := bind_eq_ok.mp huses
  refine answers_withUses (h.answers_mapM ?_ ?_ ⟨outs, houts⟩)
  · simp only [useAt?, usedAlias?, root, Cursor.kind, h.kind']
    exact .pure _
  · intro c c' hp hc
    rw [← hnames.useAt?_eq, ← h.useAt?_eq hp]
    exact hc

theorem answers_callsIn {s s' : Survey}
    (hnames : SameNames s.imports s'.imports s.declarations s'.declarations)
    (hcalls : Answers (s.callsIn n)) : Answers (s'.callsIn n') := by
  obtain ⟨_, hcalls⟩ := hcalls
  obtain ⟨outs, houts, -⟩ := bind_eq_ok.mp hcalls
  refine (h.answers_mapM ?_ ?_ ⟨outs, houts⟩).bind fun _ _ => .pure _
  · simp only [callAt?, root, Cursor.kind, h.kind']
    exact .pure _
  · intro c c' hp hc
    rw [← hnames.callAt?_eq, ← h.callAt?_eq hp]
    exact hc

/-- When a file can be surveyed and its comments can be read, it can be
surveyed in another order. -/
theorem exists_survey (hapart : ClassesApart n)
    (hcomments : ∀ t ∈ n.preorder, t.kind = .comment → Answers t.text) {s : Survey}
    (hs : survey n = .ok s) (hcalls : Answers (s.callsIn n)) :
    ∃ s' calls', survey n' = .ok s' ∧ s'.callsIn n' = .ok calls' := by
  obtain ⟨found, hpasses⟩ := survey_eq_ok hs
  obtain ⟨found', hfound'⟩ := h.answers_importsIn ⟨found, hpasses.imports⟩
  obtain ⟨ds', hds'⟩ := h.answers_collect hcomments ⟨_, hpasses.declarations⟩
  obtain ⟨exports', hexports'⟩ := h.answers_exportsOf ⟨_, hpasses.exports⟩
  have hnames := h.sameNames hapart hpasses.imports hfound' hpasses.declarations hds'
  obtain ⟨imports', himports'⟩ := h.answers_uses hnames ⟨_, hpasses.uses⟩
  let s' : Survey := ⟨imports', ds', exports', holdsTypesOnly n'⟩
  have hs' : survey n' = .ok s' :=
    Passes.survey_eq ⟨hfound', hds', hexports', himports'⟩ rfl
  -- the calls read the table after the uses, which has the same names
  have hnames' : SameNames s.imports s'.imports s.declarations s'.declarations :=
    hnames.withUses hpasses.uses himports'
  obtain ⟨calls', hcalls'⟩ := h.answers_callsIn hnames' hcalls
  exact ⟨s', calls', hs', hcalls'⟩

end Reordered

/-! ## Trees in another order -/

/-- The top of a file names a class body by its own name. -/
theorem classTitle?_root {n : Node} (hkind : n.kind = .program) :
    classTitle? (root n) = declaredName? n := by
  have hbound : boundClassTitle? (root n) = .ok none := by
    simp only [boundClassTitle?, root, Cursor.kind, hkind]
    rfl
  rw [classTitle?, hbound]
  show declaredName? n >>= _ = _
  cases declaredName? n with
  | error fault => rfl
  | ok name => cases name <;> rfl

section Trees
variable {code : String} {path : Option String} {l : Label} {e : Span}
  {cs cs' : List (SyntaxTree Span)}

/-- At most one child has the name, so it is the first in any order. -/
theorem child?_perm (hperm : cs.Perm cs') {f : Field}
    (hone : (cs.filter fun t => t.field = some f).length ≤ 1) :
    (SyntaxTree.node l e cs).child? f = (SyntaxTree.node l e cs').child? f := by
  have hfilter := hperm.filter fun t => t.field = some f
  have heq : (cs.filter fun t => t.field = some f) = cs'.filter fun t => t.field = some f := by
    cases hcs : cs.filter fun t => t.field = some f with
    | nil =>
      rw [hcs] at hfilter
      exact hfilter.nil_eq
    | cons t rest =>
      rw [hcs, List.length_cons] at hone
      have hrest : rest = [] := List.length_eq_zero_iff.mp (by omega)
      rw [hcs, hrest] at hfilter
      rw [hrest]
      exact hfilter.singleton_eq
  rw [SyntaxTree.child?, SyntaxTree.child?, SyntaxTree.children, SyntaxTree.children,
    ← List.head?_filter, heq, List.head?_filter]

theorem reordered_locate (hkind : l.kind = .program) (hperm : cs.Perm cs')
    (hname : (∃ t ∈ cs, t.kind = .classBody) →
      (cs.filter fun t => t.field = some .name).length ≤ 1) :
    Reordered ((SyntaxTree.node l e cs).locate code) ((SyntaxTree.node l e cs').locate code) where
  kind := hkind
  kind' := hkind
  perm := by
    rw [SyntaxTree.locate, SyntaxTree.locate, SyntaxTree.children_map, SyntaxTree.children_map]
    exact hperm.map _
  title := by
    rintro ⟨t, ht, hbody⟩
    rw [SyntaxTree.locate, SyntaxTree.children_map] at ht
    obtain ⟨u, hu, rfl⟩ := List.mem_map.mp ht
    rw [SyntaxTree.kind, SyntaxTree.label_map] at hbody
    have htop : ((SyntaxTree.node l e cs).locate code).kind = .program := hkind
    have htop' : ((SyntaxTree.node l e cs').locate code).kind = .program := hkind
    rw [classTitle?_root htop, classTitle?_root htop', declaredName?, declaredName?,
      SyntaxTree.locate, SyntaxTree.locate, SyntaxTree.child?_map, SyntaxTree.child?_map,
      child?_perm hperm (hname ⟨u, hu, hbody⟩)]

theorem answers_reorder
    (h : Reordered ((SyntaxTree.node l e cs).locate code) ((SyntaxTree.node l e cs').locate code))
    (hapart : ClassesApart ((SyntaxTree.node l e cs).locate code))
    (hcomments : ∀ n ∈ ((SyntaxTree.node l e cs).locate code).preorder, n.kind = .comment →
      Answers n.text)
    (hm : Answers (analyse code path (.node l e cs))) :
    Answers (analyse code path (.node l e cs')) := by
  obtain ⟨m, hm⟩ := hm
  obtain ⟨s, calls, hs, hcalls, -⟩ := analyse_eq_ok hm
  obtain ⟨s', calls', hs', hcalls'⟩ := h.exists_survey hapart hcomments hs ⟨calls, hcalls⟩
  obtain ⟨root, hroot, -⟩ := bind_eq_ok.mp hm
  obtain ⟨rfl, hdefect⟩ := readTree_eq_ok hroot
  -- whether there is an error is said at the top, which is the same in both trees
  have herror : l.hasError = false := SyntaxTree.defect?_eq_none.mp hdefect
  have hdefect' : ((SyntaxTree.node l e cs').locate code).defect? = none :=
    SyntaxTree.defect?_eq_none.mpr herror
  exact ⟨_, analyse_of_survey hdefect' hs' hcalls'⟩

/-- Two trees of a source have the same calls, and the second can be analysed
when the first can. -/
structure SameCalls (code : String) (path : Option String) (tree tree' : SyntaxTree Span) :
    Prop where
  pairs : ∀ m m', analyse code path tree = .ok m → analyse code path tree' = .ok m' →
    ∀ f k, k ∈ m.calleesOf f ↔ k ∈ m'.calleesOf f
  /-- Another order puts other comments before a declaration, so these must be
  text. -/
  answers : (∀ n ∈ (tree.locate code).preorder, n.kind = .comment → Answers n.text) →
    Answers (analyse code path tree) → Answers (analyse code path tree')
  /-- What a parser gives for a source without errors is analysed in any
  order. -/
  wellPlaced : WellPlaced code tree → tree.label.hasError = false →
    Answers (analyse code path tree) ∧ Answers (analyse code path tree')

/-- The order of the nodes at the top does not matter to the calls. A class
body there, which no parser puts there, must not have two names to take. -/
theorem sameCalls_reorder (hkind : l.kind = .program) (hperm : cs.Perm cs')
    (hname : (∃ t ∈ cs, t.kind = .classBody) →
      (cs.filter fun t => t.field = some .name).length ≤ 1)
    (hapart : ClassesApart ((SyntaxTree.node l e cs).locate code)) :
    SameCalls code path (.node l e cs) (.node l e cs') := by
  have h : Reordered ((SyntaxTree.node l e cs).locate code)
      ((SyntaxTree.node l e cs').locate code) := reordered_locate hkind hperm hname
  refine ⟨?_, answers_reorder h hapart, ?_⟩
  · intro m m' hm hm' f k
    obtain ⟨s, calls, hs, hcalls, rfl⟩ := analyse_eq_ok hm
    obtain ⟨s', calls', hs', hcalls', rfl⟩ := analyse_eq_ok hm'
    exact h.calleesOf_iff hapart hs hs' hcalls hcalls' _ _ f k
  · intro hplaced herror
    obtain ⟨s, calls, hs, hcalls⟩ := hplaced.exists_survey
    have hdefect : ((SyntaxTree.node l e cs).locate code).defect? = none :=
      SyntaxTree.defect?_eq_none.mpr herror
    have hm : Answers (analyse code path (.node l e cs)) :=
      ⟨_, analyse_of_survey hdefect hs hcalls⟩
    exact ⟨hm, answers_reorder h hapart (fun n hn _ => hplaced.readable_locate n hn) hm⟩

end Trees

/-! ## A class body at the top

It takes the first name that the top has, so the order of two names matters. -/

def looseCode : String := "A B class A\x7bm()\x7b\x7d\x7d\x7bm()\x7bm()\x7d\x7d"

/-- A class, and a class body that no class holds, behind some names. -/
def looseTree (names : List (SyntaxTree Span)) : SyntaxTree Span :=
  construct .program none 0 28 (names ++ [
    construct .classDeclaration none 4 18 [
      construct .identifier (some .name) 10 11 [],
      construct .classBody (some .body) 11 18 [
        construct .methodDefinition none 12 17 [
          construct .propertyIdentifier (some .name) 12 13 []]]],
    construct .classBody none 18 28 [
      construct .methodDefinition none 19 27 [
        construct .propertyIdentifier (some .name) 19 20 [],
        callStatement 23 26 (construct .identifier (some .function) 23 24 [])]]])

def firstName : SyntaxTree Span := construct .identifier (some .name) 0 1 []

def secondName : SyntaxTree Span := construct .identifier (some .name) 2 3 []

/-- At the top stand a class, a class body that no class holds, and one name,
which the body takes in any order. -/
theorem sameCalls_reorder_loose :
    ClassesApart ((looseTree [firstName]).locate looseCode) ∧
      (analyse looseCode none (looseTree [firstName])).toOption.map (·.calls)
        = some ⟨[("A.m", ["m"])]⟩ ∧
      SameCalls looseCode none (looseTree [firstName])
        (construct .program none 0 28 (looseTree [firstName]).children.reverse) := by
  have hapart : ClassesApart ((looseTree [firstName]).locate looseCode) := by decide +kernel
  refine ⟨hapart, by decide +kernel, ?_⟩
  exact sameCalls_reorder rfl (List.reverse_perm _).symm (by decide) hapart

/-- With two names at the top, a class body there makes calls depend on the
order. -/
theorem calls_differ_by_order_of_names :
    (looseTree [firstName, secondName]).children.Perm
        (looseTree [secondName, firstName]).children ∧
      ClassesApart ((looseTree [firstName, secondName]).locate looseCode) ∧
      (analyse looseCode none (looseTree [firstName, secondName])).toOption.map (·.calls)
        = some ⟨[("A.m", ["m"])]⟩ ∧
      (analyse looseCode none (looseTree [secondName, firstName])).toOption.map (·.calls)
        = some ⟨[]⟩ :=
  ⟨List.Perm.swap _ _ _, by decide +kernel, by decide +kernel, by decide +kernel⟩

end CodeAtlas.Analysis
