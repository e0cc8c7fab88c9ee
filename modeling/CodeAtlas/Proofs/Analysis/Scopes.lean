import CodeAtlas.Analysis.Calls
import CodeAtlas.Proofs.Analysis.Passes
import CodeAtlas.Proofs.Analysis.Recorded
/-
  Scopes: the callable around a node, and the name of a scope.

  `enclosing?_eq_ok_some` says which node a call is ascribed to: the nearest
  one above it whose name as a scope is a callable.

  The name of a scope is found from the function upwards, and the name of a
  record from the declaration downwards. `TitledFunction` lists the places at
  which a function can stand so that the two can agree, `RecordedAs` says
  under which name a function is recorded, and
  `scopeLabel?_eq_of_recordedAs` that the two names are the same.
-/

namespace CodeAtlas.Analysis

open CodeAtlas.Syntax

/-! ## The callable around a node -/

/-- The node is passed over when the callable around a node is looked for. -/
def PassedOver (callables : List String) (p : Cursor) : Prop :=
  ∃ label, scopeLabel? p = .ok label ∧ ∀ name ∈ label, name ∉ callables

theorem scopeOnTrail?_cons (callables : List String) (crumb : Crumb) (rest : List Crumb) :
    scopeOnTrail? callables (crumb :: rest) = scopeLabel? ⟨crumb.parent, rest⟩ >>= fun label =>
      match label.filter fun name => callables.contains name with
      | some name => pure (some name)
      | none => scopeOnTrail? callables rest := by
  rw [scopeOnTrail?]
  congr 1
  funext label
  cases label with
  | none => rfl
  | some name => by_cases h : name ∈ callables <;> simp [h, Option.filter]

theorem scopeOnTrail?_congr {callables callables' : List String}
    (h : ∀ name, name ∈ callables ↔ name ∈ callables') (trail : List Crumb) :
    scopeOnTrail? callables trail = scopeOnTrail? callables' trail := by
  induction trail with
  | nil => rfl
  | cons crumb rest ih =>
    have hcontains : callables.contains = callables'.contains := by
      funext name
      rw [Bool.eq_iff_iff, List.contains_iff_mem, List.contains_iff_mem, h]
    rw [scopeOnTrail?, scopeOnTrail?, ih, hcontains]

/-- All that counts of the callables is which they are. -/
theorem enclosing?_congr {callables callables' : List String}
    (h : ∀ name, name ∈ callables ↔ name ∈ callables') (n : Cursor) :
    enclosing? callables n = enclosing? callables' n :=
  scopeOnTrail?_congr h n.trail

theorem enclosing?_eq_bind {callables : List String} {n p : Cursor} (hp : n.parent? = some p) :
    enclosing? callables n = scopeLabel? p >>= fun label =>
      match label.filter fun name => callables.contains name with
      | some name => pure (some name)
      | none => enclosing? callables p := by
  obtain ⟨i, hi⟩ := Cursor.exists_parent hp
  rw [enclosing?, hi, scopeOnTrail?_cons]
  rfl

/-- A callable right above a node is around it. -/
theorem enclosing?_of_callable {callables : List String} {n p : Cursor} {name : String}
    (hp : n.parent? = some p) (hlabel : scopeLabel? p = .ok (some name))
    (hname : name ∈ callables) : enclosing? callables n = .ok (some name) := by
  have hkeep : (some name).filter (fun name => callables.contains name) = some name := by
    simp [Option.filter, hname]
  rw [enclosing?_eq_bind hp, hlabel]
  simp only [bind, Except.bind, hkeep]
  rfl

/-- What is around a node that is passed over is around the nodes below it. -/
theorem enclosing?_of_passedOver {callables : List String} {n p : Cursor}
    (hp : n.parent? = some p) (hskip : PassedOver callables p) :
    enclosing? callables n = enclosing? callables p := by
  obtain ⟨label, hlabel, hout⟩ := hskip
  have hnone : label.filter (fun name => callables.contains name) = none := by
    refine Option.filter_eq_none_iff.mpr ?_
    intro found hfound
    simpa using hout found hfound
  rw [enclosing?_eq_bind hp, hlabel]
  simp only [bind, Except.bind, hnone]

/-- The callable around a node is that of the nearest node above it which has
one. -/
theorem enclosing?_eq_ok_some {callables : List String} {n : Cursor} {name : String} :
    enclosing? callables n = .ok (some name) ↔
      ∃ scope, Cursor.Inside (PassedOver callables) scope n ∧
        scopeLabel? scope = .ok (some name) ∧ name ∈ callables := by
  constructor
  · -- the way up is the trail, and every crumb of it is found or passed over
    obtain ⟨focus, trail⟩ := n
    intro h
    induction trail generalizing focus with
    | nil => cases h
    | cons crumb rest ih =>
      rw [enclosing?_eq_bind rfl] at h
      obtain ⟨label, hlabel, h⟩ := bind_eq_ok.mp h
      split at h
      · next found hfound =>
        cases pure_eq_ok.mp h
        obtain ⟨rfl, hmem⟩ := Option.filter_eq_some_iff.mp hfound
        exact ⟨_, .near rfl, hlabel, by simpa using hmem⟩
      · next hnone =>
        obtain ⟨scope, hin, hscope⟩ := ih crumb.parent h
        have hpassed : PassedOver callables ⟨crumb.parent, rest⟩ := by
          refine ⟨label, hlabel, ?_⟩
          intro found hfound
          simpa using Option.filter_eq_none_iff.mp hnone found hfound
        exact ⟨scope, .deep rfl hpassed hin, hscope⟩
  · rintro ⟨scope, hin, hscope, hname⟩
    induction hin with
    | near hp => exact enclosing?_of_callable hp hscope hname
    | deep hp hskip _ ih =>
      rw [enclosing?_of_passedOver hp hskip]
      exact ih

/-! ## Names of nodes -/

/-- Nodes that name others have a text that is not empty. -/
def NamesShow (root : Node) : Prop :=
  ∀ n ∈ (Cursor.root root).preorder, n.focus.field = some .name → n.text ≠ .ok ""

instance (root : Node) : Decidable (NamesShow root) :=
  inferInstanceAs (Decidable (∀ n ∈ (Cursor.root root).preorder,
    n.focus.field = some .name → n.text ≠ .ok ""))

theorem NamesShow.ne_empty {root : Node} (h : NamesShow root) {c : Cursor} {t : Node} {s : String}
    (hc : c ∈ nodesOf root) (ht : c.focus.child? .name = some t) (hs : t.text = .ok s) :
    s ≠ "" := by
  rintro rfl
  obtain ⟨d, hd, rfl⟩ := Cursor.exists_child? ht
  have hmem := Cursor.mem_preorder_of_child? (mem_nodesOf.mp hc) hd
  exact h d hmem (Cursor.child?_eq_some hd).2.1 hs

theorem nameOr_eq_ok {standIn name : String} {n : Node} (h : nameOr standIn n = .ok name) :
    (n.child? .name = none ∧ declaredName? n = .ok none ∧ name = standIn) ∨
      ∃ t, n.child? .name = some t ∧ t.text = .ok name ∧ declaredName? n = .ok (some name) := by
  obtain ⟨declared, hdeclared, h⟩ := bind_eq_ok.mp h
  have hname := pure_eq_ok.mp h
  rcases optionMapM_eq_ok.mp hdeclared with ⟨hnone, rfl⟩ | ⟨t, s, ht, hs, rfl⟩
  · exact Or.inl ⟨hnone, hdeclared, hname.symm⟩
  · obtain rfl : s = name := hname
    exact Or.inr ⟨t, ht, hs, hdeclared⟩

theorem boundName?_of_binding {host declarator F : Cursor} {target : Node} {name : String}
    (binding : Binding host declarator target name) (value : declarator.child? .value = some F) :
    boundName? F = .ok (some name) := by
  have hbinding : binding? F = some target := by
    simp [binding?, Cursor.parent?_of_child? value, binding.kind, (Cursor.child?_eq_some value).2.2,
      binding.found, binding.identifier]
  rw [boundName?, hbinding]
  exact optionMapM_eq_ok.mpr (Or.inr ⟨target, name, rfl, binding.text, rfl⟩)

theorem boundName?_of_parent {c p : Cursor} (hp : c.parent? = some p)
    (hkind : p.kind ≠ .variableDeclarator) : boundName? c = .ok none := by
  have hbinding : binding? c = none := by
    simp [binding?, hp, hkind]
  rw [boundName?, hbinding]
  rfl

theorem defaultTarget?_eq_some {host c : Cursor} (h : defaultTarget? host = some c) :
    host.focus.holdsToken [.default] = true ∧ c.parent? = some host := by
  unfold defaultTarget? at h
  split at h
  · next htoken =>
    refine ⟨htoken, ?_⟩
    rcases Option.or_eq_some_iff.mp h with h | ⟨-, h⟩
    · exact Cursor.parent?_of_child? h
    · exact Cursor.parent?_of_child? h
  · cases h

/-! ## Places of functions -/

/-- The node is the value of a plain variable that is declared at the top of a
file. -/
def IsTopValue (c : Cursor) : Prop :=
  ∃ (list declarator : Cursor) (target : Node), list.kind.isVariableDeclaration = true ∧
    (list.parentIs .program = true ∨ list.parentIs .exportStatement = true) ∧
    declarator ∈ list.namedChildren ∧ declarator.kind = .variableDeclarator ∧
    declarator.focus.child? .name = some target ∧ target.kind = .identifier ∧
    declarator.child? .value = some c

/-- The node is what a statement exports by default. -/
def IsDefaultExport (c : Cursor) : Prop :=
  ∃ host : Cursor, host.kind = .exportStatement ∧ host.focus.holdsToken [.default] = true ∧
    (host.child? .declaration = some c ∨ host.child? .value = some c)

/-- The node is assigned to `module.exports` at the top of a file. -/
def IsWholeExport (c : Cursor) : Prop :=
  ∃ host assignment left, Assignment host assignment c left ∧ isExportsMember left = .ok true

/-- The class is declared with a name, bound to a variable or exported. -/
inductive TitledClass : Cursor → Prop where
  | declaration {K : Cursor} (kind : K.kind.isClassDeclaration = true)
      (named : (K.focus.child? .name).isSome = true) : TitledClass K
  | bound {K : Cursor} (kind : K.kind = .classExpression) (value : IsTopValue K) : TitledClass K
  | default {K : Cursor} (kind : K.kind.isClassDeclaration = true ∨ K.kind = .classExpression)
      (exported : IsDefaultExport K) : TitledClass K
  | exports {K : Cursor} (kind : K.kind = .classExpression) (exported : IsWholeExport K) :
      TitledClass K

/-- The function is declared with a name, bound to a variable, exported by
default, or a method of a class that has a title. -/
inductive TitledFunction : Cursor → Prop where
  | declaration {F : Cursor} (kind : F.kind.isFunctionDeclaration = true)
      (named : (F.focus.child? .name).isSome = true) : TitledFunction F
  | bound {F : Cursor} (kind : F.kind.isFunctionValue = true) (value : IsTopValue F) :
      TitledFunction F
  | default {F : Cursor} (kind : F.kind.isFunctionValue = true) (exported : IsDefaultExport F) :
      TitledFunction F
  | method {K body F : Cursor} (kind : F.kind = .methodDefinition)
      (ofClass : K.child? .body = some body) (bodyKind : body.kind = .classBody)
      (member : F ∈ body.namedChildren) (titled : TitledClass K) : TitledFunction F

/-- The function is recorded under a name; a method is recorded with its
class. -/
inductive RecordedAs (root : Node) : Cursor → String → Prop where
  | function {host F : Cursor} {e : FunctionEntry} (node : host ∈ nodesOf root)
      (recorded : Recorded host F (.function e)) : RecordedAs root F e.name
  | method {host K body F : Cursor} {e : ClassEntry} {m : MethodEntry} (node : host ∈ nodesOf root)
      (recorded : Recorded host K (.classDef e)) (ofClass : K.child? .body = some body)
      (member : F ∈ body.namedChildren) (kind : F.kind = .methodDefinition)
      (entry : methodEntry F = .ok m) : RecordedAs root F (e.qualify m)

theorem IsDefaultExport.parent {c : Cursor} (h : IsDefaultExport c) :
    ∃ host, c.parent? = some host ∧ host.kind = .exportStatement ∧
      host.focus.holdsToken [.default] = true := by
  obtain ⟨host, hostKind, htoken, hchild | hchild⟩ := h
  · exact ⟨host, Cursor.parent?_of_child? hchild, hostKind, htoken⟩
  · exact ⟨host, Cursor.parent?_of_child? hchild, hostKind, htoken⟩

theorem isClassDeclaration_ne {k : Kind} (h : k.isClassDeclaration = true) :
    k ≠ .classExpression := by
  rintro rfl
  cases h

/-- A class declaration without a name has a title only as the default
export. -/
theorem TitledClass.named_or_default {K : Cursor} (h : TitledClass K)
    (kind : K.kind.isClassDeclaration = true) (hnone : K.focus.child? .name = none)
    (notDefault : standsAsDefault K = false) : False := by
  have hkind := isClassDeclaration_ne kind
  cases h with
  | declaration _ named =>
    rw [hnone] at named
    cases named
  | bound kind' => exact hkind kind'
  | default _ exported =>
    obtain ⟨host, hparent, hostKind, htoken⟩ := exported.parent
    simp [standsAsDefault, hparent, hostKind, htoken] at notDefault
  | exports kind' => exact hkind kind'

theorem isFunctionValue_ne {k : Kind} (h : k.isFunctionValue = true) :
    k.isFunctionDeclaration = false ∧ k ≠ .methodDefinition := by
  revert h
  cases k <;> simp [Kind.isFunctionValue, Kind.isFunctionDeclaration]

theorem TitledFunction.named {F : Cursor} (h : TitledFunction F)
    (kind : F.kind.isFunctionDeclaration = true) : (F.focus.child? .name).isSome = true := by
  cases h with
  | declaration _ named => exact named
  | bound kind' => exact absurd kind (by simp [isFunctionValue_ne kind'])
  | default kind' => exact absurd kind (by simp [isFunctionValue_ne kind'])
  | method kind' =>
    rw [kind'] at kind
    cases kind

/-- A function value with a title is the value of a variable or a default
export. -/
theorem TitledFunction.parent {F : Cursor} (h : TitledFunction F)
    (kind : F.kind.isFunctionValue = true) :
    F.parentIs .variableDeclarator = true ∨ F.parentIs .exportStatement = true := by
  cases h with
  | declaration kind' => exact absurd kind' (by simp [isFunctionValue_ne kind])
  | bound _ value =>
    obtain ⟨_, declarator, _, -, -, -, hkind, -, -, hvalue⟩ := value
    exact Or.inl (Cursor.parentIs_iff.mpr ⟨declarator, Cursor.parent?_of_child? hvalue, hkind⟩)
  | default _ exported =>
    obtain ⟨host, hparent, hostKind, -⟩ := exported.parent
    exact Or.inr (Cursor.parentIs_iff.mpr ⟨host, hparent, hostKind⟩)
  | method kind' => exact absurd kind' (isFunctionValue_ne kind).2

theorem TitledFunction.owner {F : Cursor} (h : TitledFunction F)
    (kind : F.kind = .methodDefinition) :
    ∃ K body, F.parent? = some body ∧ body.kind = .classBody ∧ body.parent? = some K ∧
      TitledClass K := by
  cases h with
  | declaration kind' => rw [kind] at kind'; cases kind'
  | bound kind' => exact absurd kind (isFunctionValue_ne kind').2
  | default kind' => exact absurd kind (isFunctionValue_ne kind').2
  | method _ ofClass bodyKind member titled =>
    have hparent := Cursor.parent?_of_mem_children
      (Cursor.mem_children_of_mem_namedChildren member)
    exact ⟨_, _, hparent, bodyKind, Cursor.parent?_of_child? ofClass, titled⟩

/-! ## The name of a scope -/

theorem scopeLabel?_value {F : Cursor} (kind : F.kind.isFunctionValue = true) :
    scopeLabel? F = valueScope? F := by
  simp [scopeLabel?, isFunctionValue_ne kind, kind]

theorem scopeLabel?_method {F body K : Cursor} (kind : F.kind = .methodDefinition)
    (hbody : F.parent? = some body) (bodyKind : body.kind = .classBody)
    (hK : body.parent? = some K) : scopeLabel? F = methodScope? F K := by
  have hparent : F.parentIs .classBody = true := Cursor.parentIs_iff.mpr ⟨body, hbody, bodyKind⟩
  simp [scopeLabel?, kind, hparent, hbody, hK, Kind.isFunctionDeclaration]

theorem scopeLabel?_bound {host declarator F : Cursor} {target : Node} {name : String}
    (binding : Binding host declarator target name) (value : declarator.child? .value = some F)
    (kind : F.kind.isFunctionValue = true) (hne : name ≠ "") :
    scopeLabel? F = .ok (some name) := by
  rw [scopeLabel?_value kind, valueScope?, boundName?_of_binding binding value]
  refine bind_eq_ok.mpr ⟨_, rfl, ?_⟩
  rw [Option.filter_some, if_pos (by simpa using hne)]
  rfl

theorem scopeLabel?_default {host F : Cursor} {name : String} (hhost : F.parent? = some host)
    (hostKind : host.kind = .exportStatement) (kind : F.kind.isFunctionValue = true)
    (named : nameOr namelessDefault F.focus = .ok name) : scopeLabel? F = .ok (some name) := by
  have hparent : F.parentIs .exportStatement = true :=
    Cursor.parentIs_iff.mpr ⟨host, hhost, hostKind⟩
  rw [scopeLabel?_value kind, valueScope?,
    boundName?_of_parent hhost (by rw [hostKind]; decide)]
  refine bind_eq_ok.mpr ⟨none, rfl, ?_⟩
  rw [Option.filter_none, if_pos hparent, named]
  rfl

theorem scopeLabel?_declaration {F : Cursor} {standIn name : String}
    (kind : F.kind.isFunctionDeclaration = true) (named : nameOr standIn F.focus = .ok name)
    (hname : (F.focus.child? .name).isSome = true) : scopeLabel? F = .ok (some name) := by
  rw [scopeLabel?, if_pos kind]
  rcases nameOr_eq_ok named with ⟨hnone, -⟩ | ⟨t, -, -, hdeclared⟩
  · rw [hnone] at hname
    cases hname
  · exact hdeclared

theorem methodScope?_eq {F K : Cursor} {title key : String}
    (htitle : classTitle? K = .ok (some title)) (hne : title ≠ "")
    (hkey : memberName F.focus = .ok key) :
    methodScope? F K = .ok (some (title ++ "." ++ key)) := by
  rw [methodScope?, htitle]
  refine bind_eq_ok.mpr ⟨_, rfl, ?_⟩
  rw [Option.filter_some, if_pos (by simpa using hne)]
  exact bind_eq_ok.mpr ⟨key, hkey, rfl⟩

/-! ## Titles of classes -/

theorem classTitle?_eq_declared {K : Cursor} {name : String}
    (hbound : boundClassTitle? K = .ok none)
    (hdeclared : declaredName? K.focus = .ok (some name)) : classTitle? K = .ok (some name) := by
  rw [classTitle?, hbound]
  refine bind_eq_ok.mpr ⟨none, rfl, ?_⟩
  rw [hdeclared]
  rfl

theorem classTitle?_eq_placed {K : Cursor} (hbound : boundClassTitle? K = .ok none)
    (hdeclared : declaredName? K.focus = .ok none) : classTitle? K = placedClassTitle? K := by
  rw [classTitle?, hbound]
  show (declaredName? K.focus >>= _) = _
  rw [hdeclared]
  rfl

theorem boundClassTitle?_of_declaration {K : Cursor} (kind : K.kind.isClassDeclaration = true) :
    boundClassTitle? K = .ok none := by
  rw [boundClassTitle?, if_neg (isClassDeclaration_ne kind)]
  rfl

theorem boundClassTitle?_of_parent {K p : Cursor} (hp : K.parent? = some p)
    (hkind : p.kind ≠ .variableDeclarator) : boundClassTitle? K = .ok none := by
  unfold boundClassTitle?
  split
  · rw [boundName?_of_parent hp hkind]
    rfl
  · rfl

theorem classTitle?_bound {host declarator K : Cursor} {target : Node} {name : String}
    (binding : Binding host declarator target name) (value : declarator.child? .value = some K)
    (kind : K.kind = .classExpression) (hne : name ≠ "") : classTitle? K = .ok (some name) := by
  have hbound : boundClassTitle? K = .ok (some name) := by
    rw [boundClassTitle?, if_pos kind, boundName?_of_binding binding value]
    refine bind_eq_ok.mpr ⟨_, rfl, ?_⟩
    rw [Option.filter_some, if_pos (by simpa using hne)]
    rfl
  rw [classTitle?, hbound]
  rfl

/-- A class that is exported by default has its own name or the stand-in. -/
theorem classTitle?_default {host K : Cursor} {name : String} (hhost : K.parent? = some host)
    (hostKind : host.kind = .exportStatement) (named : nameOr namelessDefault K.focus = .ok name) :
    classTitle? K = .ok (some name) := by
  have hbound : boundClassTitle? K = .ok none :=
    boundClassTitle?_of_parent hhost (by rw [hostKind]; decide)
  rcases nameOr_eq_ok named with ⟨-, hnone, rfl⟩ | ⟨t, -, -, hdeclared⟩
  · rw [classTitle?_eq_placed hbound hnone, placedClassTitle?, hhost]
    exact if_pos hostKind
  · exact classTitle?_eq_declared hbound hdeclared

/-- A class that is assigned to `module.exports` has its own name or the
stand-in. -/
theorem classTitle?_exports {root : Node} (hnames : NamesShow root) {host assignment K : Cursor}
    {left : Node} {title : Option String} (hK : K ∈ nodesOf root)
    (assigned : Assignment host assignment K left) (whole : isExportsMember left = .ok true)
    (htitle : classTitle? K = .ok title) : ∃ name, title = some name ∧ name ≠ "" := by
  have hkind : assignment.kind = .assignmentExpression :=
    (Cursor.firstOfKind?_eq_some assigned.first).2
  have hparent := Cursor.parent?_of_child? assigned.onRight
  have hbound : boundClassTitle? K = .ok none :=
    boundClassTitle?_of_parent hparent (by rw [hkind]; decide)
  obtain ⟨bound, hbound', htitle⟩ := bind_eq_ok.mp htitle
  cases hbound.symm.trans hbound'
  obtain ⟨declared, hdeclared, htitle⟩ := bind_eq_ok.mp htitle
  rcases optionMapM_eq_ok.mp hdeclared with ⟨-, rfl⟩ | ⟨t, s, ht, hs, rfl⟩
  · -- without a name of its own the class is called after where it stands
    have hplaced : placedClassTitle? K = .ok (some namelessExports) := by
      rw [placedClassTitle?, hparent]
      simp [hkind, assigned.onLeft, whole]
      rfl
    refine ⟨namelessExports, ?_, by decide⟩
    exact Except.ok.inj (htitle.symm.trans hplaced)
  · cases pure_eq_ok.mp htitle
    exact ⟨s, rfl, hnames.ne_empty hK ht hs⟩

/-- A class with a title is recorded under its title. -/
theorem ClassSite.title_eq {root : Node} (hnames : NamesShow root) {host K span : Cursor}
    {name : String} (node : host ∈ nodesOf root) (site : ClassSite host K name span)
    (titled : TitledClass K) : classTitle? K = .ok (some name) ∧ name ≠ "" := by
  have hhost := mem_nodesOf.mp node
  cases site with
  | statement kind notDefault named =>
    have hbound := boundClassTitle?_of_declaration kind
    rcases nameOr_eq_ok named with ⟨hnone, -⟩ | ⟨t, ht, hs, hdeclared⟩
    · exact (titled.named_or_default kind hnone notDefault).elim
    · exact ⟨classTitle?_eq_declared hbound hdeclared, hnames.ne_empty node ht hs⟩
  | bound binding value kind =>
    have hdeclarator := Cursor.mem_preorder_of_mem_namedChildren hhost binding.mem
    have hne := hnames.ne_empty (mem_nodesOf.mpr hdeclarator) binding.found binding.text
    exact ⟨classTitle?_bound binding value kind hne, hne⟩
  | default hostKind target kind named =>
    obtain ⟨htoken, hparent⟩ := defaultTarget?_eq_some target
    refine ⟨classTitle?_default hparent hostKind named, ?_⟩
    rcases nameOr_eq_ok named with ⟨-, -, rfl⟩ | ⟨t, ht, hs, -⟩
    · decide
    · exact hnames.ne_empty (mem_nodesOf.mpr (mem_preorder_of_defaultTarget? hhost target)) ht hs
  | exports assigned whole kind named =>
    have hK := (assigned.mem_preorder hhost).2
    obtain ⟨name, rfl, hne⟩ :=
      classTitle?_exports hnames (mem_nodesOf.mpr hK) assigned whole named
    rw [Option.filter_some, if_pos (by simpa using hne)]
    exact ⟨named, hne⟩

/-! ## Recorded names are scope names -/

/-- A function value whose parent is of another kind has no title. -/
theorem TitledFunction.not_of_parent {F p : Cursor} (h : TitledFunction F)
    (kind : F.kind.isFunctionValue = true) (hp : F.parent? = some p)
    (hvariable : p.kind ≠ .variableDeclarator) (hexport : p.kind ≠ .exportStatement) : False := by
  rcases h.parent kind with hparent | hparent
  · obtain ⟨q, hq, hkind⟩ := Cursor.parentIs_iff.mp hparent
    cases hp.symm.trans hq
    exact hvariable hkind
  · obtain ⟨q, hq, hkind⟩ := Cursor.parentIs_iff.mp hparent
    cases hp.symm.trans hq
    exact hexport hkind

theorem FunctionSite.scopeLabel?_eq {root : Node} (hnames : NamesShow root)
    {host F span place : Cursor} {name : String} (node : host ∈ nodesOf root)
    (site : FunctionSite host F name span place) (titled : TitledFunction F) :
    scopeLabel? F = .ok (some name) := by
  cases site with
  | statement kind _ named => exact scopeLabel?_declaration kind named (titled.named kind)
  | bound binding value kind =>
    have hdeclarator := Cursor.mem_preorder_of_mem_namedChildren (mem_nodesOf.mp node) binding.mem
    have hne := hnames.ne_empty (mem_nodesOf.mpr hdeclarator) binding.found binding.text
    exact scopeLabel?_bound binding value kind hne
  | method _ _ member objectKind kind _ =>
    -- the body of a class is not an object
    obtain ⟨K, body, hbody, bodyKind, -⟩ := titled.owner kind
    have hobject := Cursor.parent?_of_mem_children
      (Cursor.mem_children_of_mem_namedChildren member)
    cases hobject.symm.trans hbody
    rw [objectKind] at bodyKind
    cases bodyKind
  | pair _ _ _ memberKind memberValue kind =>
    exact (titled.not_of_parent kind (Cursor.parent?_of_child? memberValue)
      (by rw [memberKind]; decide) (by rw [memberKind]; decide)).elim
  | default hostKind target kind named =>
    rcases kind with kind | kind
    · exact scopeLabel?_declaration kind named (titled.named kind)
    · exact scopeLabel?_default (defaultTarget?_eq_some target).2 hostKind kind named
  | exports assigned _ kind =>
    have hkind := (Cursor.firstOfKind?_eq_some assigned.first).2
    exact (titled.not_of_parent kind (Cursor.parent?_of_child? assigned.onRight)
      (by rw [hkind]; decide) (by rw [hkind]; decide)).elim
  | exportsMember assigned kind =>
    have hkind := (Cursor.firstOfKind?_eq_some assigned.first).2
    exact (titled.not_of_parent kind (Cursor.parent?_of_child? assigned.onRight)
      (by rw [hkind]; decide) (by rw [hkind]; decide)).elim

theorem RecordedAs.scopeLabel?_eq {root : Node} (hnames : NamesShow root) {F : Cursor}
    {name : String} (h : RecordedAs root F name) (titled : TitledFunction F) :
    scopeLabel? F = .ok (some name) := by
  cases h with
  | function node recorded =>
    cases recorded with
    | function site _ entry =>
      obtain ⟨params, -, rfl⟩ := functionEntry_eq_ok entry
      exact site.scopeLabel?_eq hnames node titled
  | method node recorded ofClass member kind entry =>
    cases recorded with
    | classDef site _ classEntry =>
      obtain ⟨-, -, rfl, -⟩ := classEntry_eq_ok classEntry
      -- the class that the title belongs to is the one that is recorded
      obtain ⟨K, body, hbody, bodyKind, hK, htitled⟩ := titled.owner kind
      have hmember := Cursor.parent?_of_mem_children
        (Cursor.mem_children_of_mem_namedChildren member)
      cases hmember.symm.trans hbody
      cases (Cursor.parent?_of_child? ofClass).symm.trans hK
      obtain ⟨htitle, hne⟩ := site.title_eq hnames node htitled
      rw [scopeLabel?_method kind hbody bodyKind hK]
      exact methodScope?_eq htitle hne (methodEntry_eq_ok entry).1

/-- Every callable of the inventory is the name of a recorded function. -/
theorem exists_recordedAs {root : Node} {ds : Inventory}
    (h : Inventory.collect (nodesOf root) = .ok ds) {name : String} (hname : name ∈ ds.callables) :
    ∃ F, RecordedAs root F name := by
  have hholds := Inventory.holds_collect h
  rcases List.mem_append.mp hname with hname | hname
  · obtain ⟨⟨key, e⟩, hmem, rfl⟩ := List.mem_map.mp hname
    obtain ⟨hkey, host, node, ds', hds', hd⟩ := hholds.functions _ hmem
    obtain ⟨F, recorded⟩ := exists_recorded hds' hd
    rw [hkey]
    exact ⟨F, .function node recorded⟩
  · obtain ⟨e, he, hname⟩ := List.mem_flatMap.mp hname
    obtain ⟨m, hm, rfl⟩ := List.mem_map.mp hname
    obtain ⟨⟨key, e⟩, hmem, rfl⟩ := List.mem_map.mp he
    obtain ⟨-, host, node, ds', hds', hd⟩ := hholds.classes _ hmem
    obtain ⟨K, recorded⟩ := exists_recorded hds' hd
    have hmethods : methodsOf K = .ok e.methods := by
      cases recorded with
      | classDef _ _ entry => exact (classEntry_eq_ok entry).2.1
    obtain ⟨body, F, hbody, hF, hkind, hentry⟩ := mem_methodsOf hmethods hm
    exact ⟨F, .method node recorded hbody hF hkind hentry⟩

/-- In a file whose names show, a function with a title is recorded under the
name that it has as a scope; and if that name is a callable, what happens in
the function is ascribed to it. The callables are all names of recorded
functions. -/
theorem scopeLabel?_eq_of_recordedAs (root : Node) (hnames : NamesShow root) :
    (∀ F name, RecordedAs root F name → TitledFunction F →
      scopeLabel? F = .ok (some name) ∧
      ∀ ds, Inventory.collect (nodesOf root) = .ok ds → name ∈ ds.callables →
        ∀ n, Cursor.Inside (PassedOver ds.callables) F n →
          enclosing? ds.callables n = .ok (some name)) ∧
    ∀ ds, Inventory.collect (nodesOf root) = .ok ds → ∀ name ∈ ds.callables,
      ∃ F, RecordedAs root F name := by
  refine ⟨?_, fun ds hds name hname => exists_recordedAs hds hname⟩
  intro F name recorded titled
  have hlabel := recorded.scopeLabel?_eq hnames titled
  refine ⟨hlabel, ?_⟩
  intro ds _ hname n hin
  exact enclosing?_eq_ok_some.mpr ⟨F, hin, hlabel, hname⟩

def sampleRoot : Node := sampleTree.locate sampleCode

/-- One step down in the small file. -/
def sampleStep (c : Cursor) (i : Nat) (t : SyntaxTree Span) : Cursor :=
  ⟨t.locate sampleCode, ⟨c.focus, i⟩ :: c.trail⟩

def sampleHost : Cursor := sampleStep (Cursor.root sampleRoot) 4 sampleExport

def sampleOwner : Cursor := sampleStep sampleHost 1 sampleClass

/-- The method of the class that the small file exports. -/
def sampleMember : Cursor := sampleStep (sampleStep sampleOwner 0 sampleBody) 0 sampleMethod

/-- The block of that method; the call stands in a statement of it. -/
def sampleInner : Cursor := sampleStep sampleMember 1 sampleBlock

theorem scopeLabel?_eq_of_recordedAs_sample :
    NamesShow sampleRoot ∧ RecordedAs sampleRoot sampleMember "[default].m" ∧
      TitledFunction sampleMember ∧ scopeLabel? sampleMember = .ok (some "[default].m") ∧
      ∃ ds, Inventory.collect (nodesOf sampleRoot) = .ok ds ∧ "[default].m" ∈ ds.callables ∧
        enclosing? ds.callables sampleInner = .ok (some "[default].m") := by
  -- One evaluation for all that reads the source, so that it is read once.
  have hsource : NamesShow sampleRoot ∧ descriptionOf sampleHost = .ok "" ∧
      classEntry "[default]" sampleOwner sampleHost.focus ""
        = .ok ⟨"[default]", 5, 5, none, "", [⟨"m", "", 5, false, .method, ""⟩]⟩ ∧
      methodEntry sampleMember = .ok ⟨"m", "", 5, false, .method, ""⟩ ∧
      (Inventory.collect (nodesOf sampleRoot)).toOption.map Inventory.callables
        = some ["a", "b", "[default].m"] := by decide +kernel
  obtain ⟨hnames, hdescription, hentry, hmethod, hcallables⟩ := hsource
  have hhost : sampleHost ∈ nodesOf sampleRoot :=
    mem_nodesOf.mpr (Cursor.mem_preorder_of_mem_children (Cursor.mem_preorder_self _)
      (Cursor.mem_children.mpr ⟨4, _, rfl, rfl⟩))
  have hclass : Recorded sampleHost sampleOwner
      (.classDef ⟨"[default]", 5, 5, none, "", [⟨"m", "", 5, false, .method, ""⟩]⟩) :=
    .classDef (.default rfl rfl (Or.inr rfl) rfl) hdescription hentry
  have hmember : sampleMember ∈ (sampleStep sampleOwner 0 sampleBody).namedChildren :=
    List.mem_filter.mpr ⟨Cursor.mem_children.mpr ⟨0, _, rfl, rfl⟩, rfl⟩
  have hrecorded : RecordedAs sampleRoot sampleMember "[default].m" :=
    .method hhost hclass rfl hmember rfl hmethod
  have htitled : TitledFunction sampleMember :=
    .method rfl rfl rfl hmember (.default (Or.inr rfl) ⟨sampleHost, rfl, rfl, Or.inr rfl⟩)
  obtain ⟨hlabel, hinside⟩ :=
    (scopeLabel?_eq_of_recordedAs sampleRoot hnames).1 sampleMember _ hrecorded htitled
  refine ⟨hnames, hrecorded, htitled, hlabel, ?_⟩
  cases hds : Inventory.collect (nodesOf sampleRoot) with
  | error e =>
    rw [hds] at hcallables
    cases hcallables
  | ok ds =>
    rw [hds] at hcallables
    have hname : "[default].m" ∈ ds.callables := by
      rw [Option.some.inj hcallables]
      decide
    exact ⟨ds, rfl, hname, hinside ds hds hname sampleInner (.near rfl)⟩

end CodeAtlas.Analysis
