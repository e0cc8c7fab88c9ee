import CodeAtlas.Analysis.Declarations
import CodeAtlas.Proofs.Fallible
import CodeAtlas.Proofs.Syntax.Cursor
import CodeAtlas.Proofs.Table
/-
  Which node a declaration comes from.

  An entry of the inventory says nothing of the node that it describes. The
  relations here do: `FunctionSite` and `ClassSite` give, for each place at
  which a node of a file makes a declaration, the function or class node, the
  name that it is recorded under and the node whose lines it gets, and
  `Recorded` adds the entry itself.

  `exists_recorded` says that every declaration that is made is made at one of
  these places. Later proofs about declarations start from it and do not open
  the passes again.
-/

namespace CodeAtlas.Analysis

open CodeAtlas.Syntax

/-! ## Places of declarations -/

/-- `declarator` binds the variable `target` of that name, in the list of
variables `host` at the top of a file. -/
structure Binding (host declarator : Cursor) (target : Node) (name : String) : Prop where
  list : host.kind.isVariableDeclaration = true
  top : host.parentIs .program = true ∨ host.parentIs .exportStatement = true
  mem : declarator ∈ host.namedChildren
  kind : declarator.kind = .variableDeclarator
  found : declarator.focus.child? .name = some target
  identifier : target.kind = .identifier
  text : target.text = .ok name

/-- `host` is a statement at the top of a file that assigns `right` to
`left`. -/
structure Assignment (host assignment right : Cursor) (left : Node) : Prop where
  kind : host.kind = .expressionStatement
  top : host.parentIs .program = true
  first : host.firstOfKind? .assignmentExpression = some assignment
  onLeft : assignment.focus.child? .left = some left
  onRight : assignment.child? .right = some right

/-- The function `F` is declared by `host` under a name; it gets the lines of
`span`, and the comment before `place` describes it. -/
inductive FunctionSite (host : Cursor) : (F : Cursor) → (name : String) → (span place : Cursor) →
    Prop where
  | statement {name : String} (kind : host.kind.isFunctionDeclaration = true)
      (notDefault : standsAsDefault host = false) (named : nameOr nameless host.focus = .ok name) :
      FunctionSite host host name host host
  | bound {declarator F : Cursor} {target : Node} {name : String}
      (binding : Binding host declarator target name) (value : declarator.child? .value = some F)
      (kind : F.kind.isFunctionValue = true) : FunctionSite host F name host host
  | method {declarator object F : Cursor} {target : Node} {name key : String}
      (binding : Binding host declarator target name)
      (value : declarator.child? .value = some object) (member : F ∈ object.namedChildren)
      (objectKind : object.kind = .object) (kind : F.kind = .methodDefinition)
      (named : memberName F.focus = .ok key) : FunctionSite host F (name ++ "." ++ key) F F
  | pair {declarator object member F : Cursor} {target keyNode : Node} {name key : String}
      (binding : Binding host declarator target name)
      (value : declarator.child? .value = some object) (mem : member ∈ object.namedChildren)
      (memberKind : member.kind = .pair) (memberValue : member.child? .value = some F)
      (kind : F.kind.isFunctionValue = true) (memberKey : member.focus.child? .key = some keyNode)
      (keyKind : keyNode.kind = .propertyIdentifier) (named : keyNode.text = .ok key) :
      FunctionSite host F (name ++ "." ++ key) member member
  | default {F : Cursor} {name : String} (hostKind : host.kind = .exportStatement)
      (target : defaultTarget? host = some F)
      (kind : F.kind.isFunctionDeclaration = true ∨ F.kind.isFunctionValue = true)
      (named : nameOr namelessDefault F.focus = .ok name) : FunctionSite host F name host host
  | exports {assignment F : Cursor} {left : Node} {name : String}
      (assigned : Assignment host assignment F left) (whole : isExportsMember left = .ok true)
      (kind : F.kind.isFunctionValue = true) (named : nameOr namelessExports F.focus = .ok name) :
      FunctionSite host F name assignment host
  | exportsMember {assignment F : Cursor} {left object property : Node} {name : String}
      (assigned : Assignment host assignment F left) (kind : F.kind.isFunctionValue = true)
      (ofObject : left.child? .object = some object)
      (ofProperty : left.child? .property = some property)
      (propertyKind : property.kind = .propertyIdentifier)
      (onExports : isExportsObject object = .ok true) (named : property.text = .ok name) :
      FunctionSite host F name assignment host

/-- The class `K` is declared by `host` under a name, and gets the lines of
`span`. -/
inductive ClassSite (host : Cursor) : (K : Cursor) → (name : String) → (span : Cursor) →
    Prop where
  | statement {name : String} (kind : host.kind.isClassDeclaration = true)
      (notDefault : standsAsDefault host = false) (named : nameOr nameless host.focus = .ok name) :
      ClassSite host host name host
  | bound {declarator K : Cursor} {target : Node} {name : String}
      (binding : Binding host declarator target name) (value : declarator.child? .value = some K)
      (kind : K.kind = .classExpression) : ClassSite host K name host
  | default {K : Cursor} {name : String} (hostKind : host.kind = .exportStatement)
      (target : defaultTarget? host = some K)
      (kind : K.kind.isClassDeclaration = true ∨ K.kind = .classExpression)
      (named : nameOr namelessDefault K.focus = .ok name) : ClassSite host K name host
  | exports {assignment K : Cursor} {left : Node} {title : Option String}
      (assigned : Assignment host assignment K left) (whole : isExportsMember left = .ok true)
      (kind : K.kind = .classExpression) (named : classTitle? K = .ok title) :
      ClassSite host K ((title.filter (· ≠ "")).getD namelessExports) assignment

/-- `host` records the node with a declaration. -/
inductive Recorded (host : Cursor) : Cursor → Declaration → Prop where
  | function {F span place : Cursor} {name description : String} {e : FunctionEntry}
      (site : FunctionSite host F name span place)
      (described : descriptionOf place = .ok description)
      (entry : functionEntry name F.focus span.focus description = .ok e) :
      Recorded host F (.function e)
  | classDef {K span : Cursor} {name description : String} {e : ClassEntry}
      (site : ClassSite host K name span) (described : descriptionOf host = .ok description)
      (entry : classEntry name K span.focus description = .ok e) :
      Recorded host K (.classDef e)
  | constant {declarator : Cursor} {target : Node} {name description : String}
      (binding : Binding host declarator target name)
      (described : descriptionOf host = .ok description) :
      Recorded host declarator (.constant ⟨name, host.focus.startLine, description⟩)

/-! ## Places in a tree -/

theorem mem_preorder_of_defaultTarget? {r host c : Cursor} (hhost : host ∈ r.preorder)
    (h : defaultTarget? host = some c) : c ∈ r.preorder := by
  unfold defaultTarget? at h
  split at h
  · rcases Option.or_eq_some_iff.mp h with h | ⟨-, h⟩
    · exact Cursor.mem_preorder_of_child? hhost h
    · exact Cursor.mem_preorder_of_child? hhost h
  · cases h

theorem Assignment.mem_preorder {r host assignment right : Cursor} {left : Node}
    (hhost : host ∈ r.preorder) (assigned : Assignment host assignment right left) :
    assignment ∈ r.preorder ∧ right ∈ r.preorder := by
  have hassignment := Cursor.mem_preorder_of_mem_namedChildren hhost
    (Cursor.firstOfKind?_eq_some assigned.first).1
  exact ⟨hassignment, Cursor.mem_preorder_of_child? hassignment assigned.onRight⟩

/-- What a function is declared with are nodes of the tree. -/
theorem FunctionSite.mem_preorder {r host F span place : Cursor} {name : String}
    (hhost : host ∈ r.preorder) (site : FunctionSite host F name span place) :
    F ∈ r.preorder ∧ span ∈ r.preorder ∧ place ∈ r.preorder := by
  cases site with
  | statement => exact ⟨hhost, hhost, hhost⟩
  | bound binding value =>
    have hdeclarator := Cursor.mem_preorder_of_mem_namedChildren hhost binding.mem
    exact ⟨Cursor.mem_preorder_of_child? hdeclarator value, hhost, hhost⟩
  | method binding value member =>
    have hdeclarator := Cursor.mem_preorder_of_mem_namedChildren hhost binding.mem
    have hobject := Cursor.mem_preorder_of_child? hdeclarator value
    have hF := Cursor.mem_preorder_of_mem_namedChildren hobject member
    exact ⟨hF, hF, hF⟩
  | pair binding value mem _ memberValue =>
    have hdeclarator := Cursor.mem_preorder_of_mem_namedChildren hhost binding.mem
    have hobject := Cursor.mem_preorder_of_child? hdeclarator value
    have hmember := Cursor.mem_preorder_of_mem_namedChildren hobject mem
    exact ⟨Cursor.mem_preorder_of_child? hmember memberValue, hmember, hmember⟩
  | default _ target => exact ⟨mem_preorder_of_defaultTarget? hhost target, hhost, hhost⟩
  | exports assigned =>
    obtain ⟨hassignment, hF⟩ := assigned.mem_preorder hhost
    exact ⟨hF, hassignment, hhost⟩
  | exportsMember assigned =>
    obtain ⟨hassignment, hF⟩ := assigned.mem_preorder hhost
    exact ⟨hF, hassignment, hhost⟩

theorem ClassSite.mem_preorder {r host K span : Cursor} {name : String} (hhost : host ∈ r.preorder)
    (site : ClassSite host K name span) : K ∈ r.preorder ∧ span ∈ r.preorder := by
  cases site with
  | statement => exact ⟨hhost, hhost⟩
  | bound binding value =>
    have hdeclarator := Cursor.mem_preorder_of_mem_namedChildren hhost binding.mem
    exact ⟨Cursor.mem_preorder_of_child? hdeclarator value, hhost⟩
  | default _ target => exact ⟨mem_preorder_of_defaultTarget? hhost target, hhost⟩
  | exports assigned =>
    obtain ⟨hassignment, hK⟩ := assigned.mem_preorder hhost
    exact ⟨hK, hassignment⟩

/-! ## Entries -/

theorem functionEntry_eq_ok {name description : String} {function span : Node} {e : FunctionEntry}
    (h : functionEntry name function span description = .ok e) :
    ∃ params, parameters function = .ok params ∧
      e = ⟨name, params, span.startLine, span.endLine, description⟩ := by
  obtain ⟨params, hparams, h⟩ := bind_eq_ok.mp h
  exact ⟨params, hparams, (pure_eq_ok.mp h).symm⟩

theorem methodEntry_eq_ok {c : Cursor} {m : MethodEntry} (h : methodEntry c = .ok m) :
    memberName c.focus = .ok m.name ∧ parameters c.focus = .ok m.params ∧
      descriptionOf c = .ok m.description ∧ m.line = c.focus.startLine := by
  obtain ⟨kind, -, h⟩ := bind_eq_ok.mp h
  obtain ⟨name, hname, h⟩ := bind_eq_ok.mp h
  obtain ⟨params, hparams, h⟩ := bind_eq_ok.mp h
  obtain ⟨description, hdesc, h⟩ := bind_eq_ok.mp h
  cases pure_eq_ok.mp h
  exact ⟨hname, hparams, hdesc, rfl⟩

theorem classEntry_eq_ok {name description : String} {K : Cursor} {span : Node} {e : ClassEntry}
    (h : classEntry name K span description = .ok e) :
    baseName? K.focus = .ok e.baseClass ∧ methodsOf K = .ok e.methods ∧ e.name = name ∧
      e.startLine = span.startLine ∧ e.endLine = span.endLine ∧ e.description = description := by
  obtain ⟨base, hbase, h⟩ := bind_eq_ok.mp h
  obtain ⟨methods, hmethods, h⟩ := bind_eq_ok.mp h
  cases pure_eq_ok.mp h
  exact ⟨hbase, hmethods, rfl, rfl, rfl, rfl⟩

/-- The methods of a class are those in its body. -/
theorem mem_methodsOf {K : Cursor} {ms : List MethodEntry} {m : MethodEntry}
    (h : methodsOf K = .ok ms) (hm : m ∈ ms) :
    ∃ body F, K.child? .body = some body ∧ F ∈ body.namedChildren ∧
      F.kind = .methodDefinition ∧ methodEntry F = .ok m := by
  unfold methodsOf at h
  split at h
  · rw [← pure_eq_ok.mp h] at hm
    cases hm
  next body hbody =>
  obtain ⟨entries, hentries, h⟩ := bind_eq_ok.mp h
  rw [← pure_eq_ok.mp h] at hm
  obtain ⟨entry, hentry, rfl⟩ := List.mem_map.mp hm
  obtain ⟨m, hmem, rfl⟩ := List.mem_map.mp (Table.mem_of_mem_entries_ofList hentry)
  obtain ⟨F, hF, hmF⟩ := exists_of_mem_mapM hentries hmem
  obtain ⟨hF, hkind⟩ := List.mem_filter.mp hF
  exact ⟨body, F, hbody, hF, by simpa using hkind, hmF⟩

/-! ## Every declaration has its place -/

theorem mem_oneFunction {name description : String} {function span : Node}
    {ds : List Declaration} {d : Declaration}
    (h : oneFunction name function span description = .ok ds) (hd : d ∈ ds) :
    ∃ e, functionEntry name function span description = .ok e ∧ d = .function e := by
  obtain ⟨e, he, h⟩ := bind_eq_ok.mp h
  exact ⟨e, he, eq_of_pure_singleton h hd⟩

theorem mem_oneClass {name description : String} {c : Cursor} {span : Node}
    {ds : List Declaration} {d : Declaration}
    (h : oneClass name c span description = .ok ds) (hd : d ∈ ds) :
    ∃ e, classEntry name c span description = .ok e ∧ d = .classDef e := by
  obtain ⟨e, he, h⟩ := bind_eq_ok.mp h
  exact ⟨e, he, eq_of_pure_singleton h hd⟩

theorem recorded_functionStatement {host : Cursor} {ds : List Declaration} {d : Declaration}
    (kind : host.kind.isFunctionDeclaration = true) (h : functionStatement host = .ok ds)
    (hd : d ∈ ds) : ∃ src, Recorded host src d := by
  unfold functionStatement at h
  split at h
  · exact (not_mem_of_pure_nil h hd).elim
  · next hdefault =>
    obtain ⟨name, hname, h⟩ := bind_eq_ok.mp h
    obtain ⟨description, hdesc, h⟩ := bind_eq_ok.mp h
    obtain ⟨e, he, rfl⟩ := mem_oneFunction h hd
    exact ⟨host, .function (.statement kind (by simpa using hdefault) hname) hdesc he⟩

theorem recorded_classStatement {host : Cursor} {ds : List Declaration} {d : Declaration}
    (kind : host.kind.isClassDeclaration = true) (h : classStatement host = .ok ds)
    (hd : d ∈ ds) : ∃ src, Recorded host src d := by
  unfold classStatement at h
  split at h
  · exact (not_mem_of_pure_nil h hd).elim
  · next hdefault =>
    obtain ⟨name, hname, h⟩ := bind_eq_ok.mp h
    obtain ⟨description, hdesc, h⟩ := bind_eq_ok.mp h
    obtain ⟨e, he, rfl⟩ := mem_oneClass h hd
    exact ⟨host, .classDef (.statement kind (by simpa using hdefault) hname) hdesc he⟩

theorem recorded_memberFunction {host declarator object member : Cursor} {target : Node}
    {name : String} {ds : List Declaration} {d : Declaration}
    (binding : Binding host declarator target name)
    (value : declarator.child? .value = some object) (objectKind : object.kind = .object)
    (mem : member ∈ object.namedChildren) (h : memberFunction name member = .ok ds)
    (hd : d ∈ ds) : ∃ src, Recorded host src d := by
  unfold memberFunction at h
  split at h
  · next hkind =>
    obtain ⟨key, hkey, h⟩ := bind_eq_ok.mp h
    obtain ⟨description, hdesc, h⟩ := bind_eq_ok.mp h
    obtain ⟨e, he, rfl⟩ := mem_oneFunction h hd
    exact ⟨member, .function (.method binding value mem objectKind hkind hkey) hdesc he⟩
  · next hkind =>
    split at h
    · next valueNode keyNode hvalue hkeyNode =>
      obtain ⟨hvalue, hvalueKind⟩ := Option.filter_eq_some_iff.mp hvalue
      obtain ⟨hkeyNode, hkeyKind⟩ := Option.filter_eq_some_iff.mp hkeyNode
      obtain ⟨F, hF, rfl⟩ := Cursor.exists_child? hvalue
      obtain ⟨key, hkey, h⟩ := bind_eq_ok.mp h
      obtain ⟨description, hdesc, h⟩ := bind_eq_ok.mp h
      obtain ⟨e, he, rfl⟩ := mem_oneFunction h hd
      exact ⟨F, .function (.pair binding value mem hkind hF hvalueKind hkeyNode
        (by simpa using hkeyKind) hkey) hdesc he⟩
    · exact (not_mem_of_pure_nil h hd).elim
  · exact (not_mem_of_pure_nil h hd).elim

theorem mem_constantOf {isConst : Bool} {entry : ConstantEntry} {value : Option Node}
    {ds : List Declaration} {d : Declaration} (h : constantOf isConst entry value = .ok ds)
    (hd : d ∈ ds) : d = .constant entry := by
  unfold constantOf at h
  split at h
  · exact (not_mem_of_pure_nil h hd).elim
  · split at h
    · exact eq_of_pure_singleton h hd
    · obtain ⟨loads, -, h⟩ := bind_eq_ok.mp h
      cases loads with
      | true => exact (not_mem_of_pure_nil h hd).elim
      | false => exact eq_of_pure_singleton h hd

theorem recorded_objectFunctions {host declarator object : Cursor} {target : Node}
    {name : String} {ds : List Declaration} {d : Declaration}
    (binding : Binding host declarator target name)
    (value : declarator.child? .value = some object) (h : objectFunctions name object = .ok ds)
    (hd : d ∈ ds) : ∃ src, Recorded host src d := by
  unfold objectFunctions at h
  split at h
  · next hkind =>
    obtain ⟨parts, hparts, h⟩ := bind_eq_ok.mp h
    rw [← pure_eq_ok.mp h] at hd
    obtain ⟨member, hmember, ds', hds', hd⟩ := (mem_flatten_mapM hparts).mp hd
    exact recorded_memberFunction binding value hkind hmember hds' hd
  · exact (not_mem_of_pure_nil h hd).elim

/-- One variable of a list. -/
theorem recorded_binding {host declarator : Cursor} {isConst : Bool} {description : String}
    {ds : List Declaration} {d : Declaration} (list : host.kind.isVariableDeclaration = true)
    (top : host.parentIs .program = true ∨ host.parentIs .exportStatement = true)
    (mem : declarator ∈ host.namedChildren) (kind : declarator.kind = .variableDeclarator)
    (described : descriptionOf host = .ok description)
    (h : bindingDeclarations isConst host.focus description declarator = .ok ds) (hd : d ∈ ds) :
    ∃ src, Recorded host src d := by
  unfold bindingDeclarations at h
  split at h
  · exact (not_mem_of_pure_nil h hd).elim
  next target htarget =>
  obtain ⟨htarget, htargetKind⟩ := Option.filter_eq_some_iff.mp htarget
  obtain ⟨name, hname, h⟩ := bind_eq_ok.mp h
  have binding : Binding host declarator target name :=
    ⟨list, top, mem, kind, htarget, by simpa using htargetKind, hname⟩
  dsimp only at h
  split at h
  · rw [mem_constantOf h hd]
    exact ⟨declarator, .constant binding described⟩
  next value hvalue =>
  split at h
  · next hfunction =>
    obtain ⟨e, he, rfl⟩ := mem_oneFunction h hd
    exact ⟨value, .function (.bound binding hvalue hfunction) described he⟩
  split at h
  · next hclass =>
    obtain ⟨e, he, rfl⟩ := mem_oneClass h hd
    exact ⟨value, .classDef (.bound binding hvalue hclass) described he⟩
  -- an object gives the functions in it, and may be a constant besides
  obtain ⟨functions, hfunctions, h⟩ := bind_eq_ok.mp h
  obtain ⟨constants, hconstants, h⟩ := bind_eq_ok.mp h
  rw [← pure_eq_ok.mp h] at hd
  rcases List.mem_append.mp hd with hd | hd
  · exact recorded_objectFunctions binding hvalue hfunctions hd
  · rw [mem_constantOf hconstants hd]
    exact ⟨declarator, .constant binding described⟩

theorem recorded_variableStatement {host : Cursor} {ds : List Declaration} {d : Declaration}
    (list : host.kind.isVariableDeclaration = true) (h : variableStatement host = .ok ds)
    (hd : d ∈ ds) : ∃ src, Recorded host src d := by
  unfold variableStatement at h
  split at h
  · next top =>
    obtain ⟨description, hdesc, h⟩ := bind_eq_ok.mp h
    obtain ⟨parts, hparts, h⟩ := bind_eq_ok.mp h
    rw [← pure_eq_ok.mp h] at hd
    obtain ⟨declarator, hmem, ds', hds', hd⟩ := (mem_flatten_mapM hparts).mp hd
    obtain ⟨hmem, hkind⟩ := List.mem_filter.mp hmem
    exact recorded_binding list (by simpa using top) hmem (by simpa using hkind) hdesc hds' hd
  · exact (not_mem_of_pure_nil h hd).elim

theorem recorded_exportStatement {host : Cursor} {ds : List Declaration} {d : Declaration}
    (kind : host.kind = .exportStatement) (h : exportStatement host = .ok ds) (hd : d ∈ ds) :
    ∃ src, Recorded host src d := by
  unfold exportStatement at h
  split at h
  · exact (not_mem_of_pure_nil h hd).elim
  next target htarget =>
  obtain ⟨description, hdesc, h⟩ := bind_eq_ok.mp h
  split at h
  · next hfunction =>
    obtain ⟨name, hname, h⟩ := bind_eq_ok.mp h
    obtain ⟨e, he, rfl⟩ := mem_oneFunction h hd
    exact ⟨target, .function (.default kind htarget (by simpa using hfunction) hname) hdesc he⟩
  split at h
  · next hclass =>
    obtain ⟨name, hname, h⟩ := bind_eq_ok.mp h
    obtain ⟨e, he, rfl⟩ := mem_oneClass h hd
    exact ⟨target, .classDef (.default kind htarget (by simpa using hclass) hname) hdesc he⟩
  · exact (not_mem_of_pure_nil h hd).elim

theorem recorded_exportsDeclarations {host assignment right : Cursor} {left : Node}
    {ds : List Declaration} {d : Declaration} (assigned : Assignment host assignment right left)
    (whole : isExportsMember left = .ok true)
    (h : exportsDeclarations host assignment right = .ok ds) (hd : d ∈ ds) :
    ∃ src, Recorded host src d := by
  unfold exportsDeclarations at h
  split at h
  · next hfunction =>
    obtain ⟨name, hname, h⟩ := bind_eq_ok.mp h
    obtain ⟨description, hdesc, h⟩ := bind_eq_ok.mp h
    obtain ⟨e, he, rfl⟩ := mem_oneFunction h hd
    exact ⟨right, .function (.exports assigned whole hfunction hname) hdesc he⟩
  split at h
  · next hclass =>
    obtain ⟨title, htitle, h⟩ := bind_eq_ok.mp h
    obtain ⟨description, hdesc, h⟩ := bind_eq_ok.mp h
    obtain ⟨e, he, rfl⟩ := mem_oneClass h hd
    exact ⟨right, .classDef (.exports assigned whole hclass htitle) hdesc he⟩
  · exact (not_mem_of_pure_nil h hd).elim

theorem recorded_assignment {host assignment right : Cursor} {left : Node}
    {ds : List Declaration} {d : Declaration} (assigned : Assignment host assignment right left)
    (h : assignmentDeclarations host assignment right left = .ok ds) (hd : d ∈ ds) :
    ∃ src, Recorded host src d := by
  obtain ⟨whole, hwhole, h⟩ := bind_eq_ok.mp h
  cases whole with
  | true => exact recorded_exportsDeclarations assigned hwhole h hd
  | false =>
    -- only a function that becomes a member of the exports is recorded
    simp only [Bool.false_eq_true, if_false] at h
    split at h
    · next hkinds =>
      split at h
      · next object property hobject hproperty =>
        obtain ⟨hproperty, hpropertyKind⟩ := Option.filter_eq_some_iff.mp hproperty
        obtain ⟨onExports, hon, h⟩ := bind_eq_ok.mp h
        cases onExports with
        | false => exact (not_mem_of_pure_nil h hd).elim
        | true =>
          obtain ⟨name, hname, h⟩ := bind_eq_ok.mp h
          obtain ⟨description, hdesc, h⟩ := bind_eq_ok.mp h
          obtain ⟨e, he, rfl⟩ := mem_oneFunction h hd
          exact ⟨right, .function (.exportsMember assigned hkinds.2 hobject hproperty
            (by simpa using hpropertyKind) hon hname) hdesc he⟩
      · exact (not_mem_of_pure_nil h hd).elim
    · exact (not_mem_of_pure_nil h hd).elim

theorem recorded_expressionStatement {host : Cursor} {ds : List Declaration} {d : Declaration}
    (kind : host.kind = .expressionStatement) (h : expressionStatement host = .ok ds)
    (hd : d ∈ ds) : ∃ src, Recorded host src d := by
  unfold expressionStatement at h
  split at h
  · exact (not_mem_of_pure_nil h hd).elim
  next top =>
  split at h
  · exact (not_mem_of_pure_nil h hd).elim
  next assignment hassignment =>
  split at h
  · next left right hleft hright =>
    exact recorded_assignment ⟨kind, by simpa using top, hassignment, hleft, hright⟩ h hd
  · exact (not_mem_of_pure_nil h hd).elim

/-- Every declaration that a node makes comes from a node. -/
theorem exists_recorded {host : Cursor} {ds : List Declaration} {d : Declaration}
    (h : declarationsAt host = .ok ds) (hd : d ∈ ds) : ∃ src, Recorded host src d := by
  unfold declarationsAt at h
  split at h
  · next hkind => exact recorded_functionStatement (by rw [hkind]; rfl) h hd
  · next hkind => exact recorded_functionStatement (by rw [hkind]; rfl) h hd
  · next hkind => exact recorded_classStatement (by rw [hkind]; rfl) h hd
  · next hkind => exact recorded_classStatement (by rw [hkind]; rfl) h hd
  · next hkind => exact recorded_variableStatement (by rw [hkind]; rfl) h hd
  · next hkind => exact recorded_variableStatement (by rw [hkind]; rfl) h hd
  · next hkind => exact recorded_exportStatement hkind h hd
  · next hkind => exact recorded_expressionStatement hkind h hd
  · exact (not_mem_of_pure_nil h hd).elim

end CodeAtlas.Analysis
