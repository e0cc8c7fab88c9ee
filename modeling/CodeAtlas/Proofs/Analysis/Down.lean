import CodeAtlas.Proofs.Analysis.Unmoved
/-
  Outlines of sources that are moved down.

  Empty lines in front of a source move the entries of its outline down and
  change nothing else (`movedDown_analyse_padded`). Each function that makes
  entries from a node makes the moved entries from the moved node; the tables
  keep their keys, so all that is looked up by name stays as it is.
-/

namespace CodeAtlas

/-! ## Entries further down -/

namespace Table

variable {α β γ : Type}

/-- The table with its values changed. -/
def mapValues (g : β → γ) (t : Table α β) : Table α γ := ⟨t.entries.map (Prod.map id g)⟩

@[simp] theorem keys_mapValues (g : β → γ) (t : Table α β) : (t.mapValues g).keys = t.keys := by
  rw [keys, mapValues, List.map_map, keys]
  rfl

@[simp] theorem values_mapValues (g : β → γ) (t : Table α β) :
    (t.mapValues g).values = t.values.map g := by
  rw [values, mapValues, List.map_map, values, List.map_map]
  rfl

variable [DecidableEq α]

theorem insert_mapValues (g : β → γ) (t : Table α β) (key : α) (v : β) :
    (t.mapValues g).insert key (g v) = (t.insert key v).mapValues g := by
  obtain ⟨entries⟩ := t
  simp only [insert, alter, mapValues, mk.injEq]
  induction entries with
  | nil => rfl
  | cons e entries ih =>
    simp only [List.map_cons, alterEntries, Prod.map, id_eq, ih]
    split <;> rfl

theorem ofList_map (g : β → γ) (l : List (α × β)) :
    ofList (l.map (Prod.map id g)) = (ofList l).mapValues g := by
  have hfold : ∀ (l : List (α × β)) (t : Table α β),
      (l.map (Prod.map id g)).foldl (fun t e => t.insert e.1 e.2) (t.mapValues g)
        = (l.foldl (fun t e => t.insert e.1 e.2) t).mapValues g := by
    intro l
    induction l with
    | nil => exact fun t => rfl
    | cons e l ih =>
      intro t
      rw [List.map_cons, List.foldl_cons, List.foldl_cons, ← ih, ← insert_mapValues]
      rfl
  exact hfold l empty

end Table

/-- The function so many lines further down. -/
def FunctionEntry.down (k : Nat) (f : FunctionEntry) : FunctionEntry :=
  { f with startLine := f.startLine + k, endLine := f.endLine + k }

/-- The method so many lines further down. -/
def MethodEntry.down (k : Nat) (m : MethodEntry) : MethodEntry := { m with line := m.line + k }

/-- The class so many lines further down, with its methods. -/
def ClassEntry.down (k : Nat) (c : ClassEntry) : ClassEntry :=
  { c with
    startLine := c.startLine + k
    endLine := c.endLine + k
    methods := c.methods.map (MethodEntry.down k) }

/-- The constant so many lines further down. -/
def ConstantEntry.down (k : Nat) (c : ConstantEntry) : ConstantEntry :=
  { c with line := c.line + k }

/-- The export so many lines further down. -/
def ExportEntry.down (k : Nat) (e : ExportEntry) : ExportEntry := { e with line := e.line + k }

/-- The outline with all its entries so many lines further down. -/
def Outline.down (k : Nat) (o : Outline) : Outline :=
  { o with
    functions := o.functions.map (FunctionEntry.down k)
    classes := o.classes.map (ClassEntry.down k)
    constants := o.constants.map (ConstantEntry.down k)
    exports := o.exports.map (ExportEntry.down k) }

namespace Analysis

open CodeAtlas.Syntax SyntaxTree

/-- The declaration so many lines further down. -/
def Declaration.down (k : Nat) : Declaration → Declaration
  | function f => .function (f.down k)
  | classDef c => .classDef (c.down k)
  | constant e => .constant (e.down k)

/-- The inventory with all its entries so many lines further down. -/
def Inventory.down (k : Nat) (ds : Inventory) : Inventory :=
  { functions := ds.functions.mapValues (FunctionEntry.down k)
    classes := ds.classes.mapValues (ClassEntry.down k)
    constants := ds.constants.mapValues (ConstantEntry.down k) }

variable (k : Nat)

/-! ## Declarations -/

theorem functionEntry_down (name : String) (function span : Node) (description : String) :
    functionEntry name (function.down k) (span.down k) description
      = FunctionEntry.down k <$> functionEntry name function span description := by
  simp only [functionEntry, parameters_down, startLine_down, endLine_down, Int.natCast_add,
    map_bind, map_pure]
  rfl

theorem methodEntry_down (c : Cursor) :
    methodEntry (c.down k) = MethodEntry.down k <$> methodEntry c := by
  simp only [methodEntry, Cursor.focus_down, memberKind_down, memberName_down, parameters_down,
    descriptionOf_down, startLine_down, holdsToken_down, Int.natCast_add, map_bind, map_pure]
  rfl

theorem methodsOf_down (c : Cursor) :
    methodsOf (c.down k) = List.map (MethodEntry.down k) <$> methodsOf c := by
  rw [methodsOf, Cursor.child?_down, methodsOf]
  cases c.child? .body with
  | none => rfl
  | some body =>
    have hkeys : ∀ entries : List MethodEntry,
        (entries.map (MethodEntry.down k)).map (fun m => (methodKey m, m))
          = (entries.map fun m => (methodKey m, m)).map (Prod.map id (MethodEntry.down k)) := by
      intro entries
      rw [List.map_map, List.map_map]
      rfl
    simp only [Option.map_some, Cursor.namedChildren_down, List.filter_map, Function.comp_def,
      Cursor.kind_down, mapM_map_eq fun m _ => methodEntry_down k m, mapM_map_answers,
      bind_map_left, map_bind, map_pure, hkeys, Table.ofList_map, Table.values_mapValues]

theorem classEntry_down (name : String) (c : Cursor) (span : Node) (description : String) :
    classEntry name (c.down k) (span.down k) description
      = ClassEntry.down k <$> classEntry name c span description := by
  simp only [classEntry, Cursor.focus_down, baseName?_down, methodsOf_down, startLine_down,
    endLine_down, Int.natCast_add, bind_map_left, map_bind, map_pure]
  rfl

@[simp] theorem oneFunction_down (name : String) (function span : Node) (description : String) :
    oneFunction name (function.down k) (span.down k) description
      = List.map (Declaration.down k) <$> oneFunction name function span description := by
  simp only [oneFunction, functionEntry_down, bind_map_left, map_bind, map_pure]
  rfl

@[simp] theorem oneClass_down (name : String) (c : Cursor) (span : Node) (description : String) :
    oneClass name (c.down k) (span.down k) description
      = List.map (Declaration.down k) <$> oneClass name c span description := by
  simp only [oneClass, classEntry_down, bind_map_left, map_bind, map_pure]
  rfl

theorem functionStatement_down (c : Cursor) :
    functionStatement (c.down k) = List.map (Declaration.down k) <$> functionStatement c := by
  simp only [functionStatement, standsAsDefault_down, Cursor.focus_down, nameOr_down,
    descriptionOf_down, oneFunction_down]
  split
  · rfl
  · simp only [map_bind]

theorem classStatement_down (c : Cursor) :
    classStatement (c.down k) = List.map (Declaration.down k) <$> classStatement c := by
  simp only [classStatement, standsAsDefault_down, Cursor.focus_down, nameOr_down,
    descriptionOf_down, oneClass_down]
  split
  · rfl
  · simp only [map_bind]

theorem memberFunction_down (container : String) (c : Cursor) :
    memberFunction container (c.down k)
      = List.map (Declaration.down k) <$> memberFunction container c := by
  simp only [memberFunction, Cursor.kind_down, Cursor.focus_down, child?_down, Option.filter_map,
    Function.comp_def, kind_down, memberName_down, descriptionOf_down, oneFunction_down]
  split
  · simp only [map_bind]
  · cases (c.focus.child? .value).filter (·.kind.isFunctionValue) with
    | none => rfl
    | some value =>
      cases (c.focus.child? .key).filter (·.kind = .propertyIdentifier) with
      | none => rfl
      | some key => simp only [Option.map_some, text_down, oneFunction_down, map_bind]
  · rfl

theorem objectFunctions_down (container : String) (c : Cursor) :
    objectFunctions container (c.down k)
      = List.map (Declaration.down k) <$> objectFunctions container c := by
  simp only [objectFunctions, Cursor.kind_down, Cursor.namedChildren_down,
    mapM_map_eq fun m _ => memberFunction_down k container m, mapM_map_answers, bind_map_left]
  split
  · simp only [map_bind, map_pure, List.map_flatten]
  · rfl

theorem constantOf_down (isConst : Bool) (entry : ConstantEntry) (value : Option Node) :
    constantOf isConst (entry.down k) (value.map (down k))
      = List.map (Declaration.down k) <$> constantOf isConst entry value := by
  cases isConst with
  | false => rfl
  | true =>
    cases value with
    | none => rfl
    | some value =>
      simp only [constantOf, Bool.not_true, Bool.false_eq_true, if_false, Option.map_some,
        loadsModule_down, map_bind]
      refine bind_congr fun loads => ?_
      cases loads <;> rfl

theorem bindingDeclarations_down (isConst : Bool) (span : Node) (description : String)
    (c : Cursor) :
    bindingDeclarations isConst (span.down k) description (c.down k)
      = List.map (Declaration.down k) <$> bindingDeclarations isConst span description c := by
  simp only [bindingDeclarations, Cursor.focus_down, child?_down, Option.filter_map,
    Function.comp_def, kind_down]
  cases (c.focus.child? .name).filter (·.kind = .identifier) with
  | none => rfl
  | some target =>
    have hconstant : ∀ name, (⟨name, (span.down k).startLine, description⟩ : ConstantEntry)
        = ConstantEntry.down k ⟨name, span.startLine, description⟩ := by
      intro name
      rw [startLine_down, Int.natCast_add]
      rfl
    simp only [Option.map_some, text_down, Cursor.child?_down, map_bind, hconstant]
    refine bind_congr fun name => ?_
    cases c.child? .value with
    | none => exact constantOf_down k isConst _ none
    | some value =>
      have hvalue : ∀ entry, constantOf isConst (ConstantEntry.down k entry)
          (some (value.focus.down k))
            = List.map (Declaration.down k) <$> constantOf isConst entry (some value.focus) :=
        fun entry => constantOf_down k isConst entry (some value.focus)
      simp only [Option.map_some, Cursor.kind_down, Cursor.focus_down, oneFunction_down,
        oneClass_down, objectFunctions_down, hvalue]
      split
      · rfl
      · split
        · rfl
        · simp only [bind_map_left, map_bind, map_pure, List.map_append]

theorem variableStatement_down (c : Cursor) :
    variableStatement (c.down k) = List.map (Declaration.down k) <$> variableStatement c := by
  simp only [variableStatement, Cursor.parentIs_down, descriptionOf_down,
    Cursor.namedChildren_down, List.filter_map, Function.comp_def, Cursor.kind_down,
    Cursor.focus_down, holdsToken_down,
    mapM_map_eq fun d _ => bindingDeclarations_down k _ c.focus _ d, mapM_map_answers,
    bind_map_left]
  split
  · simp only [map_bind, map_pure, List.map_flatten]
  · rfl

theorem exportStatement_down (c : Cursor) :
    exportStatement (c.down k) = List.map (Declaration.down k) <$> exportStatement c := by
  have htarget : defaultTarget? (c.down k) = (defaultTarget? c).map (Cursor.down k) := by
    rw [defaultTarget?, defaultTarget?, Cursor.focus_down, holdsToken_down, Cursor.child?_down,
      Cursor.child?_down, ← Option.map_or]
    split <;> rfl
  rw [exportStatement, htarget, exportStatement]
  cases defaultTarget? c with
  | none => rfl
  | some target =>
    simp only [Option.map_some, Cursor.kind_down, Cursor.focus_down, descriptionOf_down,
      nameOr_down, oneFunction_down, oneClass_down, map_bind]
    refine bind_congr fun description => ?_
    split
    · simp only [map_bind]
    · split
      · simp only [map_bind]
      · rfl

@[simp] theorem isExportsObject_down (n : Node) :
    isExportsObject (n.down k) = isExportsObject n := by
  rw [isExportsObject, isWord_down, isExportsMember_down, isExportsObject]

theorem exportsDeclarations_down (statement assignment right : Cursor) :
    exportsDeclarations (statement.down k) (assignment.down k) (right.down k)
      = List.map (Declaration.down k) <$> exportsDeclarations statement assignment right := by
  simp only [exportsDeclarations, Cursor.kind_down, Cursor.focus_down, nameOr_down,
    descriptionOf_down, classTitle?_down, oneFunction_down, oneClass_down]
  split
  · simp only [map_bind]
  · split
    · simp only [map_bind]
    · rfl

theorem assignmentDeclarations_down (statement assignment right : Cursor) (left : Node) :
    assignmentDeclarations (statement.down k) (assignment.down k) (right.down k) (left.down k)
      = List.map (Declaration.down k)
          <$> assignmentDeclarations statement assignment right left := by
  simp only [assignmentDeclarations, isExportsMember_down, exportsDeclarations_down, kind_down,
    Cursor.kind_down, child?_down, Option.filter_map, Function.comp_def, map_bind]
  refine bind_congr fun isExports => ?_
  split
  · rfl
  · split
    · cases left.child? .object with
      | none => rfl
      | some object =>
        cases (left.child? .property).filter (·.kind = .propertyIdentifier) with
        | none => rfl
        | some property =>
          simp only [Option.map_some, isExportsObject_down, text_down, descriptionOf_down,
            Cursor.focus_down, oneFunction_down, map_bind]
          refine bind_congr fun ofExports => ?_
          split
          · simp only [map_bind]
          · rfl
    · rfl

theorem expressionStatement_down (c : Cursor) :
    expressionStatement (c.down k) = List.map (Declaration.down k) <$> expressionStatement c := by
  simp only [expressionStatement, Cursor.parentIs_down, Cursor.firstOfKind?_down]
  split
  · rfl
  · cases c.firstOfKind? .assignmentExpression with
    | none => rfl
    | some assignment =>
      simp only [Option.map_some, Cursor.focus_down, child?_down, Cursor.child?_down]
      cases assignment.focus.child? .left with
      | none => rfl
      | some left =>
        cases assignment.child? .right with
        | none => rfl
        | some right => exact assignmentDeclarations_down k c assignment right left

theorem declarationsAt_down (c : Cursor) :
    declarationsAt (c.down k) = List.map (Declaration.down k) <$> declarationsAt c := by
  simp only [declarationsAt, Cursor.kind_down, functionStatement_down, classStatement_down,
    variableStatement_down, exportStatement_down, expressionStatement_down]
  split <;> rfl

/-! ## The inventory -/

namespace Inventory

theorem add_down (ds : Inventory) (d : Declaration) :
    (ds.down k).add (d.down k) = (ds.add d).down k := by
  cases d with
  | function f => simp only [add, down, Declaration.down, ← Table.insert_mapValues]; rfl
  | classDef c => simp only [add, down, Declaration.down, ← Table.insert_mapValues]; rfl
  | constant e => simp only [add, down, Declaration.down, ← Table.insert_mapValues]; rfl

theorem collect_down (nodes : List Cursor) :
    collect (nodes.map (Cursor.down k)) = down k <$> collect nodes := by
  have hfold : ∀ (l : List Declaration) (ds : Inventory),
      (l.map (Declaration.down k)).foldl add (ds.down k) = (l.foldl add ds).down k := by
    intro l
    induction l with
    | nil => exact fun ds => rfl
    | cons d l ih =>
      intro ds
      rw [List.map_cons, List.foldl_cons, add_down, ih, List.foldl_cons]
  simp only [collect, mapM_map_eq fun c _ => declarationsAt_down k c, mapM_map_answers,
    bind_map_left, map_bind, map_pure, ← List.map_flatten]
  exact bind_congr fun lists => congrArg pure (hfold lists.flatten {})

@[simp] theorem callables_down (ds : Inventory) : (ds.down k).callables = ds.callables := by
  simp only [callables, down, Table.keys_mapValues, Table.values_mapValues, List.flatMap_map,
    ClassEntry.down, List.map_map]
  rfl

@[simp] theorem declared_down (ds : Inventory) : (ds.down k).declared = ds.declared := by
  simp only [declared, down, Table.keys_mapValues, Table.values_mapValues, List.flatMap_map,
    ClassEntry.down]
  rfl

end Inventory

/-! ## Exports -/

theorem specifierExport_down (allTypes : Bool) (line : Int) (n : Node) :
    specifierExport allTypes (line + k) (n.down k)
      = ExportEntry.down k <$> specifierExport allTypes line n := by
  simp only [specifierExport, child?_down]
  cases n.child? .name with
  | none => rfl
  | some name =>
    simp only [Option.map_some, nameText_down, holdsToken_down, map_bind]
    refine bind_congr fun localName => ?_
    cases n.child? .renamed with
    | none => rfl
    | some other =>
      simp only [Option.map_some, nameText_down, map_bind]
      rfl

theorem defaultInnerName?_down (n : Node) : defaultInnerName? (n.down k) = defaultInnerName? n := by
  simp only [defaultInnerName?, child?_down, Option.filter_map, Function.comp_def, kind_down]
  cases (n.child? .declaration).filter fun d =>
      d.kind.isFunctionDeclaration || d.kind.isClassDeclaration with
  | some declaration => simp only [Option.map_some, declaredName?_down]
  | none =>
    cases n.child? .value with
    | none => rfl
    | some value => simp only [Option.map_none, Option.map_some, kind_down, text_down,
        declaredName?_down]

theorem declarationExports_down (n : Node) :
    declarationExports (n.down k) = declarationExports n := by
  have hnames : variableNames (n.down k) = variableNames n := by
    have htargets : ∀ d : Node,
        ((d.down k).child? .name).filter (·.kind = .identifier)
          = ((d.child? .name).filter (·.kind = .identifier)).map (down k) := by
      intro d
      simp only [child?_down, Option.filter_map, Function.comp_def, kind_down]
    simp only [variableNames, namedChildren_down, List.filter_map, Function.comp_def, kind_down,
      List.filterMap_map, htargets, ← List.map_filterMap, mapM_map_eq fun t _ => text_down k t]
  simp only [declarationExports, kind_down, declaredName?_down, hnames]

theorem statementExports_down (n : Node) :
    statementExports (n.down k) = List.map (ExportEntry.down k) <$> statementExports n := by
  simp only [statementExports, firstOfKind?_down, startLine_down, holdsToken_down, child?_down,
    defaultInnerName?_down, Int.natCast_add]
  cases n.firstOfKind? .exportClause with
  | some clause =>
    simp only [Option.map_some, namedChildren_down, List.filter_map, Function.comp_def, kind_down,
      mapM_map_eq fun s _ => specifierExport_down k _ _ s, mapM_map_answers]
  | none =>
    simp only [Option.map_none]
    split
    · simp only [map_bind]
      rfl
    · cases n.child? .declaration with
      | none => rfl
      | some d =>
        simp only [Option.map_some, declarationExports_down, map_bind, map_pure, List.map_map]
        rfl

theorem exportsOf_down (root : Node) :
    exportsOf (root.down k) = List.map (ExportEntry.down k) <$> exportsOf root := by
  simp only [exportsOf, namedChildren_down, List.filter_map, Function.comp_def, kind_down,
    mapM_map_eq fun s _ => statementExports_down k s, mapM_map_answers, bind_map_left, map_bind,
    map_pure, List.map_flatten]

/-! ## Outlines -/

theorem nodesOf_down (root : Node) :
    nodesOf (root.down k) = (nodesOf root).map (Cursor.down k) := by
  rw [nodesOf, nodesOf, Cursor.descendants_eq_preorder, Cursor.descendants_eq_preorder,
    ← Cursor.down_root, Cursor.preorder_down]

theorem declarationsOf_down (root : Node) :
    declarationsOf (root.down k)
      = Prod.map (Inventory.down k) (List.map (ExportEntry.down k)) <$> declarationsOf root := by
  simp only [declarationsOf, nodesOf_down, Inventory.collect_down, exportsOf_down, bind_map_left,
    map_bind, map_pure]
  rfl

/-- The survey with all its entries so many lines further down. -/
def Survey.down (s : Survey) : Survey :=
  { s with
    declarations := s.declarations.down k
    exports := s.exports.map (ExportEntry.down k) }

theorem survey_down (root : Node) : survey (root.down k) = Survey.down k <$> survey root := by
  simp only [survey, nodesOf_down, importsIn_down, declarationsOf_down, withUses_down,
    holdsTypesOnly_down, bind_map_left, map_bind, map_pure, Prod.map, Inventory.callables_down]
  rfl

theorem callsIn_down (s : Survey) (root : Node) :
    (s.down k).callsIn (root.down k) = s.callsIn root := by
  simp only [Survey.callsIn, Survey.down, nodesOf_down, callTable_down, Inventory.callables_down,
    Inventory.declared_down]

theorem outline_down (s : Survey) (calls : Table String (List String))
    (description below : String) :
    (s.down k).outline calls below
      = { (s.outline calls description).down k with description := below } := by
  simp only [Survey.outline, Survey.down, Inventory.down, Table.values_mapValues, Outline.down]

theorem outlineOf_down (root : Node) (description below : String) :
    outlineOf (root.down k) below
      = (fun o => { o.down k with description := below }) <$> outlineOf root description := by
  simp only [outlineOf, survey_down, callsIn_down, outline_down k _ _ description below,
    bind_map_left, map_bind, map_pure]

/-! ## Reports of errors -/

mutual

theorem search?_down : ∀ n : Node, search? (n.down k) = (search? n).map (down k)
  | .node l e cs => by
    have hnode : (SyntaxTree.node l e cs).down k = .node l (e.down k) (mapAll (Extent.down k) cs) :=
      rfl
    rw [hnode, search?, search?, searchAll?_down cs]
    split
    · rfl
    · rfl

theorem searchAll?_down : ∀ ts : List Node,
    searchAll? (mapAll (Extent.down k) ts) = (searchAll? ts).map (down k)
  | [] => rfl
  | t :: ts => by
    have hcons : mapAll (Extent.down k) (t :: ts) = t.down k :: mapAll (Extent.down k) ts := rfl
    rw [hcons, searchAll?, searchAll?, isSuspect, label_down, search?_down t, searchAll?_down ts,
      ← Option.map_or, isSuspect]
    split
    · rfl
    · rfl

end

theorem defect?_down (n : Node) : (n.down k).defect? = n.defect?.map (down k) := by
  rw [defect?, defect?, label_down, search?_down, Option.getD_map]
  split
  · rfl
  · rfl

/-- The report of what is wrong at a place. -/
def report (path : Option String) (what : String) (line column : Nat) : SyntaxError :=
  ⟨explain ("Syntax error: " ++ what) path (some line) (some column)
    (some "Check syntax errors in the file"), line, column⟩

theorem syntaxErrorAt_eq (path : Option String) (n : Node) :
    syntaxErrorAt path n
      = (fun what => report path what (n.extent.start.row + 1) n.extent.start.column)
          <$> describeDefect n := by
  simp only [syntaxErrorAt, report, map_eq_pure_bind]

theorem describeDefect_down (n : Node) : describeDefect (n.down k) = describeDefect n := by
  simp only [describeDefect, label_down, kind_down, text_down]

/-! ## Sources below empty lines -/

/-- What the analysis of a source gives, and what it gives for that source so
many lines further down: the same failure, the same report of an error with
another line, or the same outline with other lines and a description of its
own. -/
inductive MovedDown (path : Option String) (below : String) :
    Except Failure Outline → Except Failure Outline → Prop
  | outline (o : Outline) :
    MovedDown path below (.ok o) (.ok { o.down k with description := below })
  | syntaxError (what : String) (line column : Nat) :
    MovedDown path below (.error (.syntaxError (report path what line column)))
      (.error (.syntaxError (report path what (line + k) column)))
  | fault (f : Fault) : MovedDown path below (.error (.fault f)) (.error (.fault f))

theorem movedDown_outlineOf (path : Option String) (root : Node) (description below : String) :
    MovedDown k path below ((outlineOf root description).mapError .fault)
      ((outlineOf (root.down k) below).mapError .fault) := by
  rw [outlineOf_down k root description below]
  cases outlineOf root description with
  | error f => exact .fault f
  | ok o => exact .outline o

/-- Empty lines in front of a source move the lines of all entries, or of the
reported error, down by as many. Nothing else changes but the description of
the file, which is read from its beginning. -/
theorem movedDown_analyse_padded (code : String) (path : Option String) (tree : SyntaxTree Span) :
    MovedDown k path (openingDescription (padded k code)) (analyse code path tree)
      (analyse (padded k code) path (tree.map (Span.later k))) := by
  rw [analyse, analyse, readTree, readTree, locate_padded]
  -- from here on only the tree with its places counts, not the source
  generalize tree.locate code = root
  simp only [defect?_down]
  cases root.defect? with
  | none => exact movedDown_outlineOf k path root _ _
  | some bad =>
    simp only [Option.map_some, syntaxErrorAt_eq, describeDefect_down, extent_down, Extent.down]
    cases describeDefect bad with
    | error f => exact .fault f
    | ok what =>
      have hrow : bad.extent.start.row + k + 1 = bad.extent.start.row + 1 + k := by omega
      rw [hrow]
      exact .syntaxError what _ _

end Analysis

end CodeAtlas
