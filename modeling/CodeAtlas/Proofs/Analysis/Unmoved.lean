import CodeAtlas.Proofs.Analysis.Passes
import CodeAtlas.Proofs.Syntax.Down
/-
  What the passes find that does not depend on the line.

  Names, parameters, descriptions, imports, uses and calls are read from the
  shape of the tree and from texts, so they are the same for a node that is
  moved down. A step that leads to another node leads to the moved node. Only
  one step looks at lines, to tell whether a comment ends another line
  (`commentBefore?_down`), and it compares two that move together.
-/

namespace CodeAtlas

variable {ε α β γ : Type}

/-- Steps for members that are replaced by others, of which the steps say the
same. -/
theorem mapM_map_eq {f : β → Except ε γ} {g : α → β} {f' : α → Except ε γ} {l : List α}
    (h : ∀ a ∈ l, f (g a) = f' a) : (l.map g).mapM f = l.mapM f' := by
  rw [List.mapM_map]
  exact mapM_congr h

theorem optionMapM_map_eq {f : β → Except ε γ} {g : α → β} {f' : α → Except ε γ} {o : Option α}
    (h : ∀ a ∈ o, f (g a) = f' a) : (o.map g).mapM f = o.mapM f' := by
  cases o with
  | none => rfl
  | some a => exact congrArg (some <$> ·) (h a rfl)

/-- Steps whose answers are changed afterwards. -/
theorem mapM_map_answers (f : α → Except ε β) (g : β → γ) (l : List α) :
    l.mapM (fun a => g <$> f a) = List.map g <$> l.mapM f := by
  induction l with
  | nil => rfl
  | cons a l ih => simp [List.mapM_cons, ih]

namespace Analysis

open CodeAtlas.Syntax SyntaxTree

variable (k : Nat)

/-! ## Names -/

@[simp] theorem declaredName?_down (n : Node) : declaredName? (n.down k) = declaredName? n := by
  rw [declaredName?, child?_down]
  exact optionMapM_map_eq fun t _ => text_down k t

@[simp] theorem firstArgument?_down (n : Node) :
    firstArgument? (n.down k) = (firstArgument? n).map (down k) := by
  simp only [firstArgument?, child?_down]
  cases n.child? .arguments with
  | none => rfl
  | some list =>
    have hfound : ((down k list).namedChildren.find? fun a => a.kind ≠ .comment)
        = (list.namedChildren.find? fun a => a.kind ≠ .comment).map (down k) := by
      simp only [namedChildren_down, List.find?_map, Function.comp_def, kind_down]
    rw [Option.map_some, Option.bind_eq_bind, Option.bind_some, hfound, kind_down]
    by_cases hkind : list.kind = .arguments <;> simp [guard, hkind]

@[simp] theorem isWord_down (word : String) (n : Node) :
    isWord word (n.down k) = isWord word n := by
  simp only [isWord, kind_down, text_down]

@[simp] theorem loadedModule?_down (n : Node) : loadedModule? (n.down k) = loadedModule? n := by
  simp only [loadedModule?, kind_down, child?_down, firstArgument?_down]
  by_cases hkind : n.kind = .callExpression
  · simp only [if_pos hkind]
    cases n.child? .function with
    | none => rfl
    | some callee =>
      simp only [Option.map_some, isWord_down]
      cases firstArgument? n with
      | none => rfl
      | some argument => simp only [Option.map_some, literalText?_down]
  · simp only [if_neg hkind]

@[simp] theorem loadsModule_down (n : Node) : loadsModule (n.down k) = loadsModule n := by
  simp only [loadsModule, kind_down, child?_down]
  by_cases hkind : n.kind = .memberExpression
  · simp only [if_pos hkind]
    cases n.child? .object with
    | none => rfl
    | some object => simp only [Option.map_some, loadedModule?_down]
  · simp only [if_neg hkind, loadedModule?_down]

@[simp] theorem isExportsMember_down (n : Node) :
    isExportsMember (n.down k) = isExportsMember n := by
  simp only [isExportsMember, kind_down, child?_down]
  cases n.child? .object with
  | none => rfl
  | some object =>
    cases n.child? .property with
    | none => rfl
    | some property => simp only [Option.map_some, isWord_down, text_down]

@[simp] theorem standsAsDefault_down (c : Cursor) :
    standsAsDefault (c.down k) = standsAsDefault c := by
  rw [standsAsDefault, Cursor.parent?_down, standsAsDefault]
  cases c.parent? with
  | none => rfl
  | some p => simp only [Option.map_some, Cursor.kind_down, Cursor.focus_down, holdsToken_down]

@[simp] theorem binding?_down (c : Cursor) : binding? (c.down k) = (binding? c).map (down k) := by
  simp only [binding?, Cursor.parent?_down, Cursor.fills_down]
  cases c.parent? with
  | none => rfl
  | some p =>
    cases h : p.focus.child? .name with
    | none => simp [guard, h]
    | some target => simp [guard, h]

@[simp] theorem boundName?_down (c : Cursor) : boundName? (c.down k) = boundName? c := by
  rw [boundName?, binding?_down]
  exact optionMapM_map_eq fun t _ => text_down k t

@[simp] theorem boundClassTitle?_down (c : Cursor) :
    boundClassTitle? (c.down k) = boundClassTitle? c := by
  simp only [boundClassTitle?, Cursor.kind_down, boundName?_down]

@[simp] theorem placedClassTitle?_down (c : Cursor) :
    placedClassTitle? (c.down k) = placedClassTitle? c := by
  rw [placedClassTitle?, Cursor.parent?_down, placedClassTitle?]
  cases c.parent? with
  | none => rfl
  | some p =>
    simp only [Option.map_some, Cursor.kind_down, Cursor.focus_down, child?_down]
    cases p.focus.child? .left with
    | none => rfl
    | some left => simp only [Option.map_some, isExportsMember_down]

@[simp] theorem classTitle?_down (c : Cursor) : classTitle? (c.down k) = classTitle? c := by
  simp only [classTitle?, boundClassTitle?_down, Cursor.focus_down, declaredName?_down,
    placedClassTitle?_down]

@[simp] theorem memberName_down (n : Node) : memberName (n.down k) = memberName n := by
  rw [memberName, child?_down, memberName]
  cases n.child? .name with
  | none => rfl
  | some name => simp only [Option.map_some, kind_down, text_down]

@[simp] theorem memberKind_down (n : Node) : memberKind (n.down k) = memberKind n := by
  simp only [memberKind, holdsToken_down, memberName_down]

theorem heritage?_down (ns : List Node) :
    heritage? (ns.map (down k)) = (heritage? ns).map (down k) := by
  induction ns with
  | nil => rfl
  | cons n ns ih =>
    simp only [List.map_cons, heritage?, kind_down, child?_down, ih]
    split
    · rfl
    · split <;> rfl

mutual

theorem chainRoot?_down : ∀ n : Node, chainRoot? (n.down k) = (chainRoot? n).map (down k)
  | .node l e cs => by
    have hnode : (SyntaxTree.node l e cs).down k = .node l (e.down k) (mapAll (Extent.down k) cs) :=
      rfl
    rw [hnode, chainRoot?, chainRoot?, chainRootIn?_down cs]
    split
    · rfl
    · rfl

theorem chainRootIn?_down : ∀ ts : List Node,
    chainRootIn? (mapAll (Extent.down k) ts) = (chainRootIn? ts).map (down k)
  | [] => rfl
  | t :: ts => by
    have hcons : mapAll (Extent.down k) (t :: ts) = t.down k :: mapAll (Extent.down k) ts := rfl
    rw [hcons, chainRootIn?, chainRootIn?, field_down, chainRoot?_down t, chainRootIn?_down ts]
    split
    · rfl
    · rfl

end

@[simp] theorem baseName?_down (n : Node) : baseName? (n.down k) = baseName? n := by
  have hbase : base? (n.down k) = (base? n).map (down k) := by
    simp only [base?, firstOfKind?_down]
    cases n.firstOfKind? .classHeritage with
    | none => rfl
    | some clause =>
      simp only [Option.map_some, Option.bind_eq_bind, Option.bind_some, namedChildren_down,
        heritage?_down]
      cases heritage? clause.namedChildren with
      | none => rfl
      | some expression =>
        simp only [Option.map_some, Option.bind_some, chainRoot?_down]
        cases chainRoot? expression with
        | none => rfl
        | some base => simp [guard]
  rw [baseName?, hbase]
  exact optionMapM_map_eq fun t _ => text_down k t

/-! ## Parameters -/

@[simp] theorem marked_down (before : String) (n : Node) (after : String) :
    marked before (n.down k) after = marked before n after := by
  rw [marked, text_down, marked]

@[simp] theorem restParameter_down (n : Node) : restParameter (n.down k) = restParameter n := by
  rw [restParameter, firstOfKind?_down, restParameter]
  cases n.firstOfKind? .identifier with
  | none => rfl
  | some target => exact marked_down k "..." target ""

@[simp] theorem defaultedParameter_down (n : Node) :
    defaultedParameter (n.down k) = defaultedParameter n := by
  rw [defaultedParameter, child?_down, defaultedParameter]
  cases n.child? .left with
  | none => rfl
  | some left => simp only [Option.map_some, kind_down, marked_down]

@[simp] theorem annotatedParameter_down (n : Node) :
    annotatedParameter (n.down k) = annotatedParameter n := by
  simp only [annotatedParameter, child?_down, Option.isSome_map]
  cases n.child? .pattern with
  | none => rfl
  | some pattern => simp only [Option.map_some, kind_down, restParameter_down, marked_down]

@[simp] theorem parameter_down (n : Node) : parameter (n.down k) = parameter n := by
  simp only [parameter, kind_down, text_down, defaultedParameter_down, restParameter_down,
    annotatedParameter_down]

@[simp] theorem parameters_down (n : Node) : parameters (n.down k) = parameters n := by
  simp only [parameters, child?_down]
  cases n.child? .parameter with
  | some single => simp only [Option.map_some, parameter_down]
  | none =>
    cases n.child? .parameters with
    | none => rfl
    | some list =>
      simp only [Option.map_none, Option.map_some, namedChildren_down, List.filter_map,
        Function.comp_def, kind_down, mapM_map_eq fun p _ => parameter_down k p]

/-! ## Descriptions -/

/-- Whether a comment stands on the line on which the construct before it ends
does not depend on the line. -/
theorem commentBefore?_down (c : Cursor) :
    commentBefore? (c.down k) = (commentBefore? c).map (Cursor.down k) := by
  simp only [commentBefore?, Cursor.prev?_down]
  cases c.prev? with
  | none => rfl
  | some comment =>
    simp only [Option.map_some, Option.bind_eq_bind, Option.bind_some, Cursor.prev?_down,
      Cursor.kind_down]
    cases comment.prev? with
    | none => simp [guard]
    | some before =>
      simp only [Option.map_some, Cursor.named_down, Cursor.kind_down, Cursor.focus_down,
        extent_down, Extent.down, Nat.add_right_cancel_iff]
      simp [guard]

theorem describingComment?_down (c : Cursor) :
    describingComment? (c.down k) = (describingComment? c).map (Cursor.down k) := by
  rw [describingComment?, describingComment?, commentBefore?_down, Cursor.parent?_down,
    Option.map_or]
  cases c.parent? with
  | none => rfl
  | some p =>
    simp only [Option.map_some, Cursor.kind_down, commentBefore?_down]
    split
    · rfl
    · rfl

@[simp] theorem descriptionOf_down (c : Cursor) : descriptionOf (c.down k) = descriptionOf c := by
  rw [descriptionOf, describingComment?_down, descriptionOf]
  cases describingComment? c with
  | none => rfl
  | some comment => simp only [Option.map_some, Cursor.text_down]

/-! ## Imports -/

@[simp] theorem sourceModule?_down (n : Node) : sourceModule? (n.down k) = sourceModule? n := by
  rw [sourceModule?, child?_down, sourceModule?]
  cases n.child? .source with
  | none => rfl
  | some source => exact literalText?_down k source

theorem specifierSteps_down (module : String) (n : Node) :
    specifierSteps module (n.down k) = specifierSteps module n := by
  simp only [specifierSteps, child?_down]
  cases n.child? .name with
  | none => rfl
  | some name =>
    simp only [Option.map_some, nameText_down, kind_down, text_down]
    cases n.child? .renamed with
    | none => rfl
    | some other => simp only [Option.map_some, text_down]

theorem clausePartSteps_down (module : String) (n : Node) :
    clausePartSteps module (n.down k) = clausePartSteps module n := by
  simp only [clausePartSteps, kind_down, text_down, firstOfKind?_down, namedChildren_down,
    List.filter_map, Function.comp_def, mapM_map_eq fun p _ => specifierSteps_down k module p]
  cases n.firstOfKind? .identifier with
  | none => rfl
  | some name => simp only [Option.map_some, text_down]

theorem clauseSteps_down (module : String) (n : Node) :
    clauseSteps module (n.down k) = clauseSteps module n := by
  rw [clauseSteps, namedChildren_down, mapM_map_eq fun p _ => clausePartSteps_down k module p,
    clauseSteps]

theorem requireClauseSteps_down (n : Node) :
    requireClauseSteps (n.down k) = requireClauseSteps n := by
  simp only [requireClauseSteps, sourceModule?_down, firstOfKind?_down]
  refine bind_congr fun module => ?_
  cases module with
  | none => rfl
  | some module =>
    cases n.firstOfKind? .identifier with
    | none => rfl
    | some name => simp only [Option.map_some, text_down]

theorem statementSteps_down (n : Node) : statementSteps (n.down k) = statementSteps n := by
  simp only [statementSteps, sourceModule?_down, firstOfKind?_down, namedChildren_down,
    List.filter_map, Function.comp_def, kind_down, mapM_map_eq fun p _ => clauseSteps_down k _ p]
  cases n.firstOfKind? .importRequireClause with
  | none => rfl
  | some clause => simp only [Option.map_some, requireClauseSteps_down]

theorem propertySteps_down (module : String) (n : Node) :
    propertySteps module (n.down k) = propertySteps module n := by
  simp only [propertySteps, kind_down, text_down, child?_down, Option.filter_map,
    Function.comp_def, optionMapM_map_eq fun t _ => text_down k t]
  cases (n.child? .key).filter (·.kind = .propertyIdentifier) with
  | none => rfl
  | some key => simp only [Option.map_some, text_down]

theorem targetSteps_down (module : String) (n : Node) :
    targetSteps module (n.down k) = targetSteps module n := by
  simp only [targetSteps, kind_down, text_down, namedChildren_down,
    mapM_map_eq fun p _ => propertySteps_down k module p]

theorem declaratorSteps_down (n : Node) : declaratorSteps (n.down k) = declaratorSteps n := by
  simp only [declaratorSteps, child?_down]
  cases n.child? .value with
  | none => rfl
  | some value =>
    simp only [Option.map_some, loadedModule?_down]
    refine bind_congr fun module => ?_
    cases module with
    | none => rfl
    | some module =>
      cases n.child? .name with
      | none => rfl
      | some target => simp only [Option.map_some, targetSteps_down]

theorem takenMember?_down (c : Cursor) :
    takenMember? (c.down k) = (takenMember? c).map (Prod.map (Cursor.down k) (down k)) := by
  simp only [takenMember?, Cursor.parent?_down, Cursor.fills_down]
  cases c.parent? with
  | none => rfl
  | some member =>
    cases h : member.focus.child? .property with
    | none => simp [guard, h]
    | some property => simp [guard, h]

theorem loadMemberSteps_down (c : Cursor) : loadMemberSteps (c.down k) = loadMemberSteps c := by
  simp only [loadMemberSteps, Cursor.focus_down, loadedModule?_down, takenMember?_down]
  refine bind_congr fun module => ?_
  cases module with
  | none => rfl
  | some module =>
    cases takenMember? c with
    | none => rfl
    | some taken => simp only [Option.map_some, Prod.map, boundName?_down, text_down]

theorem importSteps_down (c : Cursor) : importSteps (c.down k) = importSteps c := by
  simp only [importSteps, Cursor.kind_down, Cursor.focus_down, statementSteps_down,
    declaratorSteps_down, loadMemberSteps_down]

theorem importsIn_down (nodes : List Cursor) :
    importsIn (nodes.map (Cursor.down k)) = importsIn nodes := by
  rw [importsIn, mapM_map_eq fun c _ => importSteps_down k c, importsIn]

/-! ## Calls and uses -/

@[simp] theorem nameOr_down (standIn : String) (n : Node) :
    nameOr standIn (n.down k) = nameOr standIn n := by
  rw [nameOr, declaredName?_down, nameOr]

theorem methodScope?_down (c owner : Cursor) :
    methodScope? (c.down k) (owner.down k) = methodScope? c owner := by
  simp only [methodScope?, classTitle?_down, Cursor.focus_down, memberName_down]

theorem valueScope?_down (c : Cursor) : valueScope? (c.down k) = valueScope? c := by
  simp only [valueScope?, boundName?_down, Cursor.parentIs_down, Cursor.focus_down, nameOr_down]

theorem scopeLabel?_down (c : Cursor) : scopeLabel? (c.down k) = scopeLabel? c := by
  have howner : (c.down k).parent?.bind Cursor.parent?
      = (c.parent?.bind Cursor.parent?).map (Cursor.down k) := by
    rw [Cursor.parent?_down]
    cases c.parent? with
    | none => rfl
    | some p => exact Cursor.parent?_down k p
  simp only [scopeLabel?, howner, Cursor.kind_down, Cursor.focus_down, declaredName?_down,
    Cursor.parentIs_down, valueScope?_down]
  cases c.parent?.bind Cursor.parent? with
  | none => rfl
  | some owner => simp only [Option.map_some, methodScope?_down]

@[simp] theorem enclosing?_down (callables : List String) (c : Cursor) :
    enclosing? callables (c.down k) = enclosing? callables c := by
  have htrail : ∀ trail : List Crumb,
      scopeOnTrail? callables (trail.map (Crumb.down k)) = scopeOnTrail? callables trail := by
    intro trail
    induction trail with
    | nil => rfl
    | cons crumb rest ih =>
      have hlabel := scopeLabel?_down k ⟨crumb.parent, rest⟩
      rw [List.map_cons, scopeOnTrail?, scopeOnTrail?, ih, ← hlabel]
      rfl
  exact htrail c.trail

theorem calledMember_down (isAlias : String → Bool) (object : Option Node) (property : Node) :
    calledMember isAlias (object.map (down k)) (property.down k)
      = calledMember isAlias object property := by
  simp only [calledMember, Option.filter_map, Function.comp_def, kind_down, text_down]
  cases object.filter (·.kind = .identifier) with
  | none => rfl
  | some object => simp only [Option.map_some, text_down]

theorem calledName?_down (isAlias : String → Bool) (n : Node) :
    calledName? isAlias (n.down k) = calledName? isAlias n := by
  simp only [calledName?, child?_down]
  cases n.child? .function with
  | none => rfl
  | some function =>
    simp only [Option.map_some, kind_down, text_down, child?_down, Option.filter_map,
      Function.comp_def]
    cases (function.child? .property).filter (·.kind = .propertyIdentifier) with
    | none => rfl
    | some property => simp only [Option.map_some, calledMember_down]

theorem bindsName_down (c : Cursor) : bindsName (c.down k) = bindsName c := by
  rw [bindsName, Cursor.parent?_down, bindsName]
  cases c.parent? with
  | none => rfl
  | some p => simp only [Option.map_some, Cursor.kind_down, Cursor.fills_down]

theorem useAt?_down (isAlias : String → Bool) (callables : List String) (c : Cursor) :
    useAt? isAlias callables (c.down k) = useAt? isAlias callables c := by
  simp only [useAt?, usedAlias?, Cursor.kind_down, Cursor.text_down, bindsName_down,
    enclosing?_down]

theorem withUses_down (nodes : List Cursor) (callables : List String) (t : Imports) :
    withUses (nodes.map (Cursor.down k)) callables t = withUses nodes callables t := by
  rw [withUses, mapM_map_eq fun c _ => useAt?_down k _ callables c, withUses]

theorem callAt?_down (isAlias : String → Bool) (declared callables : List String) (c : Cursor) :
    callAt? isAlias declared callables (c.down k) = callAt? isAlias declared callables c := by
  simp only [callAt?, Cursor.kind_down, Cursor.focus_down, calledName?_down, enclosing?_down]

theorem callTable_down (nodes : List Cursor) (isAlias : String → Bool)
    (declared callables : List String) :
    callTable (nodes.map (Cursor.down k)) isAlias declared callables
      = callTable nodes isAlias declared callables := by
  rw [callTable, mapM_map_eq fun c _ => callAt?_down k isAlias declared callables c, callTable]

/-! ## Types -/

theorem isTypeImport_down (n : Node) : isTypeImport (n.down k) = isTypeImport n := by
  simp only [isTypeImport, holdsToken_down, firstOfKind?_down]
  cases n.firstOfKind? .importClause with
  | none => rfl
  | some clause =>
    simp only [Option.map_some, namedChildren_down, List.all_map, Function.comp_def, kind_down,
      holdsToken_down]

theorem isTypeExport_down (n : Node) : isTypeExport (n.down k) = isTypeExport n := by
  simp only [isTypeExport, holdsToken_down, child?_down, firstOfKind?_down]
  cases n.child? .declaration with
  | some declaration => simp only [Option.map_some, kind_down]
  | none =>
    cases n.firstOfKind? .exportClause with
    | none => rfl
    | some clause =>
      simp only [Option.map_none, Option.map_some, namedChildren_down, List.all_map,
        Function.comp_def, kind_down, holdsToken_down]

theorem holdsTypesOnly_down (root : Node) : holdsTypesOnly (root.down k) = holdsTypesOnly root := by
  simp only [holdsTypesOnly, isTypeStatement, namedChildren_down, List.all_map, Function.comp_def,
    kind_down, isTypeImport_down, isTypeExport_down]

end Analysis

end CodeAtlas
