import CodeAtlas.Analysis.Outline
import CodeAtlas.Proofs.Fallible
import CodeAtlas.Proofs.Syntax.Reorder
/-
  What the passes read of a tree that hangs below a file.

  The top of a file has a kind of its own, so from a node below it the passes
  see little of the rest of the file: whether the node stands at the top, the
  comments before it, and the name of the top where a class body stands there.

    1. Most of what is read is the same as in the tree alone (`classTitle?_under`,
       `importSteps_under`), also the description, two steps down
       (`descriptionOf_under`).
    2. The callable around a node is the same below any two tops that give the
       same name to a class body (`enclosing?_under`).
    3. The declarations that a node makes are the same but for their own
       descriptions (`Repeats`, `declarationsAt_under`).
-/

namespace CodeAtlas.Analysis

open CodeAtlas.Syntax Cursor

section OneTop
variable {top : Crumb} (htop : top.parent.kind = .program) {d : Cursor}
include htop

/-! ## Names -/

theorem binding?_under : binding? (d.under top) = binding? d := by
  obtain ⟨focus, trail⟩ := d
  -- a tree alone has nothing above it, and a file above it declares no variable
  cases trail with
  | nil => simp [binding?, under, Cursor.parent?, Cursor.kind, htop]
  | cons crumb rest => rfl

theorem boundName?_under : boundName? (d.under top) = boundName? d := by
  rw [boundName?, binding?_under htop, boundName?]

theorem boundClassTitle?_under : boundClassTitle? (d.under top) = boundClassTitle? d := by
  rw [boundClassTitle?, boundName?_under htop, boundClassTitle?, kind_under]

theorem placedClassTitle?_under : placedClassTitle? (d.under top) = placedClassTitle? d := by
  obtain ⟨focus, trail⟩ := d
  cases trail with
  | nil => simp [placedClassTitle?, under, Cursor.parent?, Cursor.kind, htop]
  | cons crumb rest => rfl

theorem classTitle?_under : classTitle? (d.under top) = classTitle? d := by
  simp only [classTitle?, boundClassTitle?_under htop, placedClassTitle?_under htop, focus_under]

theorem standsAsDefault_under : standsAsDefault (d.under top) = standsAsDefault d := by
  obtain ⟨focus, trail⟩ := d
  cases trail with
  | nil => simp [standsAsDefault, under, Cursor.parent?, Cursor.kind, htop]
  | cons crumb rest => rfl

theorem bindsName_under : bindsName (d.under top) = bindsName d := by
  obtain ⟨focus, trail⟩ := d
  cases trail with
  | nil => simp [bindsName, under, Cursor.parent?, Cursor.kind, htop]
  | cons crumb rest => rfl

theorem usedAlias?_under (isAlias : String → Bool) :
    usedAlias? isAlias (d.under top) = usedAlias? isAlias d := by
  simp only [usedAlias?, kind_under, text_under, bindsName_under htop]

/-! ## Imports -/

theorem takenMember?_under : takenMember? (d.under top)
    = (takenMember? d).map fun taken => (taken.1.under top, taken.2) := by
  obtain ⟨focus, trail⟩ := d
  cases trail with
  | nil => simp [takenMember?, under, Cursor.parent?, Cursor.kind, htop]
  | cons crumb rest =>
    simp only [takenMember?, Option.bind_eq_bind, Option.map_bind, Function.comp_def]
    rfl

theorem loadMemberSteps_under : loadMemberSteps (d.under top) = loadMemberSteps d := by
  unfold loadMemberSteps
  rw [takenMember?_under htop, focus_under]
  cases takenMember? d with
  | none => rfl
  | some taken =>
    apply congrArg (loadedModule? d.focus >>= ·)
    funext loaded
    cases loaded with
    | none => rfl
    | some module => simp only [Option.map_some, boundName?_under htop]

theorem importSteps_under : importSteps (d.under top) = importSteps d := by
  unfold importSteps
  rw [kind_under, focus_under, loadMemberSteps_under htop]

end OneTop

/-! ## Descriptions and members -/

section Members
variable {top : Crumb} {d : Cursor}

theorem commentBefore?_under (hd : d.trail ≠ []) :
    commentBefore? (d.under top) = (commentBefore? d).map (under top) := by
  unfold commentBefore?
  rw [prev?_under hd]
  cases hprev : d.prev? with
  | none => rfl
  | some comment =>
    -- the comment stands beside the node, so what is before it is in the tree as well
    simp only [Option.map_some, Option.bind_eq_bind, Option.bind_some, Option.map_bind, kind_under,
      prev?_under (trail_ne_nil_of_prev? hprev)]
    cases comment.prev? with
    | none => rfl
    | some before =>
      simp only [Function.comp_def, Option.map_some, Option.map_bind]
      rfl

/-- Two steps down, the comments that describe a node stand in its tree. -/
theorem descriptionOf_under (hd : 2 ≤ d.trail.length) :
    descriptionOf (d.under top) = descriptionOf d := by
  have hcomment : describingComment? (d.under top) = (describingComment? d).map (under top) := by
    obtain ⟨focus, trail⟩ := d
    match trail, hd with
    | crumb :: crumb' :: rest, _ =>
      have hnode : commentBefore? (under top ⟨focus, crumb :: crumb' :: rest⟩) = _ :=
        commentBefore?_under (List.cons_ne_nil _ _)
      have hparent : commentBefore? (under top ⟨crumb.parent, crumb' :: rest⟩) = _ :=
        commentBefore?_under (List.cons_ne_nil _ _)
      unfold describingComment?
      rw [hnode, Option.map_or]
      apply congrArg (Option.or _)
      show (if crumb.parent.kind = _ then commentBefore? (under top ⟨crumb.parent, crumb' :: rest⟩)
        else none) = Option.map (under top)
          (if crumb.parent.kind = _ then commentBefore? ⟨crumb.parent, crumb' :: rest⟩ else none)
      rw [hparent, apply_ite (Option.map (under top))]
      rfl
  unfold descriptionOf
  rw [hcomment]
  cases describingComment? d with
  | none => rfl
  | some comment => rfl

theorem methodEntry_under (hd : 2 ≤ d.trail.length) :
    methodEntry (d.under top) = methodEntry d := by
  simp only [methodEntry, descriptionOf_under hd, focus_under]

theorem methodsOf_under : methodsOf (d.under top) = methodsOf d := by
  unfold methodsOf
  rw [child?_under]
  cases hbody : d.child? .body with
  | none => rfl
  | some body =>
    simp only [Option.map_some, namedChildren_under, List.filter_map, List.mapM_map]
    apply congrArg (· >>= _)
    apply mapM_congr
    intro m hm
    -- the class, its body, and then the method
    have hlength := length_trail_of_mem_children (child?_eq_some hbody).1
    have hlength' := length_trail_of_mem_children
      (mem_children_of_mem_namedChildren (List.mem_filter.mp hm).1)
    exact methodEntry_under (by omega)

theorem memberFunction_under (container : String) (hd : 2 ≤ d.trail.length) :
    memberFunction container (d.under top) = memberFunction container d := by
  unfold memberFunction
  rw [kind_under, focus_under, descriptionOf_under hd]

theorem objectFunctions_under (container : String) (hd : d.trail ≠ []) :
    objectFunctions container (d.under top) = objectFunctions container d := by
  unfold objectFunctions
  rw [kind_under, namedChildren_under, List.mapM_map]
  split
  · apply congrArg (· >>= _)
    apply mapM_congr
    intro m hm
    have hlength := length_trail_of_mem_children (mem_children_of_mem_namedChildren hm)
    have hpos := List.length_pos_iff.mpr hd
    exact memberFunction_under container (by omega)
  · rfl

theorem defaultTarget?_under :
    defaultTarget? (d.under top) = (defaultTarget? d).map (under top) := by
  unfold defaultTarget?
  rw [child?_under, child?_under, focus_under, apply_ite (Option.map (under top)), Option.map_or]
  rfl

end Members

section TwoTops
variable {a b : Crumb} (ha : a.parent.kind = .program) (hb : b.parent.kind = .program)
  {d : Cursor}
include ha hb

/-! ## Scopes -/

theorem parentIs_under (k : Kind) : (d.under a).parentIs k = (d.under b).parentIs k := by
  obtain ⟨focus, trail⟩ := d
  cases trail with
  | nil => simp [Cursor.parentIs, under, Cursor.parent?, Cursor.kind, ha, hb]
  | cons crumb rest => rfl

/-- A node has the same name as a scope below both tops, if the tops give the
same name to a class body below them. -/
theorem scopeLabel?_under
    (htitle : ∀ crumb, d.trail = [crumb] → crumb.parent.kind = .classBody →
      classTitle? (root a.parent) = classTitle? (root b.parent)) :
    scopeLabel? (d.under a) = scopeLabel? (d.under b) := by
  unfold scopeLabel?
  rw [parentIs_under ha hb, kind_under, kind_under, focus_under, focus_under]
  split
  · rfl
  split
  · next hmethod =>
    obtain ⟨p, hp, hkind⟩ := parentIs_iff.mp hmethod.2
    obtain ⟨focus, trail⟩ := d
    -- the class that holds the body is above the tree, at its top, or further down
    match trail with
    | [] =>
      cases hp
      rw [Cursor.kind, hb] at hkind
      cases hkind
    | [crumb] =>
      cases hp
      show methodScope? _ (root a.parent) = methodScope? _ (root b.parent)
      simp only [methodScope?, htitle crumb rfl hkind, focus_under]
    | crumb :: crumb' :: rest =>
      show methodScope? _ (under a ⟨crumb'.parent, rest⟩)
        = methodScope? _ (under b ⟨crumb'.parent, rest⟩)
      simp only [methodScope?, classTitle?_under ha, classTitle?_under hb, focus_under]
  split
  · simp only [valueScope?, boundName?_under ha, boundName?_under hb, parentIs_under ha hb,
      focus_under]
  · rfl

theorem enclosing?_under {t : Node} (hd : d ∈ (root t).preorder)
    (htitle : t.kind = .classBody → classTitle? (root a.parent) = classTitle? (root b.parent))
    (callables : List String) :
    enclosing? callables (d.under a) = enclosing? callables (d.under b) := by
  obtain ⟨focus, trail⟩ := d
  -- the scopes on the way down to the tree, and above them the top
  induction trail generalizing focus with
  | nil =>
    have hnone : ∀ top : Crumb, top.parent.kind = .program →
        scopeOnTrail? callables [top] = .ok none := by
      intro top htop
      have hlabel : scopeLabel? ⟨top.parent, []⟩ = .ok none := by
        simp [scopeLabel?, Cursor.kind, htop]
        rfl
      rw [scopeOnTrail?, hlabel]
      rfl
    exact (hnone a ha).trans (hnone b hb).symm
  | cons crumb rest ih =>
    have hparent : ⟨crumb.parent, rest⟩ ∈ (root t).preorder := mem_preorder_of_parent? hd rfl
    have hlabel : scopeLabel? ⟨crumb.parent, rest ++ [a]⟩
        = scopeLabel? ⟨crumb.parent, rest ++ [b]⟩ := by
      apply scopeLabel?_under ha hb (d := ⟨crumb.parent, rest⟩)
      intro crumb' hrest hkind
      apply htitle
      have htop : (⟨crumb'.parent, []⟩ : Cursor) = root t := by
        refine eq_root_of_trail (mem_preorder_of_parent? hparent ?_) rfl
        rw [Cursor.parent?, hrest]
      rw [← hkind, show crumb'.parent = t from congrArg Cursor.focus htop]
    have hrest : scopeOnTrail? callables (rest ++ [a]) = scopeOnTrail? callables (rest ++ [b]) :=
      ih crumb.parent hparent
    show scopeOnTrail? callables (crumb :: (rest ++ [a]))
      = scopeOnTrail? callables (crumb :: (rest ++ [b]))
    rw [scopeOnTrail?, scopeOnTrail?, hlabel, hrest]

end TwoTops

/-! ## Declarations -/

/-- The declaration without its description; those of methods stay. -/
def Declaration.undescribed : Declaration → Declaration
  | .function e => .function { e with description := "" }
  | .classDef e => .classDef { e with description := "" }
  | .constant e => .constant { e with description := "" }

/-- The second pass makes the declarations that the first one made, their
descriptions apart; it does so at least when `D` holds. -/
def Repeats (D : Prop) (x y : Except Fault (List Declaration)) : Prop :=
  ∀ l, x = .ok l →
    (∀ l', y = .ok l' → l.map Declaration.undescribed = l'.map Declaration.undescribed) ∧
      (D → Answers y)

namespace Repeats

variable {D : Prop} {α : Type} {x y : Except Fault (List Declaration)}

theorem refl : Repeats D x x := by
  intro l hl
  refine ⟨fun l' hl' => ?_, fun _ => ⟨l, hl⟩⟩
  cases hl.symm.trans hl'
  rfl

/-- Both passes ask the same. -/
theorem ite {p q : Prop} [Decidable p] [Decidable q] (hpq : p ↔ q)
    {x' y' : Except Fault (List Declaration)} (hyes : p → Repeats D x y)
    (hno : ¬ p → Repeats D x' y') :
    Repeats D (if p then x else x') (if q then y else y') := by
  by_cases hp : p
  · rw [if_pos hp, if_pos (hpq.mp hp)]
    exact hyes hp
  · rw [if_neg hp, if_neg (mt hpq.mpr hp)]
    exact hno hp

/-- Both passes read the same. -/
theorem bind {x : Except Fault α} {f g : α → Except Fault (List Declaration)}
    (h : ∀ v, x = .ok v → Repeats D (f v) (g v)) : Repeats D (x >>= f) (x >>= g) := by
  intro l hl
  obtain ⟨v, hv, hl⟩ := bind_eq_ok.mp hl
  obtain ⟨hsame, hanswers⟩ := h v hv l hl
  refine ⟨fun l' hl' => ?_, fun hD => Answers.bind ⟨v, hv⟩ fun w hw => ?_⟩
  · obtain ⟨w, hw, hl'⟩ := bind_eq_ok.mp hl'
    cases hv.symm.trans hw
    exact hsame l' hl'
  · cases hv.symm.trans hw
    exact hanswers hD

/-- Each pass reads a description of its own. -/
theorem bindDescription {x y : Except Fault String}
    {f g : String → Except Fault (List Declaration)} (hy : D → Answers y)
    (h : ∀ v w, Repeats D (f v) (g w)) : Repeats D (x >>= f) (y >>= g) := by
  intro l hl
  obtain ⟨v, -, hl⟩ := bind_eq_ok.mp hl
  refine ⟨fun l' hl' => ?_, fun hD => (hy hD).bind fun w _ => (h v w l hl).2 hD⟩
  obtain ⟨w, -, hl'⟩ := bind_eq_ok.mp hl'
  exact (h v w l hl).1 l' hl'

theorem append (l : List Declaration) (h : Repeats D x y) :
    Repeats D (x >>= fun m => pure (l ++ m)) (y >>= fun m => pure (l ++ m)) := by
  intro r hr
  obtain ⟨m, hm, hr⟩ := bind_eq_ok.mp hr
  cases pure_eq_ok.mp hr
  refine ⟨fun r' hr' => ?_, fun hD => ((h m hm).2 hD).bind fun _ _ => .pure _⟩
  obtain ⟨m', hm', hr'⟩ := bind_eq_ok.mp hr'
  cases pure_eq_ok.mp hr'
  rw [List.map_append, List.map_append, (h m hm).1 m' hm']

theorem map_flatten {f g : α → Except Fault (List Declaration)} {xs : List α}
    {parts parts' : List (List Declaration)} (h : ∀ v ∈ xs, Repeats D (f v) (g v))
    (hf : List.Forall₂ (fun v part => f v = .ok part) xs parts)
    (hg : List.Forall₂ (fun v part => g v = .ok part) xs parts') :
    parts.flatten.map Declaration.undescribed = parts'.flatten.map Declaration.undescribed := by
  induction hf generalizing parts' with
  | nil =>
    cases hg
    rfl
  | @cons v part xs parts hv _ ih =>
    cases hg with
    | cons hv' hrest =>
      rw [List.flatten_cons, List.flatten_cons, List.map_append, List.map_append,
        (h v List.mem_cons_self part hv).1 _ hv',
        ih (fun w hw => h w (List.mem_cons_of_mem v hw)) hrest]

/-- Passes over a list repeat each other member by member. -/
theorem flatten_mapM {f g : α → Except Fault (List Declaration)} {xs : List α}
    (h : ∀ v ∈ xs, Repeats D (f v) (g v)) :
    Repeats D (xs.mapM f >>= fun parts => pure parts.flatten)
      (xs.mapM g >>= fun parts => pure parts.flatten) := by
  intro l hl
  obtain ⟨parts, hparts, hl⟩ := bind_eq_ok.mp hl
  cases pure_eq_ok.mp hl
  refine ⟨fun l' hl' => ?_, fun hD => (Answers.mapM fun v hv => ?_).bind fun _ _ => .pure _⟩
  · obtain ⟨parts', hparts', hl'⟩ := bind_eq_ok.mp hl'
    cases pure_eq_ok.mp hl'
    exact map_flatten h (mapM_eq_ok.mp hparts) (mapM_eq_ok.mp hparts')
  · obtain ⟨part, -, hpart⟩ := exists_ok_of_mapM hparts hv
    exact (h v hv part hpart).2 hD

theorem oneFunction (name : String) (function span : Node) (v w : String) :
    Repeats D (oneFunction name function span v) (oneFunction name function span w) := by
  intro l hl
  obtain ⟨e, he, hl⟩ := bind_eq_ok.mp hl
  obtain ⟨params, hparams, he⟩ := bind_eq_ok.mp he
  cases pure_eq_ok.mp he
  cases pure_eq_ok.mp hl
  have hw : Analysis.oneFunction name function span w
      = .ok [.function ⟨name, params, span.startLine, span.endLine, w⟩] :=
    bind_eq_ok.mpr ⟨_, bind_eq_ok.mpr ⟨params, hparams, rfl⟩, rfl⟩
  refine ⟨fun l' hl' => ?_, fun _ => ⟨_, hw⟩⟩
  cases hw.symm.trans hl'
  rfl

theorem oneClass (name : String) {c c' : Cursor} (hfocus : c.focus = c'.focus)
    (hmethods : methodsOf c = methodsOf c') (span : Node) (v w : String) :
    Repeats D (oneClass name c span v) (oneClass name c' span w) := by
  intro l hl
  obtain ⟨e, he, hl⟩ := bind_eq_ok.mp hl
  obtain ⟨base, hbase, he⟩ := bind_eq_ok.mp he
  obtain ⟨methods, hm, he⟩ := bind_eq_ok.mp he
  cases pure_eq_ok.mp he
  cases pure_eq_ok.mp hl
  have hw : Analysis.oneClass name c' span w
      = .ok [.classDef ⟨name, span.startLine, span.endLine, base, w, methods⟩] := by
    rw [hfocus] at hbase
    rw [hmethods] at hm
    exact bind_eq_ok.mpr
      ⟨_, bind_eq_ok.mpr ⟨base, hbase, bind_eq_ok.mpr ⟨methods, hm, rfl⟩⟩, rfl⟩
  refine ⟨fun l' hl' => ?_, fun _ => ⟨_, hw⟩⟩
  cases hw.symm.trans hl'
  rfl

theorem constantOf (isConst : Bool) (name : String) (line : Int) (value : Option Node)
    (v w : String) :
    Repeats D (constantOf isConst ⟨name, line, v⟩ value)
      (constantOf isConst ⟨name, line, w⟩ value) := by
  have hone : Repeats D (pure [.constant ⟨name, line, v⟩]) (pure [.constant ⟨name, line, w⟩]) := by
    intro l hl
    cases pure_eq_ok.mp hl
    refine ⟨fun l' hl' => ?_, fun _ => .pure _⟩
    cases pure_eq_ok.mp hl'
    rfl
  unfold Analysis.constantOf
  split
  · exact refl
  split
  · exact hone
  · refine bind fun loads _ => ?_
    split
    · exact refl
    · exact hone

end Repeats

section TwoTops
variable {a b : Crumb} (ha : a.parent.kind = .program) (hb : b.parent.kind = .program)
  {D : Prop} {d : Cursor}

theorem oneClass_under (name : String) (span : Node) (v w : String) :
    Repeats D (oneClass name (d.under a) span v) (oneClass name (d.under b) span w) := by
  have hfocus : (d.under a).focus = (d.under b).focus := rfl
  have hmethods : methodsOf (d.under a) = methodsOf (d.under b) := by
    rw [methodsOf_under, methodsOf_under]
  exact .oneClass name hfocus hmethods span v w

theorem bindingDeclarations_under (isConst : Bool) (span : Node) (v w : String) :
    Repeats D (bindingDeclarations isConst span v (d.under a))
      (bindingDeclarations isConst span w (d.under b)) := by
  unfold bindingDeclarations
  rw [focus_under, focus_under, child?_under, child?_under]
  split
  · exact .refl
  refine .bind fun name _ => ?_
  cases hvalue : d.child? .value with
  | none => exact .constantOf _ _ _ _ _ _
  | some value =>
    have htrail := length_trail_of_mem_children (child?_eq_some hvalue).1
    have hne : value.trail ≠ [] := List.length_pos_iff.mp (by omega)
    refine .ite Iff.rfl (fun _ => .oneFunction _ _ _ _ _) fun _ => ?_
    refine .ite Iff.rfl (fun _ => oneClass_under _ _ _ _) fun _ => ?_
    rw [objectFunctions_under name hne, objectFunctions_under name hne]
    refine .bind fun functions _ => ?_
    exact (Repeats.constantOf isConst name _ _ _ _).append functions

theorem exportStatement_under (hdesc : D → Answers (descriptionOf (d.under b))) :
    Repeats D (exportStatement (d.under a)) (exportStatement (d.under b)) := by
  unfold exportStatement
  rw [defaultTarget?_under, defaultTarget?_under]
  cases defaultTarget? d with
  | none => exact .refl
  | some target =>
    refine .bindDescription hdesc fun v w => ?_
    refine .ite Iff.rfl (fun _ => .bind fun _ _ => .oneFunction _ _ _ _ _) fun _ => ?_
    exact .ite Iff.rfl (fun _ => .bind fun _ _ => oneClass_under _ _ _ _) fun _ => .refl

include ha hb

theorem functionStatement_under (hdesc : D → Answers (descriptionOf (d.under b))) :
    Repeats D (functionStatement (d.under a)) (functionStatement (d.under b)) := by
  unfold functionStatement
  rw [standsAsDefault_under ha, standsAsDefault_under hb]
  split
  · exact .refl
  · exact .bind fun _ _ => .bindDescription hdesc fun _ _ => .oneFunction _ _ _ _ _

theorem classStatement_under (hdesc : D → Answers (descriptionOf (d.under b))) :
    Repeats D (classStatement (d.under a)) (classStatement (d.under b)) := by
  unfold classStatement
  rw [standsAsDefault_under ha, standsAsDefault_under hb]
  split
  · exact .refl
  · exact .bind fun _ _ => .bindDescription hdesc fun _ _ => oneClass_under _ _ _ _

theorem variableStatement_under (hdesc : D → Answers (descriptionOf (d.under b))) :
    Repeats D (variableStatement (d.under a)) (variableStatement (d.under b)) := by
  unfold variableStatement
  rw [parentIs_under ha hb, parentIs_under ha hb]
  split
  · refine .bindDescription hdesc fun v w => ?_
    simp only [namedChildren_under, List.filter_map, List.mapM_map]
    exact .flatten_mapM fun _ _ => bindingDeclarations_under _ _ _ _
  · exact .refl

theorem assignmentDeclarations_under (hdesc : D → Answers (descriptionOf (d.under b)))
    (assignment right : Cursor) (left : Node) :
    Repeats D (assignmentDeclarations (d.under a) (assignment.under a) (right.under a) left)
      (assignmentDeclarations (d.under b) (assignment.under b) (right.under b) left) := by
  have hexports : Repeats D
      (exportsDeclarations (d.under a) (assignment.under a) (right.under a))
      (exportsDeclarations (d.under b) (assignment.under b) (right.under b)) := by
    unfold exportsDeclarations
    rw [classTitle?_under ha, classTitle?_under hb]
    refine .ite Iff.rfl (fun _ => .bind fun _ _ => ?_) fun _ => ?_
    · exact .bindDescription hdesc fun _ _ => .oneFunction _ _ _ _ _
    refine .ite Iff.rfl (fun _ => .bind fun _ _ => ?_) fun _ => .refl
    exact .bindDescription hdesc fun _ _ => oneClass_under _ _ _ _
  refine .bind fun whole _ => .ite Iff.rfl (fun _ => hexports) fun _ => ?_
  refine .ite Iff.rfl (fun _ => ?_) fun _ => .refl
  split
  · refine .bind fun onExports _ => .ite Iff.rfl (fun _ => .bind fun _ _ => ?_) fun _ => .refl
    exact .bindDescription hdesc fun _ _ => .oneFunction _ _ _ _ _
  · exact .refl

theorem expressionStatement_under (hdesc : D → Answers (descriptionOf (d.under b))) :
    Repeats D (expressionStatement (d.under a)) (expressionStatement (d.under b)) := by
  unfold expressionStatement
  rw [parentIs_under ha hb, firstOfKind?_under, firstOfKind?_under]
  split
  · exact .refl
  cases d.firstOfKind? .assignmentExpression with
  | none => exact .refl
  | some assignment =>
    simp only [Option.map_some, focus_under, child?_under]
    cases assignment.focus.child? .left with
    | none => exact .refl
    | some left =>
      cases assignment.child? .right with
      | none => exact .refl
      | some right => exact assignmentDeclarations_under ha hb hdesc assignment right left

/-- A node makes the same declarations below both tops, but for their
descriptions. -/
theorem declarationsAt_under (hdesc : D → Answers (descriptionOf (d.under b))) :
    Repeats D (declarationsAt (d.under a)) (declarationsAt (d.under b)) := by
  unfold declarationsAt
  rw [kind_under, kind_under]
  split
  · exact functionStatement_under ha hb hdesc
  · exact functionStatement_under ha hb hdesc
  · exact classStatement_under ha hb hdesc
  · exact classStatement_under ha hb hdesc
  · exact variableStatement_under ha hb hdesc
  · exact variableStatement_under ha hb hdesc
  · exact exportStatement_under hdesc
  · exact expressionStatement_under ha hb hdesc
  · exact .refl

end TwoTops

end CodeAtlas.Analysis
