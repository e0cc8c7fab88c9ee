import CodeAtlas.Proofs.Analysis.Places
import CodeAtlas.Proofs.Syntax.Source
import CodeAtlas.Proofs.Text
/-
  Parameters are written alike in their plain and in their annotated form.

  A parameter is meant by its name or pattern and by whether it has a default
  (`Form`). In its plain form that name or pattern stands in the list itself; in
  its annotated form it is the pattern of a node of its own, which holds the
  default beside it.

  What is proved:
    1. `parameter_of_plain`, `parameter_of_annotated`: in either form a parameter
       is written as it is meant (`Form.written`).
    2. `parameters_of_takes`: a function is written by its parameters in their
       order, whatever tokens, comments and decorators stand between them.
    3. `WrittenIn.exists_uncut`: what is written for a parameter of any kind holds
       a comma only if a name in it does.
    4. `parameters_alike_and_apart` puts them together: both forms give one text,
       and the commas of that text separate the parameters.
-/

namespace CodeAtlas.Syntax.SyntaxTree

/-! ## The same node in another place -/

/-- The tree without the field that its top fills. -/
def withoutField {α : Type} : SyntaxTree α → SyntaxTree α
  | node l e cs => node { l with field := none } e cs

/-- Two nodes read the same: they have the same kinds and texts throughout, at
whatever place of a source and in whatever field of a parent they stand. -/
def SameReading (p q : Node) : Prop :=
  (p.map Extent.text).withoutField = (q.map Extent.text).withoutField

namespace SameReading

variable {p q : Node} (h : SameReading p q)
include h

theorem kind : p.kind = q.kind := by
  have hkind := congrArg SyntaxTree.kind h
  cases p; cases q
  exact hkind

theorem text : p.text = q.text := by
  have hextent := congrArg SyntaxTree.extent h
  cases p; cases q
  exact congrArg (Except.mapError Fault.brokenText) hextent

theorem firstOfKind? (k : Kind) :
    (p.firstOfKind? k).map (map Extent.text) = (q.firstOfKind? k).map (map Extent.text) := by
  have hfirst := congrArg (fun t => SyntaxTree.firstOfKind? t k) h
  rw [← firstOfKind?_map, ← firstOfKind?_map]
  cases p; cases q
  exact hfirst

end SameReading

end CodeAtlas.Syntax.SyntaxTree

namespace CodeAtlas.Analysis

open CodeAtlas.Syntax CodeAtlas.Syntax.SyntaxTree CodeAtlas.Text

/-! ## Forms of a parameter -/

/-- A pattern that takes a value apart. -/
def IsPattern (n : Node) : Prop := n.kind = .objectPattern ∨ n.kind = .other "array_pattern"

/-- What a parameter is, apart from how it is given. -/
inductive Form where
  | name (x : Node) (isName : x.kind = .identifier)
  | defaulted (x : Node) (isTarget : x.kind = .identifier ∨ IsPattern x)
  | rest (x : Node) (isRest : x.kind = .restPattern)
  | pattern (x : Node) (isPattern : IsPattern x)

namespace Form

/-- The name or the pattern. -/
def target : Form → Node
  | name x _ | defaulted x _ | rest x _ | pattern x _ => x

def hasDefault : Form → Bool
  | defaulted _ _ => true
  | _ => false

/-- The node is the parameter in its plain form: it is the name or the pattern
itself, or that with a default. -/
def Plain (p : Form) (n : Node) : Prop :=
  if p.hasDefault then
    n.kind = .assignmentPattern ∧ ∃ left, n.child? .left = some left ∧ SameReading p.target left
  else SameReading p.target n

/-- The node is the parameter in its annotated form: it has the name or the
pattern as its pattern, and a value exactly when there is a default. -/
def Annotated (p : Form) (n : Node) : Prop :=
  (n.kind = .requiredParameter ∨ n.kind = .optionalParameter) ∧
    (∃ pattern, n.child? .pattern = some pattern ∧ SameReading p.target pattern) ∧
    (n.child? .value).isSome = p.hasDefault

/-- The node is the parameter in one of the two forms. -/
def Given (p : Form) (n : Node) : Prop := p.Plain n ∨ p.Annotated n

/-- How a parameter is written: by its name, with `?` after it for a default and
`...` before it for a rest, and by `?` alone when it has no name. -/
def written : Form → Except Fault String
  | name x _ => x.text
  | defaulted x _ => if x.kind = .identifier then marked "" x "?" else return "?"
  | rest x _ =>
    match x.firstOfKind? .identifier with
    | some target => marked "..." target ""
    | none => return "?"
  | pattern _ _ => return "?"

end Form

theorem marked_congr {p q : Node} (h : p.text = q.text) (before after : String) :
    marked before p after = marked before q after := by
  rw [marked, marked, h]

theorem restParameter_congr {p q : Node} (h : SameReading p q) :
    restParameter p = restParameter q := by
  have hfirst := h.firstOfKind? .identifier
  unfold restParameter
  cases hp : p.firstOfKind? .identifier with
  | none =>
    rw [hp, Option.map_none, eq_comm, Option.map_eq_none_iff] at hfirst
    rw [hfirst]
  | some x =>
    rw [hp, Option.map_some, eq_comm, Option.map_eq_some_iff] at hfirst
    obtain ⟨y, hy, hxy⟩ := hfirst
    rw [hy]
    have hread : SameReading y x := congrArg withoutField hxy
    exact marked_congr hread.text.symm _ _

/-! ## Writing one parameter -/

section Writing
variable {n x : Node}

theorem IsPattern.congr (h : IsPattern n) (hread : SameReading n x) : IsPattern x := by
  rwa [IsPattern, ← hread.kind]

theorem IsPattern.kind_ne (h : IsPattern n) : n.kind ≠ .restPattern ∧ n.kind ≠ .identifier := by
  rcases h with h | h <;> rw [h] <;> exact ⟨nofun, nofun⟩

theorem parameter_of_isPattern (h : IsPattern n) : parameter n = .ok "?" := by
  unfold parameter
  rcases h with h | h <;> rw [h] <;> rfl

theorem parameter_eq_annotatedParameter
    (h : n.kind = .requiredParameter ∨ n.kind = .optionalParameter) :
    parameter n = annotatedParameter n := by
  unfold parameter
  rcases h with h | h <;> rw [h]

theorem defaultedParameter_of_name (hx : n.child? .left = some x) (kind : x.kind = .identifier) :
    defaultedParameter n = marked "" x "?" := by
  rw [defaultedParameter, hx]
  exact if_pos kind

theorem defaultedParameter_of_isPattern (hx : n.child? .left = some x) (h : IsPattern x) :
    defaultedParameter n = .ok "?" := by
  rw [defaultedParameter, hx]
  exact if_neg h.kind_ne.2

section Pattern
variable (hx : n.child? .pattern = some x)
include hx

theorem annotatedParameter_of_name (kind : x.kind = .identifier) :
    annotatedParameter n = marked "" x (if (n.child? .value).isSome then "?" else "") := by
  rw [annotatedParameter, hx]
  dsimp only
  rw [if_neg (by rw [kind]; exact nofun), if_neg (not_not.mpr kind)]

theorem annotatedParameter_of_rest (kind : x.kind = .restPattern) :
    annotatedParameter n = restParameter x := by
  rw [annotatedParameter, hx]
  exact if_pos kind

theorem annotatedParameter_of_isPattern (h : IsPattern x) : annotatedParameter n = .ok "?" := by
  rw [annotatedParameter, hx]
  dsimp only
  rw [if_neg h.kind_ne.1, if_pos h.kind_ne.2]
  rfl

end Pattern

end Writing

theorem Form.written_defaulted_of_isPattern {x : Node} (h : IsPattern x) :
    (Form.defaulted x (Or.inr h)).written = .ok "?" := if_neg h.kind_ne.2

/-- The plain form is written as the parameter is meant. -/
theorem parameter_of_plain {p : Form} {n : Node} (h : p.Plain n) : parameter n = p.written := by
  cases p with
  | name x isName =>
    change SameReading x n at h
    rw [parameter, ← h.kind, isName]
    exact h.text.symm
  | defaulted x isTarget =>
    obtain ⟨hkind, left, hleft, hread⟩ := h
    change SameReading x left at hread
    have hparameter : parameter n = defaultedParameter n := by rw [parameter, hkind]
    rcases isTarget with isName | isPattern
    · rw [hparameter, defaultedParameter_of_name hleft (hread.kind ▸ isName), Form.written,
        if_pos isName, marked_congr hread.text]
    · rw [hparameter, defaultedParameter_of_isPattern hleft (isPattern.congr hread),
        Form.written_defaulted_of_isPattern isPattern]
  | rest x isRest =>
    change SameReading x n at h
    rw [parameter, ← h.kind, isRest]
    exact (restParameter_congr h).symm
  | pattern x isPattern =>
    change SameReading x n at h
    exact parameter_of_isPattern (isPattern.congr h)

/-- The annotated form is written as the parameter is meant. -/
theorem parameter_of_annotated {p : Form} {n : Node} (h : p.Annotated n) :
    parameter n = p.written := by
  obtain ⟨hkind, ⟨pattern, hpattern, hread⟩, hvalue⟩ := h
  rw [parameter_eq_annotatedParameter hkind]
  cases p with
  | name x isName =>
    change SameReading x pattern at hread
    rw [annotatedParameter_of_name hpattern (hread.kind ▸ isName), hvalue]
    exact (marked_plain pattern).trans hread.text.symm
  | defaulted x isTarget =>
    change SameReading x pattern at hread
    rcases isTarget with isName | isPattern
    · rw [annotatedParameter_of_name hpattern (hread.kind ▸ isName), hvalue, Form.written,
        if_pos isName, marked_congr hread.text]
      rfl
    · rw [annotatedParameter_of_isPattern hpattern (isPattern.congr hread),
        Form.written_defaulted_of_isPattern isPattern]
  | rest x isRest =>
    change SameReading x pattern at hread
    rw [annotatedParameter_of_rest hpattern (hread.kind ▸ isRest)]
    exact (restParameter_congr hread).symm
  | pattern x isPattern =>
    change SameReading x pattern at hread
    exact annotatedParameter_of_isPattern hpattern (isPattern.congr hread)

theorem written_of_given (p : Form) (n : Node) (h : p.Given n) : p.written = parameter n :=
  (h.elim parameter_of_plain parameter_of_annotated).symm

/-! ## Writing the parameters of a function -/

/-- Some things stand among the nodes of a list in their order, each as a
parameter. Between them are only tokens, comments and decorators. -/
inductive Among {β : Type} (R : β → Node → Prop) : List β → List Node → Prop where
  | nil : Among R [] []
  | skip {ps : List β} {n : Node} {ns : List Node}
      (between : n.named = false ∨ n.kind = .comment ∨ n.kind = .decorator)
      (later : Among R ps ns) : Among R ps (n :: ns)
  | take {p : β} {ps : List β} {n : Node} {ns : List Node} (named : n.named = true)
      (noComment : n.kind ≠ .comment) (noDecorator : n.kind ≠ .decorator) (given : R p n)
      (later : Among R ps ns) : Among R (p :: ps) (n :: ns)

/-- A function has these things as its parameters, in a list or, if it is just
one, without a list. -/
inductive Takes {β : Type} (R : β → Node → Prop) (f : Node) : List β → Prop where
  | alone {p : β} {n : Node} (single : f.child? .parameter = some n) (given : R p n) :
      Takes R f [p]
  | listed {ps : List β} {list : Node} (noSingle : f.child? .parameter = none)
      (hasList : f.child? .parameters = some list) (among : Among R ps list.children) :
      Takes R f ps

section Lists
variable {β : Type} {R : β → Node → Prop}

theorem Among.forall₂ {ps : List β} {ns : List Node} (h : Among R ps ns) :
    List.Forall₂ R ps
      ((ns.filter named).filter fun p => p.kind ≠ .comment ∧ p.kind ≠ .decorator) := by
  induction h with
  | nil => exact .nil
  | skip between _ ih =>
    rcases between with hnamed | hkind
    · rwa [List.filter_cons_of_neg (by simp [hnamed])]
    · rw [List.filter_cons]
      split
      · rwa [List.filter_cons_of_neg (by rcases hkind with h | h <;> simp [h])]
      · exact ih
  | take named noComment noDecorator given _ ih =>
    rw [List.filter_cons_of_pos named,
      List.filter_cons_of_pos (by simp [noComment, noDecorator])]
    exact .cons given ih

/-- What a function takes are the nodes that its parameters are written from. -/
theorem Takes.forall₂ {f : Node} {ps : List β} (h : Takes R f ps) :
    List.Forall₂ R ps (parametersOf f) := by
  unfold parametersOf
  cases h with
  | alone single given =>
    rw [single]
    exact .cons given .nil
  | listed noSingle hasList among =>
    rw [noSingle]
    dsimp only
    rw [hasList]
    exact among.forall₂

/-- A function is written by its parameters, with commas between them. -/
theorem parameters_of_takes {write : β → Except Fault String}
    (hwrite : ∀ p n, R p n → write p = parameter n) {f : Node} {ps : List β} (h : Takes R f ps) :
    parameters f = ",".intercalate <$> ps.mapM write := by
  rw [parameters_eq, mapM_eq_of_forall₂ hwrite h.forall₂]

end Lists

/-! ## Commas -/

/-- The text of a node can be read and satisfies `P`. -/
def HasText (P : String → Prop) (n : Node) : Prop := ∃ s, n.text = .ok s ∧ P s

instance (P : String → Prop) [DecidablePred P] (n : Node) : Decidable (HasText P n) :=
  match h : n.text with
  | .error _ => isFalse fun ⟨s, hs, _⟩ => by rw [h] at hs; cases hs
  | .ok t =>
    decidable_of_iff (P t)
      ⟨fun ht => ⟨t, h, ht⟩, fun ⟨s, hs, hp⟩ => by rw [h] at hs; cases hs; exact hp⟩

/-- A text that can stand between commas. -/
def Uncut (s : String) : Prop := s ≠ "" ∧ ',' ∉ s.toList

instance (s : String) : Decidable (Uncut s) := inferInstanceAs (Decidable (_ ∧ _))

/-- Every name in a node can stand between commas. -/
def NamesUncut (n : Node) : Prop := ∀ x ∈ n.preorder, x.kind = .identifier → HasText Uncut x

instance (n : Node) : Decidable (NamesUncut n) :=
  List.decidableBAll (fun x : Node => x.kind = .identifier → HasText Uncut x) n.preorder

/-- What is written for a parameter can stand between commas when its names
can. -/
theorem WrittenIn.exists_uncut {root : Node} {r : Except Fault String} (h : WrittenIn root r)
    (hnames : NamesUncut root) : ∃ token, r = .ok token ∧ Uncut token := by
  cases h with
  | unnamed => exact ⟨"?", rfl, by decide⟩
  | @named x before after inside isName marks =>
    obtain ⟨s, hs, hne, hcomma⟩ := hnames x inside isName
    have hmarks : ∀ m ∈ parameterMarks, ',' ∉ m.1.toList ∧ ',' ∉ m.2.toList := by decide
    obtain ⟨hbefore, hafter⟩ := hmarks _ marks
    refine ⟨before ++ s ++ after, by rw [marked, hs]; rfl, ?_, ?_⟩
    · intro h
      simp only [String.append_eq_empty_iff] at h
      exact hne h.1.2
    · simp only [String.toList_append, List.mem_append, not_or]
      exact ⟨⟨hbefore, hcomma⟩, hafter⟩

/-- The parts of a text between its commas. -/
def tokens (s : String) : List String := (s.toList.splitOn ',').map String.ofList

/-- The commas of what is written for a function separate its parameters. -/
theorem exists_tokens_of_takes {f : Node} {ps : List Node} (h : Takes Eq f ps) (hne : ps ≠ [])
    (hnames : ∀ p ∈ ps, NamesUncut p) :
    ∃ signature, parameters f = .ok signature ∧
      List.Forall₂ (fun p token => parameter p = .ok token) ps (tokens signature) ∧
      ∀ token ∈ tokens signature, token ≠ "" := by
  have huncut : ∀ p ∈ ps, ∃ token, parameter p = .ok token ∧ Uncut token := fun p hp =>
    (parameter_cases (mem_preorder_self p)).exists_uncut (hnames p hp)
  obtain ⟨written, hwritten⟩ : Answers (ps.mapM parameter) :=
    .mapM fun p hp => (huncut p hp).imp fun _ htoken => htoken.1
  have heach : ∀ token ∈ written, Uncut token := by
    intro token htoken
    obtain ⟨p, hp, hptoken⟩ := exists_of_mem_mapM hwritten htoken
    obtain ⟨token', htoken', huncut'⟩ := huncut p hp
    cases hptoken.symm.trans htoken'
    exact huncut'
  have hall := mapM_eq_ok.mp hwritten
  have hwne : written ≠ [] := by
    rintro rfl
    exact hne (List.forall₂_nil_right_iff.mp hall)
  have htokens : tokens (",".intercalate written) = written := by
    rw [tokens, splitOn_intercalate rfl hwne fun token htoken => (heach token htoken).2,
      map_ofList_map_toList]
  refine ⟨",".intercalate written, ?_, ?_, ?_⟩
  · rw [parameters_of_takes (fun _ _ h => by rw [h]) h, hwritten]
    rfl
  · rwa [htokens]
  · rw [htokens]
    exact fun token htoken => (heach token htoken).1

/-! ## The parameters of a function as a whole -/

/-- Two functions that have the same parameters, in either form and with anything
between them, are written alike, and as the parameters are meant. When the names in
them can stand between commas, the parts between the commas are what is written for
each of the parameters, in their order. -/
theorem parameters_alike_and_apart (f : Node) :
    (∀ (g : Node) (ps : List Form), Takes Form.Given f ps → Takes Form.Given g ps →
      parameters f = parameters g ∧
        parameters f = ",".intercalate <$> ps.mapM Form.written) ∧
    (∀ ps : List Node, Takes Eq f ps → ps ≠ [] → (∀ p ∈ ps, NamesUncut p) →
      ∃ signature, parameters f = .ok signature ∧
        List.Forall₂ (fun p token => parameter p = .ok token) ps (tokens signature) ∧
        ∀ token ∈ tokens signature, token ≠ "") := by
  constructor
  · intro g ps hf hg
    have hmeant := parameters_of_takes written_of_given hf
    exact ⟨hmeant.trans (parameters_of_takes written_of_given hg).symm, hmeant⟩
  · intro ps
    exact exists_tokens_of_takes

/-- A construct with its text, at some line of a file. -/
def construed (line : Nat) (kind : Kind) (field : Option Field) (text : String)
    (children : List Node) : Node :=
  .node ⟨kind, true, false, false, false, field⟩ ⟨.ok text, ⟨line, 0⟩, ⟨line, 0⟩⟩ children

/-- A name, a name with a default, a pattern and a rest, as in
`a, b = 1, [c], ...r`. -/
def sampleForms : List Form :=
  [.name (construed 0 .identifier none "a" []) rfl,
    .defaulted (construed 0 .identifier none "b" []) (Or.inl rfl),
    .pattern (construed 0 (.other "array_pattern") none "[c]" []) (Or.inr rfl),
    .rest (construed 0 .restPattern none "...r" [construed 0 .identifier none "r" []]) rfl]

/-- An arrow function with a list of parameters. -/
def withList (line : Nat) (nodes : List Node) : Node :=
  construed line .arrowFunction none "f" [
    construed line (.other "formal_parameters") (some .parameters) "()" nodes]

def plainNodes : List Node :=
  [construed 0 .identifier none "a" [],
    construed 0 .assignmentPattern none "b = 1" [
      construed 0 .identifier (some .left) "b" [], construed 0 (.other "number") none "1" []],
    construed 0 (.other "array_pattern") none "[c]" [],
    construed 0 .restPattern none "...r" [construed 0 .identifier none "r" []]]

/-- The same parameters with types, in a file further down. -/
def annotatedNodes : List Node :=
  [construed 3 .optionalParameter none "a?: T" [construed 3 .identifier (some .pattern) "a" []],
    construed 3 .requiredParameter none "b = 1" [
      construed 3 .identifier (some .pattern) "b" [],
      construed 3 (.other "number") (some .value) "1" []],
    construed 3 .requiredParameter none "[c]: T" [
      construed 3 (.other "array_pattern") (some .pattern) "[c]" []],
    construed 3 .requiredParameter none "...r: T" [
      construed 3 .restPattern (some .pattern) "...r" [construed 3 .identifier none "r" []]]]

/-- A comment and a decorator stand before the annotated parameters. -/
def annotatedList : List Node :=
  [construed 3 .comment none "/* , */" [], construed 3 .decorator none "@d" []] ++ annotatedNodes

theorem parameters_alike_and_apart_sample :
    (Takes Form.Given (withList 3 annotatedList) sampleForms ∧
      Takes Form.Given (withList 0 plainNodes) sampleForms ∧
      parameters (withList 3 annotatedList) = parameters (withList 0 plainNodes) ∧
      parameters (withList 3 annotatedList) = .ok "a,b?,?,...r") ∧
    Takes Eq (withList 3 annotatedList) annotatedNodes ∧
    (∀ p ∈ annotatedNodes, NamesUncut p) ∧
    ∃ signature, parameters (withList 3 annotatedList) = .ok signature ∧
      List.Forall₂ (fun p token => parameter p = .ok token) annotatedNodes (tokens signature) ∧
      ∀ token ∈ tokens signature, token ≠ "" := by
  have hannotated : Takes Form.Given (withList 3 annotatedList) sampleForms := by
    refine .listed rfl rfl (.skip (Or.inr (Or.inl rfl)) (.skip (Or.inr (Or.inr rfl)) ?_))
    refine .take rfl nofun nofun (Or.inr ⟨Or.inr rfl, ⟨_, rfl, rfl⟩, rfl⟩) ?_
    refine .take rfl nofun nofun (Or.inr ⟨Or.inl rfl, ⟨_, rfl, rfl⟩, rfl⟩) ?_
    refine .take rfl nofun nofun (Or.inr ⟨Or.inl rfl, ⟨_, rfl, rfl⟩, rfl⟩) ?_
    exact .take rfl nofun nofun (Or.inr ⟨Or.inl rfl, ⟨_, rfl, rfl⟩, rfl⟩) .nil
  have hplain : Takes Form.Given (withList 0 plainNodes) sampleForms := by
    refine .listed rfl rfl (.take rfl nofun nofun (Or.inl rfl) ?_)
    refine .take rfl nofun nofun (Or.inl ⟨rfl, _, rfl, rfl⟩) ?_
    refine .take rfl nofun nofun (Or.inl rfl) ?_
    exact .take rfl nofun nofun (Or.inl rfl) .nil
  have hnodes : Takes Eq (withList 3 annotatedList) annotatedNodes := by
    refine .listed rfl rfl (.skip (Or.inr (Or.inl rfl)) (.skip (Or.inr (Or.inr rfl)) ?_))
    refine .take rfl nofun nofun rfl (.take rfl nofun nofun rfl ?_)
    exact .take rfl nofun nofun rfl (.take rfl nofun nofun rfl .nil)
  have hnames : ∀ p ∈ annotatedNodes, NamesUncut p := by decide
  obtain ⟨halike, hapart⟩ := parameters_alike_and_apart (withList 3 annotatedList)
  obtain ⟨hsame, hmeant⟩ := halike _ _ hannotated hplain
  have hwritten : ",".intercalate <$> sampleForms.mapM Form.written = .ok "a,b?,?,...r" := by
    decide +kernel
  exact ⟨⟨hannotated, hplain, hsame, hmeant.trans hwritten⟩, hnodes, hnames,
    hapart _ hnodes nofun hnames⟩

end CodeAtlas.Analysis
