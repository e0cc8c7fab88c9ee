import CodeAtlas.Syntax.Tree
/-
  Parameter lists, in a normal form.

  A parameter is written by its name, with `?` after it when it has a default
  and `...` before it when it takes the rest; a pattern is written `?`. The
  annotated form of a parameter is written like the plain one.
-/

namespace CodeAtlas.Analysis

open CodeAtlas.Syntax

/-- The text of a name with marks around it. -/
def marked (before : String) (n : Node) (after : String) : Except Fault String := do
  return before ++ (← n.text) ++ after

/-- A rest parameter. -/
def restParameter (n : Node) : Except Fault String :=
  match n.firstOfKind? .identifier with
  | some target => marked "..." target ""
  | none => return "?"

/-- A parameter with a default. -/
def defaultedParameter (n : Node) : Except Fault String :=
  match n.child? .left with
  | some left => if left.kind = .identifier then marked "" left "?" else return "?"
  | none => return "?"

/-- A parameter in its annotated form. -/
def annotatedParameter (n : Node) : Except Fault String :=
  match n.child? .pattern with
  | none => return "?"
  | some pattern =>
    if pattern.kind = .restPattern then restParameter pattern
    else if pattern.kind ≠ .identifier then return "?"
    else marked "" pattern (if (n.child? .value).isSome then "?" else "")

/-- One parameter. -/
def parameter (n : Node) : Except Fault String :=
  match n.kind with
  | .identifier => n.text
  | .assignmentPattern => defaultedParameter n
  | .restPattern => restParameter n
  | .requiredParameter | .optionalParameter => annotatedParameter n
  | _ => return "?"

/-- The parameters of a function, separated by commas. An arrow function may
have a single parameter without a list. -/
def parameters (n : Node) : Except Fault String :=
  match n.child? .parameter with
  | some single => parameter single
  | none =>
    match n.child? .parameters with
    | none => return ""
    | some list => do
      let listed := list.namedChildren.filter fun p => p.kind ≠ .comment ∧ p.kind ≠ .decorator
      return ",".intercalate (← listed.mapM parameter)

end CodeAtlas.Analysis
