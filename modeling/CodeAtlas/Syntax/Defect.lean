import CodeAtlas.Syntax.Tree
/-
  Where a tree is broken.

  A parser always gives a tree; text it could not place becomes an error node,
  and a token it had to invent a missing node. `defect?` finds the first of
  them in document order, looking only below nodes that are marked to hold an
  error. `firstBad?` is the plain search without the marks.
-/

namespace CodeAtlas.Syntax.SyntaxTree

variable {α : Type}

/-- Whether the top node itself is an error or was missing. -/
def isBad (t : SyntaxTree α) : Bool := t.label.isError || t.label.isMissing

/-- Whether the search looks at a child: it is marked, or itself missing. -/
def isSuspect (t : SyntaxTree α) : Bool := t.label.hasError || t.label.isMissing

mutual

/-- The first bad node, looking only at suspects below the top. -/
def search? : SyntaxTree α → Option (SyntaxTree α)
  | node l e cs =>
    if l.isError || l.isMissing then some (node l e cs) else searchAll? cs

/-- The first bad node among the suspects of several trees. -/
def searchAll? : List (SyntaxTree α) → Option (SyntaxTree α)
  | [] => none
  | t :: ts =>
    if t.isSuspect then (search? t).or (searchAll? ts) else searchAll? ts

end

/-- The node to report when the tree is marked to hold an error: the first bad
one, or the top when none is found. -/
def defect? (t : SyntaxTree α) : Option (SyntaxTree α) :=
  if t.label.hasError then some ((search? t).getD t) else none

/-- The first bad node in document order. -/
def firstBad? (t : SyntaxTree α) : Option (SyntaxTree α) := t.preorder.find? isBad

end CodeAtlas.Syntax.SyntaxTree
