import CodeAtlas.Intake
import CodeAtlas.Settings.Value
/-
  Trees as a parser hands them over.

  A tree is a flat list of rows in document order. A row holds the kind of a
  node, its marks as a sum of powers of two, the two ends of its byte range,
  the number of its children, and, where the parent knows it by a field, the
  name of that field. The rows of the children follow the row of the parent.
-/

namespace CodeAtlas.TreeFile

open CodeAtlas.Syntax

/-- Whether a sum of marks has a mark. -/
def hasMark (marks : Int) (mark : Nat) : Bool := marks.toNat / mark % 2 = 1

/-- One row. -/
def row? : Value → Option (SyntaxTree.Row Span)
  | .array (kind :: .int marks :: .int start :: .int stop :: .int count :: rest) => do
    let kind ← kind.text?
    return {
      label :=
        { kind := Kind.ofName kind
          named := hasMark marks 1
          isError := hasMark marks 2
          isMissing := hasMark marks 4
          hasError := hasMark marks 8
          field := (rest.head?.bind Value.text?).bind Field.ofLabel? }
      extent := ⟨start.toNat, stop.toNat⟩
      childCount := count.toNat }
  | _ => none

/-- The tree that a list of rows describes. -/
def tree? : Value → Option (SyntaxTree Span)
  | .array rows => (rows.mapM row?).bind SyntaxTree.ofRows?
  | _ => none

/-- A source whose tree is known. -/
structure Known where
  language : Language
  code : String
  tree : SyntaxTree Span

/-- The tree of a source with nothing in it. -/
def emptyTree : SyntaxTree Span := .node ⟨.program, true, false, false, false, none⟩ ⟨0, 0⟩ []

/-- The parser that gives the trees of known sources. A source that is known
in another language only has the tree it has there. -/
def knownParser (known : List Known) : Intake.Parser := fun language code =>
  let same := known.filter (·.code = code)
  (((same.find? (·.language = language)).or same.head?).map (·.tree)).getD emptyTree

end CodeAtlas.TreeFile
