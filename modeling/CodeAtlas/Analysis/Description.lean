import CodeAtlas.Syntax.Cursor
import CodeAtlas.Text.Blank
import CodeAtlas.Text.Find
/-
  Descriptions, taken from comments.

  A comment is read line by line, without its delimiters and without the star
  that leads a line. The line tagged `@description` describes what follows the
  comment; without such a line the first plain line does.
-/

namespace CodeAtlas.Analysis

open CodeAtlas.Syntax CodeAtlas.Text

/-- The longest description of a declaration. -/
def descriptionWidth : Nat := 60

/-- The tag of an explicit description, with the blank after it. -/
def tagWord : String := "@description "

/-- The text between the delimiters of a comment. A block that does not end
is read to the end. -/
def commentBody (cs : List Char) : List Char :=
  match dropPrefix? ['/', '/'] cs with
  | some rest => rest
  | none =>
    match dropPrefix? ['/', '*'] cs with
    | none => cs
    | some rest =>
      if ['/', '*'].isPrefixOf cs.reverse then (cs.drop 2).take (cs.length - 4) else rest

/-- A line without a leading star and one blank after it. -/
def dropStar (line : List Char) : List Char :=
  match trimStart line with
  | '*' :: c :: rest => if isBlank c then rest else c :: rest
  | ['*'] => []
  | _ => line

/-- The lines of a comment. -/
def bareLines (text : String) : List String :=
  ((commentBody text.toList).splitOn '\n').map fun l => String.ofList (trim (dropStar l))

/-- The first line tagged as a description, without its tag. -/
def taggedLine? (lines : List String) : Option String :=
  (lines.find? (startsWith tagWord)).map fun l =>
    String.ofList (trim (l.toList.drop tagWord.length))

/-- The description that the lines of a comment give. -/
def describe (lines : List String) : String :=
  match taggedLine? lines with
  | some l => first descriptionWidth l
  | none =>
    match lines.find? fun l => l ≠ "" && !startsWith "@" l && !startsWith "/" l with
    | some l => first descriptionWidth l
    | none => ""

/-- The description that a comment gives. -/
def commentDescription (text : String) : String := describe (bareLines text)

/-- The comment just before a node. A comment on the line on which the
construct before it ends belongs to that construct. -/
def commentBefore? (c : Cursor) : Option Cursor := do
  let comment ← c.prev?
  guard (comment.kind = .comment)
  match comment.prev? with
  | none => return comment
  | some before =>
    guard (!(before.named && before.kind ≠ .comment
      && before.focus.extent.stop.row = comment.focus.extent.start.row))
    return comment

/-- The comment that describes a node: the one before it, or the one before
the export statement that holds it. -/
def describingComment? (c : Cursor) : Option Cursor :=
  (commentBefore? c).or <|
    match c.parent? with
    | some p => if p.kind = .exportStatement then commentBefore? p else none
    | none => none

/-- The description of a declaration. -/
def descriptionOf (c : Cursor) : Except Fault String :=
  match describingComment? c with
  | some comment => do return commentDescription (← comment.text)
  | none => return ""

/-- The documentation block that opens a source. -/
def openingBlock? (code : List Char) : Option (List Char) := do
  let rest ← dropPrefix? ['/', '*', '*'] code
  let (inside, _) ← breakOn ['*', '/'] rest
  return ['/', '*', '*'] ++ inside ++ ['*', '/']

/-- The description of a file, from the documentation block that opens it. It
is not cut. -/
def openingDescription (code : String) : String :=
  match openingBlock? code.toList with
  | none => ""
  | some block =>
    let lines := (bareLines (String.ofList block)).filter fun l =>
      l ≠ "" && !startsWith "/" l && !startsWith "@ai" l
    (taggedLine? lines).getD ((lines.find? fun l => !startsWith "@" l).getD "")

end CodeAtlas.Analysis
