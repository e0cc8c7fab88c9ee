import CodeAtlas.Table
import CodeAtlas.Text.Find
import CodeAtlas.Text.Points
/-
  Include patterns and their directories.

  A pattern is cut where a wildcard ending begins. There are four endings,
  tried one after the other; an ending runs to the end of the text, or to the
  line feed that ends it, and so it can begin only in the last line.
-/

namespace CodeAtlas.Globs

open CodeAtlas.Text

/-- How an ending may begin, in the order in which they are tried. -/
def endings : List Points :=
  [.ofString "/**/", .ofString "**/", .ofString "/*.", .ofString "*."]

/-- The code point of the line feed. -/
def lineFeed : Nat := '\n'.toNat

/-- A text in three parts: all before its last line, that line, and the line
feed that ends it, if one does. -/
def lastLine (codes : List Nat) : List Nat × List Nat × List Nat :=
  let (body, feed) :=
    if codes.getLast? = some lineFeed then (codes.dropLast, [lineFeed]) else (codes, [])
  let line := (body.reverse.takeWhile (· ≠ lineFeed)).reverse
  (body.take (body.length - line.length), line, feed)

/-- A text without the ending that begins with `start`. -/
def cutEnding (text start : Points) : Points :=
  let (before, line, feed) := lastLine text.codes
  match breakOn start.codes line with
  | some (front, _) => ⟨before ++ front ++ feed⟩
  | none => text

/-- The directory of a pattern: what is left without its endings, or the project
itself when nothing is. -/
def directory (pattern : Points) : Points :=
  let rest := endings.foldl cutEnding pattern
  if rest.codes = [] then .ofString "." else rest

/-- The directories of some patterns, each once. -/
def directories (patterns : List Points) : List Points := distinct (patterns.map directory)

end CodeAtlas.Globs
