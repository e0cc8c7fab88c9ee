import CodeAtlas.Text.Find
/-
  Paths as they are written, without asking a disk.

  A path is an anchor and a list of components. Empty components and `.` are
  dropped when a path is read, `..` is kept: only a disk can say where it
  leads. `Path.lexical` and `Path.relativeTo` do the purely textual reading of
  `..` that is used to show one place relative to another.
-/

namespace CodeAtlas

/-- A path: what it starts from, and its components. -/
structure Path where
  /-- `/` for an absolute path (or the two slashes that some systems set
  apart), and nothing for a relative one. -/
  anchor : String
  parts : List String
  deriving DecidableEq, Repr

namespace Path

instance : Inhabited Path := ⟨⟨"", []⟩⟩

/-- Splits a text at slashes and drops the components that say nothing. -/
def components (cs : List Char) : List String :=
  (cs.splitOn '/' |>.map String.ofList).filter fun s => s ≠ "" ∧ s ≠ "."

/-- Reads a path. Exactly two slashes in front are an anchor of their own. -/
def ofString (s : String) : Path :=
  let cs := s.toList
  let anchor :=
    match (cs.takeWhile (· = '/')).length with
    | 0 => ""
    | 2 => "//"
    | _ => "/"
  ⟨anchor, components cs⟩

/-- The path as text: a relative path without components is `.`. -/
def toString (p : Path) : String :=
  if p.anchor = "" ∧ p.parts = [] then "." else p.anchor ++ "/".intercalate p.parts

/-- Whether the path starts from the top. -/
def isAbsolute (p : Path) : Bool := p.anchor ≠ ""

/-- The last component, empty when there is none. -/
def name (p : Path) : String := p.parts.getLast?.getD ""

/-- The path without its last component. -/
def parent (p : Path) : Path := { p with parts := p.parts.dropLast }

/-- `q` taken from `p`: an absolute `q` stands alone. -/
def join (p q : Path) : Path :=
  if q.isAbsolute then q else { p with parts := p.parts ++ q.parts }

/-- The path with one more component. -/
def child (p : Path) (name : String) : Path := { p with parts := p.parts ++ [name] }

/-- The path one step up. A relative path can go above where it starts. -/
def up (p : Path) : Path :=
  if p.isAbsolute then p.parent
  else
    match p.parts.getLast? with
    | none | some ".." => p.child ".."
    | some _ => p.parent

/-- Cuts a file name at its last dot, unless that dot is the first or the last
character: the stem, and the suffix with its dot. -/
def splitName (name : String) : String × String :=
  let back := name.toList.reverse
  let ext := back.takeWhile (· ≠ '.')
  let front := (back.dropWhile (· ≠ '.')).drop 1
  if ext.length < back.length ∧ ext ≠ [] ∧ front ≠ [] then
    (String.ofList front.reverse, String.ofList ('.' :: ext.reverse))
  else (name, "")

/-- The last component without its suffix. -/
def stem (p : Path) : String := (splitName p.name).1

/-- The suffix of the last component, with its dot, or nothing. -/
def suffix (p : Path) : String := (splitName p.name).2

/-- One step of the textual reading of a path from the top: `..` takes back
the last component, and `.` says nothing. -/
def stepLexical (seen : List String) (part : String) : List String :=
  if part = ".." then seen.dropLast
  else if part = "." then seen
  else seen ++ [part]

/-- The components of the place that the path names from `cwd`, with `..` read
textually. -/
def lexical (cwd p : Path) : List String := (cwd.join p).parts.foldl stepLexical []

/-- What two lists still differ in after their longest common beginning. -/
def afterCommon : List String → List String → List String × List String
  | a :: as, b :: bs => if a = b then afterCommon as bs else (a :: as, b :: bs)
  | as, bs => (as, bs)

/-- How to write `p` as seen from `base`. -/
def relativeTo (cwd p base : Path) : String :=
  let (up, down) := afterCommon (lexical cwd base) (lexical cwd p)
  match up.map (fun _ => "..") ++ down with
  | [] => "."
  | parts => "/".intercalate parts

end Path

end CodeAtlas
