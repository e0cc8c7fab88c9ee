import CodeAtlas.Outline
import CodeAtlas.Text.Blank
import CodeAtlas.Text.Find
/-
  Banners: an outline as a comment at the head of its file.

  `Banner.render` writes one. `Banner.strip` takes out what may have been put
  there: every banner, every block of the older form, which is a documentation
  comment that names its own end, and the documentation comment that then
  opens the file. The blanks after a block go with it.
-/

namespace CodeAtlas.Banner

open CodeAtlas.Text

/-- How a banner opens. -/
def opening : String := "/*@AI"

/-- How a banner closes. -/
def closing : String := "@AI*/"

/-- What the older form has near its end. -/
def legacyMark : String := "@ai-context-end"

/-- The longest description of a file in a banner. -/
def descriptionWidth : Nat := 50

/-- A description as the last words of a line: none when it is empty. -/
def closingWords (description : String) : List String :=
  if description = "" then [] else [description]

/-- Words with a blank between them. -/
def spaced (words : List String) : String := " ".intercalate words

/-- First and last line of something. -/
def span (start last : Int) : String := "-".intercalate [toString start, toString last]

/-- The first line of a banner. -/
def firstLine (name : String) (o : Outline) : String :=
  " - ".intercalate
    ((opening ++ " " ++ name) :: closingWords (first descriptionWidth o.description))

/-- The line of an imported module, with the callables that use it. -/
def importLine (i : ImportEntry) : String :=
  spaced (("<" ++ i.module ++ ":" ++ ",".intercalate i.members)
    :: if i.usedIn = [] then [] else ["->" ++ ",".intercalate i.usedIn])

/-- The line of a class: its name with the class it extends, its lines, and
what it is for. -/
def classRow (c : ClassEntry) : String :=
  let bases := (c.baseClass.filter (· ≠ "")).toList
  spaced (":".intercalate (c.name :: bases) :: span c.startLine c.endLine
    :: closingWords c.description)

/-- The line of a method, under that of its class. -/
def methodRow (m : MethodEntry) : String :=
  let mark := if m.isStatic then "  +" else "  ."
  spaced ((mark ++ m.kind.accessor ++ m.name ++ "(" ++ m.params ++ ")") :: toString m.line
    :: closingWords m.description)

/-- The line of a function. -/
def functionRow (f : FunctionEntry) : String :=
  spaced ((f.name ++ "(" ++ f.params ++ ")") :: span f.startLine f.endLine
    :: closingWords f.description)

/-- The line of a constant. -/
def constantLine (k : ConstantEntry) : String :=
  spaced (k.name :: toString k.line :: closingWords k.description)

/-- The lines of a banner between its first and its last. -/
def innerLines (o : Outline) : List String :=
  o.imports.map importLine
    ++ o.classes.flatMap (fun c => classRow c :: c.methods.map methodRow)
    ++ o.functions.map functionRow
    ++ o.constants.map constantLine

/-- The lines of a banner. -/
def bannerLines (name : String) (o : Outline) : List String :=
  firstLine name o :: innerLines o ++ [closing]

/-- The banner of a file. -/
def render (name : String) (o : Outline) : String := "\n".intercalate (bannerLines name o)

/-! ## Taking banners out -/

/-- The text of a block that starts here, from `start` through each of some
marks in turn, with the blanks after it. -/
def blockAt? (start : List Char) (marks : List (List Char)) (cs : List Char) :
    Option (List Char) := do
  let rest ← dropPrefix? start cs
  let (text, after) ← marks.foldlM
    (fun (p : List Char × List Char) mark =>
      (breakOn mark p.2).map fun q => (p.1 ++ q.1 ++ mark, q.2))
    (start, rest)
  return text ++ after.takeWhile isBlank

/-- The text after its first `skip` characters without the blocks in it. -/
def eraseFrom (block? : List Char → Option (List Char)) : Nat → List Char → List Char
  | _, [] => []
  | skip + 1, _ :: cs => eraseFrom block? skip cs
  | 0, c :: cs =>
    match block? (c :: cs) with
    | some block => if block = [] then c :: eraseFrom block? 0 cs
        else eraseFrom block? (block.length - 1) cs
    | none => c :: eraseFrom block? 0 cs

/-- A banner that starts here. -/
def bannerAt? : List Char → Option (List Char) := blockAt? opening.toList [closing.toList]

/-- A block of the older form that starts here. -/
def legacyAt? : List Char → Option (List Char) :=
  blockAt? ['/', '*', '*'] [legacyMark.toList, ['*', '/']]

/-- A documentation comment that starts here. -/
def docAt? : List Char → Option (List Char) := blockAt? ['/', '*', '*'] [['*', '/']]

/-- The text without the documentation comment that opens it. -/
def dropDoc (cs : List Char) : List Char :=
  match docAt? cs with
  | some block => cs.drop block.length
  | none => cs

/-- A source without banners. -/
def strip (code : String) : String :=
  String.ofList (dropDoc (eraseFrom legacyAt? 0 (eraseFrom bannerAt? 0 code.toList)))

end CodeAtlas.Banner
