import CodeAtlas.Path
/-
  The languages that a file can be written in, by its suffix.
-/

namespace CodeAtlas

/-- A language that the parser knows. -/
inductive Language where
  | javascript
  | typescript
  | tsx
  deriving DecidableEq, Repr

namespace Language

/-- The name of a language. -/
def name : Language → String
  | javascript => "javascript"
  | typescript => "typescript"
  | tsx => "tsx"

/-- The suffixes of source files and their languages. -/
def bySuffix : List (String × Language) :=
  [(".js", javascript), (".jsx", javascript), (".mjs", javascript), (".cjs", javascript),
   (".ts", typescript), (".mts", typescript), (".cts", typescript), (".tsx", tsx)]

/-- A suffix in lower case. Every suffix of the list is plain ASCII, and no
letter outside ASCII has one of theirs as its lower case. -/
def lowerSuffix (s : String) : String := String.ofList (s.toList.map Char.toLower)

/-- The language of a file; without a path or a known suffix it is the plain
one. -/
def ofPath (path : Option String) : Language :=
  match path with
  | none => javascript
  | some p => (bySuffix.lookup (lowerSuffix (Path.ofString p).suffix)).getD javascript

/-- Whether a file is a source file. Here the case of the suffix counts. -/
def isSource (p : Path) : Bool := (bySuffix.lookup p.suffix).isSome

end Language

end CodeAtlas
