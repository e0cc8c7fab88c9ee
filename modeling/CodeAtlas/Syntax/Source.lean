import CodeAtlas.Syntax.Tree
/-
  Places in a source text.

  A parser counts in bytes of UTF-8, the library reads characters. The
  functions here walk a text character by character and pay for each its
  number of bytes, so an offset is either between two characters or inside
  one. A range that is cut inside a character is read as the bytes it holds,
  which says what is wrong with them.
-/

namespace CodeAtlas.Syntax

namespace Source

/-- The text from byte `n` on; `none` when that byte is inside a character.
Past the end there is nothing left. -/
def dropBytes? : Nat → List Char → Option (List Char)
  | 0, cs => some cs
  | _, [] => some []
  | n, c :: cs => if c.utf8Size ≤ n then dropBytes? (n - c.utf8Size) cs else none

/-- The first `n` bytes of a text; `none` when they end inside a character. -/
def takeBytes? : Nat → List Char → Option (List Char)
  | 0, _ => some []
  | _, [] => some []
  | n, c :: cs =>
    if c.utf8Size ≤ n then (takeBytes? (n - c.utf8Size) cs).map (c :: ·) else none

/-- The text of a byte range. -/
def slice? (src : List Char) (s : Span) : Option (List Char) :=
  dropBytes? s.start src >>= takeBytes? (s.stop - s.start)

/-- The position of byte `n` in a text that starts at `p`. -/
def positionFrom (p : Position) : Nat → List Char → Position
  | 0, _ => p
  | n, [] => { p with column := p.column + n }
  | n, c :: cs =>
    if c = '\n' then positionFrom ⟨p.row + 1, 0⟩ (n - 1) cs
    else positionFrom { p with column := p.column + min n c.utf8Size } (n - c.utf8Size) cs

/-- The position of byte `n` of a source. -/
def position (src : List Char) (n : Nat) : Position := positionFrom ⟨0, 0⟩ n src

/-- The bytes of a range. -/
def bytesOf (src : List Char) (s : Span) : List UInt8 :=
  (((String.ofList src).toUTF8.toList).drop s.start).take (s.stop - s.start)

/-- The text of a byte range, or why it is none. -/
def textOf (src : List Char) (s : Span) : Except Text.Utf8.Fault String :=
  match slice? src s with
  | some cs => .ok (String.ofList cs)
  | none => Text.Utf8.decode (bytesOf src s)

/-- The text and the positions of a byte range. -/
def extentOf (src : List Char) (s : Span) : Extent :=
  ⟨textOf src s, position src s.start, position src s.stop⟩

end Source

/-- A parser's tree with the text and positions of every node taken from the
source. -/
def SyntaxTree.locate (src : String) (t : SyntaxTree Span) : Node :=
  t.map (Source.extentOf src.toList)

end CodeAtlas.Syntax
