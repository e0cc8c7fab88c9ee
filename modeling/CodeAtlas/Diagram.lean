import CodeAtlas.Outline
import CodeAtlas.Path
/-
  Diagrams of calls.

  A diagram is a flowchart with one cluster per file and one node per
  callable. `ofFile` draws the calls inside a file, `ofProject` also those
  that go from one file to another. A name is turned into an identifier by
  spelling every character that is not a plain letter or digit as its code
  point between underscores.
-/

namespace CodeAtlas.Diagram

/-- Whether a character may stand in an identifier as it is. -/
def isPlain (c : Char) : Bool :=
  ('0' ≤ c && c ≤ '9') || ('A' ≤ c && c ≤ 'Z') || ('a' ≤ c && c ≤ 'z')

/-- A character of an identifier. -/
def idChar (c : Char) : List Char :=
  if isPlain c then [c] else '_' :: (Nat.toDigits 10 c.toNat ++ ['_'])

/-- The identifier of a name. -/
def idOf (name : String) : String :=
  "id_" ++ String.ofList (name.toList.flatMap idChar)

/-- A text between quotes, with the quotes inside it spelled out. -/
def quoted (text : String) : String :=
  "\"" ++ String.ofList (text.toList.flatMap fun c => if c = '"' then "#quot;".toList else [c])
    ++ "\""

/-- A node or cluster with its title. -/
def titled (id title : String) : String := id ++ "[" ++ quoted title ++ "]"

/-- The line of a call. -/
def arrow (caller callee : String) : String := "  " ++ caller ++ " --> " ++ callee

/-- A cluster of nodes. -/
def cluster (id title : String) (nodes : List (String × String)) : List String :=
  ("  subgraph " ++ titled id title) :: nodes.map (fun n => "    " ++ titled n.1 n.2) ++ ["  end"]

/-- The part of a name before its last dot. -/
def ownerName? (name : String) : Option String :=
  let back := name.toList.reverse
  if '.' ∈ back then some (String.ofList ((back.dropWhile (· ≠ '.')).drop 1).reverse) else none

/-- The callable of a file that a callee stands for: itself, or a method of
the caller's own class. -/
def localTarget? (names : List String) (caller callee : String) : Option String :=
  if callee ∈ names then some callee
  else
    match ownerName? caller with
    | none => none
    | some owner =>
      let qualified := owner ++ "." ++ callee
      if qualified ∈ names then some qualified else none

/-- The calls of an outline from callers that it lists, one by one. -/
def listedCalls (names : List String) (o : Outline) : List (String × String) :=
  (o.calls.entries.filter fun e => e.1 ∈ names).flatMap fun e => e.2.map fun callee => (e.1, callee)

/-- The calls inside a file. -/
def localCalls (o : Outline) : List (String × String) :=
  let names := o.callables
  (listedCalls names o).filterMap fun call =>
    (localTarget? names call.1 call.2).map fun target => (call.1, target)

/-- The diagram of a file; a file without callables has none. -/
def ofFile (path : String) (o : Outline) : Option String :=
  match o.callables with
  | [] => none
  | names =>
    let stem := (Path.ofString path).stem
    some <| "\n".intercalate <|
      "flowchart TD" :: cluster (idOf stem) stem (names.map fun n => (idOf n, n))
        ++ (localCalls o).map fun call => arrow (idOf call.1) (idOf call.2)

/-- The identifier of a callable in a diagram of several files. -/
def memberId (path name : String) : String := idOf path ++ "_" ++ idOf name

/-- The files with callables, by path. -/
def drawnNames (files : List FileOutline) : Table String (List String) :=
  Table.ofList ((files.filter fun f => f.outline.callables ≠ []).map fun f =>
    (f.path, f.outline.callables))

/-- The node that a callee stands for: one of the same file, or else of the
first file that lists it. -/
def resolve? (declared : Table String (List String)) (path : String) (names : List String)
    (caller callee : String) : Option String :=
  match localTarget? names caller callee with
  | some target => some (memberId path target)
  | none =>
    (declared.entries.find? fun e => callee ∈ e.2).map fun e => memberId e.1 callee

/-- The lines of the calls that start in a file. -/
def fileArrows (declared : Table String (List String)) (f : FileOutline) : List String :=
  match declared.get? f.path with
  | none => []
  | some names =>
    (listedCalls names f.outline).filterMap fun call =>
      (resolve? declared f.path names call.1 call.2).map (arrow (memberId f.path call.1))

/-- The cluster of a file, if it has callables. -/
def fileCluster (f : FileOutline) : List String :=
  match f.outline.callables with
  | [] => []
  | names => cluster (idOf f.path) f.path (names.map fun n => (memberId f.path n, n))

/-- The diagram of several files. A call that is drawn already is not drawn
again. -/
def ofProject (files : List FileOutline) : String :=
  let declared := drawnNames files
  "\n".intercalate <|
    "flowchart TD" :: files.flatMap fileCluster
      ++ distinct (files.flatMap (fileArrows declared))

end CodeAtlas.Diagram
