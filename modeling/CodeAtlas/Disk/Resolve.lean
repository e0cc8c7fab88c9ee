import CodeAtlas.Disk.Basic
/-
  Where a path leads.

  There are two readings of a path. `Disk.locate` is the one that opens files:
  it goes through links and folders step by step, through at most forty links,
  and fails when a step cannot be made. `Disk.realPath` is the one that gives
  a path its plain name: it takes steps that cannot be made as they are
  written, and gives up on a link that leads back to itself.
-/

namespace CodeAtlas.Disk

/-- How many links a path may go through. -/
def linkLimit : Nat := 40

/-- How many bytes a name may have. -/
def nameLimit : Nat := 255

/-- How many bytes a whole path may have. -/
def pathLimit : Nat := 4095

/-- The parts of the path that a link holds, as they are written. -/
def linkParts (target : String) : List String := (target.toList.splitOn '/').map String.ofList

/-- The steps that are left at a link: those of the path that it holds, then the
rest. When nothing is left but the link and its path ends with a slash, the
steps end with an empty one. -/
def linkSteps (target : String) (rest : List String) : List String :=
  let parts := linkParts target
  let slash := if parts.getLast? = some "" ∧ rest = [] then [""] else []
  parts.filter (· ≠ "") ++ slash ++ rest

/-- Where the path that a link holds starts from. -/
def linkStart (folder : Place) (target : String) : Place :=
  if target.toList.head? = some '/' then [] else folder

/-! ## Opening -/

/-- Takes steps from a folder; `through` goes on from the first link. Every step
but an empty one goes through the folder. The last step may lead to a place where
there is no entry. An empty last step asks for a folder; to make a file by such a
path (`making`) is not possible. -/
def follow (d : Disk) (making : Bool) (through : Place → List String → Except Trouble Place)
    (here : Place) : List String → Except Trouble Place
  | [] => .ok here
  | step :: rest =>
    if step = "" then follow d making through here rest
    else if !d.mayEnter here then .error .notPermitted
    else if step = "." then follow d making through here rest
    else if step = ".." then follow d making through here.dropLast rest
    else if making ∧ rest = [""] then .error .isFolder
    else if nameLimit < step.utf8ByteSize then .error .nameTooLong
    else
      let there := here ++ [step]
      match d.entry? there with
      | none => if rest = [] then .ok there else .error .notFound
      | some .folder => follow d making through there rest
      | some (.file _) => if rest = [] then .ok there else .error .notFolder
      | some (.link target) => through (linkStart here target) (linkSteps target rest)

/-- Takes steps from a folder through at most so many links. -/
def followLinks (d : Disk) (making : Bool) : Nat → Place → List String → Except Trouble Place
  | 0 => follow d making fun _ _ => .error .tooManyLinks
  | n + 1 => follow d making (followLinks d making n)

/-- Where a path starts from. -/
def startOf (d : Disk) (p : Path) : Place := if p.isAbsolute then [] else d.cwd

/-- Refuses a path that no disk can take. -/
def checkPath (p : Path) : Except Trouble Unit :=
  let text := p.toString
  if text.toList.contains '\x00' then .error .nullCharacter
  else if pathLimit < text.utf8ByteSize then .error .nameTooLong
  else .ok ()

/-- The place that a path leads to; there need not be an entry. -/
def reach (d : Disk) (making : Bool) (p : Path) : Except Trouble Place := do
  checkPath p
  followLinks d making linkLimit (d.startOf p) p.parts

/-- The place that a path opens; there need not be an entry. -/
def locate (d : Disk) (p : Path) : Except Trouble Place := d.reach false p

/-- The entry that a path opens. It is never a link. -/
def stat (d : Disk) (p : Path) : Except Trouble Entry := do
  match d.entry? (← d.locate p) with
  | some e => return e
  | none => throw .notFound

/-- What a path opens, or nothing when it leads nowhere. Only for a path that is
too long and for one through a closed folder there is no answer. -/
def find (d : Disk) (p : Path) : Except Trouble (Option Entry) :=
  match d.stat p with
  | .ok e => .ok (some e)
  | .error .nameTooLong => .error .nameTooLong
  | .error .notPermitted => .error .notPermitted
  | .error _ => .ok none

/-- Whether a path opens something. -/
def pathExists (d : Disk) (p : Path) : Except Trouble Bool := (d.find p).map Option.isSome

/-- Whether a path opens a folder. -/
def isFolder (d : Disk) (p : Path) : Except Trouble Bool := (d.find p).map (· = some .folder)

/-- The content of the file that a path opens. -/
def content (d : Disk) (p : Path) : Except Trouble Content := do
  let place ← d.locate p
  match d.entry? place with
  | some (.file c) => if d.mayRead place then return c else throw .notPermitted
  | some _ => throw .isFolder
  | none => throw .notFound

/-- The file that a path opens, if it opens one: its content, or why it cannot be
read. -/
def file? (d : Disk) (p : Path) : Except Trouble (Option (Except Trouble Content)) :=
  (d.find p).map fun
    | some (.file _) => some (d.content p)
    | _ => none

/-- The names in the folder that a path opens, in order. -/
def names (d : Disk) (p : Path) : Except Trouble (List String) := do
  let place ← d.locate p
  match d.entry? place with
  | some .folder => if d.mayRead place then return d.namesAt place else throw .notPermitted
  | some _ => throw .notFolder
  | none => throw .notFound

/-- The disk after a file is written. A link is written through, also where it
leads to nothing yet. -/
def write (d : Disk) (p : Path) (c : Content) : Except Trouble Disk := do
  let place ← d.reach true p
  match d.entry? place with
  | some .folder => throw .isFolder
  | _ => if d.mayWrite place then return d.put place (.file c) else throw .notPermitted

/-! ## Plain names -/

/-- The place that a path names when no entry on it is a link. -/
def placeOf (d : Disk) (p : Path) : Place := Path.lexical (Path.ofPlace d.cwd) p

/-- Links met so far, as they were spelled, with the path that each leads to
once that is known. -/
abbrev Seen := List (Path × Option Path)

/-- What reading a path gives: whether all links were resolved, the path
without links, and the links met. -/
structure Reading where
  resolved : Bool
  path : Path
  seen : Seen

/-- A path with the rest of another as it is written. A rest that begins with a
slash starts from the top. -/
def withRest (p : Path) (rest : List String) : Path :=
  p.join (Path.ofString ("/".intercalate rest))

/-- Whether every folder on the way of a path can be gone through, when no entry
on it is a link. -/
def isOpenWay (d : Disk) (p : Path) : Bool :=
  (List.range p.parts.length).all fun i => d.mayEnter (d.placeOf ⟨p.anchor, p.parts.take i⟩)

/-- The path that the link at a path holds, if there is one. A path that cannot
be asked about leads to none, but for one with the null character. -/
def linkAt (d : Disk) (p : Path) : Except Trouble (Option String) :=
  match checkPath p with
  | .error .nullCharacter => .error .nullCharacter
  | .error _ => .ok none
  | .ok () =>
    match d.entry? (d.placeOf p) with
    | some (.link target) => .ok (if d.isOpenWay p then some target else none)
    | _ => .ok none

/-- Reads steps from a path; `through` reads the path of a link. A link that
is met while it is being read ends the reading, with the rest as written. -/
def readSteps (d : Disk) (through : Seen → Path → List String → Except Trouble Reading)
    (seen : Seen) (here : Path) : List String → Except Trouble Reading
  | [] => .ok ⟨true, here, seen⟩
  | step :: rest =>
    if step = "" ∨ step = "." then readSteps d through seen here rest
    else if step = ".." then readSteps d through seen here.up rest
    else
      let there := here.child step
      match d.linkAt there with
      | .error t => .error t
      | .ok none => readSteps d through seen there rest
      | .ok (some target) =>
        match seen.lookup there with
        | some (some known) => readSteps d through seen known rest
        | some none => .ok ⟨false, withRest there rest, seen⟩
        | none =>
          let start := if target.toList.head? = some '/' then ⟨"/", []⟩ else here
          match through ((there, none) :: seen) start (linkParts target) with
          | .error t => .error t
          | .ok inner =>
            if inner.resolved then
              readSteps d through ((there, some inner.path) :: inner.seen) inner.path rest
            else .ok ⟨false, withRest inner.path rest, inner.seen⟩

/-- Reads steps through links nested at most so deep. -/
def readLinks (d : Disk) : Nat → Seen → Path → List String → Except Trouble Reading
  | 0 => fun _ _ _ => .error .tooDeep
  | n + 1 => readSteps d (readLinks d n)

/-- How deep links may be nested. -/
def nestingLimit : Nat := 980

/-- The path from the top without links on the way. -/
def realPath (d : Disk) (p : Path) : Except Trouble Path := do
  let start : Path := ⟨if p.isAbsolute then "/" else "", []⟩
  let reading ← readLinks d nestingLimit [] start p.parts
  let anchor := if reading.path.anchor = "//" then "//" else "/"
  return ⟨anchor, d.placeOf reading.path⟩

/-- The path without links on the way. It is an error when it leads into a loop
of links. -/
def resolve (d : Disk) (p : Path) : Except Trouble Path := do
  let real ← d.realPath p
  match d.stat real with
  | .error .tooManyLinks => .error .tooManyLinks
  | .error .nullCharacter => .error .nullCharacter
  | _ => return real

end CodeAtlas.Disk
