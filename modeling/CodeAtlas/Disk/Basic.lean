import CodeAtlas.Path
import CodeAtlas.Table
import CodeAtlas.Text.Quoted
import CodeAtlas.Text.Utf8
/-
  A disk: folders, files and links.

  Every entry has one name, the list of folders from the top down to it. That
  list goes through no link, so two entries are the same exactly when their
  names are. The top itself is always a folder. A link holds a path, which is
  read only when something goes through the link.

  Not all of a disk need be open to a run. Its locks say which folders a run
  cannot go through, what it cannot read and what it cannot change.
-/

namespace CodeAtlas

/-- What a file holds. A file of zeros is given by its size. -/
inductive Content where
  | text (s : String)
  | bytes (data : List UInt8)
  | zeros (count : Nat)
  deriving DecidableEq, Repr

namespace Content

/-- The number of bytes. -/
def size : Content → Nat
  | text s => s.utf8ByteSize
  | bytes data => data.length
  | zeros count => count

/-- The content read as text. -/
def decode : Content → Except Text.Utf8.Fault String
  | text s => .ok s
  | bytes data => Text.Utf8.decode data
  | zeros count => .ok (String.ofList (List.replicate count '\x00'))

end Content

/-- An entry of a disk. -/
inductive Entry where
  | folder
  | file (content : Content)
  | link (target : String)
  deriving DecidableEq, Repr

/-- Why a path leads nowhere, or not where it should. -/
inductive Trouble where
  | notFound
  | notFolder
  | isFolder
  | alreadyThere
  | tooManyLinks
  /-- A name or a whole path is too long. -/
  | nameTooLong
  /-- A path holds the null character, which no name can. -/
  | nullCharacter
  /-- Links lead to links, or folders lie in folders, too many times over. -/
  | tooDeep
  /-- What is asked for is locked. -/
  | notPermitted
  deriving DecidableEq, Repr

/-- The name of an entry: the folders from the top down to it, and its own. -/
abbrev Place := List String

/-- The places of a disk that a run is kept from. -/
structure Locks where
  /-- Folders that cannot be gone through. -/
  closed : List Place := []
  /-- Folders that cannot be listed, and files that cannot be read. -/
  hidden : List Place := []
  /-- Folders in which nothing can be made or taken out, and files that cannot be
  written. -/
  fixed : List Place := []
  deriving DecidableEq, Repr

/-- The entries of a disk, the folder that relative paths start from, and what is
locked. -/
structure Disk where
  cwd : Place
  entries : Table Place Entry
  locks : Locks := {}
  deriving DecidableEq, Repr

/-- The path of a place. -/
def Path.ofPlace (p : Place) : Path := ⟨"/", p⟩

/-- The wording of a trouble. -/
def Trouble.reason : Trouble → String
  | notFound => "[Errno 2] No such file or directory"
  | notFolder => "[Errno 20] Not a directory"
  | isFolder => "[Errno 21] Is a directory"
  | alreadyThere => "[Errno 17] File exists"
  | tooManyLinks => "[Errno 40] Too many levels of symbolic links"
  | nameTooLong => "[Errno 36] File name too long"
  | nullCharacter => "embedded null byte"
  | tooDeep => "maximum recursion depth exceeded"
  | notPermitted => "[Errno 13] Permission denied"

/-- The wording of a trouble with a path. -/
def Trouble.message (t : Trouble) (path : String) : String :=
  t.reason ++ ": " ++ Text.quotedText path

/-- The locks that are left when only some entries are: those on what is read or
changed go with the entry. -/
def Locks.keep (l : Locks) (stays : Place → Bool) : Locks :=
  { l with hidden := l.hidden.filter stays, fixed := l.fixed.filter stays }

namespace Disk

/-- The entry at a place. -/
def entry? (d : Disk) (p : Place) : Option Entry :=
  if p = [] then some .folder else d.entries.get? p

/-- Whether a folder can be gone through. -/
def mayEnter (d : Disk) (p : Place) : Bool := !d.locks.closed.contains p

/-- Whether a folder can be listed or a file can be read. -/
def mayRead (d : Disk) (p : Place) : Bool := !d.locks.hidden.contains p

/-- Whether a folder or a file can be changed. -/
def mayChange (d : Disk) (p : Place) : Bool := !d.locks.fixed.contains p

/-- Whether a file can be written at a place. To make one is to change its
folder. -/
def mayWrite (d : Disk) (p : Place) : Bool :=
  d.mayChange (if (d.entry? p).isSome then p else p.dropLast)

/-- The disk with an entry at a place. -/
def put (d : Disk) (p : Place) (e : Entry) : Disk := { d with entries := d.entries.insert p e }

/-- The disk without the entry at a place. -/
def erase (d : Disk) (p : Place) : Disk :=
  { d with entries := d.entries.erase p, locks := d.locks.keep (· ≠ p) }

/-- The disk with folders all the way down to a place. -/
def putFolders (d : Disk) (p : Place) : Disk :=
  (List.range p.length).foldl
    (fun d i =>
      let q := p.take (i + 1)
      if (d.entry? q).isSome then d else d.put q .folder) d

/-- The names in a folder, in order of their characters. -/
def namesAt (d : Disk) (p : Place) : List String :=
  (d.entries.keys.filterMap fun k => if k.dropLast = p then k.getLast? else none).mergeSort
    fun a b => decide (a ≤ b)

/-- The files below a place, by how they are seen from it, in order. -/
def filesBelow (d : Disk) (p : Place) : List (String × Content) :=
  let files := d.entries.entries.filterMap fun e =>
    match e.2 with
    | .file c => if p.isPrefixOf e.1 then some ("/".intercalate (e.1.drop p.length), c) else none
    | _ => none
  files.mergeSort fun a b => decide (a.1 ≤ b.1)

/-- The files below a place that differ between two disks: with what they hold
now, or with nothing when they are gone. -/
def changes (before after : Disk) (p : Place) : List (String × Option Content) :=
  let old := before.filesBelow p
  let new := after.filesBelow p
  let kept := (new.filter fun f => old.lookup f.1 ≠ some f.2).map fun f => (f.1, some f.2)
  let gone := (old.filter fun f => (new.lookup f.1).isNone).map fun f => (f.1, none)
  (kept ++ gone).mergeSort fun a b => decide (a.1 ≤ b.1)

/-- A step that changes a disk. -/
inductive Edit where
  | write (p : Place) (c : Content)
  | remove (p : Place)

/-- The steps that turn the files of one disk into those of another: what is
gone is removed, and what is new or differs is written. -/
def edits (before after : Disk) : List Edit :=
  (before.entries.keys.filter fun p => !after.entries.contains p).map .remove
    ++ after.entries.entries.filterMap fun e =>
      match e.2 with
      | .file c => if before.entry? e.1 = some (.file c) then none else some (.write e.1 c)
      | _ => none

end Disk

end CodeAtlas
