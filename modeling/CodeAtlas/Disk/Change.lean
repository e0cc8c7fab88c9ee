import CodeAtlas.Disk.Resolve
/-
  Entries made and taken out.

  A path names the entry to be changed by the folder it lies in and its own
  name there, so a link in the last place is not gone through. Folders on the
  way are made when they are missing.
-/

namespace CodeAtlas.Disk

/-- The folder that a path opens. -/
def locateFolder (d : Disk) (p : Path) : Except Trouble Place := do
  let place ← d.locate p
  match d.entry? place with
  | some .folder => return place
  | some _ => throw .notFolder
  | none => throw .notFound

/-- The place that a path names in its folder, unless it names the folder
itself or the one above. -/
def locateName (d : Disk) (p : Path) : Except Trouble (Option Place) := do
  checkPath p
  let folder ← d.locateFolder p.parent
  match p.parts.getLast? with
  | none => return none
  | some name =>
    if !d.mayEnter folder then throw .notPermitted
    else if name = ".." then return none
    else if nameLimit < name.utf8ByteSize then throw .nameTooLong
    else return folder ++ [name]

/-- The disk with a new entry. -/
def make (d : Disk) (p : Path) (e : Entry) : Except Trouble Disk := do
  match ← d.locateName p with
  | none => throw .alreadyThere
  | some place =>
    if (d.entry? place).isSome then throw .alreadyThere
    else if d.mayChange place.dropLast then return d.put place e
    else throw .notPermitted

/-- A disk after a change, and what kept the change from being made in full. -/
structure Change where
  disk : Disk
  trouble : Option Trouble := none

/-- What comes of a folder that could not be made: nothing is missing when it is
there already. -/
def asFolder (d : Disk) (p : Path) (t : Trouble) : Change :=
  if t = .nullCharacter then ⟨d, some t⟩
  else
    match d.isFolder p with
    | .ok true => ⟨d, none⟩
    | .ok false => ⟨d, some t⟩
    | .error t' => ⟨d, some t'⟩

/-- The disk with a folder, which may be there already. Folders on the way are
made, `bound` of them at most, and stay also when the last cannot be. -/
def makeFolders (bound : Nat) (d : Disk) (p : Path) : Change :=
  match d.make p .folder with
  | .ok d' => ⟨d', none⟩
  | .error .notFound =>
    match bound with
    | 0 => ⟨d, some .notFound⟩
    | bound + 1 =>
      let above := makeFolders bound d p.parent
      match above.trouble with
      | some t => ⟨above.disk, some t⟩
      | none =>
        match above.disk.make p .folder with
        | .ok d' => ⟨d', none⟩
        | .error t => above.disk.asFolder p t
  | .error t => d.asFolder p t
termination_by structural bound

/-- The disk with a folder at a path, which may be there already, and the
folders on the way to it. -/
def makeFolder (d : Disk) (p : Path) : Change := makeFolders p.parts.length d p

/-- The disk with a link at a path. -/
def makeLink (d : Disk) (p : Path) (target : String) : Except Trouble Disk :=
  if target.toList.contains '\x00' then .error .nullCharacter
  else if target = "" then .error .notFound
  else if pathLimit < target.utf8ByteSize then .error .nameTooLong
  else d.make p (.link target)

/-- What comes of a change that is made in full or not at all. -/
def orUnchanged (d : Disk) : Except Trouble Disk → Change
  | .ok d' => ⟨d', none⟩
  | .error t => ⟨d, some t⟩

/-- The disk with an entry at a path, where the folders on the way are made. A
file is written over another, and a folder may be there already. -/
def place (d : Disk) (p : Path) (e : Entry) : Change :=
  let above := d.makeFolder p.parent
  match above.trouble, e with
  | some _, _ => above
  | none, .folder => above.disk.makeFolder p
  | none, .file c => above.disk.orUnchanged (above.disk.write p c)
  | none, .link target => above.disk.orUnchanged (above.disk.makeLink p target)

/-- The disk after a name is taken out of its folder. A link is taken out, and
not what it leads to. -/
def remove (d : Disk) (p : Path) : Except Trouble Disk := do
  match ← d.locateName p with
  | none => throw .isFolder
  | some place =>
    match d.entry? place, d.mayChange place.dropLast with
    | none, _ => throw .notFound
    | some _, false => throw .notPermitted
    | some .folder, true => throw .isFolder
    | some _, true => return d.erase place

end CodeAtlas.Disk
