import CodeAtlas.Outline
/-
  The table of imports of a file.

  Two things are kept: the modules with the members taken from each, and the
  local names (aliases) with the module each stands for and the callables that
  use it. Binding a name again makes it stand for the new module, and its
  users are forgotten; its place does not change.
-/

namespace CodeAtlas

/-- What a local name stands for, and which callables use it. -/
structure Alias where
  module : String
  users : List String
  deriving DecidableEq, Repr

/-- The imports of a file: members by module, and local names. -/
structure Imports where
  members : Table String (List String) := .empty
  aliases : Table String Alias := .empty
  deriving DecidableEq, Repr

/-- One import: a module, and perhaps a member of it and a local name. -/
structure ImportStep where
  module : String
  member : Option String := none
  localName : Option String := none
  deriving DecidableEq, Repr

namespace Imports

/-- The table with no imports. -/
def empty : Imports := {}

/-- Notes a member of a module; without a member only the module. -/
def addMember (members : Table String (List String)) (module : String) (member : String) :
    Table String (List String) :=
  members.alter module fun old =>
    if member = "" then old.getD [] else insertNew (old.getD []) member

/-- Notes one import. An empty member or local name counts as none. -/
def add (t : Imports) (s : ImportStep) : Imports :=
  let name := s.localName.getD ""
  { members := addMember t.members s.module (s.member.getD "")
    aliases := if name = "" then t.aliases else t.aliases.insert name ⟨s.module, []⟩ }

/-- Notes that `caller` uses a local name; `none` when there is no such
name. -/
def noteUser? (t : Imports) (name caller : String) : Option Imports :=
  match t.aliases.get? name with
  | none => none
  | some a =>
    some { t with aliases := t.aliases.insert name { a with users := insertNew a.users caller } }

/-- The module of every local name. -/
def aliasModules (t : Imports) : List (String × String) :=
  t.aliases.entries.map fun e => (e.1, e.2.module)

/-- The users of every local name. -/
def usage (t : Imports) : List (String × List String) :=
  t.aliases.entries.map fun e => (e.1, e.2.users)

/-- The callables that use some local name of a module, in the order of the
names. -/
def usersOf (t : Imports) (module : String) : List String :=
  distinct ((t.aliases.values.filter (·.module = module)).flatMap (·.users))

/-- The entries of the outline: each module with its members and users. -/
def entries (t : Imports) : List ImportEntry :=
  t.members.entries.map fun e => ⟨e.1, e.2, t.usersOf e.1⟩

end Imports

end CodeAtlas
