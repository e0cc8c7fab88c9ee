import CodeAtlas.Disk.Basic
import CodeAtlas.Settings.Value
import CodeAtlas.Syntax.Tree
/-
  Results with what was said on the way.

  A run tells the reader things while it goes: lines for the console and
  warnings for the log. A `Report` is a result together with these notes in
  order, so that a run is still a plain value. What no run can go on from is a
  `Crash`; the notes up to it are kept.
-/

namespace CodeAtlas

/-- How a line is meant. Only `summary` lines are shown when a run is not asked
to tell what it does. -/
inductive Level where
  | info
  | success
  | warning
  | error
  | summary
  deriving DecidableEq, Repr

/-- Something said during a run. -/
inductive Note where
  /-- A line for the console. -/
  | line (level : Level) (text : String)
  /-- A warning for the log. -/
  | logged (text : String)
  deriving DecidableEq, Repr

/-- What no run can go on from. -/
inductive Crash where
  /-- A file that must be text is not. -/
  | badText (fault : Text.Utf8.Fault)
  /-- A value of the wrong kind in the configuration. -/
  | badType
  /-- A configuration that goes beyond what its reading can take. -/
  | badConfig (e : ReadError)
  /-- A directory in the configuration that cannot be the name of one. -/
  | badName
  /-- A path that leads into a loop of links. -/
  | linkLoop
  /-- A home directory that is not known. -/
  | noHome
  /-- A path that cannot be asked about, a folder that cannot be listed or a file
  that cannot be written. -/
  | trouble (t : Trouble)
  /-- A tree that lacks something. -/
  | fault (f : Syntax.Fault)
  deriving DecidableEq, Repr

/-- The wording of what a configuration goes beyond. -/
def ReadError.message : ReadError → String
  | malformed => "The configuration is malformed"
  | longNumber => "A number in the configuration has too many digits"
  | tooDeep => "The configuration is nested too deep"
  | outOfRange => "The configuration ends where more of it is needed"
  | notTable => "A value in the configuration is used as a table"
  | notList => "A value in the configuration is used as a list"
  | noValue => "A value in the configuration is missing"

/-- The wording of a crash. -/
def Crash.message : Crash → String
  | badText f => f.message
  | badType => "A value in the configuration is of the wrong kind"
  | badConfig e => e.message
  | badName => "A directory in the configuration has no name"
  | linkLoop => "A path leads into a loop of links"
  | noHome => "Could not determine home directory."
  | trouble t => t.reason
  | fault (.brokenText f) => f.message
  | fault .namelessSpecifier => "An exported name has no name"
  | fault .detachedBody => "A class body stands in no class"
  | fault .unknownAlias => "A name is not in the table of imports"

/-- What a plain path that cannot be had ends a run with. -/
def Crash.ofResolve : Trouble → Crash
  | .tooManyLinks => .linkLoop
  | t => .trouble t

/-- A result and the notes made on the way to it. -/
structure Report (α : Type) where
  notes : List Note
  result : Except Crash α

namespace Report

variable {α β : Type}

/-- A result without notes. -/
def done (a : α) : Report α := ⟨[], .ok a⟩

/-- Goes on from a result; the notes follow each other. -/
def andThen (r : Report α) (f : α → Report β) : Report β :=
  match r.result with
  | .error c => ⟨r.notes, .error c⟩
  | .ok a => ⟨r.notes ++ (f a).notes, (f a).result⟩

instance : Monad Report where
  pure := done
  bind := andThen

instance : LawfulMonad Report := LawfulMonad.mk' Report
  (fun r => by cases r with | mk n e => cases e <;> simp [Functor.map, andThen, done])
  (fun a f => by simp [bind, andThen, pure, done])
  (fun r f g => by
    rcases r with ⟨n, _ | a⟩
    · rfl
    · rcases h : f a with ⟨m, _ | b⟩ <;> simp [bind, andThen, h])

/-- Ends the run. -/
def crash (c : Crash) : Report α := ⟨[], .error c⟩

/-- Says something. -/
def say (level : Level) (text : String) : Report Unit := ⟨[.line level text], .ok ()⟩

/-- Makes some notes. -/
def note (notes : List Note) : Report Unit := ⟨notes, .ok ()⟩

/-- A run that can be gone on from also when it crashed: then with a value at
hand and what it crashed on. -/
def attempt (r : Report α) (atHand : α) : Report (α × Option Crash) :=
  match r.result with
  | .ok a => ⟨r.notes, .ok (a, none)⟩
  | .error c => ⟨r.notes, .ok (atHand, some c)⟩

/-- A result that may be a crash. -/
def ofExcept (e : Except Crash α) : Report α := ⟨[], e⟩

/-- The answer of a disk; that there is none ends the run. -/
def asked (e : Except Trouble α) : Report α := ⟨[], e.mapError .trouble⟩

/-- The plain path that a disk gives; that there is none ends the run. -/
def resolved (e : Except Trouble α) : Report α := ⟨[], e.mapError .ofResolve⟩

/-- A result that may be missing, and what that means. -/
def orCrash (c : Crash) : Option α → Report α
  | some a => done a
  | none => crash c

end Report

/-- The mark in front of a line. -/
def Level.mark : Level → String
  | success => "✓ "
  | warning => "! "
  | error => "✗ "
  | info | summary => ""

/-- What the console shows of some notes. -/
def consoleText (verbose : Bool) (notes : List Note) : String :=
  String.join <| notes.filterMap fun
    | .line level text =>
      if verbose || level = .summary then some (level.mark ++ text ++ "\n") else none
    | .logged _ => none

/-- What the log shows of some notes. -/
def loggedTexts (notes : List Note) : List String :=
  notes.filterMap fun
    | .logged text => some text
    | .line _ _ => none

end CodeAtlas
