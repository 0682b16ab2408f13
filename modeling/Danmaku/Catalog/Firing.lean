import Danmaku.Error.Registration
import Danmaku.Table
import Danmaku.Word.Basic

/-!
# Firing

A firing function is the host's way to bring a new entity into the world. A script gives it
numbers, as many as it takes, and possibly an updater that the new entity is to run. The library
does not run the host's code: it hands over each shot in the order in which they were fired.
-/

namespace Danmaku

/-- A firing function of the host. -/
structure FiringFunction where
  /-- The entity type that fires. -/
  typeName : String
  /-- The name, which is unique in the type. -/
  name : String
  /-- The number by which code refers to it. -/
  index : Nat
  /-- How many numbers it takes. -/
  arity : Nat
  deriving DecidableEq, Inhabited, Repr

/-- Type and name together, as messages have it. -/
def FiringFunction.fullName (typeName name : String) : String := s!"{typeName}.{name}"

/-- A bullet updater with its arguments. -/
structure AttachedUpdater where
  /-- The number of the updater. -/
  index : Nat
  /-- One argument for each parameter. -/
  arguments : List Word
  deriving DecidableEq, Inhabited

/-- One use of a firing function. -/
structure Shot where
  /-- The firing function. -/
  function : FiringFunction
  /-- What it was given. -/
  arguments : List Word
  /-- What the new entity is to run. -/
  updater? : Option AttachedUpdater
  deriving DecidableEq, Inhabited

/-- The firing functions under their types and names. -/
abbrev FiringTable := Table (String × String) FiringFunction

/-- Enter a firing function. -/
def FiringTable.add (t : FiringTable) (typeName name : String) (arity : Nat) :
    Except RegistrationError (Nat × FiringTable) :=
  match t.add? (typeName, name) fun index => ⟨typeName, name, index, arity⟩ with
  | some result => .ok result
  | none => .error (.duplicateEntry (FiringFunction.fullName typeName name) "firing function")

end Danmaku
