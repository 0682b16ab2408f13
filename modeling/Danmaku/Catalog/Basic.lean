import Danmaku.Catalog.Delegate
import Danmaku.Catalog.EntityTypes
import Danmaku.Catalog.Firing
import Danmaku.Routine

/-!
# The catalog

The catalog holds everything that a script can refer to by name and that code refers to by number:
entity types with their properties, firing functions, delegates, and the routines of each kind. A
host fills it, compilation adds routines to it, and a running script only reads it.
-/

namespace Danmaku

/-- All that scripts can name. -/
structure Catalog where
  /-- Entity types and properties. -/
  types : TypeTable := {}
  /-- Firing functions. -/
  firing : FiringTable := {}
  /-- Delegates. -/
  delegates : DelegateTable := {}
  /-- Functions. -/
  functions : RoutineTable := {}
  /-- Actions. -/
  actions : RoutineTable := {}
  /-- Emitter updaters. -/
  emitterUpdaters : RoutineTable := {}
  /-- Bullet updaters. -/
  bulletUpdaters : RoutineTable := {}
  deriving Inhabited

namespace Catalog

/-- The routines of one kind. -/
def routines (c : Catalog) : RoutineKind → RoutineTable
  | .function => c.functions
  | .action => c.actions
  | .emitterUpdater => c.emitterUpdaters
  | .bulletUpdater => c.bulletUpdaters

/-- The catalog with other routines of one kind. -/
def setRoutines (c : Catalog) (kind : RoutineKind) (t : RoutineTable) : Catalog :=
  match kind with
  | .function => { c with functions := t }
  | .action => { c with actions := t }
  | .emitterUpdater => { c with emitterUpdaters := t }
  | .bulletUpdater => { c with bulletUpdaters := t }

/-- Register a host type under a name. -/
def addType (c : Catalog) (name : String) (host : Nat) :
    Except RegistrationError (Nat × Catalog) :=
  (c.types.addType name host).map fun (index, types) => (index, { c with types })

/-- Bind a property of an entity type. -/
def addProperty (c : Catalog) (typeName name : String) (accessor : Accessor) :
    Except RegistrationError (Nat × Catalog) :=
  (c.types.addProperty typeName name accessor).map fun (index, types) => (index, { c with types })

/-- Number all property names anew. -/
def rebuildProperties (c : Catalog) : Catalog := { c with types := c.types.rebuild }

/-- Enter a firing function of a registered entity type. -/
def addFiring (c : Catalog) (typeName name : String) (arity : Nat) :
    Except RegistrationError (Nat × Catalog) :=
  if c.types.contains typeName then
    (c.firing.add typeName name arity).map fun (index, firing) => (index, { c with firing })
  else .error (.typeNotFound typeName)

/-- The firing function of a type and a name. -/
def getFiring (c : Catalog) (typeName name : String) : Except RegistrationError FiringFunction :=
  match c.firing.find? (typeName, name) with
  | some function => .ok function
  | none => .error (.notFound "firing function" (FiringFunction.fullName typeName name))

/-- Enter a delegate. -/
def addDelegate (c : Catalog) (name : String) (delegate : Delegate) :
    Except RegistrationError (Nat × Catalog) :=
  (c.delegates.add name delegate).map fun (index, delegates) => (index, { c with delegates })

/-- Enter a routine. -/
def addRoutine (c : Catalog) (kind : RoutineKind) (name : String) (r : Routine) :
    Except RegistrationError (Nat × Catalog) :=
  ((c.routines kind).add kind name r).map fun (index, t) => (index, c.setRoutines kind t)

/-- Put a routine in the place of another. -/
def replaceRoutine (c : Catalog) (kind : RoutineKind) (index : Nat) (r : Routine) :
    Except RegistrationError Catalog :=
  ((c.routines kind).replace kind index r).map (c.setRoutines kind)

/-- The routine of a name. -/
def getRoutine (c : Catalog) (kind : RoutineKind) (name : String) :
    Except RegistrationError Routine :=
  (c.routines kind).get kind name

/-- The function of a number. -/
def function? (c : Catalog) (index : Nat) : Option Routine := c.functions.at? index

/-- The bullet updater of a number. -/
def bulletUpdater? (c : Catalog) (index : Nat) : Option Routine := c.bulletUpdaters.at? index

end Catalog

end Danmaku
