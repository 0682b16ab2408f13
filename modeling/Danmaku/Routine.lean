import Danmaku.Code
import Danmaku.Error.Compile
import Danmaku.Table

/-!
# Routines

A routine is a compiled body: its code, and the names declared in it. A name stands either for a
numerical variable or for a reference to an entity, never for both, and its slot is its place among
the names of its sort. The parameters are the first numerical variables.

Routines are of four kinds, and a catalog keeps a table for each.
-/

namespace Danmaku

/-- What a routine is for. -/
inductive RoutineKind
  /-- Called by other routines. -/
  | function
  /-- Started by the host. -/
  | action
  /-- Run for an emitter on every tick. -/
  | emitterUpdater
  /-- Run for a fired bullet on every tick. -/
  | bulletUpdater
  deriving DecidableEq, Inhabited, Repr

namespace RoutineKind

/-- All kinds. -/
def all : List RoutineKind := [function, action, emitterUpdater, bulletUpdater]

/-- The name of a kind in a message. -/
def text : RoutineKind → String
  | function => "function"
  | action => "action"
  | emitterUpdater => "emitter updater"
  | bulletUpdater => "bullet updater"

end RoutineKind

/-- What a name in a routine stands for. -/
inductive SymbolKind
  /-- A numerical variable. -/
  | number
  /-- A reference to an entity. -/
  | handle
  deriving DecidableEq, Repr

/-- A body of code with the names that it declares. -/
structure Routine where
  /-- The numerical variables by slot. -/
  numbers : List String := []
  /-- The entity references by slot. -/
  handles : List String := []
  /-- How many of the numerical variables are parameters. -/
  parameterCount : Nat := 0
  /-- The code. -/
  code : Code := {}
  /-- The number of the routine in its table, once it has one. -/
  index? : Option Nat := none
  deriving DecidableEq, Inhabited

namespace Routine

/-- The slot of a numerical variable. -/
def numberSlot? (r : Routine) (name : String) : Option Nat := r.numbers.idxOf? name

/-- The slot of an entity reference. -/
def handleSlot? (r : Routine) (name : String) : Option Nat := r.handles.idxOf? name

/-- What a name stands for, if it is declared. -/
def kindOf? (r : Routine) (name : String) : Option SymbolKind :=
  if (r.numberSlot? name).isSome then some .number
  else if (r.handleSlot? name).isSome then some .handle
  else none

/-- How many slots a run of the routine needs. -/
def variableCount (r : Routine) : Nat := r.numbers.length

/-- Declare a numerical variable. The result has its slot. -/
def declareNumber (r : Routine) (name : String) (position : Position) :
    Except CompileError (Routine × Nat) :=
  if (r.kindOf? name).isSome then .error (.redeclared name position)
  else .ok ({ r with numbers := r.numbers ++ [name] }, r.numbers.length)

/-- Declare an entity reference. The result has its slot. -/
def declareHandle (r : Routine) (name : String) (position : Position) :
    Except CompileError (Routine × Nat) :=
  if (r.kindOf? name).isSome then .error (.redeclared name position)
  else .ok ({ r with handles := r.handles ++ [name] }, r.handles.length)

/-- Declare several numerical variables in order. -/
def declareNumbers (r : Routine) (position : Position) :
    List String → Except CompileError Routine
  | [] => .ok r
  | name :: rest =>
    match r.declareNumber name position with
    | .error e => .error e
    | .ok (r, _) => r.declareNumbers position rest

/-- Declare several entity references in order. -/
def declareHandles (r : Routine) (position : Position) :
    List String → Except CompileError Routine
  | [] => .ok r
  | name :: rest =>
    match r.declareHandle name position with
    | .error e => .error e
    | .ok (r, _) => r.declareHandles position rest

/-- The routine that has only parameters yet. -/
def withParameters (names : List String) (position : Position) : Except CompileError Routine :=
  (({} : Routine).declareNumbers position names).map
    fun r => { r with parameterCount := names.length }

end Routine

/-- The routines of one kind under their names. -/
abbrev RoutineTable := Table String Routine

namespace RoutineTable

/-- Enter a routine under a new name; it learns its number. -/
def add (t : RoutineTable) (kind : RoutineKind) (name : String) (r : Routine) :
    Except RegistrationError (Nat × RoutineTable) :=
  match t.add? name fun index => { r with index? := some index } with
  | some result => .ok result
  | none => .error (.duplicateEntry name kind.text)

/-- Put a routine in the place of another; it learns its number. -/
def replace (t : RoutineTable) (kind : RoutineKind) (index : Nat) (r : Routine) :
    Except RegistrationError RoutineTable :=
  match t.replace? index { r with index? := some index } with
  | some t => .ok t
  | none => .error (.indexOutOfRange kind.text index)

/-- The routine of a name. -/
def get (t : RoutineTable) (kind : RoutineKind) (name : String) :
    Except RegistrationError Routine :=
  match t.find? name with
  | some r => .ok r
  | none => .error (.notFound kind.text name)

end RoutineTable

end Danmaku
