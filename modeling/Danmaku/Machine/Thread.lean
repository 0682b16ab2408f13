import Danmaku.Limits
import Danmaku.Stack

/-!
# Threads

A thread is all that changes from tick to tick while a script runs for one entity: where it is, its
operands, its variables and the calls that are open. Its stores have the sizes that its limits give
them and keep them.

The variable slots are one array. The outermost code, the *root*, has the slots from zero up; each
call takes its slots from the top of the array down, next below those of the call around it. The
*root extent* is how many slots the root has used or claimed so far, and no call may reach below
it.
-/

namespace Danmaku

/-- An entity as a script refers to it, by a number that the host chose. -/
structure Handle where
  /-- The number. -/
  id : Nat
  deriving DecidableEq, Inhabited, Repr

/-- An open call. -/
structure Frame where
  /-- The function that was called. -/
  function : Nat
  /-- Where the caller goes on. -/
  returnTo : Nat
  /-- The first variable slot of the call. -/
  base : Nat
  /-- How many slots the call has. -/
  extent : Nat
  /-- How many operands the caller had left when it called. -/
  stackBase : Nat
  deriving DecidableEq, Inhabited, Repr

/-- Whether a thread can go on. -/
inductive Mode
  /-- It goes on with the next tick. -/
  | ready
  /-- It waits. The count is that of the ticks before it goes on, the tick in which it does so
  included. -/
  | waiting (ticks : Nat)
  /-- It has come to its end. -/
  | finished
  deriving DecidableEq, Inhabited, Repr

/-- What a tick leaves a thread in, unless it fails. -/
inductive Status
  /-- The code returned or came to its end. -/
  | completed
  /-- The code waits. -/
  | suspended
  deriving DecidableEq, Repr

/-- A run of a script that can be taken up again. -/
structure Thread where
  /-- The limits that gave the stores their sizes. -/
  limits : Limits
  /-- The operands. -/
  stack : Stack
  /-- The variable slots. -/
  slots : Array Word
  /-- The slots for entity references. -/
  handles : Array (Option Handle)
  /-- The address of the next instruction, in the code of the innermost call. -/
  ip : Nat := 0
  /-- The open calls, the innermost first. -/
  frames : List Frame := []
  /-- Whether the thread can go on. -/
  mode : Mode := .ready
  /-- What the root returned last. -/
  lastReturn : Option Word := none
  /-- How many slots belong to the root. -/
  rootExtent : Nat := 0
  deriving DecidableEq, Inhabited

namespace Thread

/-- A thread at the start of its code. -/
def ofLimits (limits : Limits) : Thread where
  limits
  stack := .ofCapacity limits.stack
  slots := Array.replicate limits.slots 0
  handles := Array.replicate limits.handles none

/-- Write values to the slots from an index up. -/
def fill (slots : Array Word) (index : Nat) : List Word → Array Word
  | [] => slots
  | value :: rest => fill (slots.setIfInBounds index value) (index + 1) rest

/-- A thread for an updater, which has its arguments in its first slots. -/
def forUpdater (limits : Limits) (arguments : List Word) : Except Fault Thread :=
  let t := ofLimits limits
  if t.slots.size < arguments.length then
    .error (.variableOutOfRange (arguments.length - 1))
  else
    .ok { t with
      slots := fill t.slots 0 arguments
      rootExtent := arguments.length }

/-- Claim the first slots for the root. -/
def reserve (t : Thread) (count : Nat) : Except Fault Thread :=
  if t.slots.size < count then .error (.variableOutOfRange (count - 1))
  else .ok { t with rootExtent := max t.rootExtent count }

/-- Go back to the start of the code. Variables and entity references keep their values. -/
def reset (t : Thread) : Thread :=
  { t with
    stack := { t.stack with values := #[] }
    ip := 0
    frames := []
    mode := .ready
    lastReturn := none }

/-- The first slot of the innermost call and how many slots it has; for the root, all slots. -/
def window (t : Thread) : Nat × Nat :=
  match t.frames with
  | [] => (0, t.slots.size)
  | f :: _ => (f.base, f.extent)

/-- The place of a variable in the array. -/
def slot (t : Thread) (index : Nat) : Except Fault Nat :=
  let (base, extent) := t.window
  if index < extent then .ok (base + index) else .error (.variableOutOfRange index)

/-- The value of a variable. -/
def getVariable (t : Thread) (index : Nat) : Except Fault Word :=
  (t.slot index).map fun slot => t.slots.getD slot 0

/-- Change the variable of an index, whose place in the array is known. What the root writes to
belongs to the root. -/
def store (t : Thread) (index slot : Nat) (value : Word) : Thread :=
  { t with
    slots := t.slots.setIfInBounds slot value
    rootExtent := if t.frames.isEmpty then max t.rootExtent (index + 1) else t.rootExtent }

/-- Change a variable. -/
def setVariable (t : Thread) (index : Nat) (value : Word) : Except Fault Thread :=
  (t.slot index).map fun slot => t.store index slot value

/-- The entity reference in a slot, if there is one. -/
def handle (t : Thread) (index : Nat) : Except Fault (Option Handle) :=
  match t.handles[index]? with
  | some handle => .ok handle
  | none => .error (.handleOutOfRange index)

/-- Change an entity reference. -/
def setHandle (t : Thread) (index : Nat) (handle : Option Handle) : Except Fault Thread :=
  if index < t.handles.size then
    .ok { t with handles := t.handles.setIfInBounds index handle }
  else .error (.handleOutOfRange index)

/-- Whether the thread waits. -/
def isSuspended (t : Thread) : Bool := t.mode matches .waiting _

/-- Whether the thread has come to its end. -/
def isFinished (t : Thread) : Bool := t.mode matches .finished

/-- How many ticks the thread still waits. -/
def countdown (t : Thread) : Nat :=
  match t.mode with
  | .waiting ticks => ticks
  | _ => 0

end Thread

end Danmaku
