import Danmaku.Error.Registration
import Danmaku.Stack
import Danmaku.Table

/-!
# Delegates

A delegate is a function of the host that scripts can call. It is handed the operand stack itself,
takes its arguments from it and leaves its results on it, so that code calls it without knowing
how many there are.

Whatever a delegate computes, it touches the stack only through the stack's own operations. That is
what the type says: a delegate asks for an operation, sees its answer, and goes on, until it is
done or fails. So a stack never holds more than it may, whoever wrote the delegate.
-/

namespace Danmaku

/-- An operation that a delegate may ask for. -/
inductive StackRequest
  /-- Put a value on top. -/
  | push (value : Word)
  /-- Take the top. -/
  | pop
  /-- Look at the top. -/
  | peek
  /-- Put a value in the place of the top. -/
  | replaceTop (value : Word)
  /-- Take several values at once. -/
  | popMany (count : Nat)
  /-- Keep at most that many values at the bottom. -/
  | truncate (size : Nat)
  /-- Drop all values. -/
  | clear
  /-- Look at all values. -/
  | values

/-- Do what is asked. The answer has the values that were taken or looked at. -/
def StackRequest.perform : StackRequest → StackM (List Word)
  | push value => do Stack.push value; return []
  | pop => do return [← Stack.pop]
  | peek => do return [← Stack.peek]
  | replaceTop value => do Stack.replaceTop value; return []
  | popMany count => Stack.popMany count
  | truncate size => do Stack.truncate size; return []
  | clear => do Stack.clear; return []
  | values => do return (← get).values.toList

/-- What a function of the host does to the stack. It is a function of what the stack holds and of
nothing else: it has no state of its own that lasts from one call to the next, and it cannot ask how
much the stack may hold, but only whether one more value has found room. -/
inductive Delegate
  /-- Come to an end. -/
  | done (outcome : Except Fault Unit)
  /-- Ask for an operation, and go on with its answer. -/
  | ask (request : StackRequest) (next : Except Fault (List Word) → Delegate)

namespace Delegate

/-- Run a delegate on a stack. A request that fails does not end the delegate: it is told. -/
def run : Delegate → StackM Unit
  | done (.ok ()) => fun s => .ok () s
  | done (.error fault) => fun s => .error fault s
  | ask request next => fun s =>
    match request.perform s with
    | .ok values s => (next (.ok values)).run s
    | .error fault s => (next (.error fault)).run s

/-! ## Building delegates -/

/-- The delegate that does nothing. -/
def skip : Delegate := done (.ok ())

/-- The delegate that fails. -/
def fail (fault : Fault) : Delegate := done (.error fault)

/-- One delegate after another, unless the first fails. -/
def andThen (first second : Delegate) : Delegate :=
  match first with
  | done (.ok ()) => second
  | done (.error fault) => done (.error fault)
  | ask request next => ask request fun answer => (next answer).andThen second

/-- Several delegates in order, up to the first that fails. -/
def sequence (delegates : List Delegate) : Delegate := delegates.foldr andThen skip

/-- Ask for an operation and go on with the values in its answer, giving up if it fails. -/
def request (request : StackRequest) (next : List Word → Delegate) : Delegate :=
  ask request fun
    | .ok values => next values
    | .error fault => fail fault

/-- Ask for an operation for its effect alone. -/
def perform (r : StackRequest) : Delegate := request r fun _ => skip

/-- Take the two topmost values and put the greater of them back: the right one if it is greater,
else the left one. -/
def maximum : Delegate :=
  request .pop fun right =>
    request .pop fun left =>
      let right := right.headD 0
      let left := left.headD 0
      perform (.push (if left < right then right else left))

/-- Take some values and put back their sum, added up from zero in the order in which they were
pushed. -/
def sum (count : Nat) : Delegate :=
  request (.popMany count) fun values => perform (.push (values.foldl (· + ·) 0))

/-- Put the top there twice. -/
def duplicate : Delegate :=
  request .peek fun values => perform (.push (values.headD 0))

/-- Put the number of values on top of them. -/
def depth : Delegate :=
  request .values fun values => perform (.push (.ofNat values.length))

end Delegate

/-- A delegate that scripts know by name. -/
structure DelegateEntry where
  /-- The name. -/
  name : String
  /-- The number by which code refers to it. -/
  index : Nat
  /-- What it does. -/
  delegate : Delegate

/-- The delegates under their names. -/
abbrev DelegateTable := Table String DelegateEntry

/-- Enter a delegate under a new name. -/
def DelegateTable.add (t : DelegateTable) (name : String) (delegate : Delegate) :
    Except RegistrationError (Nat × DelegateTable) :=
  match t.add? name fun index => ⟨name, index, delegate⟩ with
  | some result => .ok result
  | none => .error (.duplicateEntry name "external function")

end Danmaku
