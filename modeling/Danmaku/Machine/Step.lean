import Danmaku.Catalog.Basic
import Danmaku.Machine.Thread

/-!
# Steps of the machine

A step of the machine looks at the code of the innermost call and at the address in it. At the end
of the code it leaves the call, or ends the script; else it executes the instruction that stands
there. `step` is total: whatever the words are, it goes on, stops or faults.

An instruction that faults is not undone as a whole, but it looks before it acts: of the thread only
operands that it has taken are gone, and nothing has been written, called or fired. The address is
already that of the instruction after it, except if there was no instruction to decode.

Firing does not run the host's code. The shots are noted in the order in which they were fired.
-/

namespace Danmaku

/-- What a thread runs: code, and the catalog that its numbers refer to. -/
structure Program where
  /-- Everything that code can refer to. -/
  catalog : Catalog
  /-- The code of the root. -/
  code : Code
  /-- Whether the code starts again after its end, with the next tick. -/
  looping : Bool

/-- Everything that a step can change. -/
structure Config where
  /-- The thread. -/
  thread : Thread
  /-- The entity that the script runs for. -/
  entity : Entity
  /-- The shots so far. -/
  shots : Array Shot := #[]
  deriving DecidableEq, Inhabited

/-- A computation that changes a configuration and may fault. -/
abbrev Exec := EStateM Fault Config

/-- Whether the tick goes on after a step. -/
inductive Flow
  /-- It goes on. -/
  | next
  /-- It is over. -/
  | stop (status : Status)
  deriving DecidableEq, Repr

namespace Exec

/-- A step on the operand stack. -/
def onStack {α : Type} (action : StackM α) : Exec α := fun c =>
  let stack := c.thread.stack
  let c := { c with thread := { c.thread with stack := {} } }
  match action stack with
  | .ok a stack => .ok a { c with thread := { c.thread with stack } }
  | .error fault stack => .error fault { c with thread := { c.thread with stack } }

/-- Change the thread without a fault. -/
def modifyThread (f : Thread → Thread) : Exec Unit := fun c =>
  .ok () { c with thread := f c.thread }

/-- Something that can be looked up or computed without changing anything. -/
def ofExcept {α : Type} (f : Config → Except Fault α) : Exec α := fun c =>
  match f c with
  | .ok a => .ok a c
  | .error fault => .error fault c

/-- Go on at an address. -/
def goTo (address : Nat) : Exec Unit := modifyThread fun t => { t with ip := address }

/-- Go on at an absolute address, which may be the end of the code. A fault shows the target as a
signed 64-bit number. -/
def jump (size target : Nat) : Exec Unit :=
  if target ≤ size then goTo target
  else throw (.jumpOutOfRange (Int.bmod target 0x10000000000000000) size)

/-- Go on at a distance from the address that comes next. The sum is one of signed 64-bit numbers:
if it is too large for them it wraps around to a number below zero, which is out of range as the sum
is. A fault shows the target as such a number. -/
def jumpBy (size : Nat) (offset : Int) : Exec Unit := fun c =>
  let target := c.thread.ip + offset
  if 0 ≤ target ∧ target ≤ size then goTo target.toNat c
  else .error (.jumpOutOfRange (Int.bmod target 0x10000000000000000) size) c

/-- Take the top and see whether it is zero. -/
def popIsZero : Exec Bool := do
  let value ← onStack Stack.pop
  return value == 0

/-- Copy the top to a variable. -/
def setVariable (index : Nat) : Exec Unit := do
  let value ← onStack Stack.peek
  let slot ← ofExcept fun c => c.thread.slot index
  modifyThread fun t => t.store index slot value

/-- Copy the top to a property of the entity. -/
def setProperty (types : TypeTable) (property : Nat) : Exec Unit := do
  let value ← onStack Stack.peek
  fun c =>
    match types.write c.entity property value with
    | .ok entity => .ok () { c with entity }
    | .error fault => .error fault c

/-- Open a call. The slots of the call come right below those of the caller; its parameters are
first, and hold the arguments in order, and its other variables are zero. -/
def call (functions : RoutineTable) (function : Nat) : Exec Unit := do
  let callee ← ofExcept fun _ =>
    match functions.at? function with
    | some callee => .ok callee
    | none => .error (.unknownFunction function)
  let extent := callee.variableCount
  let base ← ofExcept fun c =>
    let limit := c.thread.limits.depth
    if limit ≤ c.thread.frames.length then .error (.callDepthExceeded limit)
    else
      let top := match c.thread.frames with
        | [] => c.thread.slots.size
        | f :: _ => f.base
      if extent ≤ top ∧ c.thread.rootExtent ≤ top - extent then .ok (top - extent)
      else .error (.variableOutOfRange extent)
  let arguments ← onStack (Stack.popMany callee.parameterCount)
  let locals := arguments ++ List.replicate (extent - arguments.length) 0
  modifyThread fun t =>
    { t with
      slots := Thread.fill t.slots base locals
      frames := ⟨function, t.ip, base, extent, t.stack.size⟩ :: t.frames
      ip := 0 }

/-- Close the innermost call. The caller finds its operands as it left them, and a value on top. -/
def leaveCall (value : Word) : Exec Unit := do
  let frame ← ofExcept fun c =>
    match c.thread.frames with
    | [] => .error .stackUnderflow
    | f :: _ => .ok f
  onStack (Stack.truncate frame.stackBase)
  modifyThread fun t => { t with frames := t.frames.tail, ip := frame.returnTo }
  onStack (Stack.push value)

/-- Come to the end of the root. -/
def finish (looping : Bool) : Exec Flow := do
  modifyThread fun t => { t with ip := 0, mode := if looping then t.mode else .finished }
  return .stop .completed

/-- Note a shot. -/
def shoot (shot : Shot) : Exec Unit := fun c => .ok () { c with shots := c.shots.push shot }

/-- The firing function of a number. -/
def firing (c : Catalog) (index : Nat) : Exec FiringFunction := ofExcept fun _ =>
  match c.firing.at? index with
  | some function => .ok function
  | none => .error (.unknownFiring index)

end Exec

open Exec in
/-- Execute an instruction of code of some size, the thread being at the address after it. -/
def Instr.execute (p : Program) (size : Nat) : Instr → Exec Flow
  | push value => do onStack (Stack.push value); return .next
  | pop => do let _ ← onStack Stack.pop; return .next
  | negate => do
    let value ← onStack Stack.peek
    onStack (Stack.replaceTop (UnaryOp.neg.apply value))
    return .next
  | not => do
    let value ← onStack Stack.peek
    onStack (Stack.replaceTop (UnaryOp.not.apply value))
    return .next
  | binary op => do
    let right ← onStack Stack.pop
    let left ← onStack Stack.pop
    let value ← ofExcept fun _ => op.apply left right
    onStack (Stack.push value)
    return .next
  | jump target => do Exec.jump size target; return .next
  | branchIfZero target => do
    if ← popIsZero then Exec.jump size target
    return .next
  | jumpBy offset => do Exec.jumpBy size offset; return .next
  | branchIfZeroBy offset => do
    if ← popIsZero then Exec.jumpBy size offset
    return .next
  | getVariable slot => do
    let value ← ofExcept fun c => c.thread.getVariable slot
    onStack (Stack.push value)
    return .next
  | setVariable slot => do Exec.setVariable slot; return .next
  | getProperty property => do
    let value ← ofExcept fun c => p.catalog.types.read c.entity property
    onStack (Stack.push value)
    return .next
  | setProperty property => do Exec.setProperty p.catalog.types property; return .next
  | call function => do Exec.call p.catalog.functions function; return .next
  | callDelegate index => do
    let entry ← ofExcept fun _ =>
      match p.catalog.delegates.at? index with
      | some entry => .ok entry
      | none => .error (.unknownDelegate index)
    onStack entry.delegate.run
    return .next
  | fire index => do
    let function ← Exec.firing p.catalog index
    let arguments ← onStack (Stack.popMany function.arity)
    shoot ⟨function, arguments, none⟩
    return .next
  | fireWith index updater => do
    let function ← Exec.firing p.catalog index
    let routine ← ofExcept fun _ =>
      match p.catalog.bulletUpdater? updater with
      | some routine => .ok routine
      | none => .error (.unknownUpdater updater)
    let updaterArguments ← onStack (Stack.popMany routine.parameterCount)
    let arguments ← onStack (Stack.popMany function.arity)
    shoot ⟨function, arguments, some ⟨updater, updaterArguments⟩⟩
    return .next
  | wait => do
    let ticks ← onStack Stack.pop
    modifyThread fun t => { t with mode := .waiting ticks.toTicks }
    return .stop .suspended
  | ret => do
    let value ← onStack Stack.pop
    if (← get).thread.frames.isEmpty then
      onStack Stack.clear
      modifyThread fun t => { t with lastReturn := some value }
      finish p.looping
    else
      leaveCall value
      return .next

namespace Program

/-- The code in which a thread is: that of the function called last, or that of the root. -/
def running (p : Program) (t : Thread) : Except Fault Code :=
  match t.frames with
  | [] => .ok p.code
  | f :: _ =>
    match p.catalog.function? f.function with
    | some r => .ok r.code
    | none => .error (.unknownFunction f.function)

/-- Whether the next step executes an instruction. -/
def isAtInstr (p : Program) (t : Thread) : Bool :=
  match p.running t with
  | .ok code => decide (t.ip < code.size)
  | .error _ => false

/-- What happens at the end of the code: a function returns zero, and the root is finished. -/
def fallOff (p : Program) : Exec Flow := do
  if (← get).thread.frames.isEmpty then Exec.finish p.looping
  else
    Exec.leaveCall 0
    return .next

/-- Decode the instruction at which the thread is, and execute it. -/
def instruct (p : Program) (code : Code) : Exec Flow := do
  let (instr, next) ← Exec.ofExcept fun c => Instr.decode code.words c.thread.ip
  Exec.goTo next
  instr.execute p code.size

/-- One step of the machine. -/
def step (p : Program) : Exec Flow := do
  let code ← Exec.ofExcept fun c => p.running c.thread
  if (← get).thread.ip < code.size then p.instruct code else p.fallOff

end Program

end Danmaku
