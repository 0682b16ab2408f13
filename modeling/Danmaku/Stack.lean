import Danmaku.Error.Fault

/-!
# The operand stack

A stack of words with a fixed capacity. Its operations are steps that read and change a stack, and
that may fail. A step that fails leaves the stack as it was, so a sequence of steps that fails has
the effects of those before the one that failed.
-/

namespace Danmaku

/-- Words, the last of which is the top, and how many of them there may be. -/
structure Stack where
  /-- The greatest number of values. -/
  capacity : Nat := 0
  /-- The values from the bottom up. -/
  values : Array Word := #[]
  deriving DecidableEq, Inhabited

/-- A step on a stack. Its outcome holds the stack after it, also if it fails. -/
abbrev StackM := EStateM Fault Stack

namespace Stack

/-- The empty stack of some capacity. -/
def ofCapacity (capacity : Nat) : Stack := ⟨capacity, #[]⟩

/-- How many values are on the stack. -/
def size (s : Stack) : Nat := s.values.size

/-- Whether nothing is on the stack. -/
def isEmpty (s : Stack) : Bool := s.values.isEmpty

/-- Put a value on top, if there is room. -/
def push (value : Word) : StackM Unit := fun s =>
  if s.capacity ≤ s.values.size then .error (.stackOverflow s.capacity) s
  else .ok () { s with values := s.values.push value }

/-- Take the top. -/
def pop : StackM Word := fun s =>
  match s.values.back? with
  | none => .error .stackUnderflow s
  | some value => .ok value { s with values := s.values.pop }

/-- Look at the top. -/
def peek : StackM Word := fun s =>
  match s.values.back? with
  | none => .error .stackUnderflow s
  | some value => .ok value s

/-- Put a value in the place of the top. -/
def replaceTop (value : Word) : StackM Unit := fun s =>
  if s.values.isEmpty then .error .stackUnderflow s
  else .ok () { s with values := s.values.pop.push value }

/-- Take several values at once, all or none. They come in the order in which they were pushed. -/
def popMany (count : Nat) : StackM (List Word) := fun s =>
  if s.values.size < count then .error .stackUnderflow s
  else
    let rest := s.values.size - count
    .ok (s.values.extract rest).toList { s with values := s.values.shrink rest }

/-- Keep at most that many values at the bottom. -/
def truncate (size : Nat) : StackM Unit := fun s =>
  .ok () { s with values := s.values.shrink size }

/-- Drop all values. -/
def clear : StackM Unit := fun s => .ok () { s with values := #[] }

/-- The number of values, as a step. -/
def depth : StackM Nat := fun s => .ok s.size s

end Stack

end Danmaku
