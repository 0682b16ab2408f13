import Danmaku.Error.Category
import Danmaku.Word.Decimal

/-!
# Faults

What can go wrong while a script runs. A fault ends the tick; it never ends the host.
-/

namespace Danmaku

/-- The reasons for which the machine stops. -/
inductive Fault
  /-- A value is pushed on a full stack. -/
  | stackOverflow (capacity : Nat)
  /-- More values are taken from the stack than it holds. -/
  | stackUnderflow
  /-- A division by one of the zeros. -/
  | divisionByZero
  /-- A jump leads outside the code. -/
  | jumpOutOfRange (target : Int) (size : Nat)
  /-- A word that is no opcode stands where one is expected. -/
  | invalidOpcode (word : Word) (address : Nat)
  /-- The code ends before the operands of an instruction do. -/
  | truncatedInstruction (address : Nat)
  /-- An operand cannot be an index. -/
  | invalidOperand (word : Word) (address : Nat)
  /-- There is no variable slot of that index. -/
  | variableOutOfRange (index : Nat)
  /-- There is no entity reference slot of that index. -/
  | handleOutOfRange (index : Nat)
  /-- There is no function of that index. -/
  | unknownFunction (index : Nat)
  /-- There is no firing function of that index. -/
  | unknownFiring (index : Nat)
  /-- There is no updater of that index. -/
  | unknownUpdater (index : Nat)
  /-- There is no delegate of that index. -/
  | unknownDelegate (index : Nat)
  /-- There is no property of that index. -/
  | unknownProperty (index : Nat)
  /-- The entity's host type is not registered. -/
  | unregisteredEntity
  /-- The entity's type has no such property. -/
  | propertyNotOnType (typeName property : String)
  /-- Functions call each other too deeply. -/
  | callDepthExceeded (limit : Nat)
  /-- The tick has executed as many instructions as it may. -/
  | budgetExceeded (budget : Nat)
  /-- A delegate failed for a reason of its own. -/
  | delegateFailed (reason : String)
  deriving DecidableEq

namespace Fault

/-- What the fault is about. -/
def category : Fault → Category
  | stackOverflow _ | stackUnderflow => .stack
  | divisionByZero => .arithmetic
  | jumpOutOfRange _ _ | invalidOpcode _ _ | truncatedInstruction _ | invalidOperand _ _
  | variableOutOfRange _ | handleOutOfRange _ => .range
  | unknownFunction _ | unknownFiring _ | unknownUpdater _ | unknownDelegate _
  | unknownProperty _ | unregisteredEntity | propertyNotOnType _ _ => .lookup
  | callDepthExceeded _ | budgetExceeded _ => .budget
  | delegateFailed _ => .type

/-- The wording of the fault. -/
def message : Fault → String
  | stackOverflow capacity => s!"stack overflow (capacity {capacity})"
  | stackUnderflow => "stack underflow"
  | divisionByZero => "division by zero"
  | jumpOutOfRange target size => s!"jump target {target} outside code of length {size}"
  | invalidOpcode word address => s!"invalid opcode {word.text} at {address}"
  | truncatedInstruction address => s!"instruction at {address} is missing its operands"
  | invalidOperand word address => s!"invalid index operand {word.text} at {address}"
  | variableOutOfRange index => s!"variable slot {index} out of range"
  | handleOutOfRange index => s!"entity reference slot {index} out of range"
  | unknownFunction index => s!"unknown function index {index}"
  | unknownFiring index => s!"unknown firing function index {index}"
  | unknownUpdater index => s!"unknown updater index {index}"
  | unknownDelegate index => s!"unknown external function index {index}"
  | unknownProperty index => s!"unknown property index {index}"
  | unregisteredEntity => "entity type is not registered"
  | propertyNotOnType typeName property => s!"type '{typeName}' has no property '{property}'"
  | callDepthExceeded limit => s!"call depth exceeded (limit {limit})"
  | budgetExceeded budget => s!"instruction budget of {budget} exhausted without suspending"
  | delegateFailed reason => s!"native function failed: {reason}"

end Fault

end Danmaku
