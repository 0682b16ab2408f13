import Danmaku.Operator

/-!
# Opcodes

Thirty-one words from zero up name the operations of the machine. An opcode may be followed by
operands, whose number it fixes; an operator of two operands is an opcode of its own.
-/

namespace Danmaku

/-- The operations of the machine. -/
inductive Opcode
  /-- Put a value on the stack. -/
  | push
  /-- Drop the top of the stack. -/
  | pop
  /-- Change the sign of the top. -/
  | negate
  /-- Turn the top into its logical opposite. -/
  | not
  /-- Replace the two topmost values by what an operator makes of them. -/
  | binary (op : BinaryOp)
  /-- Go on at an address. -/
  | jump
  /-- Take the top; if it is zero, go on at an address. -/
  | branchIfZero
  /-- Go on some words further. -/
  | jumpBy
  /-- Take the top; if it is zero, go on some words further. -/
  | branchIfZeroBy
  /-- Put a variable on the stack. -/
  | getVariable
  /-- Copy the top into a variable. -/
  | setVariable
  /-- Put a property of the entity on the stack. -/
  | getProperty
  /-- Copy the top into a property of the entity. -/
  | setProperty
  /-- Enter a function. -/
  | call
  /-- Hand the stack to a delegate. -/
  | callDelegate
  /-- Fire. -/
  | fire
  /-- Fire, and give what is fired an updater. -/
  | fireWith
  /-- Wait for some ticks. -/
  | wait
  /-- Leave the function, or end the script. -/
  | ret
  deriving DecidableEq, Inhabited, Repr

namespace Opcode

/-- All opcodes by number. -/
def all : Array Opcode :=
  #[push, pop, negate, not,
    binary .add, binary .sub, binary .mul, binary .div, binary .mod,
    binary .lt, binary .le, binary .gt, binary .ge, binary .eq, binary .ne,
    binary .and, binary .or,
    jump, branchIfZero, jumpBy, branchIfZeroBy,
    getVariable, setVariable, getProperty, setProperty,
    call, callDelegate, fire, fireWith, wait, ret]

/-- The number of an opcode. -/
def number : Opcode → Nat
  | push => 0 | pop => 1 | negate => 2 | not => 3
  | binary op => 4 + op.number
  | jump => 17 | branchIfZero => 18 | jumpBy => 19 | branchIfZeroBy => 20
  | getVariable => 21 | setVariable => 22 | getProperty => 23 | setProperty => 24
  | call => 25 | callDelegate => 26 | fire => 27 | fireWith => 28 | wait => 29 | ret => 30

/-- The opcode of a number. -/
def ofNumber? (n : Nat) : Option Opcode := all[n]?

/-- The opcodes are numbered as they are listed. -/
theorem ofNumber?_number (o : Opcode) : ofNumber? o.number = some o := by
  cases o with
  | binary op => cases op <;> rfl
  | _ => rfl

/-- The word that an opcode is written as. -/
def word (o : Opcode) : Word := .ofNat o.number

/-- The opcode that a word is: the word has to be a whole number, and one of theirs. -/
def ofWord? (w : Word) : Option Opcode := w.toNat?.bind ofNumber?

/-- The name of an opcode in a listing of code. -/
def mnemonic : Opcode → String
  | push => "PUSH" | pop => "POP" | negate => "NEGATE" | not => "NOT"
  | binary op => op.mnemonic
  | jump => "JUMP" | branchIfZero => "IF_ZERO_BRANCH"
  | jumpBy => "JUMP_OFFSET" | branchIfZeroBy => "IF_ZERO_BRANCH_OFFSET"
  | getVariable => "GET_VARIABLE" | setVariable => "SET_VARIABLE"
  | getProperty => "GET_PROPERTY" | setProperty => "SET_PROPERTY"
  | call => "CALL" | callDelegate => "CALL_EXTERNAL"
  | fire => "FIRE" | fireWith => "FIRE_WITH_UPDATER"
  | wait => "WAIT_FRAMES" | ret => "RETURN"

/-- How many operands follow an opcode. -/
def operandCount : Opcode → Nat
  | pop | negate | not | binary _ | wait | ret => 0
  | push | jump | branchIfZero | jumpBy | branchIfZeroBy | getVariable | setVariable
  | getProperty | setProperty | call | callDelegate | fire => 1
  | fireWith => 2

end Opcode

end Danmaku
