import Danmaku.Opcode

/-!
# Instructions

An instruction is an opcode together with what its operands mean. `Instr.words` writes one as
words, and `Instr.decode` reads one at an address; it reads nothing of the words around it.

Operands are words, and a word holds every whole number only up to `2 ^ 24`: beyond it a written
address or index is rounded.
-/

namespace Danmaku

/-- An operation of the machine with its operands. -/
inductive Instr
  /-- Put a value on the stack. -/
  | push (value : Word)
  /-- Drop the top of the stack. -/
  | pop
  /-- Change the sign of the top. -/
  | negate
  /-- Turn the top into its logical opposite. -/
  | not
  /-- Replace the two topmost values by what an operator makes of them. -/
  | binary (op : BinaryOp)
  /-- Go on at an address. -/
  | jump (target : Nat)
  /-- Take the top; if it is zero, go on at an address. -/
  | branchIfZero (target : Nat)
  /-- Go on at a distance from the next instruction. -/
  | jumpBy (offset : Int)
  /-- Take the top; if it is zero, go on at a distance from the next instruction. -/
  | branchIfZeroBy (offset : Int)
  /-- Put a variable on the stack. -/
  | getVariable (slot : Nat)
  /-- Copy the top into a variable. -/
  | setVariable (slot : Nat)
  /-- Put a property of the entity on the stack. -/
  | getProperty (property : Nat)
  /-- Copy the top into a property of the entity. -/
  | setProperty (property : Nat)
  /-- Enter a function. -/
  | call (function : Nat)
  /-- Hand the stack to a delegate. -/
  | callDelegate (delegate : Nat)
  /-- Fire. -/
  | fire (firing : Nat)
  /-- Fire, and give what is fired an updater. -/
  | fireWith (firing updater : Nat)
  /-- Wait for some ticks. -/
  | wait
  /-- Leave the function, or end the script. -/
  | ret
  deriving DecidableEq, Inhabited

namespace Instr

/-- The operation without its operands. -/
def opcode : Instr → Opcode
  | push _ => .push
  | pop => .pop
  | negate => .negate
  | not => .not
  | binary op => .binary op
  | jump _ => .jump
  | branchIfZero _ => .branchIfZero
  | jumpBy _ => .jumpBy
  | branchIfZeroBy _ => .branchIfZeroBy
  | getVariable _ => .getVariable
  | setVariable _ => .setVariable
  | getProperty _ => .getProperty
  | setProperty _ => .setProperty
  | call _ => .call
  | callDelegate _ => .callDelegate
  | fire _ => .fire
  | fireWith _ _ => .fireWith
  | wait => .wait
  | ret => .ret

/-- The operands as words. -/
def operands : Instr → List Word
  | push value => [value]
  | jumpBy offset | branchIfZeroBy offset => [.ofInt offset]
  | jump n | branchIfZero n | getVariable n | setVariable n | getProperty n | setProperty n
  | call n | callDelegate n | fire n => [.ofNat n]
  | fireWith firing updater => [.ofNat firing, .ofNat updater]
  | pop | negate | not | binary _ | wait | ret => []

/-- The instruction as words. -/
def words (i : Instr) : List Word := i.opcode.word :: i.operands

/-- How many words the instruction takes. -/
def size (i : Instr) : Nat := 1 + i.opcode.operandCount

theorem length_operands (i : Instr) : i.operands.length = i.opcode.operandCount := by
  cases i <;> rfl

theorem length_words (i : Instr) : i.words.length = i.size := by
  simp [words, size, length_operands, Nat.add_comm]

/-- Read a word as an index, which an operand at that address has to be. -/
def readIndex (words : Array Word) (address : Nat) : Except Fault Nat :=
  let word := words.getD address 0
  match word.toIndex? with
  | some n => .ok n
  | none => .error (.invalidOperand word address)

/-- Give an opcode at that address its operands, which are known to be there. -/
def readOperands (words : Array Word) (address : Nat) : Opcode → Except Fault Instr
  | .push => .ok (push (words.getD (address + 1) 0))
  | .pop => .ok pop
  | .negate => .ok negate
  | .not => .ok not
  | .binary op => .ok (binary op)
  | .jump => (readIndex words (address + 1)).map jump
  | .branchIfZero => (readIndex words (address + 1)).map branchIfZero
  | .jumpBy => .ok (jumpBy (words.getD (address + 1) 0).toOffset)
  | .branchIfZeroBy => .ok (branchIfZeroBy (words.getD (address + 1) 0).toOffset)
  | .getVariable => (readIndex words (address + 1)).map getVariable
  | .setVariable => (readIndex words (address + 1)).map setVariable
  | .getProperty => (readIndex words (address + 1)).map getProperty
  | .setProperty => (readIndex words (address + 1)).map setProperty
  | .call => (readIndex words (address + 1)).map call
  | .callDelegate => (readIndex words (address + 1)).map callDelegate
  | .fire => (readIndex words (address + 1)).map fire
  | .fireWith =>
    match readIndex words (address + 1) with
    | .error fault => .error fault
    | .ok firing => (readIndex words (address + 2)).map (fireWith firing)
  | .wait => .ok wait
  | .ret => .ok ret

/-- The instruction at an address, and the address after it. -/
def decode (words : Array Word) (address : Nat) : Except Fault (Instr × Nat) :=
  match words[address]? with
  | none => .error (.truncatedInstruction address)
  | some word =>
    match Opcode.ofWord? word with
    | none => .error (.invalidOpcode word address)
    | some opcode =>
      let next := address + 1 + opcode.operandCount
      if words.size < next then .error (.truncatedInstruction address)
      else (readOperands words address opcode).map (·, next)

end Instr

end Danmaku
