import Danmaku.Error.Fault
import Danmaku.Word.Remainder

/-!
# Operators

The operators of scripts, their spelling, and what they do to words. Truth is a number here: a
comparison yields one or zero, and the two connectives take a number above zero for true. Both
connectives look at both operands, so nothing is skipped.
-/

namespace Danmaku

/-- The operators between two expressions. -/
inductive BinaryOp
  | add | sub | mul | div | mod
  | lt | le | gt | ge | eq | ne
  | and | or
  deriving DecidableEq, Inhabited, Repr

namespace BinaryOp

/-- All of them, in the order of their opcodes. -/
def all : Array BinaryOp := #[add, sub, mul, div, mod, lt, le, gt, ge, eq, ne, and, or]

/-- The place of an operator among the opcodes. -/
def number : BinaryOp → Nat
  | add => 0 | sub => 1 | mul => 2 | div => 3 | mod => 4
  | lt => 5 | le => 6 | gt => 7 | ge => 8 | eq => 9 | ne => 10
  | and => 11 | or => 12

/-- How scripts spell the operator. -/
def token : BinaryOp → String
  | add => "+" | sub => "-" | mul => "*" | div => "/" | mod => "%"
  | lt => "<" | le => "<=" | gt => ">" | ge => ">=" | eq => "==" | ne => "!="
  | and => "&&" | or => "||"

/-- The name of the operator in a listing of code. -/
def mnemonic : BinaryOp → String
  | add => "ADD" | sub => "SUB" | mul => "MUL" | div => "DIV" | mod => "MOD"
  | lt => "LT" | le => "LE" | gt => "GT" | ge => "GE" | eq => "EQ" | ne => "NE"
  | and => "AND" | or => "OR"

/-- Whether the operator compares two numbers. -/
def isComparison : BinaryOp → Bool
  | lt | le | gt | ge | eq | ne => true
  | add | sub | mul | div | mod | and | or => false

/-- The result of the operator. Only a division by one of the zeros has none. -/
def apply (op : BinaryOp) (left right : Word) : Except Fault Word :=
  match op with
  | add => .ok (left + right)
  | sub => .ok (left - right)
  | mul => .ok (left * right)
  | div => if right == 0 then .error .divisionByZero else .ok (left / right)
  | mod => .ok (left.remainder right)
  | lt => .ok (.ofBool (left < right))
  | le => .ok (.ofBool (left ≤ right))
  | gt => .ok (.ofBool (right < left))
  | ge => .ok (.ofBool (right ≤ left))
  | eq => .ok (.ofBool (left == right))
  | ne => .ok (.ofBool (left != right))
  | and => .ok (.ofBool (0 < left && 0 < right))
  | or => .ok (.ofBool (0 < left || 0 < right))

section

variable {op : BinaryOp} {left right : Word} {fault : Fault}

/-- **Only a division fails**, and only by one of the two zeros. -/
theorem apply_eq_error : op.apply left right = .error fault ↔
    op = div ∧ (right == 0) = true ∧ fault = .divisionByZero := by
  cases op with
  | div =>
    simp only [apply, true_and]
    split
    · next h => simp [h, eq_comm]
    · next h => simp [h]
  | _ => simp [apply]

/-- A comparison is true or false, and has a result whatever it compares. -/
theorem apply_comparison (h : op.isComparison = true) (left right : Word) :
    ∃ b, op.apply left right = .ok (.ofBool b) := by
  cases op with
  | lt | le | gt | ge | eq | ne => exact ⟨_, rfl⟩
  | add | sub | mul | div | mod | and | or => cases h

theorem apply_gt (left right : Word) : gt.apply left right = lt.apply right left := rfl

theorem apply_ge (left right : Word) : ge.apply left right = le.apply right left := rfl

/-- A conjunction is true if both operands are above zero. -/
theorem apply_and (left right : Word) :
    and.apply left right = .ok (if 0 < left ∧ 0 < right then 1 else 0) := by
  rw [apply, Word.ofBool]
  simp only [Bool.and_eq_true, decide_eq_true_eq]

/-- A disjunction is true if one of the operands is above zero. -/
theorem apply_or (left right : Word) :
    or.apply left right = .ok (if 0 < left ∨ 0 < right then 1 else 0) := by
  rw [apply, Word.ofBool]
  simp only [Bool.or_eq_true, decide_eq_true_eq]

end

end BinaryOp

/-- The operators in front of an expression. -/
inductive UnaryOp
  | neg | not
  deriving DecidableEq, Inhabited, Repr

namespace UnaryOp

/-- How scripts spell the operator. -/
def token : UnaryOp → String
  | neg => "-"
  | not => "!"

/-- The result of the operator. What equals zero is false, so no number is true. -/
def apply (op : UnaryOp) (value : Word) : Word :=
  match op with
  | neg => -value
  | not => .ofBool (value == 0)

/-- A negation is true if the operand is one of the two zeros. So both a number below zero and its
negation are false. -/
theorem apply_not (value : Word) : not.apply value = if (value == 0) = true then 1 else 0 := rfl

end UnaryOp

/-! ## Truth values -/

theorem Word.zero_lt_ofBool (b : Bool) : decide ((0 : Word) < .ofBool b) = b := by
  cases b with
  | false => decide +kernel
  | true => decide +kernel

theorem Word.ofBool_beq_zero (b : Bool) : (Word.ofBool b == 0) = !b := by
  cases b with
  | false => decide +kernel
  | true => decide +kernel

/-- **On truth values the connectives are those of logic.** -/
theorem BinaryOp.apply_and_ofBool (b c : Bool) :
    and.apply (.ofBool b) (.ofBool c) = .ok (.ofBool (b && c)) := by
  simp only [apply, Word.zero_lt_ofBool]

theorem BinaryOp.apply_or_ofBool (b c : Bool) :
    or.apply (.ofBool b) (.ofBool c) = .ok (.ofBool (b || c)) := by
  simp only [apply, Word.zero_lt_ofBool]

theorem UnaryOp.apply_not_ofBool (b : Bool) : not.apply (.ofBool b) = .ofBool !b := by
  simp only [apply, Word.ofBool_beq_zero]

/-- Two operands are unequal just if they are not equal. -/
theorem BinaryOp.apply_ne (left right : Word) :
    ne.apply left right = (eq.apply left right).map UnaryOp.not.apply := by
  simp only [apply, Except.map, UnaryOp.apply_not_ofBool, bne]

/-- The forms of assignment: plain, or combined with an operator. -/
inductive AssignOp
  | plain
  | combined (op : BinaryOp)
  deriving DecidableEq, Inhabited, Repr

namespace AssignOp

/-- The forms that scripts can spell. -/
def all : Array AssignOp :=
  #[plain, combined .add, combined .sub, combined .mul, combined .div, combined .mod]

/-- How scripts spell the assignment. -/
def token : AssignOp → String
  | plain => "="
  | combined op => op.token ++ "="

/-- The operator that is combined with the assignment, if any. -/
def operator? : AssignOp → Option BinaryOp
  | plain => none
  | combined op => some op

end AssignOp

/-- The operators that step a variable up or down. -/
inductive StepOp
  | increment | decrement
  deriving DecidableEq, Inhabited, Repr

namespace StepOp

/-- How scripts spell the step. -/
def token : StepOp → String
  | increment => "++"
  | decrement => "--"

/-- The operator by which a step changes its target. -/
def operator : StepOp → BinaryOp
  | increment => .add
  | decrement => .sub

end StepOp

end Danmaku
