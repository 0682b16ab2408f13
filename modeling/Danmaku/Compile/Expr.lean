import Danmaku.Catalog.Basic
import Danmaku.Compile.ScopeStack

/-!
# Code of expressions

The code of an expression puts its value on the stack and leaves what is below. It jumps only
within itself, and by distances, so that it runs alike wherever it stands.

The first thing that is wrong with an expression is its error, in the order in which its code would
be written: an assignment's target comes before its value, and whom a call calls, with how many
arguments, before the arguments.
-/

namespace Danmaku

/-- How many words some instructions take. -/
def Instr.sizeOf : List Instr → Nat
  | [] => 0
  | i :: rest => i.size + sizeOf rest

/-- Something that holds a number and can be assigned to. -/
inductive Place
  /-- A variable. -/
  | slot (index : Nat)
  /-- A property of the entity. -/
  | property (index : Nat)
  deriving DecidableEq, Repr

namespace Place

/-- The instruction that reads the place. -/
def get : Place → Instr
  | slot index => .getVariable index
  | property index => .getProperty index

/-- The instruction that copies the top of the stack to the place. -/
def set : Place → Instr
  | slot index => .setVariable index
  | property index => .setProperty index

end Place

/-- Check the number of arguments of a call. -/
def checkArity (kind name : String) (expected found : Nat) (position : Position) :
    Except CompileError Unit :=
  if expected = found then .ok () else .error (.argumentCount kind name expected found position)

/-- The instruction that calls a function or a delegate. A function hides a delegate of the same
name; a delegate takes any number of arguments. -/
def callee (c : Catalog) (callee : Ident) (found : Nat) (position : Position) :
    Except CompileError Instr :=
  match c.functions.lookup? callee.name with
  | some (index, r) => do
    checkArity "function" callee.name r.parameterCount found position
    return .call index
  | none =>
    match c.delegates.indexOf? callee.name with
    | some index => .ok (.callDelegate index)
    | none => .error (.unknownFunction callee.name callee.position)

namespace Expr

/-- The place that an expression names. -/
def place (c : Catalog) (s : ScopeStack) : Expr → Except CompileError Place
  | var name position => (s.numberSlot name position).map .slot
  | prop name position =>
    match c.types.globalIndex? name with
    | some index => .ok (.property index)
    | none => .error (.unknownProperty name position)
  | e => .error (.notAssignable e.position)

mutual

/-- The code of an expression. -/
def compile (c : Catalog) (s : ScopeStack) : Expr → Except CompileError (List Instr)
  | num value _ => .ok [.push value]
  | var name position => do
    let place ← place c s (var name position)
    return [place.get]
  | prop name position => do
    let place ← place c s (prop name position)
    return [place.get]
  | binary op left right _ => do
    let left ← left.compile c s
    let right ← right.compile c s
    return left ++ right ++ [.binary op]
  | unary op operand _ => do
    let operand ← operand.compile c s
    return operand ++ [match op with | .neg => .negate | .not => .not]
  | assign .plain target value _ => do
    let place ← target.place c s
    let value ← value.compile c s
    return value ++ [place.set]
  | assign (.combined op) target value _ => do
    let place ← target.place c s
    let value ← value.compile c s
    return [place.get] ++ value ++ [.binary op, place.set]
  | step op target _ => do
    let place ← target.place c s
    return [place.get, .push 1, .binary op.operator, place.set]
  | choose condition yes no _ => do
    let condition ← condition.compile c s
    let yes ← yes.compile c s
    let no ← no.compile c s
    let skipYes := Instr.branchIfZeroBy (Instr.sizeOf yes + (Instr.jumpBy 0).size)
    let skipNo := Instr.jumpBy (Instr.sizeOf no)
    return condition ++ [skipYes] ++ yes ++ [skipNo] ++ no
  | call name arguments position => do
    let instr ← callee c name arguments.length position
    let arguments ← compileAll c s arguments
    return arguments ++ [instr]

/-- The code of several expressions in order. -/
def compileAll (c : Catalog) (s : ScopeStack) : List Expr → Except CompileError (List Instr)
  | [] => .ok []
  | e :: rest => do
    let code ← e.compile c s
    let rest ← compileAll c s rest
    return code ++ rest

end

/-- The code of an expression, or of zero in the place of a missing one. -/
def compileOrZero (c : Catalog) (s : ScopeStack) : Option Expr → Except CompileError (List Instr)
  | some e => e.compile c s
  | none => .ok [.push 0]

end Expr

end Danmaku
