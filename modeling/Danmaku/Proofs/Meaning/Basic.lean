import Danmaku.Catalog.Basic
import Danmaku.Syntax
import Mathlib.Logic.Function.Basic

/-!
# What scripts mean

The meaning of a script is given on its tree, without code, stacks, addresses or slots. A body
works on a *world*: the values of its variables by name, the entity, and a log of what was done so
far (`Effect`). An expression has a value, and a statement comes to a completion, which tells where
control goes on; both may halt instead.

A loop or a recursion may go on for ever, so a meaning is computed with some *patience*, the number
of rounds of every loop and of nested calls that it will follow. Being out of patience is not an
outcome of the script: with more patience the computation gets further.
-/

namespace Danmaku

/-- Something that a script does, seen from outside. -/
inductive Effect
  /-- A value is stored in a variable. -/
  | variable (name : String) (value : Word)
  /-- A value is stored in a property of the entity. -/
  | property (name : String) (value : Word)
  /-- A firing function is used. -/
  | shot (shot : Shot)
  /-- The script waits. -/
  | wait (ticks : Word)
  deriving DecidableEq, Inhabited

/-- Why a computation does not come to its end. -/
inductive Halt
  /-- The script goes wrong. -/
  | fault (fault : Fault)
  /-- The computation is given up. -/
  | patience
  deriving DecidableEq

/-- What a body works on. -/
structure World where
  /-- The values of the variables of the body. -/
  values : String → Word
  /-- The entity that the script runs for. -/
  entity : Entity
  /-- What has been done so far. -/
  log : List Effect

/-- A computation on a world. A computation that halts leaves the world as it was at that point. -/
abbrev Eval := EStateM Halt World

namespace Eval

/-- Something that may go wrong without changing anything. -/
def ofExcept {α : Type} : Except Fault α → Eval α
  | .ok a => fun w => .ok a w
  | .error fault => fun w => .error (.fault fault) w

/-- Note an effect that changes nothing else. -/
def note (effect : Effect) : Eval Unit := fun w => .ok () { w with log := w.log ++ [effect] }

/-- The value of a variable. -/
def getVariable (name : String) : Eval Word := fun w => .ok (w.values name) w

/-- Store a value in a variable. -/
def setVariable (name : String) (value : Word) : Eval Unit := fun w =>
  .ok () { w with
    values := Function.update w.values name value
    log := w.log ++ [.variable name value] }

/-- The value of a property of the entity. -/
def getProperty (types : TypeTable) (name : String) : Eval Word := fun w =>
  ofExcept (types.read w.entity (types.propertyNames.idxOf name)) w

/-- Store a value in a property of the entity. -/
def setProperty (types : TypeTable) (name : String) (value : Word) : Eval Unit := fun w =>
  match types.write w.entity (types.propertyNames.idxOf name) value with
  | .ok entity => .ok () { w with entity, log := w.log ++ [.property name value] }
  | .error fault => .error (.fault fault) w

end Eval

namespace Expr

/-! ## Expressions -/

/-- The value of what can be assigned to. -/
def fetch (types : TypeTable) : Expr → Eval Word
  | var name _ => Eval.getVariable name
  | prop name _ => Eval.getProperty types name
  | _ => pure 0

/-- Store a value in what can be assigned to. -/
def store (types : TypeTable) (value : Word) : Expr → Eval Unit
  | var name _ => Eval.setVariable name value
  | prop name _ => Eval.setProperty types name value
  | _ => pure ()

mutual

/-- The value of an expression; `apply` says what a call does. Operands come from left to right, and
both of them come before the operator, whatever it is. What is assigned is what is stored. -/
def eval (types : TypeTable) (apply : String → List Word → Eval Word) : Expr → Eval Word
  | num value _ => pure value
  | var name _ => Eval.getVariable name
  | prop name _ => Eval.getProperty types name
  | binary op left right _ => do
    let left ← left.eval types apply
    let right ← right.eval types apply
    Eval.ofExcept (op.apply left right)
  | unary op operand _ => do
    let value ← operand.eval types apply
    return op.apply value
  | assign .plain target value _ => do
    let value ← value.eval types apply
    target.store types value
    return value
  | assign (.combined op) target value _ => do
    let old ← target.fetch types
    let value ← value.eval types apply
    let value ← Eval.ofExcept (op.apply old value)
    target.store types value
    return value
  | step op target _ => do
    let old ← target.fetch types
    let value ← Eval.ofExcept (op.operator.apply old 1)
    target.store types value
    return value
  | choose condition yes no _ => do
    let condition ← condition.eval types apply
    if condition == 0 then no.eval types apply else yes.eval types apply
  | call callee arguments _ => do
    let arguments ← evalAll types apply arguments
    apply callee.name arguments

/-- The values of several expressions in order. -/
def evalAll (types : TypeTable) (apply : String → List Word → Eval Word) :
    List Expr → Eval (List Word)
  | [] => pure []
  | e :: rest => do
    let value ← e.eval types apply
    let rest ← evalAll types apply rest
    return value :: rest

end

/-- The value of an expression, or zero in the place of a missing one. -/
def evalOrZero (types : TypeTable) (apply : String → List Word → Eval Word) :
    Option Expr → Eval Word
  | some e => e.eval types apply
  | none => pure 0

end Expr

/-! ## Statements -/

/-- Where control goes on after a statement. -/
inductive Completion
  /-- With the next statement. -/
  | next
  /-- After the innermost loop. -/
  | leave
  /-- With the next round of the innermost loop. -/
  | again
  /-- Nowhere: the body returns a value. -/
  | ret (value : Word)
  deriving DecidableEq, Inhabited

namespace Eval

/-- Go through the rounds of a loop: a test, then the update, then the body. -/
def loop (test : Eval Bool) (update : Eval Unit) (body : Eval Completion) :
    (patience : Nat) → Eval Completion
  | 0 => throw .patience
  | patience + 1 => do
    if ← test then
      update
      match ← body with
      | .next | .again => loop test update body patience
      | .leave => return .next
      | .ret value => return .ret value
    else return .next

end Eval

section Statements

variable (c : Catalog) (apply : String → List Word → Eval Word)

/-- The test of a loop. A value that equals zero is false; a missing condition is true. -/
def Expr.test : Option Expr → Eval Bool
  | some e => do
    let value ← e.eval c.types apply
    return !(value == 0)
  | none => pure true

/-- An expression for its effect, if it is there. -/
def Expr.perform : Option Expr → Eval Unit
  | some e => do
    let _ ← e.eval c.types apply
    return ()
  | none => pure ()

/-- Declare a variable. -/
def VarDecl.exec (d : VarDecl) : Eval Unit := do
  let value ← Expr.evalOrZero c.types apply d.value?
  Eval.setVariable d.name.name value

/-- Start a counting loop. -/
def ForInit.exec : Option ForInit → Eval Unit
  | some (.declare decl) => decl.exec c apply
  | some (.evaluate e) => Expr.perform c apply (some e)
  | none => pure ()

/-- The arguments of the updater of a request to fire, with its number. -/
def FireStmt.attach : Option UpdaterClause → Eval (Option AttachedUpdater)
  | some clause => do
    let arguments ← Expr.evalAll c.types apply clause.arguments
    return some ⟨(c.bulletUpdaters.indexOf? clause.name.name).getD 0, arguments⟩
  | none => pure none

/-- Fire: the arguments come first, then those of the updater, and then the shot. -/
def FireStmt.exec (f : FireStmt) : Eval Unit := do
  let arguments ← Expr.evalAll c.types apply f.arguments
  let updater? ← FireStmt.attach c apply f.updater?
  Eval.note (.shot ⟨(c.firing.find? (f.typeName, f.functionName)).getD default, arguments,
    updater?⟩)

mutual

/-- What a statement does. -/
def Stmt.exec (patience : Nat) : Stmt → Eval Completion
  | .expr e _ => do Expr.perform c apply (some e); return .next
  | .var decl _ => do decl.exec c apply; return .next
  | .ref _ _ => return .next
  | .ret value? _ => do
    let value ← Expr.evalOrZero c.types apply value?
    return .ret value
  | .leaveLoop _ => return .leave
  | .continueLoop _ => return .again
  | .block body _ => execAll patience body
  | .ifThen condition yes _ => do
    if ← Expr.test c apply (some condition) then yes.exec patience else return .next
  | .ifElse condition yes no _ => do
    if ← Expr.test c apply (some condition) then yes.exec patience else no.exec patience
  | .whileLoop condition body _ =>
    Eval.loop (Expr.test c apply (some condition)) (pure ()) (body.exec patience) patience
  | .forLoop init? condition? update? body _ => do
    ForInit.exec c apply init?
    Eval.loop (Expr.test c apply condition?) (Expr.perform c apply update?) (body.exec patience)
      patience
  | .wait ticks _ => do
    let value ← ticks.eval c.types apply
    Eval.note (.wait value)
    return .next
  | .fire request => do request.exec c apply; return .next

/-- What several statements do in order, up to one that goes elsewhere. -/
def Stmt.execAll (patience : Nat) : List Stmt → Eval Completion
  | [] => return .next
  | stmt :: rest => do
    match ← stmt.exec patience with
    | .next => execAll patience rest
    | completion => return completion

end

end Statements

/-! ## Functions -/

/-- What a call of a function has for its value: what was returned, or zero if nothing was. -/
def Completion.value : Completion → Word
  | ret value => value
  | next | leave | again => 0

/-- The variables at the start of a call: the parameters have the arguments, all else is zero. -/
def bindArguments : (parameters : List String) → (arguments : List Word) → String → Word
  | parameter :: parameters, argument :: arguments, name =>
    if parameter = name then argument else bindArguments parameters arguments name
  | _, _, _ => 0

/-- Call a function, whose declaration `source` knows by its name. The body has variables of its
own; the caller finds its variables as they were. -/
def Catalog.apply (c : Catalog) (source : String → Decl) :
    (patience : Nat) → String → List Word → Eval Word
  | 0, _, _ => throw .patience
  | patience + 1, name, arguments => fun w =>
    let start := { w with values := bindArguments (source name).parameters arguments }
    match Stmt.execAll c (c.apply source patience) patience (source name).body start with
    | .ok completion w' => .ok completion.value { w' with values := w.values }
    | .error halt w' => .error halt w'

end Danmaku
