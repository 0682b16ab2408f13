import Danmaku.Error.Registration
import Danmaku.Position

/-!
# Errors of compilation

What can be wrong with a script. Every error but one knows where in the script it arose.
-/

namespace Danmaku

/-- The reasons for which a piece of a script has no code. -/
inductive CompileError
  /-- The name is declared in the same scope already. -/
  | redeclared (name : String) (position : Position)
  /-- No variable of that name is declared. -/
  | unknownVariable (name : String) (position : Position)
  /-- No entity type has a property of that name. -/
  | unknownProperty (name : String) (position : Position)
  /-- Neither a function nor a delegate has that name. -/
  | unknownFunction (name : String) (position : Position)
  /-- The entity type has no firing function of that name. -/
  | unknownFiring (typeName function : String) (position : Position)
  /-- No bullet updater has that name. -/
  | unknownUpdater (name : String) (position : Position)
  /-- Too many or too few arguments are passed. -/
  | argumentCount (kind name : String) (expected found : Nat) (position : Position)
  /-- The name stands for an entity, where a number is wanted. -/
  | notNumerical (name : String) (position : Position)
  /-- The target of an assignment is neither a variable nor a property. -/
  | notAssignable (position : Position)
  /-- A `break` stands outside every loop. -/
  | breakOutsideLoop (position : Position)
  /-- A `continue` stands outside every loop. -/
  | continueOutsideLoop (position : Position)
  /-- A routine of that kind and name exists. -/
  | duplicateDeclaration (kind name : String) (position : Position)
  /-- Nothing is being compiled, so that no name can be looked up or declared. -/
  | noScope
  /-- The catalog refused the routine. -/
  | registration (source : RegistrationError) (position : Position)
  deriving DecidableEq, Repr

namespace CompileError

/-- Where the error arose. -/
def position : CompileError → Position
  | redeclared _ p | unknownVariable _ p | unknownProperty _ p | unknownFunction _ p
  | unknownFiring _ _ p | unknownUpdater _ p | argumentCount _ _ _ _ p | notNumerical _ p
  | notAssignable p | breakOutsideLoop p | continueOutsideLoop p | duplicateDeclaration _ _ p
  | registration _ p => p
  | noScope => .nowhere

/-- What the error is about. -/
def category : CompileError → Category
  | redeclared _ _ | duplicateDeclaration _ _ _ => .declaration
  | unknownVariable _ _ | unknownProperty _ _ | unknownFunction _ _ | unknownFiring _ _ _
  | unknownUpdater _ _ => .lookup
  | argumentCount _ _ _ _ _ => .arity
  | notNumerical _ _ | notAssignable _ => .type
  | breakOutsideLoop _ | continueOutsideLoop _ | noScope => .controlFlow
  | registration source _ => source.category

/-- The wording of the error, without its position. -/
def reason : CompileError → String
  | redeclared name _ => s!"variable '{name}' is already declared in this scope"
  | unknownVariable name _ => s!"unknown variable '{name}'"
  | unknownProperty name _ => s!"unknown property '{name}'"
  | unknownFunction name _ => s!"unknown function '{name}'"
  | unknownFiring typeName function _ =>
    s!"no firing function '{function}' registered for type '{typeName}'"
  | unknownUpdater name _ => s!"unknown updater '{name}'"
  | argumentCount kind name expected found _ =>
    s!"{kind} '{name}' expects {expected} argument(s), got {found}"
  | notNumerical name _ => s!"'{name}' is an entity reference, not a numerical variable"
  | notAssignable _ => "expression is not assignable"
  | breakOutsideLoop _ => "break statement not inside a loop"
  | continueOutsideLoop _ => "continue statement not inside a loop"
  | duplicateDeclaration kind name _ => s!"{kind} '{name}' is already declared"
  | noScope => "no code scope is active"
  | registration source _ => source.message

/-- The wording of the error, after its position where it has one. -/
def message : CompileError → String
  | noScope => noScope.reason
  | e => s!"at {e.position.text}: {e.reason}"

end CompileError

end Danmaku
