import Danmaku.Routine
import Danmaku.Syntax

/-!
# The scopes being compiled

While a body is compiled, the routine that it becomes stands on top of a stack, and names are
declared in it and looked up in it. What lies below is not looked at.
-/

namespace Danmaku

/-- The routines under way, the innermost first. -/
abbrev ScopeStack := List Routine

namespace ScopeStack

/-- The innermost routine. -/
def current (s : ScopeStack) : Except CompileError Routine :=
  match s with
  | [] => .error .noScope
  | r :: _ => .ok r

/-- The innermost routine, and the stack without it. -/
def leave (s : ScopeStack) : Except CompileError (Routine × ScopeStack) :=
  match s with
  | [] => .error .noScope
  | r :: below => .ok (r, below)

/-- The slot of a numerical variable. -/
def numberSlot (s : ScopeStack) (name : String) (position : Position) :
    Except CompileError Nat :=
  match s with
  | [] => .error .noScope
  | r :: _ =>
    match r.numberSlot? name with
    | some slot => .ok slot
    | none =>
      if (r.handleSlot? name).isSome then .error (.notNumerical name position)
      else .error (.unknownVariable name position)

/-- Declare a numerical variable in the innermost routine. The result has its slot. -/
def declareNumber (s : ScopeStack) (name : String) (position : Position) :
    Except CompileError (ScopeStack × Nat) :=
  match s with
  | [] => .error .noScope
  | r :: below => (r.declareNumber name position).map fun (r, slot) => (r :: below, slot)

/-- Declare an entity reference in the innermost routine. The result has its slot. -/
def declareHandle (s : ScopeStack) (name : String) (position : Position) :
    Except CompileError (ScopeStack × Nat) :=
  match s with
  | [] => .error .noScope
  | r :: below => (r.declareHandle name position).map fun (r, slot) => (r :: below, slot)

end ScopeStack

end Danmaku
