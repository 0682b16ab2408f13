import Danmaku.Compile.Expr

/-!
# Fragments of code

While a loop is compiled, the jumps out of it and back to its start have no target yet. A fragment
is code in which such jumps stand open, as items of their own. `Fragment.close` gives them their
targets once the loop is complete. In words an open jump looks like a jump to zero, which is how it
is seen if compilation stops before the loop is complete.
-/

namespace Danmaku

/-- An instruction, or an open jump of the innermost loop. -/
inductive Item
  /-- A complete instruction. -/
  | instr (i : Instr)
  /-- A jump to the end of the loop. -/
  | leave
  /-- A jump to the point at which the loop goes on. -/
  | again
  deriving DecidableEq, Inhabited

namespace Item

/-- How many words the item takes. -/
def size : Item → Nat
  | instr i => i.size
  | leave | again => (Instr.jump 0).size

/-- The item as words. -/
def words : Item → List Word
  | instr i => i.words
  | leave | again => (Instr.jump 0).words

/-- The item with the targets of a loop. -/
def close (exit next : Nat) : Item → Item
  | leave => instr (.jump exit)
  | again => instr (.jump next)
  | instr i => instr i

end Item

/-- Code with open jumps. -/
abbrev Fragment := List Item

namespace Fragment

/-- Complete instructions as a fragment. -/
def ofInstrs (code : List Instr) : Fragment := code.map .instr

/-- How many words the fragment takes. -/
def size : Fragment → Nat
  | [] => 0
  | item :: rest => item.size + size rest

/-- The fragment as words. -/
def words (f : Fragment) : List Word := f.flatMap Item.words

/-- The fragment with its open jumps closed. -/
def close (f : Fragment) (exit next : Nat) : Fragment := f.map (Item.close exit next)

/-- The operands of the open jumps, for a fragment that stands at an address, after those that a
loop has noted already. -/
def openJumps (f : Fragment) (address : Nat) (jumps : LoopJumps) : LoopJumps :=
  match f with
  | [] => jumps
  | .instr i :: rest => openJumps rest (address + i.size) jumps
  | .leave :: rest => openJumps rest (address + Item.leave.size) (jumps.addBreak (address + 1))
  | .again :: rest => openJumps rest (address + Item.again.size) (jumps.addContinue (address + 1))

end Fragment

/-- What compiling a statement yields: code, the scopes with the names that it declared, and an
error if it could not be completed. Code and names then are those from before the error. -/
structure Emitted where
  /-- The code. -/
  code : Fragment
  /-- The scopes after it. -/
  scopes : ScopeStack
  /-- What was wrong, if anything. -/
  error? : Option CompileError := none

namespace Emitted

/-- Complete code, after which nothing is declared that was not before. -/
def complete (code : List Instr) (scopes : ScopeStack) : Emitted := ⟨.ofInstrs code, scopes, none⟩

/-- No code at all. -/
def failed (error : CompileError) (scopes : ScopeStack) : Emitted := ⟨[], scopes, some error⟩

/-- The code of an expression, if it has any, with something after it. -/
def ofExcept (code : Except CompileError (List Instr)) (after : List Instr)
    (scopes : ScopeStack) : Emitted :=
  match code with
  | .ok code => complete (code ++ after) scopes
  | .error error => failed error scopes

/-- Code with something before it. -/
def after (before : Fragment) (e : Emitted) : Emitted := { e with code := before ++ e.code }

/-- Go on after some code that stands at an address, unless it could not be completed. -/
def andThen (e : Emitted) (address : Nat) (next : Nat → ScopeStack → Emitted) : Emitted :=
  match e.error? with
  | some _ => e
  | none => (next (address + e.code.size) e.scopes).after e.code

end Emitted

end Danmaku
