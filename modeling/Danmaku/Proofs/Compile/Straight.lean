import Danmaku.Proofs.Compile.Success

/-!
# Code without open jumps

Only the jumps out of a loop and back to its start are left open, and the loop closes them. So what
a statement outside of any loop is compiled to is a list of instructions (`Stmt.straight_emit`),
also where compilation stops.
-/

namespace Danmaku

/-- Nothing is left open in what is emitted. -/
def Emitted.Straight (e : Emitted) : Prop := ∃ code, e.code = .ofInstrs code

namespace Emitted

variable {code : Except CompileError (List Instr)} {rest : List Instr} {s : ScopeStack}

theorem straight_complete (code : List Instr) (s : ScopeStack) : (complete code s).Straight :=
  ⟨code, rfl⟩

theorem straight_failed (error : CompileError) (s : ScopeStack) : (failed error s).Straight :=
  ⟨[], rfl⟩

theorem straight_ofExcept : (ofExcept code rest s).Straight := by
  cases code with
  | ok code => exact straight_complete _ _
  | error e => exact straight_failed _ _

theorem Straight.after {e : Emitted} (h : e.Straight) (before : List Instr) :
    (e.after (.ofInstrs before)).Straight := by
  obtain ⟨code, h⟩ := h
  exact ⟨before ++ code, by rw [Emitted.after, h, Fragment.ofInstrs_append]⟩

end Emitted

variable {c : Catalog} {s : ScopeStack}

theorem VarDecl.straight_emit (d : VarDecl) : (d.emit c s).Straight := by
  rw [emit]
  cases s.declareNumber d.name.name d.name.position with
  | error e => exact Emitted.straight_failed _ _
  | ok x => exact Emitted.straight_ofExcept

theorem ForInit.straight_emit (init? : Option ForInit) : (ForInit.emit c init? s).Straight := by
  cases init? with
  | none => exact Emitted.straight_complete _ _
  | some init =>
    cases init with
    | declare decl => exact decl.straight_emit
    | evaluate e => exact Emitted.straight_ofExcept

theorem FireStmt.straight_emit (f : FireStmt) : (f.emit c s).Straight := by
  rw [emit]
  split
  · exact Emitted.straight_failed _ _
  · split
    · exact Emitted.straight_ofExcept
    · split
      · exact Emitted.straight_failed _ _
      · split
        · exact Emitted.straight_failed _ _
        · exact Emitted.straight_ofExcept.after _

theorem Fragment.close_eq (f : Fragment) (exit next : Nat) :
    f.close exit next = ofInstrs (f.instrs exit next) := by
  rw [close, ofInstrs, instrs, List.map_map]
  refine List.map_congr_left fun item _ => ?_
  cases item <;> rfl

namespace Emitted

variable {e : Emitted} {a : Nat} {yes no body next : Nat → ScopeStack → Emitted} {condition : Expr}
  {condition? update? : Option Expr}

theorem Straight.andThen (h : e.Straight) (hnext : ∀ a s, (next a s).Straight) :
    (e.andThen a next).Straight := by
  rw [Emitted.andThen]
  split
  · exact h
  · obtain ⟨code, hcode⟩ := h
    rw [hcode]
    exact (hnext _ _).after code

theorem straight_emitIf (hyes : ∀ a s, (yes a s).Straight) :
    (emitIf c condition yes a s).Straight := by
  rw [emitIf]
  split
  · exact straight_failed _ _
  · exact (hyes _ _).after _

theorem straight_emitIfElse (hyes : ∀ a s, (yes a s).Straight) (hno : ∀ a s, (no a s).Straight) :
    (emitIfElse c condition yes no a s).Straight := by
  rw [emitIfElse]
  split
  · exact straight_failed _ _
  · next test _ =>
    obtain ⟨code, hcode⟩ := hyes (a + Instr.sizeOf test + (Instr.branchIfZero 0).size) s
    simp only [hcode, ← Fragment.ofInstrs_append]
    split
    · exact (hyes _ _).after _
    · exact (hno _ _).after _

/-- What is open in the body of a loop is closed by the loop. -/
theorem straight_emitLoop : (emitLoop c condition? update? body a s).Straight := by
  rw [emitLoop]
  split
  · exact straight_failed _ _
  · split
    · exact ⟨_, rfl⟩
    · simp only [Fragment.close_eq, ← Fragment.ofInstrs_append]
      split <;> exact ⟨_, rfl⟩

end Emitted

namespace Stmt

open Emitted

mutual

/-- Outside of a loop nothing is left open. -/
theorem straight_emit : (stmt : Stmt) → (a : Nat) → (s : ScopeStack) →
    (stmt.emit c false a s).Straight
  | expr _ _, _, _ => straight_ofExcept
  | var decl _, _, _ => decl.straight_emit
  | ref _ _, _, _ => by
    rw [emit]
    split
    · exact straight_failed _ _
    · exact straight_complete _ _
  | ret _ _, _, _ => straight_ofExcept
  | leaveLoop _, _, s => straight_failed _ s
  | continueLoop _, _, s => straight_failed _ s
  | block body _, a, s => straight_emitAll body a s
  | ifThen _ yes _, _, _ => straight_emitIf yes.straight_emit
  | ifElse _ yes no _, _, _ => straight_emitIfElse yes.straight_emit no.straight_emit
  | whileLoop _ _ _, _, _ => straight_emitLoop
  | forLoop init? _ _ _ _, _, _ =>
    (ForInit.straight_emit init?).andThen fun _ _ => straight_emitLoop
  | wait _ _, _, _ => straight_ofExcept
  | fire request, _, _ => request.straight_emit

theorem straight_emitAll : (stmts : List Stmt) → (a : Nat) → (s : ScopeStack) →
    (emitAll c false stmts a s).Straight
  | [], _, s => straight_complete [] s
  | stmt :: rest, a, s => (stmt.straight_emit a s).andThen (straight_emitAll rest)

end

end Stmt

end Danmaku
