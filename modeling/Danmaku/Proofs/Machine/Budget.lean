import Danmaku.Proofs.Machine.Hosting

/-!
# Ticks within a budget

A step executes an instruction, which the budget counts and which opens one call at most, or closes
a call, or is the last of its tick. So a tick of a thread that has a budget comes to a result within
the steps that it is given (`Program.tick_of_budget`), whatever code runs. More steps do not change
the result (`Program.run_of_le`).
-/

namespace Danmaku

namespace Program

variable {p : Program} {c c' : Config} {budget fuel spent : Nat}

/-- A step after which the tick goes on keeps the limits, and opens one call at most. At the end of
code it closes one. -/
theorem step_next (h : p.step c = .ok .next c') :
    c'.thread.limits = c.thread.limits ∧
      c'.thread.frames.length ≤ c.thread.frames.length + 1 ∧
      (p.isAtInstr c.thread = false → c'.thread.frames.length + 1 = c.thread.frames.length) := by
  refine ⟨?_, ?_, fun hend => ?_⟩
  · cases (h ▸ p.outcome c : p.Outcome c.thread (.ok .next c')) with
    | moves quiet => exact quiet.limits
    | writes quiet slot_eq eq => rw [eq]; exact quiet.limits
    | enters quiet _ _ _ _ _ eq => rw [eq]; exact quiet.limits
    | leaves frames_eq quiet => exact quiet.limits
  · cases (h ▸ p.outcome c : p.Outcome c.thread (.ok .next c')) with
    | moves quiet => rw [quiet.frames]; omega
    | writes quiet slot_eq eq => rw [eq, Thread.store, quiet.frames]; omega
    | enters quiet _ _ _ _ _ eq => rw [eq, Thread.enter, List.length_cons, quiet.frames]
    | leaves frames_eq quiet => simp only [quiet.frames, frames_eq, List.length_cons]; omega
  · obtain ⟨code, hrun, ⟨hlt, -⟩ | ⟨-, hfall⟩⟩ := step_eq_ok h
    · simp only [isAtInstr, hrun, hlt, decide_true, Bool.true_eq_false] at hend
    · obtain ⟨-, hflow, -⟩ | ⟨-, hleave⟩ := fallOff_eq_ok hfall
      · cases hflow
      · obtain ⟨F, frames, hframes, -, rfl⟩ := Exec.leaveCall_eq_ok.1 hleave
        rw [hframes]
        rfl

/-- Twice the instructions that the budget has left, and the calls that are open, bound the steps of
a tick. -/
theorem run_of_budget (hbudget : c.thread.limits.budget = some budget)
    (hfuel : 2 * (budget - spent) + c.thread.frames.length < fuel) :
    ∃ result c', p.run fuel spent c = some (result, c') := by
  induction fuel generalizing spent c with
  | zero => omega
  | succ fuel ih =>
    rw [run]
    simp only [Limits.exhausted?, hbudget]
    cases hat : p.isAtInstr c.thread with
    | true =>
      simp only [if_true]
      split
      · exact ⟨_, _, rfl⟩
      · next hleft =>
        have hlt : spent < budget := by
          by_contra hge
          rw [if_pos (by omega)] at hleft
          cases hleft
        split
        · exact ⟨_, _, rfl⟩
        · exact ⟨_, _, rfl⟩
        · next c₁ hstep =>
          obtain ⟨hlimits, hframes, -⟩ := step_next hstep
          exact ih (hlimits ▸ hbudget) (by omega)
    | false =>
      simp only [Bool.false_eq_true, if_false]
      split
      · exact ⟨_, _, rfl⟩
      · exact ⟨_, _, rfl⟩
      · next c₁ hstep =>
        obtain ⟨hlimits, -, hframes⟩ := step_next hstep
        have hclosed := hframes hat
        exact ih (hlimits ▸ hbudget) (by omega)

/-- More steps than a run needs do no harm. -/
theorem run_of_le {result : TickResult × Config} {fuel' : Nat} (hle : fuel ≤ fuel')
    (h : p.run fuel spent c = some result) : p.run fuel' spent c = some result := by
  induction fuel generalizing fuel' spent c with
  | zero => cases h
  | succ fuel ih =>
    obtain ⟨fuel', rfl⟩ : ∃ n, fuel' = n + 1 := ⟨fuel' - 1, by omega⟩
    rw [run] at h ⊢
    split at h
    · exact h
    · split at h
      · exact h
      · exact h
      · exact ih (by omega) h

/-- **A tick within a budget comes to a result.** -/
theorem tick_of_budget (p : Program) (patience : Nat)
    (hbudget : c.thread.limits.budget = some budget) :
    ∃ result c', p.tick patience c = some (result, c') := by
  have hresume : ∃ result c', p.resume patience c = some (result, c') :=
    run_of_budget hbudget (by simp only [fuel, hbudget]; omega)
  rw [tick]
  split
  · exact ⟨_, _, rfl⟩
  · exact ⟨_, _, rfl⟩
  · exact hresume
  · exact hresume

end Program

/-- So does a tick of a routine of a catalog. -/
theorem Catalog.tick_of_budget {c : Config} {budget : Nat} (K : Catalog) (kind : RoutineKind)
    (index : Nat) (looping : Bool) (patience : Nat)
    (hbudget : c.thread.limits.budget = some budget) :
    ∃ result c', K.tick kind index looping patience c = some (result, c') := by
  rw [tick]
  split
  · exact ⟨_, _, rfl⟩
  · next r _ =>
    cases ht : c.thread.reserve r.variableCount with
    | error f => exact ⟨_, _, rfl⟩
    | ok t =>
      have hkept : t.limits.budget = some budget := by
        obtain ⟨-, rfl⟩ := Thread.reserve_eq_ok.1 ht
        exact hbudget
      exact Program.tick_of_budget _ patience hkept

end Danmaku
