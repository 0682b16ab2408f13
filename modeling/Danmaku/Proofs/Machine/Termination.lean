import Danmaku.Proofs.Machine.Trace

/-!
# Ticks come to an end

Nothing in the loop of a tick bounds it: jumps lead back, calls open calls, and a function that runs
off the end of its code is left without a charge to the budget. `Program.Loops` is the loop as it
stands, with the configurations in which it takes a step. It goes on until it is cut off or takes a
step that is its last, so what `Program.Loops` holds of has an end.

In a loop the budget bounds the instructions (`Program.Loops.instrs_le`), and each call that is left
at the end of its code was open before or was opened by one of them (`Program.Loops.closings_le`).
So a tick with a budget ends, whatever code runs, and its steps of either kind are bounded
(`Program.ticks_of_budget`).
-/

namespace Danmaku

namespace Program

/-- Whether the next step leaves a call at the end of its code. -/
def isAtEnd (p : Program) (t : Thread) : Bool :=
  match p.running t with
  | .ok code => decide (code.size ≤ t.ip) && !t.frames.isEmpty
  | .error _ => false

/-- The loop of a tick, so many instructions having been executed before. It has the configurations
in which a step is taken, and what the loop comes to. -/
inductive Loops (p : Program) : Nat → Config → List Config → TickResult → Config → Prop
  /-- An instruction is next, and the budget is used up. -/
  | cut {spent budget : Nat} {c : Config} (stands : p.isAtInstr c.thread = true)
      (used : c.thread.limits.exhausted? spent = some budget) :
      Loops p spent c [] (.error (.budgetExceeded budget)) c
  /-- The step faults, or stops the tick. -/
  | last {spent : Nat} {c c' : Config} {result : TickResult} (allowed : p.Allows spent c)
      (ends : ending? (p.step c) = some (result, c')) : Loops p spent c [c] result c'
  /-- The tick goes on after the step. -/
  | next {spent : Nat} {c c₁ c' : Config} {steps : List Config} {result : TickResult}
      (allowed : p.Allows spent c) (goes : p.step c = .ok .next c₁)
      (rest : Loops p (spent + (p.atInstr c).length) c₁ steps result c') :
      Loops p spent c (c :: steps) result c'

/-- A tick, with the configurations in which it takes a step, and what it comes to. -/
inductive Ticks (p : Program) (c : Config) : List Config → TickResult → Config → Prop
  /-- The thread has come to its end before. -/
  | finished (mode : c.thread.mode = .finished) : Ticks p c [] (.ok .completed) c
  /-- The thread waits on. -/
  | waits {ticks : Nat} (mode : c.thread.mode = .waiting (ticks + 2)) :
      Ticks p c [] (.ok .suspended)
        { c with thread := { c.thread with mode := .waiting (ticks + 1) } }
  /-- The thread does not wait, or has waited long enough. -/
  | runs {steps : List Config} {result : TickResult} {c' : Config}
      (mode : c.thread.mode = .ready ∨ ∃ ticks ≤ 1, c.thread.mode = .waiting ticks)
      (loop : p.Loops 0 { c with thread := { c.thread with mode := .ready } } steps result c') :
      Ticks p c steps result c'

variable {p : Program} {c c' : Config} {fuel spent budget patience : Nat} {steps : List Config}
  {result : TickResult}

/-! ## Steps of either kind -/

theorem isAtInstr_of_isAtEnd (h : p.isAtEnd c.thread = true) :
    p.isAtInstr c.thread = false ∧ 0 < c.thread.frames.length := by
  unfold isAtEnd at h
  unfold isAtInstr
  cases hrun : p.running c.thread with
  | error f => rw [hrun] at h; cases h
  | ok code =>
    rw [hrun] at h
    obtain ⟨hend, hopen⟩ := Bool.and_eq_true_iff.1 h
    refine ⟨decide_eq_false (Nat.not_lt.2 (of_decide_eq_true hend)), ?_⟩
    rw [Bool.not_eq_true', List.isEmpty_eq_false_iff] at hopen
    exact List.length_pos_iff.2 hopen

/-! ## The loop as a run -/

/-- A run that has come to a result has gone through the loop. -/
theorem loops_of_run (h : p.run fuel spent c = some (result, c')) :
    ∃ steps, p.Loops spent c steps result c' := by
  induction fuel generalizing spent c with
  | zero => cases h
  | succ fuel ih =>
    rcases p.cut_or_allows spent c with ⟨hat, budget, hused⟩ | hallows
    · rw [(run_cut fuel hat hused).1] at h
      obtain ⟨rfl, rfl⟩ := Prod.mk.inj (Option.some.inj h)
      exact ⟨[], .cut hat hused⟩
    · rcases next_or_ending (p.step c) with ⟨c₁, hs⟩ | ⟨⟨result', c₁⟩, hs⟩
      · rw [run_on hallows hs] at h
        obtain ⟨steps, hloop⟩ := ih h
        exact ⟨c :: steps, .next hallows hs hloop⟩
      · rw [run_last hallows hs] at h
        obtain ⟨rfl, rfl⟩ := Prod.mk.inj (Option.some.inj h)
        exact ⟨[c], .last hallows hs⟩

namespace Loops

/-- A run that may take enough steps goes through the loop. -/
theorem run (h : p.Loops spent c steps result c') (hfuel : steps.length < fuel) :
    p.run fuel spent c = some (result, c') := by
  induction h generalizing fuel with
  | cut stands used =>
    obtain ⟨fuel, rfl⟩ := Nat.exists_eq_succ_of_ne_zero (Nat.ne_of_gt hfuel)
    exact (run_cut fuel stands used).1
  | last allowed ends =>
    obtain ⟨fuel, rfl⟩ := Nat.exists_eq_succ_of_ne_zero (Nat.ne_of_gt (Nat.zero_lt_of_lt hfuel))
    exact run_last allowed ends
  | next allowed goes rest ih =>
    obtain ⟨fuel, rfl⟩ := Nat.exists_eq_succ_of_ne_zero (Nat.ne_of_gt (Nat.zero_lt_of_lt hfuel))
    rw [run_on allowed goes]
    exact ih (Nat.lt_of_succ_lt_succ hfuel)

/-- **The budget bounds the instructions of a loop.** -/
theorem instrs_le (h : p.Loops spent c steps result c')
    (hbudget : c.thread.limits.budget = some budget) :
    steps.countP (fun x => p.isAtInstr x.thread) ≤ budget - spent := by
  induction h with
  | cut _ _ => exact Nat.zero_le _
  | @last spent c c' result allowed ends =>
    rw [List.countP_singleton]
    split
    · next hat =>
      have hlt := allowed.lt hbudget hat
      omega
    · exact Nat.zero_le _
  | @next spent c c₁ c' steps result allowed goes rest ih =>
    have hrest := ih ((step_next goes).1 ▸ hbudget)
    rw [List.countP_cons]
    rw [atInstr] at hrest
    split
    · next hat =>
      have hlt := allowed.lt hbudget hat
      rw [if_pos hat, List.length_singleton] at hrest
      omega
    · next hat =>
      rw [if_neg hat, List.length_nil] at hrest
      omega

/-- **Each call that is left at the end of its code was open before the loop, or an instruction of
the loop has opened it.** This does not need a budget. -/
theorem closings_le (h : p.Loops spent c steps result c') :
    steps.countP (fun x => p.isAtEnd x.thread) ≤
      steps.countP (fun x => p.isAtInstr x.thread) + c.thread.frames.length := by
  induction h with
  | cut _ _ => exact Nat.zero_le _
  | @last spent c c' result allowed ends =>
    rw [List.countP_singleton]
    split
    · next hend =>
      have hopen := (isAtInstr_of_isAtEnd hend).2
      omega
    · exact Nat.zero_le _
  | @next spent c c₁ c' steps result allowed goes rest ih =>
    obtain ⟨-, hopens, hcloses⟩ := step_next goes
    rw [List.countP_cons, List.countP_cons]
    by_cases hend : p.isAtEnd c.thread = true
    · have hclosed := hcloses (isAtInstr_of_isAtEnd hend).1
      rw [if_pos hend]
      omega
    · rw [if_neg hend]
      cases hat : p.isAtInstr c.thread with
      | true =>
        rw [if_pos rfl]
        omega
      | false =>
        have hclosed := hcloses hat
        omega

end Loops

/-! ## Ticks -/

/-- A tick that has come to a result is one of `Ticks`. -/
theorem ticks_of_tick (h : p.tick patience c = some (result, c')) :
    ∃ steps, p.Ticks c steps result c' := by
  rw [tick] at h
  split at h
  · next hmode =>
    obtain ⟨rfl, rfl⟩ := Prod.mk.inj (Option.some.inj h)
    exact ⟨[], .finished hmode⟩
  · next ticks hmode =>
    obtain ⟨rfl, rfl⟩ := Prod.mk.inj (Option.some.inj h)
    exact ⟨[], .waits hmode⟩
  · next ticks hlong hmode =>
    obtain ⟨steps, hloop⟩ := loops_of_run h
    refine ⟨steps, .runs (.inr ⟨ticks, ?_, hmode⟩) hloop⟩
    by_contra hmore
    exact hlong (ticks - 2) (by omega)
  · next hmode =>
    obtain ⟨steps, hloop⟩ := loops_of_run h
    exact ⟨steps, .runs (.inl hmode) hloop⟩

/-- A tick that runs is not cut short by the steps that it is given, if it has a budget. -/
theorem Loops.resume (hbudget : c.thread.limits.budget = some budget) (patience : Nat)
    (h : p.Loops 0 { c with thread := { c.thread with mode := .ready } } steps result c') :
    p.resume patience c = some (result, c') := by
  obtain ⟨result', c₁, hrun⟩ : ∃ result' c₁, p.resume patience c = some (result', c₁) :=
    run_of_budget hbudget (by simp only [fuel, hbudget]; omega)
  have hmore := run_of_le (Nat.le_max_left (fuel patience c.thread) (steps.length + 1)) hrun
  rw [h.run (by omega)] at hmore
  rw [hrun, ← hmore]

theorem Ticks.tick (hbudget : c.thread.limits.budget = some budget) (patience : Nat)
    (h : p.Ticks c steps result c') : p.tick patience c = some (result, c') := by
  cases h with
  | finished mode => rw [Program.tick, mode]
  | waits mode => rw [Program.tick, mode]
  | runs mode loop =>
    have hresume := loop.resume hbudget patience
    obtain hmode | ⟨ticks, hle, hmode⟩ := mode
    · rw [Program.tick, hmode]
      exact hresume
    · -- A count of nothing and a count of one are waited for alike.
      obtain rfl | rfl : ticks = 0 ∨ ticks = 1 := by omega
      · rw [Program.tick, hmode]
        exact hresume
      · rw [Program.tick, hmode]
        exact hresume

/-- **Every tick with a budget comes to an end**, whatever the words of the code, the functions of
the catalog and the configuration are. However it ends, it has executed no more instructions than
the budget allows, and has left no more calls at the end of their code than there were open when it
began and instructions in the budget. -/
theorem ticks_of_budget (p : Program) {c : Config} {budget : Nat}
    (hbudget : c.thread.limits.budget = some budget) :
    (∃ steps result c', p.Ticks c steps result c') ∧
      ∀ steps result c', p.Ticks c steps result c' →
        (∀ patience, p.tick patience c = some (result, c')) ∧
        steps.countP (fun x => p.isAtInstr x.thread) ≤ budget ∧
        steps.countP (fun x => p.isAtEnd x.thread) ≤ budget + c.thread.frames.length := by
  refine ⟨?_, ?_⟩
  · obtain ⟨result, c', htick⟩ := p.tick_of_budget 0 hbudget
    obtain ⟨steps, hticks⟩ := ticks_of_tick htick
    exact ⟨steps, result, c', hticks⟩
  · intro steps result c' hticks
    refine ⟨fun patience => hticks.tick hbudget patience, ?_⟩
    cases hticks with
    | finished mode => exact ⟨Nat.zero_le _, Nat.zero_le _⟩
    | waits mode => exact ⟨Nat.zero_le _, Nat.zero_le _⟩
    | runs mode loop =>
      have hinstrs := loop.instrs_le hbudget
      have hclosings := loop.closings_le
      exact ⟨hinstrs, hclosings.trans (Nat.add_le_add_right hinstrs _)⟩

end Program

end Danmaku
