import Danmaku.Proofs.Machine.Budget

/-!
# The instructions of a run

A run is a sequence of steps, after each of which but the last the tick goes on. `Program.Executes`
is such a sequence, together with the configurations in which it executes an instruction, and
`Program.trace` is what a tick executes. A run without a budget goes through what is executed first
(`Program.Executes.run_add`).
-/

namespace Danmaku

namespace Program

variable {p : Program} {budget fuel spent : Nat} {c c' c₁ : Config} {done done' : List Config}
  {result : TickResult}

/-- The configuration, if the next step executes an instruction. -/
def atInstr (p : Program) (c : Config) : List Config := if p.isAtInstr c.thread then [c] else []

/-- The configurations in which a run executes an instruction, in order. -/
def trace (p : Program) : (fuel spent : Nat) → Config → List Config
  | 0, _, _ => []
  | fuel + 1, spent, c =>
    match if p.isAtInstr c.thread then c.thread.limits.exhausted? spent else none with
    | some _ => []
    | none =>
      p.atInstr c ++
        match p.step c with
        | .ok .next c' => p.trace fuel (spent + (p.atInstr c).length) c'
        | _ => []

/-- The configurations in which a tick of a thread that does not wait executes an instruction. -/
def executed (p : Program) (patience : Nat) (c : Config) : List Config :=
  p.trace (Program.fuel patience c.thread) 0 { c with thread := { c.thread with mode := .ready } }

/-- Steps after each of which the tick goes on, with the configurations in which an instruction is
executed. The other steps close calls at the ends of their code. -/
inductive Executes (p : Program) : Config → List Config → Config → Prop
  | refl (c : Config) : Executes p c [] c
  | step {c c₁ c' : Config} {done : List Config} (first : p.step c = .ok .next c₁)
      (rest : Executes p c₁ done c') : Executes p c (p.atInstr c ++ done) c'

/-- What a run comes to with a step, if it is the last. -/
def ending? : EStateM.Result Fault Config Flow → Option (TickResult × Config)
  | .error fault c => some (.error fault, c)
  | .ok (.stop status) c => some (.ok status, c)
  | .ok .next _ => none

/-- A run goes on after a step, or ends with it. -/
theorem next_or_ending (r : EStateM.Result Fault Config Flow) :
    (∃ c, r = .ok .next c) ∨ ∃ x, ending? r = some x := by
  cases r with
  | error fault c => exact .inr ⟨_, rfl⟩
  | ok flow c =>
    cases flow with
    | next => exact .inl ⟨c, rfl⟩
    | stop status => exact .inr ⟨_, rfl⟩

/-- The budget allows another step: it executes no instruction, or one is left. -/
def Allows (p : Program) (spent : Nat) (c : Config) : Prop :=
  p.isAtInstr c.thread = true → c.thread.limits.exhausted? spent = none

theorem allows_of_none (h : c.thread.limits.budget = none) : p.Allows spent c := by
  intro _
  rw [Limits.exhausted?, h]

/-- A step that the budget allows at an instruction is within the budget. -/
theorem Allows.lt (h : p.Allows spent c) (hbudget : c.thread.limits.budget = some budget)
    (hat : p.isAtInstr c.thread = true) : spent < budget := by
  have hleft := h hat
  simp only [Limits.exhausted?, hbudget] at hleft
  split at hleft
  · cases hleft
  · next hlt => exact Nat.not_le.1 hlt

/-- So the instructions of a tick can be counted in 32 bits, if the budget is a number of 32
bits. -/
theorem Allows.succ_lt (h : p.Allows spent c) (hbudget : c.thread.limits.budget = some budget)
    (hsmall : budget < 2 ^ 32) (hat : p.isAtInstr c.thread = true) : spent + 1 < 2 ^ 32 :=
  (Nat.succ_le_of_lt (h.lt hbudget hat)).trans_lt hsmall

theorem Allows.eq_none (h : p.Allows spent c) :
    (if p.isAtInstr c.thread = true then c.thread.limits.exhausted? spent else none) = none := by
  split
  · next hat => exact h hat
  · rfl

theorem run_on (h : p.Allows spent c) (hs : p.step c = .ok .next c₁) :
    p.run (fuel + 1) spent c = p.run fuel (spent + (p.atInstr c).length) c₁ := by
  rw [run, h.eq_none, hs, atInstr]
  cases p.isAtInstr c.thread <;> rfl

theorem run_last (h : p.Allows spent c) (hs : ending? (p.step c) = some (result, c')) :
    p.run (fuel + 1) spent c = some (result, c') := by
  rw [run, h.eq_none]
  cases hstep : p.step c with
  | error fault c₁ =>
    rw [hstep] at hs
    simpa only [ending?] using hs
  | ok flow c₁ =>
    rw [hstep] at hs
    cases flow with
    | next => cases hs
    | stop status => simpa only [ending?] using hs

theorem trace_on (h : p.Allows spent c) (hs : p.step c = .ok .next c₁) :
    p.trace (fuel + 1) spent c =
      p.atInstr c ++ p.trace fuel (spent + (p.atInstr c).length) c₁ := by
  rw [trace, h.eq_none, hs]

theorem trace_last (h : p.Allows spent c) (hs : ending? (p.step c) = some (result, c')) :
    p.trace (fuel + 1) spent c = p.atInstr c := by
  rw [trace, h.eq_none]
  cases hstep : p.step c with
  | error fault c₁ => exact List.append_nil _
  | ok flow c₁ =>
    cases flow with
    | next =>
      rw [hstep] at hs
      cases hs
    | stop status => exact List.append_nil _

theorem run_cut (fuel : Nat) (hat : p.isAtInstr c.thread = true)
    (h : c.thread.limits.exhausted? spent = some budget) :
    p.run (fuel + 1) spent c = some (.error (.budgetExceeded budget), c) ∧
      p.trace (fuel + 1) spent c = [] := by
  rw [run, trace, hat, if_pos rfl, h]
  exact ⟨rfl, rfl⟩

/-- A step is cut off by the budget, or it may be taken. -/
theorem cut_or_allows (p : Program) (spent : Nat) (c : Config) :
    (p.isAtInstr c.thread = true ∧ ∃ budget, c.thread.limits.exhausted? spent = some budget) ∨
      p.Allows spent c := by
  by_cases h : p.Allows spent c
  · exact .inr h
  · obtain ⟨hat, hspent⟩ := Classical.not_imp.1 h
    exact .inl ⟨hat, Option.ne_none_iff_exists'.1 hspent⟩

/-- Without a budget it does not matter how many instructions have been executed. -/
theorem run_spent (p : Program) (fuel spent : Nat) (h : c.thread.limits.budget = none) :
    p.run fuel spent c = p.run fuel 0 c ∧ p.trace fuel spent c = p.trace fuel 0 c := by
  suffices ∀ spent', p.run fuel spent c = p.run fuel spent' c ∧
    p.trace fuel spent c = p.trace fuel spent' c from this 0
  intro spent'
  induction fuel generalizing spent spent' c with
  | zero => exact ⟨rfl, rfl⟩
  | succ fuel ih =>
    rcases next_or_ending (p.step c) with ⟨c₁, hs⟩ | ⟨⟨result, c'⟩, hs⟩
    · obtain ⟨hrun, htrace⟩ := ih (spent + (p.atInstr c).length) ((step_next hs).1 ▸ h)
        (spent' + (p.atInstr c).length)
      rw [run_on (allows_of_none h) hs, run_on (allows_of_none h) hs,
        trace_on (allows_of_none h) hs, trace_on (allows_of_none h) hs, hrun, htrace]
      exact ⟨rfl, rfl⟩
    · rw [run_last (allows_of_none h) hs, run_last (allows_of_none h) hs,
        trace_last (allows_of_none h) hs, trace_last (allows_of_none h) hs]
      exact ⟨rfl, rfl⟩

/-- A run that has come to its end executes nothing more, however long it may go on. -/
theorem trace_of_le (h : p.run fuel spent c = some (result, c')) {fuel' : Nat}
    (hle : fuel ≤ fuel') : p.trace fuel' spent c = p.trace fuel spent c := by
  induction fuel generalizing fuel' spent c with
  | zero => cases h
  | succ fuel ih =>
    obtain ⟨fuel', rfl⟩ : ∃ n, fuel' = n + 1 := ⟨fuel' - 1, by omega⟩
    rcases p.cut_or_allows spent c with ⟨hat, budget, hbudget⟩ | hallows
    · rw [(run_cut fuel hat hbudget).2, (run_cut fuel' hat hbudget).2]
    · rcases next_or_ending (p.step c) with ⟨c₁, hs⟩ | ⟨⟨result', c₁⟩, hs⟩
      · rw [run_on hallows hs] at h
        rw [trace_on hallows hs, trace_on hallows hs, ih h (by omega)]
      · rw [trace_last hallows hs, trace_last hallows hs]

namespace Executes

theorem trans (h : p.Executes c done c₁) (h' : p.Executes c₁ done' c') :
    p.Executes c (done ++ done') c' := by
  induction h with
  | refl c => exact h'
  | step first rest ih =>
    rw [List.append_assoc]
    exact .step first (ih h')

/-- What is executed keeps the limits and the mode. -/
theorem keeps (h : p.Executes c done c') :
    c'.thread.limits = c.thread.limits ∧ c'.thread.mode = c.thread.mode := by
  induction h with
  | refl c => exact ⟨rfl, rfl⟩
  | @step c c₁ c' done first rest ih =>
    have hmode := (first ▸ p.outcome c : p.Outcome c.thread (.ok .next c₁)).mode_eq
    exact ⟨ih.1.trans (step_next first).1, ih.2.trans hmode⟩

theorem limits_of_mem (h : p.Executes c done c') {x : Config} (hx : x ∈ done) :
    x.thread.limits = c.thread.limits := by
  induction h with
  | refl c => cases hx
  | @step c c₁ c' done first rest ih =>
    rcases List.mem_append.1 hx with hx | hx
    · rw [atInstr] at hx
      split at hx
      · rw [List.mem_singleton.1 hx]
      · cases hx
    · exact (ih hx).trans (step_next first).1

/-- A run without a budget goes through what is executed first. -/
theorem run_add (h : p.Executes c done c₁) (hbudget : c.thread.limits.budget = none) :
    ∃ k, ∀ n, p.run (n + k) 0 c = p.run n 0 c₁ ∧
      p.trace (n + k) 0 c = done ++ p.trace n 0 c₁ := by
  induction h with
  | refl c => exact ⟨0, fun n => ⟨rfl, rfl⟩⟩
  | @step c c₁ c' done first rest ih =>
    have hbudget₁ : c₁.thread.limits.budget = none := (step_next first).1 ▸ hbudget
    obtain ⟨k, hk⟩ := ih hbudget₁
    refine ⟨k + 1, fun n => ?_⟩
    obtain ⟨hrun, htrace⟩ := hk n
    obtain ⟨hspent, htspent⟩ := run_spent p (n + k) (0 + (p.atInstr c).length) hbudget₁
    rw [← Nat.add_assoc, run_on (allows_of_none hbudget) first,
      trace_on (allows_of_none hbudget) first, hspent, htspent, hrun, htrace, List.append_assoc]
    exact ⟨rfl, rfl⟩

end Executes

/-- **How a run ends.** After what it executes it is cut off by the budget, or it takes a step that
is its last. -/
theorem executes_of_run (h : p.run fuel spent c = some (result, c')) :
    ∃ c₁ done, p.Executes c done c₁ ∧
      ((∃ budget, c₁.thread.limits.exhausted? (spent + done.length) = some budget ∧
          result = .error (.budgetExceeded budget) ∧ c' = c₁) ∨
        ending? (p.step c₁) = some (result, c')) := by
  induction fuel generalizing spent c with
  | zero => cases h
  | succ fuel ih =>
    rcases p.cut_or_allows spent c with ⟨hat, budget, hbudget⟩ | hallows
    · rw [(run_cut fuel hat hbudget).1] at h
      obtain ⟨rfl, rfl⟩ := Prod.mk.inj (Option.some.inj h)
      exact ⟨_, [], .refl _, .inl ⟨budget, hbudget, rfl, rfl⟩⟩
    · rcases next_or_ending (p.step c) with ⟨c₁, hs⟩ | ⟨⟨result', c₁⟩, hs⟩
      · rw [run_on hallows hs] at h
        obtain ⟨c₂, done, hexec, hend⟩ := ih h
        refine ⟨c₂, p.atInstr c ++ done, .step hs hexec, ?_⟩
        rwa [List.length_append, ← Nat.add_assoc]
      · rw [run_last hallows hs] at h
        obtain ⟨rfl, rfl⟩ := Prod.mk.inj (Option.some.inj h)
        exact ⟨c, [], .refl _, .inr hs⟩

end Program

end Danmaku
