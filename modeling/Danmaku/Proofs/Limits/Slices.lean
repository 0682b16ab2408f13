import Danmaku.Proofs.Compile.Script
import Danmaku.Proofs.Machine.Blind
import Danmaku.Proofs.Machine.Trace

/-!
# A budget only slices a run

The budget is looked at where an instruction is about to be executed, and nowhere else. So a tick
under a budget takes the very steps of a tick without one. Either it comes to the same end, or it is
cut: it has executed as many instructions as the budget allows, and is in the configuration in which
the unlimited run is after so many, with the calls closed that are at their ends (`Program.Cut`).
The next tick goes on from there. If the unlimited run ends, then after finitely many cuts there is
a tick that ends as it does, and each of its instructions has been executed in one of the ticks,
in order (`Program.budget_only_slices`).
-/

namespace Danmaku

namespace Program

variable {p : Program} {patience budget fuel n spent : Nat} {c c' c₁ d : Config}
  {done done' : List Config} {result : TickResult}

/-! ## Another budget -/

theorem atInstr_withBudget (p : Program) (c : Config) (budget : Option Nat) :
    p.atInstr (c.withBudget budget) = (p.atInstr c).map (·.withBudget budget) := by
  rw [atInstr, atInstr, apply_ite (List.map _)]
  rfl

theorem ending?_withBudget (r : EStateM.Result Fault Config Flow) (budget : Option Nat) :
    ending? (Exec.withBudget budget r) =
      (ending? r).map fun x => (x.1, x.2.withBudget budget) := by
  cases r with
  | error fault c => rfl
  | ok flow c => cases flow <;> rfl

/-- Under another budget the same is executed. -/
theorem Executes.withBudget (h : p.Executes c done c') (budget : Option Nat) :
    p.Executes (c.withBudget budget) (done.map (·.withBudget budget)) (c'.withBudget budget) := by
  induction h with
  | refl c => exact .refl _
  | @step c c₁ c' done first rest ih =>
    rw [List.map_append, ← atInstr_withBudget]
    exact .step (by rw [step_withBudget, first]; rfl) ih

/-! ## One tick -/

/-- **A run within a budget takes the steps of the run without one**: it is cut where the next
instruction is one too many, or else ends as that run does. -/
theorem run_withBudget {d : Config} (hnone : c.thread.limits.budget = none)
    (hspent : spent ≤ budget)
    (h : p.run fuel spent (c.withBudget (some budget)) = some (result, d)) :
    ∃ done c', d = c'.withBudget (some budget) ∧
      p.trace fuel spent (c.withBudget (some budget)) = done.map (·.withBudget (some budget)) ∧
      ((result = .error (.budgetExceeded budget) ∧ p.Executes c done c' ∧
          spent + done.length = budget ∧ p.isAtInstr c'.thread = true) ∨
        ∀ n, fuel ≤ n → p.run n 0 c = some (result, c') ∧ p.trace n 0 c = done) := by
  induction fuel generalizing spent c with
  | zero => cases h
  | succ fuel ih =>
    by_cases hcut : p.isAtInstr c.thread = true ∧ budget ≤ spent
    · obtain ⟨hat, hle⟩ := hcut
      have hexhausted : (c.withBudget (some budget)).thread.limits.exhausted? spent = some budget :=
        if_pos hle
      have hat' : p.isAtInstr (c.withBudget (some budget)).thread = true := hat
      obtain ⟨hrun, htrace⟩ := run_cut fuel hat' hexhausted
      obtain ⟨rfl, rfl⟩ := Prod.mk.inj (Option.some.inj (hrun.symm.trans h))
      refine ⟨[], c, rfl, htrace, .inl ⟨rfl, .refl c, ?_, hat⟩⟩
      rw [List.length_nil]
      omega
    · have hleft (hat : p.isAtInstr c.thread = true) : spent < budget := by
        by_contra hge
        exact hcut ⟨hat, Nat.not_lt.1 hge⟩
      have hallows : p.Allows spent (c.withBudget (some budget)) := fun hat =>
        if_neg (Nat.not_le.2 (hleft hat))
      have hatInstr := atInstr_withBudget p c (some budget)
      have hlength : (p.atInstr (c.withBudget (some budget))).length = (p.atInstr c).length := by
        rw [hatInstr, List.length_map]
      have hstep := p.step_withBudget c (some budget)
      rcases next_or_ending (p.step c) with ⟨c₁, hs⟩ | ⟨⟨result', c'⟩, hs⟩
      · rw [hs] at hstep
        have hspent₁ : spent + (p.atInstr c).length ≤ budget := by
          rw [atInstr]
          split
          · next hat => exact hleft hat
          · exact hspent
        rw [run_on hallows hstep, hlength] at h
        obtain ⟨done, c', rfl, htrace, hcase⟩ := ih ((step_next hs).1 ▸ hnone) hspent₁ h
        refine ⟨p.atInstr c ++ done, c', rfl, ?_, hcase.imp ?_ ?_⟩
        · rw [trace_on hallows hstep, hlength, htrace, hatInstr, List.map_append]
        · rintro ⟨hresult, hexecutes, hdone, hat⟩
          refine ⟨hresult, .step hs hexecutes, ?_, hat⟩
          rw [List.length_append]
          omega
        · intro hsame n hn
          obtain ⟨n, rfl⟩ : ∃ m, n = m + 1 := ⟨n - 1, by omega⟩
          obtain ⟨hrun, htrace⟩ := hsame n (by omega)
          obtain ⟨hr, ht⟩ := run_spent p n (0 + (p.atInstr c).length)
            ((step_next hs).1 ▸ hnone : c₁.thread.limits.budget = none)
          rw [run_on (allows_of_none hnone) hs, trace_on (allows_of_none hnone) hs, hr, ht, hrun,
            htrace]
          exact ⟨rfl, rfl⟩
      · have hlast : ending? (p.step (c.withBudget (some budget))) =
            some (result', c'.withBudget (some budget)) := by
          rw [hstep, ending?_withBudget, hs]
          rfl
        rw [run_last hallows hlast] at h
        obtain ⟨rfl, rfl⟩ := Prod.mk.inj (Option.some.inj h)
        refine ⟨p.atInstr c, c', rfl, ?_, .inr fun n hn => ?_⟩
        · rw [trace_last hallows hlast, hatInstr]
        · obtain ⟨n, rfl⟩ : ∃ m, n = m + 1 := ⟨n - 1, by omega⟩
          exact ⟨run_last (allows_of_none hnone) hs, trace_last (allows_of_none hnone) hs⟩

/-- A tick is cut by its budget: it has executed as many instructions as the budget allows, none of
which failed, and the next one is at hand. -/
structure Cut (p : Program) (patience budget : Nat) (c c' : Config) : Prop where
  tick : p.tick patience c = some (.error (.budgetExceeded budget), c')
  executes : p.Executes c (p.executed patience c) c'
  length : (p.executed patience c).length = budget
  next : p.isAtInstr c'.thread = true

/-- Ticks one after another, each of which is cut by its budget, with what each executed. -/
inductive Slices (p : Program) (patience budget : Nat) :
    Config → List (List Config) → Config → Prop
  | refl (c : Config) : Slices p patience budget c [] c
  | cut {c c₁ c' : Config} {rounds : List (List Config)} (first : p.Cut patience budget c c₁)
      (rest : Slices p patience budget c₁ rounds c') :
      Slices p patience budget c (p.executed patience c :: rounds) c'

theorem tick_eq_run (hready : c.thread.mode = .ready) (patience : Nat) :
    p.tick patience c = p.run (Program.fuel patience c.thread) 0 c ∧
      p.executed patience c = p.trace (Program.fuel patience c.thread) 0 c := by
  have hsame : { c with thread := { c.thread with mode := .ready } } = c := by rw [← hready]
  constructor
  · simp only [tick, hready, resume, hsame]
  · simp only [executed, hsame]

theorem tick_of_none (hready : c.thread.mode = .ready) (hnone : c.thread.limits.budget = none)
    (patience : Nat) :
    p.tick patience c = p.run patience 0 c ∧ p.executed patience c = p.trace patience 0 c := by
  have hfuel : Program.fuel patience c.thread = patience := by rw [Program.fuel, hnone]
  obtain ⟨htick, hexecuted⟩ := tick_eq_run (p := p) hready patience
  rw [htick, hexecuted, hfuel]
  exact ⟨rfl, rfl⟩

/-- **A tick within a budget is cut, or ends as the tick without one.** -/
theorem tick_withBudget (hready : c.thread.mode = .ready) (hnone : c.thread.limits.budget = none)
    (patience budget : Nat) :
    (∃ done c', p.Cut patience budget (c.withBudget (some budget)) (c'.withBudget (some budget)) ∧
        p.Executes c done c' ∧
        p.executed patience (c.withBudget (some budget)) =
          done.map (·.withBudget (some budget))) ∨
      ∃ result c',
        p.tick patience (c.withBudget (some budget)) =
          some (result, c'.withBudget (some budget)) ∧
        ∃ N, ∀ n, N ≤ n → p.tick n c = some (result, c') ∧
          p.executed patience (c.withBudget (some budget)) =
            (p.executed n c).map (·.withBudget (some budget)) := by
  have hready' : (c.withBudget (some budget)).thread.mode = .ready := hready
  obtain ⟨result, d, htick⟩ := p.tick_of_budget patience
    (show (c.withBudget (some budget)).thread.limits.budget = some budget from rfl)
  obtain ⟨hrun, hexecuted⟩ := tick_eq_run (p := p) hready' patience
  obtain ⟨done, c', rfl, htrace, ⟨rfl, hexecutes, hlength, hat⟩ | hsame⟩ :=
    run_withBudget hnone (Nat.zero_le budget) (hrun ▸ htick)
  · have hdone := hexecuted.trans htrace
    have hlength' : (p.executed patience (c.withBudget (some budget))).length = budget := by
      rw [hdone, List.length_map]
      omega
    exact .inl ⟨done, c', ⟨htick, hdone ▸ hexecutes.withBudget _, hlength', hat⟩, hexecutes, hdone⟩
  · refine .inr ⟨result, c', htick,
      Program.fuel patience (c.withBudget (some budget)).thread, fun n hn => ?_⟩
    obtain ⟨hrunN, htraceN⟩ := hsame n hn
    obtain ⟨htickN, hexecutedN⟩ := tick_of_none (p := p) hready hnone n
    rw [htickN, hexecutedN, hexecuted, htrace, htraceN]
    exact ⟨hrunN, rfl⟩

/-! ## Tick after tick -/

/-- What the ticks executed was executed in one run. -/
theorem Slices.executes {rounds : List (List Config)}
    (h : p.Slices patience budget c rounds c') : p.Executes c rounds.flatten c' := by
  induction h with
  | refl c => exact .refl c
  | cut first rest ih => exact first.executes.trans ih

/-- A run that ends goes through what is executed first, and ends from there as it does. -/
theorem Executes.tick (h : p.Executes c done c₁) (hready : c.thread.mode = .ready)
    (hnone : c.thread.limits.budget = none) (htick : p.tick n c = some (result, c')) :
    p.tick n c₁ = some (result, c') ∧ p.executed n c = done ++ p.executed n c₁ := by
  obtain ⟨hlimits, hmode⟩ := h.keeps
  obtain ⟨hrun, htrace⟩ := tick_of_none (p := p) hready hnone n
  obtain ⟨hrun₁, htrace₁⟩ := tick_of_none (p := p) (hmode.trans hready) (hlimits ▸ hnone) n
  obtain ⟨k, hk⟩ := h.run_add hnone
  obtain ⟨hrunk, htracek⟩ := hk n
  rw [hrun] at htick
  rw [hrun₁, htrace, htrace₁, ← hrunk, ← htracek, trace_of_le htick (Nat.le_add_right n k)]
  exact ⟨run_of_le (Nat.le_add_right n k) htick, rfl⟩

/-- **If the run without a budget ends then a tick within the budget ends so**, after some that are
cut, and together they execute what that run does. -/
theorem slices_of_tick (hbudget : 1 ≤ budget) (hready : c.thread.mode = .ready)
    (hnone : c.thread.limits.budget = none) (h : p.tick n c = some (result, c')) :
    ∃ rounds d, p.Slices patience budget (c.withBudget (some budget)) rounds d ∧
      p.tick patience d = some (result, c'.withBudget (some budget)) ∧
      rounds.flatten ++ p.executed patience d =
        (p.executed n c).map (·.withBudget (some budget)) := by
  -- Each tick that is cut leaves fewer instructions to the rest of the run.
  induction hm : (p.executed n c).length using Nat.strongRecOn generalizing c with
  | ind m ih =>
    rcases tick_withBudget (p := p) hready hnone patience budget with
      ⟨done, c₁, hcut, hexecutes, hdone⟩ | ⟨result', c₁, htick, N, hsame⟩
    · obtain ⟨hlimits, hmode⟩ := hexecutes.keeps
      obtain ⟨htick₁, hexecuted⟩ := hexecutes.tick hready hnone h
      have hlength : done.length = budget := by
        rw [← hcut.length, hdone, List.length_map]
      have hless : (p.executed n c₁).length < m := by
        rw [← hm, hexecuted, List.length_append]
        omega
      obtain ⟨rounds, d, hslices, hlast, hall⟩ :=
        ih _ hless (hmode.trans hready) (hlimits ▸ hnone) htick₁ rfl
      refine ⟨_, d, .cut hcut hslices, hlast, ?_⟩
      rw [List.flatten_cons, List.append_assoc, hall, hdone, hexecuted, List.map_append]
    · obtain ⟨hticks, hexecuted⟩ := hsame (max N n) (Nat.le_max_left N n)
      obtain ⟨hrun, htrace⟩ := tick_of_none (p := p) hready hnone n
      obtain ⟨hrunMax, htraceMax⟩ := tick_of_none (p := p) hready hnone (max N n)
      have hmax := run_of_le (Nat.le_max_right N n) (hrun ▸ h)
      obtain ⟨rfl, rfl⟩ := Prod.mk.inj (Option.some.inj (hticks.symm.trans (hrunMax.trans hmax)))
      refine ⟨[], _, .refl _, htick, ?_⟩
      rw [List.flatten_nil, List.nil_append, hexecuted, htrace, htraceMax,
        trace_of_le (hrun ▸ h) (Nat.le_max_right N n)]

/-- **The budget only slices a run.** A tick within a budget either ends as the tick without one, or
is cut, in the configuration in which the run without a budget is after as many instructions as the
budget allows, and after the calls that are closed then. The ticks after it go on with that run. If
it ends, they do after finitely many cuts, and in the same way, and each instruction of the run is
executed once, in order. -/
theorem budget_only_slices (p : Program) (patience : Nat) {budget : Nat} {c : Config}
    (hbudget : 1 ≤ budget) (hready : c.thread.mode = .ready) :
    ((∃ done c', p.tick patience (c.withBudget (some budget)) =
            some (.error (.budgetExceeded budget), c'.withBudget (some budget)) ∧
          p.Executes (c.withBudget none) done c' ∧ done.length = budget ∧
          p.isAtInstr c'.thread = true) ∨
        ∃ result c', p.tick patience (c.withBudget (some budget)) =
            some (result, c'.withBudget (some budget)) ∧
          ∃ N, ∀ n, N ≤ n → p.tick n (c.withBudget none) = some (result, c')) ∧
      (∀ rounds d, p.Slices patience budget (c.withBudget (some budget)) rounds d →
        ∃ done c', d = c'.withBudget (some budget) ∧ c'.thread.mode = .ready ∧
          p.Executes (c.withBudget none) done c' ∧
          rounds.flatten = done.map (·.withBudget (some budget))) ∧
      ∀ n result c', p.tick n (c.withBudget none) = some (result, c') →
        ∃ rounds d, p.Slices patience budget (c.withBudget (some budget)) rounds d ∧
          p.tick patience d = some (result, c'.withBudget (some budget)) ∧
          rounds.flatten ++ p.executed patience d =
            (p.executed n (c.withBudget none)).map (·.withBudget (some budget)) := by
  have hready' : (c.withBudget none).thread.mode = .ready := hready
  refine ⟨?_, fun rounds d h => ?_, fun n result c' h => ?_⟩
  · rcases tick_withBudget (p := p) hready' rfl patience budget with
      ⟨done, c', hcut, hexecutes, hdone⟩ | ⟨result, c', htick, N, hsame⟩
    · have hlength : done.length = budget := by
        rw [← hcut.length, hdone, List.length_map]
      exact .inl ⟨done, c', hcut.tick, hexecutes, hlength, hcut.next⟩
    · exact .inr ⟨result, c', htick, N, fun n hn => (hsame n hn).1⟩
  · obtain ⟨hlimits, hmode⟩ := h.executes.keeps
    have hexecutes := h.executes.withBudget none
    have hback {x : Config} (hx : x.thread.limits = (c.withBudget (some budget)).thread.limits) :
        (x.withBudget none).withBudget (some budget) = x := by
      have hsome : x.thread.limits.budget = some budget := by
        rw [hx]
        rfl
      rw [Config.withBudget_withBudget, ← hsome]
      rfl
    refine ⟨_, d.withBudget none, (hback hlimits).symm, hmode.trans hready, hexecutes, ?_⟩
    have hsame : (rounds.flatten.map (·.withBudget none)).map (·.withBudget (some budget)) =
        rounds.flatten.map id := by
      rw [List.map_map]
      exact List.map_congr_left fun x hx => hback (h.executes.limits_of_mem hx)
    rw [hsame, List.map_id]
  · exact slices_of_tick hbudget hready' rfl h

/-- The script `echo` comes to its end two instructions at a time, though it is cut in a call. -/
theorem echo_slices :
    ∃ rounds d c', (⟨Script.echo.catalog, Script.echo.main.code, false⟩ : Program).Slices 0 2
        ⟨.ofLimits { budget := some 2 }, ⟨0, #[]⟩, #[]⟩ rounds d ∧
      (⟨Script.echo.catalog, Script.echo.main.code, false⟩ : Program).tick 0 d =
        some (.ok .completed, c') := by
  have hends : ((⟨Script.echo.catalog, Script.echo.main.code, false⟩ : Program).tick 6
      ⟨.ofLimits { budget := none }, ⟨0, #[]⟩, #[]⟩).map Prod.fst = some (.ok .completed) := by
    decide +kernel
  obtain ⟨⟨result, c'⟩, htick, rfl⟩ := Option.map_eq_some_iff.1 hends
  obtain ⟨rounds, d, hslices, hlast, -⟩ := (budget_only_slices
    ⟨Script.echo.catalog, Script.echo.main.code, false⟩ 0 (c := ⟨.ofLimits {}, ⟨0, #[]⟩, #[]⟩)
    (show 1 ≤ 2 by decide) rfl).2.2 6 _ c' htick
  exact ⟨rounds, d, _, hslices, hlast⟩

end Program

end Danmaku
