import Danmaku.Proofs.Machine.Budget
import Danmaku.Proofs.Machine.Ticks
import Danmaku.Proofs.Word.Value

/-!
# Suspension is transparent

A script that waits ends a tick, and a later tick takes it up again. Without a budget, the ticks of
a host (`Program.session`) come to the very end of a machine that is never interrupted, for which a
wait is nothing but an operand less (`Program.through`): they come to an end if it does, and only
then, with the same result in the same configuration (`Program.session_eq_through`). Each wait takes
as many ticks as it says, but one at least, and all that changes in these is how many ticks are left
(`Pause.calls`).
-/

namespace Danmaku

/-! ## The machine without interruption -/

/-- The configuration with the thread in some mode. -/
def Config.inMode (c : Config) (mode : Mode) : Config :=
  { c with thread := { c.thread with mode } }

/-- What is left of a wait if it is not waited. -/
def Exec.pass : Exec Flow := do
  let _ ← onStack Stack.pop
  return .next

/-- A wait that the machine has passed. -/
structure Pause where
  /-- The operand of the wait. -/
  value : Word
  /-- The configuration after it. -/
  config : Config

namespace Program

/-- A step of the machine without interruption. -/
def stepThrough (p : Program) : Exec Flow := fun c =>
  match p.instr? c.thread with
  | some .wait => Exec.pass (c.goTo (c.thread.ip + Instr.wait.size))
  | _ => p.step c

/-- Up to so many steps without interruption: the waits that are passed, and what the machine comes
to, if it comes to its end. -/
def through (p : Program) : (fuel : Nat) → Config → List Pause × Option (TickResult × Config)
  | 0, _ => ([], none)
  | fuel + 1, c =>
    match p.stepThrough c with
    | .error fault c => ([], some (.error fault, c))
    | .ok (.stop status) c => ([], some (.ok status, c))
    | .ok .next c' =>
      let rest := p.through fuel c'
      match p.instr? c.thread with
      | some .wait => (⟨c.top, c'⟩ :: rest.1, rest.2)
      | _ => rest

end Program

/-! ## Tick after tick -/

/-- The configurations after the ticks that a wait takes. -/
def Pause.calls (q : Pause) : List Config :=
  (List.range (max q.value.waitTicks 1)).map fun i =>
    q.config.inMode (.waiting (q.value.waitTicks - i))

/-- A wait takes as many ticks as it says, but one at least. -/
theorem Pause.length_calls (q : Pause) : q.calls.length = max q.value.waitTicks 1 := by
  rw [calls, List.length_map, List.length_range]

namespace Program

/-- Up to so many ticks, until the script does not wait any more: the configurations after those
with which it waits, and what the last one comes to, if it is the last. -/
def session (p : Program) (patience : Nat) :
    Nat → Config → List Config × Option (TickResult × Config)
  | 0, _ => ([], none)
  | n + 1, c =>
    match p.tick patience c with
    | some (.ok .suspended, c) =>
      let rest := p.session patience n c
      (c :: rest.1, rest.2)
    | result => ([], result)

variable {p : Program} {patience fuel n m k spent : Nat} {c c' : Config}
  {result : TickResult × Config}

/-! ## Waits -/

/-- Only a wait suspends. -/
theorem instr?_of_suspended (h : p.step c = .ok (.stop .suspended) c') :
    p.instr? c.thread = some .wait := by
  obtain ⟨code, hrun, ⟨-, i, next, hdecode, h⟩ | ⟨-, h⟩⟩ := step_eq_ok h
  · by_cases hwait : i = .wait
    · subst hwait
      exact instr?_of_decode hrun hdecode
    · by_cases hret : i = .ret
      · subst hret
        obtain ⟨v, -, ⟨-, hflow, -⟩ | ⟨hflow, -⟩⟩ := Instr.ret_eq_ok h
        · cases hflow
        · cases hflow
      · cases Instr.execute_next hwait hret _ _ _ h
  · obtain ⟨-, hflow, -⟩ | ⟨hflow, -⟩ := fallOff_eq_ok h
    · cases hflow
    · cases hflow

/-- Other steps are the same without interruption. -/
theorem stepThrough_eq_step (h : p.instr? c.thread ≠ some .wait) : p.stepThrough c = p.step c := by
  unfold stepThrough
  split
  · next hwait => exact absurd hwait h
  · rfl

/-- **A wait**, in the machine and in that without interruption. -/
theorem step_wait (h : p.instr? c.thread = some .wait) :
    (∃ f c', p.step c = .error f c' ∧ p.stepThrough c = .error f c') ∨
      ∃ c', p.stepThrough c = .ok .next c' ∧ c'.thread.mode = c.thread.mode ∧
        c'.thread.limits = c.thread.limits ∧
        p.step c = .ok (.stop .suspended) (c'.inMode (.waiting c.top.waitTicks)) := by
  obtain ⟨code, -, hstep⟩ := step_of_instr? h
  have hthrough : p.stepThrough c = Exec.pass (c.goTo (c.thread.ip + Instr.wait.size)) := by
    rw [stepThrough, h]
  have hstack : (c.goTo (c.thread.ip + Instr.wait.size)).thread.stack = c.thread.stack := rfl
  rw [hstep, hthrough]
  simp only [Instr.execute, Exec.pass, bind, EStateM.bind, Exec.onStack, Stack.pop, hstack]
  cases hback : c.thread.stack.values.back? with
  | none => exact .inl ⟨_, _, rfl, rfl⟩
  | some v =>
    have htop : c.top = v := by rw [Config.top, hback, Option.getD_some]
    rw [htop, ← v.toTicks_eq_waitTicks]
    exact .inr ⟨_, rfl, rfl, rfl, rfl⟩

/-! ## Runs -/

theorem through_next (hwait : p.instr? c.thread ≠ some .wait) (h : p.step c = .ok .next c') :
    p.through (fuel + 1) c = p.through fuel c' := by
  rw [through, stepThrough_eq_step hwait, h]
  simp only

theorem through_fault {f : Fault} (h : p.stepThrough c = .error f c') :
    p.through (fuel + 1) c = ([], some (.error f, c')) := by
  rw [through, h]

theorem through_stop {status : Status} (h : p.stepThrough c = .ok (.stop status) c') :
    p.through (fuel + 1) c = ([], some (.ok status, c')) := by
  rw [through, h]

theorem through_wait (hwait : p.instr? c.thread = some .wait)
    (h : p.stepThrough c = .ok .next c') :
    p.through (fuel + 1) c =
      (⟨c.top, c'⟩ :: (p.through fuel c').1, (p.through fuel c').2) := by
  rw [through, h]
  simp only [hwait]

/-- What a run of the machine is in the run without interruption: the beginning of it that ends with
the first wait. -/
inductive Stretch (p : Program) (fuel : Nat) (c : Config) : Option (TickResult × Config) → Prop
  /-- It has come to no end yet. -/
  | short (eq : p.through fuel c = ([], none)) : Stretch p fuel c none
  /-- It comes to the end, and no wait is passed before. -/
  | ends {result : TickResult × Config} (ne : result.1 ≠ .ok .suspended)
      (eq : ∀ m, p.through (fuel + m) c = ([], some result)) : Stretch p fuel c (some result)
  /-- It comes to a wait. -/
  | pauses {k : Nat} {q : Pause} (lt : k < fuel) (mode : q.config.thread.mode = .ready)
      (limits : q.config.thread.limits = c.thread.limits)
      (eq : ∀ m, p.through (k + 1 + m) c =
        (q :: (p.through m q.config).1, (p.through m q.config).2)) :
      Stretch p fuel c (some (.ok .suspended, q.config.inMode (.waiting q.value.waitTicks)))

/-- **Between two waits the machine does the same without interruption.** -/
theorem stretch_run (hmode : c.thread.mode = .ready) (hbudget : c.thread.limits.budget = none) :
    p.Stretch fuel c (p.run fuel spent c) := by
  induction fuel generalizing spent c with
  | zero => exact .short rfl
  | succ fuel ih =>
    have succ_add (m : Nat) : fuel + 1 + m = fuel + m + 1 := by omega
    by_cases hwait : p.instr? c.thread = some .wait
    · obtain ⟨f, c', hstep, hthrough⟩ | ⟨c', hthrough, hmode', hlimits', hstep⟩ := step_wait hwait
      · rw [run_fault hbudget hstep]
        exact .ends nofun fun m => by rw [succ_add, through_fault hthrough]
      · rw [run_stop hbudget hstep]
        refine .pauses (q := ⟨c.top, c'⟩) (Nat.succ_pos fuel) (hmode'.trans hmode) hlimits' ?_
        intro m
        rw [Nat.zero_add, Nat.add_comm, through_wait hwait hthrough]
    · have hthrough := stepThrough_eq_step hwait
      cases hstep : p.step c with
      | error f c' =>
        rw [run_fault hbudget hstep]
        exact .ends nofun fun m => by rw [succ_add, through_fault (hthrough.trans hstep)]
      | ok flow c' =>
        cases flow with
        | stop status =>
          rw [run_stop hbudget hstep]
          refine .ends ?_ fun m => by rw [succ_add, through_stop (hthrough.trans hstep)]
          rintro hsuspended
          obtain rfl := Except.ok.inj hsuspended
          exact hwait (instr?_of_suspended hstep)
        | next =>
          have hmode' := (hstep ▸ p.outcome c : p.Outcome c.thread (.ok .next c')).mode_eq
          have hlimits := (stepTo_of_step hstep).limits
          obtain ⟨spent', hrun⟩ := run_next hbudget hstep
          rw [hrun]
          have hbudget' : c'.thread.limits.budget = none := hlimits ▸ hbudget
          have hstretch : p.Stretch fuel c' (p.run fuel spent' c') :=
            ih (hmode'.trans hmode) hbudget'
          generalize p.run fuel spent' c' = r at hstretch
          cases hstretch with
          | short eq => exact .short ((through_next hwait hstep).trans eq)
          | ends ne eq =>
            exact .ends ne fun m => by rw [succ_add, through_next hwait hstep, eq]
          | pauses lt mode limits eq =>
            rename_i k q
            refine .pauses (Nat.succ_lt_succ lt) mode (limits.trans hlimits) fun m => ?_
            rw [show k + 1 + 1 + m = k + 1 + m + 1 by omega, through_next hwait hstep, eq]

/-! ## Ticks -/

/-- The last tick of a wait goes on as if there had been none. -/
theorem session_wake (hmode : c.thread.mode = .ready) (hk : k ≤ 1) :
    p.session patience n (c.inMode (.waiting k)) = p.session patience n c := by
  have hready : p.tick patience c = p.resume patience c := by simp only [tick, hmode]
  have htick : p.tick patience (c.inMode (.waiting k)) = p.tick patience c := by
    rw [hready]
    obtain rfl | rfl : k = 0 ∨ k = 1 := by omega
    · rfl
    · rfl
  cases n with
  | zero => rfl
  | succ n => rw [session, session, htick]

/-- A tick before that. -/
theorem session_count (n k : Nat) (c : Config) :
    p.session patience (n + 1) (c.inMode (.waiting (k + 2))) =
      (c.inMode (.waiting (k + 1)) :: (p.session patience n (c.inMode (.waiting (k + 1)))).1,
        (p.session patience n (c.inMode (.waiting (k + 1)))).2) :=
  rfl

/-- The ticks that a thread still waits, and those after them. -/
theorem session_waiting (hmode : c.thread.mode = .ready) :
    p.session patience (m + (k - 1)) (c.inMode (.waiting k)) =
      ((List.range (k - 1)).map (fun i => c.inMode (.waiting (k - 1 - i))) ++
        (p.session patience m c).1, (p.session patience m c).2) := by
  induction k with
  | zero => exact session_wake hmode (Nat.zero_le 1)
  | succ k ih =>
    cases k with
    | zero => exact session_wake hmode (Nat.le_refl 1)
    | succ k =>
      simp only [Nat.add_sub_cancel] at ih ⊢
      rw [← Nat.add_assoc, session_count, ih, List.range_succ_eq_map, List.map_cons, List.map_map]
      simp only [Nat.sub_zero, List.cons_append, Function.comp_def, Nat.add_sub_add_right,
        Nat.succ_eq_add_one]

/-- There is no result before the wait is over. -/
theorem session_waiting_short (hn : n ≤ k - 1) :
    (p.session patience n (c.inMode (.waiting k))).2 = none := by
  induction n generalizing k with
  | zero => rfl
  | succ n ih =>
    obtain ⟨k, rfl⟩ := Nat.exists_eq_add_of_le' (show 2 ≤ k by omega)
    rw [session_count]
    exact ih (by omega)

/-- **The ticks of a wait**, from the one that comes to it, and those after them. -/
theorem session_pause {q : Pause} (hmode : q.config.thread.mode = .ready)
    (htick : p.tick patience c =
      some (.ok .suspended, q.config.inMode (.waiting q.value.waitTicks))) :
    p.session patience (q.calls.length + m) c =
      (q.calls ++ (p.session patience m q.config).1, (p.session patience m q.config).2) := by
  have hcalls : q.calls = q.config.inMode (.waiting q.value.waitTicks) ::
      (List.range (q.value.waitTicks - 1)).map
        fun i => q.config.inMode (.waiting (q.value.waitTicks - 1 - i)) := by
    rw [Pause.calls, show max q.value.waitTicks 1 = q.value.waitTicks - 1 + 1 by omega,
      List.range_succ_eq_map, List.map_cons, List.map_map]
    simp only [Nat.sub_zero, Function.comp_def, Nat.succ_eq_add_one, Nat.sub_sub, Nat.add_comm]
  have hlength : q.calls.length + m = m + (q.value.waitTicks - 1) + 1 := by
    rw [Pause.length_calls]
    omega
  rw [hlength, session, htick]
  simp only
  rw [session_waiting hmode, hcalls, List.cons_append]

theorem session_pause_short {q : Pause}
    (htick : p.tick patience c =
      some (.ok .suspended, q.config.inMode (.waiting q.value.waitTicks)))
    (hn : n < q.calls.length) : (p.session patience n c).2 = none := by
  rw [Pause.length_calls] at hn
  cases n with
  | zero => rfl
  | succ n =>
    rw [session, htick]
    exact session_waiting_short (by omega)

/-- A tick with which the script does not wait is the last. -/
theorem session_end (htick : p.tick patience c = some result) (hne : result.1 ≠ .ok .suspended) :
    p.session patience (n + 1) c = ([], some result) := by
  rw [session, htick]
  split
  · next heq =>
    obtain rfl := Option.some.inj heq
    exact absurd rfl hne
  · rfl

/-! ## Ticks and the machine without interruption -/

/-- If the ticks come to an end, the machine comes to the same without interruption. -/
theorem through_of_session {log : List Config} (hmode : c.thread.mode = .ready)
    (hbudget : c.thread.limits.budget = none)
    (h : p.session patience n c = (log, some result)) :
    ∃ fuel pauses, p.through fuel c = (pauses, some result) ∧ log = pauses.flatMap Pause.calls := by
  induction n using Nat.strongRecOn generalizing c log with
  | ind n ih =>
    have hstretch : p.Stretch patience c (p.run patience 0 c) := stretch_run hmode hbudget
    rw [← tick_ready hbudget hmode] at hstretch
    have hresult : (p.session patience n c).2 = some result := congrArg Prod.snd h
    cases n with
    | zero => cases hresult
    | succ n =>
      generalize htick : p.tick patience c = r at hstretch
      cases hstretch with
      | short eq =>
        rw [session, htick] at hresult
        cases hresult
      | @ends result' ne eq =>
        rw [session_end htick ne] at h
        obtain ⟨rfl, hsome⟩ := Prod.mk.inj h
        obtain rfl := Option.some.inj hsome
        exact ⟨patience, [], eq 0, rfl⟩
      | @pauses k q lt mode limits eq =>
        by_cases hshort : n + 1 < q.calls.length
        · rw [session_pause_short htick hshort] at hresult
          cases hresult
        · obtain ⟨m, hm⟩ := Nat.exists_eq_add_of_le (Nat.not_lt.1 hshort)
          have hpos : 0 < q.calls.length := by
            rw [Pause.length_calls]
            exact Nat.lt_of_lt_of_le Nat.one_pos (Nat.le_max_right _ _)
          rw [hm, session_pause mode htick] at h
          obtain ⟨hlog, hrest⟩ := Prod.mk.inj h
          have hsession : p.session patience m q.config =
              ((p.session patience m q.config).1, some result) := Prod.ext rfl hrest
          obtain ⟨fuel, pauses, hthrough, hpauses⟩ :=
            ih m (by omega) mode (limits ▸ hbudget) hsession
          refine ⟨k + 1 + fuel, q :: pauses, ?_, ?_⟩
          · rw [eq, hthrough]
          · rw [← hlog, hpauses, List.flatMap_cons]

/-- As far as the machine comes without interruption, so far come the ticks, if the host is patient
enough. -/
theorem session_of_through (hmode : c.thread.mode = .ready)
    (hbudget : c.thread.limits.budget = none) (hle : fuel ≤ patience) {pauses : List Pause}
    {r : Option (TickResult × Config)} (h : p.through fuel c = (pauses, r)) :
    p.session patience (pauses.flatMap Pause.calls).length c = (pauses.flatMap Pause.calls, none) ∧
      ∀ result, r = some result →
        p.session patience ((pauses.flatMap Pause.calls).length + 1) c =
          (pauses.flatMap Pause.calls, some result) := by
  induction fuel using Nat.strongRecOn generalizing c pauses with
  | ind fuel ih =>
    have hstretch : p.Stretch fuel c (p.run fuel 0 c) := stretch_run hmode hbudget
    have htick {result : TickResult × Config} (hrun : p.run fuel 0 c = some result) :
        p.tick patience c = some result := by
      rw [tick_ready hbudget hmode]
      exact run_of_le hle hrun
    generalize hrun : p.run fuel 0 c = r' at hstretch
    cases hstretch with
    | short eq =>
      obtain ⟨rfl, rfl⟩ := Prod.mk.inj (eq.symm.trans h)
      exact ⟨rfl, nofun⟩
    | ends ne eq =>
      obtain ⟨rfl, rfl⟩ := Prod.mk.inj ((eq 0).symm.trans h)
      refine ⟨rfl, fun result hresult => ?_⟩
      obtain rfl := Option.some.inj hresult
      exact session_end (htick hrun) ne
    | @pauses k q lt mode limits eq =>
      obtain ⟨m, rfl⟩ := Nat.exists_eq_add_of_le (Nat.succ_le_of_lt lt)
      obtain ⟨rfl, rfl⟩ := Prod.mk.inj ((eq m).symm.trans h)
      obtain ⟨hnone, hsome⟩ := ih m (by omega) mode (limits ▸ hbudget) (by omega) rfl
      rw [List.flatMap_cons, List.length_append, Nat.add_assoc]
      refine ⟨?_, fun result hresult => ?_⟩
      · rw [session_pause mode (htick hrun), hnone]
      · rw [session_pause mode (htick hrun), hsome result hresult]

/-- **Suspension is transparent.** Without a budget, tick after tick comes to an end if and only if
the machine without interruption does, and then to the same. The ticks with which the script waits
are those of the waits that the machine passes, as many as each says, but one at least; and this is
so as far as the machine comes, also if there is no end to it. -/
theorem session_eq_through (p : Program) (c : Config) (hmode : c.thread.mode = .ready)
    (hbudget : c.thread.limits.budget = none) :
    (∀ log result, (∃ patience n, p.session patience n c = (log, some result)) ↔
      ∃ fuel pauses, p.through fuel c = (pauses, some result) ∧ log = pauses.flatMap Pause.calls) ∧
    ∀ fuel patience, fuel ≤ patience →
      let calls := (p.through fuel c).1.flatMap Pause.calls
      p.session patience calls.length c = (calls, none) := by
  refine ⟨fun log result => ⟨?_, ?_⟩, fun fuel patience hle => ?_⟩
  · rintro ⟨patience, n, h⟩
    exact through_of_session hmode hbudget h
  · rintro ⟨fuel, pauses, h, rfl⟩
    exact ⟨fuel, _, (session_of_through hmode hbudget (Nat.le_refl fuel) h).2 result rfl⟩
  · exact (session_of_through hmode hbudget hle rfl).1

/-- A script that calls a function over and over while it has operands left, and the function waits:
once for a number with a fraction, once for no number, and once for less than nothing. -/
def resting : Program where
  catalog := { functions := ⟨#[("rest",
    { numbers := ["n"]
      parameterCount := 1
      code := .ofList ([Instr.getVariable 0, .wait, .push 7, .ret].flatMap Instr.words)
      index? := some 0 })]⟩ }
  code := .ofList ([Instr.push 3, .push 2.75, .call 0, .push .notANumber, .call 0, .push (-3),
    .call 0, .ret].flatMap Instr.words)
  looping := false

/-- Where it starts. -/
def restingStart : Config where
  thread := .ofLimits { stack := 4, slots := 1, handles := 0, depth := 1, budget := none }
  entity := ⟨0, #[]⟩

theorem resting_eq_through :
    (resting.session 9 5 restingStart).1.map (fun c => c.thread.mode) =
      [.waiting 2, .waiting 1, .waiting 0, .waiting 0] ∧
    (resting.session 9 5 restingStart).2.map (fun r => r.2.thread.lastReturn) = some (some 7) ∧
    (∀ log result, (∃ patience n, resting.session patience n restingStart = (log, some result)) ↔
      ∃ fuel pauses, resting.through fuel restingStart = (pauses, some result) ∧
        log = pauses.flatMap Pause.calls) ∧
    ∀ fuel patience, fuel ≤ patience →
      let calls := (resting.through fuel restingStart).1.flatMap Pause.calls
      resting.session patience calls.length restingStart = (calls, none) :=
  ⟨by decide +kernel, by decide +kernel, session_eq_through resting restingStart rfl rfl⟩

end Program

end Danmaku
