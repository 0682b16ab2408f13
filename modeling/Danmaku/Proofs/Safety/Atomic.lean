import Danmaku.Proofs.Machine.Trace
import Danmaku.Proofs.Safety.Layout

/-!
# What a fault leaves

An instruction takes its operands and makes its checks before it has any other effect. So where it
faults only operands are gone, from the top of the stack, and the address is that of the instruction
after it (`Program.spared_of_step`). A delegate may do to the operand stack what it likes before it
faults; but it too leaves everything else.

The parts of an instruction are put together by two rules. Before a part that may fault operands may
only be taken (`Spares.bind`); after the last one that may there may be anything (`Spares.last`).

What the host finds after a tick that faulted is that much apart from the moment before the
instruction (`Thread.Hosted.fault_spares`).
-/

namespace Danmaku

/-! ## Computations that fail -/

section

variable {ε σ α β : Type} {R : σ → σ → Prop} {m : EStateM ε σ α} {k : α → EStateM ε σ β} {s s' : σ}

/-- If a computation fails, the state that it leaves is so related to the one before. -/
def Spares (R : σ → σ → Prop) (m : EStateM ε σ α) : Prop := ∀ s e s', m s = .error e s' → R s s'

/-- A computation that never fails. -/
abbrev Infallible (m : EStateM ε σ α) : Prop := Spares (fun _ _ => False) m

namespace Spares

theorem of_relates (h : Relates R m) : Spares R m := fun _ _ _ hm => h.of_error hm

/-- What comes before the failure is so related to what it started from as well. -/
theorem bind (trans : ∀ {a b c}, R a b → R b c → R a c) (hm : Relates R m)
    (hk : ∀ a, Spares R (k a)) : Spares R (m >>= k) := by
  intro s e s' h
  rw [show (m >>= k) s = EStateM.bind m k s from rfl, EStateM.bind] at h
  cases hs : m s with
  | ok a s₁ =>
    rw [hs] at h
    exact trans (hm.of_ok hs) (hk a s₁ e s' h)
  | error e' s₁ =>
    rw [hs] at h
    cases h
    exact hm.of_error hs

/-- What never fails may do anything. -/
theorem last (hm : Spares R m) (hk : ∀ a, Infallible (k a)) : Spares R (m >>= k) := by
  intro s e s' h
  rw [show (m >>= k) s = EStateM.bind m k s from rfl, EStateM.bind] at h
  cases hs : m s with
  | ok a s₁ =>
    rw [hs] at h
    exact (hk a s₁ e s' h).elim
  | error e' s₁ =>
    rw [hs] at h
    cases h
    exact hm s _ _ hs

theorem pure (a : α) : Spares R (pure a : EStateM ε σ α) := nofun

end Spares

end

/-! ## Operands that are taken -/

/-- The second stack is what the first one is once values have been taken from its top. -/
structure Stack.Sheds (s s' : Stack) : Prop where
  capacity : s'.capacity = s.capacity
  remain : s'.values.toList <+: s.values.toList

namespace Stack

theorem Sheds.refl (s : Stack) : s.Sheds s := ⟨rfl, List.prefix_refl _⟩

theorem Sheds.trans {s s' s'' : Stack} (h : s.Sheds s') (h' : s'.Sheds s'') : s.Sheds s'' :=
  ⟨h'.capacity.trans h.capacity, h'.remain.trans h.remain⟩

theorem sheds_pop : Relates Sheds pop := by
  refine .intro (fun h => ?_) fun h => ?_
  · obtain ⟨-, rfl⟩ := pop_eq_ok.1 h
    refine ⟨rfl, ?_⟩
    rw [Array.toList_pop]
    exact List.dropLast_prefix _
  · obtain ⟨-, -, rfl⟩ := pop_eq_error.1 h
    exact .refl _

theorem sheds_popMany (n : Nat) : Relates Sheds (popMany n) := by
  refine .intro (fun h => ?_) fun h => ?_
  · obtain ⟨-, -, rfl⟩ := popMany_eq_ok.1 h
    refine ⟨rfl, ?_⟩
    rw [Array.toList_shrink]
    exact List.take_prefix _ _
  · obtain ⟨-, -, rfl⟩ := popMany_eq_error.1 h
    exact .refl _

theorem sheds_peek : Relates Sheds peek := by
  refine .intro (fun h => ?_) fun h => ?_
  · obtain ⟨-, rfl⟩ := peek_eq_ok.1 h
    exact .refl _
  · obtain ⟨-, -, rfl⟩ := peek_eq_error.1 h
    exact .refl _

variable (v : Word)

theorem spares_push : Spares Sheds (push v) := by
  intro s f s' h
  obtain ⟨-, -, rfl⟩ := push_eq_error.1 h
  exact .refl _

theorem spares_replaceTop : Spares Sheds (replaceTop v) := by
  intro s f s' h
  obtain ⟨-, -, rfl⟩ := replaceTop_eq_error.1 h
  exact .refl _

end Stack

/-- Nothing but operands has been taken. -/
def Config.Sheds (c c' : Config) : Prop := ∃ s, c' = c.withStack s ∧ c.thread.stack.Sheds s

/-- Nothing but the operand stack has been used. -/
def Config.Operates (c c' : Config) : Prop := ∃ s, c' = c.withStack s

namespace Config.Sheds

theorem refl (c : Config) : c.Sheds c := ⟨c.thread.stack, rfl, .refl _⟩

theorem trans {c c' c'' : Config} (h : c.Sheds c') (h' : c'.Sheds c'') : c.Sheds c'' := by
  obtain ⟨s, rfl, hs⟩ := h
  obtain ⟨s', rfl, hs'⟩ := h'
  exact ⟨s', rfl, hs.trans hs'⟩

theorem operates {c c' : Config} (h : c.Sheds c') : c.Operates c' := by
  obtain ⟨s, rfl, -⟩ := h
  exact ⟨s, rfl⟩

end Config.Sheds

namespace Exec

variable {α β : Type} {m : Exec α} {k : α → Exec β} {action : StackM α}

/-- A computation that only takes operands, also if it fails. -/
abbrev Sheds (m : Exec α) : Prop := Relates Config.Sheds m

/-- A computation that has only taken operands if it fails. -/
abbrev FailsClean (m : Exec α) : Prop := Spares Config.Sheds m

theorem FailsClean.bind (hm : Sheds m) (hk : ∀ a, FailsClean (k a)) : FailsClean (m >>= k) :=
  Spares.bind .trans hm hk

theorem sheds_onStack (h : Relates Stack.Sheds action) : Sheds (onStack action) := by
  refine .intro (fun hok => ?_) fun herror => ?_
  · obtain ⟨s, hs, rfl⟩ := onStack_eq_ok.1 hok
    exact ⟨s, rfl, h.of_ok hs⟩
  · obtain ⟨s, hs, rfl⟩ := onStack_eq_error.1 herror
    exact ⟨s, rfl, h.of_error hs⟩

theorem failsClean_onStack (h : Spares Stack.Sheds action) : FailsClean (onStack action) := by
  intro c f c' herror
  obtain ⟨s, hs, rfl⟩ := onStack_eq_error.1 herror
  exact ⟨s, rfl, h _ _ _ hs⟩

theorem sheds_ofExcept (f : Config → Except Fault α) : Sheds (ofExcept f) := by
  refine .intro (fun hok => ?_) fun herror => ?_
  · obtain ⟨-, rfl⟩ := ofExcept_eq_ok.1 hok
    exact .refl _
  · obtain ⟨-, rfl⟩ := ofExcept_eq_error.1 herror
    exact .refl _

theorem sheds_popIsZero : Sheds popIsZero :=
  .bind .trans (sheds_onStack Stack.sheds_pop) fun _ => .pure .refl _

theorem failsClean_jump (size target : Nat) : FailsClean (jump size target) := by
  intro c f c' h
  obtain ⟨-, -, rfl⟩ := jump_eq_error.1 h
  exact .refl _

theorem failsClean_jumpBy (size : Nat) (offset : Int) : FailsClean (jumpBy size offset) := by
  intro c f c' h
  obtain ⟨-, -, rfl⟩ := jumpBy_eq_error.1 h
  exact .refl _

theorem infallible_modifyThread (g : Thread → Thread) : Infallible (modifyThread g) := by
  intro c f c' h
  exact modifyThread_eq_error.1 h

theorem infallible_shoot (shot : Shot) : Infallible (shoot shot) := by
  intro c f c' h
  exact shoot_eq_error.1 h

theorem failsClean_setVariable (index : Nat) : FailsClean (setVariable index) :=
  .bind (sheds_onStack Stack.sheds_peek) fun _ =>
    .last (.of_relates (sheds_ofExcept _)) fun _ => infallible_modifyThread _

theorem failsClean_setProperty (types : TypeTable) (property : Nat) :
    FailsClean (setProperty types property) := by
  intro c f c' h
  obtain ⟨rfl, -⟩ := setProperty_eq_error.1 h
  exact .refl _

/-- A call takes its arguments once all is checked but that they are there. -/
theorem failsClean_call (functions : RoutineTable) (function : Nat) :
    FailsClean (call functions function) := by
  intro c f c' h
  obtain ⟨rfl, -⟩ := call_eq_error h
  exact .refl _

/-- Operands are fewer than there may be once one has been taken, so there is room for the value
of a call. -/
theorem infallible_leaveCall {c c' : Config} {v : Word} {f : Fault}
    (hframes : c.thread.frames ≠ []) (hroom : c.thread.stack.size < c.thread.stack.capacity) :
    leaveCall v c ≠ .error f c' := by
  intro h
  obtain ⟨F, frames, hcons⟩ := List.exists_cons_of_ne_nil hframes
  have hshrunk : (c.thread.stack.values.shrink F.stackBase).size < c.thread.stack.capacity := by
    rw [Stack.size] at hroom
    rw [Array.size_shrink]
    omega
  have hok : leaveCall v c = .ok () _ := leaveCall_eq_ok.2 ⟨F, frames, hcons, hshrunk, rfl⟩
  rw [h] at hok
  cases hok

end Exec

/-! ## Instructions -/

namespace Instr

open Exec

variable {p : Program} {size : Nat} {i : Instr}

/-- **An instruction that faults has only taken operands**, unless it is a return or what the host
provides. -/
theorem failsClean_execute (hret : i ≠ .ret) (hhost : ∀ index, i ≠ .callDelegate index) :
    FailsClean (i.execute p size) := by
  have one {m : Exec Unit} (hm : FailsClean m) : FailsClean (m >>= fun _ => pure Flow.next) :=
    .last hm fun _ => .pure _
  cases i with
  | push v => exact one (failsClean_onStack (Stack.spares_push v))
  | pop => exact .last (.of_relates (sheds_onStack Stack.sheds_pop)) fun _ => .pure _
  | negate | not =>
    exact .bind (sheds_onStack Stack.sheds_peek) fun _ =>
      one (failsClean_onStack (Stack.spares_replaceTop _))
  | binary op =>
    exact .bind (sheds_onStack Stack.sheds_pop) fun _ =>
      .bind (sheds_onStack Stack.sheds_pop) fun _ => .bind (sheds_ofExcept _) fun _ =>
        one (failsClean_onStack (Stack.spares_push _))
  | jump target => exact one (failsClean_jump size target)
  | branchIfZero target =>
    refine .bind sheds_popIsZero fun b => ?_
    cases b with
    | false => exact .pure _
    | true => exact one (failsClean_jump size target)
  | jumpBy offset => exact one (failsClean_jumpBy size offset)
  | branchIfZeroBy offset =>
    refine .bind sheds_popIsZero fun b => ?_
    cases b with
    | false => exact .pure _
    | true => exact one (failsClean_jumpBy size offset)
  | getVariable _ | getProperty _ =>
    exact .bind (sheds_ofExcept _) fun _ => one (failsClean_onStack (Stack.spares_push _))
  | setVariable index => exact one (failsClean_setVariable index)
  | setProperty property => exact one (failsClean_setProperty _ property)
  | call function => exact one (failsClean_call _ function)
  | callDelegate index => exact absurd rfl (hhost index)
  | fire index =>
    exact .bind (sheds_ofExcept _) fun _ =>
      .last (.of_relates (sheds_onStack (Stack.sheds_popMany _))) fun _ =>
        .last (infallible_shoot _) fun _ => .pure _
  | fireWith index updater =>
    exact .bind (sheds_ofExcept _) fun _ => .bind (sheds_ofExcept _) fun _ =>
      .bind (sheds_onStack (Stack.sheds_popMany _)) fun _ =>
        .last (.of_relates (sheds_onStack (Stack.sheds_popMany _))) fun _ =>
          .last (infallible_shoot _) fun _ => .pure _
  | wait =>
    exact .last (.of_relates (sheds_onStack Stack.sheds_pop)) fun _ =>
      .last (infallible_modifyThread _) fun _ => .pure _
  | ret => exact absurd rfl hret

/-- What the host provides is given the operand stack and nothing else. -/
theorem operates_callDelegate (index : Nat) :
    Spares Config.Operates ((callDelegate index).execute p size) := by
  intro c f c' h
  simp only [execute, bind_eq_error, ofExcept_eq_error, ofExcept_eq_ok, onStack_eq_error,
    pure_eq_error, and_false, exists_false, or_false] at h
  obtain ⟨-, rfl⟩ | ⟨_, _, ⟨-, rfl⟩, s, -, rfl⟩ := h
  · exact (Config.Sheds.refl _).operates
  · exact ⟨s, rfl⟩

/-- A return may only fault for want of its value. -/
theorem sheds_of_ret {c c' : Config} {f : Fault}
    (hfits : c.thread.stack.size ≤ c.thread.stack.capacity)
    (h : ret.execute p size c = .error f c') : c.Sheds c' := by
  obtain ⟨-, -, rfl⟩ | ⟨v, hv, hopen, hleave⟩ := ret_eq_error h
  · exact .refl _
  · have hpos : 0 < c.thread.stack.size := Stack.size_pos_of_back? hv
    refine absurd hleave (infallible_leaveCall hopen ?_)
    simp only [Config.withStack_stack, Stack.size, Array.size_pop] at hfits hpos ⊢
    omega

end Instr

/-! ## Steps and ticks -/

/-- What has become of a configuration by an instruction that faulted: the address and the operand
stack may be others, and nothing else. Operands have only been taken, unless it was a delegate that
faulted. -/
structure Program.Spared (p : Program) (c c' : Config) : Prop where
  rest : c' = { c with thread := { c.thread with ip := c'.thread.ip, stack := c'.thread.stack } }
  operands : (∀ index, p.instr? c.thread ≠ some (.callDelegate index)) →
    c'.thread.stack.values.toList <+: c.thread.stack.values.toList

namespace Program

variable {p : Program} {c c' : Config} {f : Fault}

theorem Spared.refl (p : Program) (c : Config) : p.Spared c c := ⟨rfl, fun _ => List.prefix_refl _⟩

/-- **A step that faults at an instruction has no half-done effects**, whatever the words of the
code are. -/
theorem spared_of_step (hfits : c.thread.stack.size ≤ c.thread.stack.capacity)
    (hinside : ∀ code, p.running c.thread = .ok code → c.thread.ip < code.size)
    (h : p.step c = .error f c') : p.Spared c c' := by
  obtain ⟨-, rfl⟩ | ⟨code, hrun, ⟨-, ⟨-, rfl⟩ | ⟨i, next, hdecode, hexec⟩⟩ | ⟨hend, -⟩⟩ :=
    step_eq_error h
  · exact .refl p c'
  · exact .refl p c'
  · have hinstr : p.instr? c.thread = some i := instr?_of_decode hrun hdecode
    have clean (hsheds : (c.goTo next).Sheds c') : p.Spared c c' := by
      obtain ⟨s, rfl, hs⟩ := hsheds
      exact ⟨rfl, fun _ => hs.remain⟩
    by_cases hret : i = .ret
    · subst hret
      exact clean (Instr.sheds_of_ret hfits hexec)
    by_cases hhost : ∀ index, i ≠ .callDelegate index
    · exact clean (Instr.failsClean_execute hret hhost _ _ _ hexec)
    · push Not at hhost
      obtain ⟨index, rfl⟩ := hhost
      obtain ⟨s, rfl⟩ := Instr.operates_callDelegate index _ _ _ hexec
      exact ⟨rfl, fun hno => absurd hinstr (hno index)⟩
  · exact absurd (hinside code hrun) (Nat.not_lt.2 hend)

/-- A tick that fails has started to run. -/
theorem run_of_tick {patience : Nat} (h : p.tick patience c = some (.error f, c')) :
    p.run (fuel patience c.thread) 0 { c with thread := { c.thread with mode := .ready } } =
      some (.error f, c') := by
  rw [tick] at h
  split at h
  · cases h
  · cases h
  · exact h
  · exact h

end Program

/-- Code that fires with an updater, for which there are too few operands. The firing function takes
two numbers, and the updater one. -/
def misfiring : Program where
  catalog := {
    firing := ⟨#[(("turret", "shoot"), ⟨"turret", "shoot", 0, 2⟩)]⟩
    bulletUpdaters :=
      ⟨#[("home", { numbers := ["speed"], parameterCount := 1, index? := some 0 })]⟩ }
  code := .ofList ([Instr.push 4, .push 5, .fireWith 0 0].flatMap Instr.words)
  looping := false

/-- The limits of a thread that is to run it. -/
def misfiringLimits : Limits where
  stack := 2
  slots := 0
  handles := 0
  depth := 0
  budget := some 3

/-- What its tick leaves: the argument of the updater is gone, and nothing has been fired. -/
def misfired : Config where
  thread := { Thread.ofLimits misfiringLimits with stack := ⟨2, #[4]⟩, ip := misfiring.code.size }
  entity := ⟨0, #[]⟩

namespace Thread

variable {limits : Limits} {p : Program} {admits : Thread → HostCall → Prop}

theorem Sized.executes {c c' : Config} {done : List Config} (h : c.thread.Sized limits)
    (hexec : p.Executes c done c') : c'.thread.Sized limits := by
  induction hexec with
  | refl c => exact h
  | @step c c₁ c' done first rest ih =>
    exact ih (h.outcome (first ▸ p.outcome c : p.Outcome c.thread (.ok .next c₁)))

/-- **A faulting instruction has no half-done effects.** When a tick faults it has come to a
configuration in which its budget is used up, and which it leaves as it is, or in which a step
faults; and unless that step is at the end of the code, it spares everything but operands that it
has taken. Whatever the host has done with the thread before, and whatever the words of the code
are. -/
theorem Hosted.fault_spares {t : Thread} (h : Hosted admits limits t) {patience : Nat}
    {entity : Entity} {shots : Array Shot} {f : Fault} {c' : Config}
    (hfault : p.tick patience ⟨t, entity, shots⟩ = some (.error f, c')) :
    ∃ c done, p.Executes ⟨{ t with mode := .ready }, entity, shots⟩ done c ∧
      ((∃ budget, limits.exhausted? done.length = some budget ∧ f = .budgetExceeded budget ∧
          c' = c) ∨
        p.step c = .error f c' ∧
          ((∀ code, p.running c.thread = .ok code → c.thread.ip < code.size) → p.Spared c c')) := by
  obtain ⟨c, done, hexec, hend⟩ := Program.executes_of_run (Program.run_of_tick hfault)
  have hready : Thread.Sized limits { t with mode := .ready } := { h.sized with }
  have hsized : c.thread.Sized limits := hready.executes hexec
  refine ⟨c, done, hexec, ?_⟩
  obtain ⟨budget, hcut, hresult, rfl⟩ | hlast := hend
  · rw [hsized.limits_eq, Nat.zero_add] at hcut
    exact .inl ⟨budget, hcut, Except.error.inj hresult, rfl⟩
  · have hstep : p.step c = .error f c' := by
      cases hs : p.step c with
      | error f₁ c₁ =>
        rw [hs] at hlast
        obtain ⟨hf, rfl⟩ := Prod.mk.inj (Option.some.inj hlast)
        rw [Except.error.inj hf]
      | ok flow c₁ =>
        rw [hs] at hlast
        cases flow <;> cases hlast
    have hfits : c.thread.stack.size ≤ c.thread.stack.capacity := hsized.capacity ▸ hsized.stack
    exact .inr ⟨hstep, fun hinside => Program.spared_of_step hfits hinside hstep⟩

theorem misfired_spares :
    misfiring.tick 0 ⟨ofLimits misfiringLimits, ⟨0, #[]⟩, #[]⟩ =
        some (.error .stackUnderflow, misfired) ∧
      ∃ c done, misfiring.Executes ⟨ofLimits misfiringLimits, ⟨0, #[]⟩, #[]⟩ done c ∧
        ((∃ budget, misfiringLimits.exhausted? done.length = some budget ∧
            Fault.stackUnderflow = .budgetExceeded budget ∧ misfired = c) ∨
          misfiring.step c = .error .stackUnderflow misfired ∧
            ((∀ code, misfiring.running c.thread = .ok code → c.thread.ip < code.size) →
              misfiring.Spared c misfired)) := by
  have hfault : misfiring.tick 0 ⟨ofLimits misfiringLimits, ⟨0, #[]⟩, #[]⟩ =
      some (.error .stackUnderflow, misfired) := by decide +kernel
  have hnew : Hosted (fun _ _ => True) misfiringLimits (ofLimits misfiringLimits) := .new
  exact ⟨hfault, hnew.fault_spares hfault⟩

end Thread

end Danmaku
