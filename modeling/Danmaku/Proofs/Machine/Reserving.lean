import Danmaku.Machine.Run
import Danmaku.Proofs.Machine.Blind
import Danmaku.Proofs.Machine.Hosting

/-!
# Slots that are claimed ahead

A host can run a routine of a catalog, which claims the slots of all its variables for the root
before it starts, or it can run the routine's code, which claims a slot when it writes to it. It
comes to the same (`Catalog.runs_as_code`), as long as there are slots enough for the routine.

A step sees how many slots belong to the root only where it opens a call, and there only whether the
slots of the call are free. So a step with slots claimed ahead is the step without, unless a call is
refused (`Program.step_reserved`). A tick follows by induction on its steps
(`Program.run_reserved`), and any number of ticks by induction on them.
-/

namespace Danmaku

/-- The thread, so many slots being claimed for its root. -/
def Thread.reserved (n : Nat) (t : Thread) : Thread :=
  { t with rootExtent := max t.rootExtent n }

/-- The configuration, so many slots being claimed for the root. -/
def Config.reserved (n : Nat) (c : Config) : Config := { c with thread := c.thread.reserved n }

/-- Whether a tick has ended for want of a variable slot. -/
def TickResult.isOutOfRange : TickResult → Bool
  | .error (.variableOutOfRange _) => true
  | _ => false

/-- Slots that are claimed need not be claimed again. -/
@[simp] theorem Config.reserved_reserved (n : Nat) (c : Config) :
    (c.reserved n).reserved n = c.reserved n := by
  unfold reserved Thread.reserved
  simp only [Nat.max_assoc, Nat.max_self]

/-- What the root claims by writing to a variable may be claimed before or after. -/
theorem Thread.store_reserved (t : Thread) (n index slot : Nat) (v : Word) :
    (t.reserved n).store index slot v = (t.store index slot v).reserved n := by
  unfold store reserved
  cases t.frames.isEmpty with
  | true => simp only [if_true, Nat.max_assoc, Nat.max_comm n]
  | false => simp only [Bool.false_eq_true, if_false]

/-! ## Steps -/

namespace Exec

variable {α : Type}

/-- The outcome, so many slots being claimed for the root. -/
def reserved (n : Nat) : EStateM.Result Fault Config α → EStateM.Result Fault Config α
  | .ok a c => .ok a (c.reserved n)
  | .error f c => .error f (c.reserved n)

/-- The second outcome is the first one with slots claimed, unless a slot was wanting. -/
inductive Reserves (n : Nat) :
    (r r' : EStateM.Result Fault Config α) → Prop
  | same (r : EStateM.Result Fault Config α) : Reserves n r (reserved n r)
  | refused {r : EStateM.Result Fault Config α} {index : Nat} {c : Config} :
      Reserves n r (.error (.variableOutOfRange index) c)

/-- What does not look at the root's extent is the same if slots are claimed. -/
theorem Oblivious.reserves {m : Exec α} (h : Oblivious m) (n : Nat) (c : Config) :
    Reserves n (m c) (m (c.reserved n)) := by
  have heq : m (c.reserved n) = reserved n (m c) := by
    refine (h id id (max · n) c).trans ?_
    cases m c <;> rfl
  rw [heq]
  exact .same _

end Exec

open Exec

namespace Instr

variable {p : Program} {size n : Nat}

/-- Reading a variable is putting its value on the stack. -/
theorem execute_getVariable_eq (index : Nat) (c : Config) :
    (getVariable index).execute p size c =
      match c.thread.getVariable index with
      | .error f => .error f c
      | .ok v => (push v).execute p size c := by
  simp only [execute, bind, EStateM.bind, Exec.ofExcept]
  cases c.thread.getVariable index <;> rfl

theorem reserves_getVariable (index : Nat) (c : Config) :
    Reserves n ((getVariable index).execute p size c)
      ((getVariable index).execute p size (c.reserved n)) := by
  have hsame : (c.reserved n).thread.getVariable index = c.thread.getVariable index := rfl
  rw [execute_getVariable_eq, execute_getVariable_eq, hsame]
  cases c.thread.getVariable index with
  | error f => exact .same _
  | ok v => exact (oblivious_execute (i := push v) (by simp) (by simp) (by simp)).reserves n c

theorem reserves_setVariable (index : Nat) (c : Config) :
    Reserves n ((setVariable index).execute p size c)
      ((setVariable index).execute p size (c.reserved n)) := by
  have hslot : (c.reserved n).thread.slot index = c.thread.slot index := rfl
  have hstack : (c.reserved n).thread.stack = c.thread.stack := rfl
  rw [execute_setVariable_eq, execute_setVariable_eq, hslot, hstack]
  cases c.thread.stack.values.back? with
  | none => exact .same _
  | some v =>
    cases c.thread.slot index with
    | error f => exact .same _
    | ok slot =>
      simp only [Config.reserved, Thread.store_reserved]
      exact .same (.ok Flow.next { c with thread := c.thread.store index slot v })

/-- **A call is opened at the same slots, or it is refused** because they are claimed. -/
theorem reserves_call (function : Nat) (c : Config) :
    Reserves n ((call function).execute p size c)
      ((call function).execute p size (c.reserved n)) := by
  have htop : (c.reserved n).thread.top = c.thread.top := rfl
  have hlimits : (c.reserved n).thread.limits = c.thread.limits := rfl
  have hframes : (c.reserved n).thread.frames = c.thread.frames := rfl
  have hstack : (c.reserved n).thread.stack = c.thread.stack := rfl
  have hextent : (c.reserved n).thread.rootExtent = max c.thread.rootExtent n := rfl
  rw [execute_call_eq, execute_call_eq, htop, hlimits, hframes, hextent]
  cases p.catalog.functions.at? function with
  | none => exact .same _
  | some callee =>
    simp only
    split
    · exact .same _
    · by_cases hfree : callee.variableCount ≤ c.thread.top ∧
          max c.thread.rootExtent n ≤ c.thread.top - callee.variableCount
      · -- Slots that are free although more are claimed are free.
        rw [if_pos hfree, if_pos ⟨hfree.1, (Nat.le_max_left _ _).trans hfree.2⟩, hstack]
        split
        · exact .same _
        · exact .same (.ok Flow.next { c with thread := c.thread.enter function callee })
      · rw [if_neg hfree]
        exact .refused

/-- **An instruction does the same if slots are claimed for the root**, unless one is wanting. -/
theorem reserves_execute (i : Instr) (c : Config) :
    Reserves n (i.execute p size c) (i.execute p size (c.reserved n)) := by
  cases i with
  | getVariable index => exact reserves_getVariable index c
  | setVariable index => exact reserves_setVariable index c
  | call function => exact reserves_call function c
  | _ => exact (oblivious_execute (by simp) (by simp) (by simp)).reserves n c

end Instr

namespace Program

variable {p : Program} {n fuel spent patience : Nat} {c : Config}

/-- **A step does the same if slots are claimed for the root**, unless one is wanting. -/
theorem step_reserved (p : Program) (n : Nat) (c : Config) :
    Reserves n (p.step c) (p.step (c.reserved n)) := by
  have hrunning : p.running (c.reserved n).thread = p.running c.thread := rfl
  have hip : (c.reserved n).thread.ip = c.thread.ip := rfl
  rw [step_eq, step_eq, hrunning, hip]
  cases p.running c.thread with
  | error f => exact .same _
  | ok code =>
    simp only
    split
    · cases Instr.decode code.words c.thread.ip with
      | error f => exact .same _
      | ok d => exact d.1.reserves_execute (c.goTo d.2)
    · exact p.oblivious_fallOff.reserves n c

/-! ## Ticks -/

/-- Both ticks come to no result, or to the same one, and slots are claimed in the second; unless a
slot was wanting there. -/
inductive TickReserves (n : Nat) : (x x' : Option (TickResult × Config)) → Prop
  | pending : TickReserves n none none
  | done (result : TickResult) (c : Config) :
      TickReserves n (some (result, c)) (some (result, c.reserved n))
  | refused {x : Option (TickResult × Config)} {result : TickResult} {c : Config}
      (wanting : result.isOutOfRange = true) : TickReserves n x (some (result, c))

/-- **As many steps come to the same if slots are claimed for the root.** -/
theorem run_reserved (p : Program) (n fuel spent : Nat) (c : Config) :
    TickReserves n (p.run fuel spent c) (p.run fuel spent (c.reserved n)) := by
  induction fuel generalizing spent c with
  | zero => exact .pending
  | succ fuel ih =>
    have hat : p.isAtInstr (c.reserved n).thread = p.isAtInstr c.thread := rfl
    have hlimits : (c.reserved n).thread.limits = c.thread.limits := rfl
    rw [run, run, hat, hlimits]
    cases if p.isAtInstr c.thread then c.thread.limits.exhausted? spent else none with
    | some budget => exact .done _ c
    | none =>
      have hstep := p.step_reserved n c
      generalize p.step c = r at hstep
      generalize p.step (c.reserved n) = r' at hstep
      cases hstep with
      | same =>
        cases r with
        | error f c₁ => exact .done _ c₁
        | ok flow c₁ =>
          cases flow with
          | next => exact ih _ c₁
          | stop status => exact .done _ c₁
      | refused => exact .refused rfl

theorem tick_reserved (p : Program) (n patience : Nat) (c : Config) :
    TickReserves n (p.tick patience c) (p.tick patience (c.reserved n)) := by
  have hresume : TickReserves n (p.resume patience c) (p.resume patience (c.reserved n)) :=
    p.run_reserved n _ 0 { c with thread := { c.thread with mode := .ready } }
  have hmode : (c.reserved n).thread.mode = c.thread.mode := rfl
  rw [tick, tick, hmode]
  split
  · exact .done _ c
  · next ticks _ =>
    exact .done _ { c with thread := { c.thread with mode := .waiting (ticks + 1) } }
  · exact hresume
  · exact hresume

end Program

/-! ## Any number of ticks -/

/-- What comes of a thread that a host runs tick by tick. For each tick the host says whether the
code starts again after its end, and lends an entity. If it loses patience with a tick, that was the
last. -/
def Thread.drive (tick : Bool → Config → Option (TickResult × Config)) :
    List (Bool × Entity) → Thread → List (TickResult × Config)
  | [], _ => []
  | (looping, entity) :: ticks, t =>
    match tick looping ⟨t, entity, #[]⟩ with
    | none => []
    | some (result, c) => (result, c) :: drive tick ticks c.thread

namespace Catalog

variable {K : Catalog} {kind : RoutineKind} {index patience : Nat} {r : Routine}

/-- A tick of a routine is a tick of its code with the slots of the routine claimed, or ends for
want of a slot. -/
theorem tick_eq_reserved (hr : (K.routines kind).at? index = some r) (looping : Bool) (c : Config) :
    K.tick kind index looping patience c =
        Program.tick ⟨K, r.code, looping⟩ patience (c.reserved r.variableCount) ∨
      ∃ result c', result.isOutOfRange = true ∧
        K.tick kind index looping patience c = some (result, c') := by
  cases ht : c.thread.reserve r.variableCount with
  | ok t =>
    obtain ⟨-, rfl⟩ := Thread.reserve_eq_ok.1 ht
    left
    simp only [tick, hr, ht]
    rfl
  | error f =>
    right
    refine ⟨.error f, c, ?_, by simp only [tick, hr, ht]⟩
    unfold Thread.reserve at ht
    split at ht
    · rw [← Except.error.inj ht]
      rfl
    · cases ht

/-- A tick of a routine and a tick of its code, on threads that are the same once the slots of the
routine are claimed. -/
theorem tick_reserves (hr : (K.routines kind).at? index = some r) (looping : Bool) {c c' : Config}
    (hsame : c'.reserved r.variableCount = c.reserved r.variableCount) :
    Program.TickReserves r.variableCount (Program.tick ⟨K, r.code, looping⟩ patience c)
      (K.tick kind index looping patience c') := by
  obtain heq | ⟨result, c₁, hwanting, heq⟩ := tick_eq_reserved hr looping c'
  · rw [heq, hsame]
    exact Program.tick_reserved _ _ _ _
  · rw [heq]
    exact .refused hwanting

theorem drive_reserves (hr : (K.routines kind).at? index = some r)
    (ticks : List (Bool × Entity)) {t t' : Thread}
    (hsame : t'.reserved r.variableCount = t.reserved r.variableCount)
    (hrange : ∀ x ∈ t'.drive (K.tick kind index · patience) ticks,
      x.1.isOutOfRange = false) :
    List.Forall₂ (fun x y => x.1 = y.1 ∧ x.2 = y.2.reserved r.variableCount)
      (t'.drive (K.tick kind index · patience) ticks)
      (t.drive (fun looping => Program.tick ⟨K, r.code, looping⟩ patience) ticks) := by
  induction ticks generalizing t t' with
  | nil => exact .nil
  | cons first ticks ih =>
    obtain ⟨looping, entity⟩ := first
    have htick : Program.TickReserves r.variableCount
        (Program.tick ⟨K, r.code, looping⟩ patience ⟨t, entity, #[]⟩)
        (K.tick kind index looping patience ⟨t', entity, #[]⟩) :=
      tick_reserves hr looping (by simp only [Config.reserved, hsame])
    rw [Thread.drive] at hrange ⊢
    rw [Thread.drive]
    generalize Program.tick ⟨K, r.code, looping⟩ patience ⟨t, entity, #[]⟩ = x at htick
    generalize K.tick kind index looping patience ⟨t', entity, #[]⟩ = x' at htick hrange ⊢
    cases htick with
    | pending => exact .nil
    | done result c =>
      have hagain : (c.reserved r.variableCount).thread.reserved r.variableCount =
          c.thread.reserved r.variableCount :=
        congrArg Config.thread (c.reserved_reserved r.variableCount)
      exact .cons ⟨rfl, rfl⟩ (ih hagain fun x hx => hrange x (List.mem_cons_of_mem _ hx))
    | refused wanting =>
      have hin := hrange _ List.mem_cons_self
      rw [wanting] at hin
      cases hin

/-- **To run a routine is to run its code.** A host that runs a routine of a catalog, and a host
that runs the routine's code on the same thread, see the same from tick to tick: the same results,
shots and entities, and threads that differ in how many slots belong to the root. This is so as long
as no tick of the routine ends for want of a variable slot, whatever the thread, the code and the
functions that it calls are. -/
theorem runs_as_code (hr : (K.routines kind).at? index = some r) (patience : Nat)
    (ticks : List (Bool × Entity)) (t : Thread)
    (hrange : ∀ x ∈ t.drive (K.tick kind index · patience) ticks, x.1.isOutOfRange = false) :
    List.Forall₂
      (fun x y => x.1 = y.1 ∧ x.2.shots = y.2.shots ∧ x.2.entity = y.2.entity ∧
        x.2.thread = { y.2.thread with rootExtent := x.2.thread.rootExtent })
      (t.drive (K.tick kind index · patience) ticks)
      (t.drive (fun looping => Program.tick ⟨K, r.code, looping⟩ patience) ticks) := by
  refine (drive_reserves hr ticks rfl hrange).imp ?_
  rintro x y ⟨hresult, hconfig⟩
  rw [hconfig]
  exact ⟨hresult, rfl, rfl, rfl⟩

/-- A catalog with an action that has two variables. It writes to the first what a function returns
that waits, and fires. -/
def lingering : Catalog where
  firing := ⟨#[(("turret", "shoot"), ⟨"turret", "shoot", 0, 1⟩)]⟩
  functions := ⟨#[("linger", {
    numbers := ["value"]
    code := .ofList ([Instr.push 1, .wait, .push 5, .setVariable 0, .ret].flatMap Instr.words)
    index? := some 0 })]⟩
  actions := ⟨#[("main", {
    numbers := ["first", "second"]
    code := .ofList ([Instr.call 0, .setVariable 0, .fire 0].flatMap Instr.words)
    index? := some 0 })]⟩

/-- The limits of a thread with slots for the action and for one call of the function. -/
def lingeringLimits : Limits := { stack := 1, slots := 3, handles := 0, depth := 1 }

/-- Ticks for two runs of the action. -/
def lingeringTicks : List (Bool × Entity) := List.replicate 4 (true, ⟨0, #[]⟩)

theorem lingering_runs_as_code :
    ((Thread.ofLimits lingeringLimits).drive (lingering.tick .action 0 · 0) lingeringTicks).map
        (fun x => (x.1, x.2.shots.size, x.2.thread.rootExtent)) =
      [(.ok .suspended, 0, 2), (.ok .completed, 1, 2), (.ok .suspended, 0, 2),
        (.ok .completed, 1, 2)] ∧
    ∃ r, lingering.actions.at? 0 = some r ∧
      List.Forall₂
        (fun x y => x.1 = y.1 ∧ x.2.shots = y.2.shots ∧ x.2.entity = y.2.entity ∧
          x.2.thread = { y.2.thread with rootExtent := x.2.thread.rootExtent })
        ((Thread.ofLimits lingeringLimits).drive (lingering.tick .action 0 · 0) lingeringTicks)
        ((Thread.ofLimits lingeringLimits).drive
          (fun looping => Program.tick ⟨lingering, r.code, looping⟩ 0) lingeringTicks) := by
  have hrange : ∀ x ∈ (Thread.ofLimits lingeringLimits).drive (lingering.tick .action 0 · 0)
      lingeringTicks, x.1.isOutOfRange = false := by decide +kernel
  obtain ⟨r, hr⟩ : ∃ r, (lingering.routines .action).at? 0 = some r := ⟨_, rfl⟩
  exact ⟨by decide +kernel, r, hr, runs_as_code hr 0 _ _ hrange⟩

end Catalog

end Danmaku
