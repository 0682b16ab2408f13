import Danmaku.Machine.Run
import Danmaku.Proofs.Machine.Outcome
import Mathlib.Logic.Relation

/-!
# Threads in the hands of a host

A tick is a sequence of events: the host lends an entity, the thread waits on or wakes up, and then
it takes steps (`Config.Event`, `Program.passes_tick`). Between ticks a host may do more with a
thread (`HostCall`), and it may go on after a failure; `Thread.Hosted` holds of the threads that
come of it. The calls need not have anything to do with each other: each tick may run other code,
with another catalog.
-/

namespace Danmaku

/-! ## Events of a tick -/

/-- What can happen to a configuration in a tick, one thing at a time. The code that runs is any,
its catalog one of those that are allowed. -/
inductive Config.Event (allowed : Catalog → Prop) (c : Config) : Config → Prop
  /-- The host lends an entity, and takes note of the shots. -/
  | lend (entity : Entity) (shots : Array Shot) : Event allowed c { c with entity, shots }
  /-- The thread waits on. -/
  | wait {ticks : Nat} (mode : c.thread.mode = .waiting (ticks + 2)) :
      Event allowed c { c with thread := { c.thread with mode := .waiting (ticks + 1) } }
  /-- The thread does not wait any more. -/
  | wake (mode : c.thread.mode ≠ .finished) :
      Event allowed c { c with thread := { c.thread with mode := .ready } }
  /-- The thread takes a step, which may fault. -/
  | step {p : Program} (allow : allowed p.catalog) (ready : c.thread.mode = .ready) :
      Event allowed c (after p.step c)

/-- A sequence of events. -/
abbrev Config.Passes (allowed : Catalog → Prop) : Config → Config → Prop :=
  Relation.ReflTransGen (Config.Event allowed)

/-- A step after which the tick goes on leaves the mode as it is. -/
theorem Program.Outcome.mode_eq {p : Program} {t : Thread} {c : Config}
    (h : p.Outcome t (.ok .next c)) : c.thread.mode = t.mode := by
  cases h with
  | moves quiet => exact quiet.mode
  | writes quiet slot_eq eq => rw [eq]; exact quiet.mode
  | enters quiet _ _ _ _ _ eq => rw [eq]; exact quiet.mode
  | leaves frames_eq quiet => exact quiet.mode

/-- Nor does a step that faults change the mode. -/
theorem Program.Outcome.mode_eq_of_error {p : Program} {t : Thread} {f : Fault} {c : Config}
    (h : p.Outcome t (.error f c)) : c.thread.mode = t.mode := by
  cases h with
  | faults quiet => exact quiet.mode
  | loses frames_eq quiet => exact quiet.mode

variable {allowed : Catalog → Prop} {c c' : Config} {patience fuel spent : Nat}
  {result : TickResult}

namespace Program

variable {p : Program}

theorem passes_run (hp : allowed p.catalog) (hready : c.thread.mode = .ready)
    (hrun : p.run fuel spent c = some (result, c')) : Config.Passes allowed c c' := by
  induction fuel generalizing spent c with
  | zero => cases hrun
  | succ fuel ih =>
    have hstep : Config.Event allowed c (after p.step c) := .step hp hready
    simp only [run] at hrun
    split at hrun
    · obtain ⟨-, rfl⟩ := Prod.mk.inj (Option.some.inj hrun)
      exact .refl
    · split at hrun
      · next h =>
        obtain ⟨-, rfl⟩ := Prod.mk.inj (Option.some.inj hrun)
        exact .single (after_error h ▸ hstep)
      · next h =>
        obtain ⟨-, rfl⟩ := Prod.mk.inj (Option.some.inj hrun)
        exact .single (after_ok h ▸ hstep)
      · next c₁ h =>
        have hmode := (h ▸ p.outcome c : p.Outcome c.thread (.ok .next c₁)).mode_eq
        exact .head (after_ok h ▸ hstep) (ih (hmode.trans hready) hrun)

/-- **A tick is a sequence of events.** -/
theorem passes_tick (hp : allowed p.catalog) (htick : p.tick patience c = some (result, c')) :
    Config.Passes allowed c c' := by
  have hresume (hmode : c.thread.mode ≠ .finished)
      (h : p.resume patience c = some (result, c')) : Config.Passes allowed c c' :=
    .head (.wake hmode) (passes_run hp rfl h)
  simp only [tick] at htick
  split at htick
  · obtain ⟨-, rfl⟩ := Prod.mk.inj (Option.some.inj htick)
    exact .refl
  · next ticks hmode =>
    obtain ⟨-, rfl⟩ := Prod.mk.inj (Option.some.inj htick)
    exact .single (.wait hmode)
  · next ticks _ hmode => exact hresume (by rw [hmode]; nofun) htick
  · next hmode => exact hresume (by rw [hmode]; nofun) htick

end Program

/-- A tick of a routine claims the routine's slots, if it is there, and they are; then it is a tick
of the routine's code. -/
theorem Catalog.tick_inv {K : Catalog} {kind : RoutineKind} {index : Nat} {looping : Bool}
    (h : K.tick kind index looping patience c = some (result, c')) :
    c' = c ∨ ∃ r t, (K.routines kind).at? index = some r ∧
      c.thread.reserve r.variableCount = .ok t ∧
      (⟨K, r.code, looping⟩ : Program).tick patience { c with thread := t } =
        some (result, c') := by
  simp only [tick] at h
  split at h
  · exact .inl (Prod.mk.inj (Option.some.inj h)).2.symm
  · next r hr =>
    split at h
    · exact .inl (Prod.mk.inj (Option.some.inj h)).2.symm
    · next t ht => exact .inr ⟨r, t, hr, ht, h⟩

/-! ## Calls of a host -/

namespace Thread

variable {t t' : Thread} {index n : Nat} {v : Word} {handle : Option Handle}

theorem forUpdater_eq_ok {limits : Limits} {arguments : List Word} :
    forUpdater limits arguments = .ok t ↔
      arguments.length ≤ limits.slots ∧
        t = { ofLimits limits with
          slots := fill (ofLimits limits).slots 0 arguments
          rootExtent := arguments.length } := by
  have hsize : (ofLimits limits).slots.size = limits.slots := Array.size_replicate
  simp only [forUpdater, hsize]
  split
  · simp; omega
  · simp [eq_comm]; omega

theorem reserve_eq_ok : t.reserve n = .ok t' ↔
    n ≤ t.slots.size ∧ t' = { t with rootExtent := max t.rootExtent n } := by
  unfold reserve
  split
  · simp; omega
  · simp [eq_comm]; omega

theorem setVariable_eq_ok : t.setVariable index v = .ok t' ↔
    ∃ slot, t.slot index = .ok slot ∧ t' = t.store index slot v := by
  unfold setVariable
  cases t.slot index <;> simp [Except.map, eq_comm]

theorem setHandle_eq_ok : t.setHandle index handle = .ok t' ↔
    index < t.handles.size ∧ t' = { t with handles := t.handles.setIfInBounds index handle } := by
  unfold setHandle
  split <;> simp [*, eq_comm]

end Thread

/-- What a host can do with a thread. -/
inductive HostCall
  /-- Run code for a tick, for an entity. Without a budget the host waits for so many steps. -/
  | tick (p : Program) (entity : Entity) (patience : Nat)
  /-- Run a routine of a catalog for a tick. -/
  | tickRoutine (K : Catalog) (kind : RoutineKind) (index : Nat) (looping : Bool)
      (entity : Entity) (patience : Nat)
  /-- Change a variable. -/
  | setVariable (index : Nat) (value : Word)
  /-- Change an entity reference. -/
  | setHandle (index : Nat) (handle : Option Handle)
  /-- Claim slots for the root. -/
  | reserve (count : Nat)
  /-- Do something with the operand stack. -/
  | operate (request : StackRequest)
  /-- Set the thread back. -/
  | reset

/-- The thread after a call of the host, also if the call fails. There is none if the host has lost
its patience. -/
def Thread.after? (t : Thread) : HostCall → Option Thread
  | .tick p entity patience => (p.tick patience ⟨t, entity, #[]⟩).map fun r => r.2.thread
  | .tickRoutine K kind index looping entity patience =>
    (K.tick kind index looping patience ⟨t, entity, #[]⟩).map fun r => r.2.thread
  | .setVariable index value => some ((t.setVariable index value).toOption.getD t)
  | .setHandle index handle => some ((t.setHandle index handle).toOption.getD t)
  | .reserve count => some ((t.reserve count).toOption.getD t)
  | .operate request => some { t with stack := after request.perform t.stack }
  | .reset => some t.reset

/-- What a call of a host can do to a thread. -/
inductive Thread.Turns (t : Thread) : HostCall → Thread → Prop
  /-- It fails, and does nothing. -/
  | fails (call : HostCall) : Turns t call t
  /-- Code runs for a tick. -/
  | ticks {p : Program} {entity : Entity} {patience : Nat} {c : Config}
      (passes : Config.Passes (fun _ => True) ⟨t, entity, #[]⟩ c) :
      Turns t (.tick p entity patience) c.thread
  /-- The slots of a routine are claimed, and it runs for a tick. -/
  | ticksRoutine {K : Catalog} {kind : RoutineKind} {index : Nat} {looping : Bool}
      {entity : Entity} {patience : Nat} {r : Routine} {t₁ : Thread} {c : Config}
      (at_eq : (K.routines kind).at? index = some r) (claim : t.reserve r.variableCount = .ok t₁)
      (passes : Config.Passes (fun _ => True) ⟨t₁, entity, #[]⟩ c) :
      Turns t (.tickRoutine K kind index looping entity patience) c.thread
  /-- A variable is written. -/
  | writes {index slot : Nat} {v : Word} (slot_eq : t.slot index = .ok slot) :
      Turns t (.setVariable index v) (t.store index slot v)
  /-- An entity reference is written. -/
  | refers {index : Nat} {handle : Option Handle} :
      Turns t (.setHandle index handle)
        { t with handles := t.handles.setIfInBounds index handle }
  /-- Slots are claimed. -/
  | claims {n : Nat} {t₁ : Thread} (claim : t.reserve n = .ok t₁) : Turns t (.reserve n) t₁
  /-- The operand stack is used. -/
  | operates {request : StackRequest} {s : Stack} (fits : t.stack.Fits s) :
      Turns t (.operate request) { t with stack := s }
  /-- The thread is set back. -/
  | resets : Turns t .reset t.reset

/-- **What a call of a host does to a thread.** -/
theorem Thread.turns {t t' : Thread} {call : HostCall} (h : t.after? call = some t') :
    t.Turns call t' := by
  -- A call that fails leaves the thread as it is.
  have orSame {call : HostCall} {result : Except Fault Thread}
      (hr : some (result.toOption.getD t) = some t')
      (hok : ∀ t₁, result = .ok t₁ → t.Turns call t₁) : t.Turns call t' := by
    obtain rfl := Option.some.inj hr
    cases result with
    | ok t₁ => exact hok t₁ rfl
    | error f => exact .fails call
  cases call with
  | tick p entity patience =>
    obtain ⟨⟨result, c⟩, htick, rfl⟩ := Option.map_eq_some_iff.1 h
    exact .ticks (Program.passes_tick trivial htick)
  | tickRoutine K kind index looping entity patience =>
    obtain ⟨⟨result, c⟩, htick, rfl⟩ := Option.map_eq_some_iff.1 h
    obtain rfl | ⟨r, t₁, hat, hclaim, htick⟩ := Catalog.tick_inv htick
    · exact .fails _
    · exact .ticksRoutine hat hclaim (Program.passes_tick trivial htick)
  | setVariable index v =>
    refine orSame h fun t₁ h₁ => ?_
    obtain ⟨slot, hslot, rfl⟩ := setVariable_eq_ok.1 h₁
    exact .writes hslot
  | setHandle index handle =>
    refine orSame h fun t₁ h₁ => ?_
    obtain ⟨-, rfl⟩ := setHandle_eq_ok.1 h₁
    exact .refers
  | reserve n => exact orSame h fun t₁ h₁ => .claims h₁
  | operate request =>
    obtain rfl := Option.some.inj h
    exact .operates (Stack.fits_perform request t.stack)
  | reset =>
    obtain rfl := Option.some.inj h
    exact .resets

/-- The threads that come of calls of a host, each of which was admitted, from a new thread with
some limits. -/
inductive Thread.Hosted (admits : Thread → HostCall → Prop) (limits : Limits) : Thread → Prop
  /-- The thread is new. -/
  | new : Hosted admits limits (.ofLimits limits)
  /-- The thread is new, and has the arguments of an updater. -/
  | newUpdater {arguments : List Word} {t : Thread}
      (make : Thread.forUpdater limits arguments = .ok t) : Hosted admits limits t
  /-- The host does something with the thread. -/
  | call {t t' : Thread} {call : HostCall} (h : Hosted admits limits t) (admitted : admits t call)
      (eq : t.after? call = some t') : Hosted admits limits t'

end Danmaku
