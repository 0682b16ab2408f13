import Danmaku.Proofs.Safety.Layout

/-!
# Threads with flags

A thread has one mode, so it cannot both wait and be finished. Here it has two flags and a
countdown in its stead, each of which is set on its own: a wait sets one flag and the countdown, the
end of the root sets the other flag, and a tick looks at both (`Flagged.tick`). Nothing but the
order in which this is done rules out that both are set, or that a countdown is left to a thread
that does not wait.

The flags are always those of a mode: what a host does with a thread and with its flags, it does
with the mode (`Flagged.after?_flagged`). So they rule each other out at all times
(`Flagged.Hosted.flags_intact`).
-/

namespace Danmaku

/-- The flags of a thread, and its countdown. -/
structure Flags where
  /-- The thread waits. -/
  suspended : Bool := false
  /-- The thread has come to its end. -/
  finished : Bool := false
  /-- How many ticks the thread still waits. -/
  countdown : Nat := 0

/-- The flags that say what a mode says. -/
def Flags.ofMode : Mode → Flags
  | .ready => {}
  | .waiting ticks => { suspended := true, countdown := ticks }
  | .finished => { finished := true }

/-- Something that runs, with flags. The mode of its thread is not used. -/
structure Flagged (α : Type) where
  /-- What runs. -/
  body : α
  /-- Whether it can go on. -/
  flags : Flags

/-- A thread with flags for its mode. -/
def Thread.flagged (t : Thread) : Flagged Thread where
  body := { t with mode := .ready }
  flags := .ofMode t.mode

/-- A configuration with flags for the mode of its thread. -/
def Config.flagged (c : Config) : Flagged Config where
  body := { c with thread := { c.thread with mode := .ready } }
  flags := .ofMode c.thread.mode

namespace Flagged

/-! ## Steps and ticks -/

/-- A computation that changes a configuration and its flags. -/
abbrev FlagM := EStateM Fault (Flagged Config)

/-- A computation that leaves the flags as they are. -/
def plain {α : Type} (m : Exec α) : FlagM α := fun s =>
  match m s.body with
  | .ok a c => .ok a { s with body := c }
  | .error f c => .error f { s with body := c }

/-- Change the flags. -/
def modifyFlags (f : Flags → Flags) : FlagM Unit := fun s => .ok () { s with flags := f s.flags }

/-- Come to the end of the root. -/
def finish (looping : Bool) : FlagM Flow := do
  plain (Exec.goTo 0)
  if !looping then modifyFlags fun flags => { flags with finished := true }
  return .stop .completed

open Exec in
/-- Execute an instruction of code of some size, the thread being at the address after it. -/
def execute (p : Program) (size : Nat) : Instr → FlagM Flow
  | .wait => do
    let ticks ← plain (onStack Stack.pop)
    modifyFlags fun flags => { flags with countdown := ticks.toTicks }
    modifyFlags fun flags => { flags with suspended := true }
    return .stop .suspended
  | .ret => do
    let value ← plain (onStack Stack.pop)
    if (← get).body.thread.frames.isEmpty then
      plain (onStack Stack.clear)
      plain (modifyThread fun t => { t with lastReturn := some value })
      finish p.looping
    else
      plain (leaveCall value)
      return .next
  | i => plain (i.execute p size)

/-- What happens at the end of the code. -/
def fallOff (p : Program) : FlagM Flow := do
  if (← get).body.thread.frames.isEmpty then finish p.looping
  else
    plain (Exec.leaveCall 0)
    return .next

/-- One step. -/
def step (p : Program) : FlagM Flow := do
  let code ← plain (Exec.ofExcept fun c => p.running c.thread)
  if (← get).body.thread.ip < code.size then
    let (i, next) ← plain (Exec.ofExcept fun c => Instr.decode code.words c.thread.ip)
    plain (Exec.goTo next)
    execute p code.size i
  else fallOff p

/-- Take up to `fuel` steps, `spent` instructions of the tick having been executed. -/
def run (p : Program) : (fuel spent : Nat) → Flagged Config → Option (TickResult × Flagged Config)
  | 0, _, _ => none
  | fuel + 1, spent, s =>
    let counts := p.isAtInstr s.body.thread
    match if counts then s.body.thread.limits.exhausted? spent else none with
    | some budget => some (.error (.budgetExceeded budget), s)
    | none =>
      match step p s with
      | .error fault s => some (.error fault, s)
      | .ok (.stop status) s => some (.ok status, s)
      | .ok .next s => run p fuel (if counts then spent + 1 else spent) s

/-- One tick. -/
def tick (p : Program) (patience : Nat) (s : Flagged Config) :
    Option (TickResult × Flagged Config) :=
  let resume := run p (Program.fuel patience s.body.thread) 0
  if s.flags.finished then some (.ok .completed, s)
  else if s.flags.suspended then
    let countdown := s.flags.countdown - 1
    if 0 < countdown then some (.ok .suspended, { s with flags := { s.flags with countdown } })
    else resume { s with flags := { s.flags with countdown, suspended := false } }
  else resume s

/-- One tick of a routine of the catalog. -/
def tickRoutine (K : Catalog) (kind : RoutineKind) (index : Nat) (looping : Bool) (patience : Nat)
    (s : Flagged Config) : Option (TickResult × Flagged Config) :=
  match (K.routines kind).at? index with
  | none => some (.error (Catalog.missingRoutine kind index), s)
  | some r =>
    match s.body.thread.reserve r.variableCount with
    | .error fault => some (.error fault, s)
    | .ok thread =>
      tick ⟨K, r.code, looping⟩ patience { s with body := { s.body with thread } }

/-! ## Calls of a host -/

/-- The thread after a call of the host, also if the call fails. -/
def after? (s : Flagged Thread) : HostCall → Option (Flagged Thread)
  | .tick p entity patience =>
    (tick p patience ⟨⟨s.body, entity, #[]⟩, s.flags⟩).map fun r => ⟨r.2.body.thread, r.2.flags⟩
  | .tickRoutine K kind index looping entity patience =>
    (tickRoutine K kind index looping patience ⟨⟨s.body, entity, #[]⟩, s.flags⟩).map fun r =>
      ⟨r.2.body.thread, r.2.flags⟩
  | .setVariable index value =>
    some { s with body := (s.body.setVariable index value).toOption.getD s.body }
  | .setHandle index handle =>
    some { s with body := (s.body.setHandle index handle).toOption.getD s.body }
  | .reserve count => some { s with body := (s.body.reserve count).toOption.getD s.body }
  | .operate request =>
    some { s with body := { s.body with stack := after request.perform s.body.stack } }
  | .reset => some ⟨s.body.reset, {}⟩

/-- The threads with flags that come of calls of a host. -/
inductive Hosted (limits : Limits) : Flagged Thread → Prop
  /-- The thread is new. -/
  | new : Hosted limits ⟨.ofLimits limits, {}⟩
  /-- The thread is new, and has the arguments of an updater. -/
  | newUpdater {arguments : List Word} {t : Thread}
      (make : Thread.forUpdater limits arguments = .ok t) : Hosted limits ⟨t, {}⟩
  /-- The host does something with the thread. -/
  | call {s s' : Flagged Thread} {call : HostCall} (h : Hosted limits s)
      (eq : s.after? call = some s') : Hosted limits s'

/-- What holds of a thread with flags at all times between the calls of a host. -/
structure Intact (limits : Limits) (s : Flagged Thread) : Prop extends s.body.Sized limits where
  finished : s.flags.finished → s.flags.suspended = false ∧ s.body.frames = [] ∧ s.body.ip = 0
  countdown : 0 < s.flags.countdown → s.flags.suspended

/-! ## The flags are those of a mode -/

section

variable {α β : Type} {p : Program} {c c' : Config} {t : Thread}

/-- An outcome, with flags for the mode. -/
def ofResult : EStateM.Result Fault Config α → EStateM.Result Fault (Flagged Config) α
  | .ok a c => .ok a c.flagged
  | .error f c => .error f c.flagged

theorem flagged_of_ready (h : c.thread.mode = .ready) : c.flagged = ⟨c, {}⟩ := by
  obtain ⟨t, entity, shots⟩ := c
  obtain ⟨limits, stack, slots, handles, ip, frames, mode, lastReturn, rootExtent⟩ := t
  obtain rfl : mode = .ready := h
  rfl

/-- One computation after another, each of which has the flags of the mode. -/
theorem bind_flagged {m : FlagM α} {m' : Exec α} {k : α → FlagM β} {k' : α → Exec β}
    (hm : m c.flagged = ofResult (m' c))
    (hk : ∀ a c', m' c = .ok a c' → k a c'.flagged = ofResult (k' a c')) :
    (m >>= k) c.flagged = ofResult ((m' >>= k') c) := by
  rw [show (m >>= k) c.flagged = EStateM.bind m k c.flagged from rfl,
    show (m' >>= k') c = EStateM.bind m' k' c from rfl, EStateM.bind, EStateM.bind, hm]
  cases h : m' c with
  | ok a c' => exact hk a c' h
  | error f c' => rfl

/-- A computation that does not change the mode needs no flags. -/
theorem plain_flagged {m : Exec α} (hready : c.thread.mode = .ready)
    (hmode : (after m c).thread.mode = .ready) : plain m c.flagged = ofResult (m c) := by
  rw [flagged_of_ready hready, plain]
  cases h : m c with
  | ok a c' =>
    rw [after_ok h] at hmode
    rw [ofResult, flagged_of_ready hmode]
  | error f c' =>
    rw [after_error h] at hmode
    rw [ofResult, flagged_of_ready hmode]

theorem plain_quiet {m : Exec α} (hready : c.thread.mode = .ready) (hquiet : Exec.Quiet m) :
    plain m c.flagged = ofResult (m c) :=
  plain_flagged hready ((hquiet c).mode.trans hready)

/-- A computation that starts with a look at its state. -/
theorem get_flagged {k : Flagged Config → FlagM β} {k' : Config → Exec β}
    (h : k c.flagged c.flagged = ofResult (k' c c)) :
    (get >>= k) c.flagged = ofResult ((get >>= k') c) := h

theorem finish_flagged (looping : Bool) (hready : c.thread.mode = .ready) :
    finish looping c.flagged = ofResult (Exec.finish looping c) := by
  rw [flagged_of_ready hready]
  obtain ⟨t, entity, shots⟩ := c
  obtain ⟨limits, stack, slots, handles, ip, frames, mode, lastReturn, rootExtent⟩ := t
  obtain rfl : mode = .ready := hready
  cases looping <;> rfl

/-- A call is left without flags. -/
theorem leaveCall_flagged (p : Program) (v : Word) (hready : c.thread.mode = .ready) :
    (do plain (Exec.leaveCall v); return Flow.next : FlagM Flow) c.flagged =
      ofResult ((do Exec.leaveCall v; return Flow.next : Exec Flow) c) := by
  refine bind_flagged (plain_flagged hready ?_) fun _ _ _ => rfl
  cases h : Exec.leaveCall v c with
  | ok u c' =>
    rw [after_ok h]
    exact (Program.Outcome.of_leaveCall_ok (p := p) h).mode_eq.trans hready
  | error f c' =>
    rw [after_error h]
    exact (Program.Outcome.of_leaveCall_error (p := p) h).mode_eq_of_error.trans hready

theorem wait_flagged (size : Nat) (hready : c.thread.mode = .ready) :
    execute p size .wait c.flagged = ofResult (Instr.wait.execute p size c) := by
  have hpop : Exec.Quiet (Exec.onStack Stack.pop) := Exec.quiet_onStack Stack.fits_pop
  refine bind_flagged (plain_quiet hready hpop) fun ticks c₁ h₁ => ?_
  have hready₁ : c₁.thread.mode = .ready := (hpop.of_ok h₁).mode.trans hready
  rw [flagged_of_ready hready₁]
  obtain ⟨t, entity, shots⟩ := c₁
  obtain ⟨limits, stack, slots, handles, ip, frames, mode, lastReturn, rootExtent⟩ := t
  obtain rfl : mode = .ready := hready₁
  rfl

theorem ret_flagged (size : Nat) (hready : c.thread.mode = .ready) :
    execute p size .ret c.flagged = ofResult (Instr.ret.execute p size c) := by
  have hpop : Exec.Quiet (Exec.onStack Stack.pop) := Exec.quiet_onStack Stack.fits_pop
  have hclear : Exec.Quiet (Exec.onStack Stack.clear) := Exec.quiet_onStack Stack.fits_clear
  refine bind_flagged (plain_quiet hready hpop) fun value c₁ h₁ => get_flagged ?_
  have hready₁ : c₁.thread.mode = .ready := (hpop.of_ok h₁).mode.trans hready
  rw [show c₁.flagged.body.thread.frames = c₁.thread.frames from rfl]
  split
  · refine bind_flagged (plain_quiet hready₁ hclear) fun _ c₂ h₂ => ?_
    have hready₂ : c₂.thread.mode = .ready := (hclear.of_ok h₂).mode.trans hready₁
    refine bind_flagged (plain_flagged hready₂ hready₂) fun _ c₃ h₃ => ?_
    obtain rfl := Exec.modifyThread_eq_ok.1 h₃
    exact finish_flagged p.looping hready₂
  · exact leaveCall_flagged p value hready₁

/-- **An instruction has the flags of the mode.** -/
theorem execute_flagged (i : Instr) (size : Nat) (hready : c.thread.mode = .ready) :
    execute p size i c.flagged = ofResult (i.execute p size c) := by
  have awake (hwait : i ≠ .wait) (hret : i ≠ .ret) :
      plain (i.execute p size) c.flagged = ofResult (i.execute p size c) := by
    refine plain_flagged hready ?_
    have hout := Program.Outcome.of_execute (p := p) i size c
    cases h : i.execute p size c with
    | ok flow c' =>
      obtain rfl := Instr.execute_next hwait hret c flow c' h
      rw [after_ok h]
      exact (h ▸ hout : p.Outcome c.thread (.ok .next c')).mode_eq.trans hready
    | error f c' =>
      rw [after_error h]
      exact (h ▸ hout : p.Outcome c.thread (.error f c')).mode_eq_of_error.trans hready
  cases i with
  | wait => exact wait_flagged size hready
  | ret => exact ret_flagged size hready
  | _ => exact awake (by simp) (by simp)

theorem fallOff_flagged (hready : c.thread.mode = .ready) :
    fallOff p c.flagged = ofResult (p.fallOff c) := by
  refine get_flagged ?_
  rw [show c.flagged.body.thread.frames = c.thread.frames from rfl]
  split
  · exact finish_flagged p.looping hready
  · exact leaveCall_flagged p 0 hready

/-- **A step has the flags of the mode.** -/
theorem step_flagged (hready : c.thread.mode = .ready) :
    step p c.flagged = ofResult (p.step c) := by
  rw [step, Program.step]
  refine bind_flagged (plain_quiet hready (Exec.quiet_ofExcept _)) fun code c₁ h₁ =>
    get_flagged ?_
  obtain ⟨-, rfl⟩ := Exec.ofExcept_eq_ok.1 h₁
  rw [show c₁.flagged.body.thread.ip = c₁.thread.ip from rfl]
  split
  · rw [Program.instruct]
    refine bind_flagged (plain_quiet hready (Exec.quiet_ofExcept _)) fun d c₂ h₂ => ?_
    obtain ⟨-, rfl⟩ := Exec.ofExcept_eq_ok.1 h₂
    refine bind_flagged (plain_quiet hready (Exec.quiet_goTo _)) fun _ c₃ h₃ => ?_
    obtain rfl := Exec.modifyThread_eq_ok.1 h₃
    exact execute_flagged d.1 code.size hready
  · exact fallOff_flagged hready

end

/-! ## Ticks -/

section

variable {p : Program} {c : Config} {fuel spent : Nat}

/-- A result of a tick, with flags for the mode. -/
def ofTick (r : TickResult × Config) : TickResult × Flagged Config := (r.1, r.2.flagged)

theorem run_flagged (hready : c.thread.mode = .ready) :
    run p fuel spent c.flagged = (p.run fuel spent c).map ofTick := by
  induction fuel generalizing spent c with
  | zero => rfl
  | succ fuel ih =>
    have hat : p.isAtInstr c.flagged.body.thread = p.isAtInstr c.thread := rfl
    have hlimits : c.flagged.body.thread.limits = c.thread.limits := rfl
    rw [run, Program.run]
    simp only [hat, hlimits, step_flagged hready]
    cases (if p.isAtInstr c.thread then c.thread.limits.exhausted? spent else none) with
    | some budget => rfl
    | none =>
      cases hstep : p.step c with
      | error f c' => rfl
      | ok flow c' =>
        cases flow with
        | stop status => rfl
        | next =>
          have hout := p.outcome c
          rw [hstep] at hout
          exact ih (hout.mode_eq.trans hready)

/-- **A tick has the flags of the mode.** -/
theorem tick_flagged (p : Program) (patience : Nat) (c : Config) :
    tick p patience c.flagged = (p.tick patience c).map ofTick := by
  have hresume : run p (Program.fuel patience c.thread) 0
      ({ c with thread := { c.thread with mode := .ready } } : Config).flagged =
        (p.resume patience c).map ofTick := run_flagged rfl
  obtain ⟨t, entity, shots⟩ := c
  obtain ⟨limits, stack, slots, handles, ip, frames, mode, lastReturn, rootExtent⟩ := t
  cases mode with
  | finished => rfl
  | ready => exact hresume
  | waiting ticks =>
    rcases ticks with _ | _ | ticks
    · exact hresume
    · exact hresume
    · rfl

/-- Slots are claimed without flags. -/
theorem reserve_flagged (t : Thread) (n : Nat) :
    t.flagged.body.reserve n = (t.reserve n).map fun t' => t'.flagged.body := by
  rw [Thread.reserve, Thread.reserve, show t.flagged.body.slots = t.slots from rfl]
  split <;> rfl

theorem tickRoutine_flagged (K : Catalog) (kind : RoutineKind) (index : Nat) (looping : Bool)
    (patience : Nat) (c : Config) :
    tickRoutine K kind index looping patience c.flagged =
      (K.tick kind index looping patience c).map ofTick := by
  rw [tickRoutine, Catalog.tick]
  cases hat : (K.routines kind).at? index with
  | none => rfl
  | some r =>
    have hreserve : c.flagged.body.thread.reserve r.variableCount =
        (c.thread.reserve r.variableCount).map fun t' => t'.flagged.body :=
      reserve_flagged c.thread r.variableCount
    simp only [hreserve]
    cases hclaim : c.thread.reserve r.variableCount with
    | error f => rfl
    | ok t =>
      obtain ⟨-, rfl⟩ := Thread.reserve_eq_ok.1 hclaim
      exact tick_flagged ⟨K, r.code, looping⟩ patience { c with thread := _ }

end

/-! ## Calls of a host -/

section

variable {limits : Limits} {t : Thread} {s : Flagged Thread}

theorem config_flagged (t : Thread) (entity : Entity) (shots : Array Shot) :
    (⟨t, entity, shots⟩ : Config).flagged =
      ⟨⟨t.flagged.body, entity, shots⟩, t.flagged.flags⟩ := rfl

/-- **A host does with flags what it does with a mode.** -/
theorem after?_flagged (t : Thread) (call : HostCall) :
    t.flagged.after? call = (t.after? call).map Thread.flagged := by
  cases call with
  | tick p entity patience =>
    rw [after?, Thread.after?, ← config_flagged, tick_flagged, Option.map_map, Option.map_map]
    rfl
  | tickRoutine K kind index looping entity patience =>
    rw [after?, Thread.after?, ← config_flagged, tickRoutine_flagged, Option.map_map,
      Option.map_map]
    rfl
  | setVariable index v =>
    have hslot : t.flagged.body.slot index = t.slot index := rfl
    rw [after?, Thread.after?, Thread.setVariable, Thread.setVariable, hslot]
    cases t.slot index <;> rfl
  | setHandle index handle =>
    rw [after?, Thread.after?, Thread.setHandle, Thread.setHandle,
      show t.flagged.body.handles = t.handles from rfl]
    split <;> rfl
  | reserve n =>
    rw [after?, Thread.after?, reserve_flagged]
    cases hclaim : t.reserve n with
    | error f => rfl
    | ok t' =>
      obtain ⟨-, rfl⟩ := Thread.reserve_eq_ok.1 hclaim
      rfl
  | operate request => rfl
  | reset => rfl

/-- **The threads with flags are those that a host has**, with flags for their modes. -/
theorem hosted_iff :
    s.Hosted limits ↔ ∃ t, Thread.Hosted (fun _ _ => True) limits t ∧ t.flagged = s := by
  constructor
  · intro h
    induction h with
    | new => exact ⟨_, .new, rfl⟩
    | newUpdater make =>
      obtain ⟨-, rfl⟩ := Thread.forUpdater_eq_ok.1 make
      exact ⟨_, .newUpdater make, rfl⟩
    | call _ eq ih =>
      obtain ⟨t, hosted, rfl⟩ := ih
      rw [after?_flagged] at eq
      obtain ⟨t', ht, rfl⟩ := Option.map_eq_some_iff.1 eq
      exact ⟨t', hosted.call trivial ht, rfl⟩
  · rintro ⟨t, hosted, rfl⟩
    induction hosted with
    | new => exact .new
    | newUpdater make =>
      obtain ⟨-, rfl⟩ := Thread.forUpdater_eq_ok.1 make
      exact .newUpdater make
    | call _ _ eq ih => exact ih.call (by rw [after?_flagged, eq, Option.map_some])

/-! ## What a host sees -/

theorem flagged_finished (t : Thread) : t.flagged.flags.finished = t.isFinished := by
  rw [Thread.flagged, Thread.isFinished]
  cases t.mode <;> rfl

theorem flagged_suspended (t : Thread) : t.flagged.flags.suspended = t.isSuspended := by
  rw [Thread.flagged, Thread.isSuspended]
  cases t.mode <;> rfl

theorem flagged_countdown (t : Thread) : t.flagged.flags.countdown = t.countdown := by
  rw [Thread.flagged, Thread.countdown]
  cases t.mode <;> rfl

theorem Intact.of_thread (h : t.Intact limits) : Intact limits t.flagged where
  toSized := { h.toSized with }
  finished := by
    rw [flagged_finished, flagged_suspended]
    exact h.finished
  countdown := by
    rw [flagged_countdown, flagged_suspended]
    exact h.countdown

/-- **Whatever a host does with a thread, its layout stays intact and its flags rule each other
out.** The host may run any code of any catalog, for any entity; it may go on after a fault, and do
with the thread what it likes between ticks. The thread is one of those that run, with flags for its
mode. -/
theorem Hosted.flags_intact (h : s.Hosted limits) :
    s.Intact limits ∧
      ∃ t, Thread.Hosted (fun _ _ => True) limits t ∧ t.flagged = s ∧ t.Intact limits := by
  obtain ⟨t, hosted, rfl⟩ := hosted_iff.1 h
  exact ⟨.of_thread hosted.intact, t, hosted, rfl, hosted.intact⟩

/-- A thread that waits in a call. -/
theorem paused_flags_intact :
    Intact paused.limits ⟨{ paused with mode := .ready }, { suspended := true, countdown := 1 }⟩ ∧
      ∃ t, Thread.Hosted (fun _ _ => True) paused.limits t ∧
        t.flagged = ⟨{ paused with mode := .ready }, { suspended := true, countdown := 1 }⟩ ∧
        t.Intact paused.limits :=
  Hosted.flags_intact
    (hosted_iff.2 ⟨paused, Thread.hosted_paused fun _ _ _ => trivial, rfl⟩)

end

end Flagged

end Danmaku
