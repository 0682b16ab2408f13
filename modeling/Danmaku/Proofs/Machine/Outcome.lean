import Danmaku.Proofs.Machine.Control
import Danmaku.Proofs.Machine.Recording

/-!
# How a step can end

A step goes on, stops or faults, and it leaves a thread in each case. What a computation makes of
its state, whether it fails or not, is put together from what its parts make of it
(`Relates.bind`). Most instructions only use the operand stack and go on elsewhere
(`Thread.Quiet`, `Instr.quiet_execute`); `Program.Outcome` lists what else a step can do. All that
holds of threads in arbitrary code is derived from this list (`Program.outcome`).
-/

namespace Danmaku

/-! ## Computations that may fail -/

section

variable {ε σ α β : Type} {R : σ → σ → Prop} {m : EStateM ε σ α} {k : α → EStateM ε σ β} {s s' : σ}

/-- The state in an outcome, also in that of a failure. -/
def stateOf : EStateM.Result ε σ α → σ
  | .ok _ s => s
  | .error _ s => s

@[simp] theorem stateOf_ok (a : α) (s : σ) : stateOf (.ok a s : EStateM.Result ε σ α) = s := rfl

@[simp] theorem stateOf_error (e : ε) (s : σ) :
    stateOf (.error e s : EStateM.Result ε σ α) = s := rfl

/-- The state that a computation leaves, also if it fails. -/
def after (m : EStateM ε σ α) (s : σ) : σ := stateOf (m s)

theorem after_ok {a : α} (h : m s = .ok a s') : after m s = s' := by
  rw [after, h, stateOf_ok]

theorem after_error {e : ε} (h : m s = .error e s') : after m s = s' := by
  rw [after, h, stateOf_error]

/-- The value in an outcome, if there is one. -/
def valueOf? : EStateM.Result ε σ α → Option α
  | .ok a _ => some a
  | .error _ _ => none

theorem eq_ok_of_valueOf? {a : α} (h : valueOf? (m s) = some a) : m s = .ok a (after m s) := by
  rw [after]
  cases hm : m s with
  | ok b s' =>
    rw [hm] at h
    obtain rfl := Option.some.inj h
    rfl
  | error e s' =>
    rw [hm] at h
    cases h

/-- The error in an outcome, if there is one. -/
def failureOf? : EStateM.Result ε σ α → Option ε
  | .ok _ _ => none
  | .error e _ => some e

theorem eq_error_of_failureOf? {e : ε} (h : failureOf? (m s) = some e) :
    m s = .error e (after m s) := by
  rw [after]
  cases hm : m s with
  | ok a s' =>
    rw [hm] at h
    cases h
  | error e' s' =>
    rw [hm] at h
    obtain rfl := Option.some.inj h
    rfl

/-- A computation takes each state to one that is so related to it, also if it fails. -/
def Relates (R : σ → σ → Prop) (m : EStateM ε σ α) : Prop := ∀ s, R s (after m s)

namespace Relates

theorem intro (ok : ∀ {s a s'}, m s = .ok a s' → R s s')
    (error : ∀ {s e s'}, m s = .error e s' → R s s') : Relates R m := by
  intro s
  cases h : m s with
  | ok a s' => exact after_ok h ▸ ok h
  | error e s' => exact after_error h ▸ error h

theorem of_ok (hm : Relates R m) {a : α} (h : m s = .ok a s') : R s s' :=
  after_ok h ▸ hm s

theorem of_error (hm : Relates R m) {e : ε} (h : m s = .error e s') : R s s' :=
  after_error h ▸ hm s

/-- One computation after another, if the relation is transitive. -/
theorem bind (trans : ∀ {a b c}, R a b → R b c → R a c) (hm : Relates R m)
    (hk : ∀ a, Relates R (k a)) : Relates R (m >>= k) := by
  intro s
  rw [after, show (m >>= k) s = EStateM.bind m k s from rfl, EStateM.bind]
  cases h : m s with
  | ok a s' => exact trans (hm.of_ok h) (hk a s')
  | error e s' => exact hm.of_error h

theorem pure (refl : ∀ a, R a a) (a : α) : Relates R (pure a : EStateM ε σ α) :=
  fun s => refl s

end Relates

end

/-! ## The operand stack -/

namespace Stack

/-- The stack has room for so many values, and holds no more than that. -/
def Within (n : Nat) (s : Stack) : Prop := s.capacity = n ∧ s.size ≤ n

/-- The second stack holds no more than it may if the first does. -/
def Fits (s s' : Stack) : Prop := ∀ n, s.Within n → s'.Within n

theorem Fits.refl (s : Stack) : s.Fits s := fun _ h => h

theorem Fits.trans {s s' s'' : Stack} (h : s.Fits s') (h' : s'.Fits s'') : s.Fits s'' :=
  fun n hn => h' n (h n hn)

theorem Fits.of_size_le {s s' : Stack} (hcapacity : s'.capacity = s.capacity)
    (hsize : s'.size ≤ s.size) : s.Fits s' :=
  fun _ h => ⟨hcapacity.trans h.1, hsize.trans h.2⟩

variable (v : Word) (n : Nat)

theorem fits_push : Relates Fits (push v) := by
  refine .intro (fun h => ?_) fun h => ?_
  · obtain ⟨hroom, rfl⟩ := push_eq_ok.1 h
    rintro n ⟨hcapacity, -⟩
    refine ⟨hcapacity, ?_⟩
    rw [size] at hroom ⊢
    rw [Array.size_push]
    omega
  · obtain ⟨-, -, rfl⟩ := push_eq_error.1 h
    exact .refl _

theorem fits_pop : Relates Fits pop := by
  refine .intro (fun h => ?_) fun h => ?_
  · obtain ⟨-, rfl⟩ := pop_eq_ok.1 h
    exact .of_size_le rfl (by simp only [size, Array.size_pop]; omega)
  · obtain ⟨-, -, rfl⟩ := pop_eq_error.1 h
    exact .refl _

theorem fits_peek : Relates Fits peek := by
  refine .intro (fun h => ?_) fun h => ?_
  · obtain ⟨-, rfl⟩ := peek_eq_ok.1 h
    exact .refl _
  · obtain ⟨-, -, rfl⟩ := peek_eq_error.1 h
    exact .refl _

theorem fits_replaceTop : Relates Fits (replaceTop v) := by
  refine .intro (fun h => ?_) fun h => ?_
  · obtain ⟨hpos, rfl⟩ := replaceTop_eq_ok.1 h
    rw [size] at hpos
    exact .of_size_le rfl (by simp only [size, Array.size_push, Array.size_pop]; omega)
  · obtain ⟨-, -, rfl⟩ := replaceTop_eq_error.1 h
    exact .refl _

theorem fits_popMany : Relates Fits (popMany n) := by
  refine .intro (fun h => ?_) fun h => ?_
  · obtain ⟨-, -, rfl⟩ := popMany_eq_ok.1 h
    exact .of_size_le rfl (by simp only [size, Array.size_shrink]; omega)
  · obtain ⟨-, -, rfl⟩ := popMany_eq_error.1 h
    exact .refl _

theorem fits_truncate : Relates Fits (truncate n) := fun s =>
  .of_size_le rfl (by simp only [after, truncate, stateOf_ok, size, Array.size_shrink]; omega)

theorem fits_clear : Relates Fits clear := fun _ => .of_size_le rfl (Nat.zero_le _)

/-- A request does not put more on a stack than it may hold. -/
theorem fits_perform (r : StackRequest) : Relates Fits r.perform := by
  cases r with
  | push v => exact .bind .trans (fits_push v) fun _ => .pure .refl _
  | pop => exact .bind .trans fits_pop fun _ => .pure .refl _
  | peek => exact .bind .trans fits_peek fun _ => .pure .refl _
  | replaceTop v => exact .bind .trans (fits_replaceTop v) fun _ => .pure .refl _
  | popMany n => exact fits_popMany n
  | truncate n => exact .bind .trans (fits_truncate n) fun _ => .pure .refl _
  | clear => exact .bind .trans fits_clear fun _ => .pure .refl _
  | values => exact fun s => .refl s

/-- Nor does a delegate, which has nothing but requests. -/
theorem fits_run (d : Delegate) : Relates Fits d.run := by
  induction d with
  | done outcome =>
    cases outcome with
    | ok u => exact fun s => .refl s
    | error f => exact fun s => .refl s
  | ask request next ih =>
    intro s
    rw [after, Delegate.run]
    simp only
    cases h : request.perform s with
    | ok values s' => exact ((fits_perform request).of_ok h).trans (ih (.ok values) s')
    | error f s' => exact ((fits_perform request).of_error h).trans (ih (.error f) s')

end Stack

/-! ## Threads -/

/-- What stays of a thread of which only the operand stack and the address are used. -/
structure Thread.Quiet (t t' : Thread) : Prop where
  limits : t'.limits = t.limits
  stack : t.stack.Fits t'.stack
  slots : t'.slots = t.slots
  handles : t'.handles = t.handles
  frames : t'.frames = t.frames
  mode : t'.mode = t.mode
  lastReturn : t'.lastReturn = t.lastReturn
  extent : t'.rootExtent = t.rootExtent

namespace Thread.Quiet

variable {t t' t'' : Thread}

theorem refl (t : Thread) : t.Quiet t := ⟨rfl, .refl _, rfl, rfl, rfl, rfl, rfl, rfl⟩

theorem trans (h : t.Quiet t') (h' : t'.Quiet t'') : t.Quiet t'' :=
  ⟨h'.limits.trans h.limits, h.stack.trans h'.stack, h'.slots.trans h.slots,
    h'.handles.trans h.handles, h'.frames.trans h.frames, h'.mode.trans h.mode,
    h'.lastReturn.trans h.lastReturn, h'.extent.trans h.extent⟩

theorem goTo (t : Thread) (address : Nat) : t.Quiet { t with ip := address } :=
  ⟨rfl, .refl _, rfl, rfl, rfl, rfl, rfl, rfl⟩

theorem withStack {s : Stack} (h : t.stack.Fits s) : t.Quiet { t with stack := s } :=
  ⟨rfl, h, rfl, rfl, rfl, rfl, rfl, rfl⟩

end Thread.Quiet

namespace Exec

/-- A computation that only uses the operand stack of the thread, and its address. -/
abbrev Quiet {α : Type} (m : Exec α) : Prop :=
  Relates (fun c c' : Config => c.thread.Quiet c'.thread) m

/-- A computation that succeeds has such a result. -/
def Returns {α : Type} (Q : α → Prop) (m : Exec α) : Prop :=
  ∀ c a c', m c = .ok a c' → Q a

variable {α β : Type} {Q : β → Prop} {m : Exec α} {k : α → Exec β} {action : StackM α}

theorem Returns.bind (hk : ∀ a, Returns Q (k a)) : Returns Q (m >>= k) := by
  intro c b c' h
  obtain ⟨a, c₁, -, h⟩ := bind_eq_ok.1 h
  exact hk a c₁ b c' h

theorem Returns.pure {b : β} (h : Q b) : Returns Q (pure b : Exec β) := by
  intro c b' c' hb
  exact (pure_eq_ok.1 hb).1 ▸ h

theorem quiet_pure (a : α) : Quiet (pure a : Exec α) := .pure (fun _ => .refl _) a

theorem quiet_bind (hm : Quiet m) (hk : ∀ a, Quiet (k a)) : Quiet (m >>= k) :=
  .bind (fun h h' => h.trans h') hm hk

theorem quiet_onStack (h : Relates Stack.Fits action) : Quiet (onStack action) := by
  refine .intro (fun hok => ?_) fun herror => ?_
  · obtain ⟨s, hs, rfl⟩ := onStack_eq_ok.1 hok
    exact .withStack (h.of_ok hs)
  · obtain ⟨s, hs, rfl⟩ := onStack_eq_error.1 herror
    exact .withStack (h.of_error hs)

theorem quiet_ofExcept (f : Config → Except Fault α) : Quiet (ofExcept f) := by
  refine .intro (fun hok => ?_) fun herror => ?_
  · obtain ⟨-, rfl⟩ := ofExcept_eq_ok.1 hok
    exact .refl _
  · obtain ⟨-, rfl⟩ := ofExcept_eq_error.1 herror
    exact .refl _

theorem quiet_goTo (address : Nat) : Quiet (goTo address) := fun c => .goTo c.thread address

theorem quiet_jump (size target : Nat) : Quiet (jump size target) := by
  rw [jump]
  split
  · exact quiet_goTo target
  · exact fun c => .refl c.thread

theorem quiet_jumpBy (size : Nat) (offset : Int) : Quiet (jumpBy size offset) := by
  refine .intro (fun hok => ?_) fun herror => ?_
  · obtain ⟨-, rfl⟩ := jumpBy_eq_ok.1 hok
    exact .goTo _ _
  · obtain ⟨-, -, rfl⟩ := jumpBy_eq_error.1 herror
    exact .refl _

theorem quiet_popIsZero : Quiet popIsZero :=
  quiet_bind (quiet_onStack Stack.fits_pop) fun _ => quiet_pure _

theorem quiet_setProperty (types : TypeTable) (property : Nat) :
    Quiet (setProperty types property) := by
  refine .intro (fun hok => ?_) fun herror => ?_
  · obtain ⟨_, _, -, -, rfl⟩ := setProperty_eq_ok.1 hok
    exact .refl _
  · obtain ⟨rfl, -⟩ := setProperty_eq_error.1 herror
    exact .refl _

theorem quiet_firing (catalog : Catalog) (index : Nat) : Quiet (firing catalog index) :=
  quiet_ofExcept _

theorem quiet_shoot (shot : Shot) : Quiet (shoot shot) := fun c => .refl c.thread

end Exec

namespace Instr

open Exec

variable {p : Program} {size : Nat} {i : Instr}

/-- **Most instructions only use the operand stack**, and go on elsewhere. -/
theorem quiet_execute (hset : ∀ index, i ≠ .setVariable index) (hcall : ∀ f, i ≠ .call f)
    (hwait : i ≠ .wait) (hret : i ≠ .ret) : Quiet (i.execute p size) := by
  cases i with
  | push v => exact quiet_bind (quiet_onStack (Stack.fits_push v)) fun _ => quiet_pure _
  | pop => exact quiet_bind (quiet_onStack Stack.fits_pop) fun _ => quiet_pure _
  | negate | not =>
    exact quiet_bind (quiet_onStack Stack.fits_peek) fun _ =>
      quiet_bind (quiet_onStack (Stack.fits_replaceTop _)) fun _ => quiet_pure _
  | binary op =>
    exact quiet_bind (quiet_onStack Stack.fits_pop) fun _ =>
      quiet_bind (quiet_onStack Stack.fits_pop) fun _ =>
        quiet_bind (quiet_ofExcept _) fun _ =>
          quiet_bind (quiet_onStack (Stack.fits_push _)) fun _ => quiet_pure _
  | jump target => exact quiet_bind (quiet_jump size target) fun _ => quiet_pure _
  | branchIfZero target =>
    refine quiet_bind quiet_popIsZero fun b => ?_
    cases b with
    | false => exact quiet_pure _
    | true => exact quiet_bind (quiet_jump size target) fun _ => quiet_pure _
  | jumpBy offset => exact quiet_bind (quiet_jumpBy size offset) fun _ => quiet_pure _
  | branchIfZeroBy offset =>
    refine quiet_bind quiet_popIsZero fun b => ?_
    cases b with
    | false => exact quiet_pure _
    | true => exact quiet_bind (quiet_jumpBy size offset) fun _ => quiet_pure _
  | getVariable slot | getProperty property =>
    exact quiet_bind (quiet_ofExcept _) fun _ =>
      quiet_bind (quiet_onStack (Stack.fits_push _)) fun _ => quiet_pure _
  | setProperty property => exact quiet_bind (quiet_setProperty _ _) fun _ => quiet_pure _
  | callDelegate index =>
    exact quiet_bind (quiet_ofExcept _) fun entry =>
      quiet_bind (quiet_onStack (Stack.fits_run entry.delegate)) fun _ => quiet_pure _
  | fire index =>
    exact quiet_bind (quiet_firing _ _) fun _ =>
      quiet_bind (quiet_onStack (Stack.fits_popMany _)) fun _ =>
        quiet_bind (quiet_shoot _) fun _ => quiet_pure _
  | fireWith index updater =>
    exact quiet_bind (quiet_firing _ _) fun _ => quiet_bind (quiet_ofExcept _) fun _ =>
      quiet_bind (quiet_onStack (Stack.fits_popMany _)) fun _ =>
        quiet_bind (quiet_onStack (Stack.fits_popMany _)) fun _ =>
          quiet_bind (quiet_shoot _) fun _ => quiet_pure _
  | setVariable index => exact absurd rfl (hset index)
  | call f => exact absurd rfl (hcall f)
  | wait => exact absurd rfl hwait
  | ret => exact absurd rfl hret

/-- Only a wait and a return may stop the tick. -/
theorem execute_next (hwait : i ≠ .wait) (hret : i ≠ .ret) :
    Returns (· = Flow.next) (i.execute p size) := by
  have one {α : Type} {m : Exec α} : Returns (· = Flow.next) (m >>= fun _ => pure Flow.next) :=
    .bind fun _ => .pure rfl
  cases i with
  | branchIfZero _ | branchIfZeroBy _ =>
    refine .bind fun b => ?_
    cases b with
    | false => exact .pure rfl
    | true => exact one
  | negate | not | getVariable _ | getProperty _ | callDelegate _ => exact .bind fun _ => one
  | binary _ => exact .bind fun _ => .bind fun _ => .bind fun _ => one
  | fire _ => exact .bind fun _ => .bind fun _ => one
  | fireWith _ _ => exact .bind fun _ => .bind fun _ => .bind fun _ => .bind fun _ => one
  | wait => exact absurd rfl hwait
  | ret => exact absurd rfl hret
  | _ => exact one

end Instr

/-! ## Steps -/

/-- **A step, read off the code** in which the thread is. -/
theorem Program.step_eq (p : Program) (c : Config) : p.step c =
    match p.running c.thread with
    | .error f => .error f c
    | .ok code =>
      if c.thread.ip < code.size then
        match Instr.decode code.words c.thread.ip with
        | .error f => .error f c
        | .ok (i, next) => i.execute p code.size (c.goTo next)
      else p.fallOff c := by
  simp only [step, bind, EStateM.bind, Exec.ofExcept, Exec.get_apply]
  cases p.running c.thread with
  | error f => rfl
  | ok code =>
    simp only
    split
    · simp only [instruct, bind, EStateM.bind, Exec.ofExcept, Exec.goTo, Exec.modifyThread,
        Config.goTo]
      cases Instr.decode code.words c.thread.ip with
      | error f => rfl
      | ok d => rfl
    · rfl

/-- A step at an instruction executes it. -/
theorem Program.step_of_instr? {p : Program} {c : Config} {i : Instr}
    (h : p.instr? c.thread = some i) :
    ∃ code, p.running c.thread = .ok code ∧
      p.step c = i.execute p code.size (c.goTo (c.thread.ip + i.size)) := by
  rw [instr?] at h
  split at h
  · next code hrun =>
    cases hdecode : Instr.decode code.words c.thread.ip with
    | error f => rw [hdecode] at h; cases h
    | ok d =>
      obtain ⟨j, next⟩ := d
      rw [hdecode] at h
      obtain rfl : j = i := Option.some.inj h
      obtain rfl := (Instr.decode_inv hdecode).1
      exact ⟨code, hrun, step_standsAt hrun hdecode⟩
  · cases h

/-- The ways in which a step can end, and what has become of the thread by then. -/
inductive Program.Outcome (p : Program) (t : Thread) :
    EStateM.Result Fault Config Flow → Prop
  /-- It goes on, and nothing but the operand stack and the address has been used. -/
  | moves {c : Config} (quiet : t.Quiet c.thread) : Outcome p t (.ok .next c)
  /-- It faults, and nothing but those has been used. -/
  | faults {f : Fault} {c : Config} (quiet : t.Quiet c.thread) : Outcome p t (.error f c)
  /-- A variable is written. -/
  | writes {t₁ : Thread} {index slot : Nat} {v : Word} {c : Config} (quiet : t.Quiet t₁)
      (slot_eq : t₁.slot index = .ok slot) (eq : c.thread = t₁.store index slot v) :
      Outcome p t (.ok .next c)
  /-- A call is opened. -/
  | enters {t₁ : Thread} {function : Nat} {callee : Routine} {c : Config} (quiet : t.Quiet t₁)
      (callee_eq : p.catalog.function? function = some callee)
      (depth : t₁.frames.length < t₁.limits.depth) (room : callee.variableCount ≤ t₁.top)
      (floor : t₁.rootExtent ≤ t₁.top - callee.variableCount)
      (operands : callee.parameterCount ≤ t₁.stack.size)
      (eq : c.thread = t₁.enter function callee) : Outcome p t (.ok .next c)
  /-- A call is left. -/
  | leaves {f : Frame} {frames : List Frame} {c : Config} (frames_eq : t.frames = f :: frames)
      (quiet : { t with frames }.Quiet c.thread) : Outcome p t (.ok .next c)
  /-- A call is left, and there is no room for its value. -/
  | loses {f : Frame} {frames : List Frame} {fault : Fault} {c : Config}
      (frames_eq : t.frames = f :: frames) (quiet : { t with frames }.Quiet c.thread) :
      Outcome p t (.error fault c)
  /-- The thread waits. -/
  | waits {t₁ : Thread} {ticks : Nat} {c : Config} (quiet : t.Quiet t₁)
      (eq : c.thread = { t₁ with mode := .waiting ticks }) :
      Outcome p t (.ok (.stop .suspended) c)
  /-- The root comes to its end. -/
  | ends {t₁ : Thread} {value : Option Word} {c : Config} (quiet : t.Quiet t₁)
      (frames_eq : t.frames = [])
      (eq : c.thread = { t₁ with
        lastReturn := value
        ip := 0
        mode := if p.looping then t₁.mode else .finished }) :
      Outcome p t (.ok (.stop .completed) c)

namespace Program.Outcome

variable {p : Program} {t t₁ : Thread} {r : EStateM.Result Fault Config Flow}

/-- Before a step the operand stack and the address may have been used. -/
theorem of_quiet (h : t.Quiet t₁) (hr : p.Outcome t₁ r) : p.Outcome t r := by
  have hpop (frames : List Frame) : { t with frames }.Quiet { t₁ with frames } :=
    ⟨h.limits, h.stack, h.slots, h.handles, rfl, h.mode, h.lastReturn, h.extent⟩
  cases hr with
  | moves quiet => exact .moves (h.trans quiet)
  | faults quiet => exact .faults (h.trans quiet)
  | writes quiet slot_eq eq => exact .writes (h.trans quiet) slot_eq eq
  | enters quiet callee_eq depth room floor operands eq =>
    exact .enters (h.trans quiet) callee_eq depth room floor operands eq
  | leaves frames_eq quiet => exact .leaves (h.frames ▸ frames_eq) ((hpop _).trans quiet)
  | loses frames_eq quiet => exact .loses (h.frames ▸ frames_eq) ((hpop _).trans quiet)
  | waits quiet eq => exact .waits (h.trans quiet) eq
  | ends quiet frames_eq eq => exact .ends (h.trans quiet) (h.frames ▸ frames_eq) eq

variable {c c' : Config} {flow : Flow} {f : Fault} {v : Word} {u : Unit}

/-- A call that is closed. -/
theorem of_leaveCall_ok (h : Exec.leaveCall v c = .ok u c') :
    p.Outcome c.thread (.ok .next c') := by
  obtain ⟨F, frames, hframes, hroom, rfl⟩ := Exec.leaveCall_eq_ok.1 h
  refine .leaves hframes ⟨rfl, fun n hn => ⟨hn.1, ?_⟩, rfl, rfl, rfl, rfl, rfl, rfl⟩
  have hcapacity : c.thread.stack.capacity = n := hn.1
  simp only [Config.backTo, Config.withStack, Stack.size, Array.size_push] at hroom ⊢
  omega

theorem of_leaveCall_error (h : Exec.leaveCall v c = .error f c') :
    p.Outcome c.thread (.error f c') := by
  obtain ⟨-, -, rfl⟩ | ⟨F, frames, hframes, -, -, rfl⟩ := Exec.leaveCall_eq_error h
  · exact .faults (.refl _)
  · refine .loses hframes ⟨rfl, .of_size_le rfl ?_, rfl, rfl, rfl, rfl, rfl, rfl⟩
    simp only [Config.backTo, Config.withStack, Stack.size, Array.size_shrink]
    omega

theorem of_setVariable (index size : Nat) (c : Config) :
    p.Outcome c.thread ((Instr.setVariable index).execute p size c) := by
  cases h : (Instr.setVariable index).execute p size c with
  | ok flow c' =>
    simp only [Instr.execute, Exec.bind_eq_ok, Exec.setVariable_eq_ok, Exec.pure_eq_ok] at h
    obtain ⟨_, _, ⟨v, slot, -, hslot, rfl⟩, rfl, rfl⟩ := h
    exact .writes (.refl _) hslot rfl
  | error f c' =>
    simp only [Instr.execute, Exec.bind_eq_error, Exec.pure_eq_error, and_false, exists_false,
      or_false] at h
    obtain ⟨rfl, -⟩ := Exec.setVariable_eq_error h
    exact .faults (.refl _)

theorem of_call (function size : Nat) (c : Config) :
    p.Outcome c.thread ((Instr.call function).execute p size c) := by
  cases h : (Instr.call function).execute p size c with
  | ok flow c' =>
    simp only [Instr.execute, Exec.bind_eq_ok, Exec.pure_eq_ok] at h
    obtain ⟨_, _, hcall, rfl, rfl⟩ := h
    obtain ⟨callee, hcallee, hdepth, hroom, hfloor, hargs, rfl⟩ := Exec.call_eq_ok hcall
    exact .enters (.refl _) hcallee hdepth hroom hfloor hargs rfl
  | error f c' =>
    simp only [Instr.execute, Exec.bind_eq_error, Exec.pure_eq_error, and_false, exists_false,
      or_false] at h
    obtain ⟨rfl, -⟩ := Exec.call_eq_error h
    exact .faults (.refl _)

theorem of_wait (size : Nat) (c : Config) :
    p.Outcome c.thread (Instr.wait.execute p size c) := by
  cases h : Instr.wait.execute p size c with
  | ok flow c' =>
    simp only [Instr.execute, Exec.bind_eq_ok, Exec.onStack_eq_ok, Exec.modifyThread_eq_ok,
      Exec.pure_eq_ok] at h
    obtain ⟨_, _, ⟨s, hs, rfl⟩, _, _, rfl, rfl, rfl⟩ := h
    exact .waits (.withStack (Stack.fits_pop.of_ok hs)) rfl
  | error f c' =>
    simp only [Instr.execute, Exec.bind_eq_error, Exec.onStack_eq_error,
      Exec.modifyThread_eq_error, Exec.pure_eq_error, and_false, exists_false, or_false] at h
    obtain ⟨s, hs, rfl⟩ := h
    exact .faults (.withStack (Stack.fits_pop.of_error hs))

theorem of_ret (size : Nat) (c : Config) : p.Outcome c.thread (Instr.ret.execute p size c) := by
  have popped {v : Word} (hv : c.thread.stack.values.back? = some v) :
      c.thread.Quiet (c.withStack
        { c.thread.stack with values := c.thread.stack.values.pop }).thread :=
    .withStack (Stack.fits_pop.of_ok (Stack.pop_eq_ok.2 ⟨hv, rfl⟩))
  cases h : Instr.ret.execute p size c with
  | ok flow c' =>
    obtain ⟨v, hv, ⟨hframes, rfl, rfl⟩ | ⟨rfl, hleave⟩⟩ := Instr.ret_eq_ok h
    · exact .ends (.withStack (Stack.fits_clear c.thread.stack)) hframes rfl
    · exact of_quiet (popped hv) (of_leaveCall_ok hleave)
  | error f c' =>
    obtain ⟨-, -, rfl⟩ | ⟨v, hv, -, hleave⟩ := Instr.ret_eq_error h
    · exact .faults (.refl _)
    · exact of_quiet (popped hv) (of_leaveCall_error hleave)

/-- **How an instruction can end.** -/
theorem of_execute (i : Instr) (size : Nat) (c : Config) :
    p.Outcome c.thread (i.execute p size c) := by
  have quiet (hquiet : Exec.Quiet (i.execute p size))
      (hnext : Exec.Returns (· = Flow.next) (i.execute p size)) :
      p.Outcome c.thread (i.execute p size c) := by
    cases h : i.execute p size c with
    | ok flow c' =>
      obtain rfl := hnext c flow c' h
      exact .moves (hquiet.of_ok h)
    | error f c' => exact .faults (hquiet.of_error h)
  cases i with
  | setVariable index => exact of_setVariable index size c
  | call function => exact of_call function size c
  | wait => exact of_wait size c
  | ret => exact of_ret size c
  | _ => exact quiet (Instr.quiet_execute nofun nofun nofun nofun) (Instr.execute_next nofun nofun)

/-- How the end of the code can end. -/
theorem of_fallOff (c : Config) : p.Outcome c.thread (p.fallOff c) := by
  cases h : p.fallOff c with
  | ok flow c' =>
    obtain ⟨hframes, rfl, rfl⟩ | ⟨rfl, hleave⟩ := fallOff_eq_ok h
    · exact .ends (.refl _) hframes rfl
    · exact of_leaveCall_ok hleave
  | error f c' => exact of_leaveCall_error (fallOff_eq_error h).2

end Program.Outcome

/-- **How a step can end**, whatever the code is. -/
theorem Program.outcome (p : Program) (c : Config) : p.Outcome c.thread (p.step c) := by
  cases h : p.step c with
  | ok flow c' =>
    obtain ⟨code, -, ⟨-, i, next, -, h⟩ | ⟨-, h⟩⟩ := step_eq_ok h
    · exact h ▸ .of_quiet (.goTo c.thread next) (.of_execute i code.size (c.goTo next))
    · exact h ▸ .of_fallOff c
  | error f c' =>
    obtain ⟨-, rfl⟩ | ⟨code, -, ⟨-, ⟨-, rfl⟩ | ⟨i, next, -, h⟩⟩ | ⟨-, h⟩⟩ := step_eq_error h
    · exact .faults (.refl _)
    · exact .faults (.refl _)
    · exact h ▸ .of_quiet (.goTo c.thread next) (.of_execute i code.size (c.goTo next))
    · exact h ▸ .of_fallOff c

end Danmaku
