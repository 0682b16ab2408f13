import Danmaku.Proofs.Machine.Hosting
import Danmaku.Proofs.Machine.Session

/-!
# The layout of a thread

Whatever code a host runs on a thread, and whatever it does in between, the stores of the thread
keep their sizes, and the slots of its open calls lie one right below the other, from the end of
the slots down (`Thread.Hosted.intact`).

They lie above the slots of the root as long as the host claims no slots for the root that an open
call has (`Thread.Hosted.clear`). Such a claim is granted all the same, and then root and call
overlap (`Thread.reserve_overlaps`).
-/

namespace Danmaku

/-- The slots of open calls lie one right below the other, the outermost at the end of `size`
slots. -/
def Frame.Tiled (size : Nat) : List Frame → Prop
  | [] => True
  | f :: frames => f.base + f.extent = topOf size frames ∧ Tiled size frames

theorem Frame.Tiled.topOf_le {size : Nat} {frames : List Frame} (h : Tiled size frames) :
    topOf size frames ≤ size := by
  induction frames with
  | nil => exact Nat.le_refl _
  | cons f frames ih =>
    obtain ⟨hends, hrest⟩ := h
    calc f.base ≤ f.base + f.extent := Nat.le_add_right _ _
      _ = topOf size frames := hends
      _ ≤ size := ih hrest

/-- The stores of a thread have the sizes that its limits give them, and the slots of its calls lie
one right below the other. -/
structure Thread.Sized (limits : Limits) (t : Thread) : Prop where
  limits_eq : t.limits = limits
  capacity : t.stack.capacity = limits.stack
  stack : t.stack.size ≤ limits.stack
  slots : t.slots.size = limits.slots
  handles : t.handles.size = limits.handles
  depth : t.frames.length ≤ limits.depth
  tiled : Frame.Tiled limits.slots t.frames
  extent : t.rootExtent ≤ limits.slots

/-- A thread that has come to its end is back at its start, and no call is open. -/
def Thread.AtRest (t : Thread) : Prop := t.mode = .finished → t.frames = [] ∧ t.ip = 0

/-- The slots of open calls lie above those of the root. -/
def Thread.Clear (t : Thread) : Prop := ∀ f ∈ t.frames, t.rootExtent ≤ f.base

/-- How many slots a call of the host claims for the root. -/
def HostCall.claimed : HostCall → Nat
  | .reserve count => count
  | .tickRoutine K kind index _ _ _ =>
    (((K.routines kind).at? index).map Routine.variableCount).getD 0
  | _ => 0

/-- A call of the host claims no slot that an open call has, unless it claims more than there
are. -/
def HostCall.Spares (t : Thread) (call : HostCall) : Prop :=
  call.claimed ≤ t.slots.size → ∀ f ∈ t.frames, call.claimed ≤ f.base

/-- What holds of a thread at all times between the calls of a host. -/
structure Thread.Intact (limits : Limits) (t : Thread) : Prop extends t.Sized limits where
  finished : t.isFinished → t.isSuspended = false ∧ t.frames = [] ∧ t.ip = 0
  countdown : 0 < t.countdown → t.isSuspended

namespace Thread.Sized

variable {limits : Limits} {p : Program} {t t' : Thread}

theorem ofLimits (limits : Limits) : (Thread.ofLimits limits).Sized limits where
  limits_eq := rfl
  capacity := rfl
  stack := Nat.zero_le _
  slots := Array.size_replicate
  handles := Array.size_replicate
  depth := Nat.zero_le _
  tiled := trivial
  extent := Nat.zero_le _

theorem forUpdater {arguments : List Word} (h : Thread.forUpdater limits arguments = .ok t) :
    t.Sized limits := by
  obtain ⟨hle, rfl⟩ := forUpdater_eq_ok.1 h
  have hsized := ofLimits limits
  exact { hsized with
    slots := (size_fill _ _ _).trans hsized.slots
    extent := hle }

theorem of_quiet (h : t.Sized limits) (hq : t.Quiet t') : t'.Sized limits := by
  obtain ⟨hcapacity, hstack⟩ := hq.stack limits.stack ⟨h.capacity, h.stack⟩
  refine ⟨hq.limits.trans h.limits_eq, hcapacity, hstack, hq.slots ▸ h.slots,
    hq.handles ▸ h.handles, hq.frames ▸ h.depth, hq.frames ▸ h.tiled, hq.extent ▸ h.extent⟩

/-- What is written has its place in the slots. -/
theorem store (h : t.Sized limits) {index slot : Nat} (hslot : t.slot index = .ok slot) (v : Word) :
    (t.store index slot v).Sized limits := by
  have hstays := stays_store hslot v
  have hextent := hstays.extent_le
  refine { h with slots := hstays.slots.trans h.slots, extent := hextent.trans ?_ }
  rw [h.slots]
  exact Nat.max_le.2 ⟨h.extent, Nat.le_refl _⟩

/-- A call has the slots right below those of the call around it. -/
theorem enter (h : t.Sized limits) {function : Nat} {callee : Routine}
    (hdepth : t.frames.length < t.limits.depth) (hroom : callee.variableCount ≤ t.top) :
    (t.enter function callee).Sized limits where
  limits_eq := h.limits_eq
  capacity := h.capacity
  stack := by
    have hstack := h.stack
    simp only [Thread.enter, Stack.size, Array.size_shrink] at hstack ⊢
    omega
  slots := (size_fill _ _ _).trans h.slots
  handles := h.handles
  depth := h.limits_eq ▸ hdepth
  tiled := by
    refine ⟨?_, h.tiled⟩
    rw [← h.slots, ← top_eq]
    exact Nat.sub_add_cancel hroom
  extent := h.extent

/-- Leaving a call leaves the others where they are. -/
theorem leave (h : t.Sized limits) {f : Frame} {frames : List Frame}
    (hframes : t.frames = f :: frames) : { t with frames }.Sized limits := by
  have hdepth := h.depth
  have htiled := h.tiled
  rw [hframes] at hdepth htiled
  exact { h with
    depth := Nat.le_of_succ_le hdepth
    tiled := htiled.2 }

/-- **No step changes the sizes**, in whatever code, and also if it faults. -/
theorem outcome (h : t.Sized limits) {r : EStateM.Result Fault Config Flow}
    (ho : p.Outcome t r) : (stateOf r).thread.Sized limits := by
  cases ho with
  | moves quiet => exact h.of_quiet quiet
  | faults quiet => exact h.of_quiet quiet
  | writes quiet slot_eq eq =>
    rw [stateOf_ok, eq]
    exact (h.of_quiet quiet).store slot_eq _
  | enters quiet callee_eq depth room floor operands eq =>
    rw [stateOf_ok, eq]
    exact (h.of_quiet quiet).enter depth room
  | leaves frames_eq quiet => exact (h.leave frames_eq).of_quiet quiet
  | loses frames_eq quiet => exact (h.leave frames_eq).of_quiet quiet
  | waits quiet eq =>
    rw [stateOf_ok, eq]
    exact { h.of_quiet quiet with }
  | ends quiet frames_eq eq =>
    rw [stateOf_ok, eq]
    exact { h.of_quiet quiet with }

theorem reserve (h : t.Sized limits) {n : Nat} (hr : t.reserve n = .ok t') : t'.Sized limits := by
  obtain ⟨hle, rfl⟩ := reserve_eq_ok.1 hr
  exact { h with extent := Nat.max_le.2 ⟨h.extent, h.slots ▸ hle⟩ }

end Thread.Sized

theorem Thread.AtRest.outcome {p : Program} {t : Thread} (hready : t.mode = .ready)
    {r : EStateM.Result Fault Config Flow} (ho : p.Outcome t r) : (stateOf r).thread.AtRest := by
  have awake {t' : Thread} (hmode : t'.mode = t.mode) : t'.AtRest := by
    intro hfinished
    rw [hmode, hready] at hfinished
    cases hfinished
  cases ho with
  | moves quiet => exact awake quiet.mode
  | faults quiet => exact awake quiet.mode
  | writes quiet slot_eq eq => exact awake ((congrArg Thread.mode eq).trans quiet.mode)
  | enters quiet _ _ _ _ _ eq => exact awake ((congrArg Thread.mode eq).trans quiet.mode)
  | leaves frames_eq quiet => exact awake quiet.mode
  | loses frames_eq quiet => exact awake quiet.mode
  | waits quiet eq =>
    rw [stateOf_ok, eq]
    nofun
  | ends quiet frames_eq eq =>
    rw [stateOf_ok, eq]
    exact fun _ => ⟨quiet.frames.trans frames_eq, rfl⟩

namespace Thread.Clear

variable {p : Program} {t t' : Thread} {n : Nat}

theorem of_quiet (h : t.Clear) (hq : t.Quiet t') : t'.Clear := by
  rw [Clear, hq.frames, hq.extent]
  exact h

/-- Only the root makes its own slots more, and it does not run while a call is open. -/
theorem store (h : t.Clear) (index slot : Nat) (v : Word) : (t.store index slot v).Clear := by
  intro f hf
  have hextent := h f hf
  have hopen : t.frames.isEmpty = false := List.isEmpty_eq_false_iff.2 (List.ne_nil_of_mem hf)
  simpa only [Thread.store, hopen, Bool.false_eq_true, if_false] using hextent

theorem enter (h : t.Clear) {function : Nat} {callee : Routine}
    (hfloor : t.rootExtent ≤ t.top - callee.variableCount) : (t.enter function callee).Clear := by
  intro f hf
  obtain rfl | hf := List.mem_cons.1 hf
  · exact hfloor
  · exact h f hf

theorem leave (h : t.Clear) {f : Frame} {frames : List Frame} (hframes : t.frames = f :: frames) :
    { t with frames }.Clear := by
  intro g hg
  refine h g ?_
  rw [hframes]
  exact List.mem_cons_of_mem f hg

/-- **No step makes root and calls overlap**, in whatever code, and also if it faults. -/
theorem outcome (h : t.Clear) {r : EStateM.Result Fault Config Flow} (ho : p.Outcome t r) :
    (stateOf r).thread.Clear := by
  cases ho with
  | moves quiet => exact h.of_quiet quiet
  | faults quiet => exact h.of_quiet quiet
  | writes quiet slot_eq eq =>
    rw [stateOf_ok, eq]
    exact (h.of_quiet quiet).store _ _ _
  | enters quiet callee_eq depth room floor operands eq =>
    rw [stateOf_ok, eq]
    exact (h.of_quiet quiet).enter floor
  | leaves frames_eq quiet => exact (h.leave frames_eq).of_quiet quiet
  | loses frames_eq quiet => exact (h.leave frames_eq).of_quiet quiet
  | waits quiet eq | ends quiet frames_eq eq =>
    have hclear := h.of_quiet quiet
    rw [stateOf_ok, eq]
    exact hclear

/-- A claim makes root and calls overlap if it has slots that a call has, and only then. -/
theorem reserve_iff (h : t.Clear) (hr : t.reserve n = .ok t') :
    t'.Clear ↔ ∀ f ∈ t.frames, n ≤ f.base := by
  obtain ⟨-, rfl⟩ := reserve_eq_ok.1 hr
  constructor
  · intro hclear f hf
    exact (Nat.le_max_right _ _).trans (hclear f hf)
  · intro hspares f hf
    exact Nat.max_le.2 ⟨h f hf, hspares f hf⟩

theorem reserve (h : t.Clear) {call : HostCall} (hspares : call.Spares t)
    (hr : t.reserve call.claimed = .ok t') : t'.Clear :=
  (h.reserve_iff hr).2 (hspares (reserve_eq_ok.1 hr).1)

end Thread.Clear

/-! ## Calls of the host -/

namespace Thread

variable {limits : Limits} {allowed : Catalog → Prop} {c c' : Config} {t t' : Thread}

theorem Sized.event (h : c.thread.Sized limits) (he : c.Event allowed c') :
    c'.thread.Sized limits := by
  cases he with
  | lend entity shots => exact h
  | wait mode => exact { h with }
  | wake mode => exact { h with }
  | step allow ready => exact h.outcome (Program.outcome _ c)

theorem AtRest.event (h : c.thread.AtRest) (he : c.Event allowed c') : c'.thread.AtRest := by
  cases he with
  | lend entity shots => exact h
  | wait mode => nofun
  | wake mode => nofun
  | step allow ready => exact .outcome ready (Program.outcome _ c)

theorem Clear.event (h : c.thread.Clear) (he : c.Event allowed c') : c'.thread.Clear := by
  cases he with
  | lend entity shots => exact h
  | wait mode => exact h
  | wake mode => exact h
  | step allow ready => exact h.outcome (Program.outcome _ c)

theorem Sized.passes (h : c.thread.Sized limits) (hp : Config.Passes allowed c c') :
    c'.thread.Sized limits := by
  induction hp with
  | refl => exact h
  | tail _ he ih => exact ih.event he

theorem AtRest.passes (h : c.thread.AtRest) (hp : Config.Passes allowed c c') :
    c'.thread.AtRest := by
  induction hp with
  | refl => exact h
  | tail _ he ih => exact ih.event he

theorem Clear.passes (h : c.thread.Clear) (hp : Config.Passes allowed c c') : c'.thread.Clear := by
  induction hp with
  | refl => exact h
  | tail _ he ih => exact ih.event he

/-- **Whatever a host does with a thread keeps the sizes.** -/
theorem Sized.turns (h : t.Sized limits) {call : HostCall} (ht : t.Turns call t') :
    t'.Sized limits := by
  cases ht with
  | fails => exact h
  | ticks passes => exact Sized.passes (c := ⟨t, _, _⟩) h passes
  | ticksRoutine at_eq claim passes => exact Sized.passes (c := ⟨_, _, _⟩) (h.reserve claim) passes
  | writes slot_eq => exact h.store slot_eq _
  | refers => exact { h with handles := Array.size_setIfInBounds.trans h.handles }
  | claims claim => exact h.reserve claim
  | operates fits => exact h.of_quiet (.withStack fits)
  | resets =>
    exact { h with
      stack := Nat.zero_le _
      depth := Nat.zero_le _
      tiled := trivial }

theorem AtRest.turns (h : t.AtRest) {call : HostCall} (ht : t.Turns call t') : t'.AtRest := by
  have claimed {n : Nat} {t₁ : Thread} (claim : t.reserve n = .ok t₁) : t₁.AtRest :=
    (reserve_eq_ok.1 claim).2 ▸ h
  cases ht with
  | fails | writes _ | refers | operates _ => exact h
  | ticks passes => exact AtRest.passes (c := ⟨t, _, _⟩) h passes
  | ticksRoutine at_eq claim passes => exact AtRest.passes (c := ⟨_, _, _⟩) (claimed claim) passes
  | claims claim => exact claimed claim
  | resets => nofun

theorem Clear.turns (h : t.Clear) {call : HostCall} (hspares : call.Spares t)
    (ht : t.Turns call t') : t'.Clear := by
  cases ht with
  | fails | refers | operates _ => exact h
  | ticks passes => exact Clear.passes (c := ⟨t, _, _⟩) h passes
  | @ticksRoutine K kind index _ _ _ r _ _ at_eq claim passes =>
    have hclaimed : ∀ looping entity patience,
        (HostCall.tickRoutine K kind index looping entity patience).claimed = r.variableCount :=
      fun _ _ _ => by rw [HostCall.claimed, at_eq, Option.map_some, Option.getD_some]
    exact Clear.passes (c := ⟨_, _, _⟩) (h.reserve hspares (hclaimed _ _ _ ▸ claim)) passes
  | writes slot_eq => exact h.store _ _ _
  | claims claim => exact h.reserve hspares claim
  | resets => nofun

variable {admits : Thread → HostCall → Prop}

theorem Hosted.sized (h : Hosted admits limits t) : t.Sized limits := by
  induction h with
  | new => exact .ofLimits limits
  | newUpdater make => exact .forUpdater make
  | call _ _ eq ih => exact ih.turns (Thread.turns eq)

theorem Hosted.atRest (h : Hosted admits limits t) : t.AtRest := by
  induction h with
  | new => nofun
  | newUpdater make =>
    obtain ⟨-, rfl⟩ := forUpdater_eq_ok.1 make
    nofun
  | call _ _ eq ih => exact ih.turns (Thread.turns eq)

end Thread

/-! ## A thread that waits in a call -/

/-- A catalog with one function, which has a variable and waits. -/
def pausing : Catalog :=
  { functions := ⟨#[("pause",
      { numbers := ["x"]
        code := .ofList ([Instr.push 1, .wait].flatMap Instr.words)
        index? := some 0 })]⟩ }

/-- A thread whose root has called that function, and which waits there. -/
def paused : Thread where
  limits := { stack := 2, slots := 2, handles := 0, depth := 1, budget := some 3 }
  stack := .ofCapacity 2
  slots := #[0, 0]
  handles := #[]
  ip := 3
  frames := [⟨0, 2, 1, 1, 0⟩]
  mode := .waiting 1

namespace Thread

variable {limits : Limits} {t : Thread}

theorem hosted_paused {admits : Thread → HostCall → Prop}
    (admitted : ∀ p entity patience, admits (.ofLimits paused.limits) (.tick p entity patience)) :
    Hosted admits paused.limits paused :=
  .call .new (admitted ⟨pausing, .ofList (Instr.call 0).words, false⟩ ⟨0, #[]⟩ 0)
    (by decide +kernel)

/-- **Whatever a host does with a thread, its layout stays intact.** The host may run any code of
any catalog, for any entity; it may go on after a fault, and do with the thread what it likes
between ticks. -/
theorem Hosted.intact (h : Hosted (fun _ _ => True) limits t) : t.Intact limits := by
  refine { h.sized with finished := fun hfinished => ?_, countdown := fun hcountdown => ?_ }
  · have hmode : t.mode = .finished := by
      rw [isFinished] at hfinished
      split at hfinished
      · assumption
      · cases hfinished
    exact ⟨by rw [isSuspended, hmode], h.atRest hmode⟩
  · rw [countdown] at hcountdown
    split at hcountdown
    · next hmode => rw [isSuspended, hmode]
    · cases hcountdown

/-- **The slots of open calls lie above those of the root**, as long as the host claims no slots
that an open call has. As soon as it does so they overlap. -/
theorem Hosted.clear (h : Hosted HostCall.Spares limits t) :
    t.Clear ∧ ∀ n t', t.reserve n = .ok t' → (t'.Clear ↔ ∀ f ∈ t.frames, n ≤ f.base) := by
  have hclear : t.Clear := by
    induction h with
    | new => nofun
    | newUpdater make =>
      obtain ⟨-, rfl⟩ := forUpdater_eq_ok.1 make
      nofun
    | call _ admitted eq ih => exact ih.turns admitted (Thread.turns eq)
  exact ⟨hclear, fun n t' => hclear.reserve_iff⟩

theorem paused_clear : paused.Clear ∧
    ∀ n t', paused.reserve n = .ok t' → (t'.Clear ↔ ∀ f ∈ paused.frames, n ≤ f.base) :=
  Hosted.clear (hosted_paused fun _ _ _ _ => nofun)

/-- Slots that an open call has may be claimed for the root. -/
theorem reserve_overlaps :
    ∃ t f, Hosted (fun _ _ => True) paused.limits t ∧ f ∈ t.frames ∧ f.base < t.rootExtent := by
  have hclaim : paused.after? (.reserve 2) = some { paused with rootExtent := 2 } := rfl
  exact ⟨{ paused with rootExtent := 2 }, ⟨0, 2, 1, 1, 0⟩,
    .call (hosted_paused fun _ _ _ => trivial) trivial hclaim, by decide, by decide⟩

end Thread

end Danmaku
