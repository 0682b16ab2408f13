import Danmaku.Proofs.Catalog.Declared
import Danmaku.Proofs.Machine.Blind
import Danmaku.Proofs.Safety.Layout

/-!
# Calls are isolated

From the moment at which a call is opened until it is closed, whatever code runs in it, and over any
number of ticks (`Config.Inside`), the slots of its callers and those of the root keep their values;
and each step has to do with the slots of the innermost call alone (`Config.Inside.isolated`). It
does not change other slots, it does the same if they have other values, and a variable that the
call does not have can neither be read nor written (`Program.Confined`).
-/

namespace Danmaku

/-! ## Events in a call -/

/-- The configurations that come of events while more than `depth` calls are open. The last event
may close the outermost of these. Slots may be claimed for the root meanwhile. -/
inductive Config.Inside (depth : Nat) (c : Config) : Config → Prop
  | here : Inside depth c c
  | event {c₁ c₂ : Config} (h : Inside depth c c₁) (deep : depth < c₁.thread.frames.length)
      (event : c₁.Event Catalog.Declared c₂) : Inside depth c c₂
  | claim {c₁ : Config} {n : Nat} {t : Thread} (h : Inside depth c c₁)
      (deep : depth < c₁.thread.frames.length) (claim : c₁.thread.reserve n = .ok t) :
      Inside depth c { c₁ with thread := t }

namespace Config.Inside

variable {depth patience : Nat} {c c₁ c₂ : Config}

/-- A sequence of events stays in the call, or closes it at some point. -/
theorem passes (h : Inside depth c c₁) (hp : Passes Catalog.Declared c₁ c₂) :
    Inside depth c c₂ ∨ ∃ c', Inside depth c c' ∧ c'.thread.frames.length ≤ depth ∧
      Passes Catalog.Declared c' c₂ := by
  induction hp with
  | refl => exact .inl h
  | @tail c' c₂ _ he ih =>
    obtain hinside | ⟨c₀, hinside, hclosed, hpasses⟩ := ih
    · by_cases hdeep : depth < c'.thread.frames.length
      · exact .inl (hinside.event hdeep he)
      · exact .inr ⟨c', hinside, Nat.not_lt.1 hdeep, .single he⟩
    · exact .inr ⟨c₀, hinside, hclosed, hpasses.tail he⟩

/-- So does a tick. -/
theorem tick {p : Program} {result : TickResult} (h : Inside depth c c₁)
    (hp : p.catalog.Declared) (htick : p.tick patience c₁ = some (result, c₂)) :
    Inside depth c c₂ ∨ ∃ c', Inside depth c c' ∧ c'.thread.frames.length ≤ depth ∧
      Passes Catalog.Declared c' c₂ :=
  h.passes (Program.passes_tick hp htick)

end Config.Inside

/-! ## The slots of a call -/

/-- The slot is one of the call's. -/
def Frame.Owns (f : Frame) (i : Nat) : Prop := f.base ≤ i ∧ i < f.base + f.extent

namespace Thread

variable {t : Thread} {f : Frame} {frames : List Frame} {function index slot i : Nat}
  {callee : Routine} {slots : Array Word}

/-- The call that is open once a function has been entered. -/
def opened (t : Thread) (function : Nat) (callee : Routine) : Frame :=
  ⟨function, t.ip, t.top - callee.variableCount, callee.variableCount,
    t.stack.size - callee.parameterCount⟩

theorem enter_frames : (t.enter function callee).frames = t.opened function callee :: t.frames :=
  rfl

/-- The values that a call is opened with: its arguments, and zeros. -/
def initial (t : Thread) (callee : Routine) : List Word :=
  let arguments := (t.stack.values.extract (t.stack.size - callee.parameterCount)).toList
  arguments ++ List.replicate (callee.variableCount - arguments.length) 0

theorem enter_slots_eq : (t.enter function callee).slots =
    fill t.slots (t.opened function callee).base (t.initial callee) :=
  rfl

/-- There is a value for each slot of the call. -/
theorem length_initial (hparameters : callee.parameterCount ≤ callee.variableCount) :
    (t.initial callee).length = callee.variableCount := by
  simp only [initial, List.length_append, Array.length_toList, Array.size_extract,
    List.length_replicate, Stack.size]
  omega

/-- A call is opened with values in its own slots. -/
theorem enter_outside (hparameters : callee.parameterCount ≤ callee.variableCount)
    (hi : ¬ (t.opened function callee).Owns i) :
    (t.enter function callee).slots[i]? = t.slots[i]? := by
  rw [enter_slots_eq]
  refine fill_outside ?_
  rw [length_initial hparameters]
  simp only [Frame.Owns, opened] at hi ⊢
  omega

/-- A call is opened in the same place whatever was in the slots. -/
theorem enter_withSlots (hsize : slots.size = t.slots.size) :
    { t with slots }.enter function callee = { t.enter function callee with
      slots := ({ t with slots }.enter function callee).slots } := by
  simp only [enter, top_withSlots hsize]

/-- So are the values with which it is opened. -/
theorem enter_congr (hparameters : callee.parameterCount ≤ callee.variableCount)
    (hsize : slots.size = t.slots.size)
    (hi : (t.opened function callee).Owns i ∨ slots[i]? = t.slots[i]?) :
    ({ t with slots }.enter function callee).slots[i]? = (t.enter function callee).slots[i]? := by
  have hbase : ({ t with slots }.opened function callee).base = (t.opened function callee).base :=
    congrArg (· - callee.variableCount) (top_withSlots hsize)
  rw [enter_slots_eq, enter_slots_eq, hbase]
  refine fill_congr 0 hsize (hi.imp_left fun howns => ?_)
  have hinitial : ({ t with slots } : Thread).initial callee = t.initial callee := rfl
  rwa [hinitial, length_initial hparameters]

theorem window_of_frames (hframes : t.frames = f :: frames) : t.window = (f.base, f.extent) := by
  rw [window, hframes]

/-- A variable of the innermost call has one of its slots. -/
theorem owns_of_slot (hframes : t.frames = f :: frames) (h : t.slot index = .ok slot) :
    f.Owns slot := by
  rw [Thread.slot, window_of_frames hframes] at h
  simp only at h
  split at h
  · obtain rfl := Except.ok.inj h
    exact ⟨Nat.le_add_right _ _, by omega⟩
  · cases h

theorem slot_of_le (hframes : t.frames = f :: frames) (h : f.extent ≤ index) :
    t.slot index = .error (.variableOutOfRange index) := by
  rw [Thread.slot, window_of_frames hframes]
  exact if_neg (Nat.not_lt.2 h)

end Thread

/-! ## What is kept -/

theorem Frame.topOf_append (size : Nat) (inner outer : List Frame) :
    topOf size (inner ++ outer) = topOf (topOf size outer) inner := by
  cases inner <;> rfl

/-- What the calls that a thread opens keep of it. -/
structure Thread.Keeps (t t' : Thread) (inner : List Frame) : Prop where
  size : t'.slots.size = t.slots.size
  extent : t.rootExtent ≤ t'.rootExtent
  slots : ∀ i, t.top ≤ i ∨ i < t.rootExtent → t'.slots[i]? = t.slots[i]?
  frames : t'.frames = inner ++ t.frames
  tiled : Frame.Tiled t.top inner
  clear : ∀ f ∈ inner, t.rootExtent ≤ f.base

namespace Thread.Keeps

variable {t t' t'' : Thread} {inner : List Frame} {f : Frame}

theorem refl (t : Thread) : t.Keeps t [] :=
  ⟨rfl, Nat.le_refl _, fun _ _ => rfl, rfl, trivial, nofun⟩

theorem top_eq (h : t.Keeps t' inner) : t'.top = Frame.topOf t.top inner := by
  rw [Thread.top_eq, h.frames, h.size, Frame.topOf_append, ← Thread.top_eq]

theorem of_quiet (h : t.Keeps t' inner) (hq : t'.Quiet t'') : t.Keeps t'' inner :=
  { h with
    size := hq.slots ▸ h.size
    extent := hq.extent ▸ h.extent
    slots := hq.slots ▸ h.slots
    frames := hq.frames.trans h.frames }

/-- A call writes to its own slots. -/
theorem store (h : t.Keeps t' (f :: inner)) {index slot : Nat} (hslot : t'.slot index = .ok slot)
    (v : Word) : t.Keeps (t'.store index slot v) (f :: inner) := by
  have hstays := stays_store hslot v
  refine { h with
    size := hstays.slots.trans h.size
    extent := h.extent.trans hstays.extent
    slots := fun i hi => ?_ }
  obtain ⟨hends, hrest⟩ := h.tiled
  have htop := hrest.topOf_le
  have hfloor := h.clear f List.mem_cons_self
  obtain ⟨hlow, hhigh⟩ := owns_of_slot h.frames hslot
  rw [← h.slots i hi]
  exact Array.getElem?_setIfInBounds_ne (by omega)

/-- A call is opened below the slots that are kept, and above the root's. -/
theorem enter (h : t.Keeps t' inner) {function : Nat} {callee : Routine}
    (hparameters : callee.parameterCount ≤ callee.variableCount)
    (hroom : callee.variableCount ≤ t'.top)
    (hfloor : t'.rootExtent ≤ t'.top - callee.variableCount) :
    t.Keeps (t'.enter function callee) (t'.opened function callee :: inner) := by
  have hextent := h.extent
  have htop := h.tiled.topOf_le
  rw [← h.top_eq] at htop
  refine {
    size := (size_fill _ _ _).trans h.size
    extent := hextent
    slots := fun i hi => ?_
    frames := congrArg (_ :: ·) h.frames
    tiled := ⟨?_, h.tiled⟩
    clear := fun f hf => ?_ }
  · rw [← h.slots i hi]
    refine enter_outside hparameters fun ⟨hlow, hhigh⟩ => ?_
    simp only [opened] at hlow hhigh
    omega
  · rw [← h.top_eq]
    exact Nat.sub_add_cancel hroom
  · obtain rfl | hf := List.mem_cons.1 hf
    · exact hextent.trans hfloor
    · exact h.clear f hf

theorem leave (h : t.Keeps t' (f :: inner)) {g : Frame} {frames : List Frame}
    (hframes : t'.frames = g :: frames) : t.Keeps { t' with frames } inner := by
  obtain ⟨rfl, rfl⟩ := List.cons.inj (hframes.symm.trans h.frames)
  exact { h with
    frames := rfl
    tiled := h.tiled.2
    clear := fun f' hf' => h.clear f' (List.mem_cons_of_mem _ hf') }

/-- **A step in a call keeps what the call keeps**, whatever the code is, and also if it faults. -/
theorem outcome {p : Program} (h : t.Keeps t' (f :: inner)) (hp : p.catalog.Declared)
    {r : EStateM.Result Fault Config Flow} (ho : p.Outcome t' r) :
    ∃ inner', t.Keeps (stateOf r).thread inner' := by
  cases ho with
  | moves quiet => exact ⟨_, h.of_quiet quiet⟩
  | faults quiet => exact ⟨_, h.of_quiet quiet⟩
  | writes quiet slot_eq eq =>
    rw [stateOf_ok, eq]
    exact ⟨_, (h.of_quiet quiet).store slot_eq _⟩
  | enters quiet callee_eq depth room floor operands eq =>
    rw [stateOf_ok, eq]
    exact ⟨_, (h.of_quiet quiet).enter (hp.parameterCount_le callee_eq) room floor⟩
  | leaves frames_eq quiet => exact ⟨_, (h.leave frames_eq).of_quiet quiet⟩
  | loses frames_eq quiet => exact ⟨_, (h.leave frames_eq).of_quiet quiet⟩
  | waits quiet eq =>
    rw [stateOf_ok, eq]
    exact ⟨_, { h.of_quiet quiet with }⟩
  | ends quiet frames_eq eq => rw [h.frames] at frames_eq; cases frames_eq

end Thread.Keeps

/-- What a call keeps is kept as long as it is open. -/
theorem Config.Inside.keeps {t : Thread} {c₁ c₂ : Config} {inner : List Frame}
    (h : Inside t.frames.length c₁ c₂) (hkeeps : t.Keeps c₁.thread inner) :
    ∃ inner', t.Keeps c₂.thread inner' := by
  -- There is a call above those that the thread had.
  have nonempty {c : Config} {inner : List Frame} (hk : t.Keeps c.thread inner)
      (hdeep : t.frames.length < c.thread.frames.length) : ∃ f rest, inner = f :: rest := by
    cases inner with
    | nil =>
      rw [hk.frames] at hdeep
      exact absurd hdeep (Nat.lt_irrefl _)
    | cons f rest => exact ⟨f, rest, rfl⟩
  induction h with
  | here => exact ⟨inner, hkeeps⟩
  | event _ deep event ih =>
    obtain ⟨inner₁, hk⟩ := ih
    obtain ⟨f, rest, rfl⟩ := nonempty hk deep
    cases event with
    | lend entity shots => exact ⟨_, hk⟩
    | wait mode => exact ⟨_, { hk with }⟩
    | wake mode => exact ⟨_, { hk with }⟩
    | step allow ready => exact hk.outcome allow (Program.outcome _ _)
  | claim _ deep claim ih =>
    obtain ⟨inner₁, hk⟩ := ih
    obtain ⟨-, rfl⟩ := Thread.reserve_eq_ok.1 claim
    exact ⟨inner₁, { hk with extent := hk.extent.trans (Nat.le_max_left _ _) }⟩

/-! ## Steps of a call -/

namespace Program

/-- A step opens a call that has the slot. -/
def Opens (p : Program) (c : Config) (i : Nat) : Prop :=
  ∃ g, (after p.step c).thread.frames = g :: c.thread.frames ∧ g.Owns i

/-- A step has to do with the slots of the innermost call alone, and with those of a call that it
opens. -/
structure Confined (p : Program) (f : Frame) (c : Config) : Prop where
  /-- It leaves other slots as they are. -/
  writes : ∀ i, ¬ f.Owns i → ¬ p.Opens c i →
    (after p.step c).thread.slots[i]? = c.thread.slots[i]?
  /-- If other slots have other values, it does the same. -/
  reads : ∀ slots, slots.size = c.thread.slots.size →
    (∀ i, f.Owns i → slots[i]? = c.thread.slots[i]?) →
    ∃ slots', p.step (c.withSlots slots) = Exec.withSlots slots' (p.step c) ∧
      ∀ i, f.Owns i ∨ p.Opens c i → slots'[i]? = (after p.step c).thread.slots[i]?
  /-- An index that the call has no variable for stands for no slot. -/
  beyond : ∀ k, f.extent ≤ k → c.thread.slot k = .error (.variableOutOfRange k)
  /-- So it cannot be read. -/
  unread : ∀ k, f.extent ≤ k → p.instr? c.thread = some (.getVariable k) →
    p.step c = .error (.variableOutOfRange k) (c.goTo (c.thread.ip + 2))
  /-- Nor can it be written; that there is nothing to write is found out before. -/
  unwritten : ∀ k, f.extent ≤ k → p.instr? c.thread = some (.setVariable k) →
    p.step c = .error
      (if c.thread.stack.isEmpty then .stackUnderflow else .variableOutOfRange k)
      (c.goTo (c.thread.ip + 2))

variable {p : Program} {f : Frame} {frames : List Frame} {c : Config}

theorem confined_writes (hframes : c.thread.frames = f :: frames) (hp : p.catalog.Declared)
    {i : Nat} (hown : ¬ f.Owns i) (hopens : ¬ p.Opens c i) :
    (after p.step c).thread.slots[i]? = c.thread.slots[i]? := by
  have ho := p.outcome c
  rw [Opens] at hopens
  rw [after] at hopens ⊢
  generalize p.step c = r at ho hopens ⊢
  cases ho with
  | moves quiet | faults quiet => rw [stateOf, quiet.slots]
  | leaves frames_eq quiet | loses frames_eq quiet => rw [stateOf, quiet.slots]
  | waits quiet eq | ends quiet frames_eq eq => rw [stateOf, eq, ← quiet.slots]
  | writes quiet slot_eq eq =>
    have howns := Thread.owns_of_slot (quiet.frames.trans hframes) slot_eq
    rw [stateOf, eq, ← quiet.slots]
    refine Array.getElem?_setIfInBounds_ne ?_
    rintro rfl
    exact hown howns
  | @enters t₁ function callee c' quiet callee_eq depth room floor operands eq =>
    rw [stateOf, eq, ← quiet.slots]
    refine Thread.enter_outside (hp.parameterCount_le callee_eq) fun howns => ?_
    refine hopens ⟨t₁.opened function callee, ?_, howns⟩
    rw [stateOf, eq, Thread.enter_frames, quiet.frames]

/-- Only a call opens a call. -/
theorem Opens.instr? {i : Nat} (h : p.Opens c i) : ∃ function,
    p.instr? c.thread = some (.call function) := by
  obtain ⟨g, hframes, -⟩ := h
  have ne_cons (frames : List Frame) : frames ≠ g :: frames := (List.cons_ne_self g frames).symm
  have ne_cons_cons (f : Frame) (frames : List Frame) : frames ≠ g :: f :: frames := fun heq => by
    have hlength := congrArg List.length heq
    simp only [List.length_cons] at hlength
    omega
  cases hstep : p.step c with
  | error fault c' =>
    have ho := p.outcome c
    rw [after_error hstep] at hframes
    rw [hstep] at ho
    cases ho with
    | faults quiet => exact absurd (quiet.frames.symm.trans hframes) (ne_cons _)
    | loses frames_eq quiet =>
      rw [quiet.frames, frames_eq] at hframes
      exact absurd hframes (ne_cons_cons _ _)
  | ok flow c' =>
    rw [after_ok hstep] at hframes
    cases stepTo_of_step hstep with
    | moves running decode not_call not_ret moves =>
      exact absurd (moves.stays.frames.symm.trans hframes) (ne_cons _)
    | @enters code function next callee running decode callee_eq room floor operands eq =>
      exact ⟨function, instr?_of_decode running decode⟩
    | returns running decode frames_eq operands returns
    | falls running ended frames_eq returns =>
      rw [returns.frames, frames_eq] at hframes
      exact absurd hframes (ne_cons_cons _ _)
    | stops decode frames_eq operands ends empty
    | ends ended frames_eq ends same =>
      rw [ends.frames] at hframes
      cases hframes

/-- A step at an instruction, whatever the slots are. -/
theorem step_withSlots_of_instr? {i : Instr} (h : p.instr? c.thread = some i) :
    ∃ size, ∀ slots, p.step (c.withSlots slots) =
      i.execute p size ((c.goTo (c.thread.ip + i.size)).withSlots slots) := by
  obtain ⟨code, hrun, -⟩ := step_of_instr? h
  refine ⟨code.size, fun slots => ?_⟩
  have h' : p.instr? (c.withSlots slots).thread = some i := h
  obtain ⟨code', hrun', hstep⟩ := step_of_instr? h'
  obtain rfl : code' = code := Except.ok.inj (hrun'.symm.trans hrun)
  exact hstep

/-- What a step reads, if it leaves all slots as they are and opens no call. -/
theorem reads_of_withSlots
    (h : ∀ slots, slots.size = c.thread.slots.size →
      (∀ i, f.Owns i → slots[i]? = c.thread.slots[i]?) →
      p.step (c.withSlots slots) = Exec.withSlots slots (p.step c))
    (hopens : ∀ i, ¬ p.Opens c i) {slots : Array Word} (hsize : slots.size = c.thread.slots.size)
    (hsame : ∀ i, f.Owns i → slots[i]? = c.thread.slots[i]?) :
    ∃ slots', p.step (c.withSlots slots) = Exec.withSlots slots' (p.step c) ∧
      ∀ i, f.Owns i ∨ p.Opens c i → slots'[i]? = (after p.step c).thread.slots[i]? := by
  have hself : p.step c = Exec.withSlots c.thread.slots (p.step c) :=
    h c.thread.slots rfl fun _ _ => rfl
  refine ⟨slots, h slots hsize hsame, fun i hi => ?_⟩
  have hslots : (after p.step c).thread.slots = c.thread.slots := by
    rw [after, hself]
    cases p.step c <;> rfl
  rw [hslots]
  exact hsame i (hi.resolve_right (hopens i))

variable {slots : Array Word}

theorem reads_getVariable {k : Nat} (hframes : c.thread.frames = f :: frames)
    (hinstr : p.instr? c.thread = some (.getVariable k)) (hsize : slots.size = c.thread.slots.size)
    (hsame : ∀ i, f.Owns i → slots[i]? = c.thread.slots[i]?) :
    p.step (c.withSlots slots) = Exec.withSlots slots (p.step c) := by
  obtain ⟨size, hstep⟩ := step_withSlots_of_instr? hinstr
  have hself := hstep c.thread.slots
  rw [show c.withSlots c.thread.slots = c from rfl] at hself
  rw [hstep, hself]
  refine Exec.withSlots_bind ?_ fun v =>
    (Exec.oblivious_bind (Exec.oblivious_onStack _) fun _ => Exec.oblivious_pure _).blind
  exact Exec.getVariable_withSlots hsize fun slot hslot =>
    hsame slot (Thread.owns_of_slot hframes hslot)

end Program

namespace Instr

variable {p : Program} {size : Nat} {c : Config} {slots : Array Word} {P : Nat → Prop}

/-- A variable is written whatever was in the slots. -/
theorem reads_setVariable (index : Nat) (hsize : slots.size = c.thread.slots.size)
    (hsame : ∀ i, P i → slots[i]? = c.thread.slots[i]?) :
    ∃ slots', (setVariable index).execute p size (c.withSlots slots) =
        Exec.withSlots slots' ((setVariable index).execute p size c) ∧
      ∀ i, P i →
        slots'[i]? = (after ((setVariable index).execute p size) c).thread.slots[i]? := by
  have hslot : (c.withSlots slots).thread.slot index = c.thread.slot index :=
    Thread.slot_withSlots hsize index
  have hstack : (c.withSlots slots).thread.stack = c.thread.stack := rfl
  rw [after, execute_setVariable_eq, execute_setVariable_eq, hslot, hstack]
  cases c.thread.stack.values.back? with
  | none => exact ⟨slots, rfl, hsame⟩
  | some v =>
    cases c.thread.slot index with
    | error f => exact ⟨slots, rfl, hsame⟩
    | ok slot =>
      refine ⟨slots.setIfInBounds slot v, rfl, fun i hi => ?_⟩
      change (slots.setIfInBounds slot v)[i]? = (c.thread.slots.setIfInBounds slot v)[i]?
      by_cases his : slot = i
      · subst his
        rw [Array.getElem?_setIfInBounds_self, Array.getElem?_setIfInBounds_self, hsize]
      · rw [Array.getElem?_setIfInBounds_ne his, Array.getElem?_setIfInBounds_ne his, hsame i hi]

/-- A call is opened whatever was in the slots. -/
theorem reads_call (function : Nat) (hp : p.catalog.Declared)
    (hsize : slots.size = c.thread.slots.size)
    (hsame : ∀ i, P i → slots[i]? = c.thread.slots[i]?) :
    ∃ slots', (call function).execute p size (c.withSlots slots) =
        Exec.withSlots slots' ((call function).execute p size c) ∧
      ∀ i, (P i ∨ ∃ g, (after ((call function).execute p size) c).thread.frames =
          g :: c.thread.frames ∧ g.Owns i) →
        slots'[i]? = (after ((call function).execute p size) c).thread.slots[i]? := by
  have hlimits : (c.withSlots slots).thread.limits = c.thread.limits := rfl
  have hframes : (c.withSlots slots).thread.frames = c.thread.frames := rfl
  have hextent : (c.withSlots slots).thread.rootExtent = c.thread.rootExtent := rfl
  have hstack : (c.withSlots slots).thread.stack = c.thread.stack := rfl
  have htop : (c.withSlots slots).thread.top = c.thread.top := Thread.top_withSlots hsize
  -- If no call is opened, nothing is written.
  have same {f : Fault} {i : Nat} (hi : P i ∨ ∃ g : Frame,
      (stateOf (.error f c : EStateM.Result Fault Config Flow)).thread.frames =
        g :: c.thread.frames ∧ g.Owns i) : slots[i]? = c.thread.slots[i]? :=
    hsame i (hi.resolve_right fun ⟨g, hframes, _⟩ => (List.cons_ne_self g _).symm hframes)
  rw [after, execute_call_eq, execute_call_eq, hlimits, hframes, hextent, hstack, htop]
  cases hat : p.catalog.functions.at? function with
  | none => exact ⟨slots, rfl, fun i hi => same hi⟩
  | some callee =>
    simp only
    split
    · exact ⟨slots, rfl, fun i hi => same hi⟩
    · split
      · split
        · exact ⟨slots, rfl, fun i hi => same hi⟩
        · refine ⟨(Thread.enter { c.thread with slots } function callee).slots, ?_, fun i hi => ?_⟩
          · have henter := @Thread.enter_withSlots c.thread function callee slots hsize
            exact congrArg (fun t => EStateM.Result.ok Flow.next { c with thread := t }) henter
          · refine Thread.enter_congr (hp.parameterCount_le hat) hsize ?_
            obtain hi | ⟨g, hg, howns⟩ := hi
            · exact .inr (hsame i hi)
            · obtain rfl := (List.cons.inj hg).1
              exact .inl howns
      · exact ⟨slots, rfl, fun i hi => same hi⟩

end Instr

namespace Program

variable {p : Program} {f : Frame} {frames : List Frame} {c : Config} {slots : Array Word}

/-- **A step sees of the slots those of the innermost call.** -/
theorem confined_reads (hframes : c.thread.frames = f :: frames) (hp : p.catalog.Declared)
    (hsize : slots.size = c.thread.slots.size)
    (hsame : ∀ i, f.Owns i → slots[i]? = c.thread.slots[i]?) :
    ∃ slots', p.step (c.withSlots slots) = Exec.withSlots slots' (p.step c) ∧
      ∀ i, f.Owns i ∨ p.Opens c i → slots'[i]? = (after p.step c).thread.slots[i]? := by
  have no_call (h : ∀ function, p.instr? c.thread ≠ some (.call function)) (i : Nat) :
      ¬ p.Opens c i := fun hopens => by
    obtain ⟨function, hinstr⟩ := hopens.instr?
    exact h function hinstr
  -- A step at an instruction is the execution of it.
  have at_instr {i : Instr} (hinstr : p.instr? c.thread = some i) : ∃ size, ∃ c₀ : Config,
      c₀.thread.slots = c.thread.slots ∧ c₀.thread.frames = c.thread.frames ∧
        (∀ slots, p.step (c.withSlots slots) = i.execute p size (c₀.withSlots slots)) ∧
          p.step c = i.execute p size c₀ := by
    obtain ⟨size, hstep⟩ := step_withSlots_of_instr? hinstr
    exact ⟨size, c.goTo (c.thread.ip + i.size), rfl, rfl, hstep, hstep c.thread.slots⟩
  cases hinstr : p.instr? c.thread with
  | none =>
    have hstep := @step_withSlots p c (by simp [hinstr])
    exact reads_of_withSlots (fun slots _ _ => hstep slots) (no_call (by simp [hinstr])) hsize
      hsame
  | some i =>
    cases i with
    | getVariable k =>
      exact reads_of_withSlots (fun _ hsize hsame => reads_getVariable hframes hinstr hsize hsame)
        (no_call (by simp [hinstr])) hsize hsame
    | setVariable k =>
      obtain ⟨size, c₀, hslots, -, hstep, hself⟩ := at_instr hinstr
      rw [← hslots] at hsize hsame
      obtain ⟨slots', heq, hreads⟩ := @Instr.reads_setVariable p size c₀ slots _ k hsize hsame
      rw [after, hstep, hself]
      exact ⟨slots', heq, fun i hi =>
        hreads i (hi.resolve_right (no_call (by simp [hinstr]) i))⟩
    | call function =>
      obtain ⟨size, c₀, hslots, hframes₀, hstep, hself⟩ := at_instr hinstr
      rw [← hslots] at hsize hsame
      obtain ⟨slots', heq, hreads⟩ := @Instr.reads_call p size c₀ slots _ function hp hsize hsame
      simp only [Opens, after, hstep, hself, ← hframes₀]
      exact ⟨slots', heq, hreads⟩
    | _ =>
      have hstep := step_withSlots fun i hi => by
        obtain rfl := Option.some.inj (hinstr.symm.trans hi)
        simp
      exact reads_of_withSlots (fun slots _ _ => hstep slots) (no_call (by simp [hinstr]))
        hsize hsame

/-- **A step in a call is confined to its slots.** -/
theorem confined (hframes : c.thread.frames = f :: frames) (hp : p.catalog.Declared) :
    p.Confined f c where
  writes _ hown hopens := confined_writes hframes hp hown hopens
  reads _ hsize hsame := confined_reads hframes hp hsize hsame
  beyond _ hk := Thread.slot_of_le hframes hk
  unread k hk hinstr := by
    obtain ⟨code, -, hstep⟩ := step_of_instr? hinstr
    have hsize : (Instr.getVariable k).size = 2 := rfl
    have hslot : (c.goTo (c.thread.ip + 2)).thread.slot k = .error (.variableOutOfRange k) :=
      Thread.slot_of_le hframes hk
    have hget : (c.goTo (c.thread.ip + 2)).thread.getVariable k =
        .error (.variableOutOfRange k) := by
      rw [Thread.getVariable, hslot]
      rfl
    rw [hstep, hsize]
    simp only [Instr.execute, bind, EStateM.bind, Exec.ofExcept, hget]
  unwritten k hk hinstr := by
    obtain ⟨code, -, hstep⟩ := step_of_instr? hinstr
    have hsize : (Instr.setVariable k).size = 2 := rfl
    have hslot : (c.goTo (c.thread.ip + 2)).thread.slot k = .error (.variableOutOfRange k) :=
      Thread.slot_of_le hframes hk
    have hstack : (c.goTo (c.thread.ip + 2)).thread.stack = c.thread.stack := rfl
    rw [hstep, Instr.execute_setVariable_eq, hsize, hslot, hstack, Stack.isEmpty]
    cases hback : c.thread.stack.values.back? with
    | none => rw [Array.back?_eq_none_iff.1 hback]; rfl
    | some v =>
      have hpos := Stack.size_pos_of_back? hback
      rw [if_neg (by rw [Array.isEmpty_iff_size_eq_zero]; exact Nat.ne_of_gt hpos)]

end Program

/-- **Calls are isolated.** Let a call be opened, by whatever code. As long as it is open, whatever
code runs, over any number of ticks, the slots of its callers and those of the root keep their
values, also when it is closed. The slots of the innermost call are meanwhile among the others, and
each step is confined to them. -/
theorem Config.Inside.isolated {p : Program} {c c₁ c₂ : Config} {function : Nat}
    (hp : p.catalog.Declared) (hcall : p.instr? c.thread = some (.call function))
    (hstep : p.step c = .ok .next c₁) (h : Inside c.thread.frames.length c₁ c₂) :
    (∀ i, c.thread.top ≤ i ∨ i < c.thread.rootExtent →
      c₂.thread.slots[i]? = c.thread.slots[i]?) ∧
    ∀ f frames, c₂.thread.frames = f :: frames → c.thread.frames.length ≤ frames.length →
      c.thread.rootExtent ≤ f.base ∧ f.base + f.extent ≤ c.thread.top ∧
        ∀ p' : Program, p'.catalog.Declared → p'.Confined f c₂ := by
  have hopened : ∃ inner, c.thread.Keeps c₁.thread inner := by
    obtain ⟨code, -, hexecute⟩ := Program.step_of_instr? hcall
    rw [hexecute] at hstep
    simp only [Instr.execute, Exec.bind_eq_ok, Exec.pure_eq_ok] at hstep
    obtain ⟨_, _, hstep, -, rfl⟩ := hstep
    obtain ⟨callee, hcallee, -, hroom, hfloor, -, rfl⟩ := Exec.call_eq_ok hstep
    have hgo := (Thread.Keeps.refl c.thread).of_quiet (.goTo _ (c.thread.ip + 2))
    exact ⟨_, hgo.enter (hp.parameterCount_le hcallee) hroom hfloor⟩
  obtain ⟨inner₁, hopened⟩ := hopened
  obtain ⟨inner, hkeeps⟩ := h.keeps hopened
  refine ⟨hkeeps.slots, fun f frames hframes hlength => ?_⟩
  have happend : f :: frames = inner ++ c.thread.frames := hframes.symm.trans hkeeps.frames
  cases inner with
  | nil =>
    have hlengths := congrArg List.length happend
    simp only [List.length_cons, List.nil_append] at hlengths
    omega
  | cons g inner =>
    obtain rfl : f = g := (List.cons.inj happend).1
    obtain ⟨hends, hrest⟩ := hkeeps.tiled
    exact ⟨hkeeps.clear f List.mem_cons_self, hends.trans_le hrest.topOf_le,
      fun p' hp' => Program.confined hframes hp'⟩

/-! ## A call that writes to its variable -/

/-- A catalog with one function, which writes to its variable. -/
def storing : Catalog :=
  { functions := ⟨#[("store",
      { numbers := ["x"]
        code := .ofList ([Instr.push 1, .setVariable 0].flatMap Instr.words)
        index? := some 0 })]⟩ }

/-- Code that writes to a variable of its own, and then calls the function. -/
def storingProgram : Program :=
  ⟨storing, .ofList ([Instr.push 5, .setVariable 0, .call 0].flatMap Instr.words), false⟩

/-- The configuration of that code after so many steps. -/
def storingAfter : Nat → Config
  | 0 => ⟨.ofLimits { stack := 2, slots := 3, handles := 0, depth := 1 }, ⟨0, #[]⟩, #[]⟩
  | n + 1 => after storingProgram.step (storingAfter n)

theorem storing_declared : storing.Declared := by
  have hmake : Routine.withParameters [] {} = .ok {} := rfl
  have hdeclare : ({} : Routine).declareNumber "x" {} = .ok ({ numbers := ["x"] }, 0) := rfl
  have hnew : ({} : RoutineTable).contains "store" = false := by decide +kernel
  have hadd : ({} : Catalog).addRoutine .function "store"
      { numbers := ["x"]
        code := .ofList ([Instr.push 1, .setVariable 0].flatMap Instr.words) } =
      .ok (0, storing) := by
    simp only [Catalog.addRoutine, RoutineTable.add, Table.add?, Catalog.routines, hnew]
    rfl
  have hr := ((Routine.Declared.parameters hmake).number hdeclare).code
    (.ofList ([Instr.push 1, .setVariable 0].flatMap Instr.words))
  exact Catalog.Declared.empty.addRoutine hr hadd

theorem Config.Inside.isolated_storing :
    (storingAfter 2).thread.slots = #[5, 0, 0] ∧ (storingAfter 5).thread.slots = #[5, 0, 1] ∧
    (∀ i, (storingAfter 2).thread.top ≤ i ∨ i < (storingAfter 2).thread.rootExtent →
      (storingAfter 5).thread.slots[i]? = (storingAfter 2).thread.slots[i]?) ∧
    ∀ f frames, (storingAfter 5).thread.frames = f :: frames →
      (storingAfter 2).thread.frames.length ≤ frames.length →
      (storingAfter 2).thread.rootExtent ≤ f.base ∧
        f.base + f.extent ≤ (storingAfter 2).thread.top ∧
          ∀ p' : Program, p'.catalog.Declared → p'.Confined f (storingAfter 5) := by
  have hcall : storingProgram.instr? (storingAfter 2).thread = some (.call 0) := by decide +kernel
  have hstep : storingProgram.step (storingAfter 2) = .ok .next (storingAfter 3) :=
    eq_ok_of_valueOf? (by decide +kernel)
  have hinside :
      Inside (storingAfter 2).thread.frames.length (storingAfter 3) (storingAfter 5) := by
    refine .event (.event .here ?_ (.step storing_declared ?_)) ?_ (.step storing_declared ?_)
    all_goals decide +kernel
  exact ⟨by decide +kernel, by decide +kernel, isolated storing_declared hcall hstep hinside⟩

end Danmaku
