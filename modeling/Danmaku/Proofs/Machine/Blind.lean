import Danmaku.Proofs.Machine.Outcome

/-!
# Computations that do not look at the stores

If the variable slots of a thread have other values, or its limits are others, or more slots belong
to its root, most instructions do the same all the same (`Instr.oblivious_execute`): they neither
look at any of this nor change it. What a step sees of the slots it sees through a variable that is
read, and what it does to them it does by a variable that is written or a call that is opened. Of
the limits and of the root's extent only the opening of a call sees anything, and it does not see
the budget (`Program.step_withBudget`).
-/

namespace Danmaku

/-- The configuration with the slots and the limits of its thread changed, and how many slots belong
to the root. -/
def Config.mapStores (f : Array Word → Array Word) (g : Limits → Limits) (h : Nat → Nat)
    (c : Config) : Config :=
  { c with
    thread := { c.thread with
      slots := f c.thread.slots
      limits := g c.thread.limits
      rootExtent := h c.thread.rootExtent } }

/-- The configuration with other values in the slots. -/
def Config.withSlots (c : Config) (slots : Array Word) : Config :=
  { c with thread := { c.thread with slots } }

/-- The configuration with another budget. -/
def Config.withBudget (c : Config) (budget : Option Nat) : Config :=
  { c with thread := { c.thread with limits := { c.thread.limits with budget } } }

@[simp] theorem Config.withBudget_withBudget (c : Config) (budget budget' : Option Nat) :
    (c.withBudget budget).withBudget budget' = c.withBudget budget' := rfl

namespace Exec

variable {α β : Type}

/-- The outcome with the slots, the limits and the root's extent changed. -/
def mapStores (f : Array Word → Array Word) (g : Limits → Limits) (h : Nat → Nat) :
    EStateM.Result Fault Config α → EStateM.Result Fault Config α
  | .ok a c => .ok a (c.mapStores f g h)
  | .error fault c => .error fault (c.mapStores f g h)

/-- The outcome with other values in the slots. -/
def withSlots (slots : Array Word) :
    EStateM.Result Fault Config α → EStateM.Result Fault Config α
  | .ok a c => .ok a (c.withSlots slots)
  | .error f c => .error f (c.withSlots slots)

/-- The outcome with another budget. -/
def withBudget (budget : Option Nat) :
    EStateM.Result Fault Config α → EStateM.Result Fault Config α
  | .ok a c => .ok a (c.withBudget budget)
  | .error f c => .error f (c.withBudget budget)

/-- A computation that does the same whatever the slots, the limits and the root's extent are, and
leaves them. -/
def Oblivious (m : Exec α) : Prop := ∀ f g h c, m (c.mapStores f g h) = mapStores f g h (m c)

/-- A computation that does the same whatever the slots are, and leaves them. -/
def Blind (m : Exec α) : Prop := ∀ c slots, m (c.withSlots slots) = withSlots slots (m c)

/-- A computation that does the same whatever the budget is, and leaves it. -/
def Unhurried (m : Exec α) : Prop := ∀ c budget, m (c.withBudget budget) = withBudget budget (m c)

variable {m : Exec α} {k : α → Exec β}

theorem Oblivious.blind (h : Oblivious m) : Blind m := by
  intro c slots
  refine (h (fun _ => slots) id id c).trans ?_
  cases m c <;> rfl

theorem Oblivious.unhurried (h : Oblivious m) : Unhurried m := by
  intro c budget
  refine (h id (fun l => { l with budget }) id c).trans ?_
  cases m c <;> rfl

theorem withSlots_bind {c : Config} {slots : Array Word}
    (hm : m (c.withSlots slots) = withSlots slots (m c)) (hk : ∀ a, Blind (k a)) :
    (m >>= k) (c.withSlots slots) = withSlots slots ((m >>= k) c) := by
  rw [show (m >>= k) (c.withSlots slots) = EStateM.bind m k (c.withSlots slots) from rfl,
    show (m >>= k) c = EStateM.bind m k c from rfl, EStateM.bind, EStateM.bind, hm]
  cases m c with
  | ok a c' => exact hk a c' slots
  | error f c' => rfl

/-! ## Putting computations together -/

theorem oblivious_pure (a : α) : Oblivious (pure a : Exec α) := fun _ _ _ _ => rfl

theorem oblivious_bind (hm : Oblivious m) (hk : ∀ a, Oblivious (k a)) : Oblivious (m >>= k) := by
  intro f g h c
  rw [show (m >>= k) (c.mapStores f g h) = EStateM.bind m k (c.mapStores f g h) from rfl,
    show (m >>= k) c = EStateM.bind m k c from rfl, EStateM.bind, EStateM.bind, hm f g h c]
  cases m c with
  | ok a c' => exact hk a f g h c'
  | error fault c' => rfl

theorem oblivious_onStack (action : StackM α) : Oblivious (onStack action) := by
  intro f g h c
  have hstack : (c.mapStores f g h).thread.stack = c.thread.stack := rfl
  rw [onStack, onStack, hstack]
  cases action c.thread.stack <;> rfl

theorem oblivious_modifyThread {change : Thread → Thread}
    (hchange : ∀ (t : Thread) slots limits rootExtent,
      change { t with slots, limits, rootExtent } =
        { change t with slots, limits, rootExtent }) :
    Oblivious (modifyThread change) := by
  intro f g h c
  have hself : change c.thread = { change c.thread with
      slots := c.thread.slots
      limits := c.thread.limits
      rootExtent := c.thread.rootExtent } := hchange c.thread _ _ _
  have hslots : (change c.thread).slots = c.thread.slots := by rw [hself]
  have hlimits : (change c.thread).limits = c.thread.limits := by rw [hself]
  have hextent : (change c.thread).rootExtent = c.thread.rootExtent := by rw [hself]
  change EStateM.Result.ok () ({ c with
    thread := change { c.thread with
      slots := f c.thread.slots
      limits := g c.thread.limits
      rootExtent := h c.thread.rootExtent } } : Config) = _
  rw [hchange, ← hslots, ← hlimits, ← hextent]
  rfl

theorem oblivious_ofExcept {look : Config → Except Fault α}
    (hlook : ∀ f g h c, look (c.mapStores f g h) = look c) : Oblivious (ofExcept look) := by
  intro f g h c
  rw [ofExcept, ofExcept, hlook]
  cases look c <;> rfl

/-- A computation that looks at the configuration for something else than the stores. -/
theorem oblivious_get {k : Config → Exec β} (hsame : ∀ f g h c, k (c.mapStores f g h) = k c)
    (hk : ∀ c, Oblivious (k c)) : Oblivious (get >>= k) := by
  intro f g h c
  change k (c.mapStores f g h) (c.mapStores f g h) = _
  rw [hsame]
  exact hk c f g h c

theorem oblivious_goTo (address : Nat) : Oblivious (goTo address) :=
  oblivious_modifyThread fun _ _ _ _ => rfl

theorem oblivious_jump (size target : Nat) : Oblivious (jump size target) := by
  rw [jump]
  split
  · exact oblivious_goTo target
  · exact fun f g h c => rfl

theorem oblivious_jumpBy (size : Nat) (offset : Int) : Oblivious (jumpBy size offset) := by
  intro f g h c
  simp only [jumpBy]
  change (if 0 ≤ (c.thread.ip : Int) + offset ∧ (c.thread.ip : Int) + offset ≤ size then _ else _) =
    _
  split
  · exact oblivious_goTo _ f g h c
  · rfl

theorem oblivious_popIsZero : Oblivious popIsZero :=
  oblivious_bind (oblivious_onStack Stack.pop) fun _ => oblivious_pure _

theorem oblivious_setProperty (types : TypeTable) (property : Nat) :
    Oblivious (setProperty types property) := by
  refine oblivious_bind (oblivious_onStack Stack.peek) fun v f g h c => ?_
  have hentity : (c.mapStores f g h).entity = c.entity := rfl
  simp only [hentity]
  cases types.write c.entity property v <;> rfl

theorem oblivious_shoot (shot : Shot) : Oblivious (shoot shot) := fun _ _ _ _ => rfl

theorem oblivious_firing (catalog : Catalog) (index : Nat) : Oblivious (firing catalog index) :=
  oblivious_ofExcept fun _ _ _ _ => rfl

theorem oblivious_finish (looping : Bool) : Oblivious (finish looping) :=
  oblivious_bind (oblivious_modifyThread fun _ _ _ _ => rfl) fun _ =>
    oblivious_pure _

theorem oblivious_leaveCall (v : Word) : Oblivious (leaveCall v) :=
  oblivious_bind (oblivious_ofExcept fun _ _ _ _ => rfl) fun _ =>
    oblivious_bind (oblivious_onStack _) fun _ =>
      oblivious_bind (oblivious_modifyThread fun _ _ _ _ => rfl) fun _ =>
        oblivious_onStack _

end Exec

open Exec

/-- **Most instructions look neither at the slots nor at the limits**, nor at how many slots belong
to the root. -/
theorem Instr.oblivious_execute {p : Program} {size : Nat} {i : Instr}
    (hget : ∀ index, i ≠ .getVariable index) (hset : ∀ index, i ≠ .setVariable index)
    (hcall : ∀ f, i ≠ .call f) : Oblivious (i.execute p size) := by
  cases i with
  | push v => exact oblivious_bind (oblivious_onStack _) fun _ => oblivious_pure _
  | pop => exact oblivious_bind (oblivious_onStack _) fun _ => oblivious_pure _
  | negate | not =>
    exact oblivious_bind (oblivious_onStack _) fun _ =>
      oblivious_bind (oblivious_onStack _) fun _ => oblivious_pure _
  | binary op =>
    exact oblivious_bind (oblivious_onStack _) fun _ =>
      oblivious_bind (oblivious_onStack _) fun _ =>
        oblivious_bind (oblivious_ofExcept fun _ _ _ _ => rfl) fun _ =>
          oblivious_bind (oblivious_onStack _) fun _ => oblivious_pure _
  | jump target => exact oblivious_bind (oblivious_jump size target) fun _ => oblivious_pure _
  | branchIfZero target =>
    refine oblivious_bind oblivious_popIsZero fun b => ?_
    cases b with
    | false => exact oblivious_pure _
    | true => exact oblivious_bind (oblivious_jump size target) fun _ => oblivious_pure _
  | jumpBy offset => exact oblivious_bind (oblivious_jumpBy size offset) fun _ => oblivious_pure _
  | branchIfZeroBy offset =>
    refine oblivious_bind oblivious_popIsZero fun b => ?_
    cases b with
    | false => exact oblivious_pure _
    | true => exact oblivious_bind (oblivious_jumpBy size offset) fun _ => oblivious_pure _
  | getProperty property =>
    exact oblivious_bind (oblivious_ofExcept fun _ _ _ _ => rfl) fun _ =>
      oblivious_bind (oblivious_onStack _) fun _ => oblivious_pure _
  | setProperty property =>
    exact oblivious_bind (oblivious_setProperty _ _) fun _ => oblivious_pure _
  | callDelegate index =>
    exact oblivious_bind (oblivious_ofExcept fun _ _ _ _ => rfl) fun _ =>
      oblivious_bind (oblivious_onStack _) fun _ => oblivious_pure _
  | fire index =>
    exact oblivious_bind (oblivious_firing _ _) fun _ =>
      oblivious_bind (oblivious_onStack _) fun _ =>
        oblivious_bind (oblivious_shoot _) fun _ => oblivious_pure _
  | fireWith index updater =>
    exact oblivious_bind (oblivious_firing _ _) fun _ =>
      oblivious_bind (oblivious_ofExcept fun _ _ _ _ => rfl) fun _ =>
        oblivious_bind (oblivious_onStack _) fun _ => oblivious_bind (oblivious_onStack _) fun _ =>
          oblivious_bind (oblivious_shoot _) fun _ => oblivious_pure _
  | wait =>
    exact oblivious_bind (oblivious_onStack _) fun _ =>
      oblivious_bind (oblivious_modifyThread fun _ _ _ _ => rfl) fun _ =>
        oblivious_pure _
  | ret =>
    refine oblivious_bind (oblivious_onStack _) fun v =>
      oblivious_get (fun _ _ _ _ => rfl) fun c => ?_
    split
    · exact oblivious_bind (oblivious_onStack _) fun _ =>
        oblivious_bind (oblivious_modifyThread fun _ _ _ _ => rfl) fun _ =>
          oblivious_finish _
    · exact oblivious_bind (oblivious_leaveCall v) fun _ => oblivious_pure _
  | getVariable index => exact absurd rfl (hget index)
  | setVariable index => exact absurd rfl (hset index)
  | call f => exact absurd rfl (hcall f)

/-- Nor does what happens at the end of the code. -/
theorem Program.oblivious_fallOff (p : Program) : Oblivious p.fallOff := by
  refine oblivious_get (fun _ _ _ _ => rfl) fun c => ?_
  split
  · exact oblivious_finish _
  · exact oblivious_bind (oblivious_leaveCall 0) fun _ => oblivious_pure _

/-- **Most steps do not look at the slots.** -/
theorem Program.step_withSlots {p : Program} {c : Config}
    (h : ∀ i, p.instr? c.thread = some i →
      (∀ index, i ≠ .getVariable index) ∧ (∀ index, i ≠ .setVariable index) ∧ ∀ f, i ≠ .call f)
    (slots : Array Word) : p.step (c.withSlots slots) = withSlots slots (p.step c) := by
  have hrunning : p.running (c.withSlots slots).thread = p.running c.thread := rfl
  have hip : (c.withSlots slots).thread.ip = c.thread.ip := rfl
  rw [step_eq, step_eq, hrunning, hip]
  cases hrun : p.running c.thread with
  | error f => rfl
  | ok code =>
    simp only
    split
    · cases hdecode : Instr.decode code.words c.thread.ip with
      | error f => rfl
      | ok d =>
        obtain ⟨i, next⟩ := d
        have hi : p.instr? c.thread = some i := by
          simp only [instr?, hrun, hdecode, Except.toOption, Option.map_some]
        obtain ⟨hget, hset, hcall⟩ := h i hi
        exact (Instr.oblivious_execute hget hset hcall).blind (c.goTo next) slots
    · exact p.oblivious_fallOff.blind c slots

/-! ## Variables and calls -/

namespace Thread

variable {t : Thread} {slots slots' : Array Word} {values : List Word} {base i : Nat}

theorem slot_withSlots (hsize : slots.size = t.slots.size) (index : Nat) :
    { t with slots }.slot index = t.slot index := by
  have hwindow : { t with slots }.window = t.window := by simp only [window, hsize]
  rw [slot, slot, hwindow]

theorem top_withSlots (hsize : slots.size = t.slots.size) : { t with slots }.top = t.top := by
  simp only [top, hsize]

/-- What is written depends on what was there only where nothing is written. The second array may be
longer at its start. -/
theorem fill_congr (shift : Nat) (hsize : slots'.size = slots.size + shift)
    (h : base ≤ i ∧ i < base + values.length ∨ slots'[i + shift]? = slots[i]?) :
    (fill slots' (base + shift) values)[i + shift]? = (fill slots base values)[i]? := by
  induction values generalizing slots slots' base with
  | nil =>
    rw [List.length_nil] at h
    obtain hin | hsame := h
    · omega
    · exact hsame
  | cons v values ih =>
    rw [List.length_cons] at h
    rw [fill, fill, Nat.add_right_comm]
    refine ih (by rw [Array.size_setIfInBounds, Array.size_setIfInBounds, hsize]) ?_
    by_cases hi : base = i
    · subst hi
      right
      rw [Array.getElem?_setIfInBounds_self, Array.getElem?_setIfInBounds_self, hsize]
      simp only [Nat.add_lt_add_iff_right]
    · obtain hin | hsame := h
      · exact .inl (by omega)
      · right
        rw [Array.getElem?_setIfInBounds_ne hi, Array.getElem?_setIfInBounds_ne (by omega), hsame]

end Thread

namespace Exec

variable {c : Config} {slots : Array Word} {index : Nat}

/-- A variable that is read has the same value if its slot has. -/
theorem getVariable_withSlots (hsize : slots.size = c.thread.slots.size)
    (hsame : ∀ slot, c.thread.slot index = .ok slot → slots[slot]? = c.thread.slots[slot]?) :
    ofExcept (fun c => c.thread.getVariable index) (c.withSlots slots) =
      withSlots slots (ofExcept (fun c => c.thread.getVariable index) c) := by
  have hvalue : (c.withSlots slots).thread.getVariable index = c.thread.getVariable index := by
    rw [Thread.getVariable, Thread.getVariable, Config.withSlots, Thread.slot_withSlots hsize]
    cases hslot : c.thread.slot index with
    | error f => rfl
    | ok slot =>
      have hget := hsame slot hslot
      simp only [Except.map, Array.getD_eq_getD_getElem?, hget]
  rw [ofExcept, ofExcept, hvalue]
  cases c.thread.getVariable index <;> rfl

end Exec

namespace Instr

variable {p : Program} {size : Nat}

/-- **Writing a variable, read off the thread.** -/
theorem execute_setVariable_eq (index : Nat) (c : Config) :
    (setVariable index).execute p size c =
      match c.thread.stack.values.back?, c.thread.slot index with
      | none, _ => .error .stackUnderflow c
      | some _, .error f => .error f c
      | some v, .ok slot => .ok .next { c with thread := c.thread.store index slot v } := by
  simp only [execute, Exec.setVariable, bind, EStateM.bind, onStack, Stack.peek]
  cases c.thread.stack.values.back? with
  | none => rfl
  | some v =>
    simp only [Exec.ofExcept]
    cases c.thread.slot index <;> rfl

/-- **Opening a call, read off the thread.** -/
theorem execute_call_eq (function : Nat) (c : Config) :
    (call function).execute p size c =
      match p.catalog.functions.at? function with
      | none => .error (.unknownFunction function) c
      | some callee =>
        if c.thread.limits.depth ≤ c.thread.frames.length then
          .error (.callDepthExceeded c.thread.limits.depth) c
        else if callee.variableCount ≤ c.thread.top ∧
            c.thread.rootExtent ≤ c.thread.top - callee.variableCount then
          if c.thread.stack.size < callee.parameterCount then .error .stackUnderflow c
          else .ok .next { c with thread := c.thread.enter function callee }
        else .error (.variableOutOfRange callee.variableCount) c := by
  cases hat : p.catalog.functions.at? function with
  | none => simp only [execute, Exec.call, bind, EStateM.bind, Exec.ofExcept, hat]
  | some callee =>
    by_cases hdepth : c.thread.limits.depth ≤ c.thread.frames.length
    · simp only [execute_call_deep hat hdepth, if_pos hdepth]
    by_cases hroom : callee.variableCount ≤ c.thread.top ∧
        c.thread.rootExtent ≤ c.thread.top - callee.variableCount
    · simp only [if_neg hdepth, if_pos hroom]
      by_cases hfew : c.thread.stack.size < callee.parameterCount
      · have hpop := onStack_error rfl (Stack.popMany_eq_error.2 ⟨hfew, rfl, rfl⟩)
        rw [Config.withStack_self rfl] at hpop
        rw [if_pos hfew]
        -- Where the slots of a call end depends on whether there is a call around it.
        cases hframes : c.thread.frames with
        | nil | cons f frames =>
          simp only [Thread.top, hframes] at hdepth hroom
          simp only [execute, Exec.call, bind, EStateM.bind, Exec.ofExcept, hat, hframes,
            if_neg hdepth, if_pos hroom, hpop]
      · have hpop := onStack_ok rfl (Stack.popMany_eq_ok.2 ⟨Nat.not_lt.1 hfew, rfl, rfl⟩)
        rw [if_neg hfew]
        cases hframes : c.thread.frames with
        | nil | cons f frames =>
          simp only [Thread.top, hframes] at hdepth hroom
          simp only [execute, Exec.call, bind, EStateM.bind, Exec.ofExcept, hat, hframes,
            if_neg hdepth, if_pos hroom, hpop, modifyThread, Config.withStack, Thread.enter,
            Thread.top, Stack.size, Array.size_shrink, Nat.sub_le, Nat.min_eq_left, pure,
            EStateM.pure]
    · simp only [execute_call_crowded hat (Nat.not_le.1 hdepth) hroom, if_neg hdepth, if_neg hroom]

end Instr

/-! ## The budget -/

namespace Exec

variable {α β : Type} {m : Exec α} {k : α → Exec β}

theorem unhurried_bind (hm : Unhurried m) (hk : ∀ a, Unhurried (k a)) : Unhurried (m >>= k) := by
  intro c budget
  rw [show (m >>= k) (c.withBudget budget) = EStateM.bind m k (c.withBudget budget) from rfl,
    show (m >>= k) c = EStateM.bind m k c from rfl, EStateM.bind, EStateM.bind, hm c budget]
  cases m c with
  | ok a c' => exact hk a c' budget
  | error fault c' => rfl

theorem unhurried_ofExcept {look : Config → Except Fault α}
    (h : ∀ c budget, look (c.withBudget budget) = look c) : Unhurried (ofExcept look) := by
  intro c budget
  rw [ofExcept, ofExcept, h]
  cases look c <;> rfl

end Exec

/-- **No instruction looks at the budget.** -/
theorem Instr.unhurried_execute (p : Program) (size : Nat) (i : Instr) :
    Unhurried (i.execute p size) := by
  cases i with
  | getVariable index =>
    exact unhurried_bind (unhurried_ofExcept fun _ _ => rfl) fun v =>
      (oblivious_bind (oblivious_onStack _) fun _ => oblivious_pure _).unhurried
  | setVariable index =>
    intro c budget
    have hslot : (c.withBudget budget).thread.slot index = c.thread.slot index := rfl
    have hstack : (c.withBudget budget).thread.stack = c.thread.stack := rfl
    rw [execute_setVariable_eq, execute_setVariable_eq, hslot, hstack]
    cases c.thread.stack.values.back? with
    | none => rfl
    | some v => cases c.thread.slot index <;> rfl
  | call function =>
    refine unhurried_bind (unhurried_bind (unhurried_ofExcept fun _ _ => rfl) fun callee =>
      unhurried_bind (unhurried_ofExcept fun _ _ => rfl) fun base =>
        unhurried_bind (oblivious_onStack _).unhurried fun arguments => fun _ _ => rfl)
      fun _ => (oblivious_pure _).unhurried
  | _ => exact (oblivious_execute (by simp) (by simp) (by simp)).unhurried

/-- **No step looks at the budget.** -/
theorem Program.step_withBudget (p : Program) (c : Config) (budget : Option Nat) :
    p.step (c.withBudget budget) = withBudget budget (p.step c) := by
  have hrunning : p.running (c.withBudget budget).thread = p.running c.thread := rfl
  have hip : (c.withBudget budget).thread.ip = c.thread.ip := rfl
  rw [step_eq, step_eq, hrunning, hip]
  cases p.running c.thread with
  | error f => rfl
  | ok code =>
    simp only
    split
    · cases Instr.decode code.words c.thread.ip with
      | error f => rfl
      | ok d => exact Instr.unhurried_execute p code.size d.1 (c.goTo d.2) budget
    · exact p.oblivious_fallOff.unhurried c budget

end Danmaku
