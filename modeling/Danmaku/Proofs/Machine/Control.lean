import Danmaku.Proofs.Machine.Inversion

/-!
# What a step can do

For each instruction, how many operands it takes and puts back (`Instr.takes`, `Instr.gives`) and
where it can go on (`Instr.LeadsTo`). A step that succeeds either stays in its body, as
`Thread.Stays` describes, or opens a call, or leaves one, or ends the script
(`Program.StepTo`). Everything that holds of all states of a run is derived from this.
-/

namespace Danmaku

namespace Instr

/-- How many operands an instruction takes, delegates excepted. -/
def takes (c : Catalog) : Instr → Nat
  | push _ | jump _ | jumpBy _ | getVariable _ | getProperty _ | callDelegate _ => 0
  | pop | negate | not | branchIfZero _ | branchIfZeroBy _ | setVariable _ | setProperty _ | wait
  | ret => 1
  | binary _ => 2
  | call function => ((c.function? function).map Routine.parameterCount).getD 0
  | fire firing => ((c.firing.at? firing).map FiringFunction.arity).getD 0
  | fireWith firing updater =>
    ((c.firing.at? firing).map FiringFunction.arity).getD 0 +
      ((c.bulletUpdater? updater).map Routine.parameterCount).getD 0

/-- How many operands an instruction puts on the stack once it is done. -/
def gives : Instr → Nat
  | push _ | negate | not | binary _ | getVariable _ | setVariable _ | getProperty _
  | setProperty _ | call _ | callDelegate _ => 1
  | pop | jump _ | branchIfZero _ | jumpBy _ | branchIfZeroBy _ | fire _ | fireWith _ _ | wait
  | ret => 0

/-- Where an instruction may go on, if the address after it is `next`. -/
def LeadsTo (next address : Nat) : Instr → Prop
  | jump target => address = target
  | branchIfZero target => address = next ∨ address = target
  | jumpBy offset => (address : Int) = next + offset
  | branchIfZeroBy offset => address = next ∨ (address : Int) = next + offset
  | ret => False
  | _ => address = next

end Instr

/-- What a step changes in a thread that stays in the body in which it is. -/
structure Thread.Stays (t t' : Thread) : Prop where
  limits : t'.limits = t.limits
  frames : t'.frames = t.frames
  slots : t'.slots.size = t.slots.size
  capacity : t'.stack.capacity = t.stack.capacity
  extent : t.rootExtent ≤ t'.rootExtent
  extent_of_frames : t.frames ≠ [] → t'.rootExtent = t.rootExtent
  extent_le : t'.rootExtent ≤ max t.rootExtent t.slots.size

namespace Thread

variable {t : Thread}

theorem Stays.of_eq {t' : Thread} (hlimits : t'.limits = t.limits) (hframes : t'.frames = t.frames)
    (hslots : t'.slots = t.slots) (hcapacity : t'.stack.capacity = t.stack.capacity)
    (hextent : t'.rootExtent = t.rootExtent) : t.Stays t' :=
  ⟨hlimits, hframes, congrArg _ hslots, hcapacity, hextent.ge, fun _ => hextent,
    hextent.le.trans (Nat.le_max_left _ _)⟩

theorem stays_store {index slot : Nat} (h : t.slot index = .ok slot) (v : Word) :
    t.Stays (t.store index slot v) := by
  refine ⟨rfl, rfl, Array.size_setIfInBounds, rfl, ?_, fun h => ?_, ?_⟩
  · simp only [store]
    split <;> omega
  · rw [store, if_neg]
    rwa [List.isEmpty_iff]
  · simp only [store]
    split
    · next hempty =>
      simp only [Thread.slot, window, List.isEmpty_iff.1 hempty] at h
      split at h
      · omega
      · cases h
    · exact Nat.le_max_left _ _

end Thread

/-! ## The lowest operands -/

namespace Stack

variable {s s' s'' : Stack} {m n : Nat}

/-- The lowest values, so many, are the same. -/
def SameBelow (n : Nat) (s s' : Stack) : Prop := ∀ i < n, s'.values[i]? = s.values[i]?

instance (n : Nat) (s s' : Stack) : Decidable (s.SameBelow n s') :=
  inferInstanceAs (Decidable (∀ i < n, s'.values[i]? = s.values[i]?))

theorem SameBelow.refl (n : Nat) (s : Stack) : s.SameBelow n s := fun _ _ => rfl

theorem SameBelow.trans (h : s.SameBelow n s') (h' : s'.SameBelow n s'') : s.SameBelow n s'' :=
  fun i hi => (h' i hi).trans (h i hi)

theorem SameBelow.mono (h : s.SameBelow n s') (hle : m ≤ n) : s.SameBelow m s' :=
  fun i hi => h i (Nat.lt_of_lt_of_le hi hle)

theorem sameBelow_push (h : n ≤ s.size) (v : Word) :
    s.SameBelow n { s with values := s.values.push v } := fun i hi => by
  have hne : i ≠ s.values.size := Nat.ne_of_lt (Nat.lt_of_lt_of_le hi h)
  rw [Array.getElem?_push, if_neg hne]

theorem sameBelow_pop (h : n ≤ s.size - 1) :
    s.SameBelow n { s with values := s.values.pop } := fun i hi => by
  have hlt : i < s.values.size - 1 := Nat.lt_of_lt_of_le hi h
  rw [Array.getElem?_pop, if_pos hlt]

theorem sameBelow_shrink (h : n ≤ m) (s : Stack) :
    s.SameBelow n { s with values := s.values.shrink m } := fun i hi => by
  rw [Array.shrink_eq_take, Array.take_eq_extract, Array.getElem?_extract, Nat.zero_add]
  split
  · rfl
  · exact (Array.getElem?_eq_none (by omega)).symm

end Stack

/-! ## Delegates -/

namespace Stack

variable {α β : Type}

/-- The stack has room for as many values after an action as before. -/
structure KeepsCapacity (action : StackM α) : Prop where
  ok : ∀ {s s' : Stack} {a : α}, action s = .ok a s' → s'.capacity = s.capacity
  error : ∀ {s s' : Stack} {f : Fault}, action s = .error f s' → s'.capacity = s.capacity

theorem KeepsCapacity.map {m : StackM α} (hm : KeepsCapacity m) (g : α → β) :
    KeepsCapacity (do return g (← m)) := by
  constructor <;> intro s s' x h <;>
    rw [show (do return g (← m) : StackM β) s = EStateM.bind m (fun a => pure (g a)) s from rfl,
      EStateM.bind] at h
  · cases hs : m s with
    | ok a s₁ =>
      rw [hs] at h
      exact (EStateM.Result.ok.inj h).2 ▸ hm.ok hs
    | error f s₁ => rw [hs] at h; cases h
  · cases hs : m s with
    | ok a s₁ => rw [hs] at h; cases h
    | error f s₁ =>
      rw [hs] at h
      exact (EStateM.Result.error.inj h).2 ▸ hm.error hs

/-- A request does not change how much there is room for. -/
theorem keepsCapacity_perform (r : StackRequest) : KeepsCapacity r.perform := by
  cases r with
  | push v =>
    refine KeepsCapacity.map ⟨fun h => ?_, fun h => ?_⟩ fun _ => []
    · obtain ⟨-, rfl⟩ := push_eq_ok.1 h
      rfl
    · obtain ⟨-, -, rfl⟩ := push_eq_error.1 h
      rfl
  | pop =>
    refine KeepsCapacity.map ⟨fun h => ?_, fun h => ?_⟩ fun v => [v]
    · obtain ⟨-, rfl⟩ := pop_eq_ok.1 h
      rfl
    · obtain ⟨-, -, rfl⟩ := pop_eq_error.1 h
      rfl
  | peek =>
    refine KeepsCapacity.map ⟨fun h => ?_, fun h => ?_⟩ fun v => [v]
    · obtain ⟨-, rfl⟩ := peek_eq_ok.1 h
      rfl
    · obtain ⟨-, -, rfl⟩ := peek_eq_error.1 h
      rfl
  | replaceTop v =>
    refine KeepsCapacity.map ⟨fun h => ?_, fun h => ?_⟩ fun _ => []
    · obtain ⟨-, rfl⟩ := replaceTop_eq_ok.1 h
      rfl
    · obtain ⟨-, -, rfl⟩ := replaceTop_eq_error.1 h
      rfl
  | popMany n =>
    refine ⟨fun h => ?_, fun h => ?_⟩
    · obtain ⟨-, -, rfl⟩ := popMany_eq_ok.1 h
      rfl
    · obtain ⟨-, -, rfl⟩ := popMany_eq_error.1 h
      rfl
  | truncate n =>
    refine KeepsCapacity.map ⟨fun h => ?_, fun h => (truncate_eq_error.1 h).elim⟩ fun _ => []
    obtain rfl := truncate_eq_ok.1 h
    rfl
  | clear =>
    refine KeepsCapacity.map ⟨fun h => ?_, fun h => (clear_eq_error.1 h).elim⟩ fun _ => []
    obtain rfl := clear_eq_ok.1 h
    rfl
  | values =>
    refine KeepsCapacity.map (m := get) ⟨fun h => ?_, fun h => ?_⟩ fun s => s.values.toList
    · exact (EStateM.Result.ok.inj h).2 ▸ rfl
    · cases h

/-- Nor does a delegate, which has nothing but requests. -/
theorem keepsCapacity_run (d : Delegate) : KeepsCapacity d.run := by
  induction d with
  | done outcome =>
    cases outcome with
    | ok u => exact ⟨fun h => (EStateM.Result.ok.inj h).2 ▸ rfl, fun h => nomatch h⟩
    | error f => exact ⟨fun h => (nomatch h), fun h => (EStateM.Result.error.inj h).2 ▸ rfl⟩
  | ask request next ih =>
    have hrequest := keepsCapacity_perform request
    constructor <;> intro s s' x h <;> rw [Delegate.run] at h <;> simp only at h
    · split at h
      · next hs => exact ((ih _).ok h).trans (hrequest.ok hs)
      · next hs => exact ((ih _).ok h).trans (hrequest.error hs)
    · split at h
      · next hs => exact ((ih _).error h).trans (hrequest.ok hs)
      · next hs => exact ((ih _).error h).trans (hrequest.error hs)

end Stack

/-! ## Instructions -/

namespace Instr

/-- What an instruction does that stays in its body: it goes on where it leads, at most at the end
of code of some size, and if it is no delegate that was called, as many operands were there as it
takes, and those below are the same. -/
structure Moves (p : Program) (size : Nat) (i : Instr) (t t' : Thread) : Prop where
  stays : t.Stays t'
  leads : i.LeadsTo t.ip t'.ip
  bound : t'.ip = t.ip ∨ t'.ip ≤ size
  takes : (∀ d, i ≠ .callDelegate d) → i.takes p.catalog ≤ t.stack.size
  gives : (∀ d, i ≠ .callDelegate d) →
    t'.stack.size = t.stack.size - i.takes p.catalog + i.gives
  keeps : (∀ d, i ≠ .callDelegate d) →
    t.stack.SameBelow (t.stack.size - i.takes p.catalog) t'.stack

variable {p : Program} {size : Nat} {i : Instr} {c c' : Config} {flow : Flow} {s : Stack}

/-- As many operands are there as an instruction takes, those below stay, and as many come on top as
it gives. -/
structure Trades (c : Catalog) (i : Instr) (s s' : Stack) : Prop where
  takes : i.takes c ≤ s.size
  gives : s'.size = s.size - i.takes c + i.gives
  keeps : s.SameBelow (s.size - i.takes c) s'

namespace Trades

variable {K : Catalog} {i : Instr} {s : Stack} {v : Word}

/-- As many operands come back as were taken, and they are the same. -/
theorem refl (hgives : i.gives = i.takes K) (htakes : i.takes K ≤ s.size) : i.Trades K s s where
  takes := htakes
  gives := by omega
  keeps := .refl _ _

theorem push (htakes : i.takes K = 0) (hgives : i.gives = 1) (v : Word) :
    i.Trades K s { s with values := s.values.push v } where
  takes := htakes ▸ Nat.zero_le _
  gives := by rw [htakes, hgives]; exact Array.size_push _
  keeps := Stack.sameBelow_push (Nat.sub_le _ _) v

theorem pop (htakes : i.takes K = 1) (hgives : i.gives = 0) (hv : s.values.back? = some v) :
    i.Trades K s { s with values := s.values.pop } where
  takes := htakes ▸ Stack.size_pos_of_back? hv
  gives := by rw [htakes, hgives]; exact Array.size_pop
  keeps := Stack.sameBelow_pop (by rw [htakes])

/-- One value in the place of the top. -/
theorem replace (htakes : i.takes K = 1) (hgives : i.gives = 1) (hv : s.values.back? = some v)
    (w : Word) : i.Trades K s { s with values := s.values.pop.push w } where
  takes := htakes ▸ Stack.size_pos_of_back? hv
  gives := by simp only [htakes, hgives, Stack.size, Array.size_push, Array.size_pop]
  keeps := (Stack.sameBelow_pop (by rw [htakes])).trans
    (Stack.sameBelow_push (by rw [htakes]; exact Array.size_pop.ge) w)

/-- One value in the place of the two on top. -/
theorem replace_two (htakes : i.takes K = 2) (hgives : i.gives = 1) (hsize : 2 ≤ s.size)
    (w : Word) : i.Trades K s { s with values := s.values.pop.pop.push w } where
  takes := htakes ▸ hsize
  gives := by
    simp only [htakes, hgives, Stack.size, Array.size_push, Array.size_pop] at hsize ⊢
    omega
  keeps := by
    refine ((Stack.sameBelow_pop ?_).trans (Stack.sameBelow_pop ?_)).trans
      (Stack.sameBelow_push ?_ w) <;>
    simp only [htakes, Stack.size, Array.size_pop] <;> omega

theorem shrink {n : Nat} (htakes : i.takes K = n) (hgives : i.gives = 0) (hn : n ≤ s.size) :
    i.Trades K s { s with values := s.values.shrink (s.size - n) } where
  takes := htakes ▸ hn
  gives := by
    simp only [htakes, hgives, Stack.size, Array.size_shrink] at hn ⊢
    omega
  keeps := htakes ▸ Stack.sameBelow_shrink (Nat.le_refl _) s

end Trades

/-- An instruction that changes the operand stack. -/
theorem moves_withStack (hcapacity : s.capacity = c.thread.stack.capacity)
    (hleads : i.LeadsTo c.thread.ip c.thread.ip)
    (htrades : (∀ d, i ≠ .callDelegate d) → i.Trades p.catalog c.thread.stack s) :
    i.Moves p size c.thread (c.withStack s).thread :=
  ⟨.of_eq rfl rfl rfl hcapacity rfl, hleads, .inl rfl, fun h => (htrades h).takes,
    fun h => (htrades h).gives, fun h => (htrades h).keeps⟩

/-- An instruction that goes on elsewhere. -/
theorem moves_goTo {target : Nat} (hcapacity : s.capacity = c.thread.stack.capacity)
    (hleads : i.LeadsTo c.thread.ip target) (hbound : target ≤ size)
    (htrades : (∀ d, i ≠ .callDelegate d) → i.Trades p.catalog c.thread.stack s) :
    i.Moves p size c.thread ((c.withStack s).goTo target).thread :=
  ⟨.of_eq rfl rfl rfl hcapacity rfl, hleads, .inr hbound, fun h => (htrades h).takes,
    fun h => (htrades h).gives, fun h => (htrades h).keeps⟩

/-- **What an instruction does** that is neither a call nor a return. -/
theorem execute_moves (h : i.execute p size c = .ok flow c') (hcall : ∀ f, i ≠ .call f)
    (hret : i ≠ .ret) : i.Moves p size c.thread c'.thread := by
  cases i with
  | push v =>
    simp only [execute, Exec.bind_eq_ok, Exec.onStack_eq_ok, Stack.push_eq_ok, Exec.pure_eq_ok] at h
    obtain ⟨_, _, ⟨_, ⟨-, rfl⟩, rfl⟩, rfl, rfl⟩ := h
    exact moves_withStack rfl rfl fun _ => .push rfl rfl v
  | pop =>
    simp only [execute, Exec.bind_eq_ok, Exec.onStack_eq_ok, Stack.pop_eq_ok, Exec.pure_eq_ok] at h
    obtain ⟨_, _, ⟨_, ⟨hv, rfl⟩, rfl⟩, rfl, rfl⟩ := h
    exact moves_withStack rfl rfl fun _ => .pop rfl rfl hv
  | negate | not =>
    simp only [execute, Exec.bind_eq_ok, Exec.onStack_eq_ok, Stack.peek_eq_ok,
      Stack.replaceTop_eq_ok, Exec.pure_eq_ok] at h
    obtain ⟨_, _, ⟨_, ⟨hv, rfl⟩, rfl⟩, _, _, ⟨_, ⟨-, rfl⟩, rfl⟩, rfl, rfl⟩ := h
    exact moves_withStack rfl rfl fun _ => .replace rfl rfl hv _
  | binary op =>
    simp only [execute, Exec.bind_eq_ok, Exec.onStack_eq_ok, Stack.pop_eq_ok, Stack.push_eq_ok,
      Exec.ofExcept_eq_ok, Exec.pure_eq_ok] at h
    obtain ⟨_, _, ⟨_, ⟨hv, rfl⟩, rfl⟩, _, _, ⟨_, ⟨hw, rfl⟩, rfl⟩, _, _, ⟨-, rfl⟩, _, _,
      ⟨_, ⟨-, rfl⟩, rfl⟩, rfl, rfl⟩ := h
    have hpos := Stack.size_pos_of_back? hw
    simp only [Stack.size, Config.withStack, Array.size_pop] at hpos
    exact moves_withStack rfl rfl fun _ => .replace_two rfl rfl (by rw [Stack.size]; omega) _
  | jump target =>
    simp only [execute, Exec.bind_eq_ok, Exec.jump_eq_ok, Exec.pure_eq_ok] at h
    obtain ⟨_, _, ⟨hle, rfl⟩, rfl, rfl⟩ := h
    exact moves_goTo (s := c.thread.stack) rfl rfl hle fun _ => .refl rfl (Nat.zero_le _)
  | branchIfZero target =>
    obtain ⟨v, hv, hjump | rfl⟩ := Exec.branch_eq_ok h
    · obtain ⟨hle, rfl⟩ := Exec.jump_eq_ok.1 hjump
      exact moves_goTo rfl (.inr rfl) hle fun _ => .pop rfl rfl hv
    · exact moves_withStack rfl (.inl rfl) fun _ => .pop rfl rfl hv
  | jumpBy offset =>
    simp only [execute, Exec.bind_eq_ok, Exec.jumpBy_eq_ok, Exec.pure_eq_ok] at h
    obtain ⟨_, _, ⟨hle, rfl⟩, rfl, rfl⟩ := h
    refine moves_goTo (s := c.thread.stack) rfl ?_ (by omega) fun _ => .refl rfl (Nat.zero_le _)
    rw [LeadsTo]
    omega
  | branchIfZeroBy offset =>
    obtain ⟨v, hv, hjump | rfl⟩ := Exec.branch_eq_ok h
    · obtain ⟨hle, rfl⟩ := Exec.jumpBy_eq_ok.1 hjump
      simp only [Config.withStack] at hle ⊢
      refine moves_goTo rfl (.inr ?_) ?_ fun _ => .pop rfl rfl hv
      · omega
      · omega
    · exact moves_withStack rfl (.inl rfl) fun _ => .pop rfl rfl hv
  | getVariable _ | getProperty _ =>
    simp only [execute, Exec.bind_eq_ok, Exec.onStack_eq_ok, Stack.push_eq_ok, Exec.ofExcept_eq_ok,
      Exec.pure_eq_ok] at h
    obtain ⟨v, _, ⟨-, rfl⟩, _, _, ⟨_, ⟨-, rfl⟩, rfl⟩, rfl, rfl⟩ := h
    exact moves_withStack rfl rfl fun _ => .push rfl rfl v
  | setVariable index =>
    simp only [execute, Exec.bind_eq_ok, Exec.setVariable_eq_ok, Exec.pure_eq_ok] at h
    obtain ⟨_, _, ⟨v, slot, hv, hslot, rfl⟩, rfl, rfl⟩ := h
    have htrades : (setVariable index).Trades p.catalog c.thread.stack c.thread.stack :=
      .refl rfl (Stack.size_pos_of_back? hv)
    exact ⟨Thread.stays_store hslot v, rfl, .inl rfl, fun _ => htrades.takes,
      fun _ => htrades.gives, fun _ => htrades.keeps⟩
  | setProperty property =>
    simp only [execute, Exec.bind_eq_ok, Exec.setProperty_eq_ok, Exec.pure_eq_ok] at h
    obtain ⟨_, _, ⟨_, e, hv, -, rfl⟩, rfl, rfl⟩ := h
    exact moves_withStack (s := c.thread.stack) rfl rfl fun _ =>
      .refl rfl (Stack.size_pos_of_back? hv)
  | callDelegate d =>
    simp only [execute, Exec.bind_eq_ok, Exec.onStack_eq_ok, Exec.ofExcept_eq_ok,
      Exec.pure_eq_ok] at h
    obtain ⟨entry, c, ⟨-, rfl⟩, _, _, ⟨s, hrun, rfl⟩, rfl, rfl⟩ := h
    exact moves_withStack ((Stack.keepsCapacity_run entry.delegate).ok hrun) rfl fun hown =>
      absurd rfl (hown d)
  | fire firing =>
    simp only [execute, Exec.bind_eq_ok, Exec.firing_eq_ok, Exec.onStack_eq_ok,
      Stack.popMany_eq_ok, Exec.shoot_eq_ok, Exec.pure_eq_ok] at h
    obtain ⟨function, _, ⟨hf, rfl⟩, _, _, ⟨_, ⟨hle, rfl, rfl⟩, rfl⟩, _, _, rfl, rfl, rfl⟩ := h
    have htakes : (fire firing).takes p.catalog = function.arity := by
      rw [takes, hf, Option.map_some, Option.getD_some]
    exact moves_withStack rfl rfl fun _ => .shrink htakes rfl hle
  | fireWith firing updater =>
    simp only [execute, Exec.bind_eq_ok, Exec.firing_eq_ok, Exec.onStack_eq_ok,
      Stack.popMany_eq_ok, Exec.ofExcept_eq_ok, Exec.shoot_eq_ok, Exec.pure_eq_ok] at h
    obtain ⟨function, _, ⟨hf, rfl⟩, routine, _, ⟨hu, rfl⟩, _, _, ⟨_, ⟨hle, rfl, rfl⟩, rfl⟩, _, _,
      ⟨_, ⟨hle', rfl, rfl⟩, rfl⟩, _, _, rfl, rfl, rfl⟩ := h
    split at hu
    · next routine' hat =>
      obtain rfl := Except.ok.inj hu
      simp only [Config.withStack, Stack.size, Array.size_shrink] at hle hle'
      refine ⟨.of_eq rfl rfl rfl rfl rfl, rfl, .inl rfl, fun _ => ?_, fun _ => ?_, fun _ => ?_⟩
      · simp only [takes, hf, hat, Option.map_some, Option.getD_some, Stack.size]
        omega
      · simp only [takes, gives, hf, hat, Config.withStack, Stack.size, Array.size_shrink,
          Option.map_some, Option.getD_some]
        omega
      · refine (Stack.sameBelow_shrink ?_ _).trans (Stack.sameBelow_shrink ?_ _) <;>
        simp only [takes, hf, hat, Config.withStack, Stack.size, Array.size_shrink,
          Option.map_some, Option.getD_some] <;> omega
    · cases hu
  | wait =>
    simp only [execute, Exec.bind_eq_ok, Exec.onStack_eq_ok, Stack.pop_eq_ok,
      Exec.modifyThread_eq_ok, Exec.pure_eq_ok] at h
    obtain ⟨_, _, ⟨_, ⟨hv, rfl⟩, rfl⟩, _, _, rfl, rfl, rfl⟩ := h
    have htrades : Instr.wait.Trades p.catalog c.thread.stack _ := .pop rfl rfl hv
    exact ⟨.of_eq rfl rfl rfl rfl rfl, rfl, .inl rfl, fun _ => htrades.takes,
      fun _ => htrades.gives, fun _ => htrades.keeps⟩
  | call f => exact absurd rfl (hcall f)
  | ret => exact absurd rfl hret

end Instr

/-! ## Steps -/

/-- What a step changes in a thread that goes back to the caller, `kept` operands being there
besides the value: those of the caller stay, and the value comes on top. -/
structure Thread.Returns (t t' : Thread) (f : Frame) (frames : List Frame) (kept : Nat) : Prop where
  limits : t'.limits = t.limits
  frames : t'.frames = frames
  slots : t'.slots = t.slots
  capacity : t'.stack.capacity = t.stack.capacity
  extent : t'.rootExtent = t.rootExtent
  ip : t'.ip = f.returnTo
  operands : t'.stack.size = min kept f.stackBase + 1

/-- What a step changes in a thread that comes to the end of the root. -/
structure Thread.Ends (t t' : Thread) : Prop where
  limits : t'.limits = t.limits
  frames : t'.frames = []
  slots : t'.slots = t.slots
  capacity : t'.stack.capacity = t.stack.capacity
  extent : t'.rootExtent = t.rootExtent
  ip : t'.ip = 0
  operands : t'.stack.size ≤ t.stack.size

namespace Program

/-- The ways in which a step can succeed. -/
inductive StepTo (p : Program) (t t' : Thread) : Prop
  /-- An instruction stays in its body. -/
  | moves {code : Code} {i : Instr} {next : Nat} (running : p.running t = .ok code)
      (decode : Instr.decode code.words t.ip = .ok (i, next)) (not_call : ∀ f, i ≠ .call f)
      (not_ret : i ≠ .ret) (moves : i.Moves p code.size { t with ip := next } t')
  /-- A call is opened. -/
  | enters {code : Code} {function next : Nat} {callee : Routine}
      (running : p.running t = .ok code)
      (decode : Instr.decode code.words t.ip = .ok (.call function, next))
      (callee_eq : p.catalog.function? function = some callee)
      (room : callee.variableCount ≤ t.top)
      (floor : t.rootExtent ≤ t.top - callee.variableCount)
      (operands : callee.parameterCount ≤ t.stack.size)
      (eq : t' = Thread.enter { t with ip := next } function callee)
  /-- A call is left by a return. -/
  | returns {code : Code} {f : Frame} {frames : List Frame} {next kept : Nat}
      (running : p.running t = .ok code) (decode : Instr.decode code.words t.ip = .ok (.ret, next))
      (frames_eq : t.frames = f :: frames) (operands : t.stack.size = kept + 1)
      (returns : t.Returns t' f frames kept)
      (values : ∃ v, t.stack.values.back? = some v ∧
        t'.stack.values = (t.stack.values.pop.shrink f.stackBase).push v)
  /-- A call is left at the end of its code. -/
  | falls {code : Code} {f : Frame} {frames : List Frame} (running : p.running t = .ok code)
      (ended : code.size ≤ t.ip) (frames_eq : t.frames = f :: frames)
      (returns : t.Returns t' f frames t.stack.size)
      (values : t'.stack.values = (t.stack.values.shrink f.stackBase).push 0)
  /-- The root returns. -/
  | stops {next : Nat} (decode : Instr.decode p.code.words t.ip = .ok (.ret, next))
      (frames_eq : t.frames = []) (operands : 0 < t.stack.size) (ends : t.Ends t')
      (empty : t'.stack.size = 0)
  /-- The root comes to the end of its code. -/
  | ends (ended : p.code.size ≤ t.ip) (frames_eq : t.frames = []) (ends : t.Ends t')
      (same : t'.stack = t.stack)

variable {p : Program} {c c' : Config} {flow : Flow}

/-- **A step that succeeds does so in one of these ways.** -/
theorem stepTo_of_step (hstep : p.step c = .ok flow c') : p.StepTo c.thread c'.thread := by
  have rootCode {code : Code} (hframes : c.thread.frames = [])
      (hrun : p.running c.thread = .ok code) : p.code = code := by
    rw [running, hframes] at hrun
    exact Except.ok.inj hrun
  obtain ⟨code, hrun, ⟨-, i, next, hdecode, h⟩ | ⟨hend, h⟩⟩ := step_eq_ok hstep
  · by_cases hcall : ∃ f, i = .call f
    · obtain ⟨f, rfl⟩ := hcall
      simp only [Instr.execute, Exec.bind_eq_ok, Exec.pure_eq_ok] at h
      obtain ⟨_, _, hcall, rfl, rfl⟩ := h
      obtain ⟨callee, hcallee, -, hroom, hfloor, hargs, rfl⟩ := Exec.call_eq_ok hcall
      exact .enters hrun hdecode hcallee hroom hfloor hargs rfl
    · by_cases hret : i = .ret
      · subst hret
        obtain ⟨v, hv, ⟨hframes, rfl, rfl⟩ | ⟨rfl, hleave⟩⟩ := Instr.ret_eq_ok h
        · obtain rfl := rootCode hframes hrun
          exact .stops hdecode hframes (Stack.size_pos_of_back? hv)
            ⟨rfl, hframes, rfl, rfl, rfl, rfl, Nat.zero_le _⟩ rfl
        · obtain ⟨F, fs, hframes, -, rfl⟩ := Exec.leaveCall_eq_ok.1 hleave
          refine .returns hrun hdecode hframes
            (Nat.succ_pred_eq_of_pos (Stack.size_pos_of_back? hv)).symm
            ⟨rfl, rfl, rfl, rfl, rfl, rfl, ?_⟩ ⟨v, hv, rfl⟩
          simp [Config.backTo, Config.withStack, Config.goTo, Stack.size, Nat.min_comm]
      · exact .moves hrun hdecode (fun f hf => hcall ⟨f, hf⟩) hret
          (Instr.execute_moves h (fun f hf => hcall ⟨f, hf⟩) hret)
  · obtain ⟨hframes, rfl, rfl⟩ | ⟨rfl, hleave⟩ := fallOff_eq_ok h
    · obtain rfl := rootCode hframes hrun
      exact .ends hend hframes ⟨rfl, hframes, rfl, rfl, rfl, rfl, Nat.le_refl _⟩ rfl
    · obtain ⟨F, fs, hframes, -, rfl⟩ := Exec.leaveCall_eq_ok.1 hleave
      refine .falls hrun hend hframes ⟨rfl, rfl, rfl, rfl, rfl, rfl, ?_⟩ rfl
      simp [Config.backTo, Config.withStack, Stack.size, Nat.min_comm]

/-- No step changes the limits. -/
theorem StepTo.limits {t t' : Thread} (h : p.StepTo t t') : t'.limits = t.limits := by
  cases h with
  | moves _ _ _ _ h => exact h.stays.limits
  | enters _ _ _ _ _ _ eq => rw [eq]; rfl
  | returns _ _ _ _ h => exact h.limits
  | falls _ _ _ h => exact h.limits
  | stops _ _ _ h => exact h.limits
  | ends _ _ h => exact h.limits

end Program

end Danmaku
