import Danmaku.Machine.Run
import Danmaku.Proofs.Machine.Execute

/-!
# Steps read backwards

From the outcome of a computation on a configuration to what its parts did: for each operation of
the operand stack and of the machine an equivalence, for the use of `simp only` in this direction
(`Exec.bind_eq_ok` and the lemmas after it). A step is inverted in `Program.step_eq_ok` and
`Program.step_eq_error`.
-/

namespace Danmaku

/-! ## The operand stack -/

namespace Stack

variable {s s' : Stack} {v w : Word} {vs : List Word} {u : Unit} {n : Nat} {f : Fault}

theorem size_pos_of_back? (h : s.values.back? = some v) : 0 < s.size := by
  rw [size, Nat.pos_iff_ne_zero]
  intro hz
  rw [Array.size_eq_zero_iff] at hz
  rw [hz] at h
  cases h

theorem push_eq_ok : push v s = .ok u s' ↔
    s.size < s.capacity ∧ s' = { s with values := s.values.push v } := by
  unfold push
  split
  · simp [size]; omega
  · simp [size, eq_comm]; omega

theorem push_eq_error : push v s = .error f s' ↔
    s.capacity ≤ s.size ∧ f = .stackOverflow s.capacity ∧ s' = s := by
  unfold push
  split
  · simp [size, eq_comm, *]
  · simp [size]; omega

theorem pop_eq_ok : pop s = .ok v s' ↔
    s.values.back? = some v ∧ s' = { s with values := s.values.pop } := by
  unfold pop
  split <;> simp [*, eq_comm]

theorem pop_eq_error : pop s = .error f s' ↔ s.size = 0 ∧ f = .stackUnderflow ∧ s' = s := by
  unfold pop
  split
  · next h => simp [size, Array.back?_eq_none_iff.1 h, eq_comm]
  · next h => simpa using fun h' => absurd h' (Nat.pos_iff_ne_zero.1 (size_pos_of_back? h))

theorem peek_eq_ok : peek s = .ok v s' ↔ s.values.back? = some v ∧ s' = s := by
  unfold peek
  split <;> simp [*, eq_comm]

theorem peek_eq_error : peek s = .error f s' ↔ s.size = 0 ∧ f = .stackUnderflow ∧ s' = s := by
  unfold peek
  split
  · next h => simp [size, Array.back?_eq_none_iff.1 h, eq_comm]
  · next h => simpa using fun h' => absurd h' (Nat.pos_iff_ne_zero.1 (size_pos_of_back? h))

theorem replaceTop_eq_ok : replaceTop w s = .ok u s' ↔
    0 < s.size ∧ s' = { s with values := s.values.pop.push w } := by
  unfold replaceTop
  split
  · next h => simp [size, Array.isEmpty_iff.1 h]
  · next h =>
    have : 0 < s.size := by
      rw [Array.isEmpty_iff_size_eq_zero] at h
      exact Nat.pos_of_ne_zero h
    simp [this, eq_comm]

theorem replaceTop_eq_error : replaceTop w s = .error f s' ↔
    s.size = 0 ∧ f = .stackUnderflow ∧ s' = s := by
  unfold replaceTop
  split
  · next h => simp [size, Array.isEmpty_iff.1 h, eq_comm]
  · next h =>
    have : s.size ≠ 0 := by rwa [Array.isEmpty_iff_size_eq_zero] at h
    simp [this]

theorem popMany_eq_ok : popMany n s = .ok vs s' ↔
    n ≤ s.size ∧ vs = (s.values.extract (s.size - n)).toList ∧
      s' = { s with values := s.values.shrink (s.size - n) } := by
  unfold popMany
  split
  · simp [size]; omega
  · simp [size, eq_comm]; omega

theorem popMany_eq_error : popMany n s = .error f s' ↔
    s.size < n ∧ f = .stackUnderflow ∧ s' = s := by
  unfold popMany
  split
  · simp [size, eq_comm, *]
  · simp [size]; omega

theorem truncate_eq_ok : truncate n s = .ok u s' ↔ s' = { s with values := s.values.shrink n } := by
  simp [truncate, eq_comm]

theorem truncate_eq_error : truncate n s = .error f s' ↔ False := by
  simp [truncate]

theorem clear_eq_ok : clear s = .ok u s' ↔ s' = { s with values := #[] } := by
  simp [clear, eq_comm]

theorem clear_eq_error : clear s = .error f s' ↔ False := by
  simp [clear]

end Stack

/-! ## The machine -/

/-- The thread once a function has been entered, whose arguments are on the stack. -/
def Thread.enter (t : Thread) (function : Nat) (callee : Routine) : Thread :=
  let kept := t.stack.size - callee.parameterCount
  let arguments := (t.stack.values.extract kept).toList
  let base := t.top - callee.variableCount
  { t with
    stack := { t.stack with values := t.stack.values.shrink kept }
    slots := fill t.slots base
      (arguments ++ List.replicate (callee.variableCount - arguments.length) 0)
    frames := ⟨function, t.ip, base, callee.variableCount, kept⟩ :: t.frames
    ip := 0 }

namespace Exec

variable {α β : Type} {m : Exec α} {k : α → Exec β} {action : StackM α} {c c' : Config} {a : α}
  {b : β} {f : Fault} {u : Unit} {size target : Nat}

theorem bind_eq_ok : (m >>= k) c = .ok b c' ↔ ∃ a c₁, m c = .ok a c₁ ∧ k a c₁ = .ok b c' := by
  rw [show (m >>= k) c = EStateM.bind m k c from rfl, EStateM.bind]
  cases m c <;> simp

theorem bind_eq_error : (m >>= k) c = .error f c' ↔
    m c = .error f c' ∨ ∃ a c₁, m c = .ok a c₁ ∧ k a c₁ = .error f c' := by
  rw [show (m >>= k) c = EStateM.bind m k c from rfl, EStateM.bind]
  cases m c <;> simp

theorem pure_eq_ok {a' : α} : (pure a : Exec α) c = .ok a' c' ↔ a = a' ∧ c = c' := by
  simp [pure, EStateM.pure]

theorem pure_eq_error : (pure a : Exec α) c = .error f c' ↔ False := by
  simp [pure, EStateM.pure]

theorem get_eq_ok {x : Config} : (get : Exec Config) c = .ok x c' ↔ c = x ∧ c = c' := by
  simp [get_apply]

theorem get_eq_error : (get : Exec Config) c = .error f c' ↔ False := by
  simp [get_apply]

theorem onStack_eq_ok : onStack action c = .ok a c' ↔
    ∃ s, action c.thread.stack = .ok a s ∧ c' = c.withStack s := by
  unfold onStack
  simp only
  cases action c.thread.stack <;> simp [Config.withStack, eq_comm]

theorem onStack_eq_error : onStack action c = .error f c' ↔
    ∃ s, action c.thread.stack = .error f s ∧ c' = c.withStack s := by
  unfold onStack
  simp only
  cases action c.thread.stack <;> simp [Config.withStack, eq_comm]

theorem modifyThread_eq_ok {g : Thread → Thread} : modifyThread g c = .ok u c' ↔
    c' = { c with thread := g c.thread } := by
  simp [modifyThread, eq_comm]

theorem modifyThread_eq_error {g : Thread → Thread} : modifyThread g c = .error f c' ↔ False := by
  simp [modifyThread]

theorem ofExcept_eq_ok {g : Config → Except Fault α} : ofExcept g c = .ok a c' ↔
    g c = .ok a ∧ c' = c := by
  unfold ofExcept
  cases g c <;> simp [eq_comm]

theorem ofExcept_eq_error {g : Config → Except Fault α} : ofExcept g c = .error f c' ↔
    g c = .error f ∧ c' = c := by
  unfold ofExcept
  cases g c <;> simp [eq_comm]

theorem shoot_eq_ok {shot : Shot} : shoot shot c = .ok u c' ↔
    c' = { c with shots := c.shots.push shot } := by
  simp [shoot, eq_comm]

theorem shoot_eq_error {shot : Shot} : shoot shot c = .error f c' ↔ False := by
  simp [shoot]

theorem firing_eq_ok {catalog : Catalog} {index : Nat} {function : FiringFunction} :
    firing catalog index c = .ok function c' ↔
      catalog.firing.at? index = some function ∧ c' = c := by
  simp only [firing, ofExcept_eq_ok]
  cases catalog.firing.at? index <;> simp

theorem firing_eq_error {catalog : Catalog} {index : Nat} :
    firing catalog index c = .error f c' ↔
      catalog.firing.at? index = none ∧ f = .unknownFiring index ∧ c' = c := by
  simp only [firing, ofExcept_eq_error]
  cases catalog.firing.at? index <;> simp [eq_comm]

theorem jump_eq_ok : jump size target c = .ok u c' ↔ target ≤ size ∧ c' = c.goTo target := by
  unfold jump
  split
  · next h => simp [goTo, modifyThread_eq_ok, h, Config.goTo]
  · next h =>
    simpa [throw_apply] using fun h' => absurd h' h

theorem jump_eq_error : jump size target c = .error f c' ↔
    size < target ∧ f = .jumpOutOfRange (Int.bmod target 0x10000000000000000) size ∧ c' = c := by
  unfold jump
  split
  · next h => simp [goTo, modifyThread_eq_error]; omega
  · next h => simp [throw_apply, eq_comm]; omega

theorem jumpBy_eq_ok {offset : Int} : jumpBy size offset c = .ok u c' ↔
    (0 ≤ c.thread.ip + offset ∧ c.thread.ip + offset ≤ size) ∧
      c' = c.goTo (c.thread.ip + offset).toNat := by
  unfold jumpBy
  simp only
  split
  · next h => simp [goTo, modifyThread_eq_ok, h, Config.goTo]
  · next h => simpa using fun h₀ h₁ => absurd ⟨h₀, h₁⟩ h

theorem jumpBy_eq_error {offset : Int} : jumpBy size offset c = .error f c' ↔
    ¬ (0 ≤ c.thread.ip + offset ∧ c.thread.ip + offset ≤ size) ∧
      f = .jumpOutOfRange (Int.bmod (c.thread.ip + offset) 0x10000000000000000) size ∧
        c' = c := by
  unfold jumpBy
  simp only
  split
  · next h => simp [goTo, modifyThread_eq_error, h]
  · next h =>
    simp only [EStateM.Result.error.injEq, h, not_false_eq_true, true_and, eq_comm]

theorem popIsZero_eq_ok {zero : Bool} : popIsZero c = .ok zero c' ↔
    ∃ v, c.thread.stack.values.back? = some v ∧ zero = (v == 0) ∧
      c' = c.withStack { c.thread.stack with values := c.thread.stack.values.pop } := by
  simp only [popIsZero, bind_eq_ok, onStack_eq_ok, Stack.pop_eq_ok, pure_eq_ok]
  constructor
  · rintro ⟨v, _, ⟨_, ⟨hv, rfl⟩, rfl⟩, rfl, rfl⟩
    exact ⟨v, hv, rfl, rfl⟩
  · rintro ⟨v, hv, rfl, rfl⟩
    exact ⟨v, _, ⟨_, ⟨hv, rfl⟩, rfl⟩, rfl, rfl⟩

theorem popIsZero_eq_error : popIsZero c = .error f c' ↔
    c.thread.stack.size = 0 ∧ f = .stackUnderflow ∧ c' = c := by
  simp only [popIsZero, bind_eq_error, onStack_eq_error, Stack.pop_eq_error, pure_eq_error,
    and_false, exists_false, or_false]
  constructor
  · rintro ⟨_, ⟨hsize, rfl, rfl⟩, rfl⟩
    exact ⟨hsize, rfl, Config.withStack_self rfl⟩
  · rintro ⟨hsize, rfl, rfl⟩
    exact ⟨_, ⟨hsize, rfl, rfl⟩, (Config.withStack_self rfl).symm⟩

/-- A branch takes its condition, and acts or not. -/
theorem branch_eq_ok {action : Exec Unit} {flow : Flow}
    (h : (do
      if ← popIsZero then action
      return Flow.next : Exec Flow) c = .ok flow c') :
    ∃ v, c.thread.stack.values.back? = some v ∧
      (action (c.withStack { c.thread.stack with values := c.thread.stack.values.pop }) =
          .ok () c' ∨
        c' = c.withStack { c.thread.stack with values := c.thread.stack.values.pop }) := by
  simp only [bind_eq_ok, popIsZero_eq_ok] at h
  obtain ⟨_, _, ⟨v, hv, rfl, rfl⟩, h⟩ := h
  refine ⟨v, hv, ?_⟩
  split at h
  · obtain ⟨_, _, hact, h⟩ := bind_eq_ok.1 h
    exact .inl ((pure_eq_ok.1 h).2 ▸ hact)
  · exact .inr (pure_eq_ok.1 h).2.symm

/-- A branch fails for want of its condition, or as it acts. -/
theorem branch_eq_error {action : Exec Unit}
    (h : (do
      if ← popIsZero then action
      return Flow.next : Exec Flow) c = .error f c') :
    (c.thread.stack.size = 0 ∧ f = .stackUnderflow) ∨
      action (c.withStack { c.thread.stack with values := c.thread.stack.values.pop }) =
        .error f c' := by
  simp only [bind_eq_error, popIsZero_eq_error, popIsZero_eq_ok] at h
  rcases h with ⟨hsize, rfl, rfl⟩ | ⟨_, _, ⟨v, -, rfl, rfl⟩, h⟩
  · exact .inl ⟨hsize, rfl⟩
  · split at h
    · exact .inr (by simpa only [bind_eq_error, pure_eq_error, and_false, exists_false, or_false]
        using h)
    · exact (pure_eq_error.1 h).elim

theorem setVariable_eq_ok {index : Nat} : setVariable index c = .ok u c' ↔
    ∃ v slot, c.thread.stack.values.back? = some v ∧ c.thread.slot index = .ok slot ∧
      c' = { c with thread := c.thread.store index slot v } := by
  simp only [setVariable, bind_eq_ok, onStack_eq_ok, Stack.peek_eq_ok, ofExcept_eq_ok,
    modifyThread_eq_ok]
  constructor
  · rintro ⟨v, _, ⟨_, ⟨hv, rfl⟩, rfl⟩, slot, _, ⟨hslot, rfl⟩, rfl⟩
    exact ⟨v, slot, hv, hslot, rfl⟩
  · rintro ⟨v, slot, hv, hslot, rfl⟩
    exact ⟨v, _, ⟨_, ⟨hv, rfl⟩, rfl⟩, slot, _, ⟨hslot, rfl⟩, rfl⟩

theorem setVariable_eq_error {index : Nat} (h : setVariable index c = .error f c') :
    c' = c ∧ ((c.thread.stack.size = 0 ∧ f = .stackUnderflow) ∨
      c.thread.slot index = .error f) := by
  simp only [setVariable, bind_eq_error, onStack_eq_error, onStack_eq_ok, Stack.peek_eq_error,
    Stack.peek_eq_ok, ofExcept_eq_error, modifyThread_eq_error, and_false, exists_false,
    or_false] at h
  rcases h with ⟨_, ⟨hsize, rfl, rfl⟩, rfl⟩ | ⟨v, _, ⟨_, ⟨-, rfl⟩, rfl⟩, hslot, rfl⟩
  · exact ⟨Config.withStack_self rfl, .inl ⟨hsize, rfl⟩⟩
  · exact ⟨Config.withStack_self rfl, .inr hslot⟩

theorem setProperty_eq_ok {types : TypeTable} {property : Nat} :
    setProperty types property c = .ok u c' ↔
      ∃ v e, c.thread.stack.values.back? = some v ∧ types.write c.entity property v = .ok e ∧
        c' = { c with entity := e } := by
  simp only [setProperty, bind, EStateM.bind, onStack, Stack.peek]
  cases hv : c.thread.stack.values.back? with
  | none => simp
  | some v =>
    cases he : types.write c.entity property v <;> simp [he, eq_comm]

theorem setProperty_eq_error {types : TypeTable} {property : Nat} :
    setProperty types property c = .error f c' ↔
      c' = c ∧ ((c.thread.stack.size = 0 ∧ f = .stackUnderflow) ∨
        ∃ v, c.thread.stack.values.back? = some v ∧
          types.write c.entity property v = .error f) := by
  simp only [setProperty, bind, EStateM.bind, onStack, Stack.peek]
  cases hv : c.thread.stack.values.back? with
  | none =>
    have hsize : c.thread.stack.size = 0 := by
      rw [Stack.size, Array.back?_eq_none_iff.1 hv]
      rfl
    constructor
    · intro h
      obtain ⟨rfl, rfl⟩ := EStateM.Result.error.inj h
      exact ⟨rfl, .inl ⟨hsize, rfl⟩⟩
    · rintro ⟨rfl, ⟨-, rfl⟩ | ⟨v, hv', -⟩⟩
      · rfl
      · cases hv'
  | some v =>
    have hsize : c.thread.stack.size ≠ 0 := Nat.pos_iff_ne_zero.1 (Stack.size_pos_of_back? hv)
    cases he : types.write c.entity property v with
    | ok e => simp [he, hsize]
    | error f' =>
      simp only [he]
      constructor
      · intro h
        obtain ⟨rfl, rfl⟩ := EStateM.Result.error.inj h
        exact ⟨rfl, .inr ⟨v, rfl, he⟩⟩
      · rintro ⟨rfl, ⟨h, -⟩ | ⟨v', hv', he'⟩⟩
        · exact absurd h hsize
        · obtain rfl := Option.some.inj hv'
          obtain rfl := Except.error.inj (he.symm.trans he')
          rfl

theorem leaveCall_eq_ok {v : Word} : leaveCall v c = .ok u c' ↔
    ∃ F fs, c.thread.frames = F :: fs ∧
      (c.thread.stack.values.shrink F.stackBase).size < c.thread.stack.capacity ∧
      c' = (c.withStack { c.thread.stack with
        values := (c.thread.stack.values.shrink F.stackBase).push v }).backTo F fs := by
  cases hf : c.thread.frames with
  | nil => simp [leaveCall, bind_eq_ok, ofExcept_eq_ok, hf]
  | cons F fs =>
    simp only [leaveCall, bind_eq_ok, ofExcept_eq_ok, onStack_eq_ok, modifyThread_eq_ok,
      Stack.truncate_eq_ok, Stack.push_eq_ok, hf]
    constructor
    · rintro ⟨F', c₁, ⟨heq, rfl⟩, _, c₂, ⟨s, rfl, rfl⟩, _, c₃, rfl, s', ⟨hroom, rfl⟩, rfl⟩
      obtain rfl := Except.ok.inj heq
      exact ⟨F, fs, rfl, hroom, by simp [Config.withStack, Config.backTo, hf]⟩
    · rintro ⟨F', fs', heq, hroom, rfl⟩
      obtain ⟨rfl, rfl⟩ := List.cons.inj heq
      exact ⟨F, _, ⟨rfl, rfl⟩, (), _, ⟨_, rfl, rfl⟩, (), _, rfl, _, ⟨hroom, rfl⟩,
        by simp [Config.withStack, Config.backTo, hf]⟩

/-- Closing a call fails where there is none, and where there is no room for the value. -/
theorem leaveCall_eq_error {v : Word} (h : leaveCall v c = .error f c') :
    (c.thread.frames = [] ∧ f = .stackUnderflow ∧ c' = c) ∨
    ∃ F fs, c.thread.frames = F :: fs ∧ c.thread.stack.capacity ≤ F.stackBase ∧
      f = .stackOverflow c.thread.stack.capacity ∧
      c' = (c.withStack { c.thread.stack with
        values := c.thread.stack.values.shrink F.stackBase }).backTo F fs := by
  cases hf : c.thread.frames with
  | nil =>
    simp only [leaveCall, bind_eq_error, ofExcept_eq_error, ofExcept_eq_ok, hf] at h
    rcases h with ⟨heq, rfl⟩ | ⟨_, _, ⟨heq, -⟩, -⟩
    · exact .inl ⟨rfl, (Except.error.inj heq).symm, rfl⟩
    · cases heq
  | cons F fs =>
    have hbase : (c.thread.stack.values.shrink F.stackBase).size ≤ F.stackBase := by
      rw [Array.size_shrink]
      exact Nat.min_le_left _ _
    simp only [leaveCall, bind_eq_error, ofExcept_eq_error, ofExcept_eq_ok, onStack_eq_ok,
      onStack_eq_error, modifyThread_eq_ok, modifyThread_eq_error, Stack.truncate_eq_ok,
      Stack.truncate_eq_error, Stack.push_eq_error, hf, false_and, exists_false, false_or] at h
    rcases h with ⟨heq, -⟩ |
      ⟨F', c₁, ⟨heq, rfl⟩, _, c₂, ⟨s, rfl, rfl⟩, _, c₃, rfl, s', ⟨hfull, rfl, rfl⟩, rfl⟩
    · cases heq
    · obtain rfl := Except.ok.inj heq
      exact .inr ⟨F, fs, rfl, hfull.trans hbase, rfl,
        by simp [Config.withStack, Config.backTo, hf]⟩

/-- What opening a call needs, and what it does. -/
theorem call_eq_ok {functions : RoutineTable} {function : Nat}
    (h : call functions function c = .ok u c') :
    ∃ callee, functions.at? function = some callee ∧
      c.thread.frames.length < c.thread.limits.depth ∧
      callee.variableCount ≤ c.thread.top ∧
      c.thread.rootExtent ≤ c.thread.top - callee.variableCount ∧
      callee.parameterCount ≤ c.thread.stack.size ∧
      c' = { c with thread := c.thread.enter function callee } := by
  simp only [call, bind_eq_ok, ofExcept_eq_ok, onStack_eq_ok, modifyThread_eq_ok,
    Stack.popMany_eq_ok] at h
  obtain ⟨callee, c₁, ⟨hcallee, rfl⟩, base, c₂, ⟨hbase, rfl⟩, args, c₃,
    ⟨s, ⟨hargs, rfl, rfl⟩, rfl⟩, rfl⟩ := h
  split at hcallee
  · next callee' hat =>
    obtain rfl := Except.ok.inj hcallee
    split at hbase
    · cases hbase
    · next hdepth =>
      have hbase : (if callee'.variableCount ≤ c₂.thread.top ∧
          c₂.thread.rootExtent ≤ c₂.thread.top - callee'.variableCount
          then Except.ok (c₂.thread.top - callee'.variableCount)
          else Except.error (Fault.variableOutOfRange callee'.variableCount)) = .ok base := hbase
      split at hbase
      · next hroom =>
        obtain rfl := Except.ok.inj hbase
        refine ⟨callee', hat, Nat.not_le.1 hdepth, hroom.1, hroom.2, hargs, ?_⟩
        have hsize : (c₂.thread.stack.values.shrink
            (c₂.thread.stack.size - callee'.parameterCount)).size =
            c₂.thread.stack.size - callee'.parameterCount := by
          rw [Array.size_shrink, Stack.size]
          omega
        simp only [Config.withStack, Thread.enter, Stack.size] at hsize ⊢
        rw [hsize]
      · cases hbase
  · cases hcallee

/-- Opening a call fails for want of a function, of room for one more call, of slots or of
arguments. -/
theorem call_eq_error {functions : RoutineTable} {function : Nat}
    (h : call functions function c = .error f c') :
    c' = c ∧ ((functions.at? function = none ∧ f = .unknownFunction function) ∨
      ∃ callee, functions.at? function = some callee ∧
        ((c.thread.limits.depth ≤ c.thread.frames.length ∧
            f = .callDepthExceeded c.thread.limits.depth) ∨
          f = .variableOutOfRange callee.variableCount ∨
          (c.thread.stack.size < callee.parameterCount ∧ f = .stackUnderflow))) := by
  simp only [call, bind_eq_error, ofExcept_eq_error, ofExcept_eq_ok, onStack_eq_error,
    modifyThread_eq_error, Stack.popMany_eq_error, and_false, exists_false, or_false] at h
  rcases h with ⟨hcallee, rfl⟩ | ⟨callee, c₁, ⟨hcallee, rfl⟩, ⟨hbase, rfl⟩ |
    ⟨base, c₂, ⟨-, rfl⟩, s, ⟨hargs, rfl, rfl⟩, rfl⟩⟩
  · split at hcallee
    · cases hcallee
    · next hat => exact ⟨rfl, .inl ⟨hat, (Except.error.inj hcallee).symm⟩⟩
  · split at hcallee
    · next callee' hat =>
      obtain rfl := Except.ok.inj hcallee
      refine ⟨rfl, .inr ⟨_, hat, ?_⟩⟩
      split at hbase
      · next hdepth => exact .inl ⟨hdepth, (Except.error.inj hbase).symm⟩
      · have hbase : (if callee'.variableCount ≤ c'.thread.top ∧
            c'.thread.rootExtent ≤ c'.thread.top - callee'.variableCount
            then Except.ok (c'.thread.top - callee'.variableCount)
            else Except.error (Fault.variableOutOfRange callee'.variableCount)) = .error f := hbase
        split at hbase
        · cases hbase
        · exact .inr (.inl (Except.error.inj hbase).symm)
    · cases hcallee
  · split at hcallee
    · next hat =>
      obtain rfl := Except.ok.inj hcallee
      exact ⟨rfl, .inr ⟨_, hat, .inr (.inr ⟨hargs, rfl⟩)⟩⟩
    · cases hcallee

theorem finish_eq_ok {looping : Bool} {flow : Flow} : finish looping c = .ok flow c' ↔
    flow = .stop .completed ∧ c' = { c with thread := { c.thread with
      ip := 0
      mode := if looping then c.thread.mode else .finished } } := by
  simp only [finish, bind_eq_ok, modifyThread_eq_ok, pure_eq_ok]
  constructor
  · rintro ⟨_, c₁, rfl, rfl, rfl⟩
    exact ⟨rfl, rfl⟩
  · rintro ⟨rfl, rfl⟩
    exact ⟨(), _, rfl, rfl, rfl⟩

theorem finish_eq_error {looping : Bool} : finish looping c = .error f c' ↔ False := by
  simp only [finish, bind_eq_error, modifyThread_eq_error, pure_eq_error, and_false, exists_false,
    or_false]

end Exec

/-! ## Returns -/

namespace Instr

variable {p : Program} {size : Nat} {c c' : Config} {flow : Flow} {f : Fault}

/-- A return takes its value, and ends the script or hands it to the caller. -/
theorem ret_eq_ok (h : ret.execute p size c = .ok flow c') :
    ∃ v, c.thread.stack.values.back? = some v ∧
      ((c.thread.frames = [] ∧ flow = .stop .completed ∧ c' = { c with thread := { c.thread with
          stack := { c.thread.stack with values := #[] }
          lastReturn := some v
          ip := 0
          mode := if p.looping then c.thread.mode else .finished } }) ∨
        flow = .next ∧ Exec.leaveCall v (c.withStack { c.thread.stack with
          values := c.thread.stack.values.pop }) = .ok () c') := by
  simp only [execute, Exec.bind_eq_ok, Exec.onStack_eq_ok, Stack.pop_eq_ok, Exec.get_eq_ok] at h
  obtain ⟨v, _, ⟨_, ⟨hv, rfl⟩, rfl⟩, _, _, ⟨rfl, rfl⟩, h⟩ := h
  refine ⟨v, hv, ?_⟩
  split at h
  · next hframes =>
    simp only [Exec.bind_eq_ok, Exec.onStack_eq_ok, Stack.clear_eq_ok, Exec.modifyThread_eq_ok,
      Exec.finish_eq_ok] at h
    obtain ⟨_, _, ⟨_, rfl, rfl⟩, _, _, rfl, rfl, rfl⟩ := h
    exact .inl ⟨List.isEmpty_iff.1 hframes, rfl, rfl⟩
  · obtain ⟨_, _, hleave, h⟩ := Exec.bind_eq_ok.1 h
    obtain ⟨rfl, rfl⟩ := Exec.pure_eq_ok.1 h
    exact .inr ⟨rfl, hleave⟩

/-- A return fails for want of its value, or as it closes a call. -/
theorem ret_eq_error (h : ret.execute p size c = .error f c') :
    (c.thread.stack.size = 0 ∧ f = .stackUnderflow ∧ c' = c) ∨
      ∃ v, c.thread.stack.values.back? = some v ∧ c.thread.frames ≠ [] ∧
        Exec.leaveCall v (c.withStack { c.thread.stack with
          values := c.thread.stack.values.pop }) = .error f c' := by
  simp only [execute, Exec.bind_eq_error, Exec.onStack_eq_error, Exec.onStack_eq_ok,
    Stack.pop_eq_error, Stack.pop_eq_ok, Exec.get_eq_error, Exec.get_eq_ok, false_or] at h
  rcases h with ⟨_, ⟨hsize, rfl, rfl⟩, rfl⟩ | ⟨v, _, ⟨_, ⟨hv, rfl⟩, rfl⟩, _, _, ⟨rfl, rfl⟩, h⟩
  · exact .inl ⟨hsize, rfl, Config.withStack_self rfl⟩
  · refine .inr ⟨v, hv, ?_⟩
    split at h
    · simp only [Exec.bind_eq_error, Exec.onStack_eq_error, Stack.clear_eq_error,
        Exec.modifyThread_eq_error, Exec.finish_eq_error, false_and, and_false, exists_false,
        or_false] at h
    · next hframes =>
      simp only [Exec.bind_eq_error, Exec.pure_eq_error, and_false, exists_false, or_false] at h
      exact ⟨fun hnil => hframes (List.isEmpty_iff.2 hnil), h⟩

end Instr

/-! ## Steps -/

namespace Program

variable {p : Program} {c c' : Config} {flow : Flow} {f : Fault}

/-- A step that succeeds executes an instruction, or takes place at the end of the code. -/
theorem step_eq_ok (h : p.step c = .ok flow c') :
    ∃ code, p.running c.thread = .ok code ∧
      ((c.thread.ip < code.size ∧ ∃ i next, Instr.decode code.words c.thread.ip = .ok (i, next) ∧
          i.execute p code.size (c.goTo next) = .ok flow c') ∨
        (code.size ≤ c.thread.ip ∧ p.fallOff c = .ok flow c')) := by
  simp only [step, Exec.bind_eq_ok, Exec.ofExcept_eq_ok, Exec.get_eq_ok] at h
  obtain ⟨code, c₁, ⟨hrun, rfl⟩, _, _, ⟨rfl, rfl⟩, h⟩ := h
  refine ⟨code, hrun, ?_⟩
  split at h
  · next hlt =>
    simp only [instruct, Exec.bind_eq_ok, Exec.ofExcept_eq_ok, Exec.goTo,
      Exec.modifyThread_eq_ok] at h
    obtain ⟨⟨i, next⟩, _, ⟨hdecode, rfl⟩, _, _, rfl, h⟩ := h
    exact .inl ⟨hlt, i, next, hdecode, h⟩
  · next hge => exact .inr ⟨Nat.not_lt.1 hge, h⟩

/-- At the end of the code the script ends, or zero is handed to the caller. -/
theorem fallOff_eq_ok (h : p.fallOff c = .ok flow c') :
    (c.thread.frames = [] ∧ flow = .stop .completed ∧ c' = { c with thread := { c.thread with
        ip := 0
        mode := if p.looping then c.thread.mode else .finished } }) ∨
      flow = .next ∧ Exec.leaveCall 0 c = .ok () c' := by
  simp only [fallOff, Exec.bind_eq_ok, Exec.get_eq_ok] at h
  obtain ⟨_, _, ⟨rfl, rfl⟩, h⟩ := h
  split at h
  · next hframes => exact .inl ⟨List.isEmpty_iff.1 hframes, Exec.finish_eq_ok.1 h⟩
  · obtain ⟨_, _, hleave, h⟩ := Exec.bind_eq_ok.1 h
    obtain ⟨rfl, rfl⟩ := Exec.pure_eq_ok.1 h
    exact .inr ⟨rfl, hleave⟩

/-- At the end of the code only closing a call may fail. -/
theorem fallOff_eq_error (h : p.fallOff c = .error f c') :
    c.thread.frames ≠ [] ∧ Exec.leaveCall 0 c = .error f c' := by
  simp only [fallOff, Exec.bind_eq_error, Exec.get_eq_error, Exec.get_eq_ok, false_or] at h
  obtain ⟨_, _, ⟨rfl, rfl⟩, h⟩ := h
  split at h
  · exact (Exec.finish_eq_error.1 h).elim
  · next hframes =>
    simp only [Exec.bind_eq_error, Exec.pure_eq_error, and_false, exists_false, or_false] at h
    exact ⟨fun hnil => hframes (List.isEmpty_iff.2 hnil), h⟩

/-- A step that faults finds no code, no instruction, or a fault in executing it, or takes place at
the end of the code. -/
theorem step_eq_error (h : p.step c = .error f c') :
    (p.running c.thread = .error f ∧ c' = c) ∨
    ∃ code, p.running c.thread = .ok code ∧
      ((c.thread.ip < code.size ∧
          ((Instr.decode code.words c.thread.ip = .error f ∧ c' = c) ∨
            ∃ i next, Instr.decode code.words c.thread.ip = .ok (i, next) ∧
              i.execute p code.size (c.goTo next) = .error f c')) ∨
        (code.size ≤ c.thread.ip ∧ p.fallOff c = .error f c')) := by
  simp only [step, Exec.bind_eq_error, Exec.ofExcept_eq_ok, Exec.ofExcept_eq_error,
    Exec.get_eq_ok, Exec.get_eq_error, false_or] at h
  rcases h with ⟨hrun, rfl⟩ | ⟨code, c₁, ⟨hrun, rfl⟩, _, _, ⟨rfl, rfl⟩, h⟩
  · exact .inl ⟨hrun, rfl⟩
  · refine .inr ⟨code, hrun, ?_⟩
    split at h
    · next hlt =>
      simp only [instruct, Exec.bind_eq_error, Exec.ofExcept_eq_ok, Exec.ofExcept_eq_error,
        Exec.goTo, Exec.modifyThread_eq_ok, Exec.modifyThread_eq_error, false_or] at h
      rcases h with ⟨hdecode, rfl⟩ | ⟨⟨i, next⟩, _, ⟨hdecode, rfl⟩, _, _, rfl, h⟩
      · exact .inl ⟨hlt, .inl ⟨hdecode, rfl⟩⟩
      · exact .inl ⟨hlt, .inr ⟨i, next, hdecode, h⟩⟩
    · next hge => exact .inr ⟨Nat.not_lt.1 hge, h⟩

end Program

end Danmaku
