import Danmaku.Proofs.Machine.Control

/-!
# Why instructions fail

For each fault that an instruction can raise, what was the matter (`Instr.execute_fails`): too few
operands, no room for one more, or an operand of the instruction that refers to nothing. A delegate
that is called may fail for any reason.
-/

namespace Danmaku

namespace TypeTable

variable {t : TypeTable} {e : Entity} {property : Nat} {value : Word} {f : Fault}

/-- Why a property cannot be reached. -/
def Denies (t : TypeTable) (property : Nat) (f : Fault) : Prop :=
  f = .unregisteredEntity ∨ (∃ typeName name, f = .propertyNotOnType typeName name) ∨
    t.propertyNames.length ≤ property ∧ f = .unknownProperty property

theorem denies_of_resolve (h : t.resolve e property = .error f) : t.Denies property f := by
  unfold resolve at h
  split at h
  · next hnone => exact .inr (.inr ⟨List.getElem?_eq_none_iff.1 hnone, (Except.error.inj h).symm⟩)
  · split at h
    · exact .inl (Except.error.inj h).symm
    · split at h
      · exact .inr (.inl ⟨_, _, (Except.error.inj h).symm⟩)
      · cases h

theorem denies_of_read (h : t.read e property = .error f) : t.Denies property f := by
  unfold read at h
  split at h
  · next hresolve => exact Except.error.inj h ▸ denies_of_resolve hresolve
  · split at h
    · cases h
    · exact .inl (Except.error.inj h).symm

theorem denies_of_write (h : t.write e property value = .error f) : t.Denies property f := by
  unfold write at h
  split at h
  · next hresolve => exact Except.error.inj h ▸ denies_of_resolve hresolve
  · split at h
    · cases h
    · exact .inl (Except.error.inj h).symm

end TypeTable

namespace Thread

variable {t : Thread} {index : Nat} {f : Fault}

theorem slot_eq_error (h : t.slot index = .error f) :
    t.window.2 ≤ index ∧ f = .variableOutOfRange index := by
  simp only [slot] at h
  split at h
  · cases h
  · exact ⟨by omega, (Except.error.inj h).symm⟩

theorem getVariable_eq_error (h : t.getVariable index = .error f) :
    t.window.2 ≤ index ∧ f = .variableOutOfRange index := by
  rw [getVariable] at h
  cases hslot : t.slot index with
  | ok slot => rw [hslot] at h; cases h
  | error f' =>
    rw [hslot] at h
    exact Except.error.inj h ▸ slot_eq_error hslot

end Thread

namespace Instr

/-- Why an instruction of code of some size can fail, the thread being at the address after it. -/
inductive Fails (p : Program) (size : Nat) (t : Thread) : Instr → Fault → Prop
  /-- There are too few operands. -/
  | few {i : Instr} (few : t.stack.size < i.takes p.catalog) : Fails p size t i .stackUnderflow
  /-- There is no room for a value. -/
  | full {i : Instr} (own : ∀ d, i ≠ .callDelegate d) (gives : i.gives = 1)
      (full : t.stack.capacity ≤ t.stack.size - i.takes p.catalog) :
      Fails p size t i (.stackOverflow t.stack.capacity)
  /-- There is no room for the value of a call. -/
  | returns {f : Frame} {frames : List Frame} (frames_eq : t.frames = f :: frames)
      (full : t.stack.capacity ≤ f.stackBase) :
      Fails p size t .ret (.stackOverflow t.stack.capacity)
  /-- A number is divided by zero. -/
  | division : Fails p size t (.binary .div) .divisionByZero
  /-- A target is outside the code. -/
  | jump {i : Instr} {target : Nat} {x : Int} (eq : i = .jump target ∨ i = .branchIfZero target)
      (far : size < target) : Fails p size t i (.jumpOutOfRange x size)
  /-- A distance leads outside the code. -/
  | jumpBy {i : Instr} {offset x : Int} (eq : i = .jumpBy offset ∨ i = .branchIfZeroBy offset)
      (far : ¬ (0 ≤ t.ip + offset ∧ t.ip + offset ≤ size)) :
      Fails p size t i (.jumpOutOfRange x size)
  /-- There is no such variable. -/
  | variable {i : Instr} {slot : Nat} (eq : i = .getVariable slot ∨ i = .setVariable slot)
      (far : t.window.2 ≤ slot) : Fails p size t i (.variableOutOfRange slot)
  /-- The property is not to be had. -/
  | property {i : Instr} {property : Nat} {f : Fault}
      (eq : i = .getProperty property ∨ i = .setProperty property)
      (denied : p.catalog.types.Denies property f) : Fails p size t i f
  /-- There is no such function. -/
  | function {function : Nat} (none : p.catalog.functions.at? function = none) :
      Fails p size t (.call function) (.unknownFunction function)
  /-- Too many calls are open. -/
  | depth {function : Nat} : Fails p size t (.call function) (.callDepthExceeded t.limits.depth)
  /-- There are too few slots for the callee. -/
  | slots {function : Nat} {callee : Routine}
      (callee_eq : p.catalog.functions.at? function = some callee) :
      Fails p size t (.call function) (.variableOutOfRange callee.variableCount)
  /-- There is no such firing function. -/
  | firing {i : Instr} {firing : Nat}
      (eq : i = .fire firing ∨ ∃ updater, i = .fireWith firing updater)
      (none : p.catalog.firing.at? firing = none) : Fails p size t i (.unknownFiring firing)
  /-- There is no such updater. -/
  | updater {firing updater : Nat} (none : p.catalog.bulletUpdaters.at? updater = none) :
      Fails p size t (.fireWith firing updater) (.unknownUpdater updater)
  /-- There is no such delegate. -/
  | unknown {delegate : Nat} (none : p.catalog.delegates.at? delegate = none) :
      Fails p size t (.callDelegate delegate) (.unknownDelegate delegate)
  /-- The delegate fails. -/
  | delegate {delegate : Nat} {entry : DelegateEntry} {f : Fault} {s : Stack}
      (entry_eq : p.catalog.delegates.at? delegate = some entry)
      (run : entry.delegate.run t.stack = .error f s) : Fails p size t (.callDelegate delegate) f

variable {p : Program} {size : Nat} {i : Instr} {c c' : Config} {f : Fault}

/-- **Why an instruction fails.** -/
theorem execute_fails (h : i.execute p size c = .error f c') : i.Fails p size c.thread f := by
  cases i with
  | push v =>
    simp only [execute, Exec.bind_eq_error, Exec.onStack_eq_error, Stack.push_eq_error,
      Exec.pure_eq_error, and_false, exists_false, or_false] at h
    obtain ⟨_, ⟨hfull, rfl, rfl⟩, rfl⟩ := h
    exact .full (by simp) rfl hfull
  | pop =>
    simp only [execute, Exec.bind_eq_error, Exec.onStack_eq_error, Stack.pop_eq_error,
      Exec.pure_eq_error, and_false, exists_false, or_false] at h
    obtain ⟨_, ⟨hsize, rfl, rfl⟩, rfl⟩ := h
    exact .few (by simp only [takes]; omega)
  | negate | not =>
    simp only [execute, Exec.bind_eq_error, Exec.onStack_eq_error, Exec.onStack_eq_ok,
      Stack.peek_eq_error, Stack.peek_eq_ok, Stack.replaceTop_eq_error, Exec.pure_eq_error,
      and_false, exists_false, or_false] at h
    rcases h with ⟨_, ⟨hsize, rfl, rfl⟩, rfl⟩
      | ⟨v, _, ⟨_, ⟨-, rfl⟩, rfl⟩, _, ⟨hsize, rfl, rfl⟩, rfl⟩
    · exact .few (by simp only [takes]; omega)
    · exact .few (by simp only [takes, Config.withStack] at hsize ⊢; omega)
  | binary op =>
    simp only [execute, Exec.bind_eq_error, Exec.onStack_eq_error, Exec.onStack_eq_ok,
      Stack.pop_eq_error, Stack.pop_eq_ok, Stack.push_eq_error, Exec.ofExcept_eq_error,
      Exec.ofExcept_eq_ok, Exec.pure_eq_error, and_false, exists_false, or_false] at h
    rcases h with ⟨_, ⟨hsize, rfl, rfl⟩, rfl⟩ | ⟨v, _, ⟨_, ⟨hv, rfl⟩, rfl⟩,
      ⟨_, ⟨hsize, rfl, rfl⟩, rfl⟩ | ⟨w, _, ⟨_, ⟨hw, rfl⟩, rfl⟩, ⟨hop, rfl⟩ |
        ⟨x, _, ⟨hop, rfl⟩, _, ⟨hfull, rfl, rfl⟩, rfl⟩⟩⟩
    · exact .few (by simp only [takes]; omega)
    · simp only [Config.withStack, Stack.size, Array.size_pop] at hsize
      exact .few (by simp only [takes, Stack.size]; omega)
    · obtain ⟨rfl, -, rfl⟩ := BinaryOp.apply_eq_error.1 hop
      exact .division
    · simp only [Config.withStack, Stack.size, Array.size_pop] at hfull
      exact .full (by simp) rfl (by simp only [takes, Stack.size]; omega)
  | jump target =>
    simp only [execute, Exec.bind_eq_error, Exec.jump_eq_error, Exec.pure_eq_error, and_false,
      exists_false, or_false] at h
    obtain ⟨hfar, rfl, rfl⟩ := h
    exact .jump (.inl rfl) hfar
  | branchIfZero target =>
    obtain ⟨hsize, rfl⟩ | hjump := Exec.branch_eq_error h
    · exact .few (by simp only [takes]; omega)
    · obtain ⟨hfar, rfl, -⟩ := Exec.jump_eq_error.1 hjump
      exact .jump (.inr rfl) hfar
  | jumpBy offset =>
    simp only [execute, Exec.bind_eq_error, Exec.jumpBy_eq_error, Exec.pure_eq_error, and_false,
      exists_false, or_false] at h
    obtain ⟨hfar, rfl, rfl⟩ := h
    exact .jumpBy (.inl rfl) hfar
  | branchIfZeroBy offset =>
    obtain ⟨hsize, rfl⟩ | hjump := Exec.branch_eq_error h
    · exact .few (by simp only [takes]; omega)
    · obtain ⟨hfar, rfl, -⟩ := Exec.jumpBy_eq_error.1 hjump
      exact .jumpBy (.inr rfl) hfar
  | getVariable slot =>
    simp only [execute, Exec.bind_eq_error, Exec.ofExcept_eq_error, Exec.ofExcept_eq_ok,
      Exec.onStack_eq_error, Stack.push_eq_error, Exec.pure_eq_error, and_false, exists_false,
      or_false] at h
    rcases h with ⟨hget, rfl⟩ | ⟨v, _, ⟨-, rfl⟩, _, ⟨hfull, rfl, rfl⟩, rfl⟩
    · obtain ⟨hfar, rfl⟩ := Thread.getVariable_eq_error hget
      exact .variable (.inl rfl) hfar
    · exact .full (by simp) rfl hfull
  | setVariable slot =>
    simp only [execute, Exec.bind_eq_error, Exec.pure_eq_error, and_false, exists_false,
      or_false] at h
    obtain ⟨-, ⟨hsize, rfl⟩ | hslot⟩ := Exec.setVariable_eq_error h
    · exact .few (by simp only [takes]; omega)
    · obtain ⟨hfar, rfl⟩ := Thread.slot_eq_error hslot
      exact .variable (.inr rfl) hfar
  | getProperty property =>
    simp only [execute, Exec.bind_eq_error, Exec.ofExcept_eq_error, Exec.ofExcept_eq_ok,
      Exec.onStack_eq_error, Stack.push_eq_error, Exec.pure_eq_error, and_false, exists_false,
      or_false] at h
    rcases h with ⟨hread, rfl⟩ | ⟨v, _, ⟨-, rfl⟩, _, ⟨hfull, rfl, rfl⟩, rfl⟩
    · exact .property (.inl rfl) (TypeTable.denies_of_read hread)
    · exact .full (by simp) rfl hfull
  | setProperty property =>
    simp only [execute, Exec.bind_eq_error, Exec.setProperty_eq_error, Exec.pure_eq_error,
      and_false, exists_false, or_false] at h
    obtain ⟨rfl, ⟨hsize, rfl⟩ | ⟨v, -, hwrite⟩⟩ := h
    · exact .few (by simp only [takes]; omega)
    · exact .property (.inr rfl) (TypeTable.denies_of_write hwrite)
  | call function =>
    simp only [execute, Exec.bind_eq_error, Exec.pure_eq_error, and_false, exists_false,
      or_false] at h
    obtain ⟨rfl, ⟨hnone, rfl⟩ | ⟨callee, hcallee, ⟨-, rfl⟩ | rfl | ⟨hfew, rfl⟩⟩⟩ :=
      Exec.call_eq_error h
    · exact .function hnone
    · exact .depth
    · exact .slots hcallee
    · refine .few ?_
      rw [takes, show p.catalog.function? function = some callee from hcallee]
      exact hfew
  | callDelegate delegate =>
    simp only [execute, Exec.bind_eq_error, Exec.ofExcept_eq_error, Exec.ofExcept_eq_ok,
      Exec.onStack_eq_error, Exec.pure_eq_error, and_false, exists_false, or_false] at h
    rcases h with ⟨hnone, rfl⟩ | ⟨entry, _, ⟨hentry, rfl⟩, s, hrun, rfl⟩
    · split at hnone
      · cases hnone
      · next hat => exact Except.error.inj hnone ▸ .unknown hat
    · split at hentry
      · next hat =>
        obtain rfl := Except.ok.inj hentry
        exact .delegate hat hrun
      · cases hentry
  | fire firing =>
    simp only [execute, Exec.bind_eq_error, Exec.firing_eq_error, Exec.firing_eq_ok,
      Exec.onStack_eq_error, Stack.popMany_eq_error, Exec.shoot_eq_error, Exec.pure_eq_error,
      and_false, exists_false, or_false] at h
    rcases h with ⟨hnone, rfl, rfl⟩ | ⟨function, _, ⟨hf, rfl⟩, _, ⟨hfew, rfl, rfl⟩, rfl⟩
    · exact .firing (.inl rfl) hnone
    · exact .few (by simpa [takes, hf] using hfew)
  | fireWith firing updater =>
    simp only [execute, Exec.bind_eq_error, Exec.firing_eq_error, Exec.firing_eq_ok,
      Exec.ofExcept_eq_error, Exec.ofExcept_eq_ok, Exec.onStack_eq_error, Exec.onStack_eq_ok,
      Stack.popMany_eq_error, Stack.popMany_eq_ok, Exec.shoot_eq_error, Exec.pure_eq_error,
      and_false, exists_false, or_false] at h
    rcases h with ⟨hnone, rfl, rfl⟩ | ⟨function, _, ⟨hf, rfl⟩, ⟨hu, rfl⟩ | ⟨routine, _, ⟨hu, rfl⟩,
      ⟨_, ⟨hfew, rfl, rfl⟩, rfl⟩ | ⟨_, _, ⟨_, ⟨hle, rfl, rfl⟩, rfl⟩, _, ⟨hfew, rfl, rfl⟩, rfl⟩⟩⟩
    · exact .firing (.inr ⟨updater, rfl⟩) hnone
    · split at hu
      · cases hu
      · next hat => exact Except.error.inj hu ▸ .updater hat
    all_goals
      split at hu
      · next hat =>
        obtain rfl := Except.ok.inj hu
        simp only [Config.withStack, Stack.size, Array.size_shrink] at hfew
        refine .few ?_
        simp only [takes, hf, hat, Option.map_some, Option.getD_some, Stack.size]
        omega
      · cases hu
  | wait =>
    simp only [execute, Exec.bind_eq_error, Exec.onStack_eq_error, Stack.pop_eq_error,
      Exec.modifyThread_eq_error, Exec.pure_eq_error, and_false, exists_false, or_false] at h
    obtain ⟨_, ⟨hsize, rfl, rfl⟩, rfl⟩ := h
    exact .few (by simp only [takes]; omega)
  | ret =>
    obtain ⟨hsize, rfl, rfl⟩ | ⟨v, -, hopen, hleave⟩ := ret_eq_error h
    · exact .few (by simp only [takes]; omega)
    · rcases Exec.leaveCall_eq_error hleave with ⟨hnil, -⟩ | ⟨F, fs, hframes, hfull, rfl, -⟩
      · exact absurd hnil hopen
      · exact .returns hframes hfull

end Instr

end Danmaku
