import Danmaku.Machine.Step
import Danmaku.Proofs.Code.Placed

/-!
# What instructions do

Equations for the operations of the operand stack, whose values are listed here from the bottom up,
and for a step of the machine at an instruction. From here on no operation is opened any more.
-/

namespace Danmaku

namespace Stack

variable {capacity : Nat} {ops args : List Word} {v : Word}

theorem push_toArray (h : ops.length < capacity) (v : Word) :
    push v ⟨capacity, ops.toArray⟩ = .ok () ⟨capacity, (ops ++ [v]).toArray⟩ := by
  simp [push, Nat.not_le.2 h]

theorem push_full (h : capacity ≤ ops.length) (v : Word) :
    push v ⟨capacity, ops.toArray⟩ = .error (.stackOverflow capacity) ⟨capacity, ops.toArray⟩ := by
  simp [push, h]

theorem pop_concat : pop ⟨capacity, (ops ++ [v]).toArray⟩ = .ok v ⟨capacity, ops.toArray⟩ := by
  simp [pop]

theorem peek_concat :
    peek ⟨capacity, (ops ++ [v]).toArray⟩ = .ok v ⟨capacity, (ops ++ [v]).toArray⟩ := by
  simp [peek]

theorem replaceTop_concat (w : Word) : replaceTop w ⟨capacity, (ops ++ [v]).toArray⟩ =
    .ok () ⟨capacity, (ops ++ [w]).toArray⟩ := by
  simp [replaceTop]

theorem popMany_append {n : Nat} (h : args.length = n) :
    popMany n ⟨capacity, (ops ++ args).toArray⟩ = .ok args ⟨capacity, ops.toArray⟩ := by
  subst h
  simp [popMany]

theorem truncate_length {n : Nat} (h : ops.length = n) :
    truncate n ⟨capacity, ops.toArray⟩ = .ok () ⟨capacity, ops.toArray⟩ := by
  subst h
  simp [truncate]

end Stack

namespace Config

/-- The configuration with another operand stack. -/
def withStack (c : Config) (stack : Stack) : Config :=
  { c with thread := { c.thread with stack } }

/-- The configuration at another address. -/
def goTo (c : Config) (address : Nat) : Config :=
  { c with thread := { c.thread with ip := address } }

@[simp] theorem withStack_stack (c : Config) (s : Stack) : (c.withStack s).thread.stack = s := rfl

@[simp] theorem withStack_withStack (c : Config) (s s' : Stack) :
    (c.withStack s).withStack s' = c.withStack s' := rfl

/-- The configuration after a call, once what the call left on the stack is gone. -/
def backTo (c : Config) (f : Frame) (frames : List Frame) : Config :=
  { c with thread := { c.thread with frames, ip := f.returnTo } }

theorem withStack_self {c : Config} {s : Stack} (h : c.thread.stack = s) : c.withStack s = c := by
  subst h; rfl

end Config

namespace Exec

variable {α : Type} {action : StackM α} {c : Config} {s s' : Stack}

theorem get_apply (c : Config) : (get : Exec Config) c = .ok c c := rfl

theorem throw_apply (f : Fault) (c : Config) : (throw f : Exec α) c = .error f c := rfl

theorem onStack_ok {a : α} (hs : c.thread.stack = s) (h : action s = .ok a s') :
    onStack action c = .ok a (c.withStack s') := by
  simp [onStack, hs, h, Config.withStack]

theorem onStack_error {fault : Fault} (hs : c.thread.stack = s) (h : action s = .error fault s') :
    onStack action c = .error fault (c.withStack s') := by
  simp [onStack, hs, h, Config.withStack]

/-- Closing a call cuts the stack back to what the caller left on it. -/
theorem leaveCall_frame {f : Frame} {fs : List Frame} {cap : Nat} {ops : List Word} {v : Word}
    (hs : c.thread.stack = ⟨cap, ops.toArray⟩) (hf : c.thread.frames = f :: fs)
    (hbase : ops.length = f.stackBase) :
    leaveCall v c = onStack (Stack.push v) ((c.withStack ⟨cap, ops.toArray⟩).backTo f fs) := by
  simp only [leaveCall, bind, EStateM.bind, ofExcept, hf,
    onStack_ok hs (Stack.truncate_length hbase), modifyThread, Config.withStack,
    List.tail_cons, Config.backTo]

end Exec

namespace Thread

/-- Where the slots of the next call end. -/
def top (t : Thread) : Nat :=
  match t.frames with
  | [] => t.slots.size
  | f :: _ => f.base

variable {slots : Array Word} {values : List Word} {base i : Nat}

@[simp] theorem size_fill (slots : Array Word) (base : Nat) (values : List Word) :
    (fill slots base values).size = slots.size := by
  induction values generalizing slots base with
  | nil => rfl
  | cons v values ih => rw [fill, ih, Array.size_setIfInBounds]

/-- Filling leaves the other slots as they are. -/
theorem fill_outside (h : i < base ∨ base + values.length ≤ i) :
    (fill slots base values)[i]? = slots[i]? := by
  induction values generalizing slots base with
  | nil => rfl
  | cons v values ih =>
    rw [List.length_cons] at h
    rw [fill, ih (by omega), Array.getElem?_setIfInBounds_ne (by omega)]

theorem fill_inside (hi : i < values.length) (hsize : base + values.length ≤ slots.size) :
    (fill slots base values)[base + i]? = values[i]? := by
  induction values generalizing slots base i with
  | nil => cases hi
  | cons v values ih =>
    rw [List.length_cons] at hi hsize
    rw [fill]
    cases i with
    | zero =>
      rw [fill_outside (.inl (by omega)), Nat.add_zero,
        Array.getElem?_setIfInBounds_self_of_lt (by omega), List.getElem?_cons_zero]
    | succ i =>
      rw [show base + (i + 1) = base + 1 + i by omega, ih (by omega)
        (by rw [Array.size_setIfInBounds]; omega), List.getElem?_cons_succ]

end Thread

namespace Program

/-- **A step at an instruction** executes it from the address after it. -/
theorem step_standsAt {p : Program} {c : Config} {code : Code} {i : Instr}
    (hrun : p.running c.thread = .ok code) (hi : i.StandsAt code.words c.thread.ip) :
    p.step c = i.execute p code.size (c.goTo (c.thread.ip + i.size)) := by
  have hlt : c.thread.ip < code.size := hi.lt_size
  rw [Instr.StandsAt] at hi
  simp only [step, bind, EStateM.bind, Exec.ofExcept, hrun, Exec.get_apply, if_pos hlt,
    instruct, hi, Exec.goTo, Exec.modifyThread, Config.goTo]

end Program

namespace Instr

variable {p : Program} {size cap : Nat} {c : Config} {ops : List Word} {v w : Word}

theorem execute_push (hs : c.thread.stack = ⟨cap, ops.toArray⟩) (hroom : ops.length < cap) :
    (push v).execute p size c = .ok .next (c.withStack ⟨cap, (ops ++ [v]).toArray⟩) := by
  simp only [execute, bind, EStateM.bind, Exec.onStack_ok hs (Stack.push_toArray hroom v), pure,
    EStateM.pure]

theorem execute_push_full (hs : c.thread.stack = ⟨cap, ops.toArray⟩) (hfull : cap ≤ ops.length) :
    (push v).execute p size c = .error (.stackOverflow cap) c := by
  simp only [execute, bind, EStateM.bind, Exec.onStack_error hs (Stack.push_full hfull v),
    Config.withStack_self hs]

theorem execute_pop (hs : c.thread.stack = ⟨cap, (ops ++ [v]).toArray⟩) :
    pop.execute p size c = .ok .next (c.withStack ⟨cap, ops.toArray⟩) := by
  simp only [execute, bind, EStateM.bind, Exec.onStack_ok hs Stack.pop_concat, pure, EStateM.pure]

theorem execute_negate (hs : c.thread.stack = ⟨cap, (ops ++ [v]).toArray⟩) :
    negate.execute p size c =
      .ok .next (c.withStack ⟨cap, (ops ++ [UnaryOp.neg.apply v]).toArray⟩) := by
  simp only [execute, bind, EStateM.bind, Exec.onStack_ok hs Stack.peek_concat,
    Config.withStack_self hs, Exec.onStack_ok hs (Stack.replaceTop_concat _), pure, EStateM.pure]

theorem execute_not (hs : c.thread.stack = ⟨cap, (ops ++ [v]).toArray⟩) :
    not.execute p size c =
      .ok .next (c.withStack ⟨cap, (ops ++ [UnaryOp.not.apply v]).toArray⟩) := by
  simp only [execute, bind, EStateM.bind, Exec.onStack_ok hs Stack.peek_concat,
    Config.withStack_self hs, Exec.onStack_ok hs (Stack.replaceTop_concat _), pure, EStateM.pure]

/-- An operator takes two values; what it yields is put in their place, if it yields anything. -/
theorem execute_binary {op : BinaryOp} (hs : c.thread.stack = ⟨cap, (ops ++ [v] ++ [w]).toArray⟩) :
    (binary op).execute p size c =
      match op.apply v w with
      | .ok x => (push x).execute p size (c.withStack ⟨cap, ops.toArray⟩)
      | .error fault => .error fault (c.withStack ⟨cap, ops.toArray⟩) := by
  have h := Exec.onStack_ok (c := c.withStack ⟨cap, (ops ++ [v]).toArray⟩) rfl Stack.pop_concat
  simp only [execute, bind, EStateM.bind, Exec.onStack_ok hs Stack.pop_concat, h, Exec.ofExcept]
  cases op.apply v w <;> rfl

theorem execute_jump {target : Nat} (h : target ≤ size) :
    (jump target).execute p size c = .ok .next (c.goTo target) := by
  simp only [execute, Exec.jump, if_pos h, bind, EStateM.bind]
  rfl

theorem execute_branchIfZero {target : Nat} (hs : c.thread.stack = ⟨cap, (ops ++ [v]).toArray⟩)
    (h : target ≤ size) :
    (branchIfZero target).execute p size c =
      .ok .next (if v == 0 then (c.withStack ⟨cap, ops.toArray⟩).goTo target
        else c.withStack ⟨cap, ops.toArray⟩) := by
  simp only [execute, Exec.popIsZero, bind, EStateM.bind, Exec.onStack_ok hs Stack.pop_concat, pure,
    EStateM.pure, Exec.jump, if_pos h]
  cases v == 0 <;> rfl

theorem execute_jumpBy {offset : Int} {target : Nat} (ht : c.thread.ip + offset = (target : Int))
    (h : target ≤ size) : (jumpBy offset).execute p size c = .ok .next (c.goTo target) := by
  have hrange : (0 : Int) ≤ target ∧ (target : Int) ≤ size := by omega
  simp only [execute, Exec.jumpBy, bind, EStateM.bind, ht, if_pos hrange, Int.toNat_natCast]
  rfl

theorem execute_branchIfZeroBy {offset : Int} {target : Nat}
    (hs : c.thread.stack = ⟨cap, (ops ++ [v]).toArray⟩)
    (ht : c.thread.ip + offset = (target : Int)) (h : target ≤ size) :
    (branchIfZeroBy offset).execute p size c =
      .ok .next (if v == 0 then (c.withStack ⟨cap, ops.toArray⟩).goTo target
        else c.withStack ⟨cap, ops.toArray⟩) := by
  have hjump := execute_jumpBy (p := p) (c := c.withStack ⟨cap, ops.toArray⟩) ht h
  simp only [execute, bind, EStateM.bind] at hjump
  simp only [execute, Exec.popIsZero, bind, EStateM.bind, Exec.onStack_ok hs Stack.pop_concat, pure,
    EStateM.pure]
  cases v == 0
  · rfl
  · exact hjump

/-- A variable that can be read is put on the stack. -/
theorem execute_getVariable {slot : Nat} (h : c.thread.getVariable slot = .ok v) :
    (getVariable slot).execute p size c = (push v).execute p size c := by
  simp only [execute, bind, EStateM.bind, Exec.ofExcept, h]

theorem execute_setVariable {index slot : Nat}
    (hs : c.thread.stack = ⟨cap, (ops ++ [v]).toArray⟩) (h : c.thread.slot index = .ok slot) :
    (setVariable index).execute p size c =
      .ok .next { c with thread := c.thread.store index slot v } := by
  simp only [execute, Exec.setVariable, bind, EStateM.bind, Exec.onStack_ok hs Stack.peek_concat,
    Config.withStack_self hs, Exec.ofExcept, h, Exec.modifyThread, pure, EStateM.pure]

/-- A property that can be read is put on the stack. -/
theorem execute_getProperty {property : Nat} :
    (getProperty property).execute p size c =
      match p.catalog.types.read c.entity property with
      | .ok x => (push x).execute p size c
      | .error fault => .error fault c := by
  simp only [execute, bind, EStateM.bind, Exec.ofExcept]
  cases p.catalog.types.read c.entity property <;> rfl

theorem execute_setProperty {property : Nat} (hs : c.thread.stack = ⟨cap, (ops ++ [v]).toArray⟩) :
    (setProperty property).execute p size c =
      match p.catalog.types.write c.entity property v with
      | .ok entity => .ok .next { c with entity }
      | .error fault => .error fault c := by
  simp only [execute, Exec.setProperty, bind, EStateM.bind, Exec.onStack_ok hs Stack.peek_concat,
    Config.withStack_self hs]
  cases p.catalog.types.write c.entity property v <;> rfl

theorem execute_fire {index : Nat} {function : FiringFunction} {args : List Word}
    (hs : c.thread.stack = ⟨cap, (ops ++ args).toArray⟩)
    (hf : p.catalog.firing.at? index = some function) (ha : args.length = function.arity) :
    (fire index).execute p size c =
      .ok .next { c.withStack ⟨cap, ops.toArray⟩ with
        shots := c.shots.push ⟨function, args, none⟩ } := by
  simp only [execute, Exec.firing, bind, EStateM.bind, Exec.ofExcept, hf,
    Exec.onStack_ok hs (Stack.popMany_append ha), Exec.shoot, pure, EStateM.pure]
  rfl

theorem execute_fireWith {index updater : Nat} {function : FiringFunction} {routine : Routine}
    {args rest : List Word} (hs : c.thread.stack = ⟨cap, (ops ++ args ++ rest).toArray⟩)
    (hf : p.catalog.firing.at? index = some function) (ha : args.length = function.arity)
    (hu : p.catalog.bulletUpdater? updater = some routine)
    (hr : rest.length = routine.parameterCount) :
    (fireWith index updater).execute p size c =
      .ok .next { c.withStack ⟨cap, ops.toArray⟩ with
        shots := c.shots.push ⟨function, args, some ⟨updater, rest⟩⟩ } := by
  have h := Exec.onStack_ok (c := c.withStack ⟨cap, (ops ++ args).toArray⟩) rfl
    (Stack.popMany_append ha)
  simp only [execute, Exec.firing, bind, EStateM.bind, Exec.ofExcept, hf, hu,
    Exec.onStack_ok hs (Stack.popMany_append hr), h, Exec.shoot, pure, EStateM.pure]
  rfl

theorem execute_wait (hs : c.thread.stack = ⟨cap, (ops ++ [v]).toArray⟩) :
    wait.execute p size c =
      .ok (.stop .suspended) { c with thread := { c.thread with
        stack := ⟨cap, ops.toArray⟩
        mode := .waiting v.toTicks } } := by
  simp only [execute, bind, EStateM.bind, Exec.onStack_ok hs Stack.pop_concat, Exec.modifyThread,
    pure, EStateM.pure]
  rfl

/-- A value returned by the root ends the script. -/
theorem execute_ret_root (hs : c.thread.stack = ⟨cap, (ops ++ [v]).toArray⟩)
    (hf : c.thread.frames = []) :
    ret.execute p size c =
      .ok (.stop .completed) { c with thread := { c.thread with
        stack := ⟨cap, #[]⟩
        lastReturn := some v
        ip := 0
        mode := if p.looping then c.thread.mode else .finished } } := by
  simp only [execute, bind, EStateM.bind, Exec.onStack_ok hs Stack.pop_concat, Exec.get_apply,
    Config.withStack, hf, List.isEmpty_nil, if_true]
  rfl

/-- A value returned by a call is put where its arguments were. -/
theorem execute_ret_frame {f : Frame} {fs : List Frame}
    (hs : c.thread.stack = ⟨cap, (ops ++ [v]).toArray⟩) (hf : c.thread.frames = f :: fs)
    (hbase : ops.length = f.stackBase) :
    ret.execute p size c =
      (push v).execute p size ((c.withStack ⟨cap, ops.toArray⟩).backTo f fs) := by
  have hf' : (c.withStack ⟨cap, ops.toArray⟩).thread.frames = f :: fs := hf
  have hleave := Exec.leaveCall_frame (v := v) (c := c.withStack ⟨cap, ops.toArray⟩) rfl hf' hbase
  simp only [execute, bind, EStateM.bind, Exec.onStack_ok hs Stack.pop_concat, Exec.get_apply, hf',
    List.isEmpty_cons, Bool.false_eq_true, if_false, hleave, Config.withStack_withStack]

/-! ## Calls -/

/-- A call takes its arguments off the stack and has the slots below those of its caller. -/
theorem execute_call {function top : Nat} {callee : Routine} {args : List Word}
    (hs : c.thread.stack = ⟨cap, (ops ++ args).toArray⟩)
    (hf : p.catalog.functions.at? function = some callee) (ha : args.length = callee.parameterCount)
    (hdepth : c.thread.frames.length < c.thread.limits.depth) (htop : c.thread.top = top)
    (hroom : callee.variableCount ≤ top)
    (hfloor : c.thread.rootExtent ≤ top - callee.variableCount) :
    (call function).execute p size c =
      .ok .next { c with thread := { c.thread with
        stack := ⟨cap, ops.toArray⟩
        slots := Thread.fill c.thread.slots (top - callee.variableCount)
          (args ++ List.replicate (callee.variableCount - args.length) 0)
        frames := ⟨function, c.thread.ip, top - callee.variableCount, callee.variableCount,
          ops.length⟩ :: c.thread.frames
        ip := 0 } } := by
  have hpop := Exec.onStack_ok hs (Stack.popMany_append ha)
  cases hfr : c.thread.frames with
  | nil | cons f fs =>
    simp only [Thread.top, hfr] at htop hdepth
    subst htop
    simp only [execute, Exec.call, bind, EStateM.bind, Exec.ofExcept, hf, hfr,
      if_neg (Nat.not_le.2 hdepth), if_pos (And.intro hroom hfloor), hpop, Exec.modifyThread, pure,
      EStateM.pure, Config.withStack, Stack.size, List.size_toArray]

/-- A call that is one too many faults. -/
theorem execute_call_deep {function : Nat} {callee : Routine}
    (hf : p.catalog.functions.at? function = some callee)
    (hdepth : c.thread.limits.depth ≤ c.thread.frames.length) :
    (call function).execute p size c = .error (.callDepthExceeded c.thread.limits.depth) c := by
  simp only [execute, Exec.call, bind, EStateM.bind, Exec.ofExcept, hf, if_pos hdepth]

/-- A call for which there are not enough slots faults. -/
theorem execute_call_crowded {function : Nat} {callee : Routine}
    (hf : p.catalog.functions.at? function = some callee)
    (hdepth : c.thread.frames.length < c.thread.limits.depth)
    (hroom : ¬ (callee.variableCount ≤ c.thread.top ∧
      c.thread.rootExtent ≤ c.thread.top - callee.variableCount)) :
    (call function).execute p size c = .error (.variableOutOfRange callee.variableCount) c := by
  cases hfr : c.thread.frames with
  | nil | cons f fs =>
    simp only [Thread.top, hfr] at hroom hdepth
    simp only [execute, Exec.call, bind, EStateM.bind, Exec.ofExcept, hf, hfr,
      if_neg (Nat.not_le.2 hdepth), if_neg hroom]

end Instr

namespace Program

variable {p : Program} {c : Config} {code : Code}

/-- At the end of the root the script is finished. -/
theorem step_end_root (hf : c.thread.frames = []) (hip : p.code.size ≤ c.thread.ip) :
    p.step c = .ok (.stop .completed) { c with thread := { c.thread with
      ip := 0
      mode := if p.looping then c.thread.mode else .finished } } := by
  have hrun : p.running c.thread = .ok p.code := by rw [running, hf]
  simp only [step, bind, EStateM.bind, Exec.ofExcept, hrun, Exec.get_apply,
    if_neg (Nat.not_lt.2 hip), fallOff, hf, List.isEmpty_nil, if_true, Exec.finish,
    Exec.modifyThread, pure, EStateM.pure]

/-- At the end of a function zero is returned. -/
theorem step_end_frame {f : Frame} {fs : List Frame} {cap : Nat} {ops : List Word}
    (hrun : p.running c.thread = .ok code) (hip : code.size ≤ c.thread.ip)
    (hs : c.thread.stack = ⟨cap, ops.toArray⟩) (hf : c.thread.frames = f :: fs)
    (hbase : ops.length = f.stackBase) :
    p.step c =
      (Instr.push 0).execute p code.size ((c.withStack ⟨cap, ops.toArray⟩).backTo f fs) := by
  simp only [step, bind, EStateM.bind, Exec.ofExcept, hrun, Exec.get_apply,
    if_neg (Nat.not_lt.2 hip), fallOff, hf, List.isEmpty_cons, Bool.false_eq_true, if_false,
    Exec.leaveCall_frame hs hf hbase, Instr.execute]

end Program

end Danmaku
