import Danmaku.Proofs.Compile.Sound
import Danmaku.Proofs.Limits.Agreement
import Danmaku.Proofs.Machine.Blind
import Danmaku.Proofs.Machine.Failure
import Danmaku.Proofs.Safety.Layout

/-!
# Threads with more room

Two threads that run the same code under different limits differ in the sizes of their stores, and
in where their calls have their slots: calls take them from the end of the array down, so in a
longer array they lie further up, all by the same distance (`Thread.Roomier`). The root has its
slots in the same place. Between the root and the innermost call the arrays need not have anything
in common, as calls that are closed leave their values behind there. A call never sees them, since
it starts with its arguments and zeros; the root does not if its code is sound, since it has claimed
all its variables (`Thread.Rooted`).

So a sound instruction has the same outcome on both threads, as far as the smaller limits go
(`Instr.agree_execute`).
-/

namespace Danmaku

/-- The call with its slots further up. -/
def Frame.raise (shift : Nat) (f : Frame) : Frame := { f with base := f.base + shift }

/-- The address at which the root is, or goes on once all calls are closed. -/
def Frame.rootAddress (ip : Nat) : List Frame → Nat
  | [] => ip
  | f :: frames => rootAddress f.returnTo frames

/-- The root is at one of some addresses, and has claimed so many variables. -/
structure Thread.Rooted (target : Nat → Prop) (count : Nat) (t : Thread) : Prop where
  address : target (Frame.rootAddress t.ip t.frames)
  claimed : count ≤ t.rootExtent

/-- The second thread is where the first one is, and its limits are larger. Its calls have their
slots so much further up. -/
structure Thread.Roomier (shift : Nat) (t t' : Thread) : Prop where
  limits : t.limits.AtMost t'.limits
  stack : t.stack.Roomier t'.stack
  ip : t'.ip = t.ip
  frames : t'.frames = t.frames.map (Frame.raise shift)
  mode : t'.mode = t.mode
  lastReturn : t'.lastReturn = t.lastReturn
  extent : t'.rootExtent = t.rootExtent
  size : t'.slots.size = t.slots.size + shift
  /-- The slots of the root hold the same values. -/
  root : ∀ i < t.rootExtent, t'.slots[i]? = t.slots[i]?
  /-- So do those of the calls. -/
  calls : ∀ i, t.top ≤ i → t'.slots[i + shift]? = t.slots[i]?
  tiled : Frame.Tiled t.slots.size t.frames
  clear : t.Clear

/-- The same of configurations, whose roots are at one of some addresses and have claimed so many
variables. -/
structure Config.Roomier (target : Nat → Prop) (count shift : Nat) (c c' : Config) : Prop where
  thread : c.thread.Roomier shift c'.thread
  rooted : c.thread.Rooted target count
  entity : c'.entity = c.entity
  shots : c'.shots = c.shots

namespace Thread

variable {t : Thread} {index : Nat}

/-- What the root has claimed, it need not claim to write to it. -/
theorem rootExtent_store (hroot : t.frames = [] → index < t.rootExtent) (slot : Nat) (v : Word) :
    (t.store index slot v).rootExtent = t.rootExtent := by
  simp only [store]
  split
  · next hempty => exact Nat.max_eq_left (hroot (List.isEmpty_iff.1 hempty))
  · rfl

theorem size_store (t : Thread) (index slot : Nat) (v : Word) :
    (t.store index slot v).slots.size = t.slots.size := Array.size_setIfInBounds

theorem top_store (t : Thread) (index slot : Nat) (v : Word) :
    (t.store index slot v).top = t.top := by
  rw [Thread.top_eq, Thread.top_eq, size_store]
  rfl

end Thread

namespace Thread.Roomier

variable {shift index slot address : Nat} {t t' : Thread} {s s' : Stack} {f : Frame}
  {frames : List Frame}

theorem top_eq (h : t.Roomier shift t') : t'.top = t.top + shift := by
  rw [top, top, h.frames]
  cases t.frames with
  | nil => exact h.size
  | cons f frames => rfl

theorem isEmpty_eq (h : t.Roomier shift t') : t'.frames.isEmpty = t.frames.isEmpty := by
  rw [h.frames, List.isEmpty_map]

theorem withStack (h : t.Roomier shift t') (hs : s.Roomier s') :
    { t with stack := s }.Roomier shift { t' with stack := s' } := { h with stack := hs }

theorem goTo (h : t.Roomier shift t') (address : Nat) :
    { t with ip := address }.Roomier shift { t' with ip := address } := { h with ip := rfl }

/-! ## Variables -/

theorem slot_root (h : t.Roomier shift t') (hframes : t.frames = [])
    (hslot : t.slot index = .ok slot) :
    slot = index ∧ index < t.slots.size ∧ t'.slot index = .ok index := by
  have hframes' : t'.frames = [] := by rw [h.frames, hframes, List.map_nil]
  have hsize := h.size
  simp only [Thread.slot, window, hframes, hframes'] at hslot ⊢
  split at hslot
  · next hlt =>
    refine ⟨by rw [← Except.ok.inj hslot, Nat.zero_add], hlt, ?_⟩
    rw [if_pos (by omega), Nat.zero_add]
  · cases hslot

theorem slot_call (h : t.Roomier shift t') (hframes : t.frames = f :: frames)
    (hslot : t.slot index = .ok slot) : f.base ≤ slot ∧ t'.slot index = .ok (slot + shift) := by
  have hframes' : t'.frames = f.raise shift :: frames.map (Frame.raise shift) := by
    rw [h.frames, hframes, List.map_cons]
  simp only [Thread.slot, window, hframes, hframes', Frame.raise] at hslot ⊢
  split at hslot
  · next hlt =>
    obtain rfl := Except.ok.inj hslot
    exact ⟨Nat.le_add_right _ _, by rw [if_pos hlt, Nat.add_right_comm]⟩
  · cases hslot

/-- If both threads write the same value to a variable, and it is in the slots where it should be,
they stay in the same place. -/
theorem store (h : t.Roomier shift t') (hroot : t.frames = [] → index < t.rootExtent) {slot' : Nat}
    {v : Word}
    (hlow : ∀ i < t.rootExtent,
      (t'.slots.setIfInBounds slot' v)[i]? = (t.slots.setIfInBounds slot v)[i]?)
    (hhigh : ∀ i, t.top ≤ i →
      (t'.slots.setIfInBounds slot' v)[i + shift]? = (t.slots.setIfInBounds slot v)[i]?) :
    (t.store index slot v).Roomier shift (t'.store index slot' v) := by
  have hextent := rootExtent_store hroot slot v
  have hextent' : (t'.store index slot' v).rootExtent = t'.rootExtent := by
    refine rootExtent_store (fun hframes => ?_) slot' v
    rw [h.extent]
    exact hroot (List.map_eq_nil_iff.1 (h.frames.symm.trans hframes))
  exact { h with
    extent := by rw [hextent, hextent', h.extent]
    size := by rw [size_store, size_store, h.size]
    root := fun i hi => hlow i (hextent ▸ hi)
    calls := fun i hi => hhigh i ((top_store t index slot v) ▸ hi)
    tiled := by rw [size_store]; exact h.tiled
    clear := h.clear.store _ _ _ }

/-- The root writes to a variable that it has claimed. -/
theorem store_root (h : t.Roomier shift t') (hframes : t.frames = [])
    (hindex : index < t.rootExtent) (hlt : index < t.slots.size) (v : Word) :
    (t.store index index v).Roomier shift (t'.store index index v) := by
  have hsize := h.size
  have htop : t.top = t.slots.size := by rw [top, hframes]
  refine h.store (fun _ => hindex) (fun i hi => ?_) fun i hi => ?_
  · by_cases heq : index = i
    · subst heq
      rw [Array.getElem?_setIfInBounds_self_of_lt hlt,
        Array.getElem?_setIfInBounds_self_of_lt (by omega)]
    · rw [Array.getElem?_setIfInBounds_ne heq, Array.getElem?_setIfInBounds_ne heq, h.root i hi]
  · rw [Array.getElem?_setIfInBounds_ne (by omega), Array.getElem?_setIfInBounds_ne (by omega),
      h.calls i hi]

/-- A call writes to a variable of its own. -/
theorem store_call (h : t.Roomier shift t') (hframes : t.frames = f :: frames)
    (hbase : f.base ≤ slot) (v : Word) :
    (t.store index slot v).Roomier shift (t'.store index (slot + shift) v) := by
  have hfloor : t.rootExtent ≤ f.base := h.clear f (hframes ▸ List.mem_cons_self)
  have hopen : t.frames ≠ [] := hframes ▸ List.cons_ne_nil f frames
  refine h.store (fun hnil => absurd hnil hopen) (fun i hi => ?_) fun i hi => ?_
  · rw [Array.getElem?_setIfInBounds_ne (by omega), Array.getElem?_setIfInBounds_ne (by omega),
      h.root i hi]
  · change (fill t'.slots (slot + shift) [v])[i + shift]? = (fill t.slots slot [v])[i]?
    exact fill_congr shift h.size (.inr (h.calls i hi))

/-- **A variable is there for both threads**, if the root has claimed it: it has the same value, and
another value can be written to it. -/
theorem slot_eq (h : t.Roomier shift t') (hroot : t.frames = [] → index < t.rootExtent)
    (hslot : t.slot index = .ok slot) : ∃ slot', t'.slot index = .ok slot' ∧
      t'.slots[slot']? = t.slots[slot]? ∧
      ∀ v, (t.store index slot v).Roomier shift (t'.store index slot' v) := by
  cases hframes : t.frames with
  | nil =>
    obtain ⟨rfl, hlt, hslot'⟩ := h.slot_root hframes hslot
    exact ⟨slot, hslot', h.root slot (hroot hframes), h.store_root hframes (hroot hframes) hlt⟩
  | cons f frames =>
    obtain ⟨hbase, hslot'⟩ := h.slot_call hframes hslot
    exact ⟨slot + shift, hslot', h.calls slot (by rwa [top, hframes]), h.store_call hframes hbase⟩

/-! ## Calls -/

/-- A call that both threads open starts with the same values. -/
theorem enter (h : t.Roomier shift t') {function : Nat} {callee : Routine}
    (hroom : callee.variableCount ≤ t.top)
    (hfloor : t.rootExtent ≤ t.top - callee.variableCount) :
    (t.enter function callee).Roomier shift (t'.enter function callee) := by
  have htop := h.top_eq
  have hbase : t'.top - callee.variableCount = t.top - callee.variableCount + shift := by omega
  simp only [Thread.enter, h.stack.size_eq, h.stack.values, hbase]
  refine { h with
    stack := h.stack.withValues _
    ip := rfl
    frames := by rw [h.frames, h.ip]; rfl
    size := by rw [size_fill, size_fill, h.size]
    root := fun i hi => ?_
    calls := fun i hi => ?_
    tiled := ?_
    clear := h.clear.enter hfloor }
  · -- The root's slots lie below those of the call in both arrays.
    have hlow : i < t.top - callee.variableCount := Nat.lt_of_lt_of_le hi hfloor
    rw [fill_outside (.inl hlow), fill_outside (.inl (by omega)), h.root i hi]
  · -- A slot from the new call's first up is written now, or belongs to a call that was open.
    have hi : t.top - callee.variableCount ≤ i := hi
    refine fill_congr shift h.size ?_
    rw [List.length_append, List.length_replicate]
    by_cases hin : i < t.top
    · exact .inl ⟨hi, by omega⟩
    · exact .inr (h.calls i (Nat.not_lt.1 hin))
  · simp only [size_fill]
    exact ⟨by rw [← Thread.top_eq, Nat.sub_add_cancel hroom], h.tiled⟩

/-- Both threads go back to the caller. -/
theorem leave (h : t.Roomier shift t') (hframes : t.frames = f :: frames) :
    { t with frames, ip := address }.Roomier shift
      { t' with frames := frames.map (Frame.raise shift), ip := address } := by
  have htiled := h.tiled
  rw [hframes] at htiled
  refine { h with
    ip := rfl
    frames := rfl
    calls := fun i hi => h.calls i ?_
    tiled := htiled.2
    clear := h.clear.leave hframes }
  have hends : f.base + f.extent ≤ i := by
    rw [htiled.1]
    rwa [Thread.top_eq] at hi
  rw [top, hframes]
  exact (Nat.le_add_right _ _).trans hends

end Thread.Roomier

/-! ## Computations -/

namespace Thread.Rooted

variable {target : Nat → Prop} {count : Nat} {t : Thread}

theorem goTo (h : t.Rooted target count) {address : Nat} (hroot : t.frames = [] → target address) :
    { t with ip := address }.Rooted target count := by
  refine { h with address := ?_ }
  have haddress := h.address
  cases hframes : t.frames with
  | nil => exact hroot hframes
  | cons f frames =>
    rw [hframes] at haddress
    exact haddress

theorem leave (h : t.Rooted target count) {f : Frame} {frames : List Frame}
    (hframes : t.frames = f :: frames) :
    { t with frames, ip := f.returnTo }.Rooted target count := by
  have haddress := h.address
  rw [hframes] at haddress
  exact { h with address := haddress }

end Thread.Rooted

namespace Config.Roomier

variable {target : Nat → Prop} {count shift address : Nat} {c c' : Config} {s s' : Stack}

theorem withStack (h : Roomier target count shift c c') (hs : s.Roomier s') :
    Roomier target count shift (c.withStack s) (c'.withStack s') :=
  { h with
    thread := h.thread.withStack hs
    rooted := { h.rooted with } }

theorem goTo (h : Roomier target count shift c c')
    (hroot : c.thread.frames = [] → target address) :
    Roomier target count shift (c.goTo address) (c'.goTo address) :=
  { h with
    thread := h.thread.goTo address
    rooted := h.rooted.goTo hroot }

end Config.Roomier

namespace Exec

variable {α β : Type} {target : Nat → Prop} {count shift address size : Nat} {c c' : Config}
  {k : Config → Exec β}

theorem scales_onStack {action : StackM α} (h : Scales Stack.Roomier action) :
    Scales (Config.Roomier target count shift) (onStack action) := by
  intro c c' hc
  have haction := h _ _ hc.thread.stack
  rw [onStack, onStack]
  simp only
  generalize action c.thread.stack = r at haction
  generalize action c'.thread.stack = r' at haction
  cases haction with
  | ok related => exact .ok (hc.withStack related)
  | error related => exact .error (hc.withStack related)
  | cut limit => exact .cut limit

theorem scales_ofExcept {f : Config → Except Fault α}
    (h : ∀ c c', Config.Roomier target count shift c c' → f c' = f c) :
    Scales (Config.Roomier target count shift) (ofExcept f) := by
  intro c c' hc
  rw [ofExcept, ofExcept, h c c' hc]
  cases f c with
  | ok a => exact .ok hc
  | error e => exact .error hc

theorem scales_get
    (h : ∀ c c', Config.Roomier target count shift c c' →
      Agree (Config.Roomier target count shift) (k c c) (k c' c')) :
    Scales (Config.Roomier target count shift) (get >>= k) := h

theorem scales_shoot (shot : Shot) :
    Scales (Config.Roomier target count shift) (shoot shot) := by
  intro c c' hc
  rw [shoot, shoot, hc.shots]
  exact .ok { hc with shots := rfl }

theorem scales_popIsZero : Scales (Config.Roomier target count shift) popIsZero :=
  .bind (scales_onStack Stack.scales_pop) fun _ => .pure _

theorem scales_setProperty (types : TypeTable) (property : Nat) :
    Scales (Config.Roomier target count shift) (setProperty types property) := by
  refine .bind (scales_onStack Stack.scales_peek) fun v c c' hc => ?_
  simp only [hc.entity]
  cases types.write c.entity property v with
  | ok entity => exact .ok { hc with entity := rfl }
  | error f => exact .error hc

/-- A jump leads both threads to the same address. -/
theorem agree_jump (hc : Config.Roomier target count shift c c')
    (hroot : c.thread.frames = [] → target address) :
    Agree (Config.Roomier target count shift) (jump size address c) (jump size address c') := by
  unfold jump
  split
  · exact .ok (hc.goTo hroot)
  · exact .error hc

theorem agree_jumpBy {offset : Int} (hc : Config.Roomier target count shift c c')
    (hroot : c.thread.frames = [] → ∃ a, target a ∧ c.thread.ip + offset = (a : Int)) :
    Agree (Config.Roomier target count shift) (jumpBy size offset c) (jumpBy size offset c') := by
  simp only [jumpBy, hc.thread.ip]
  split
  · refine .ok (hc.goTo fun hframes => ?_)
    obtain ⟨a, ha, heq⟩ := hroot hframes
    rwa [heq, Int.toNat_natCast]
  · exact .error hc

/-- The end of the root leads both threads back to its start. -/
theorem scales_finish (looping : Bool) (hstart : target 0) :
    Scales (Config.Roomier target count shift) (finish looping) := by
  intro c c' hc
  have hthread : Config.Roomier target count shift
      { c with thread := { c.thread with
          ip := 0
          mode := if looping then c.thread.mode else .finished } }
      { c' with thread := { c'.thread with
          ip := 0
          mode := if looping then c'.thread.mode else .finished } } :=
    { hc with
      thread := { hc.thread with
        ip := rfl
        mode := by rw [hc.thread.mode] }
      rooted := { hc.rooted.goTo fun _ => hstart with } }
  exact .ok hthread

/-- **Leaving a call, read off the thread.** -/
theorem leaveCall_eq (v : Word) (c : Config) : leaveCall v c =
    match c.thread.frames with
    | [] => .error .stackUnderflow c
    | f :: frames =>
      onStack (Stack.push v) ((c.withStack { c.thread.stack with
        values := c.thread.stack.values.shrink f.stackBase }).backTo f frames) := by
  cases hframes : c.thread.frames with
  | nil => simp only [leaveCall, bind, EStateM.bind, ofExcept, hframes]
  | cons f frames =>
    have htruncate : onStack (Stack.truncate f.stackBase) c = .ok () (c.withStack
        { c.thread.stack with values := c.thread.stack.values.shrink f.stackBase }) := rfl
    simp only [leaveCall, bind, EStateM.bind, ofExcept, hframes, htruncate, modifyThread,
      Config.withStack, Config.backTo, List.tail_cons]

theorem scales_leaveCall (v : Word) :
    Scales (Config.Roomier target count shift) (leaveCall v) := by
  intro c c' hc
  rw [leaveCall_eq, leaveCall_eq, hc.thread.frames]
  cases hframes : c.thread.frames with
  | nil => exact .error hc
  | cons f frames =>
    refine scales_onStack (Stack.scales_push v) _ _ ?_
    have hstack : Stack.Roomier
        { c.thread.stack with values := c.thread.stack.values.shrink f.stackBase }
        { c'.thread.stack with values := c'.thread.stack.values.shrink f.stackBase } := by
      rw [hc.thread.stack.values]
      exact hc.thread.stack.withValues _
    exact { hc with
      thread := (hc.thread.leave hframes).withStack hstack
      rooted := { hc.rooted.leave hframes with } }

end Exec

/-! ## Instructions -/

namespace Instr

open Exec

variable {p : Program} {target : Nat → Prop} {count shift size a index : Nat} {c c' : Config}

theorem agree_getVariable (hc : Config.Roomier target count shift c c')
    (hroot : c.thread.frames = [] → index < count) :
    Agree (Config.Roomier target count shift) ((getVariable index).execute p size c)
      ((getVariable index).execute p size c') := by
  refine .bind ?_ fun v c₁ c₁' _ h₁ => .bind (scales_onStack (Stack.scales_push v) _ _ h₁)
    fun _ _ _ _ h₂ => .ok h₂
  rw [Exec.ofExcept, Exec.ofExcept]
  cases hget : c.thread.getVariable index with
  | error f => exact .cut ((Thread.getVariable_eq_error hget).2 ▸ rfl)
  | ok v =>
    have hget' : c'.thread.getVariable index = .ok v := by
      rw [Thread.getVariable] at hget ⊢
      cases hslot : c.thread.slot index with
      | error f => rw [hslot] at hget; cases hget
      | ok slot =>
        obtain ⟨slot', hslot', hvalue, -⟩ := hc.thread.slot_eq
          (fun hframes => Nat.lt_of_lt_of_le (hroot hframes) hc.rooted.claimed) hslot
        rw [hslot] at hget
        rw [hslot', ← hget]
        simp only [Except.map, Array.getD_eq_getD_getElem?, hvalue]
    rw [hget']
    exact .ok hc

theorem agree_setVariable (hc : Config.Roomier target count shift c c')
    (hroot : c.thread.frames = [] → index < count) :
    Agree (Config.Roomier target count shift) ((setVariable index).execute p size c)
      ((setVariable index).execute p size c') := by
  rw [execute_setVariable_eq, execute_setVariable_eq, hc.thread.stack.values]
  cases c.thread.stack.values.back? with
  | none => exact .error hc
  | some v =>
    cases hslot : c.thread.slot index with
    | error f => exact .cut ((Thread.slot_eq_error hslot).2 ▸ rfl)
    | ok slot =>
      obtain ⟨slot', hslot', -, hstore⟩ := hc.thread.slot_eq
        (fun hframes => Nat.lt_of_lt_of_le (hroot hframes) hc.rooted.claimed) hslot
      rw [hslot']
      refine .ok { hc with
        thread := hstore v
        rooted := { hc.rooted with claimed := ?_ } }
      exact hc.rooted.claimed.trans (Thread.stays_store hslot v).extent

theorem agree_call (function : Nat) (hc : Config.Roomier target count shift c c') :
    Agree (Config.Roomier target count shift) ((call function).execute p size c)
      ((call function).execute p size c') := by
  have hthread := hc.thread
  have htop := hthread.top_eq
  have hdepth := hthread.limits.depth
  rw [execute_call_eq, execute_call_eq, hthread.frames, hthread.extent, hthread.stack.size_eq, htop,
    List.length_map]
  cases p.catalog.functions.at? function with
  | none => exact .error hc
  | some callee =>
    simp only
    by_cases hdeep : c.thread.limits.depth ≤ c.thread.frames.length
    · rw [if_pos hdeep]
      exact .cut rfl
    by_cases hroom : callee.variableCount ≤ c.thread.top ∧
        c.thread.rootExtent ≤ c.thread.top - callee.variableCount
    · have hdeep' : ¬ c'.thread.limits.depth ≤ c.thread.frames.length := by omega
      have hroom' : callee.variableCount ≤ c.thread.top + shift ∧
          c.thread.rootExtent ≤ c.thread.top + shift - callee.variableCount := by omega
      rw [if_neg hdeep, if_neg hdeep', if_pos hroom, if_pos hroom']
      split
      · exact .error hc
      · exact .ok { hc with
          thread := hthread.enter hroom.1 hroom.2
          rooted := { hc.rooted with } }
    · rw [if_neg hdeep, if_neg hroom]
      exact .cut rfl

/-- **A sound instruction has the same outcome on a thread with more room**, unless it comes to a
limit. Only in the root it has to be sound. -/
theorem agree_execute {i : Instr} (hc : Config.Roomier target count shift c c')
    (hdelegates : ∀ d entry, p.catalog.delegates.at? d = some entry →
      entry.delegate.IgnoresCapacity)
    (hip : c.thread.ip = a + i.size)
    (hsound : c.thread.frames = [] → i.Sound p.catalog count target a) (hstart : target 0) :
    Agree (Config.Roomier target count shift) (i.execute p size c) (i.execute p size c') := by
  have next {m : Exec Unit}
      (hm : Agree (Config.Roomier target count shift) (m c) (m c')) :
      Agree (Config.Roomier target count shift) ((do m; return Flow.next) c)
        ((do m; return Flow.next) c') := .bind hm fun _ _ _ _ h => .ok h
  have scales {m : Exec Flow} (hm : Scales (Config.Roomier target count shift) m) :=
    hm c c' hc
  cases i with
  | push v => exact next (scales_onStack (Stack.scales_push v) _ _ hc)
  | pop => exact scales (.bind (scales_onStack Stack.scales_pop) fun _ => .pure _)
  | negate | not =>
    exact scales (.bind (scales_onStack Stack.scales_peek) fun _ =>
      .bind (scales_onStack (Stack.scales_replaceTop _)) fun _ => .pure _)
  | binary op =>
    exact scales (.bind (scales_onStack Stack.scales_pop) fun _ =>
      .bind (scales_onStack Stack.scales_pop) fun _ =>
        .bind (scales_ofExcept fun _ _ _ => rfl) fun _ =>
          .bind (scales_onStack (Stack.scales_push _)) fun _ => .pure _)
  | jump t => exact next (agree_jump hc hsound)
  | jumpBy offset =>
    refine next (agree_jumpBy hc fun hframes => ?_)
    obtain ⟨t, ht, heq⟩ := hsound hframes
    exact ⟨t, ht, by rw [hip, ← heq]; rfl⟩
  | branchIfZero t =>
    refine .bind (scales_popIsZero _ _ hc) fun b c₁ c₁' hpop h₁ => ?_
    obtain ⟨v, -, -, rfl⟩ := popIsZero_eq_ok.1 hpop
    cases b with
    | false => exact .ok h₁
    | true => exact .bind (agree_jump h₁ hsound) fun _ _ _ _ h => .ok h
  | branchIfZeroBy offset =>
    refine .bind (scales_popIsZero _ _ hc) fun b c₁ c₁' hpop h₁ => ?_
    obtain ⟨v, -, -, rfl⟩ := popIsZero_eq_ok.1 hpop
    cases b with
    | false => exact .ok h₁
    | true =>
      refine .bind (agree_jumpBy h₁ fun hframes => ?_) fun _ _ _ _ h => .ok h
      obtain ⟨t, ht, heq⟩ := hsound hframes
      exact ⟨t, ht, by rw [← heq]; exact congrArg (fun n : Nat => (n : Int) + offset) hip⟩
  | getVariable index => exact agree_getVariable hc hsound
  | setVariable index => exact agree_setVariable hc hsound
  | getProperty property =>
    refine scales (.bind (scales_ofExcept fun c c' h => ?_) fun _ =>
      .bind (scales_onStack (Stack.scales_push _)) fun _ => .pure _)
    rw [h.entity]
  | setProperty property => exact next (scales_setProperty _ _ _ _ hc)
  | call function => exact agree_call function hc
  | callDelegate d =>
    refine .bind (scales_ofExcept (fun _ _ _ => rfl) _ _ hc) fun entry c₁ c₁' hentry h₁ => ?_
    obtain ⟨hat, -⟩ := ofExcept_eq_ok.1 hentry
    split at hat
    · next entry' hat' =>
      obtain rfl := Except.ok.inj hat
      exact .bind (scales_onStack (hdelegates d entry' hat') _ _ h₁) fun _ _ _ _ h => .ok h
    · cases hat
  | fire index =>
    exact scales (.bind (scales_ofExcept fun _ _ _ => rfl) fun _ =>
      .bind (scales_onStack (Stack.scales_popMany _)) fun _ =>
        .bind (scales_shoot _) fun _ => .pure _)
  | fireWith index updater =>
    exact scales (.bind (scales_ofExcept fun _ _ _ => rfl) fun _ =>
      .bind (scales_ofExcept fun _ _ _ => rfl) fun _ =>
        .bind (scales_onStack (Stack.scales_popMany _)) fun _ =>
          .bind (scales_onStack (Stack.scales_popMany _)) fun _ =>
            .bind (scales_shoot _) fun _ => .pure _)
  | wait =>
    refine .bind (scales_onStack Stack.scales_pop _ _ hc) fun ticks c₁ c₁' _ h₁ => ?_
    exact .ok { h₁ with
      thread := { h₁.thread with mode := rfl }
      rooted := { h₁.rooted with } }
  | ret =>
    refine .bind (scales_onStack Stack.scales_pop _ _ hc) fun v c₁ c₁' _ h₁ => ?_
    refine scales_get (fun c c' h => ?_) _ _ h₁
    rw [h.thread.isEmpty_eq]
    split
    · refine .bind (scales_onStack Stack.scales_clear _ _ h) fun _ c₂ c₂' _ h₂ => ?_
      exact scales_finish p.looping hstart _ _ { h₂ with
        thread := { h₂.thread with lastReturn := rfl }
        rooted := { h₂.rooted with } }
    · exact .bind (scales_leaveCall v _ _ h) fun _ _ _ _ h => .ok h

end Instr

/-- At the end of the code the same happens to both threads. -/
theorem Program.agree_fallOff {p : Program} {target : Nat → Prop} {count shift : Nat}
    (hstart : target 0) : Scales (Config.Roomier target count shift) p.fallOff := by
  refine Exec.scales_get fun c c' h => ?_
  rw [h.thread.isEmpty_eq]
  split
  · exact Exec.scales_finish _ hstart _ _ h
  · exact .bind (Exec.scales_leaveCall 0 _ _ h) fun _ _ _ _ h => .ok h

end Danmaku
