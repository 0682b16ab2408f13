import Danmaku.Proofs.Compile.Sound
import Danmaku.Proofs.Machine.Trace
import Danmaku.Proofs.Refinement.Body
import Danmaku.Proofs.Syntax.Needs

/-!
# Expressions without calls, anywhere

The code of an expression knows nothing of its surroundings: it jumps by distances, and uses no
operands but its own. So an expression without calls does what it means wherever its code stands
(`Expr.compile_computes`), in every thread that has slots for its variables and room for its
operands. Neither has the thread to be one that a script can come to, nor does it matter under which
names the routine that is running knows its slots; there is no log here, and what was done is read
off the variables and the entity.
-/

namespace Danmaku

open Instr

/-! ## Configurations -/

/-- Two configurations differ in nothing but the address, the operands, the entity and the first
variables of the innermost call, which are so many. A root may have claimed these by writing to
them. -/
structure Config.SameBeyond (count : Nat) (c c' : Config) : Prop where
  limits : c'.thread.limits = c.thread.limits
  handles : c'.thread.handles = c.thread.handles
  frames : c'.thread.frames = c.thread.frames
  mode : c'.thread.mode = c.thread.mode
  lastReturn : c'.thread.lastReturn = c.thread.lastReturn
  shots : c'.shots = c.shots
  size : c'.thread.slots.size = c.thread.slots.size
  slots : ∀ i, (∀ j < count, i ≠ c.thread.window.1 + j) → c'.thread.slots[i]? = c.thread.slots[i]?
  extent : c.thread.frames ≠ [] → c'.thread.rootExtent = c.thread.rootExtent
  claimed : c.thread.rootExtent ≤ c'.thread.rootExtent ∧
    c'.thread.rootExtent ≤ max c.thread.rootExtent count

/-- The variables of the innermost call have the values that a world gives to their names, and the
entity is that of the world. -/
structure Config.Has (c : Config) (names : List String) (w : World) : Prop where
  values : ∀ name i, names.idxOf? name = some i →
    c.thread.slots[c.thread.window.1 + i]? = some (w.values name)
  entity : c.entity = w.entity

/-- The indices among the operands of an instruction. -/
def Instr.indices : Instr → List Nat
  | getVariable n | setVariable n | getProperty n | setProperty n | call n | callDelegate n
  | fire n => [n]
  | fireWith firing updater => [firing, updater]
  | push _ | pop | negate | not | binary _ | jump _ | branchIfZero _ | jumpBy _ | branchIfZeroBy _
  | wait | ret => []

/-- The run from a configuration evaluates an expression. It takes steps to an address, with the
value on top of the operands that were there, and the variables and the entity are as the evaluation
leaves them; or it ends with the fault of the evaluation, and they are so at the fault. -/
def Program.Computes (p : Program) (names : List String) (c : Config) (address : Nat) :
    EStateM.Result Halt World Word → Prop
  | .ok v w => ∃ done c', p.Executes c done c' ∧
    (∃ k, ∀ fuel, p.run (fuel + k) 0 c = p.run fuel 0 c') ∧
    c'.thread.ip = address ∧
    c'.thread.stack = { c.thread.stack with values := c.thread.stack.values.push v } ∧
    c'.Has names w ∧ c.SameBeyond names.length c'
  | .error (.fault f) w => ∃ c', (∃ k, ∀ fuel, p.run (fuel + k) 0 c = some (.error f, c')) ∧
    c'.Has names w ∧ c.SameBeyond names.length c'
  | .error .patience _ => False

namespace Config

variable {names : List String} {w : World} {c c' : Config} {count : Nat}

theorem SameBeyond.refl (count : Nat) (c : Config) : c.SameBeyond count c :=
  ⟨rfl, rfl, rfl, rfl, rfl, rfl, rfl, fun _ _ => rfl, fun _ => rfl, Nat.le_refl _,
    Nat.le_max_left _ _⟩

theorem SameBeyond.window_eq (h : c.SameBeyond count c') : c'.thread.window = c.thread.window := by
  rw [Thread.window, Thread.window, h.frames, h.size]

theorem SameBeyond.store (h : c.SameBeyond count c') {slot : Nat} (hslot : slot < count)
    (v : Word) : c.SameBeyond count
      { c' with thread := c'.thread.store slot (c'.thread.window.1 + slot) v } := by
  refine { h with size := ?_, slots := fun i hi => ?_, extent := fun hne => ?_, claimed := ?_ }
  · simpa only [Thread.store, Array.size_setIfInBounds] using h.size
  · have hne : c'.thread.window.1 + slot ≠ i := by
      rw [h.window_eq]
      exact fun he => hi slot hslot he.symm
    simpa only [Thread.store, Array.getElem?_setIfInBounds_ne hne] using h.slots i hi
  · have hframes : c'.thread.frames.isEmpty = false :=
      List.isEmpty_eq_false_iff.2 (h.frames ▸ hne)
    simpa only [Thread.store, hframes, Bool.false_eq_true, if_false] using h.extent hne
  · have hclaimed := h.claimed
    simp only [Thread.store]
    split <;> omega

/-- Storing a value in the slot of a name gives that name the value. -/
theorem Has.store (h : c.Has names w) {name : String} {slot : Nat}
    (hname : names.idxOf? name = some slot) (v : Word) (log : List Effect) :
    Has { c with thread := c.thread.store slot (c.thread.window.1 + slot) v } names
      ⟨Function.update w.values name v, w.entity, log⟩ := by
  have hwindow : (c.thread.store slot (c.thread.window.1 + slot) v).window = c.thread.window := by
    simp only [Thread.window, Thread.store, Array.size_setIfInBounds]
  refine ⟨fun other i hother => ?_, h.entity⟩
  change (c.thread.slots.setIfInBounds (c.thread.window.1 + slot) v)[
    (c.thread.store slot (c.thread.window.1 + slot) v).window.1 + i]? = _
  rw [hwindow]
  by_cases hi : i = slot
  · subst hi
    obtain rfl : name = other := Option.some.inj
      ((getElem?_of_idxOf? hname).symm.trans (getElem?_of_idxOf? hother))
    have hsize : c.thread.window.1 + i < c.thread.slots.size :=
      (Array.getElem?_eq_some_iff.1 (h.values name i hname)).1
    simp only [Array.getElem?_setIfInBounds_self_of_lt hsize, Function.update_self]
  · have hne : other ≠ name := by
      rintro rfl
      exact hi (Option.some.inj (hother.symm.trans hname))
    have hne' : c.thread.window.1 + slot ≠ c.thread.window.1 + i := by omega
    simp only [Function.update_of_ne hne, Array.getElem?_setIfInBounds_ne hne']
    exact h.values other i hother

theorem Has.ofConfig (hslots : c.thread.window.1 + names.length ≤ c.thread.slots.size) :
    c.Has names (World.ofConfig names c) where
  values name i hi := by
    have hlt := (List.getElem?_eq_some_iff.1 (getElem?_of_idxOf? hi)).1
    have hsize : c.thread.window.1 + i < c.thread.slots.size := by omega
    simp only [World.ofConfig, List.idxOf_eq_getD_idxOf?, hi, Option.getD_some,
      Array.getD_eq_getD_getElem?, Array.getElem?_eq_getElem hsize]
  entity := rfl

end Config

/-! ## Evaluations under way -/

/-- A configuration runs a block of code, and the innermost call has slots for so many variables. -/
structure Program.Site (p : Program) (block : Code) (count : Nat) (c : Config) : Prop where
  running : p.running c.thread = .ok block
  extent : count ≤ c.thread.window.2
  slots : c.thread.window.1 + count ≤ c.thread.slots.size

/-- What an evaluation that was begun in a configuration has come to: an address, the operands that
there are, and a world. -/
structure Config.Comes (c₀ : Config) (names : List String) (address : Nat) (ops : List Word)
    (w : World) (c : Config) : Prop where
  ip : c.thread.ip = address
  stack : c.thread.stack = ⟨c₀.thread.stack.capacity, ops.toArray⟩
  has : c.Has names w
  same : c₀.SameBeyond names.length c

/-- The steps from a configuration do what a computation does on a world, in an evaluation that was
begun elsewhere. Being out of patience is not among what a machine does. -/
def Does {α : Type} (p : Program) (names : List String) (c₀ : Config) (m : Eval α) (w : World)
    (c : Config) (post : α → World → Config → Prop) : Prop :=
  match m w with
  | .ok a w' => ∃ done c', p.Executes c done c' ∧ post a w' c'
  | .error (.fault f) w' => ∃ done c' c'', p.Executes c done c' ∧ p.step c' = .error f c'' ∧
    c''.Has names w' ∧ c₀.SameBeyond names.length c''
  | .error .patience _ => False

variable {p : Program} {names : List String} {c₀ c c₁ : Config} {block : Code} {a b : Nat}
  {ops ops' : List Word} {w w' : World} {i : Instr} {v : Word} {α β : Type}

namespace Does

variable {m : Eval α} {k : α → Eval β} {post : α → World → Config → Prop}
  {post' : β → World → Config → Prop}

theorem ok {x : α} (hm : m w = .ok x w') {done : List Config} (h : p.Executes c done c₁)
    (hpost : post x w' c₁) : Does p names c₀ m w c post := by
  rw [Does, hm]
  exact ⟨_, _, h, hpost⟩

theorem value {x : α} (h : post x w c) : Does p names c₀ (pure x) w c post := ok rfl (.refl c) h

theorem next {x : α} (hm : m w = .ok x w') (hstep : p.step c = .ok .next c₁)
    (hpost : post x w' c₁) : Does p names c₀ m w c post :=
  ok hm (.step hstep (.refl c₁)) hpost

theorem fault {f : Fault} (hm : m w = .error (.fault f) w') (hstep : p.step c = .error f c₁)
    (hhas : c₁.Has names w') (hsame : c₀.SameBeyond names.length c₁) :
    Does p names c₀ m w c post := by
  rw [Does, hm]
  exact ⟨_, _, _, .refl c, hstep, hhas, hsame⟩

/-- Steps of the machine before the computation starts. -/
theorem after {done : List Config} (h : p.Executes c done c₁)
    (hm : Does p names c₀ m w c₁ post) : Does p names c₀ m w c post := by
  rw [Does] at hm ⊢
  split at hm
  · obtain ⟨_, _, h', hpost⟩ := hm
    exact ⟨_, _, h.trans h', hpost⟩
  · obtain ⟨_, _, _, h', hend⟩ := hm
    exact ⟨_, _, _, h.trans h', hend⟩
  · exact hm

/-- One computation after another. -/
theorem bind (hm : Does p names c₀ m w c post)
    (hk : ∀ x w' c', post x w' c' → Does p names c₀ (k x) w' c' post') :
    Does p names c₀ (m >>= k) w c post' := by
  have hbind : (m >>= k) w = EStateM.bind m k w := rfl
  rw [Does] at hm
  cases hw : m w with
  | ok x w' =>
    rw [hw] at hm
    obtain ⟨done, c', h, hpost⟩ := hm
    have hrest := after h (hk x w' c' hpost)
    rw [Does] at hrest ⊢
    rwa [hbind, EStateM.bind, hw]
  | error halt w' =>
    rw [hw] at hm
    rw [Does, hbind, EStateM.bind, hw]
    cases halt <;> exact hm

end Does

/-! ## Single instructions -/

section Instructions

variable (hsite : p.Site block names.length c₀) (h : c₀.Comes names a ops w c)
  (hi : i.StandsAt block.words a)

namespace Config.Comes

theorem goTo (h : c₀.Comes names a ops w c) (b : Nat) : c₀.Comes names b ops w (c.goTo b) where
  ip := rfl
  stack := h.stack
  has := ⟨h.has.values, h.has.entity⟩
  same := { h.same with }

theorem withStack (h : c₀.Comes names a ops w c) (ops' : List Word) :
    c₀.Comes names a ops' w (c.withStack ⟨c₀.thread.stack.capacity, ops'.toArray⟩) where
  ip := h.ip
  stack := rfl
  has := ⟨h.has.values, h.has.entity⟩
  same := { h.same with }

/-- Storing a value in the slot of a name gives that name the value. -/
theorem store (h : c₀.Comes names a ops w c) {name : String} {slot : Nat}
    (hname : names.idxOf? name = some slot) (v : Word) (log : List Effect) :
    c₀.Comes names a ops ⟨Function.update w.values name v, w.entity, log⟩
      { c with thread := c.thread.store slot (c.thread.window.1 + slot) v } where
  ip := h.ip
  stack := h.stack
  has := h.has.store hname v log
  same := h.same.store (List.getElem?_eq_some_iff.1 (getElem?_of_idxOf? hname)).1 v

include hsite h

theorem slot_eq {name : String} {slot : Nat} (hname : names.idxOf? name = some slot) :
    c.thread.slot slot = .ok (c.thread.window.1 + slot) := by
  have hlt := (List.getElem?_eq_some_iff.1 (getElem?_of_idxOf? hname)).1
  simp only [Thread.slot, h.same.window_eq]
  exact if_pos (Nat.lt_of_lt_of_le hlt hsite.extent)

include hi

theorem step_eq : p.step c = i.execute p block.size (c.goTo (a + i.size)) := by
  have hrun : p.running c.thread = .ok block := by
    rw [← hsite.running, Program.running, Program.running, h.same.frames]
  rw [Program.step_standsAt hrun (h.ip ▸ hi), h.ip]

/-- An instruction that faults where the computation does. -/
theorem faults {m : Eval α} {f : Fault} {post : α → World → Config → Prop}
    (hm : m w = .error (.fault f) w) (hc : c₀.Comes names b ops' w c₁)
    (hexec : i.execute p block.size (c.goTo (a + i.size)) = .error f c₁) :
    Does p names c₀ m w c post :=
  .fault hm ((h.step_eq hsite hi).trans hexec) hc.has hc.same

end Config.Comes

namespace Does

variable {op : BinaryOp} {x y : Word} {slot property : Nat} {name : String} {offset : Int}

/-- A step that pushes a value. -/
theorem pushing {m : Eval Word} {size : Nat} (hm : m w = .ok v w)
    (hstep : p.step c = (Instr.push v).execute p size c₁) (h : c₀.Comes names b ops w c₁)
    (hroom : ops.length + 1 ≤ c₀.thread.stack.capacity) :
    Does p names c₀ m w c fun v w' => c₀.Comes names b (ops ++ [v]) w' :=
  .next hm (hstep.trans (execute_push h.stack hroom)) (h.withStack _)

include hsite

theorem negate (h : c₀.Comes names a (ops ++ [v]) w c) (hi : Instr.negate.StandsAt block.words a) :
    Does p names c₀ (Pure.pure (UnaryOp.neg.apply v)) w c fun v w' =>
      c₀.Comes names (a + Instr.negate.size) (ops ++ [v]) w' :=
  .next rfl ((h.step_eq hsite hi).trans (execute_negate h.stack)) ((h.goTo _).withStack _)

theorem not (h : c₀.Comes names a (ops ++ [v]) w c) (hi : Instr.not.StandsAt block.words a) :
    Does p names c₀ (Pure.pure (UnaryOp.not.apply v)) w c fun v w' =>
      c₀.Comes names (a + Instr.not.size) (ops ++ [v]) w' :=
  .next rfl ((h.step_eq hsite hi).trans (execute_not h.stack)) ((h.goTo _).withStack _)

theorem binary (h : c₀.Comes names a (ops ++ [x] ++ [y]) w c)
    (hi : (Instr.binary op).StandsAt block.words a)
    (hroom : ops.length + 1 ≤ c₀.thread.stack.capacity) :
    Does p names c₀ (Eval.ofExcept (op.apply x y)) w c fun v w' =>
      c₀.Comes names (a + (Instr.binary op).size) (ops ++ [v]) w' := by
  have hexec := (execute_binary (h.goTo (a + (Instr.binary op).size)).stack :
    (Instr.binary op).execute p block.size _ = _)
  have hrest := (h.goTo (a + (Instr.binary op).size)).withStack ops
  cases happly : op.apply x y with
  | ok v =>
    simp only [happly] at hexec
    exact pushing rfl ((h.step_eq hsite hi).trans hexec) hrest hroom
  | error f =>
    simp only [happly] at hexec
    exact h.faults hsite hi rfl hrest hexec

theorem getVariable (h : c₀.Comes names a ops w c) (hname : names.idxOf? name = some slot)
    (hi : (Instr.getVariable slot).StandsAt block.words a)
    (hroom : ops.length + 1 ≤ c₀.thread.stack.capacity) :
    Does p names c₀ (Eval.getVariable name) w c fun v w' =>
      c₀.Comes names (a + (Instr.getVariable slot).size) (ops ++ [v]) w' := by
  have hget : c.thread.getVariable slot = .ok (w.values name) := by
    rw [Thread.getVariable, h.slot_eq hsite hname]
    simp only [Except.map, Array.getD_eq_getD_getElem?, h.has.values name slot hname,
      Option.getD_some]
  exact pushing rfl ((h.step_eq hsite hi).trans (execute_getVariable hget)) (h.goTo _) hroom

theorem setVariable (h : c₀.Comes names a (ops ++ [v]) w c) (hname : names.idxOf? name = some slot)
    (hi : (Instr.setVariable slot).StandsAt block.words a) :
    Does p names c₀ (Eval.setVariable name v) w c fun _ w' =>
      c₀.Comes names (a + (Instr.setVariable slot).size) (ops ++ [v]) w' := by
  have hgo := h.goTo (a + (Instr.setVariable slot).size)
  exact .next rfl ((h.step_eq hsite hi).trans
    (execute_setVariable hgo.stack (hgo.slot_eq hsite hname))) (hgo.store hname v _)

theorem getProperty (h : c₀.Comes names a ops w c)
    (hname : p.catalog.types.globalIndex? name = some property)
    (hi : (Instr.getProperty property).StandsAt block.words a)
    (hroom : ops.length + 1 ≤ c₀.thread.stack.capacity) :
    Does p names c₀ (Eval.getProperty p.catalog.types name) w c fun v w' =>
      c₀.Comes names (a + (Instr.getProperty property).size) (ops ++ [v]) w' := by
  obtain ⟨-, hindex⟩ := TypeTable.getD_of_globalIndex? hname
  have hgo := h.goTo (a + (Instr.getProperty property).size)
  have hexec := (execute_getProperty : (Instr.getProperty property).execute p block.size
    (c.goTo (a + (Instr.getProperty property).size)) = _)
  rw [hgo.has.entity] at hexec
  cases hread : p.catalog.types.read w.entity property with
  | ok v =>
    simp only [hread] at hexec
    exact pushing (by rw [Eval.getProperty, ← hindex, hread]; rfl)
      ((h.step_eq hsite hi).trans hexec) hgo hroom
  | error f =>
    simp only [hread] at hexec
    exact h.faults hsite hi (by rw [Eval.getProperty, ← hindex, hread]; rfl) hgo hexec

theorem setProperty (h : c₀.Comes names a (ops ++ [v]) w c)
    (hname : p.catalog.types.globalIndex? name = some property)
    (hi : (Instr.setProperty property).StandsAt block.words a) :
    Does p names c₀ (Eval.setProperty p.catalog.types name v) w c fun _ w' =>
      c₀.Comes names (a + (Instr.setProperty property).size) (ops ++ [v]) w' := by
  obtain ⟨-, hindex⟩ := TypeTable.getD_of_globalIndex? hname
  have hgo := h.goTo (a + (Instr.setProperty property).size)
  have hexec := (execute_setProperty hgo.stack :
    (Instr.setProperty property).execute p block.size _ = _)
  rw [hgo.has.entity] at hexec
  cases hwrite : p.catalog.types.write w.entity property v with
  | ok e =>
    simp only [hwrite] at hexec
    have hm : Eval.setProperty p.catalog.types name v w =
        .ok () { w with entity := e, log := w.log ++ [.property name v] } := by
      rw [Eval.setProperty, ← hindex, hwrite]
    exact .next hm ((h.step_eq hsite hi).trans hexec)
      ⟨rfl, h.stack, ⟨h.has.values, rfl⟩, { h.same with }⟩
  | error f =>
    simp only [hwrite] at hexec
    exact h.faults hsite hi (by rw [Eval.setProperty, ← hindex, hwrite]) hgo hexec

theorem branchIfZeroBy (h : c₀.Comes names a (ops ++ [v]) w c)
    (hi : (Instr.branchIfZeroBy offset).StandsAt block.words a)
    (hb : ((a + 2 : Nat) : Int) + offset = b) (hle : b ≤ block.size) :
    ∃ c', p.step c = .ok .next c' ∧ c₀.Comes names (if v == 0 then b else a + 2) ops w c' := by
  have hgo := h.goTo (a + 2)
  refine ⟨_, (h.step_eq hsite hi).trans (execute_branchIfZeroBy hgo.stack hb hle), ?_⟩
  split
  · exact (hgo.withStack ops).goTo b
  · exact hgo.withStack ops

theorem jumpBy (h : c₀.Comes names a ops w c) (hi : (Instr.jumpBy offset).StandsAt block.words a)
    (hb : ((a + 2 : Nat) : Int) + offset = b) (hle : b ≤ block.size) :
    ∃ c', p.step c = .ok .next c' ∧ c₀.Comes names b ops w c' :=
  ⟨_, (h.step_eq hsite hi).trans (execute_jumpBy hb hle), (h.goTo _).goTo b⟩

end Does

end Instructions

/-! ## Expressions -/

section Expressions

variable {K : Catalog} {s : ScopeStack} {apply : String → List Word → Eval Word} {e : Expr}
  {place : Place} {code : List Instr}

/-- The names of a scope are found where its slots are. -/
theorem ScopeStack.idxOf?_of_numberSlot {name : String} {position : Position} {slot : Nat}
    (h : s.numberSlot name position = .ok slot) : s.numbers.idxOf? name = some slot := by
  cases s with
  | nil => cases h
  | cons r below =>
    simp only [numberSlot] at h
    split at h
    · next hslot => rwa [← Except.ok.inj h]
    · split at h <;> cases h

namespace Does

variable (hsite : p.Site block s.numbers.length c₀) (htypes : p.catalog.types = K.types)

include hsite htypes

/-- What can be assigned to is read. -/
theorem fetch (hp : e.place K s = .ok place) (hi : place.get.StandsAt block.words a)
    (hroom : ops.length + 1 ≤ c₀.thread.stack.capacity) (h : c₀.Comes s.numbers a ops w c) :
    Does p s.numbers c₀ (e.fetch K.types) w c fun v w' =>
      c₀.Comes s.numbers (a + place.get.size) (ops ++ [v]) w' := by
  rcases Expr.place_inv hp with ⟨name, _, slot, rfl, hslot, rfl⟩ | ⟨name, _, index, rfl, hi', rfl⟩
  · exact .getVariable hsite h (ScopeStack.idxOf?_of_numberSlot hslot) hi hroom
  · rw [← htypes] at hi' ⊢
    exact .getProperty hsite h hi' hi hroom

/-- What can be assigned to is changed. -/
theorem store (hp : e.place K s = .ok place) (hi : place.set.StandsAt block.words a)
    (h : c₀.Comes s.numbers a (ops ++ [v]) w c) :
    Does p s.numbers c₀ (e.store K.types v) w c fun _ w' =>
      c₀.Comes s.numbers (a + place.set.size) (ops ++ [v]) w' := by
  rcases Expr.place_inv hp with ⟨name, _, slot, rfl, hslot, rfl⟩ | ⟨name, _, index, rfl, hi', rfl⟩
  · exact .setVariable hsite h (ScopeStack.idxOf?_of_numberSlot hslot) hi
  · rw [← htypes] at hi' ⊢
    exact .setProperty hsite h hi' hi

end Does

/-- An evaluation that is begun anywhere goes on as expressions mean, but for calls. -/
def Program.Site.evaluator (hsite : p.Site block s.numbers.length c₀)
    (htypes : p.catalog.types = K.types) :
    Evaluator Config block.words K s apply fun _ => False where
  Holds := c₀.Comes s.numbers
  Does m w c := Does p s.numbers c₀ m w c
  Room m := m ≤ c₀.thread.stack.capacity
  mono hroom hle := Nat.le_trans hle hroom
  value h := .value h
  bind hm hk := hm.bind hk
  push hi hroom h hk :=
    .after (.step ((h.step_eq hsite hi).trans (execute_push (h.goTo _).stack hroom)) (.refl _))
      (hk _ ((h.goTo _).withStack _))
  negate hi h := .negate hsite h hi
  not hi h := .not hsite h hi
  binary hi hroom h := .binary hsite h hi hroom
  fetch hp hi hroom h := .fetch hsite htypes hp hi hroom h
  store hp hi h := .store hsite htypes hp hi h
  branchIfZeroBy hi hb hle h hk := by
    obtain ⟨c', hstep, h'⟩ := Does.branchIfZeroBy hsite h hi hb hle
    exact .after (.step hstep (.refl _)) (hk c' h')
  jumpBy hi hb hle h hk := by
    obtain ⟨c', hstep, h'⟩ := Does.jumpBy hsite h hi hb hle
    exact .after (.step hstep (.refl _)) (hk c' h')
  call hf := hf.elim

/-- What is done in an evaluation from its start on is a run. -/
theorem Does.computes (hbudget : c.thread.limits.budget = none) {m : Eval Word}
    (h : Does p names c m w c fun v w' =>
      c.Comes names a (c.thread.stack.values.toList ++ [v]) w') :
    p.Computes names c a (m w) := by
  rw [Does] at h
  split at h
  · next v w' heval =>
    obtain ⟨done, c', hexecutes, h⟩ := h
    obtain ⟨k, hk⟩ := hexecutes.run_add hbudget
    rw [heval]
    refine ⟨done, c', hexecutes, ⟨k, fun fuel => (hk fuel).1⟩, h.ip, ?_, h.has, h.same⟩
    rw [h.stack]
    exact congrArg _ (Array.toList_inj.1 (by simp))
  · next f w' heval =>
    obtain ⟨done, c', c'', hexecutes, hstep, hhas, hsame⟩ := h
    obtain ⟨k, hk⟩ := hexecutes.run_add hbudget
    have hbudget' : c'.thread.limits.budget = none := hexecutes.keeps.1 ▸ hbudget
    rw [heval]
    refine ⟨c'', ⟨k + 1, fun fuel => ?_⟩, hhas, hsame⟩
    rw [show fuel + (k + 1) = fuel + 1 + k by omega, (hk (fuel + 1)).1]
    exact Program.run_last (Program.allows_of_none hbudget') (by rw [hstep]; rfl)
  · exact h.elim

/-- The code of an expression is written exactly if it is not too long and has no index that is too
large. -/
theorem Expr.compile_fits (hcode : e.compile K s = .ok code) (hsize : Instr.sizeOf code ≤ 0x1000000)
    (hindices : ∀ i ∈ code, ∀ n ∈ i.indices, n ≤ 0x1000000) : ∀ i ∈ code, i.Fits := by
  intro i hi
  obtain ⟨b, hb⟩ := exists_mem_placed 0 hi
  have hle := (le_of_mem_placed hb).2
  have hsound := Expr.compile_sound hcode (Nat.le_refl _)
    (fun t ht => (le_of_mem_bounds ht).2 : ∀ t ∈ bounds 0 code, t ≤ 0 + Instr.sizeOf code) _ hb
  have hindex := hindices i hi
  cases i with
  | jump t | branchIfZero t =>
    simp only [Instr.Sound, Instr.Fits] at hsound ⊢
    omega
  | jumpBy offset | branchIfZeroBy offset =>
    obtain ⟨t, ht, heq⟩ := hsound
    simp only [Instr.Fits, size_jumpBy, size_branchIfZeroBy] at ht heq hle ⊢
    omega
  | fireWith firing updater =>
    exact ⟨hindex firing (by simp [Instr.indices]), hindex updater (by simp [Instr.indices])⟩
  | getVariable n | setVariable n | getProperty n | setProperty n | call n | callDelegate n
  | fire n => exact hindex n (by simp [Instr.indices])
  | push _ | pop | negate | not | binary _ | wait | ret => trivial

/-- **The code of an expression computes the expression, wherever it stands.** -/
theorem Expr.compile_computes (hcode : e.compile K s = .ok code) (hcalls : e.calls = [])
    (hsize : Instr.sizeOf code ≤ 0x1000000) (hindices : ∀ i ∈ code, ∀ n ∈ i.indices, n ≤ 0x1000000)
    (htypes : p.catalog.types = K.types) (before after : List Word)
    (hplaced : p.running c.thread =
      .ok (.ofList (before ++ code.flatMap Instr.words ++ after)))
    (hip : c.thread.ip = before.length) (hextent : s.numbers.length ≤ c.thread.window.2)
    (hslots : c.thread.window.1 + s.numbers.length ≤ c.thread.slots.size)
    (hroom : c.thread.stack.size + e.height ≤ c.thread.stack.capacity)
    (hbudget : c.thread.limits.budget = none) (apply : String → List Word → Eval Word) :
    p.Computes s.numbers c (before.length + Instr.sizeOf code)
      (e.eval K.types apply (World.ofConfig s.numbers c)) := by
  have hsite : p.Site (.ofList (before ++ code.flatMap Instr.words ++ after)) s.numbers.length c :=
    ⟨hplaced, hextent, hslots⟩
  have hstand := allStand_of_fits (Expr.compile_fits hcode hsize hindices) before after
  have hstart : c.Comes s.numbers before.length c.thread.stack.values.toList
      (World.ofConfig s.numbers c) c := ⟨hip, rfl, .ofConfig hslots, .refl _ c⟩
  have hroom' : c.thread.stack.values.toList.length + e.height ≤ c.thread.stack.capacity := hroom
  have hend : before.length + Instr.sizeOf code ≤
      (Code.ofList (before ++ code.flatMap Instr.words ++ after)).words.size := by
    simp only [Code.ofList, List.size_toArray, List.length_append, length_flatMap_words]
    omega
  exact Does.computes hbudget (Expr.evaluates (hsite.evaluator htypes) hcode (by simp [hcalls])
    hstand hend hroom' hstart)

end Expressions

/-- An assignment in the operand of another one to the same variable, `x += (x = 5)`. -/
def Expr.reassign : Expr :=
  .assign (.combined .add) (.var "x" .nowhere)
    (.assign .plain (.var "x" .nowhere) (.num 5 .nowhere) .nowhere) .nowhere

/-- The code of that assignment. -/
def Expr.reassignCode : List Instr :=
  [.getVariable 0, .push 5, .setVariable 0, .binary .add, .setVariable 0]

/-- A thread before the third word of its code, with a variable and with an operand that somebody
else has left. -/
def Config.amidst : Config where
  thread :=
    { limits := { budget := none }, stack := ⟨4, #[1]⟩, slots := #[3], handles := #[], ip := 2 }
  entity := ⟨0, #[]⟩

theorem Expr.reassign_computes :
    (⟨{}, .ofList ([7, 7] ++ Expr.reassignCode.flatMap Instr.words ++ [7]), false⟩ :
      Program).Computes ["x"] .amidst (2 + Instr.sizeOf Expr.reassignCode)
      (Expr.reassign.eval {} (fun _ _ => pure 0) (World.ofConfig ["x"] .amidst)) :=
  Expr.compile_computes (K := {}) (s := [{ numbers := ["x"] }]) (by decide +kernel) rfl
    (by decide +kernel) (by decide +kernel) rfl [7, 7] [7] rfl rfl (by decide +kernel)
    (by decide +kernel) (by decide +kernel) rfl _

end Danmaku
