import Danmaku.Proofs.Compile.Names
import Danmaku.Proofs.Machine.Execute
import Danmaku.Proofs.Machine.Recording

/-!
# Bodies under way

The meaning of a script is a computation on a world of named variables; the machine has slots, an
operand stack and open calls. An *activation* says where in a thread the body lies that is under
way, and `Activation.Holds` that a recording agrees with a world there.

`Meets` is what the code of a phrase has to do: where the computation yields a value the machine
comes to a recording of which the given property holds, where the computation faults so does the
machine, and where the computation runs out of patience the machine has taken at least that many
steps. Such statements are put together as computations are (`Meets.bind`). For each instruction
there is one such statement, about the computation that the instruction carries out.
-/

namespace Danmaku

/-! ## Activations -/

/-- Where a body lies that is under way, and what it has to leave alone. -/
structure Activation where
  /-- The code of the body. -/
  code : Code
  /-- The names of its variables by slot. -/
  names : List String
  /-- The open calls. -/
  frames : List Frame
  /-- The place of its first variable. -/
  base : Nat
  /-- How many operands there may be. -/
  capacity : Nat
  /-- How many slots belong to the root, if that does not change any more. -/
  claimed? : Option Nat
  /-- The slots as they were when the body was entered. -/
  slots : Array Word
  /-- The slots that the body leaves alone. -/
  keeps : Nat → Prop
  /-- What the root returned last. -/
  lastReturn : Option Word

namespace Activation

/-- A recording agrees with a world: the body is at an address and has some operands, its variables
have the values of their names, and the same was done. -/
structure Holds (A : Activation) (address : Nat) (ops : List Word) (w : World) (r : Recording) :
    Prop where
  ip : r.config.thread.ip = address
  frames : r.config.thread.frames = A.frames
  stack : r.config.thread.stack = ⟨A.capacity, ops.toArray⟩
  claimed : ∀ n, A.claimed? = some n → r.config.thread.rootExtent = n
  size : r.config.thread.slots.size = A.slots.size
  kept : ∀ i, A.keeps i → r.config.thread.slots[i]? = A.slots[i]?
  values : ∀ i name, A.names[i]? = some name →
    r.config.thread.slots[A.base + i]? = some (w.values name)
  entity : r.config.entity = w.entity
  log : r.log = w.log
  lastReturn : r.config.thread.lastReturn = A.lastReturn

/-- The code and the names are those of the open calls, and the names have slots of their own. -/
structure Proper (A : Activation) (p : Program) (names : List String) : Prop where
  running : ∀ t : Thread, t.frames = A.frames → p.running t = .ok A.code
  namesOf : ∀ t : Thread, t.frames = A.frames → p.namesOf names t = A.names
  slot : ∀ t : Thread, t.frames = A.frames → t.slots.size = A.slots.size →
    ∀ i < A.names.length, t.slot i = .ok (A.base + i)
  nodup : A.names.Nodup
  claimed : A.frames = [] → ∀ n, A.claimed? = some n → A.names.length ≤ n
  free : ∀ i < A.names.length, ¬ A.keeps (A.base + i)

end Activation

/-! ## Computations and runs -/

variable {p : Program} {names : List String} {excuse : Fault → Prop} {α β : Type}

/-- The next step is the last, a fault, after which the recording agrees with a world as far as can
be seen from outside. -/
def Faults (p : Program) (names : List String) (fault : Fault) (w : World) (r : Recording) : Prop :=
  ∃ r', p.advance names r = .over (.error fault) r' ∧ r'.log = w.log ∧ r'.config.entity = w.entity

/-- The run from a recording does what a computation does on a world. -/
def Meets (p : Program) (names : List String) (excuse : Fault → Prop) (m : Eval α) (w : World)
    (r : Recording) (n : Nat) (post : α → World → Recording → Prop) : Prop :=
  match m w with
  | .ok a w' => p.Leads names excuse (post a w') 0 r
  | .error (.fault fault) w' => p.Leads names excuse (Faults p names fault w') 0 r
  | .error .patience w' => p.Leads names excuse (fun r' => r'.log = w'.log) n r

namespace Meets

variable {m : Eval α} {k : α → Eval β} {w : World} {r r' : Recording} {n : Nat}
  {post : α → World → Recording → Prop} {post' : β → World → Recording → Prop}

theorem ok {a : α} {w' : World} (hm : m w = .ok a w') (h : p.Leads names excuse (post a w') 0 r) :
    Meets p names excuse m w r n post := by
  rw [Meets, hm]; exact h

theorem fault {f : Fault} {w' : World} (hm : m w = .error (.fault f) w')
    (h : Faults p names f w' r) : Meets p names excuse m w r n post := by
  rw [Meets, hm]; exact .here h

theorem value {a : α} (h : post a w r) : Meets p names excuse (pure a) w r n post :=
  ok rfl (.here h)

theorem excused {f : Fault} (hlast : p.advance names r = .over (.error f) r') (hf : excuse f) :
    Meets p names excuse m w r n post := by
  rw [Meets]
  split <;> exact .excused hlast hf

/-- One computation after another. -/
theorem bind (hm : Meets p names excuse m w r n post)
    (hk : ∀ a w' r', post a w' r' → Meets p names excuse (k a) w' r' n post') :
    Meets p names excuse (m >>= k) w r n post' := by
  rw [Meets] at hm
  rw [Meets, show (m >>= k) w = EStateM.bind m k w from rfl, EStateM.bind]
  cases hw : m w with
  | ok a w' =>
    rw [hw] at hm
    have hk := hk a w'
    simp only [Meets] at hk ⊢
    split at hk
    · simpa only [Nat.zero_add] using Program.Leads.bind hm hk
    · simpa only [Nat.zero_add] using Program.Leads.bind hm hk
    · simpa only [Nat.zero_add] using Program.Leads.bind hm hk
  | error halt w' =>
    rw [hw] at hm
    cases halt <;> exact hm

/-- A run of the machine after the computation has ended. -/
theorem before (hm : Meets p names excuse m w r n post) {goal : α → World → Recording → Prop}
    (hgoal : ∀ a w' r', post a w' r' → p.Leads names excuse (goal a w') 0 r') :
    Meets p names excuse m w r n goal := by
  rw [Meets] at hm ⊢
  split <;> rename_i heq <;> rw [heq] at hm
  · exact Program.Leads.bind hm (hgoal _ _)
  · exact hm
  · exact hm

theorem mono {l : Nat} (hm : Meets p names excuse m w r n post) (hle : l ≤ n) :
    Meets p names excuse m w r l post := by
  rw [Meets] at hm ⊢
  split <;> rename_i heq <;> rw [heq] at hm
  · exact hm
  · exact hm
  · exact Program.Leads.mono hm hle

/-- A step of the machine before the computation starts. -/
theorem step (hfirst : p.advance names r = .on r') (hm : Meets p names excuse m w r' n post) :
    Meets p names excuse m w r (n + 1) post := by
  rw [Meets] at hm ⊢
  split <;> rename_i heq <;> rw [heq] at hm
  · exact .step hfirst hm (Nat.zero_le _)
  · exact .step hfirst hm (Nat.zero_le _)
  · exact .step hfirst hm (Nat.le_refl _)

/-- A run of the machine before the computation starts. -/
theorem after {goal : Recording → Prop} (h : p.Leads names excuse goal 0 r)
    (hm : ∀ r', goal r' → Meets p names excuse m w r' n post) :
    Meets p names excuse m w r n post := by
  simp only [Meets] at hm ⊢
  split at hm
  · exact h.bind hm
  · exact h.bind hm
  · simpa only [Nat.zero_add] using h.bind hm

end Meets

/-! ## Single instructions -/

/-- An instruction that leaves no trace in the log. -/
def Instr.isSilent : Instr → Bool
  | setVariable _ | setProperty _ | fire _ | fireWith _ _ | wait => false
  | _ => true

theorem Program.effects_of_isSilent {c c' : Config} {i : Instr} (h : p.instr? c.thread = some i)
    (hs : i.isSilent = true) : p.effects names c c' = [] := by
  rw [effects, h]
  cases i with
  | setVariable _ | setProperty _ | fire _ | fireWith _ _ | wait => cases hs
  | _ => rfl

/-- The end of code leaves no trace in the log. -/
theorem Program.effects_of_end {c c' : Config} {code : Code} (h : p.running c.thread = .ok code)
    (hip : code.size ≤ c.thread.ip) : p.effects names c c' = [] := by
  have hnone : p.instr? c.thread = none := by
    simp only [instr?, h, Instr.decode, Array.getElem?_eq_none hip]
    rfl
  rw [effects, hnone]

variable {A B : Activation} {a b : Nat} {ops : List Word} {w w' : World} {r : Recording} {i : Instr}
  {n : Nat} {v : Word}

/-- A step that pushes a value. -/
theorem Meets.pushing {m : Eval Word} {c : Config} {size : Nat}
    (hstep : p.step r.config = (Instr.push v).execute p size c)
    (hquiet : ∀ c', p.effects names r.config c' = []) (hm : m w = .ok v w')
    (hc : B.Holds b ops w' ⟨c, r.log⟩)
    (hroom : B.capacity < ops.length + 1 → excuse (.stackOverflow B.capacity)) :
    Meets p names excuse m w r n fun v w' r' => B.Holds b (ops ++ [v]) w' r' := by
  by_cases hlt : ops.length < B.capacity
  · have hnext : p.advance names r =
        .on ⟨c.withStack ⟨B.capacity, (ops ++ [v]).toArray⟩, r.log⟩ := by
      rw [Program.advance, hstep, Instr.execute_push hc.stack hlt]
      simp only [hquiet, List.append_nil]
    exact .ok hm (.step hnext (.here { hc with stack := rfl }) (Nat.zero_le _))
  · have hlast : p.advance names r = .over (.error (.stackOverflow B.capacity)) ⟨c, r.log⟩ := by
      rw [Program.advance, hstep, Instr.execute_push_full hc.stack (by omega)]
    exact .excused hlast (hroom (by omega))

namespace Activation.Holds

theorem goTo (hr : A.Holds a ops w r) (b : Nat) : A.Holds b ops w ⟨r.config.goTo b, r.log⟩ :=
  { hr with ip := rfl }

theorem withStack (hr : A.Holds a ops w r) (ops' : List Word) :
    A.Holds a ops' w ⟨r.config.withStack ⟨A.capacity, ops'.toArray⟩, r.log⟩ :=
  { hr with stack := rfl }

variable (hA : A.Proper p names) (hr : A.Holds a ops w r) (hi : i.StandsAt A.code.words a)

include hA hr hi

theorem instr?_eq : p.instr? r.config.thread = some i := by
  rw [Program.instr?, hA.running _ hr.frames, hr.ip]
  simp only [hi.eq, Except.toOption, Option.map_some]

theorem step_eq : p.step r.config = i.execute p A.code.size (r.config.goTo (a + i.size)) := by
  have := Program.step_standsAt (hA.running _ hr.frames) (by rw [hr.ip]; exact hi)
  rwa [hr.ip] at this

theorem advance_next {c : Config}
    (h : i.execute p A.code.size (r.config.goTo (a + i.size)) = .ok .next c) :
    p.advance names r = .on ⟨c, r.log ++ p.effects names r.config c⟩ := by
  rw [Program.advance, hr.step_eq hA hi, h]

theorem advance_silent {c : Config} (hs : i.isSilent = true)
    (h : i.execute p A.code.size (r.config.goTo (a + i.size)) = .ok .next c) :
    p.advance names r = .on ⟨c, r.log⟩ := by
  rw [hr.advance_next hA hi h, Program.effects_of_isSilent (hr.instr?_eq hA hi) hs,
    List.append_nil]

/-- An instruction that faults where the computation does. -/
theorem faults {f : Fault} {c : Config}
    (h : i.execute p A.code.size (r.config.goTo (a + i.size)) = .error f c)
    (hc : c.entity = w.entity) :
    Faults p names f w r := by
  refine ⟨⟨c, r.log⟩, ?_, hr.log, hc⟩
  rw [Program.advance, hr.step_eq hA hi, h]

end Activation.Holds

/-! ## What instructions carry out -/

theorem TypeTable.getD_of_globalIndex? {t : TypeTable} {name : String} {index : Nat}
    (h : t.globalIndex? name = some index) :
    t.propertyNames.getD index "" = name ∧ index = t.propertyNames.idxOf name := by
  constructor
  · rw [List.getD_eq_getElem?_getD, getElem?_of_idxOf? h, Option.getD_some]
  · rw [List.idxOf_eq_getD_idxOf?, show t.propertyNames.idxOf? name = some index from h,
      Option.getD_some]

section Instructions

variable {op : BinaryOp} {x y : Word} {args rest : List Word} {target slot property : Nat}
  {name : String} {function : FiringFunction}

namespace Activation.Holds

theorem pop (hA : A.Proper p names) (hr : A.Holds a (ops ++ [v]) w r)
    (hi : Instr.pop.StandsAt A.code.words a) :
    ∃ r', p.advance names r = .on r' ∧ A.Holds (a + Instr.pop.size) ops w r' :=
  ⟨_, hr.advance_silent hA hi rfl (Instr.execute_pop hr.stack), (hr.goTo _).withStack ops⟩

theorem jump (hA : A.Proper p names) (hr : A.Holds a ops w r)
    (hi : (Instr.jump target).StandsAt A.code.words a) (ht : target ≤ A.code.size) :
    ∃ r', p.advance names r = .on r' ∧ A.Holds target ops w r' :=
  ⟨_, hr.advance_silent hA hi rfl (Instr.execute_jump ht), (hr.goTo _).goTo target⟩

theorem jumpBy {offset : Int} (target : Nat) (hA : A.Proper p names) (hr : A.Holds a ops w r)
    (hi : (Instr.jumpBy offset).StandsAt A.code.words a)
    (ht : ((a + (Instr.jumpBy offset).size : Nat) : Int) + offset = target)
    (hle : target ≤ A.code.size) :
    ∃ r', p.advance names r = .on r' ∧ A.Holds target ops w r' :=
  ⟨_, hr.advance_silent hA hi rfl (Instr.execute_jumpBy ht hle), (hr.goTo _).goTo target⟩

theorem branchIfZero (hA : A.Proper p names) (hr : A.Holds a (ops ++ [v]) w r)
    (hi : (Instr.branchIfZero target).StandsAt A.code.words a) (ht : target ≤ A.code.size) :
    ∃ r', p.advance names r = .on r' ∧
      A.Holds (if v == 0 then target else a + (Instr.branchIfZero target).size) ops w r' := by
  refine ⟨_, hr.advance_silent hA hi rfl (Instr.execute_branchIfZero hr.stack ht), ?_⟩
  split
  · exact ((hr.goTo _).withStack ops).goTo target
  · exact (hr.goTo _).withStack ops

theorem branchIfZeroBy {offset : Int} (target : Nat) (hA : A.Proper p names)
    (hr : A.Holds a (ops ++ [v]) w r)
    (hi : (Instr.branchIfZeroBy offset).StandsAt A.code.words a)
    (ht : ((a + (Instr.branchIfZeroBy offset).size : Nat) : Int) + offset = target)
    (hle : target ≤ A.code.size) :
    ∃ r', p.advance names r = .on r' ∧
      A.Holds (if v == 0 then target else a + (Instr.branchIfZeroBy offset).size) ops w r' := by
  refine ⟨_, hr.advance_silent hA hi rfl (Instr.execute_branchIfZeroBy hr.stack ht hle), ?_⟩
  split
  · exact ((hr.goTo _).withStack ops).goTo target
  · exact (hr.goTo _).withStack ops

/-- Storing a value in a slot of its own gives the name of the slot that value. -/
theorem store (hA : A.Proper p names) (hr : A.Holds a ops w r) (hname : A.names[slot]? = some name)
    (log : List Effect) :
    A.Holds a ops ⟨Function.update w.values name v, w.entity, log⟩
      ⟨{ r.config with thread := r.config.thread.store slot (A.base + slot) v }, log⟩ := by
  obtain ⟨hslot, hget⟩ := List.getElem?_eq_some_iff.1 hname
  refine { hr with claimed := ?_, size := ?_, kept := ?_, values := ?_, log := rfl }
  · intro n hn
    have hcl := hr.claimed n hn
    simp only [Thread.store, hr.frames]
    split
    · next he =>
      have := hA.claimed (List.isEmpty_iff.1 he) n hn
      omega
    · exact hcl
  · simpa only [Thread.store, Array.size_setIfInBounds] using hr.size
  · intro j hj
    have hne : A.base + slot ≠ j := by
      rintro rfl
      exact hA.free slot hslot hj
    simpa only [Thread.store, Array.getElem?_setIfInBounds_ne hne] using hr.kept j hj
  · intro j other hother
    by_cases hj : j = slot
    · subst hj
      obtain rfl : name = other := Option.some.inj (hname.symm.trans hother)
      have hlt : A.base + j < r.config.thread.slots.size :=
        (Array.getElem?_eq_some_iff.1 (hr.values j name hname)).1
      simp only [Thread.store, Array.getElem?_setIfInBounds_self_of_lt hlt, Function.update_self]
    · have hne : other ≠ name := by
        rintro rfl
        exact hj ((List.getElem?_inj hslot hA.nodup).1 (hname.trans hother.symm)).symm
      simp only [Thread.store, Function.update_of_ne hne,
        Array.getElem?_setIfInBounds_ne (show A.base + slot ≠ A.base + j by omega)]
      exact hr.values j other hother

end Activation.Holds

namespace Meets

theorem push (hA : A.Proper p names) (hr : A.Holds a ops w r)
    (hi : (Instr.push v).StandsAt A.code.words a)
    (hroom : A.capacity < ops.length + 1 → excuse (.stackOverflow A.capacity)) :
    Meets p names excuse (pure v) w r n fun v w' r' =>
      A.Holds (a + (Instr.push v).size) (ops ++ [v]) w' r' :=
  pushing (hr.step_eq hA hi)
    (fun _ => Program.effects_of_isSilent (hr.instr?_eq hA hi) rfl) rfl (hr.goTo _) hroom

theorem negate (hA : A.Proper p names) (hr : A.Holds a (ops ++ [v]) w r)
    (hi : Instr.negate.StandsAt A.code.words a) :
    Meets p names excuse (pure (UnaryOp.neg.apply v)) w r n fun v w' r' =>
      A.Holds (a + Instr.negate.size) (ops ++ [v]) w' r' := by
  have hnext := hr.advance_silent hA hi rfl (Instr.execute_negate hr.stack)
  exact .ok rfl (.step hnext (.here ((hr.goTo _).withStack _)) (Nat.zero_le _))

theorem not (hA : A.Proper p names) (hr : A.Holds a (ops ++ [v]) w r)
    (hi : Instr.not.StandsAt A.code.words a) :
    Meets p names excuse (pure (UnaryOp.not.apply v)) w r n fun v w' r' =>
      A.Holds (a + Instr.not.size) (ops ++ [v]) w' r' := by
  have hnext := hr.advance_silent hA hi rfl (Instr.execute_not hr.stack)
  exact .ok rfl (.step hnext (.here ((hr.goTo _).withStack _)) (Nat.zero_le _))

theorem binary (hA : A.Proper p names) (hr : A.Holds a (ops ++ [x] ++ [y]) w r)
    (hi : (Instr.binary op).StandsAt A.code.words a)
    (hroom : A.capacity < ops.length + 1 → excuse (.stackOverflow A.capacity)) :
    Meets p names excuse (Eval.ofExcept (op.apply x y)) w r n fun v w' r' =>
      A.Holds (a + (Instr.binary op).size) (ops ++ [v]) w' r' := by
  have hexec := (Instr.execute_binary (hr.goTo (a + (Instr.binary op).size)).stack :
    (Instr.binary op).execute p A.code.size _ = _)
  cases happly : op.apply x y with
  | ok v =>
    simp only [happly] at hexec
    exact pushing ((hr.step_eq hA hi).trans hexec)
      (fun _ => Program.effects_of_isSilent (hr.instr?_eq hA hi) rfl) rfl
      ((hr.goTo _).withStack ops) hroom
  | error f =>
    simp only [happly] at hexec
    exact fault rfl (hr.faults hA hi hexec hr.entity)

theorem getVariable (hA : A.Proper p names) (hr : A.Holds a ops w r)
    (hname : A.names[slot]? = some name)
    (hi : (Instr.getVariable slot).StandsAt A.code.words a)
    (hroom : A.capacity < ops.length + 1 → excuse (.stackOverflow A.capacity)) :
    Meets p names excuse (Eval.getVariable name) w r n fun v w' r' =>
      A.Holds (a + (Instr.getVariable slot).size) (ops ++ [v]) w' r' := by
  obtain ⟨hslot, -⟩ := List.getElem?_eq_some_iff.1 hname
  have hget : r.config.thread.getVariable slot = .ok (w.values name) := by
    rw [Thread.getVariable, hA.slot _ hr.frames hr.size slot hslot]
    simp only [Except.map, Array.getD_eq_getD_getElem?, hr.values slot name hname,
      Option.getD_some]
  exact pushing ((hr.step_eq hA hi).trans (Instr.execute_getVariable hget))
    (fun _ => Program.effects_of_isSilent (hr.instr?_eq hA hi) rfl) rfl (hr.goTo _) hroom

theorem setVariable (hA : A.Proper p names) (hr : A.Holds a (ops ++ [v]) w r)
    (hname : A.names[slot]? = some name)
    (hi : (Instr.setVariable slot).StandsAt A.code.words a) :
    Meets p names excuse (Eval.setVariable name v) w r n fun _ w' r' =>
      A.Holds (a + (Instr.setVariable slot).size) (ops ++ [v]) w' r' := by
  obtain ⟨hslot, hget⟩ := List.getElem?_eq_some_iff.1 hname
  have hnext := hr.advance_next hA hi
    (Instr.execute_setVariable (hr.goTo _).stack (hA.slot _ hr.frames hr.size slot hslot))
  have heff (c' : Config) : p.effects names r.config c' = [.variable name v] := by
    rw [Program.effects, hr.instr?_eq hA hi]
    simp only [hA.namesOf _ hr.frames, List.getD_eq_getElem?_getD, hname, Option.getD_some,
      Config.top, hr.stack, List.back?_toArray, List.getLast?_concat]
  rw [heff, hr.log] at hnext
  exact .ok rfl (.step hnext (.here ((hr.goTo _).store hA hname _)) (Nat.zero_le _))

theorem getProperty (hA : A.Proper p names) (hr : A.Holds a ops w r)
    (hname : p.catalog.types.globalIndex? name = some property)
    (hi : (Instr.getProperty property).StandsAt A.code.words a)
    (hroom : A.capacity < ops.length + 1 → excuse (.stackOverflow A.capacity)) :
    Meets p names excuse (Eval.getProperty p.catalog.types name) w r n fun v w' r' =>
      A.Holds (a + (Instr.getProperty property).size) (ops ++ [v]) w' r' := by
  obtain ⟨-, hindex⟩ := TypeTable.getD_of_globalIndex? hname
  have hexec := (Instr.execute_getProperty :
    (Instr.getProperty property).execute p A.code.size
      (r.config.goTo (a + (Instr.getProperty property).size)) = _)
  rw [(hr.goTo _).entity] at hexec
  cases hread : p.catalog.types.read w.entity property with
  | ok v =>
    simp only [hread] at hexec
    exact pushing ((hr.step_eq hA hi).trans hexec)
      (fun _ => Program.effects_of_isSilent (hr.instr?_eq hA hi) rfl)
      (by rw [Eval.getProperty, ← hindex, hread]; rfl) (hr.goTo _) hroom
  | error f =>
    simp only [hread] at hexec
    exact fault (by rw [Eval.getProperty, ← hindex, hread]; rfl) (hr.faults hA hi hexec hr.entity)

theorem setProperty (hA : A.Proper p names) (hr : A.Holds a (ops ++ [v]) w r)
    (hname : p.catalog.types.globalIndex? name = some property)
    (hi : (Instr.setProperty property).StandsAt A.code.words a) :
    Meets p names excuse (Eval.setProperty p.catalog.types name v) w r n fun _ w' r' =>
      A.Holds (a + (Instr.setProperty property).size) (ops ++ [v]) w' r' := by
  obtain ⟨hget, hindex⟩ := TypeTable.getD_of_globalIndex? hname
  have hexec := (Instr.execute_setProperty (hr.goTo (a + (Instr.setProperty property).size)).stack :
    (Instr.setProperty property).execute p A.code.size _ = _)
  rw [(hr.goTo _).entity] at hexec
  cases hwrite : p.catalog.types.write w.entity property v with
  | ok e =>
    simp only [hwrite] at hexec
    have hnext := hr.advance_next hA hi hexec
    have heff (c' : Config) : p.effects names r.config c' = [.property name v] := by
      rw [Program.effects, hr.instr?_eq hA hi]
      simp only [hget, Config.top, hr.stack, List.back?_toArray, List.getLast?_concat,
        Option.getD_some]
    rw [heff, hr.log] at hnext
    refine .ok (by rw [Eval.setProperty, ← hindex, hwrite])
      (.step hnext (.here ?_) (Nat.zero_le _))
    exact { hr.goTo _ with entity := rfl, log := rfl }
  | error f =>
    simp only [hwrite] at hexec
    exact fault (by rw [Eval.setProperty, ← hindex, hwrite]) (hr.faults hA hi hexec hr.entity)

theorem fire {firing : Nat} (hA : A.Proper p names) (hr : A.Holds a (ops ++ args) w r)
    (hf : p.catalog.firing.at? firing = some function) (ha : args.length = function.arity)
    (hi : (Instr.fire firing).StandsAt A.code.words a) :
    Meets p names excuse (Eval.note (.shot ⟨function, args, none⟩)) w r n fun _ w' r' =>
      A.Holds (a + (Instr.fire firing).size) ops w' r' := by
  have hnext := hr.advance_next hA hi (Instr.execute_fire (hr.goTo _).stack hf ha)
  rw [Program.effects, hr.instr?_eq hA hi, hr.log] at hnext
  simp only [Config.goTo, Config.withStack, Array.toList_push, List.drop_left', Array.length_toList,
    List.map_cons, List.map_nil] at hnext
  exact .ok rfl (.step hnext (.here { (hr.goTo _).withStack ops with log := rfl }) (Nat.zero_le _))

theorem fireWith {firing updater : Nat} {routine : Routine} (hA : A.Proper p names)
    (hr : A.Holds a (ops ++ args ++ rest) w r)
    (hf : p.catalog.firing.at? firing = some function) (ha : args.length = function.arity)
    (hu : p.catalog.bulletUpdater? updater = some routine)
    (hrest : rest.length = routine.parameterCount)
    (hi : (Instr.fireWith firing updater).StandsAt A.code.words a) :
    Meets p names excuse (Eval.note (.shot ⟨function, args, some ⟨updater, rest⟩⟩)) w r n
      fun _ w' r' => A.Holds (a + (Instr.fireWith firing updater).size) ops w' r' := by
  have hnext := hr.advance_next hA hi (Instr.execute_fireWith (hr.goTo _).stack hf ha hu hrest)
  rw [Program.effects, hr.instr?_eq hA hi, hr.log] at hnext
  simp only [Config.goTo, Config.withStack, Array.toList_push, List.drop_left', Array.length_toList,
    List.map_cons, List.map_nil] at hnext
  exact .ok rfl (.step hnext (.here { (hr.goTo _).withStack ops with log := rfl }) (Nat.zero_le _))

/-- A wait is noted, and the run goes on after it. -/
theorem wait (hA : A.Proper p names) (hr : A.Holds a (ops ++ [v]) w r)
    (hi : Instr.wait.StandsAt A.code.words a) :
    Meets p names excuse (Eval.note (.wait v)) w r n fun _ w' r' =>
      A.Holds (a + Instr.wait.size) ops w' r' := by
  have hnext : p.advance names r = .on
      ⟨{ r.config with thread := { r.config.thread with
          stack := ⟨A.capacity, ops.toArray⟩, ip := a + Instr.wait.size, mode := .ready } },
        r.log ++ [.wait v]⟩ := by
    rw [Program.advance, hr.step_eq hA hi, Instr.execute_wait (hr.goTo _).stack]
    simp only [Program.effects, hr.instr?_eq hA hi, Config.top, hr.stack, List.back?_toArray,
      List.getLast?_concat, Option.getD_some, Config.goTo]
  rw [hr.log] at hnext
  exact .ok rfl (.step hnext (.here { hr with ip := rfl, stack := rfl, log := rfl })
    (Nat.zero_le _))

end Meets

end Instructions

end Danmaku
