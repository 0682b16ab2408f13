import Danmaku.Proofs.Machine.Trace
import Danmaku.Proofs.Safety.Isolation
import Danmaku.Proofs.Safety.Strict

/-!
# The strict machine does not break

Whatever a host has done with a thread, and whatever words the code is made of, a tick of the strict
machine ends as a tick of the machine does, so it does not break (`Thread.Hosted.unbroken`). The
code has to be one that a host can hold, and its jumps by a distance must not be so long that their
targets are no numbers any more (`Code.Runnable`).

Every operation is compared with that of the machine, under what holds of a thread at all times: its
stores have their sizes, and the slots of its calls lie within them (`Thread.Sized`).
-/

namespace Danmaku

/-- How far an instruction jumps by a distance. -/
def Instr.offset : Instr → Int
  | jumpBy offset | branchIfZeroBy offset => offset
  | _ => 0

/-- Code that fits in memory and has no jumps beyond all bounds. The words are arbitrary apart from
that. -/
structure Code.Runnable (code : Code) : Prop where
  size : code.size ≤ 0x2000000000000000
  offset : ∀ address i next, Instr.decode code.words address = .ok (i, next) →
    i.offset < 0x4000000000000000

/-- Limits whose numbers a host can hold, and which set a budget. -/
structure Limits.Budgeted (limits : Limits) : Prop where
  slots : limits.slots < 0x10000000000000000
  budget : ∃ budget < 0x100000000, limits.budget = some budget

namespace Strict

/-- A result of the machine, as one of the strict machine. -/
def ofResult {α : Type} (x : Except Fault α) : Except Abort α := x.mapError .fault

@[simp] theorem ofResult_ok {α : Type} (a : α) : ofResult (.ok a) = .ok a := rfl

/-! ## Numbers and arrays -/

theorem require_of {P : Prop} [Decidable P] (h : P) : require P = .ok () := if_pos h

theorem add_of_lt {m n : Nat} (h : m + n < 0x10000000000000000) : add m n = .ok (m + n) := by
  rw [add, require_of h]
  rfl

theorem sub_of_le {m n : Nat} (h : n ≤ m) : sub m n = .ok (m - n) := by
  rw [sub, require_of h]
  rfl

theorem addSigned_of {m n : Int}
    (h : -0x8000000000000000 ≤ m + n ∧ m + n < 0x8000000000000000) :
    addSigned m n = .ok (m + n) := by
  rw [addSigned, require_of h]
  rfl

theorem next_of_lt {n : Nat} (h : n + 1 < 0x100000000) : next n = .ok (n + 1) := by
  rw [next, require_of h]
  rfl

theorem read_of_lt {α : Type} {xs : Array α} {i : Nat} (h : i < xs.size) (default : α) :
    read xs i = .ok (xs.getD i default) := by
  rw [read, Array.getElem?_eq_getElem h, Array.getD, dif_pos h]
  rfl

/-- A place that a search has found has an entry, which is the one that is searched for. -/
theorem entry_of_findIdx? {α : Type} {isIt : α → Bool} {xs : List α} {i : Nat}
    (h : xs.findIdx? isIt = some i) : ∃ x, entry xs[i]? = .ok x ∧ xs.find? isIt = some x := by
  obtain ⟨hlt, -⟩ := List.findIdx?_eq_some_iff_getElem.1 h
  refine ⟨xs[i], ?_, ?_⟩
  · rw [List.getElem?_eq_getElem hlt]
    rfl
  · rw [List.find?_eq_bind_findIdx?_getElem?, h, Option.bind_some, List.getElem?_eq_getElem hlt]

/-! ## Computations -/

section

variable {α β : Type} {m : StrictM α} {m' : Exec α} {k : α → StrictM β} {k' : α → Exec β}
  {c : Config}

theorem plain_apply (m : Exec α) (c : Config) : plain m c =
    match m c with
    | .ok a c => .ok a c
    | .error f c => .error (.fault f) c := rfl

theorem plain_bind (m : Exec α) (k : α → Exec β) :
    plain (m >>= k) = plain m >>= fun a => plain (k a) := by
  funext c
  rw [plain, show (m >>= k) c = EStateM.bind m k c from rfl, EStateM.bind,
    show (plain m >>= fun a => plain (k a)) c =
      EStateM.bind (plain m) (fun a => plain (k a)) c from rfl, EStateM.bind, plain]
  cases m c <;> rfl

/-- One computation after another, each of which is as on the machine. -/
theorem bind_eq (hm : m c = plain m' c) (hk : ∀ a c', m' c = .ok a c' → k a c' = plain (k' a) c') :
    (m >>= k) c = plain (m' >>= k') c := by
  rw [plain_bind, show (m >>= k) c = EStateM.bind m k c from rfl,
    show (plain m' >>= fun a => plain (k' a)) c =
      EStateM.bind (plain m') (fun a => plain (k' a)) c from rfl, EStateM.bind, EStateM.bind, hm,
    plain]
  cases h : m' c with
  | ok a c' => exact hk a c' h
  | error f c' => rfl

theorem ofExcept_eq {f : Config → Except Abort α} {g : Config → Except Fault α}
    (h : f c = ofResult (g c)) : ofExcept f c = plain (Exec.ofExcept g) c := by
  rw [ofExcept, plain, Exec.ofExcept, h]
  cases g c <;> rfl

theorem bind_of_ok {a : α} {c' : Config} (h : m c = .ok a c') : (m >>= k) c = k a c' := by
  rw [show (m >>= k) c = EStateM.bind m k c from rfl, EStateM.bind, h]

theorem bind_of_error {abort : Abort} {c' : Config} (h : m c = .error abort c') :
    (m >>= k) c = .error abort c' := by
  rw [show (m >>= k) c = EStateM.bind m k c from rfl, EStateM.bind, h]

theorem bind_ofExcept_ok {f : Config → Except Abort α} {a : α} (h : f c = .ok a) :
    (ofExcept f >>= k) c = k a c :=
  bind_of_ok (by rw [ofExcept, h])

theorem bind_ofExcept_error {f : Config → Except Abort α} {abort : Abort} (h : f c = .error abort) :
    (ofExcept f >>= k) c = .error abort c :=
  bind_of_error (by rw [ofExcept, h])

theorem bind_ofExcept_eq {f : Config → Except Abort α} {result : Except Fault α} :
    f c = ofResult result → (ofExcept f >>= k) c =
      match result with
      | .ok a => k a c
      | .error fault => .error (.fault fault) c := by
  intro h
  cases result with
  | ok a => exact bind_ofExcept_ok h
  | error fault => exact bind_ofExcept_error h

end

/-! ## Instructions -/

section

variable {words : Array Word} {a n : Nat}

theorem operand_eq (hsize : words.size ≤ 0x2000000000000000) (h : a + 1 + n < words.size) :
    operand words a n = .ok (words.getD (a + 1 + n) 0) := by
  rw [operand, add_of_lt (by omega)]
  simp only [bind, Except.bind]
  rw [add_of_lt (by omega)]
  exact read_of_lt h 0

theorem index_eq (hsize : words.size ≤ 0x2000000000000000) (h : a + 1 + n < words.size) :
    index words a n = ofResult (Instr.readIndex words (a + 1 + n)) := by
  rw [index, operand_eq hsize h, Instr.readIndex]
  simp only [bind, Except.bind]
  cases (words.getD (a + 1 + n) 0).toIndex? with
  | some i => rfl
  | none =>
    simp only
    rw [add_of_lt (by omega)]
    simp only
    rw [add_of_lt (by omega)]
    rfl

theorem readOperands_eq (hsize : words.size ≤ 0x2000000000000000) (opcode : Opcode)
    (h : a + 1 + opcode.operandCount ≤ words.size) :
    readOperands words a opcode = ofResult (Instr.readOperands words a opcode) := by
  have indexed (make : Nat → Instr) (h : a + 1 + 1 ≤ words.size) :
      (do return make (← index words a 0)) =
        ofResult ((Instr.readIndex words (a + 1)).map make) := by
    rw [index_eq hsize (by omega)]
    cases Instr.readIndex words (a + 1 + 0) <;> rfl
  cases opcode with
  | push | jumpBy | branchIfZeroBy =>
    rw [readOperands, operand_eq hsize h]
    rfl
  | jump | branchIfZero | getVariable | setVariable | getProperty | setProperty | call
  | callDelegate | fire => exact indexed _ h
  | fireWith =>
    have h : a + 1 + 2 ≤ words.size := h
    rw [readOperands, index_eq hsize (by omega), index_eq hsize (by omega), Instr.readOperands]
    cases Instr.readIndex words (a + 1 + 0) with
    | error f => rfl
    | ok firing => cases Instr.readIndex words (a + 1 + 1) <;> rfl
  | pop | negate | not | binary op | wait | ret => rfl

theorem decode_eq (hsize : words.size ≤ 0x2000000000000000) (a : Nat) :
    decode words a = ofResult (Instr.decode words a) := by
  rw [decode, Instr.decode]
  cases hw : words[a]? with
  | none => rfl
  | some word =>
    have hlt : a < words.size := (Array.getElem?_eq_some_iff.1 hw).1
    simp only
    cases Opcode.ofWord? word with
    | none => rfl
    | some opcode =>
      have hcount : opcode.operandCount ≤ 2 := by cases opcode <;> simp [Opcode.operandCount]
      rw [add_of_lt (by omega)]
      simp only [bind, Except.bind]
      rw [add_of_lt (by omega)]
      simp only
      split
      · rfl
      · next hle =>
        rw [readOperands_eq hsize opcode (by omega)]
        cases Instr.readOperands words a opcode <;> rfl

end

/-! ## Threads -/

section

variable {limits : Limits} {t : Thread} {i : Nat} {v : Word}

/-- The slots of the innermost code are there. -/
theorem window_le (h : t.Sized limits) {base extent : Nat} (hw : t.window = (base, extent)) :
    base + extent ≤ t.slots.size := by
  cases hframes : t.frames with
  | nil =>
    rw [Thread.window, hframes] at hw
    obtain ⟨rfl, rfl⟩ := Prod.mk.inj hw
    exact (Nat.zero_add _).le
  | cons f frames =>
    have htiled := h.tiled
    rw [hframes] at htiled
    rw [Thread.window_of_frames hframes] at hw
    obtain ⟨rfl, rfl⟩ := Prod.mk.inj hw
    rw [h.slots]
    exact htiled.1.trans_le htiled.2.topOf_le

theorem slot_eq (h : t.Sized limits) (hlimits : limits.Budgeted) :
    slot t i = ofResult (t.slot i) := by
  have hslots := hlimits.slots
  rw [← h.slots] at hslots
  cases hw : t.window with
  | mk base extent =>
    have hwindow := window_le h hw
    simp only [slot, Thread.slot, hw]
    split
    · exact add_of_lt (by omega)
    · rfl

theorem slot_lt (h : t.Sized limits) {slot : Nat} (hslot : t.slot i = .ok slot) :
    slot < t.slots.size := by
  cases hw : t.window with
  | mk base extent =>
    have hwindow := window_le h hw
    simp only [Thread.slot, hw] at hslot
    split at hslot
    · obtain rfl := Except.ok.inj hslot
      omega
    · cases hslot

theorem getVariable_eq (h : t.Sized limits) (hlimits : limits.Budgeted) :
    getVariable t i = ofResult (t.getVariable i) := by
  rw [getVariable, slot_eq h hlimits, Thread.getVariable]
  cases hslot : t.slot i with
  | error f => rfl
  | ok slot => exact read_of_lt (slot_lt h hslot) 0

theorem setVariable_eq (h : t.Sized limits) (hlimits : limits.Budgeted) :
    setVariable t i v = ofResult ((t.slot i).map fun slot => t.store i slot v) := by
  have hslots := hlimits.slots
  rw [← h.slots] at hslots
  rw [setVariable, slot_eq h hlimits]
  cases hslot : t.slot i with
  | error f => rfl
  | ok slot =>
    have hlt := slot_lt h hslot
    cases hframes : t.frames with
    | nil =>
      have hi : i < t.slots.size := by
        simp only [Thread.slot, Thread.window, hframes] at hslot
        split at hslot
        · assumption
        · cases hslot
      simp only [ofResult_ok, bind, Except.bind, List.isEmpty_nil, if_true]
      rw [add_of_lt (by omega), require_of hlt]
      simp only [Except.map, Thread.store, hframes, List.isEmpty_nil, if_true]
      rfl
    | cons f frames =>
      simp only [ofResult_ok, bind, Except.bind, List.isEmpty_cons, Bool.false_eq_true, if_false]
      rw [require_of hlt]
      simp only [Except.map, Thread.store, hframes, List.isEmpty_cons, Bool.false_eq_true,
        if_false]
      rfl

theorem reserve_eq (t : Thread) (n : Nat) : reserve t n = ofResult (t.reserve n) := by
  rw [reserve, Thread.reserve]
  split
  · rw [sub_of_le (by omega)]
    rfl
  · rfl

end

/-! ## Properties -/

section

variable {types : TypeTable} {e : Entity} {g : Nat}

theorem resolve_eq : resolve types e g = ofResult (types.resolve e g) := by
  unfold resolve TypeTable.resolve
  cases types.propertyNames[g]? with
  | none => rfl
  | some name =>
    cases hi : types.types.findIdx? fun type => decide (type.host = e.host) with
    | none =>
      have hnone : types.ofHost? e.host = none :=
        List.find?_eq_none.2 (by simpa using List.findIdx?_eq_none_iff.1 hi)
      simp only [hnone]
      rfl
    | some i =>
      obtain ⟨type, hentry, htype⟩ := entry_of_findIdx? hi
      have htype : types.ofHost? e.host = some type := htype
      simp only [htype, hentry, bind, Except.bind]
      cases hj : type.properties.findIdx? fun p => decide (p.globalIndex? = some g) with
      | none =>
        have hnone : type.propertyAt? g = none :=
          List.find?_eq_none.2 (by simpa using List.findIdx?_eq_none_iff.1 hj)
        simp only [hnone]
        rfl
      | some j =>
        obtain ⟨property, hentry, hproperty⟩ := entry_of_findIdx? hj
        have hproperty : type.propertyAt? g = some property := hproperty
        simp only [hproperty, hentry]
        rfl

theorem readProperty_eq : readProperty types e g = ofResult (types.read e g) := by
  rw [readProperty, resolve_eq, TypeTable.read]
  cases types.resolve e g with
  | error f => rfl
  | ok property =>
    simp only [ofResult_ok, bind, Except.bind]
    cases property.accessor.read? e <;> rfl

theorem writeProperty_eq {v : Word} :
    writeProperty types e g v = ofResult (types.write e g v) := by
  rw [writeProperty, resolve_eq, TypeTable.write]
  cases types.resolve e g with
  | error f => rfl
  | ok property =>
    simp only [ofResult_ok, bind, Except.bind]
    cases property.accessor.write? e v <;> rfl

end

/-! ## Steps -/

theorem toOffset_ge (w : Word) : -0x8000000000000000 ≤ w.toOffset := by
  rw [Word.toOffset]
  split
  · omega
  · split <;> omega

/-- No jump is longer than 64 bits can say. -/
theorem offset_ge {words : Array Word} {a next : Nat} {i : Instr}
    (h : Instr.decode words a = .ok (i, next)) : -0x8000000000000000 ≤ i.offset := by
  have hread := Instr.readOperands_of_decode h
  cases i with
  | jumpBy offset =>
    obtain rfl := Instr.jumpBy.inj (Except.ok.inj hread)
    exact toOffset_ge _
  | branchIfZeroBy offset =>
    obtain rfl := Instr.branchIfZeroBy.inj (Except.ok.inj hread)
    exact toOffset_ge _
  | _ => simp [Instr.offset]

section

variable {limits : Limits} {p : Program} {c c' : Config} {size n : Nat} {offset : Int}

/-- A number of 64 bits does not wrap around. -/
theorem bmod_of_mem {n : Int} (hlow : -0x8000000000000000 ≤ n) (hhigh : n < 0x8000000000000000) :
    Int.bmod n 0x10000000000000000 = n :=
  Int.bmod_eq_of_le_mul_two (by omega) (by omega)

theorem jumpBy_eq (hlow : -0x8000000000000000 ≤ offset)
    (hhigh : c.thread.ip + offset < 0x8000000000000000) :
    jumpBy size offset c = plain (Exec.jumpBy size offset) c := by
  have hsum : -0x8000000000000000 ≤ c.thread.ip + offset ∧
      c.thread.ip + offset < 0x8000000000000000 := ⟨by omega, hhigh⟩
  rw [jumpBy, bind_ofExcept_ok (addSigned_of hsum), plain, Exec.jumpBy]
  by_cases hin : 0 ≤ c.thread.ip + offset ∧ c.thread.ip + offset ≤ size
  · rw [if_pos hin, if_pos hin]
    rfl
  · rw [if_neg hin, if_neg hin, bmod_of_mem hsum.1 hsum.2]
    rfl

/-- A sum that is too large breaks the strict machine. The machine finds it out of range. -/
theorem jumpBy_overflow (hsize : size ≤ 0x2000000000000000)
    (hover : 0x8000000000000000 ≤ c.thread.ip + offset) :
    jumpBy size offset c = .error .broken c ∧ ∃ x,
      Exec.jumpBy size offset c = .error (.jumpOutOfRange x size) c := by
  have hbroken : addSigned c.thread.ip offset = .error .broken := by
    rw [addSigned, require, if_neg (by omega)]
    rfl
  refine ⟨bind_ofExcept_error hbroken, _, Exec.jumpBy_eq_error.2 ⟨by omega, rfl, rfl⟩⟩

theorem assignProperty_eq {types : TypeTable} {g : Nat} :
    assignProperty types g c = plain (Exec.setProperty types g) c := by
  rw [assignProperty, Exec.setProperty]
  refine bind_eq rfl fun value c₁ _ => ?_
  rw [bind_ofExcept_eq writeProperty_eq]
  simp only [plain]
  cases types.write c₁.entity g value <;> rfl

theorem popMany_eq : popMany n c = plain (Exec.onStack (Stack.popMany n)) c := by
  rw [popMany]
  by_cases hlt : c.thread.stack.size < n
  · rw [bind_ofExcept_error (if_pos hlt), plain, Exec.onStack]
    simp only [Stack.popMany, show c.thread.stack.values.size < n from hlt, if_true]
  · rw [bind_ofExcept_ok ((if_neg hlt).trans (sub_of_le (by omega)))]

theorem assign_eq {i : Nat} (h : c.thread.Sized limits) (hlimits : limits.Budgeted) :
    assign i c = plain (Exec.setVariable i) c := by
  rw [assign, Exec.setVariable]
  refine bind_eq rfl fun value c₁ hvalue => ?_
  obtain ⟨s, hs, rfl⟩ := Exec.onStack_eq_ok.1 hvalue
  obtain ⟨-, rfl⟩ := Stack.peek_eq_ok.1 hs
  rw [Config.withStack_self rfl, bind_ofExcept_eq (setVariable_eq h hlimits), plain_bind]
  simp only [bind, EStateM.bind, plain, Exec.ofExcept]
  cases c.thread.slot i <;> rfl

theorem base_eq (t : Thread) (extent : Nat) : base t extent = ofResult
    (if t.limits.depth ≤ t.frames.length then .error (.callDepthExceeded t.limits.depth)
    else if extent ≤ top t ∧ t.rootExtent ≤ top t - extent then .ok (top t - extent)
    else .error (.variableOutOfRange extent)) := by
  rw [base]
  split
  · rfl
  · split <;> rfl

theorem top_le {t : Thread} (h : t.Sized limits) : top t ≤ t.slots.size := by
  rw [show top t = t.top from rfl, Thread.top_eq, h.slots]
  exact h.tiled.topOf_le

/-- The slots of an opened call are there, and enough for its arguments. -/
theorem checkRange_eq {t : Thread} {extent base arguments : Nat} (h : t.Sized limits)
    (hbase : Strict.base t extent = .ok base) (harguments : arguments ≤ extent) :
    checkRange t base arguments = .ok () := by
  have htop := top_le h
  have hle : extent ≤ top t ∧ base = top t - extent := by
    rw [Strict.base] at hbase
    split at hbase
    · cases hbase
    · split at hbase
      · next hroom => exact ⟨hroom.1, (Except.ok.inj hbase).symm⟩
      · cases hbase
  rw [checkRange, require_of (by omega)]
  exact require_of (by omega)

/-- As many values are taken as were asked for. -/
theorem length_of_popMany {values : List Word}
    (h : Exec.onStack (Stack.popMany n) c = .ok values c') : values.length = n := by
  obtain ⟨s, hs, -⟩ := Exec.onStack_eq_ok.1 h
  obtain ⟨hle, rfl, -⟩ := Stack.popMany_eq_ok.1 hs
  rw [Stack.size] at hle ⊢
  rw [Array.length_toList, Array.size_extract]
  omega

theorem call_eq (h : c.thread.Sized limits) {functions : RoutineTable} {function : Nat}
    (hfunctions : ∀ callee, functions.at? function = some callee →
      callee.parameterCount ≤ callee.variableCount) :
    call functions function c = plain (Exec.call functions function) c := by
  rw [call, Exec.call]
  refine bind_eq (ofExcept_eq ?_) fun callee c₁ hcallee => ?_
  · cases functions.at? function <;> rfl
  obtain ⟨hfound, rfl⟩ := Exec.ofExcept_eq_ok.1 hcallee
  have hparameters : callee.parameterCount ≤ callee.variableCount := by
    cases hat : functions.at? function with
    | none =>
      rw [hat] at hfound
      cases hfound
    | some callee' =>
      rw [hat] at hfound
      exact Except.ok.inj hfound ▸ hfunctions callee' hat
  refine bind_eq (ofExcept_eq (base_eq c₁.thread _)) fun base c₂ hbase => ?_
  obtain ⟨hbase, rfl⟩ := Exec.ofExcept_eq_ok.1 hbase
  have hbase : Strict.base c₂.thread callee.variableCount = .ok base :=
    (base_eq _ _).trans (congrArg ofResult hbase)
  refine bind_eq popMany_eq fun arguments c₃ harguments => ?_
  have hlength := length_of_popMany harguments
  obtain ⟨s, hs, rfl⟩ := Exec.onStack_eq_ok.1 harguments
  have hsized : (c₂.withStack s).thread.Sized limits :=
    h.of_quiet (.withStack (Stack.fits_popMany _ |>.of_ok hs))
  exact bind_ofExcept_ok (checkRange_eq hsized hbase (hlength.trans_le hparameters))

theorem shoot_eq {shot : Shot} (h : shot.arguments.length = shot.function.arity) :
    shoot shot c = plain (Exec.shoot shot) c := bind_ofExcept_ok (require_of h)

/-- **An instruction is executed as on the machine**, if it does not jump too far. -/
theorem execute_eq (h : c.thread.Sized limits) (hlimits : limits.Budgeted)
    (hK : p.catalog.Declared) {i : Instr} (hlow : -0x8000000000000000 ≤ i.offset)
    (hhigh : c.thread.ip + i.offset < 0x8000000000000000) :
    execute p size i c = plain (i.execute p size) c := by
  cases i with
  | jumpBy offset =>
    exact bind_eq (jumpBy_eq hlow hhigh) fun _ _ _ => rfl
  | branchIfZeroBy offset =>
    refine bind_eq rfl fun b c' hb => ?_
    cases b with
    | false => rfl
    | true =>
      obtain ⟨v, -, -, rfl⟩ := Exec.popIsZero_eq_ok.1 hb
      exact bind_eq (jumpBy_eq hlow hhigh) fun _ _ _ => rfl
  | getVariable slot =>
    exact bind_eq (ofExcept_eq (getVariable_eq h hlimits)) fun _ _ _ => bind_eq rfl fun _ _ _ => rfl
  | setVariable slot => exact bind_eq (assign_eq h hlimits) fun _ _ _ => rfl
  | getProperty property =>
    exact bind_eq (ofExcept_eq readProperty_eq) fun _ _ _ => bind_eq rfl fun _ _ _ => rfl
  | setProperty property => exact bind_eq assignProperty_eq fun _ _ _ => rfl
  | call function =>
    exact bind_eq (call_eq h fun callee hat => hK.parameterCount_le hat) fun _ _ _ => rfl
  | fire index =>
    refine bind_eq rfl fun function c₁ _ => bind_eq popMany_eq fun arguments c₂ harguments => ?_
    exact bind_eq (shoot_eq (length_of_popMany harguments)) fun _ _ _ => rfl
  | fireWith index updater =>
    refine bind_eq rfl fun function c₁ _ => bind_eq (ofExcept_eq ?_) fun routine c₂ _ =>
      bind_eq popMany_eq fun _ c₃ _ => bind_eq popMany_eq fun arguments c₄ harguments => ?_
    · cases p.catalog.bulletUpdater? updater <;> rfl
    · exact bind_eq (shoot_eq (length_of_popMany harguments)) fun _ _ _ => rfl
  | _ => rfl

/-- An instruction that jumps too far, if it jumps, breaks the strict machine where the machine
faults. -/
theorem execute_overflow {i : Instr} (hip : c.thread.ip ≤ 0x2000000000000000)
    (hsize : size ≤ 0x2000000000000000) (hover : 0x8000000000000000 ≤ c.thread.ip + i.offset) :
    execute p size i c = plain (i.execute p size) c ∨
      ∃ x c', i.execute p size c = .error (.jumpOutOfRange x size) c' ∧
        execute p size i c = .error .broken c' ∧ c'.thread.ip = c.thread.ip ∧
        c'.thread.frames = c.thread.frames := by
  cases i with
  | jumpBy offset =>
    obtain ⟨hstrict, x, hjump⟩ := jumpBy_overflow hsize hover
    exact .inr ⟨x, c, Exec.bind_eq_error.2 (.inl hjump), bind_of_error hstrict, rfl, rfl⟩
  | branchIfZeroBy offset =>
    cases hpop : Exec.popIsZero c with
    | error f c₁ =>
      exact .inl (bind_eq rfl fun a c₂ hok => by rw [hpop] at hok; cases hok)
    | ok zero c₁ =>
      cases zero with
      | false =>
        refine .inl (bind_eq rfl fun a c₂ hok => ?_)
        rw [hpop] at hok
        cases hok
        rfl
      | true =>
        obtain ⟨v, -, -, hc₁⟩ := Exec.popIsZero_eq_ok.1 hpop
        have hip₁ : c₁.thread.ip = c.thread.ip := by rw [hc₁]; rfl
        obtain ⟨hstrict, x, hjump⟩ := jumpBy_overflow hsize (hip₁ ▸ hover)
        have hzero : plain Exec.popIsZero c = .ok true c₁ := by rw [plain, hpop]
        refine .inr ⟨x, c₁, ?_, ?_, hip₁, by rw [hc₁]; rfl⟩
        · exact Exec.bind_eq_error.2 (.inr ⟨true, c₁, hpop, Exec.bind_eq_error.2 (.inl hjump)⟩)
        · exact (bind_of_ok hzero).trans (bind_of_error hstrict)
  | _ => simp only [Instr.offset] at hover; omega

/-- The instruction before the address of a thread jumps by a distance, and its target is too large
for a signed 64-bit number. -/
def Overflows (p : Program) (c : Config) : Prop :=
  ∃ code address i, p.running c.thread = .ok code ∧
    Instr.decode code.words address = .ok (i, c.thread.ip) ∧
    0x8000000000000000 ≤ c.thread.ip + i.offset

/-- A step, read off code that a host can hold. -/
theorem step_eq (hcode : ∀ code, p.running c.thread = .ok code → code.size ≤ 0x2000000000000000) :
    step p c =
      match p.running c.thread with
      | .error f => .error (.fault f) c
      | .ok code =>
        if c.thread.ip < code.size then
          match Instr.decode code.words c.thread.ip with
          | .error f => .error (.fault f) c
          | .ok (i, next) => execute p code.size i (c.goTo next)
        else plain p.fallOff c := by
  rw [step]
  cases hrun : p.running c.thread with
  | error f => exact bind_of_error (by rw [plain, Exec.ofExcept, hrun])
  | ok code =>
    have hplain : plain (Exec.ofExcept fun c => p.running c.thread) c = .ok code c := by
      rw [plain, Exec.ofExcept, hrun]
    have hget : (get : StrictM Config) c = .ok c c := rfl
    refine (bind_of_ok hplain).trans ((bind_of_ok hget).trans ?_)
    have hdecode := decode_eq (hcode code hrun) c.thread.ip
    simp only
    split
    · refine (bind_ofExcept_eq hdecode).trans ?_
      cases Instr.decode code.words c.thread.ip with
      | error f => rfl
      | ok d =>
        have hgo : plain (Exec.goTo d.2) c = .ok () (c.goTo d.2) := rfl
        exact bind_of_ok hgo
    · rfl

/-- **A step is taken as on the machine, or it breaks at a jump that is too far.** -/
theorem step_eq_or (h : c.thread.Sized limits) (hlimits : limits.Budgeted)
    (hK : p.catalog.Declared)
    (hcode : ∀ code, p.running c.thread = .ok code → code.size ≤ 0x2000000000000000) :
    step p c = plain p.step c ∨ ∃ x size c', p.step c = .error (.jumpOutOfRange x size) c' ∧
      step p c = .error .broken c' ∧ Overflows p c' := by
  rw [step_eq hcode, plain_apply p.step, p.step_eq]
  cases hrun : p.running c.thread with
  | error f => exact .inl rfl
  | ok code =>
    have hsize := hcode code hrun
    simp only
    split
    · cases hdecode : Instr.decode code.words c.thread.ip with
      | error f => exact .inl rfl
      | ok d =>
        obtain ⟨i, next⟩ := d
        have hip : next ≤ 0x2000000000000000 := (Instr.decode_inv hdecode).2.trans hsize
        by_cases hover : 0x8000000000000000 ≤ (next : Int) + i.offset
        · obtain heq | ⟨x, c', hfault, hbroken, hnext, hframes⟩ :=
            execute_overflow (p := p) (c := c.goTo next) hip hsize hover
          · exact .inl heq
          · refine .inr ⟨x, _, c', hfault, hbroken, code, c.thread.ip, i, ?_, ?_, ?_⟩
            · rw [Program.running, hframes]
              exact hrun
            · rw [hnext]
              exact hdecode
            · rw [hnext]
              exact hover
        · exact .inl (execute_eq (c := c.goTo next) (h.of_quiet (.goTo _ _)) hlimits hK
            (offset_ge hdecode) (not_le.1 hover))
    · exact .inl rfl

end

/-! ## Ticks -/

/-- Code that a host can hold, in a catalog whose code is too. -/
structure Held (p : Program) : Prop where
  declared : p.catalog.Declared
  root : p.code.size ≤ 0x2000000000000000
  functions : ∀ i r, p.catalog.function? i = some r → r.code.size ≤ 0x2000000000000000

section

variable {limits : Limits} {p : Program} {c : Config} {fuel spent patience : Nat}

/-- What holds of the root and of all functions holds of the code in which a thread is. -/
theorem of_running {P : Code → Prop} (hroot : P p.code)
    (hfunctions : ∀ i r, p.catalog.function? i = some r → P r.code) {t : Thread} {code : Code}
    (h : p.running t = .ok code) : P code := by
  rw [Program.running] at h
  split at h
  · exact Except.ok.inj h ▸ hroot
  · next f _ _ =>
    cases hat : p.catalog.function? f.function with
    | none => rw [hat] at h; cases h
    | some r =>
      rw [hat] at h
      exact Except.ok.inj h ▸ hfunctions _ _ hat

/-- Runnable code does not jump too far. -/
theorem not_overflows (hroot : p.code.Runnable)
    (hfunctions : ∀ i r, p.catalog.function? i = some r → r.code.Runnable) (c : Config) :
    ¬ Overflows p c := by
  rintro ⟨code, address, i, hrun, hdecode, hover⟩
  have hcode := of_running hroot hfunctions hrun
  have hip := (Instr.decode_inv hdecode).2.trans hcode.size
  have hoffset := hcode.offset address i _ hdecode
  omega

/-- The strict machine breaks at a jump that is too far, and the machine faults there. -/
def BreaksAt (p : Program) (result : Option (TickResult × Config))
    (strict : Option (Result × Config)) : Prop :=
  ∃ x size c, result = some (.error (.jumpOutOfRange x size), c) ∧
    strict = some (.error .broken, c) ∧ Overflows p c

theorem run_eq_or (h : c.thread.Sized limits) (hlimits : limits.Budgeted) (hp : Held p) :
    run p fuel spent c = (p.run fuel spent c).map (fun x => (ofResult x.1, x.2)) ∨
      BreaksAt p (p.run fuel spent c) (run p fuel spent c) := by
  induction fuel generalizing spent c with
  | zero => exact .inl rfl
  | succ fuel ih =>
    obtain ⟨budget, hsmall, hbudget⟩ := hlimits.budget
    have hnext := h.outcome (p.outcome c)
    rw [run, Program.run]
    by_cases hcut :
        (if p.isAtInstr c.thread then c.thread.limits.exhausted? spent else none) = none
    · have hspent : (if p.isAtInstr c.thread then next spent else .ok spent) =
          .ok (if p.isAtInstr c.thread then spent + 1 else spent) := by
        split
        · next hat =>
          have hallows : p.Allows spent c := fun _ => by rwa [if_pos hat] at hcut
          exact next_of_lt (hallows.succ_lt (h.limits_eq ▸ hbudget) hsmall hat)
        · rfl
      simp only [hcut, hspent]
      obtain hstep | ⟨x, size, c', hfault, hbroken, hover⟩ :=
        step_eq_or h hlimits hp.declared fun code hrun =>
          of_running (P := fun code => code.size ≤ 0x2000000000000000) hp.root hp.functions hrun
      · simp only [hstep, plain]
        cases hs : p.step c with
        | error f c' => exact .inl rfl
        | ok flow c' =>
          cases flow with
          | stop status => exact .inl rfl
          | next =>
            rw [hs] at hnext
            exact ih hnext
      · simp only [hfault, hbroken]
        exact .inr ⟨x, size, c', rfl, rfl, hover⟩
    · obtain ⟨spare, hspare⟩ := Option.ne_none_iff_exists'.1 hcut
      simp only [hspare]
      exact .inl rfl

/-- **A tick comes to what it comes to on the machine, or it breaks at a jump that is too far.** -/
theorem tick_eq_or (h : c.thread.Sized limits) (hlimits : limits.Budgeted) (hp : Held p) :
    tick p patience c = (p.tick patience c).map (fun x => (ofResult x.1, x.2)) ∨
      BreaksAt p (p.tick patience c) (tick p patience c) := by
  have hresume : run p (Program.fuel patience c.thread) 0
        { c with thread := { c.thread with mode := .ready } } =
          (p.resume patience c).map (fun x => (ofResult x.1, x.2)) ∨
      BreaksAt p (p.resume patience c) (run p (Program.fuel patience c.thread) 0
        { c with thread := { c.thread with mode := .ready } }) :=
    run_eq_or { h with } hlimits hp
  rw [tick, Program.tick]
  cases c.thread.mode with
  | finished => exact .inl rfl
  | ready => exact hresume
  | waiting ticks =>
    rcases ticks with _ | _ | ticks
    · exact hresume
    · exact hresume
    · exact .inl rfl

theorem tick_eq (h : c.thread.Sized limits) (hlimits : limits.Budgeted) (hK : p.catalog.Declared)
    (hroot : p.code.Runnable)
    (hfunctions : ∀ i r, p.catalog.function? i = some r → r.code.Runnable) :
    tick p patience c = (p.tick patience c).map fun x => (ofResult x.1, x.2) := by
  have hp : Held p := ⟨hK, hroot.size, fun i r hr => (hfunctions i r hr).size⟩
  refine (tick_eq_or h hlimits hp).resolve_right ?_
  rintro ⟨x, size, c', -, -, hover⟩
  exact not_overflows hroot hfunctions c' hover

theorem tickRoutine_eq {K : Catalog} {kind : RoutineKind} {index : Nat} {looping : Bool}
    (h : c.thread.Sized limits) (hlimits : limits.Budgeted) (hK : K.Declared)
    (hcode : ∀ kind i r, (K.routines kind).at? i = some r → r.code.Runnable) :
    tickRoutine K kind index looping patience c =
      (K.tick kind index looping patience c).map fun x => (ofResult x.1, x.2) := by
  rw [tickRoutine, Catalog.tick]
  cases hat : (K.routines kind).at? index with
  | none => rfl
  | some r =>
    simp only [reserve_eq]
    cases ht : c.thread.reserve r.variableCount with
    | error f => rfl
    | ok t =>
      exact tick_eq (h.reserve ht) hlimits hK (hcode kind index r hat) (hcode .function)

end

end Strict

/-! ## Threads in the hands of a host -/

/-- **Whatever the code is, the machine reads and writes within its arrays and computes with numbers
that a host has.** A tick comes to a result, on a thread that a host has used in any way, and the
strict machine comes to the same result; it faults where the machine does, and does not break. In
particular a call that is opened has a slot for each of its parameters. -/
theorem Thread.Hosted.unbroken {limits : Limits} {t : Thread} {K : Catalog}
    (h : Hosted (fun _ _ => True) limits t) (hlimits : limits.Budgeted) (hK : K.Declared)
    (hcode : ∀ kind i r, (K.routines kind).at? i = some r → r.code.Runnable) :
    (∀ (code : Code) (looping : Bool) (patience : Nat) (entity : Entity) (shots : Array Shot),
      code.Runnable → ∃ result c,
        (⟨K, code, looping⟩ : Program).tick patience ⟨t, entity, shots⟩ = some (result, c) ∧
          Strict.tick ⟨K, code, looping⟩ patience ⟨t, entity, shots⟩ =
            some (Strict.ofResult result, c)) ∧
    (∀ (kind : RoutineKind) (index : Nat) (looping : Bool) (patience : Nat) (entity : Entity)
      (shots : Array Shot), ∃ result c,
        K.tick kind index looping patience ⟨t, entity, shots⟩ = some (result, c) ∧
          Strict.tickRoutine K kind index looping patience ⟨t, entity, shots⟩ =
            some (Strict.ofResult result, c)) ∧
    ∀ function c c', Exec.call K.functions function c = .ok () c' →
      ∃ callee frame, K.function? function = some callee ∧
        c'.thread.frames = frame :: c.thread.frames ∧ frame.function = function ∧
        callee.parameterCount ≤ frame.extent := by
  have hsized := h.sized
  obtain ⟨budget, -, hbudget⟩ := hlimits.budget
  rw [← hsized.limits_eq] at hbudget
  refine ⟨fun code looping patience entity shots hrunnable => ?_,
    fun kind index looping patience entity shots => ?_, fun function c c' hcall => ?_⟩
  · obtain ⟨result, c, htick⟩ := Program.tick_of_budget (c := ⟨t, entity, shots⟩)
      ⟨K, code, looping⟩ patience hbudget
    refine ⟨result, c, htick, ?_⟩
    rw [Strict.tick_eq (p := ⟨K, code, looping⟩) (c := ⟨t, entity, shots⟩) hsized hlimits hK
      hrunnable (hcode .function), htick, Option.map_some]
  · obtain ⟨result, c, htick⟩ := K.tick_of_budget (c := ⟨t, entity, shots⟩) kind index looping
      patience hbudget
    refine ⟨result, c, htick, ?_⟩
    rw [Strict.tickRoutine_eq (c := ⟨t, entity, shots⟩) hsized hlimits hK hcode, htick,
      Option.map_some]
  · obtain ⟨callee, hat, -, -, -, -, rfl⟩ := Exec.call_eq_ok hcall
    exact ⟨callee, _, hat, rfl, rfl, hK.parameterCount_le hat⟩

/-- Whether code is runnable can be seen at its addresses. -/
theorem Code.Runnable.of_lt {code : Code} (hsize : code.size ≤ 0x2000000000000000)
    (h : ∀ address < code.size, (Instr.decode code.words address).toOption.all
      (fun x => decide (x.1.offset < 0x4000000000000000)) = true) : code.Runnable where
  size := hsize
  offset address i next hdecode := by
    have hlt : address < code.size := by
      have hnext := Instr.decode_inv hdecode
      have hpos := i.size_pos
      rw [Code.size]
      omega
    have hall := h address hlt
    rw [hdecode] at hall
    exact of_decide_eq_true hall

theorem pausing_declared : pausing.Declared := by
  have hmake : Routine.withParameters [] {} = .ok {} := rfl
  have hdeclare : ({} : Routine).declareNumber "x" {} = .ok ({ numbers := ["x"] }, 0) := rfl
  have hr := ((Routine.Declared.parameters hmake).number hdeclare).code
    (.ofList ([Instr.push 1, .wait].flatMap Instr.words))
  have hnew : ({} : RoutineTable).contains "pause" = false := by decide +kernel
  have hadd : ({} : Catalog).addRoutine .function "pause"
      { numbers := ["x"]
        code := .ofList ([Instr.push 1, .wait].flatMap Instr.words) } = .ok (0, pausing) := by
    simp only [Catalog.addRoutine, RoutineTable.add, Table.add?, Catalog.routines, hnew]
    rfl
  exact Catalog.Declared.empty.addRoutine hr hadd

/-- A thread that waits in a call is taken up again without a break. -/
theorem Thread.paused_unbroken :
    paused.limits.Budgeted ∧ pausing.Declared ∧ ∃ result c,
      (⟨pausing, .ofList (Instr.call 0).words, false⟩ : Program).tick 0 ⟨paused, ⟨0, #[]⟩, #[]⟩ =
        some (result, c) ∧
      Strict.tick ⟨pausing, .ofList (Instr.call 0).words, false⟩ 0 ⟨paused, ⟨0, #[]⟩, #[]⟩ =
        some (Strict.ofResult result, c) := by
  have hlimits : paused.limits.Budgeted := ⟨by decide, 3, by decide, rfl⟩
  have hcode : ∀ kind i r, (pausing.routines kind).at? i = some r → r.code.Runnable := by
    intro kind i r hr
    cases kind with
    | function =>
      obtain ⟨x, hx, rfl⟩ := Option.map_eq_some_iff.1 hr
      obtain rfl := List.mem_singleton.1 (Array.mem_toList_iff.2 (Array.mem_of_getElem? hx))
      exact .of_lt (by decide) (by decide +kernel)
    | action | emitterUpdater | bulletUpdater => cases hr
  refine ⟨hlimits, pausing_declared, ?_⟩
  exact (Hosted.unbroken (hosted_paused fun _ _ _ => trivial) hlimits pausing_declared hcode).1
    _ _ _ _ _ (.of_lt (by decide +kernel) (by decide +kernel))

end Danmaku
