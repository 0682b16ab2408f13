import Danmaku.Proofs.Code.Patching

/-!
# Code further on

The jumps of compiled code are absolute, so `k` words further on it is the same code with `k` added
to every absolute address in it (`Fragment.relocate`).

Words do not tell a jump that still stands open from a jump to zero, so the operands that are still
to be filled in have to be known as well to relocate words (`Code.relocate`). An address is read
back from its word as long as it is at most `2 ^ 24`. Up to there relocating the words of a fragment
comes to the words of the relocated fragment (`Fragment.relocate_words`).
-/

namespace Danmaku

/-! ## Instructions -/

namespace Instr

/-- The absolute address in an instruction, if there is one. -/
def target? : Instr → Option Nat
  | jump target | branchIfZero target => some target
  | _ => none

/-- The instruction `k` words further on. -/
def relocate (k : Nat) : Instr → Instr
  | jump target => jump (target + k)
  | branchIfZero target => branchIfZero (target + k)
  | i => i

@[simp] theorem size_relocate (k : Nat) (i : Instr) : (i.relocate k).size = i.size := by
  cases i <;> rfl

theorem relocate_of_target? {i : Instr} (h : i.target? = none) (k : Nat) : i.relocate k = i := by
  cases i with
  | jump _ | branchIfZero _ => cases h
  | _ => rfl

/-- The instructions have no absolute addresses. -/
def Relative (code : List Instr) : Prop := ∀ i ∈ code, i.target? = none

variable {i : Instr} {code rest : List Instr}

@[simp] theorem relative_nil : Relative [] := nofun

@[simp] theorem relative_cons : Relative (i :: code) ↔ i.target? = none ∧ Relative code :=
  List.forall_mem_cons

theorem relative_singleton (h : i.target? = none) : Relative [i] := List.forall_mem_singleton.2 h

@[simp] theorem relative_append : Relative (code ++ rest) ↔ Relative code ∧ Relative rest :=
  List.forall_mem_append

theorem Relative.map_relocate (h : Relative code) (k : Nat) : code.map (relocate k) = code :=
  (List.map_congr_left fun i hi => relocate_of_target? (h i hi) k).trans (List.map_id code)

end Instr

/-! ## Fragments -/

namespace Item

/-- The absolute address in an item, if there is one. An open jump has none yet. -/
def target? : Item → Option Nat
  | instr i => i.target?
  | leave | again => none

/-- The item `k` words further on. -/
def relocate (k : Nat) : Item → Item
  | instr i => instr (i.relocate k)
  | leave => leave
  | again => again

@[simp] theorem size_relocate (k : Nat) (item : Item) : (item.relocate k).size = item.size := by
  cases item with
  | instr i => exact i.size_relocate k
  | leave | again => rfl

end Item

namespace Fragment

variable (k : Nat) (f g : Fragment)

/-- The fragment `k` words further on. -/
def relocate (k : Nat) (f : Fragment) : Fragment := f.map (Item.relocate k)

@[simp] theorem relocate_append : (f ++ g).relocate k = f.relocate k ++ g.relocate k :=
  List.map_append

@[simp] theorem relocate_ofInstrs (code : List Instr) :
    (ofInstrs code).relocate k = ofInstrs (code.map (Instr.relocate k)) := by
  simp only [relocate, ofInstrs, List.map_map]
  rfl

@[simp] theorem size_relocate : (f.relocate k).size = f.size := by
  induction f with
  | nil => rfl
  | cons item f ih => simp only [relocate, List.map_cons, size, Item.size_relocate] at ih ⊢; rw [ih]

/-- A loop's targets are moved with it. -/
@[simp] theorem relocate_close (exit next : Nat) :
    (f.close exit next).relocate k = (f.relocate k).close (exit + k) (next + k) := by
  rw [relocate, close, relocate, close, List.map_map, List.map_map]
  refine List.map_congr_left fun item _ => ?_
  cases item <;> rfl

/-- The absolute addresses in a fragment are at most `n`. -/
def Below (n : Nat) (f : Fragment) : Prop := ∀ item ∈ f, ∀ target ∈ item.target?, target ≤ n

variable {f g : Fragment} {m n : Nat} {code : List Instr}

theorem Below.mono (h : f.Below m) (hle : m ≤ n) : f.Below n :=
  fun item hitem target htarget => (h item hitem target htarget).trans hle

@[simp] theorem below_append : (f ++ g).Below n ↔ f.Below n ∧ g.Below n := List.forall_mem_append

theorem below_ofInstrs :
    (ofInstrs code).Below n ↔ ∀ i ∈ code, ∀ target ∈ i.target?, target ≤ n :=
  List.forall_mem_map

theorem below_singleton {i : Instr} {target : Nat} (h : i.target? = some target)
    (hle : target ≤ n) : (ofInstrs [i]).Below n := by
  refine below_ofInstrs.2 fun j hj t ht => ?_
  obtain rfl := List.mem_singleton.1 hj
  rw [h] at ht
  exact Option.some.inj ht ▸ hle

theorem below_of_relative (h : Instr.Relative code) : (ofInstrs code).Below n :=
  below_ofInstrs.2 fun i hi target htarget => by
    rw [h i hi] at htarget
    cases htarget

theorem Below.close (h : f.Below n) {exit next : Nat} (hexit : exit ≤ n) (hnext : next ≤ n) :
    (f.close exit next).Below n := by
  refine List.forall_mem_map.2 fun item hitem target htarget => ?_
  cases item with
  | instr i => exact h _ hitem target htarget
  | leave => exact Option.some.inj htarget ▸ hexit
  | again => exact Option.some.inj htarget ▸ hnext

end Fragment

/-! ## Words -/

/-- An address `k` words further on. -/
def Word.addIndex (k : Nat) (word : Word) : Word :=
  match word.toIndex? with
  | some n => .ofNat (n + k)
  | none => word

namespace Code

/-- The operand of a line that is an absolute address. -/
def Line.target? (line : Line) : Option Nat :=
  match line.opcode? with
  | some .jump | some .branchIfZero => some (line.address + 1)
  | _ => none

/-- The operands in a block that are absolute addresses. -/
def targets (b : Code) : List Nat := b.listing.filterMap Line.target?

/-- The words of a block as they read `k` words further on. The operands in `pending` are still to
be filled in. -/
def relocate (k : Nat) (pending : List Nat) (b : Code) : List Word :=
  b.words.toList.mapIdx fun a word => if a ∈ b.targets ∧ a ∉ pending then word.addIndex k else word

/-- Operands are stepped over. -/
theorem listingFrom_operands (operands rest : List Word) (a : Nat) :
    listingFrom a operands.length (operands ++ rest) =
      listingFrom (a + operands.length) 0 rest := by
  induction operands generalizing a with
  | nil => rfl
  | cons operand operands ih =>
    rw [List.length_cons, List.cons_append, listingFrom, ih, Nat.add_right_comm, Nat.add_assoc]

/-- An instruction is listed with its own opcode. -/
theorem listingFrom_words (i : Instr) (rest : List Word) (a : Nat) :
    listingFrom a 0 (i.words ++ rest) =
      ⟨a, i.opcode.word, some i.opcode, i.operands⟩ :: listingFrom (a + i.size) 0 rest := by
  rw [Instr.words, List.cons_append, listingFrom]
  simp only [Opcode.ofWord?_word, ← i.length_operands, List.take_left, listingFrom_operands]
  rw [Instr.size, ← i.length_operands, Nat.add_assoc]

theorem Line.target?_instr (i : Instr) (a : Nat) :
    Line.target? ⟨a, i.opcode.word, some i.opcode, i.operands⟩ = i.target?.map fun _ => a + 1 := by
  cases i <;> rfl

end Code

namespace Item

/-- Whether the item jumps to an absolute address, which may not be known yet. -/
def isJump (item : Item) : Bool := (item.closed 0 0).target?.isSome

theorem words_closed (item : Item) : (item.closed 0 0).words = item.words := by
  cases item <;> rfl

theorem size_closed (item : Item) : (item.closed 0 0).size = item.size := by
  cases item <;> rfl

theorem size_pos (item : Item) : 0 < item.size := item.size_closed ▸ (item.closed 0 0).size_pos

theorem size_of_target? {item : Item} (h : item.target?.isSome) : item.size = 2 := by
  cases item with
  | leave | again => rfl
  | instr i =>
    cases i with
    | jump _ | branchIfZero _ => rfl
    | _ => cases h

theorem isSome_target? (item : Item) :
    item.target?.isSome = (item.isJump && !decide (item = leave) && !decide (item = again)) := by
  cases item <;> simp [isJump, closed, target?]

/-- In words, the operand of a jump is all that is changed further on. -/
theorem words_relocate {item : Item} (h : ∀ target ∈ item.target?, target ≤ 0x1000000) (k : Nat) :
    (item.relocate k).words = item.words.mapIdx fun j word =>
      if item.target?.isSome ∧ j = 1 then word.addIndex k else word := by
  cases item with
  | leave | again => rfl
  | instr i =>
    cases htarget : i.target? with
    | none =>
      rw [relocate, Instr.relocate_of_target? htarget]
      exact List.ext_getElem (by simp) fun j _ _ => by simp [target?, htarget]
    | some target =>
      have hindex := Word.toIndex?_ofNat (h target htarget)
      cases i with
      | jump t | branchIfZero t =>
        obtain rfl := Option.some.inj htarget
        simp [relocate, Instr.relocate, words, Instr.words, Instr.operands, Instr.opcode, target?,
          htarget, Word.addIndex, hindex]
      | _ => cases htarget

end Item

namespace Fragment

variable {f : Fragment} {a x : Nat} {p q : Item → Bool}

theorem mem_operandsOf_cons {item : Item} :
    x ∈ operandsOf p a (item :: f) ↔
      (p item ∧ x = a + 1) ∨ x ∈ operandsOf p (a + item.size) f := by
  rw [operandsOf, List.mem_append]
  cases p item <;> simp

theorem lt_of_mem_operandsOf (h : x ∈ operandsOf p a f) : a < x := by
  induction f generalizing a with
  | nil => cases h
  | cons item f ih =>
    rcases mem_operandsOf_cons.1 h with ⟨-, rfl⟩ | h
    · exact Nat.lt_succ_self a
    · exact Nat.lt_of_le_of_lt (Nat.le_add_right _ _) (ih h)

/-- No operand belongs to two items. -/
theorem mem_operandsOf_and_not :
    x ∈ operandsOf (fun item => p item && !q item) a f ↔
      x ∈ operandsOf p a f ∧ x ∉ operandsOf q a f := by
  induction f generalizing a with
  | nil => simp [operandsOf]
  | cons item f ih =>
    have hrest {p : Item → Bool} (h : x ∈ operandsOf p (a + item.size) f) : x ≠ a + 1 := by
      have := lt_of_mem_operandsOf h
      have := item.size_pos
      omega
    simp only [mem_operandsOf_cons, ih, Bool.and_eq_true, Bool.not_eq_true']
    by_cases hx : x = a + 1
    · have hp : x ∉ operandsOf p (a + item.size) f := fun h => hrest h hx
      have hq : x ∉ operandsOf q (a + item.size) f := fun h => hrest h hx
      simp [hx ▸ hp, hx ▸ hq, hx]
    · simp [hx]

/-- The listing of a fragment finds its jumps. -/
theorem targets_words (f : Fragment) (a : Nat) :
    (Code.listingFrom a 0 f.words).filterMap Code.Line.target? = operandsOf Item.isJump a f := by
  induction f generalizing a with
  | nil => rfl
  | cons item f ih =>
    rw [words_cons, ← item.words_closed, Code.listingFrom_words, item.size_closed, operandsOf, ← ih]
    cases h : (item.closed 0 0).target? <;> simp [Code.Line.target?_instr, h, Item.isJump]

/-- An open jump has a zero for its operand. -/
theorem getElem?_words_of_mem {kind : Item} (hkind : kind.words = (Instr.jump 0).words)
    (h : x ∈ operandsOf (· = kind) a f) : ∃ i, x = a + i ∧ f.words[i]? = some 0 := by
  induction f generalizing a with
  | nil => cases h
  | cons item f ih =>
    rw [words_cons]
    rcases mem_operandsOf_cons.1 h with ⟨hitem, rfl⟩ | h
    · obtain rfl := of_decide_eq_true hitem
      exact ⟨1, rfl, by rw [hkind]; rfl⟩
    · obtain ⟨i, rfl, hi⟩ := ih h
      refine ⟨item.size + i, Nat.add_assoc _ _ _, ?_⟩
      rw [← item.length_words, List.getElem?_append_right (Nat.le_add_right _ _),
        Nat.add_sub_cancel_left]
      exact hi

/-- **In words, the operands of the jumps that are not open are all that is changed further on.** -/
theorem words_relocate (h : f.Below 0x1000000) (k : Nat) (moved : Nat → Prop) [DecidablePred moved]
    (hmoved : ∀ i < f.size,
      (moved (a + i) ↔ a + i ∈ operandsOf (fun item => item.target?.isSome) a f)) :
    (f.relocate k).words =
      f.words.mapIdx fun i word => if moved (a + i) then word.addIndex k else word := by
  induction f generalizing a with
  | nil => rfl
  | cons item f ih =>
    obtain ⟨hitem, hf⟩ := List.forall_mem_cons.1 h
    have hwords : words (relocate k (item :: f)) =
        (item.relocate k).words ++ words (relocate k f) :=
      words_cons _ _
    rw [hwords, words_cons, List.mapIdx_append, item.words_relocate hitem]
    congr 1
    · refine List.mapIdx_eq_mapIdx_iff.2 fun j hj => ?_
      rw [item.length_words] at hj
      have hrest : a + j ∉ operandsOf (fun item => item.target?.isSome) (a + item.size) f :=
        fun hmem => by
          have := lt_of_mem_operandsOf hmem
          omega
      have hiff := hmoved j (by rw [size]; omega)
      simp only [mem_operandsOf_cons, hrest, or_false, Nat.add_left_cancel_iff] at hiff
      simp only [hiff]
    · have hfirst (i : Nat) (hsome : item.target?.isSome) : a + item.size + i ≠ a + 1 := by
        have := item.size_of_target? hsome
        omega
      rw [ih hf (a := a + item.size) fun i hi => ?_]
      · simp only [item.length_words]
        refine List.mapIdx_eq_mapIdx_iff.2 fun j hj => ?_
        rw [Nat.add_assoc, Nat.add_comm j]
      · have hiff := hmoved (item.size + i) (by rw [size]; omega)
        rw [mem_operandsOf_cons, ← Nat.add_assoc] at hiff
        rw [hiff, or_iff_right fun hx => hfirst i hx.1 hx.2]

/-- What is still to be filled in moves with the fragment. -/
theorem operandsOf_add (f : Fragment) (p : Item → Bool) (a k : Nat) :
    operandsOf p (a + k) f = (operandsOf p a f).map (· + k) := by
  induction f generalizing a with
  | nil => rfl
  | cons item f ih =>
    rw [operandsOf, operandsOf, Nat.add_right_comm a k item.size, ih, List.map_append]
    cases p item <;> simp [Nat.add_right_comm]

theorem operandsOf_relocate (f : Fragment) {kind : Item} (hkind : kind = .leave ∨ kind = .again)
    (k a : Nat) : operandsOf (· = kind) a (f.relocate k) = operandsOf (· = kind) a f := by
  induction f generalizing a with
  | nil => rfl
  | cons item f ih =>
    have hitem : item.relocate k = kind ↔ item = kind := by
      obtain rfl | rfl := hkind <;> cases item <;> simp [Item.relocate]
    have hcons : operandsOf (· = kind) a (relocate k (item :: f)) =
        (if decide (item.relocate k = kind) then [a + 1] else []) ++
          operandsOf (· = kind) (a + (item.relocate k).size) (relocate k f) := rfl
    rw [hcons, ih, item.size_relocate, operandsOf]
    simp only [hitem]

/-- The operands that are open in what is moved, after those that a loop has noted already. -/
theorem openJumps_relocate (f : Fragment) (k : Nat) (j : LoopJumps) :
    (f.relocate k).openJumps k j =
      ⟨j.breaks ++ (f.openJumps 0 {}).breaks.map (· + k),
        j.continues ++ (f.openJumps 0 {}).continues.map (· + k)⟩ := by
  rw [openJumps_eq, openJumps_eq, operandsOf_relocate f (.inl rfl),
    operandsOf_relocate f (.inr rfl), ← Nat.zero_add k, operandsOf_add, operandsOf_add]
  simp

/-- **The words of a fragment, `k` words further on.** -/
theorem relocate_words (h : f.Below 0x1000000) (k : Nat) :
    (f.relocate k).words =
      Code.relocate k (f.openJumps 0 {}).operands (Code.empty.append f.words) := by
  have hwords : (Code.empty.append f.words).words.toList = f.words := by
    rw [Code.toList_append]
    rfl
  have htargets : (Code.empty.append f.words).targets = operandsOf Item.isJump 0 f := by
    rw [Code.targets, Code.listing, hwords, targets_words]
  rw [Code.relocate, hwords, htargets]
  refine (words_relocate h k (a := 0) (fun x => x ∈ operandsOf Item.isJump 0 f ∧
    x ∉ (f.openJumps 0 {}).operands) fun i _ => ?_).trans ?_
  · simp only [Item.isSome_target?, mem_operandsOf_and_not, openJumps_eq, LoopJumps.operands,
      List.nil_append, List.mem_append, not_or, and_assoc]
  · simp only [Nat.zero_add]

end Fragment

end Danmaku
