import Danmaku.Compile.Fragment
import Danmaku.Proofs.Word.Whole

/-!
# Where instructions stand

A list of instructions takes consecutive addresses (`Instr.placed`). Written as words anywhere in a
block, each instruction is read back at its address, as long as its operands are read from the words
that they are written as (`Instr.Legible.standsAt`). They are if they are small enough to be written
exactly (`Instr.Fits`, `Instr.allStand_of_fits`); so what was appended is what runs.

Reading a block through from its start meets the instructions one after another. A block walks
through a list of instructions (`Code.Walks`) if that is what such a reading finds, up to the last
word.
-/

namespace Danmaku

namespace Instr

/-! ## Addresses -/

/-- Instructions with their addresses, the first of which is given. -/
def placed : (address : Nat) → List Instr → List (Nat × Instr)
  | _, [] => []
  | address, i :: rest => (address, i) :: placed (address + i.size) rest

/-- The addresses at which an instruction stands, and the one after the last. -/
def bounds (address : Nat) (code : List Instr) : List Nat :=
  (placed address code).map Prod.fst ++ [address + sizeOf code]

@[simp] theorem size_jump (t : Nat) : (jump t).size = 2 := rfl

@[simp] theorem size_branchIfZero (t : Nat) : (branchIfZero t).size = 2 := rfl

@[simp] theorem size_jumpBy (o : Int) : (jumpBy o).size = 2 := rfl

@[simp] theorem size_branchIfZeroBy (o : Int) : (branchIfZeroBy o).size = 2 := rfl

@[simp] theorem sizeOf_nil : sizeOf [] = 0 := rfl

@[simp] theorem sizeOf_cons (i : Instr) (code : List Instr) :
    sizeOf (i :: code) = i.size + sizeOf code := rfl

@[simp] theorem sizeOf_append (code rest : List Instr) :
    sizeOf (code ++ rest) = sizeOf code + sizeOf rest := by
  induction code with
  | nil => simp
  | cons i code ih => simp only [List.cons_append, sizeOf_cons, ih]; omega

@[simp] theorem length_flatMap_words (code : List Instr) :
    (code.flatMap words).length = sizeOf code := by
  induction code with
  | nil => rfl
  | cons i code ih => rw [List.flatMap_cons, List.length_append, length_words, ih, sizeOf_cons]

@[simp] theorem placed_nil (a : Nat) : placed a [] = [] := rfl

@[simp] theorem placed_cons (a : Nat) (i : Instr) (code : List Instr) :
    placed a (i :: code) = (a, i) :: placed (a + i.size) code := rfl

@[simp] theorem placed_append (a : Nat) (code rest : List Instr) :
    placed a (code ++ rest) = placed a code ++ placed (a + sizeOf code) rest := by
  induction code generalizing a with
  | nil => simp
  | cons i code ih => simp only [List.cons_append, placed_cons, ih, sizeOf_cons, Nat.add_assoc]

theorem size_pos (i : Instr) : 0 < i.size := by simp [size]

/-- An instruction lies within the words of its list. -/
theorem le_of_mem_placed {a b : Nat} {i : Instr} {code : List Instr}
    (h : (b, i) ∈ placed a code) : a ≤ b ∧ b + i.size ≤ a + sizeOf code := by
  induction code generalizing a with
  | nil => simp at h
  | cons j code ih =>
    rcases List.mem_cons.1 h with h | h
    · obtain ⟨rfl, rfl⟩ := Prod.mk.inj h
      simp only [sizeOf_cons]; omega
    · have := ih h
      simp only [sizeOf_cons]; omega

theorem exists_mem_placed {i : Instr} {code : List Instr} (a : Nat) (h : i ∈ code) :
    ∃ b, (b, i) ∈ placed a code := by
  induction code generalizing a with
  | nil => simp at h
  | cons j code ih =>
    rcases List.mem_cons.1 h with rfl | h
    · exact ⟨a, List.mem_cons_self⟩
    · obtain ⟨b, hb⟩ := ih (a + j.size) h
      exact ⟨b, List.mem_cons_of_mem _ hb⟩

theorem le_of_mem_bounds {a b : Nat} {code : List Instr} (h : b ∈ bounds a code) :
    a ≤ b ∧ b ≤ a + sizeOf code := by
  rcases List.mem_append.1 h with h | h
  · obtain ⟨⟨b', i⟩, hmem, rfl⟩ := List.mem_map.1 h
    have := le_of_mem_placed hmem
    simp only at this ⊢
    omega
  · obtain rfl := List.mem_singleton.1 h
    omega

theorem mem_bounds_append {a b : Nat} {code rest : List Instr} :
    b ∈ bounds a (code ++ rest) ↔ b ∈ bounds a code ∨ b ∈ bounds (a + sizeOf code) rest := by
  simp only [bounds, placed_append, List.map_append, List.mem_append, List.mem_singleton,
    sizeOf_append, ← Nat.add_assoc]
  constructor
  · rintro ((h | h) | h)
    exacts [.inl (.inl h), .inr (.inl h), .inr (.inr h)]
  · rintro ((h | rfl) | h | h)
    · exact .inl (.inl h)
    · cases rest with
      | nil => simp
      | cons i rest => simp
    · exact .inl (.inr h)
    · exact .inr h

theorem start_mem_bounds (a : Nat) (code : List Instr) : a ∈ bounds a code := by
  cases code <;> simp [bounds]

theorem end_mem_bounds (a : Nat) (code : List Instr) : a + sizeOf code ∈ bounds a code := by
  simp [bounds]

/-! ## Reading instructions back -/

/-- The operands are written exactly: as an index or an address at most `2 ^ 24`, as a distance
that much either way. -/
def Fits : Instr → Prop
  | jump n | branchIfZero n | getVariable n | setVariable n | getProperty n | setProperty n
  | call n | callDelegate n | fire n => n ≤ 0x1000000
  | jumpBy offset | branchIfZeroBy offset => offset.natAbs ≤ 0x1000000
  | fireWith firing updater => firing ≤ 0x1000000 ∧ updater ≤ 0x1000000
  | push _ | pop | negate | not | binary _ | wait | ret => True

/-- The operands are read from the words that they are written as. -/
def Legible : Instr → Prop
  | jump n | branchIfZero n | getVariable n | setVariable n | getProperty n | setProperty n
  | call n | callDelegate n | fire n => (Word.ofNat n).toIndex? = some n
  | jumpBy offset | branchIfZeroBy offset => (Word.ofInt offset).toOffset = offset
  | fireWith firing updater =>
    (Word.ofNat firing).toIndex? = some firing ∧ (Word.ofNat updater).toIndex? = some updater
  | push _ | pop | negate | not | binary _ | wait | ret => True

theorem Fits.legible {i : Instr} (h : i.Fits) : i.Legible := by
  cases i with
  | jumpBy offset | branchIfZeroBy offset => exact Word.toOffset_ofInt h
  | fireWith firing updater => exact ⟨Word.toIndex?_ofNat h.1, Word.toIndex?_ofNat h.2⟩
  | jump n | branchIfZero n | getVariable n | setVariable n | getProperty n | setProperty n
  | call n | callDelegate n | fire n => exact Word.toIndex?_ofNat h
  | push _ | pop | negate | not | binary _ | wait | ret => trivial

/-- The instruction is what is read at the address. -/
def StandsAt (words : Array Word) (address : Nat) (i : Instr) : Prop :=
  decode words address = .ok (i, address + i.size)

/-- The instructions are what is read from the address on. -/
def AllStand (words : Array Word) (address : Nat) (code : List Instr) : Prop :=
  ∀ x ∈ placed address code, x.2.StandsAt words x.1

theorem readIndex_eq {words : Array Word} {a n : Nat} (h : words.getD a 0 = .ofNat n)
    (hn : (Word.ofNat n).toIndex? = some n) : readIndex words a = .ok n := by
  rw [readIndex, h, hn]

/-- Legible operands are read from the words in which they were written. -/
theorem readOperands_eq {words : Array Word} {a : Nat} {i : Instr} (h : i.Legible)
    (hw : ∀ j (hj : j < i.operands.length), words.getD (a + 1 + j) 0 = i.operands[j]) :
    readOperands words a i.opcode = .ok i := by
  cases i with
  | push value =>
    have h1 := hw 0 (by simp [operands])
    simp only [Nat.add_zero, operands, List.getElem_cons_zero] at h1
    rw [opcode, readOperands, h1]
  | jumpBy offset | branchIfZeroBy offset =>
    have h1 := hw 0 (by simp [operands])
    simp only [Nat.add_zero, operands, List.getElem_cons_zero] at h1
    rw [opcode, readOperands, h1, h]
  | fireWith firing updater =>
    have h1 := hw 0 (by simp [operands])
    have h2 := hw 1 (by simp [operands])
    simp only [Nat.add_zero, operands, List.getElem_cons_zero, List.getElem_cons_succ] at h1 h2
    rw [opcode, readOperands, readIndex_eq h1 h.1, readIndex_eq h2 h.2]
    rfl
  | jump n | branchIfZero n | getVariable n | setVariable n | getProperty n | setProperty n
  | call n | callDelegate n | fire n =>
    have h1 := hw 0 (by simp [operands])
    simp only [Nat.add_zero, operands, List.getElem_cons_zero] at h1
    rw [opcode, readOperands, readIndex_eq h1 h]
    rfl
  | pop | negate | not | binary _ | wait | ret => rfl

/-- **A legible instruction is read back wherever it was written.** -/
theorem Legible.standsAt {i : Instr} (h : i.Legible) (before after : List Word) :
    i.StandsAt (before ++ i.words ++ after).toArray before.length := by
  have hopcode : (before ++ i.words ++ after).toArray[before.length]? = some i.opcode.word := by
    simp [words]
  have hsize : ¬ (before ++ i.words ++ after).toArray.size <
      before.length + 1 + i.opcode.operandCount := by
    simp [words, length_operands]; omega
  rw [StandsAt, decode, hopcode]
  simp only [Opcode.ofWord?_word, if_neg hsize]
  rw [readOperands_eq h]
  · rw [size, ← Nat.add_assoc]; rfl
  · intro j hj
    rw [Array.getD_eq_getD_getElem?, List.getElem?_toArray, List.append_assoc,
      List.getElem?_append_right (by omega), words, List.cons_append,
      show before.length + 1 + j - before.length = j + 1 by omega, List.getElem?_cons_succ,
      List.getElem?_append_left hj, List.getElem?_eq_getElem hj, Option.getD_some]

@[simp] theorem allStand_nil (words : Array Word) (a : Nat) : AllStand words a [] := by
  simp [AllStand]

@[simp] theorem allStand_cons {words : Array Word} {a : Nat} {i : Instr} {code : List Instr} :
    AllStand words a (i :: code) ↔ i.StandsAt words a ∧ AllStand words (a + i.size) code := by
  simp [AllStand]

@[simp] theorem allStand_append {words : Array Word} {a : Nat} {code rest : List Instr} :
    AllStand words a (code ++ rest) ↔
      AllStand words a code ∧ AllStand words (a + sizeOf code) rest := by
  simp only [AllStand, placed_append, List.forall_mem_append]

/-- **Instructions whose operands fit are read back wherever they were written.** -/
theorem allStand_of_fits {code : List Instr} (h : ∀ i ∈ code, i.Fits) (before after : List Word) :
    AllStand (before ++ code.flatMap words ++ after).toArray before.length code := by
  induction code generalizing before with
  | nil => simp
  | cons i code ih =>
    have hi := (h i (by simp)).legible.standsAt before (code.flatMap words ++ after)
    have hrest := ih (fun j hj => h j (by simp [hj])) (before ++ i.words)
    rw [List.length_append, length_words] at hrest
    rw [allStand_cons, List.flatMap_cons]
    constructor
    · simpa only [List.append_assoc] using hi
    · simpa only [List.append_assoc] using hrest

theorem StandsAt.eq {words : Array Word} {a : Nat} {i : Instr} (h : i.StandsAt words a) :
    decode words a = .ok (i, a + i.size) := h

theorem opcode_readOperands {words : Array Word} {a : Nat} {op : Opcode} {i : Instr}
    (h : readOperands words a op = .ok i) : i.opcode = op := by
  have hindex {k : Nat → Instr} (hk : ∀ n, (k n).opcode = op)
      (h : (readIndex words (a + 1)).map k = .ok i) : i.opcode = op := by
    cases hr : readIndex words (a + 1) with
    | error e => rw [hr] at h; cases h
    | ok n =>
      rw [hr] at h
      exact Except.ok.inj h ▸ hk n
  cases op with
  | fireWith =>
    rw [readOperands] at h
    cases hr : readIndex words (a + 1) with
    | error e => rw [hr] at h; cases h
    | ok n =>
      cases hu : readIndex words (a + 2) with
      | error e => rw [hr, hu] at h; cases h
      | ok m =>
        rw [hr, hu] at h
        exact Except.ok.inj h ▸ rfl
  | jump | branchIfZero | getVariable | setVariable | getProperty | setProperty | call
  | callDelegate | fire => exact hindex (fun _ => rfl) h
  | _ => exact Except.ok.inj h ▸ rfl

/-- An instruction that was read has the operands that stand after its opcode. -/
theorem readOperands_of_decode {words : Array Word} {a next : Nat} {i : Instr}
    (h : decode words a = .ok (i, next)) : readOperands words a i.opcode = .ok i := by
  unfold decode at h
  split at h
  · cases h
  · split at h
    · cases h
    · simp only at h
      split at h
      · cases h
      · next opcode _ _ =>
        cases hr : readOperands words a opcode with
        | error e => rw [hr] at h; cases h
        | ok i' =>
          rw [hr] at h
          obtain ⟨rfl, -⟩ := Prod.mk.inj (Except.ok.inj h)
          rw [opcode_readOperands hr, hr]

/-- The address after an instruction that was read. -/
theorem decode_inv {words : Array Word} {a next : Nat} {i : Instr}
    (h : decode words a = .ok (i, next)) : next = a + i.size ∧ next ≤ words.size := by
  unfold decode at h
  split at h
  · cases h
  · split at h
    · cases h
    · simp only at h
      split at h
      · cases h
      · next opcode _ hle =>
        cases hr : readOperands words a opcode with
        | error e => rw [hr] at h; cases h
        | ok i' =>
          rw [hr] at h
          obtain ⟨rfl, rfl⟩ := Prod.mk.inj (Except.ok.inj h)
          rw [size, opcode_readOperands hr]
          omega

/-- An instruction that can be read ends within the block. -/
theorem StandsAt.le_size {words : Array Word} {a : Nat} {i : Instr} (h : i.StandsAt words a) :
    a + i.size ≤ words.size := (decode_inv h).2

theorem StandsAt.lt_size {words : Array Word} {a : Nat} {i : Instr} (h : i.StandsAt words a) :
    a < words.size :=
  Nat.lt_of_lt_of_le (Nat.lt_add_of_pos_right i.size_pos) h.le_size

/-- So do several of them. -/
theorem AllStand.le_size {words : Array Word} {code : List Instr} {a : Nat}
    (h : AllStand words a code) (hne : code ≠ []) : a + sizeOf code ≤ words.size := by
  obtain ⟨rest, i, rfl⟩ := (List.eq_nil_or_concat code).resolve_left hne
  rw [List.concat_eq_append, allStand_append, allStand_cons] at h
  have hle := h.2.1.le_size
  rw [List.concat_eq_append, sizeOf_append, sizeOf_cons, sizeOf_nil]
  omega

end Instr

namespace Code

/-! ## Reading a block through -/

/-- Reading from an address to the end of the block finds the listed instructions, each at its
address. -/
inductive Walks (c : Code) : (address : Nat) → List (Nat × Instr) → Prop
  /-- The end of the block. -/
  | done : Walks c c.size []
  /-- An instruction, and what is found from the address after it on. -/
  | step {address next : Nat} {i : Instr} {rest : List (Nat × Instr)}
      (read : Instr.decode c.words address = .ok (i, next)) (walk : Walks c next rest) :
      Walks c address ((address, i) :: rest)

/-- A reading is determined by the words. -/
theorem Walks.unique {c : Code} {a : Nat} {x y : List (Nat × Instr)} (hx : c.Walks a x)
    (hy : c.Walks a y) : x = y := by
  have hend {b : Nat} {i : Instr} {next : Nat} (h : Instr.decode c.words b = .ok (i, next)) :
      b ≠ c.size := by
    rintro rfl
    rw [Instr.decode, Array.getElem?_eq_none (by simp [size])] at h
    cases h
  induction hx generalizing y with
  | done =>
    cases hy with
    | done => rfl
    | step read _ => exact absurd rfl (hend read)
  | step read _ ih =>
    cases hy with
    | done => exact absurd rfl (hend read)
    | step read' walk' =>
      rw [read] at read'
      obtain ⟨rfl, rfl⟩ := Prod.mk.inj (Except.ok.inj read')
      rw [ih walk']

theorem size_ofList (words : List Word) : (ofList words).size = words.length := by
  simp [size, ofList]

/-- **Instructions that fit are what reading their words finds.** -/
theorem walks_ofList {code : List Instr} (h : ∀ i ∈ code, i.Fits) :
    (ofList (code.flatMap Instr.words)).Walks 0 (Instr.placed 0 code) := by
  have hstand := Instr.allStand_of_fits h [] []
  simp only [List.nil_append, List.append_nil, List.length_nil] at hstand
  have key (a : Nat) (rest : List Instr)
      (hrest : Instr.AllStand (code.flatMap Instr.words).toArray a rest)
      (hsize : a + Instr.sizeOf rest = Instr.sizeOf code) :
      (ofList (code.flatMap Instr.words)).Walks a (Instr.placed a rest) := by
    induction rest generalizing a with
    | nil =>
      have : a = (ofList (code.flatMap Instr.words)).size := by
        rw [size_ofList, Instr.length_flatMap_words]; simpa using hsize
      exact this ▸ .done
    | cons i rest ih =>
      obtain ⟨hi, hrest⟩ := Instr.allStand_cons.1 hrest
      exact .step hi (ih _ hrest (by rw [Instr.sizeOf_cons] at hsize; omega))
  exact key 0 code hstand (by omega)

end Code

end Danmaku
