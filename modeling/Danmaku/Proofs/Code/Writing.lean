import Danmaku.Proofs.Code.Patching
import Danmaku.Proofs.Word.Exact

/-!
# Writing instructions and reading them

A block is written opcode by opcode and operand by operand (`Code.write`). Reading it from its start
finds the instructions that were written and nothing else, to the last word, as long as their
operands are small enough; and stepping over operands finds their opcodes.

The other way round, an instruction that is read from arbitrary words has operands that can be
written and read again, whatever those words were: a fraction is lost and a large number clamped
when it is read first, and not once more (`Instr.legible_of_decode`). Both directions together are
`Code.written_read`.
-/

namespace Danmaku

namespace Code

/-- Write an instruction at the end of a block. -/
def write (c : Code) (i : Instr) : Code :=
  match i with
  | .push value => (c.pushOpcode i.opcode).push value
  | .jumpBy offset | .branchIfZeroBy offset => (c.pushOpcode i.opcode).push (.ofInt offset)
  | .jump n | .branchIfZero n | .getVariable n | .setVariable n | .getProperty n | .setProperty n
  | .call n | .callDelegate n | .fire n => c.pushIndexed i.opcode n
  | .fireWith firing updater => (c.pushIndexed i.opcode firing).push (.ofNat updater)
  | .pop | .negate | .not | .binary _ | .wait | .ret => c.pushOpcode i.opcode

theorem write_eq (c : Code) (i : Instr) : c.write i = c.append i.words := by
  refine ext_toList ?_
  rw [toList_append]
  cases i <;> simp [write, pushIndexed, pushOpcode, push, Instr.words, Instr.operands]

theorem foldl_write (code : List Instr) (c : Code) :
    code.foldl write c = c.append (code.flatMap Instr.words) := by
  induction code generalizing c with
  | nil => exact (append_nil c).symm
  | cons i code ih => rw [List.foldl_cons, ih, write_eq, append_append, List.flatMap_cons]

theorem empty_append (words : List Word) : empty.append words = ofList words :=
  ext_toList (toList_append ..)

/-! ## Stepping over operands -/

theorem opcodesFrom_operands (operands rest : List Word) :
    opcodesFrom operands.length (operands ++ rest) = opcodesFrom 0 rest := by
  induction operands with
  | nil => rfl
  | cons operand operands ih => exact ih

/-- An instruction is found by its opcode. -/
theorem opcodesFrom_words (i : Instr) (rest : List Word) :
    opcodesFrom 0 (i.words ++ rest) = i.opcode :: opcodesFrom 0 rest := by
  rw [Instr.words, List.cons_append, opcodesFrom]
  simp only [Opcode.ofWord?_word, ← i.length_operands, opcodesFrom_operands]

theorem opcodes_ofList (code : List Instr) :
    (ofList (code.flatMap Instr.words)).opcodes = code.map Instr.opcode := by
  rw [opcodes, ofList]
  induction code with
  | nil => rfl
  | cons i code ih => rw [List.flatMap_cons, opcodesFrom_words, ih, List.map_cons]

end Code

namespace Instr

/-! ## Reading arbitrary words -/

theorem map_snd_placed (a : Nat) (code : List Instr) : (placed a code).map Prod.snd = code := by
  induction code generalizing a with
  | nil => rfl
  | cons i code ih => rw [placed_cons, List.map_cons, ih]

theorem readIndex_inv {words : Array Word} {a n : Nat} (h : readIndex words a = .ok n) :
    (words.getD a 0).toIndex? = some n := by
  simp only [readIndex] at h
  split at h
  · next hn => rw [hn, Except.ok.inj h]
  · cases h

/-- **What was read once can be read again**, once it has been written: its operands have lost their
fractions, and are in range. -/
theorem legible_of_decode {words : Array Word} {a next : Nat} {i : Instr}
    (h : decode words a = .ok (i, next)) : i.Legible := by
  have hread := readOperands_of_decode h
  have hindex {k : Nat} {n : Nat} (hk : readIndex words k = .ok n) :
      (Word.ofNat n).toIndex? = some n := Word.toIndex?_ofNat_of_toIndex? (readIndex_inv hk)
  cases i with
  | jumpBy offset | branchIfZeroBy offset =>
    cases hread
    exact Word.toOffset_ofInt_toOffset _
  | jump n | branchIfZero n | getVariable n | setVariable n | getProperty n | setProperty n
  | call n | callDelegate n | fire n =>
    obtain ⟨m, hm, heq⟩ := map_eq_ok.1 hread
    cases heq
    exact hindex hm
  | fireWith firing updater =>
    rw [opcode, readOperands] at hread
    split at hread
    · cases hread
    · next m hm =>
      obtain ⟨m', hm', heq⟩ := map_eq_ok.1 hread
      cases heq
      exact ⟨hindex hm, hindex hm'⟩
  | push _ | pop | negate | not | binary _ | wait | ret => trivial

end Instr

namespace Code

/-- **Reading undoes writing, and writing undoes reading.** Instructions with operands of at most
`2 ^ 24`, written one after another, are what reading the block from its start finds, and their
opcodes are what stepping over operands finds. An instruction that is read anywhere in arbitrary
words takes as many words as were read when it is written, and reads from them as itself. -/
theorem written_read :
    (∀ code : List Instr, (∀ i ∈ code, i.Fits) →
      (code.foldl write empty).Walks 0 (Instr.placed 0 code) ∧
      (∀ walk, (code.foldl write empty).Walks 0 walk → walk.map Prod.snd = code) ∧
      (code.foldl write empty).size = Instr.sizeOf code ∧
      (code.foldl write empty).opcodes = code.map Instr.opcode) ∧
    ∀ (words : Array Word) (a next : Nat) (i : Instr), Instr.decode words a = .ok (i, next) →
      a + (empty.write i).size = next ∧
      Instr.decode (empty.write i).words 0 = .ok (i, (empty.write i).size) := by
  constructor
  · intro code h
    have hwalk := walks_ofList h
    rw [foldl_write, empty_append]
    refine ⟨hwalk, fun walk hw => ?_, ?_, opcodes_ofList code⟩
    · rw [hw.unique hwalk, Instr.map_snd_placed]
    · rw [size_ofList, Instr.length_flatMap_words]
  · intro words a next i h
    have hsize : (empty.write i).size = i.size := by
      rw [write_eq, empty_append, size_ofList, Instr.length_words]
    have hstands := (Instr.legible_of_decode h).standsAt [] []
    rw [hsize, write_eq, empty_append]
    refine ⟨(Instr.decode_inv h).1.symm, ?_⟩
    simpa only [Instr.StandsAt, ofList, List.nil_append, List.append_nil, List.length_nil,
      Nat.zero_add] using hstands

/-- Operands of every sort, as large as they may be. -/
def medley : List Instr :=
  [.push .notANumber, .jumpBy (-0x1000000), .fireWith 0x1000000 3, .binary .mod, .jump 0, .ret]

/-- They are read back, and so is the index two that is read from two and a half. -/
theorem medley_read :
    (medley.foldl write empty).Walks 0 (Instr.placed 0 medley) ∧
      (medley.foldl write empty).opcodes =
        [.push, .jumpBy, .fireWith, .binary .mod, .jump, .ret] ∧
      Instr.decode #[0, Opcode.getVariable.word, Float32.ofBits 0x40200000] 1 =
        .ok (.getVariable 2, 3) ∧
      Instr.decode (empty.write (.getVariable 2)).words 0 = .ok (.getVariable 2, 2) := by
  have hfits : ∀ i ∈ medley, i.Fits := by
    simp only [medley, List.forall_mem_cons, Instr.Fits]
    exact ⟨trivial, by decide, by decide, trivial, by decide, trivial, List.forall_mem_nil _⟩
  have hread : Instr.decode #[0, Opcode.getVariable.word, Float32.ofBits 0x40200000] 1 =
      .ok (.getVariable 2, 3) := by decide +kernel
  obtain ⟨hwalk, -, -, hopcodes⟩ := written_read.1 medley hfits
  exact ⟨hwalk, hopcodes, hread, (written_read.2 _ 1 3 _ hread).2⟩

end Code

end Danmaku
