import Danmaku.Proofs.Code.Writing

/-!
# Addresses

An index or an address is written as a word and read as a number again. Nothing checks that it is a
word: a block can be longer than `2 ^ 24` words, and beyond that a number that is no word is rounded
to one. So an address is read as the number that was written if and only if that number is a word,
or is the largest index of all (`Code.Drafted.address_read`).

For a jump forward the operand is filled in later. Until then others may have been noted and filled
in as well; a draft of a block (`Code.Drafted`) keeps the operands that wait apart from the opcodes
that they belong to (`Code.Drafted.waiting`), so filling in one of them leaves the other jumps as
they are.
-/

namespace Danmaku

/-- The instruction that an opcode with a single index makes of it. -/
def Opcode.indexed? : Opcode → Option (Nat → Instr)
  | jump => some .jump
  | branchIfZero => some .branchIfZero
  | getVariable => some .getVariable
  | setVariable => some .setVariable
  | getProperty => some .getProperty
  | setProperty => some .setProperty
  | call => some .call
  | callDelegate => some .callDelegate
  | fire => some .fire
  | push | pop | negate | not | binary _ | jumpBy | branchIfZeroBy | fireWith | wait | ret => none

namespace Instr

theorem readOperands_indexed {opcode : Opcode} {instr : Nat → Instr}
    (h : opcode.indexed? = some instr) (words : Array Word) (a : Nat) :
    opcode.operandCount = 1 ∧
      readOperands words a opcode = (readIndex words (a + 1)).map instr := by
  cases opcode <;> cases h <;> exact ⟨rfl, rfl⟩

/-- An opcode and its index are read, whatever stands around them. -/
theorem decode_indexed {opcode : Opcode} {instr : Nat → Instr} (h : opcode.indexed? = some instr)
    {words : Array Word} {a m : Nat} {w : Word} (hopcode : words[a]? = some opcode.word)
    (hword : words[a + 1]? = some w) (hm : w.toIndex? = some m) :
    decode words a = .ok (instr m, a + 2) := by
  obtain ⟨hcount, hread⟩ := readOperands_indexed h words a
  have hsize : ¬ words.size < a + 1 + 1 := by
    have := (Array.getElem?_eq_some_iff.1 hword).1
    omega
  have hindex : readIndex words (a + 1) = .ok m := by
    simp only [readIndex, Array.getD_eq_getD_getElem?, hword, Option.getD_some, hm]
  rw [decode, hopcode]
  simp only [Opcode.ofWord?_word, hcount, if_neg hsize, hread, hindex]
  rfl

/-- An instruction with an index is read at the address. The index is the given number if that is a
word, or the largest index of all, and otherwise another one. -/
def ReadsAs (words : Array Word) (address : Nat) (instr : Nat → Instr) (n : Nat) : Prop :=
  ∃ m, decode words address = .ok (instr m, address + 2) ∧
    (m = n ↔ Word.Holds n ∨ n = 0xffffffffffffffff)

/-- An index that is written as an operand is read, up to rounding. -/
theorem readsAs_written {opcode : Opcode} {instr : Nat → Instr} (h : opcode.indexed? = some instr)
    {words : Array Word} {a n : Nat} (hopcode : words[a]? = some opcode.word)
    (hword : words[a + 1]? = some (.ofNat n)) (hn : n < 2 ^ 64) : ReadsAs words a instr n := by
  obtain ⟨m, hm⟩ := Word.exists_toIndex?_ofNat hn
  refine ⟨m, decode_indexed h hopcode hword hm, ?_⟩
  rw [← Word.toIndex?_ofNat_eq_some_iff hn, hm, Option.some_inj]

end Instr

namespace Code

/-! ## Drafts -/

/-- A block under construction, with the jumps of which the operands may be filled in: the opcode of
each, and the address of its operand. -/
inductive Drafted : Code → List (Opcode × Nat) → Prop
  /-- Any block, before the first jump is noted. -/
  | start (c : Code) : Drafted c []
  /-- Words are written. -/
  | append {c : Code} {jumps : List (Opcode × Nat)} (words : List Word) (draft : Drafted c jumps) :
      Drafted (c.append words) jumps
  /-- A jump is written, and noted. -/
  | jump {c : Code} {jumps : List (Opcode × Nat)} (opcode : Opcode) (draft : Drafted c jumps) :
      Drafted (c.emitJump opcode).1 ((opcode, (c.emitJump opcode).2) :: jumps)
  /-- An operand that was noted is filled in. -/
  | patch {c c' : Code} {jumps : List (Opcode × Nat)} {opcode : Opcode} {a : Nat} {word : Word}
      (draft : Drafted c jumps) (noted : (opcode, a) ∈ jumps) (filled : c.patch a word = .ok c') :
      Drafted c' jumps

/-- The noted operands are within the block, after the opcodes noted with them, and none of them is
the place of another one's opcode. -/
structure Waiting (c : Code) (jumps : List (Opcode × Nat)) : Prop where
  lt_size : ∀ x ∈ jumps, x.2 < c.size
  opcode : ∀ x ∈ jumps, ∃ b, x.2 = b + 1 ∧ c.word? b = some x.1.word
  apart : ∀ x ∈ jumps, ∀ y ∈ jumps, x.2 + 1 ≠ y.2

variable {c c' : Code} {jumps : List (Opcode × Nat)} {opcode : Opcode} {instr : Nat → Instr}
  {a n : Nat} {word : Word}

theorem patch_of_lt (h : a < c.size) (word : Word) :
    c.patch a word = .ok ⟨c.words.setIfInBounds a word⟩ := if_pos h

theorem patch_inv (h : c.patch a word = .ok c') :
    a < c.size ∧ c' = ⟨c.words.setIfInBounds a word⟩ := by
  rw [patch] at h
  split at h
  · exact ⟨‹_›, (Except.ok.inj h).symm⟩
  · cases h

/-- What filling in an operand does to the words. -/
theorem word?_of_patch (h : c.patch a word = .ok c') :
    c'.size = c.size ∧ c'.word? a = some word ∧ ∀ b, b ≠ a → c'.word? b = c.word? b := by
  obtain ⟨hlt, rfl⟩ := patch_inv h
  refine ⟨Array.size_setIfInBounds, Array.getElem?_setIfInBounds_self_of_lt hlt, fun b hb => ?_⟩
  exact Array.getElem?_setIfInBounds_ne hb.symm

theorem Waiting.append (h : c.Waiting jumps) (words : List Word) :
    (c.append words).Waiting jumps where
  lt_size x hx := by
    have := h.lt_size x hx
    rw [size_append]
    omega
  opcode x hx := by
    obtain ⟨b, hb, hword⟩ := h.opcode x hx
    have := h.lt_size x hx
    exact ⟨b, hb, by rw [word?_append_left (by omega), hword]⟩
  apart := h.apart

/-- A jump at the end is apart from all others. -/
theorem Waiting.cons (h : c.Waiting jumps) (opcode : Opcode) :
    (c.append [opcode.word, 0]).Waiting ((opcode, c.size + 1) :: jumps) where
  lt_size := by
    refine List.forall_mem_cons.2 ⟨?_, (h.append _).lt_size⟩
    simp only [size_append, List.length_cons, List.length_nil]
    omega
  opcode := by
    refine List.forall_mem_cons.2 ⟨⟨c.size, rfl, ?_⟩, (h.append _).opcode⟩
    simpa using c.word?_append_right [opcode.word, 0] 0
  apart x hx y hy := by
    rcases List.mem_cons.1 hx with rfl | hx <;> rcases List.mem_cons.1 hy with rfl | hy
    · exact (Nat.lt_succ_self _).ne'
    · have := h.lt_size y hy
      simp only
      omega
    · have := h.lt_size x hx
      simp only
      omega
    · exact h.apart x hx y hy

/-- Filling in an operand does not touch an opcode. -/
theorem Waiting.patch (h : c.Waiting jumps) {x : Opcode × Nat} (hx : x ∈ jumps)
    (hp : c.patch x.2 word = .ok c') : c'.Waiting jumps := by
  obtain ⟨hsize, -, hother⟩ := word?_of_patch hp
  refine ⟨fun y hy => hsize ▸ h.lt_size y hy, fun y hy => ?_, h.apart⟩
  obtain ⟨b, hb, hword⟩ := h.opcode y hy
  refine ⟨b, hb, ?_⟩
  rw [hother b, hword]
  have := h.apart x hx y hy
  omega

/-- **In a draft the operands that may be filled in are where the jumps need them.** -/
theorem Drafted.waiting (h : c.Drafted jumps) : c.Waiting jumps := by
  induction h with
  | start c => exact ⟨by simp, by simp, by simp⟩
  | append words _ ih => exact ih.append words
  | jump opcode _ ih =>
    rw [emitJump_eq]
    exact ih.cons opcode
  | patch _ noted filled ih => exact ih.patch noted filled

/-- A jump whose operand holds a number goes there, up to rounding. -/
theorem Waiting.readsAs (h : c.Waiting jumps) (hmem : (opcode, a) ∈ jumps)
    (hinstr : opcode.indexed? = some instr) (hword : c.word? a = some (.ofNat n))
    (hn : n < 2 ^ 64) : Instr.ReadsAs c.words (a - 1) instr n := by
  obtain ⟨b, hb, hopcode⟩ := h.opcode _ hmem
  obtain rfl : a = b + 1 := hb
  exact Instr.readsAs_written hinstr hopcode hword hn

/-- Several operands are filled in with one target, and no other word changes. -/
theorem Drafted.patchAll (h : c.Drafted jumps) (target : Nat) {operands : List Nat}
    (hmem : ∀ a ∈ operands, ∃ opcode, (opcode, a) ∈ jumps) :
    ∃ c', c.patchAll target operands = .ok c' ∧ c'.Drafted jumps ∧ c'.size = c.size ∧
      (∀ a ∈ operands, c'.word? a = some (.ofNat target)) ∧
      ∀ b, b ∉ operands → c'.word? b = c.word? b := by
  induction operands generalizing c with
  | nil => exact ⟨c, rfl, h, rfl, by simp, fun _ _ => rfl⟩
  | cons a operands ih =>
    obtain ⟨⟨opcode, ha⟩, hrest⟩ := List.forall_mem_cons.1 hmem
    have hpatch := patch_of_lt (h.waiting.lt_size _ ha) (.ofNat target)
    obtain ⟨hsize₁, hword₁, hother₁⟩ := word?_of_patch hpatch
    obtain ⟨c', hall, hdraft, hsize, hword, hother⟩ := ih (h.patch ha hpatch) hrest
    refine ⟨c', ?_, hdraft, hsize.trans hsize₁, ?_, fun b hb => ?_⟩
    · rw [Code.patchAll, hpatch]
      exact hall
    · -- an operand that is listed twice gets the same word twice
      refine List.forall_mem_cons.2 ⟨?_, hword⟩
      by_cases hagain : a ∈ operands
      · exact hword a hagain
      · rw [hother a hagain, hword₁]
    · obtain ⟨hne, hb⟩ := not_or.1 (List.mem_cons.not.1 hb)
      rw [hother b hb, hother₁ b hne]

/-- **What is written as an address is what is read, up to rounding.** This holds of an index that
is written after its opcode at the end of any block, of the end of a draft that a jump is made to go
to, and of the targets of a loop that its jumps are made to go to. -/
theorem Drafted.address_read (h : c.Drafted jumps) :
    (∀ (opcode : Opcode) (instr : Nat → Instr), opcode.indexed? = some instr →
      ∀ n < 2 ^ 64, Instr.ReadsAs (c.pushIndexed opcode n).words c.size instr n) ∧
    (c.size < 2 ^ 64 → ∀ a, (.jump, a) ∈ jumps →
      ∃ c', c.patchToHere a = .ok c' ∧ c'.size = c.size ∧
        Instr.ReadsAs c'.words (a - 1) .jump c.size) ∧
    ∀ (loop : LoopJumps) (exit again : Nat), (∀ a ∈ loop.operands, (.jump, a) ∈ jumps) →
      exit < 2 ^ 64 → again < 2 ^ 64 →
      ∃ c', loop.resolve c exit again = .ok c' ∧ c'.size = c.size ∧
        (∀ a ∈ loop.continues, Instr.ReadsAs c'.words (a - 1) .jump again) ∧
        ∀ a ∈ loop.breaks, a ∉ loop.continues → Instr.ReadsAs c'.words (a - 1) .jump exit := by
  refine ⟨fun opcode instr hinstr n hn => ?_, fun hsize a ha => ?_, ?_⟩
  · have heq : c.pushIndexed opcode n = c.append [opcode.word, .ofNat n] :=
      ext_toList (by simp [pushIndexed, pushOpcode, push])
    have hopcode := c.word?_append_right [opcode.word, .ofNat n] 0
    have hindex := c.word?_append_right [opcode.word, .ofNat n] 1
    rw [Nat.zero_add] at hopcode
    rw [Nat.add_comm] at hindex
    exact heq ▸ Instr.readsAs_written hinstr hopcode hindex hn
  · have hpatch := patch_of_lt (h.waiting.lt_size _ ha) (.ofNat c.size)
    obtain ⟨hsame, hword, -⟩ := word?_of_patch hpatch
    exact ⟨_, hpatch, hsame, (h.patch ha hpatch).waiting.readsAs ha rfl hword hsize⟩
  · intro loop exit again hmem hexit hagain
    obtain ⟨hbreaks, hcontinues⟩ := List.forall_mem_append.1 hmem
    obtain ⟨c₁, hall₁, hdraft₁, hsize₁, hword₁, -⟩ :=
      h.patchAll exit fun a ha => ⟨.jump, hbreaks a ha⟩
    obtain ⟨c₂, hall₂, hdraft₂, hsize₂, hword₂, hother₂⟩ :=
      hdraft₁.patchAll again fun a ha => ⟨.jump, hcontinues a ha⟩
    refine ⟨c₂, ?_, hsize₂.trans hsize₁, fun a ha => ?_, fun a ha hnot => ?_⟩
    · rw [LoopJumps.resolve, hall₁]
      exact hall₂
    · exact hdraft₂.waiting.readsAs (hcontinues a ha) rfl (hword₂ a ha) hagain
    · refine hdraft₂.waiting.readsAs (hbreaks a ha) rfl ?_ hexit
      rw [hother₂ a hnot, hword₁ a ha]

/-- A block that begins with a jump over so many words. -/
def leap (distance : Nat) : Code :=
  (empty.emitJump .jump).1.append (List.replicate distance 0)

theorem drafted_leap (distance : Nat) : (leap distance).Drafted [(.jump, 1)] :=
  ((Drafted.start empty).jump .jump).append _

@[simp] theorem size_leap (distance : Nat) : (leap distance).size = distance + 2 := by
  rw [leap, emitJump_eq, size_append, size_append, List.length_replicate, Nat.add_comm]
  rfl

/-- A jump forward is made to go to the end, and the jumps of a loop to where they should go. A
large index is read back, if enough of its binary places are zeros. -/
theorem leap_read :
    (Instr.ReadsAs (empty.pushIndexed .getVariable 0x8000000).words 0 .getVariable 0x8000000 ∧
      Word.Holds 0x8000000) ∧
    (∃ c', (leap 3).patchToHere 1 = .ok c' ∧ Instr.ReadsAs c'.words 0 .jump (leap 3).size) ∧
    ∃ c', LoopJumps.resolve ⟨[1], []⟩ (leap 3) 5 2 = .ok c' ∧ Instr.ReadsAs c'.words 0 .jump 5 := by
  have hindexed := (Drafted.address_read (.start empty)).1
  obtain ⟨-, hhere, hloop⟩ := Drafted.address_read (drafted_leap 3)
  refine ⟨⟨hindexed .getVariable _ rfl _ (by decide), 1, 27, by decide, by decide⟩, ?_, ?_⟩
  · obtain ⟨c', hpatch, -, hread⟩ := hhere (by rw [size_leap]; decide) 1 (by simp)
    exact ⟨c', hpatch, hread⟩
  · obtain ⟨c', hresolve, -, -, hread⟩ := hloop ⟨[1], []⟩ 5 2 (by simp [LoopJumps.operands])
      (by decide) (by decide)
    exact ⟨c', hresolve, hread 1 (by simp) (by simp)⟩

/-- **Beyond `2 ^ 24` an address may be read as another one.** The first number that is no word is
rounded down, as an index, and as the end of a block that a jump was made to go to. -/
theorem address_rounded :
    Instr.decode (empty.pushIndexed .getVariable 0x1000001).words 0 =
      .ok (.getVariable 0x1000000, 2) ∧
    (leap 0xffffff).size = 0x1000001 ∧
    ∃ c', (leap 0xffffff).patchToHere 1 = .ok c' ∧
      Instr.decode c'.words 0 = .ok (.jump 0x1000000, 2) := by
  have hvariable : Opcode.getVariable.indexed? = some .getVariable := rfl
  have hjump : Opcode.jump.indexed? = some .jump := rfl
  have hrounded : (Word.ofNat 0x1000001).toIndex? = some 0x1000000 := by decide +kernel
  -- the block is kept abstract: it is too long to be looked at
  have hend {c : Code} (hdraft : c.Drafted [(.jump, 1)]) (hsize : c.size = 0x1000001) :
      ∃ c', c.patchToHere 1 = .ok c' ∧ Instr.decode c'.words 0 = .ok (.jump 0x1000000, 2) := by
    have hpatch := patch_of_lt (hdraft.waiting.lt_size (.jump, 1) (by simp)) (.ofNat c.size)
    obtain ⟨-, hword, -⟩ := word?_of_patch hpatch
    obtain ⟨b, hb, hopcode⟩ :=
      (hdraft.patch List.mem_cons_self hpatch).waiting.opcode (.jump, 1) (by simp)
    obtain rfl : b = 0 := by simpa using hb.symm
    rw [← hsize] at hrounded
    exact ⟨_, hpatch, Instr.decode_indexed hjump hopcode hword hrounded⟩
  exact ⟨Instr.decode_indexed hvariable rfl rfl hrounded, size_leap _,
    hend (drafted_leap _) (size_leap _)⟩

end Code

end Danmaku
