import Danmaku.Proofs.Compile.Success

/-!
# Filling in operands

A jump forward is written before its target is known, with a zero for its operand
(`Code.emitJump_eq`). Once the target has been reached the operand is filled in, wherever the jump
stands in the block (`Code.patch_target`). A loop does the same for all the jumps that its body has
left open: filling them in comes to closing the fragment (`Fragment.resolve_openJumps`).
-/

namespace Danmaku

/-! ## Blocks -/

namespace Code

variable (b : Code) (xs ys zs : List Word)

theorem ext_toList {b b' : Code} (h : b.words.toList = b'.words.toList) : b = b' := by
  obtain ⟨words⟩ := b
  obtain ⟨words'⟩ := b'
  exact congrArg Code.mk (Array.toList_inj.1 h)

@[simp] theorem toList_append : (b.append xs).words.toList = b.words.toList ++ xs :=
  Array.toList_appendList

@[simp] theorem size_append : (b.append xs).size = b.size + xs.length := by
  rw [size, ← Array.length_toList, toList_append, List.length_append, Array.length_toList, size]

@[simp] theorem append_nil : b.append [] = b :=
  ext_toList (by rw [toList_append, List.append_nil])

@[simp] theorem append_append : (b.append xs).append ys = b.append (xs ++ ys) :=
  ext_toList (by simp only [toList_append, List.append_assoc])

theorem word?_append_left {b : Code} {x : Nat} (h : x < b.size) (xs : List Word) :
    (b.append xs).word? x = b.word? x := by
  rw [word?, word?, ← Array.getElem?_toList, ← Array.getElem?_toList, toList_append]
  exact List.getElem?_append_left h

theorem word?_append_right (i : Nat) : (b.append xs).word? (i + b.size) = xs[i]? := by
  have hlength : b.words.toList.length = b.size := Array.length_toList
  rw [word?, ← Array.getElem?_toList, toList_append, List.getElem?_append_right (by omega), hlength,
    Nat.add_sub_cancel]

theorem emitJump_eq (opcode : Opcode) :
    b.emitJump opcode = (b.append [opcode.word, 0], b.size + 1) := by
  refine Prod.ext (ext_toList ?_) ?_
  · simp [emitJump, pushOpcode, push]
  · simp [emitJump, pushOpcode, push, size]

/-- An operand in what has been appended is filled in there. -/
theorem patch_append (old new : Word) :
    (b.append (xs ++ old :: zs)).patch (b.size + xs.length) new =
      .ok (b.append (xs ++ new :: zs)) := by
  have hlength : b.words.toList.length = b.size := Array.length_toList
  rw [patch, if_pos (by simp)]
  refine congrArg Except.ok (ext_toList ?_)
  rw [toList_append, Array.toList_setIfInBounds, toList_append, ← List.append_assoc,
    ← List.append_assoc, ← hlength, ← List.length_append]
  exact List.set_append_right _ _ (Nat.le_refl _) |>.trans (by simp)

/-- An instruction with a single operand is given another one. -/
theorem patch_target {op : Word} {instr : Nat → Instr}
    (h : ∀ target, (instr target).words = [op, .ofNat target]) (old new : Nat) :
    (b.append (xs ++ ((instr old).words ++ zs))).patch (b.size + xs.length + 1) (.ofNat new) =
      .ok (b.append (xs ++ ((instr new).words ++ zs))) := by
  simpa [h, Nat.add_assoc] using b.patch_append (xs ++ [op]) zs (.ofNat old) (.ofNat new)

end Code

theorem Instr.words_jump (target : Nat) :
    (jump target).words = [Opcode.jump.word, .ofNat target] := rfl

theorem Instr.words_branchIfZero (target : Nat) :
    (branchIfZero target).words = [Opcode.branchIfZero.word, .ofNat target] := rfl

theorem Word.ofNat_zero : Word.ofNat 0 = 0 := rfl

namespace Item

theorem length_words (item : Item) : item.words.length = item.size := by
  cases item with
  | instr i => exact i.length_words
  | leave | again => rfl

end Item

/-- The operands that are still to be filled in. -/
def LoopJumps.operands (j : LoopJumps) : List Nat := j.breaks ++ j.continues

namespace Fragment

@[simp] theorem words_append (f g : Fragment) : words (f ++ g) = f.words ++ g.words :=
  List.flatMap_append

@[simp] theorem length_words (f : Fragment) : f.words.length = f.size := by
  rw [words_eq, Instr.length_flatMap_words, sizeOf_instrs]

theorem words_cons (item : Item) (f : Fragment) :
    words (item :: f) = item.words ++ words f := List.flatMap_cons

@[simp] theorem words_ofInstrs (code : List Instr) :
    (ofInstrs code).words = code.flatMap Instr.words := by
  rw [words_eq, instrs_ofInstrs]

/-- Open jumps look like jumps to zero. -/
@[simp] theorem words_close_zero (f : Fragment) : (f.close 0 0).words = f.words := by
  rw [words_eq, instrs_close, words_eq f]

/-- The first operands of the items of one kind, for a fragment that stands at an address. -/
def operandsOf (kind : Item → Bool) : (address : Nat) → Fragment → List Nat
  | _, [] => []
  | address, item :: rest =>
    (if kind item then [address + 1] else []) ++ operandsOf kind (address + item.size) rest

/-- The fragment with the open jumps of one kind closed. -/
def fill (kind : Item) (target : Nat) (f : Fragment) : Fragment :=
  f.map fun item => if item = kind then .instr (.jump target) else item

theorem openJumps_eq (f : Fragment) (a : Nat) (j : LoopJumps) :
    f.openJumps a j =
      ⟨j.breaks ++ operandsOf (· = .leave) a f, j.continues ++ operandsOf (· = .again) a f⟩ := by
  induction f generalizing a j with
  | nil => simp [openJumps, operandsOf]
  | cons item f ih =>
    cases item <;>
      simp [openJumps, operandsOf, ih, LoopJumps.addBreak, LoopJumps.addContinue, Item.size]

theorem openJumps_append (f g : Fragment) (a : Nat) (j : LoopJumps) :
    openJumps (f ++ g) a j = g.openJumps (a + f.size) (f.openJumps a j) := by
  induction f generalizing a j with
  | nil => rfl
  | cons item f ih =>
    cases item <;> simp [openJumps, ih, size, Item.size, Nat.add_assoc]

@[simp] theorem openJumps_ofInstrs (code : List Instr) (a : Nat) (j : LoopJumps) :
    (ofInstrs code).openJumps a j = j := by
  induction code generalizing a with
  | nil => rfl
  | cons i code ih => exact ih _

@[simp] theorem openJumps_close (f : Fragment) (exit next a : Nat) (j : LoopJumps) :
    (f.close exit next).openJumps a j = j := by
  induction f generalizing a with
  | nil => rfl
  | cons item f ih => cases item <;> exact ih _

/-- The operands of the open jumps. -/
def opened (a : Nat) (f : Fragment) : List Nat := (f.openJumps a {}).operands

@[simp] theorem opened_ofInstrs (code : List Instr) (a : Nat) : opened a (ofInstrs code) = [] := by
  rw [opened, openJumps_ofInstrs]
  rfl

@[simp] theorem opened_close (f : Fragment) (exit next a : Nat) :
    opened a (f.close exit next) = [] := by
  rw [opened, openJumps_close]
  rfl

theorem mem_opened_append {f g : Fragment} {a x : Nat} :
    x ∈ opened a (f ++ g) ↔ x ∈ opened a f ∨ x ∈ opened (a + f.size) g := by
  rw [opened, openJumps_append, openJumps_eq, openJumps_eq f, opened, opened, openJumps_eq f,
    openJumps_eq g]
  simp only [LoopJumps.operands, List.nil_append, List.mem_append]
  tauto

theorem operandsOf_again_fill_leave (f : Fragment) (target a : Nat) :
    operandsOf (· = .again) a (f.fill .leave target) = operandsOf (· = .again) a f := by
  induction f generalizing a with
  | nil => rfl
  | cons item f ih => cases item <;> simp_all [fill, operandsOf, Item.size]

theorem fill_fill (f : Fragment) (exit next : Nat) :
    (f.fill .leave exit).fill .again next = f.close exit next := by
  rw [fill, fill, close, List.map_map]
  refine List.map_congr_left fun item _ => ?_
  cases item <;> simp [Item.close]

/-- **All open jumps of one kind are filled in**, wherever the fragment stands in a block. -/
theorem patchAll_operandsOf (b : Code) (xs zs : List Word) {kind : Item}
    (hkind : kind.words = (Instr.jump 0).words) (target : Nat) (f : Fragment) :
    (b.append (xs ++ (f.words ++ zs))).patchAll target
        (operandsOf (· = kind) (b.size + xs.length) f) =
      .ok (b.append (xs ++ ((f.fill kind target).words ++ zs))) := by
  induction f generalizing xs with
  | nil => rfl
  | cons item f ih =>
    have hrest (item : Item) := ih (xs ++ item.words)
    simp only [fill, List.length_append, Item.length_words, ← Nat.add_assoc,
      List.append_assoc] at hrest
    simp only [words_cons, fill, List.map_cons, List.append_assoc, operandsOf, decide_eq_true_eq]
    by_cases h : item = kind
    · subst h
      have hsize : item.size = (Instr.jump target).size := by
        rw [← Item.length_words, hkind]
        rfl
      rw [if_pos rfl, if_pos rfl, List.singleton_append, Code.patchAll, hkind,
        Code.patch_target b xs _ Instr.words_jump 0 target, hsize]
      exact hrest (.instr (.jump target))
    · rw [if_neg h, if_neg h, List.nil_append]
      exact hrest item

/-- **A loop fills in all that its body has left open.** -/
theorem resolve_openJumps (b : Code) (xs zs : List Word) (f : Fragment) (exit next : Nat) :
    (f.openJumps (b.size + xs.length) {}).resolve (b.append (xs ++ (f.words ++ zs))) exit next =
      .ok (b.append (xs ++ ((f.close exit next).words ++ zs))) := by
  rw [openJumps_eq, LoopJumps.resolve]
  simp only [List.nil_append]
  rw [patchAll_operandsOf b xs zs rfl]
  simp only
  rw [← operandsOf_again_fill_leave f exit, patchAll_operandsOf b xs zs rfl, fill_fill]

end Fragment

end Danmaku
