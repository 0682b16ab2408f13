import Danmaku.Proofs.Code.Placed

/-!
# Reading arbitrary words

Two loops go through a block from its start, whatever its words are. One collects opcodes and steps
over their operands, beyond the end of the block if some are missing (`Code.collect`). The other
prints a line for each word that it comes by, with those of its operands that are there, and goes on
no further than the end (`Code.printLine`). Both take a word that is no opcode by itself.

Both loops end, and come by the same addresses, which are those of the lines in the listing
(`Code.visited`). At each of them the line says what decoding finds there (`Code.walks_agree`).
-/

namespace Danmaku

/-! ## Marks -/

/-- The text has no angle bracket, with which a listing marks a word that is no opcode. -/
def Unmarked (s : String) : Prop := '<' ∉ s.toList

instance (s : String) : Decidable (Unmarked s) := inferInstanceAs (Decidable ('<' ∉ s.toList))

theorem unmarked_append {s t : String} : Unmarked (s ++ t) ↔ Unmarked s ∧ Unmarked t := by
  simp only [Unmarked, String.toList_append, List.mem_append, not_or]

theorem unmarked_toString (n : Nat) : Unmarked (toString n) := by
  intro h
  have hdigit := Nat.isDigit_of_mem_toDigits (by decide) (by decide) (Nat.toList_repr ▸ h)
  exact absurd hdigit (by decide)

theorem Opcode.unmarked_mnemonic (op : Opcode) : Unmarked op.mnemonic := by
  cases op with
  | binary op => cases op <;> decide
  | _ => decide

namespace Word

theorem unmarked_positional (n : Nat) (power : Int) : Unmarked (positional n power) := by
  unfold positional
  split
  · exact unmarked_toString _
  · simp only
    split
    · exact unmarked_toString _
    · refine unmarked_append.2 ⟨unmarked_append.2 ⟨unmarked_toString _, by decide⟩, fun h => ?_⟩
      rw [String.toList_ofList, List.mem_reverse] at h
      have hdigits := List.mem_reverse.1 ((List.dropWhile_sublist _).subset h)
      exact unmarked_toString _ (List.mem_of_mem_drop hdigits)

theorem unmarked_text (w : Word) : Unmarked w.text := by
  unfold text
  split
  · decide
  · have hsign : Unmarked (if w.isNegative then "-" else "") := by split <;> decide
    simp only
    split
    · exact unmarked_append.2 ⟨hsign, by decide⟩
    · split
      · exact unmarked_append.2 ⟨hsign, by decide⟩
      · exact unmarked_append.2 ⟨hsign, unmarked_positional _ _⟩

end Word

/-! ## Operands at fault -/

/-- Operands that are there are only at fault where an index is needed. -/
theorem Instr.readOperands_error {words : Array Word} {a : Nat} {op : Opcode} {fault : Fault}
    (h : readOperands words a op = .error fault) : ∃ word b, fault = .invalidOperand word b := by
  have hindex {b : Nat} {k : Nat → Instr} (h : (readIndex words b).map k = .error fault) :
      ∃ word b, fault = .invalidOperand word b := by
    simp only [readIndex] at h
    split at h
    · cases h
    · exact ⟨_, _, (Except.error.inj h).symm⟩
  cases op with
  | fireWith =>
    rw [readOperands] at h
    split at h
    · next hr =>
      rw [Except.error.inj h] at hr
      exact hindex (k := fun _ => .pop) (by rw [hr]; rfl)
    · exact hindex h
  | jump | branchIfZero | getVariable | setVariable | getProperty | setProperty | call
  | callDelegate | fire => exact hindex h
  | _ => cases h

namespace Code

variable {c : Code} {a : Nat} {line : Line}

/-! ## The texts of lines -/

theorem unmarked_paddedAddress (n : Nat) : Unmarked (paddedAddress n) := by
  refine unmarked_append.2 ⟨fun h => ?_, unmarked_toString n⟩
  rw [String.toList_ofList] at h
  exact absurd (List.eq_of_mem_replicate h) (by decide)

theorem foldl_append_text (operands : List Word) (out : String) :
    operands.foldl (fun text operand => text ++ " " ++ operand.text) out =
      out ++ operands.foldl (fun text operand => text ++ " " ++ operand.text) "" := by
  induction operands generalizing out with
  | nil => exact String.append_empty.symm
  | cons operand operands ih =>
    rw [List.foldl_cons, List.foldl_cons, ih, ih ("" ++ " " ++ operand.text)]
    simp only [String.append_assoc, String.empty_append]

theorem unmarked_operands (operands : List Word) :
    Unmarked (operands.foldl (fun text operand => text ++ " " ++ operand.text) "") := by
  induction operands using List.reverseRecOn with
  | nil => decide
  | append_singleton operands operand ih =>
    rw [List.foldl_append]
    exact unmarked_append.2 ⟨unmarked_append.2 ⟨ih, by decide⟩, operand.unmarked_text⟩

theorem Line.text_of_none (h : line.opcode? = none) :
    line.text = s!"{paddedAddress line.address}  <invalid {line.word.text}>" := by
  rw [Line.text, h]

/-- An opcode is named, and what follows its name has no mark. -/
theorem Line.text_of_some {op : Opcode} (h : line.opcode? = some op) :
    ∃ operands, Unmarked operands ∧
      line.text = s!"{paddedAddress line.address}  {op.mnemonic}{operands}" := by
  refine ⟨_, unmarked_operands line.operands, ?_⟩
  rw [Line.text, h]
  exact foldl_append_text line.operands _

/-- A line has a mark just if it has no opcode. -/
theorem unmarked_text_iff : Unmarked line.text ↔ line.opcode?.isSome := by
  cases hop : line.opcode? with
  | none =>
    refine iff_of_false (fun h => ?_) Bool.false_ne_true
    rw [Line.text_of_none hop] at h
    have hmark := (unmarked_append.1 (unmarked_append.1 (unmarked_append.1 h).1).1).2
    exact absurd hmark (by decide)
  | some op =>
    obtain ⟨operands, hoperands, htext⟩ := Line.text_of_some hop
    refine iff_of_true ?_ rfl
    rw [htext]
    exact unmarked_append.2 ⟨unmarked_append.2 ⟨unmarked_append.2
      ⟨unmarked_paddedAddress _, by decide⟩, op.unmarked_mnemonic⟩, hoperands⟩

/-! ## Lines from an address on -/

/-- The address after a line, if all its operands are there. -/
def Line.next (line : Line) : Nat := line.address + 1 + line.opcode?.elim 0 Opcode.operandCount

/-- The line for an address of the block. -/
def lineAt (c : Code) (a : Nat) : Line :=
  let word := c.words.getD a 0
  let opcode? := Opcode.ofWord? word
  ⟨a, word, opcode?, (c.words.toList.drop (a + 1)).take (opcode?.elim 0 Opcode.operandCount)⟩

/-- The lines from an address on. -/
def linesFrom (c : Code) (a : Nat) : List Line := listingFrom a 0 (c.words.toList.drop a)

/-- The addresses of the lines in the listing. -/
def visited (c : Code) : List Nat := c.listing.map Line.address

theorem listingFrom_skip (skip a : Nat) (words : List Word) :
    listingFrom a skip words = listingFrom (a + skip) 0 (words.drop skip) := by
  induction words generalizing skip a with
  | nil => cases skip <;> rfl
  | cons word words ih =>
    cases skip with
    | zero => rfl
    | succ skip => rw [listingFrom, ih, List.drop_succ_cons, Nat.add_assoc, Nat.add_comm 1 skip]

theorem linesFrom_of_le (h : c.size ≤ a) : c.linesFrom a = [] := by
  rw [linesFrom, List.drop_eq_nil_of_le (by simpa [size] using h), listingFrom]

/-- A line is followed by the lines from the address after it on. -/
theorem linesFrom_of_lt (h : a < c.size) :
    c.linesFrom a = c.lineAt a :: c.linesFrom (c.lineAt a).next := by
  have hdrop : c.words.toList.drop a = c.words.getD a 0 :: c.words.toList.drop (a + 1) := by
    rw [List.drop_eq_getElem_cons (by simpa [size] using h)]
    simp [Array.getD, show a < c.words.size from h]
  rw [linesFrom, hdrop, listingFrom, lineAt, Line.next, linesFrom]
  cases Opcode.ofWord? (c.words.getD a 0) with
  | none => rfl
  | some op =>
    simp only [Option.elim_some]
    rw [listingFrom_skip, List.drop_drop]

theorem lt_of_linesFrom {lines : List Line} (h : c.linesFrom a = line :: lines) : a < c.size := by
  refine Nat.lt_of_not_le fun hle => ?_
  rw [linesFrom_of_le hle] at h
  cases h

theorem linesFrom_min (c : Code) (a : Nat) : c.linesFrom (min a c.size) = c.linesFrom a := by
  rcases Nat.le_total a c.size with h | h
  · rw [Nat.min_eq_left h]
  · rw [Nat.min_eq_right h, linesFrom_of_le h, linesFrom_of_le (Nat.le_refl _)]

/-- A line is the one for its address, and is followed by the lines from the address after it on. -/
theorem linesFrom_inv {before after : List Line} (h : c.linesFrom a = before ++ line :: after) :
    line.address < c.size ∧ line = c.lineAt line.address ∧ after = c.linesFrom line.next := by
  induction before generalizing a with
  | nil =>
    have hlt := lt_of_linesFrom h
    rw [linesFrom_of_lt hlt, List.nil_append] at h
    obtain ⟨rfl, rfl⟩ := List.cons.inj h
    exact ⟨hlt, rfl, rfl⟩
  | cons first before ih =>
    rw [linesFrom_of_lt (lt_of_linesFrom h), List.cons_append] at h
    exact ih (List.cons.inj h).2

/-- The lines from an address on start at it, unless it is the end of the block. -/
theorem head?_linesFrom (h : a ≤ c.size) :
    ((c.linesFrom a).map Line.address ++ [c.size]).head? = some a := by
  rcases Nat.lt_or_eq_of_le h with h | rfl
  · rw [linesFrom_of_lt h]
    rfl
  · rw [linesFrom_of_le (Nat.le_refl _)]
    rfl

theorem opcodesFrom_eq (skip a : Nat) (words : List Word) :
    opcodesFrom skip words = (listingFrom a skip words).filterMap Line.opcode? := by
  induction words generalizing skip a with
  | nil => cases skip <;> rfl
  | cons word words ih =>
    cases skip with
    | succ skip => exact ih skip (a + 1)
    | zero =>
      rw [opcodesFrom, listingFrom]
      cases Opcode.ofWord? word with
      | none => exact ih 0 (a + 1)
      | some op => exact congrArg (op :: ·) (ih op.operandCount (a + 1))

/-- The lines have the opcodes in order. -/
theorem opcodes_eq (c : Code) : c.opcodes = c.listing.filterMap Line.opcode? :=
  opcodesFrom_eq 0 0 c.words.toList

/-! ## Decoding -/

/-- **What decoding finds at an address of the block**, seen from the line for it: no opcode if the
line has none, missing operands if the line would go on beyond the end, and else an instruction of
the size of the line, or an operand that is no index. -/
theorem decode_cases (h : a < c.size) :
    ((c.lineAt a).opcode? = none ∧
      Instr.decode c.words a = .error (.invalidOpcode (c.lineAt a).word a)) ∨
    ((c.lineAt a).opcode?.isSome ∧ c.size < (c.lineAt a).next ∧
      Instr.decode c.words a = .error (.truncatedInstruction a)) ∨
    ((c.lineAt a).opcode?.isSome ∧ (c.lineAt a).next ≤ c.size ∧
      ((∃ i, Instr.decode c.words a = .ok (i, (c.lineAt a).next)) ∨
        ∃ word b, Instr.decode c.words a = .error (.invalidOperand word b))) := by
  have hword : c.words[a]? = some (c.lineAt a).word := by
    simp [lineAt, Array.getD, show a < c.words.size from h]
  have hop : (c.lineAt a).opcode? = Opcode.ofWord? (c.lineAt a).word := rfl
  rw [Instr.decode, hword, Line.next, hop]
  dsimp only
  cases Opcode.ofWord? (c.lineAt a).word with
  | none => exact .inl ⟨rfl, rfl⟩
  | some op =>
    simp only [Option.elim_some]
    split
    · next hlt => exact .inr (.inl ⟨rfl, hlt, rfl⟩)
    · next hle =>
      refine .inr (.inr ⟨rfl, Nat.le_of_not_lt hle, ?_⟩)
      cases hr : Instr.readOperands c.words a op with
      | ok i => exact .inl ⟨i, rfl⟩
      | error fault =>
        obtain ⟨word, b, rfl⟩ := Instr.readOperands_error hr
        exact .inr ⟨word, b, rfl⟩

/-- What a line says of its address is what decoding finds there. -/
structure Line.Tells (line : Line) (words : Array Word) : Prop where
  /-- An opcode is named, and what follows its name has no mark. -/
  named : ∀ op, line.opcode? = some op → ∃ operands, Unmarked operands ∧
    line.text = s!"{paddedAddress line.address}  {op.mnemonic}{operands}"
  /-- The line has a mark just if there is no opcode. -/
  marked : ¬Unmarked line.text ↔
    ∃ word b, Instr.decode words line.address = .error (.invalidOpcode word b)
  /-- The word that is no opcode is shown. -/
  invalid : ∀ word b, Instr.decode words line.address = .error (.invalidOpcode word b) →
    line.text = s!"{paddedAddress line.address}  <invalid {word.text}>"

theorem tells_lineAt (h : a < c.size) : (c.lineAt a).Tells c.words := by
  have haddress : (c.lineAt a).address = a := rfl
  rcases decode_cases h with ⟨hnone, hd⟩ | ⟨hsome, -, hd⟩ | ⟨hsome, -, ⟨i, hd⟩ | ⟨word, b, hd⟩⟩
  · refine ⟨fun op => Line.text_of_some, ?_, fun word b heq => ?_⟩
    · rw [unmarked_text_iff, hnone, haddress, hd]
      exact iff_of_true Bool.false_ne_true ⟨_, _, rfl⟩
    · rw [haddress, hd] at heq
      cases heq
      exact Line.text_of_none hnone
  all_goals
    refine ⟨fun op => Line.text_of_some, ?_, fun word b heq => ?_⟩
    · rw [unmarked_text_iff, hsome, haddress, hd]
      exact iff_of_false (not_not_intro rfl) (by simp)
    · rw [haddress, hd] at heq
      cases heq

/-! ## Loops -/

/-- The rounds of a loop that goes through a block, from an address and what has been made so far.
A round gives the address for the next one. The loop is over once that address lies beyond the
block; then the addresses of all rounds and what they have made are known. -/
inductive Rounds {σ : Type} (size : Nat) (round : Nat → σ → Nat × σ) :
    (address : Nat) → σ → List Nat → σ → Prop
  /-- The end of the block has been reached. -/
  | done {a : Nat} {s : σ} (h : size ≤ a) : Rounds size round a s [] s
  /-- One round, and those after it. -/
  | step {a : Nat} {s out : σ} {visited : List Nat} (h : a < size)
      (rest : Rounds size round (round a s).1 (round a s).2 visited out) :
      Rounds size round a s (a :: visited) out

variable {σ : Type} {round : Nat → σ → Nat × σ} {f : σ → Line → σ} {s : σ}

/-- A loop that ends does so in one way. -/
theorem Rounds.unique {size : Nat} {x y : List Nat} {out out' : σ} (h : Rounds size round a s x out)
    (h' : Rounds size round a s y out') : x = y ∧ out = out' := by
  induction h generalizing y with
  | done hle =>
    cases h' with
    | done => exact ⟨rfl, rfl⟩
    | step hlt => omega
  | step hlt _ ih =>
    cases h' with
    | done => omega
    | step _ rest =>
      obtain ⟨rfl, rfl⟩ := ih rest
      exact ⟨rfl, rfl⟩

/-- **A loop that goes from line to line ends**, whatever it makes of each. The address for the next
round may lie anywhere beyond the block once there are no more lines. -/
theorem rounds_linesFrom
    (hround : ∀ a s, (round a s).2 = f s (c.lineAt a) ∧
      c.linesFrom (round a s).1 = c.linesFrom (c.lineAt a).next) (a : Nat) (s : σ) :
    Rounds c.size round a s ((c.linesFrom a).map Line.address) ((c.linesFrom a).foldl f s) := by
  -- The lines that are left get fewer, while the address may go up by any number.
  generalize hlines : c.linesFrom a = lines
  induction lines generalizing a s with
  | nil =>
    refine .done (Nat.le_of_not_lt fun hlt => ?_)
    rw [linesFrom_of_lt hlt] at hlines
    cases hlines
  | cons line lines ih =>
    have hlt := lt_of_linesFrom hlines
    rw [linesFrom_of_lt hlt] at hlines
    obtain ⟨rfl, hafter⟩ := List.cons.inj hlines
    obtain ⟨hmade, hnext⟩ := hround a s
    have hrest := ih (round a s).1 (round a s).2 (hnext.trans hafter)
    rw [hmade] at hrest
    exact .step hlt (by rwa [hmade])

/-! ### Collecting opcodes -/

/-- A round that adds the opcode at an address, and steps over all operands that it takes. -/
def collect (c : Code) (a : Nat) (opcodes : List Opcode) : Nat × List Opcode :=
  match Opcode.ofWord? (c.words.getD a 0) with
  | some op => (a + 1 + op.operandCount, opcodes ++ [op])
  | none => (a + 1, opcodes)

theorem collect_eq (c : Code) (a : Nat) (opcodes : List Opcode) :
    (c.collect a opcodes).2 = opcodes ++ (c.lineAt a).opcode?.toList ∧
      c.linesFrom (c.collect a opcodes).1 = c.linesFrom (c.lineAt a).next := by
  rw [collect, Line.next, lineAt]
  cases Opcode.ofWord? (c.words.getD a 0) with
  | none => exact ⟨(List.append_nil _).symm, rfl⟩
  | some op => exact ⟨rfl, rfl⟩

theorem foldl_append_opcode? (lines : List Line) (opcodes : List Opcode) :
    lines.foldl (fun opcodes line => opcodes ++ line.opcode?.toList) opcodes =
      opcodes ++ lines.filterMap Line.opcode? := by
  induction lines generalizing opcodes with
  | nil => exact (List.append_nil _).symm
  | cons line lines ih =>
    rw [List.foldl_cons, ih, List.filterMap_cons]
    cases line.opcode? <;> simp

theorem rounds_collect (c : Code) : Rounds c.size c.collect 0 [] c.visited c.opcodes := by
  have hrounds := rounds_linesFrom (f := fun opcodes line => opcodes ++ line.opcode?.toList)
    c.collect_eq 0 []
  rw [foldl_append_opcode?, List.nil_append] at hrounds
  exact opcodes_eq c ▸ hrounds

/-! ### Printing lines -/

/-- A round that prints the line for an address, and goes on at the end if operands are missing. -/
def printLine (c : Code) (a : Nat) (out : String) : Nat × String :=
  let word := c.words.getD a 0
  match Opcode.ofWord? word with
  | none => (a + 1, out ++ s!"{paddedAddress a}  <invalid {word.text}>" ++ "\n")
  | some op =>
    let stop := min (a + 1 + op.operandCount) c.size
    let line := (c.words.extract (a + 1) stop).foldl
      (fun text operand => text ++ " " ++ operand.text)
      (out ++ s!"{paddedAddress a}  {op.mnemonic}")
    (stop, line ++ "\n")

/-- The operands that are there. -/
theorem toList_operands (c : Code) (a n : Nat) :
    (c.words.extract (a + 1) (min (a + 1 + n) c.size)).toList =
      (c.words.toList.drop (a + 1)).take n := by
  rw [Array.toList_extract, List.extract_eq_take_drop, List.take_eq_take_iff, List.length_drop,
    Array.length_toList, size]
  omega

theorem printLine_eq (c : Code) (a : Nat) (out : String) :
    (c.printLine a out).2 = out ++ ((c.lineAt a).text ++ "\n") ∧
      c.linesFrom (c.printLine a out).1 = c.linesFrom (c.lineAt a).next := by
  have hword : (c.lineAt a).word = c.words.getD a 0 := rfl
  have hop : (c.lineAt a).opcode? = Opcode.ofWord? (c.words.getD a 0) := rfl
  rw [printLine, Line.next]
  dsimp only
  cases hof : Opcode.ofWord? (c.words.getD a 0) with
  | none =>
    rw [Line.text_of_none (hop.trans hof), hop, hof, hword]
    exact ⟨String.append_assoc, rfl⟩
  | some op =>
    have hoperands : (c.lineAt a).operands =
        (c.words.toList.drop (a + 1)).take op.operandCount := by
      rw [lineAt, hof]
      rfl
    rw [Line.text, hop, hof]
    dsimp only [Option.elim_some]
    rw [linesFrom_min, ← Array.foldl_toList, toList_operands, ← hoperands, foldl_append_text,
      foldl_append_text _ s!"{paddedAddress (c.lineAt a).address}  {op.mnemonic}"]
    refine ⟨?_, rfl⟩
    simp only [String.append_assoc]
    rfl

theorem rounds_printLine (c : Code) : Rounds c.size c.printLine 0 "" c.visited c.disassemble := by
  have hrounds := rounds_linesFrom (f := fun out line => out ++ (line.text ++ "\n"))
    c.printLine_eq 0 ""
  rw [disassemble, String.join, List.foldl_map]
  exact hrounds

/-! ## Agreement -/

/-- **The loops agree on all words.** Collecting opcodes and printing lines end, and come by the
same addresses; the opcodes that are collected are those of the lines that are printed. A line has
the mark of a word that is no opcode just if decoding finds none at its address. An instruction that
decoding finds at one of the addresses ends at the next one, or at the end of the block; and only at
the last of them can operands be missing. -/
theorem walks_agree (c : Code) :
    (∀ visited opcodes, Rounds c.size c.collect 0 [] visited opcodes ↔
      visited = c.visited ∧ opcodes = c.opcodes) ∧
    (∀ visited text, Rounds c.size c.printLine 0 "" visited text ↔
      visited = c.visited ∧ text = c.disassemble) ∧
    c.opcodes = c.listing.filterMap Line.opcode? ∧
    c.disassemble = String.join (c.listing.map fun line => line.text ++ "\n") ∧
    (∀ line ∈ c.listing, line.Tells c.words) ∧
    ∀ before a after, c.visited = before ++ a :: after →
      (∀ i next, Instr.decode c.words a = .ok (i, next) →
        (after ++ [c.size]).head? = some next) ∧
      ∀ b, Instr.decode c.words a = .error (.truncatedInstruction b) → after = [] := by
  refine ⟨fun visited opcodes => ⟨fun h => h.unique c.rounds_collect, ?_⟩,
    fun visited text => ⟨fun h => h.unique c.rounds_printLine, ?_⟩, opcodes_eq c, rfl,
    fun line hline => ?_, fun before a after h => ?_⟩
  · rintro ⟨rfl, rfl⟩
    exact c.rounds_collect
  · rintro ⟨rfl, rfl⟩
    exact c.rounds_printLine
  · obtain ⟨before, after, h⟩ := List.append_of_mem hline
    obtain ⟨hlt, heq, -⟩ := linesFrom_inv h
    exact heq ▸ tells_lineAt hlt
  · obtain ⟨lines, rest, hlines, rfl, hrest⟩ := List.map_eq_append_iff.1 h
    obtain ⟨line, later, rfl, rfl, rfl⟩ := List.map_eq_cons_iff.1 hrest
    obtain ⟨hlt, heq, rfl⟩ := linesFrom_inv hlines
    have hnext : line.next = (c.lineAt line.address).next := congrArg Line.next heq
    rw [hnext]
    rcases decode_cases hlt with ⟨-, hd⟩ | ⟨-, hbeyond, hd⟩ | ⟨-, hle, ⟨i, hd⟩ | ⟨word, b, hd⟩⟩
    · rw [hd]
      exact ⟨by simp, by simp⟩
    · rw [hd, linesFrom_of_le (Nat.le_of_lt hbeyond)]
      exact ⟨by simp, fun _ _ => rfl⟩
    · rw [hd]
      refine ⟨fun j next heq => ?_, by simp⟩
      cases heq
      exact head?_linesFrom hle
    · rw [hd]
      exact ⟨by simp, by simp⟩

example : (ofList ([0, 1, 99, 28, 0].map Word.ofNat)).disassemble =
    "0000  PUSH 1\n0002  <invalid 99>\n0003  FIRE_WITH_UPDATER 0\n" := by decide +kernel

end Code

end Danmaku
