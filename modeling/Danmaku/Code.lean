import Danmaku.Instr

/-!
# Code

A block of code is a sequence of words that grows at its end. A jump forward is written before its
target is known: `Code.emitJump` leaves a zero operand, and `Code.patch` fills it in later. A loop
collects the operands of the jumps that leave it or start it again in `LoopJumps`.

Two walks read a block from its start, both stepping over the operands of each opcode and over
words that are none: `Code.opcodes` names the operations, and `Code.listing` shows everything.
-/

namespace Danmaku

/-- A block of code. -/
structure Code where
  /-- The words, opcodes and operands alike. -/
  words : Array Word := #[]
  deriving DecidableEq, Inhabited

/-- An operand to be filled in that is not in the block. -/
structure PatchError where
  /-- Where the operand should be. -/
  address : Nat
  /-- How many words the block has. -/
  size : Nat
  deriving DecidableEq, Repr

/-- The wording of the error. -/
def PatchError.message (e : PatchError) : String :=
  s!"patch address {e.address} outside block of length {e.size}"

namespace Code

/-- The block of no words. -/
def empty : Code := {}

/-- The block of the given words. -/
def ofList (words : List Word) : Code := ⟨words.toArray⟩

/-- How many words the block has; also the address of the word written next. -/
def size (c : Code) : Nat := c.words.size

/-- Whether nothing has been written. -/
def isEmpty (c : Code) : Bool := c.words.isEmpty

/-- The word at an address. -/
def word? (c : Code) (address : Nat) : Option Word := c.words[address]?

/-- Write one word. -/
def push (c : Code) (word : Word) : Code := ⟨c.words.push word⟩

/-- Write several words. -/
def append (c : Code) (words : List Word) : Code := ⟨c.words ++ words⟩

/-- Write an opcode. -/
def pushOpcode (c : Code) (opcode : Opcode) : Code := c.push opcode.word

/-- Write an opcode and an index for its operand. -/
def pushIndexed (c : Code) (opcode : Opcode) (index : Nat) : Code :=
  (c.pushOpcode opcode).push (.ofNat index)

/-- Write a jump whose target is not known yet. The result has the address of its operand. -/
def emitJump (c : Code) (opcode : Opcode) : Code × Nat :=
  let c := c.pushOpcode opcode
  (c.push 0, c.size)

/-- Fill in an operand. -/
def patch (c : Code) (address : Nat) (word : Word) : Except PatchError Code :=
  if address < c.size then .ok ⟨c.words.setIfInBounds address word⟩
  else .error ⟨address, c.size⟩

/-- Fill in an operand with the address of the word written next. -/
def patchToHere (c : Code) (address : Nat) : Except PatchError Code :=
  c.patch address (.ofNat c.size)

/-- Fill in several operands with one target. -/
def patchAll (c : Code) (target : Nat) : List Nat → Except PatchError Code
  | [] => .ok c
  | address :: rest =>
    match c.patch address (.ofNat target) with
    | .error e => .error e
    | .ok c => c.patchAll target rest

/-- The instruction at an address, if there is one, and the address after it. -/
def read? (c : Code) (address : Nat) : Option (Instr × Nat) :=
  (Instr.decode c.words address).toOption

/-- Whether two blocks have equal words, as numbers: the zeros are equal, and what is no number
differs from itself. -/
def sameWords (c : Code) (words : List Word) : Bool :=
  c.words.toList == words

/-! ## Reading a block through -/

/-- The opcodes among some words, the first `skip` of which are operands. -/
def opcodesFrom : (skip : Nat) → List Word → List Opcode
  | _, [] => []
  | skip + 1, _ :: rest => opcodesFrom skip rest
  | 0, word :: rest =>
    match Opcode.ofWord? word with
    | some opcode => opcode :: opcodesFrom opcode.operandCount rest
    | none => opcodesFrom 0 rest

/-- The opcodes of the block in order. -/
def opcodes (c : Code) : List Opcode := opcodesFrom 0 c.words.toList

/-- A line of a listing: an opcode with as many of its operands as the block has, or a word that
is no opcode. -/
structure Line where
  /-- The address of the word. -/
  address : Nat
  /-- The word itself. -/
  word : Word
  /-- The opcode that it is, if any. -/
  opcode? : Option Opcode
  /-- The words after it that are its operands. -/
  operands : List Word
  deriving DecidableEq

/-- The lines for some words, the first of which stands at `address` and the first `skip` of which
are operands of a line before. -/
def listingFrom : (address skip : Nat) → List Word → List Line
  | _, _, [] => []
  | address, skip + 1, _ :: rest => listingFrom (address + 1) skip rest
  | address, 0, word :: rest =>
    match Opcode.ofWord? word with
    | some opcode =>
      ⟨address, word, some opcode, rest.take opcode.operandCount⟩ ::
        listingFrom (address + 1) opcode.operandCount rest
    | none => ⟨address, word, none, []⟩ :: listingFrom (address + 1) 0 rest

/-- The listing of the block. -/
def listing (c : Code) : List Line := listingFrom 0 0 c.words.toList

/-- A number of at least four digits. -/
def paddedAddress (n : Nat) : String :=
  let digits := toString n
  String.ofList (List.replicate (4 - digits.length) '0') ++ digits

/-- The text of a line. -/
def Line.text (line : Line) : String :=
  match line.opcode? with
  | none => s!"{paddedAddress line.address}  <invalid {line.word.text}>"
  | some opcode =>
    line.operands.foldl (fun text operand => text ++ " " ++ operand.text)
      s!"{paddedAddress line.address}  {opcode.mnemonic}"

/-- The text of the listing, each line ended by a line feed. -/
def disassemble (c : Code) : String :=
  String.join (c.listing.map fun line => line.text ++ "\n")

end Code

/-- The operands of the jumps out of a loop and back to its start that are still to be filled in. -/
structure LoopJumps where
  /-- The operands that wait for the address after the loop. -/
  breaks : List Nat := []
  /-- The operands that wait for the address at which the loop goes on. -/
  continues : List Nat := []
  deriving DecidableEq, Inhabited, Repr

namespace LoopJumps

/-- Note a jump out of the loop. -/
def addBreak (j : LoopJumps) (operand : Nat) : LoopJumps :=
  { j with breaks := j.breaks ++ [operand] }

/-- Note a jump to where the loop goes on. -/
def addContinue (j : LoopJumps) (operand : Nat) : LoopJumps :=
  { j with continues := j.continues ++ [operand] }

/-- How many operands are still to be filled in. -/
def pending (j : LoopJumps) : Nat := j.breaks.length + j.continues.length

/-- Fill in all operands. -/
def resolve (j : LoopJumps) (c : Code) (exit again : Nat) : Except PatchError Code :=
  match c.patchAll exit j.breaks with
  | .error e => .error e
  | .ok c => c.patchAll again j.continues

end LoopJumps

end Danmaku
