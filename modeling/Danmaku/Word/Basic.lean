/-!
# Words

Code, operands and variables are all made of one kind of number, the binary32 float. A word is
read here as an exact integer: every finite word is a whole number of *units*, the unit being the
smallest positive word `2 ^ -149`. So a word has a sign and a number of units
(`Word.isNegative`, `Word.units`), and the other way a number of units has a nearest word
(`Word.ofUnits`).

An operand is a word that stands for a whole number. `Word.ofNat` writes one and rounds to the
nearest word, a half going to the even neighbour; `Word.toIndex?` and `Word.toOffset` read one,
dropping the fraction and clamping to 64 bits.
-/

namespace Danmaku

/-- A word of code, and a value of a running script. -/
abbrev Word := Float32

namespace Word

/-! ## The fields of a word -/

/-- The eight bits that scale a word. All ones are kept for the infinities and for no number. -/
def exponentField (w : Word) : Nat := w.toBits.toNat / 0x800000 % 0x100

/-- The twenty-three stored bits of the significand. -/
def fractionField (w : Word) : Nat := w.toBits.toNat % 0x800000

/-- Whether the sign bit is set. Negative zero is negative. -/
def isNegative (w : Word) : Bool := decide (0x80000000 ≤ w.toBits.toNat)

/-- Whether the word is a number, finite or not. -/
def isNumber (w : Word) : Bool := !(w.exponentField == 255 && w.fractionField != 0)

/-- Whether the word is a real number. -/
def isReal (w : Word) : Bool := w.exponentField != 255

/-- Whether the word is one of the two zeros. -/
def isZero (w : Word) : Bool := w.exponentField == 0 && w.fractionField == 0

/-- The significand as a whole number, with its leading bit unless the word is subnormal. -/
def significand (w : Word) : Nat :=
  if w.exponentField = 0 then w.fractionField else 0x800000 + w.fractionField

/-- How many binary places the significand stands above the unit. -/
def scale (w : Word) : Nat := w.exponentField - 1

/-- The size of a finite word, counted in units of `2 ^ -149`. -/
def units (w : Word) : Nat := w.significand <<< w.scale

/-- The whole part of the size of a finite word. An infinity counts as `2 ^ 128`. -/
def magnitude (w : Word) : Nat :=
  if 149 ≤ w.scale then w.significand <<< (w.scale - 149)
  else w.significand >>> (149 - w.scale)

/-- Whether a finite word has no fraction. -/
def isWhole (w : Word) : Bool :=
  decide (149 ≤ w.scale) ||
    w.significand >>> (149 - w.scale) <<< (149 - w.scale) == w.significand

/-! ## Numbers as words -/

/-- The bits of the positive word nearest to a number of units, a half going to the even
neighbour. A carry out of the significand lands in the exponent, which is the next word up;
beyond the largest finite word lies infinity. -/
def nearestBits (u : Nat) : Nat :=
  let shift := u.log2 - 23
  let kept := u >>> shift
  let twice := 2 * (u - kept <<< shift)
  let unit := 1 <<< shift
  let up := if unit < twice ∨ (unit = twice ∧ kept % 2 = 1) then 1 else 0
  min (shift <<< 23 + kept + up) (255 <<< 23)

/-- The word of the given sign nearest to a number of units. -/
def ofUnits (negative : Bool) (u : Nat) : Word :=
  Float32.ofBits (UInt32.ofNat (nearestBits u + if negative then 0x80000000 else 0))

/-- The word nearest to a natural number. -/
def ofNat (n : Nat) : Word := ofUnits false (n <<< 149)

/-- The word nearest to an integer. -/
def ofInt (n : Int) : Word := ofUnits (decide (n < 0)) (n.natAbs <<< 149)

/-- The word that is no number. -/
def notANumber : Word := Float32.ofBits 0x7fc00000

/-- The two truth values of a comparison. -/
def ofBool (b : Bool) : Word := if b then 1 else 0

/-! ## Words as numbers -/

/-- The whole part of a word that is not below zero, at most the largest 64-bit index. An
infinite word, one below zero and one that is no number are no index. -/
def toIndex? (w : Word) : Option Nat :=
  if w.isReal && (!w.isNegative || w.isZero) then some (min w.magnitude 0xffffffffffffffff)
  else none

/-- The whole part of a word, clamped to the signed 64-bit range. What is no number is zero. -/
def toOffset (w : Word) : Int :=
  if !w.isNumber then 0
  else if w.isNegative then max (-(w.magnitude : Int)) (-0x8000000000000000)
  else min (w.magnitude : Int) 0x7fffffffffffffff

/-- The whole number that a word is, if it is one. Both zeros are zero. -/
def toNat? (w : Word) : Option Nat :=
  if w.isReal && (!w.isNegative || w.isZero) && w.isWhole then some w.magnitude else none

/-- A number of ticks: the whole part, clamped to 32 bits; what is below zero or no number
waits for nothing. -/
def toTicks (w : Word) : Nat :=
  if !w.isNumber || w.isNegative then 0 else min w.magnitude 0xffffffff

/-- The whole part of a size is the units without their last 149 places. -/
theorem magnitude_eq (w : Word) : w.magnitude = w.units >>> 149 := by
  rw [magnitude, units]
  split
  · next h =>
    have hscale : w.scale = w.scale - 149 + 149 := by omega
    rw [hscale, Nat.shiftLeft_add, Nat.shiftLeft_shiftRight, Nat.add_sub_cancel]
  · next h =>
    have hscale : 149 = w.scale + (149 - w.scale) := by omega
    rw [hscale, Nat.shiftRight_add, Nat.shiftLeft_shiftRight, Nat.add_sub_cancel_left]

/-- **What a number of ticks is**, in terms of the units of the word. -/
theorem toTicks_eq (w : Word) : w.toTicks =
    if w.isNumber = false ∨ w.isNegative = true then 0 else min (w.units >>> 149) 0xffffffff := by
  rw [toTicks, magnitude_eq]
  simp only [Bool.or_eq_true, Bool.not_eq_true']

end Word

end Danmaku
