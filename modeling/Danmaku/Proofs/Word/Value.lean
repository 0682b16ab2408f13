import Danmaku.Word.Basic
import Mathlib.Algebra.Order.Floor.Semifield
import Mathlib.Data.Rat.Floor

/-!
# The numbers that words are

A word is a rational number, which its three fields of bits say (`Word.value?`): a sign, a power of
two, and a fraction in twenty-four binary places. The machine counts units instead, and there are
`2 ^ 149` of them in one (`Word.value?_eq`).

So the ticks that the machine waits for a word are the whole part of the number, as far as it is not
below zero and fits into 32 bits (`Word.toTicks_eq_waitTicks`).
-/

namespace Danmaku.Word

/-- The size of a word. The infinities count as `2 ^ 128`, the power of two that comes next after
all finite words. -/
def size (w : Word) : ℚ :=
  let exponent : ℕ := w.toBits.toNat / 2 ^ 23 % 2 ^ 8
  let fraction : ℚ := (w.toBits.toNat % 2 ^ 23 : ℕ) / 2 ^ 23
  if exponent = 0 then fraction * 2 ^ (-126 : ℤ) else (1 + fraction) * 2 ^ (exponent - 127 : ℤ)

/-- The number that a word is, unless it is no number. -/
def value? (w : Word) : Option ℚ :=
  let bits := w.toBits.toNat
  if bits / 2 ^ 23 % 2 ^ 8 = 255 ∧ bits % 2 ^ 23 ≠ 0 then none
  else if bits < 2 ^ 31 then some w.size
  else some (-w.size)

/-- The ticks that a wait for a word takes: the whole part of the number, but none for what is below
zero or no number, and no more than 32 bits can count. -/
def waitTicks (w : Word) : ℕ :=
  match w.value? with
  | none => 0
  | some q => min ⌊q⌋₊ (2 ^ 32 - 1)

/-- The size of a word is counted in units of `2 ^ -149`. -/
theorem size_eq (w : Word) : w.size = w.units / 2 ^ 149 := by
  have hexponent : w.toBits.toNat / 2 ^ 23 % 2 ^ 8 = w.exponentField := rfl
  have hfraction : w.toBits.toNat % 2 ^ 23 = w.fractionField := rfl
  simp only [size, hexponent, hfraction]
  rw [units, Nat.shiftLeft_eq, significand, scale]
  split
  · next h =>
    rw [h, Nat.zero_sub, pow_zero, mul_one]
    norm_num
    ring
  · next h =>
    have hpow : (2 : ℚ) ^ (w.exponentField - 127 : ℤ) =
        2 ^ (w.exponentField - 1) * 2 ^ (-126 : ℤ) := by
      rw [← zpow_natCast, ← zpow_add₀ two_ne_zero]
      congr 1
      omega
    rw [hpow]
    push_cast
    norm_num
    ring

/-- The number of a word is its size, with its sign. -/
theorem value?_eq (w : Word) : w.value? =
    if w.isNumber = false then none else some (if w.isNegative then -w.size else w.size) := by
  have hnumber : (w.toBits.toNat / 2 ^ 23 % 2 ^ 8 = 255 ∧ w.toBits.toNat % 2 ^ 23 ≠ 0) ↔
      w.isNumber = false := by
    rw [isNumber, exponentField, fractionField]
    simp
  have hsign : w.toBits.toNat < 2 ^ 31 ↔ w.isNegative = false := by
    simp [isNegative]
  simp only [value?, hnumber, hsign]
  cases w.isNegative <;> rfl

/-- **The machine waits as many ticks as the number of a word says**: its whole part, clamped to 32
bits, and none for what is below zero or no number. -/
theorem toTicks_eq_waitTicks (w : Word) : w.toTicks = w.waitTicks := by
  rw [toTicks_eq, waitTicks, value?_eq]
  cases hnumber : w.isNumber with
  | false => simp
  | true =>
    cases hnegative : w.isNegative with
    | true =>
      have hle : -w.size ≤ 0 := by
        rw [size_eq, neg_nonpos]
        positivity
      simp [Nat.floor_of_nonpos hle]
    | false =>
      have hfloor : ⌊w.size⌋₊ = w.units / 2 ^ 149 := by
        have hdiv := Nat.floor_div_eq_div (K := ℚ) w.units (2 ^ 149)
        rwa [Nat.cast_pow, Nat.cast_ofNat, ← size_eq] at hdiv
      simp [hfloor, Nat.shiftRight_eq_div_pow]

example : [(2.75 : Word), 0.5, -3, notANumber, Float32.ofBits 0x7f800000].map waitTicks =
    [2, 0, 0, 0, 2 ^ 32 - 1] := by
  rw [← funext toTicks_eq_waitTicks]
  decide +kernel

end Danmaku.Word
