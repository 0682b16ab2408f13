import Danmaku.Proofs.Word.Whole

/-!
# The whole numbers that are words

A word has room for twenty-four binary places, at whatever scale. So beyond `2 ^ 24` some whole
numbers are words and others are not (`Word.Holds`). Those that are words are written as themselves
and read back (`Word.toIndex?_ofNat_of_holds`), and no others are, but for the largest index, to
which everything beyond is clamped (`Word.toIndex?_ofNat_eq_some_iff`).

What is read from a word is a number that is a word itself, or the largest there is. So it can be
written and read again without a change, however the word came about
(`Word.toIndex?_ofNat_of_toIndex?`, `Word.toOffset_ofInt_toOffset`).
-/

namespace Danmaku.Word

/-- Twenty-four binary places at some scale are enough for the number. -/
def Holds (n : Nat) : Prop := ∃ k shift, k < 0x1000000 ∧ n = k <<< shift

theorem holds_of_le {n : Nat} (h : n ≤ 0x1000000) : Holds n := by
  rcases Nat.lt_or_eq_of_le h with hlt | rfl
  · exact ⟨n, 0, hlt, Nat.shiftLeft_zero.symm⟩
  · exact ⟨1, 24, by decide, by decide⟩

/-- Beyond `2 ^ 24` all twenty-four places are in use. -/
theorem Holds.full {n : Nat} (h : Holds n) (hn : 0x1000000 < n) :
    ∃ k shift, 0x800000 ≤ k ∧ k < 0x1000000 ∧ n = k <<< shift := by
  obtain ⟨k, shift, hk, rfl⟩ := h
  have hk0 : k ≠ 0 := by
    rintro rfl
    rw [Nat.zero_shiftLeft] at hn
    omega
  have hlow := Nat.log2_self_le hk0
  have hhigh : k < 2 ^ (k.log2 + 1) := Nat.lt_log2_self
  have hlog : k.log2 < 24 := (Nat.log2_lt hk0).2 hk
  -- the significand moves up by as many places as are free, which the scale has to spare
  have hspare : 23 - k.log2 ≤ shift := by
    by_contra hlt
    have hbound : k <<< shift < 2 ^ 24 := by
      rw [Nat.shiftLeft_eq]
      calc k * 2 ^ shift < 2 ^ (k.log2 + 1) * 2 ^ shift :=
            Nat.mul_lt_mul_of_pos_right hhigh (Nat.two_pow_pos _)
        _ = 2 ^ (k.log2 + 1 + shift) := (Nat.pow_add ..).symm
        _ ≤ 2 ^ 24 := Nat.pow_le_pow_right (by omega) (by omega)
    omega
  refine ⟨k <<< (23 - k.log2), shift - (23 - k.log2), ?_, ?_, ?_⟩
  · rw [Nat.shiftLeft_eq]
    calc 0x800000 = 2 ^ k.log2 * 2 ^ (23 - k.log2) := by
          rw [← Nat.pow_add, show k.log2 + (23 - k.log2) = 23 by omega]
      _ ≤ k * 2 ^ (23 - k.log2) := Nat.mul_le_mul_right _ hlow
  · rw [Nat.shiftLeft_eq]
    calc k * 2 ^ (23 - k.log2) < 2 ^ (k.log2 + 1) * 2 ^ (23 - k.log2) :=
          Nat.mul_lt_mul_of_pos_right hhigh (Nat.two_pow_pos _)
      _ = 0x1000000 := by
          rw [← Nat.pow_add, show k.log2 + 1 + (23 - k.log2) = 24 by omega]
  · rw [← Nat.shiftLeft_add, show 23 - k.log2 + (shift - (23 - k.log2)) = shift by omega]

/-! ## Words of numbers -/

/-- **A number that is a word is written as that word**, of either sign. -/
theorem ofUnits_holds (negative : Bool) {n : Nat} (h : Holds n) (hn : n < 2 ^ 128) :
    (ofUnits negative (n <<< 149)).isReal = true ∧
      (ofUnits negative (n <<< 149)).isNegative = negative ∧
      (ofUnits negative (n <<< 149)).isZero = decide (n = 0) ∧
      (ofUnits negative (n <<< 149)).magnitude = n := by
  rcases Nat.lt_or_ge 0x1000000 n with hlt | hle
  · obtain ⟨k, shift, hlo, hhi, rfl⟩ := h.full hlt
    have hshift : shift ≤ 104 := by
      by_contra hgt
      have hpow : 2 ^ 105 ≤ 2 ^ shift := Nat.pow_le_pow_right (by omega) (by omega)
      have hmul := Nat.mul_le_mul hlo hpow
      rw [Nat.shiftLeft_eq] at hn
      omega
    have hu : k <<< shift <<< 149 = k <<< (shift + 149) := (Nat.shiftLeft_add ..).symm
    obtain ⟨hreal, hneg, hzero, hsig, hscale⟩ :=
      ofUnits_shiftLeft negative hlo hhi (show shift + 149 ≤ 253 by omega)
    rw [← hu] at hreal hneg hzero hsig hscale
    refine ⟨hreal, hneg, by rw [hzero, decide_eq_false (by omega)], ?_⟩
    rw [magnitude, hsig, hscale, if_pos (Nat.le_add_left ..), Nat.add_sub_cancel]
  · obtain ⟨hreal, hneg, hzero, -, hmag⟩ := ofUnits_whole negative hle
    exact ⟨hreal, hneg, hzero, hmag⟩

/-- A number that is a word is read back as an index. -/
theorem toIndex?_ofNat_of_holds {n : Nat} (h : Holds n) (hn : n < 2 ^ 64) :
    (ofNat n).toIndex? = some n := by
  obtain ⟨hreal, hneg, -, hmag⟩ := ofUnits_holds false h (by omega)
  rw [toIndex?, ofNat, hreal, hneg, hmag]
  simp
  omega

/-- A number that is a word is read back as a distance, either way. -/
theorem toOffset_ofInt_of_holds {n : Int} (h : Holds n.natAbs) (hlo : -0x8000000000000000 ≤ n)
    (hhi : n ≤ 0x7fffffffffffffff) : (ofInt n).toOffset = n := by
  obtain ⟨hreal, hneg, -, hmag⟩ := ofUnits_holds (decide (n < 0)) h (by omega)
  have hnum : (ofUnits (decide (n < 0)) (n.natAbs <<< 149)).isNumber = true := by
    simp only [isReal, bne_iff_ne] at hreal
    simp [isNumber, hreal]
  rw [toOffset, ofInt, hnum, hneg, hmag]
  rcases lt_or_ge n 0 with hn | hn
  · rw [if_neg (by simp), if_pos (by simpa using hn)]
    omega
  · rw [if_neg (by simp), if_neg (by simpa using hn)]
    omega

/-! ## Numbers of words -/

theorem significand_lt (w : Word) : w.significand < 0x1000000 := by
  rw [significand, fractionField]
  split <;> omega

/-- The whole part of a word is a word. -/
theorem holds_magnitude (w : Word) : Holds w.magnitude := by
  rw [magnitude]
  split
  · exact ⟨w.significand, w.scale - 149, w.significand_lt, rfl⟩
  · refine ⟨w.significand >>> (149 - w.scale), 0, ?_, Nat.shiftLeft_zero.symm⟩
    exact (Nat.shiftRight_le _ _).trans_lt w.significand_lt

theorem toIndex?_inv {w : Word} {n : Nat} (h : w.toIndex? = some n) :
    n = min w.magnitude 0xffffffffffffffff := by
  rw [toIndex?] at h
  split at h
  · exact (Option.some.inj h).symm
  · cases h

/-- An index that was read is a word, or the largest there is. -/
theorem holds_of_toIndex? {w : Word} {n : Nat} (h : w.toIndex? = some n) :
    n < 2 ^ 64 ∧ (Holds n ∨ n = 0xffffffffffffffff) := by
  have hmag := w.holds_magnitude
  rw [toIndex?_inv h]
  rcases Nat.le_total w.magnitude 0xffffffffffffffff with hle | hle
  · rw [Nat.min_eq_left hle]
    exact ⟨by omega, .inl hmag⟩
  · rw [Nat.min_eq_right hle]
    exact ⟨by decide, .inr rfl⟩

/-- The largest index is read back, as it is rounded up and then clamped. -/
theorem toIndex?_ofNat_max : (ofNat 0xffffffffffffffff).toIndex? = some 0xffffffffffffffff := by
  decide +kernel

/-- **Which indices are read back.** -/
theorem toIndex?_ofNat_eq_some_iff {n : Nat} (hn : n < 2 ^ 64) :
    (ofNat n).toIndex? = some n ↔ Holds n ∨ n = 0xffffffffffffffff := by
  refine ⟨fun h => (holds_of_toIndex? h).2, ?_⟩
  rintro (h | rfl)
  · exact toIndex?_ofNat_of_holds h hn
  · exact toIndex?_ofNat_max

/-- **An index that was read once is read again**, once it has been written. -/
theorem toIndex?_ofNat_of_toIndex? {w : Word} {n : Nat} (h : w.toIndex? = some n) :
    (ofNat n).toIndex? = some n := by
  obtain ⟨hn, hholds⟩ := holds_of_toIndex? h
  exact (toIndex?_ofNat_eq_some_iff hn).2 hholds

/-- A distance that was read is a word, or the largest there is. -/
theorem holds_toOffset (w : Word) :
    -0x8000000000000000 ≤ w.toOffset ∧ w.toOffset ≤ 0x7fffffffffffffff ∧
      (Holds w.toOffset.natAbs ∨ w.toOffset = 0x7fffffffffffffff) := by
  have hmag := w.holds_magnitude
  rw [toOffset]
  split
  · exact ⟨by decide, by decide, .inl (holds_of_le (by decide))⟩
  · split
    · rcases Nat.le_total w.magnitude 0x8000000000000000 with hle | hle
      · rw [max_eq_left (by omega), Int.natAbs_neg, Int.natAbs_natCast]
        exact ⟨by omega, by omega, .inl hmag⟩
      · rw [max_eq_right (by omega)]
        exact ⟨by decide, by decide, .inl ⟨1, 63, by decide, by decide⟩⟩
    · rcases Nat.le_total w.magnitude 0x7fffffffffffffff with hle | hle
      · rw [min_eq_left (by omega), Int.natAbs_natCast]
        exact ⟨by omega, by omega, .inl hmag⟩
      · rw [min_eq_right (by omega)]
        exact ⟨by decide, by decide, .inr rfl⟩

/-- The largest distance is read back, as it is rounded up and then clamped. -/
theorem toOffset_ofInt_max : (ofInt 0x7fffffffffffffff).toOffset = 0x7fffffffffffffff := by
  decide +kernel

/-- **A distance that was read once is read again**, once it has been written. -/
theorem toOffset_ofInt_toOffset (w : Word) : (ofInt w.toOffset).toOffset = w.toOffset := by
  obtain ⟨hlo, hhi, hholds | hmax⟩ := w.holds_toOffset
  · exact toOffset_ofInt_of_holds hholds hlo hhi
  · rw [hmax, toOffset_ofInt_max]

/-! ## Every index has a word -/

/-- A number of at most 64 binary places is far below the infinite word. -/
theorem nearestBits_lt {u : Nat} (h : u < 2 ^ 213) : nearestBits u < 255 * 0x800000 := by
  have hlog : u.log2 - 23 ≤ 189 := by
    rcases Nat.eq_zero_or_pos u with rfl | h0
    · decide
    · have := (Nat.log2_lt h0.ne').2 h
      omega
  have hkept : u >>> (u.log2 - 23) < 0x1000000 := by
    rw [Nat.shiftRight_eq_div_pow, Nat.div_lt_iff_lt_mul (Nat.two_pow_pos _)]
    calc u < 2 ^ (u.log2 + 1) := Nat.lt_log2_self
      _ ≤ 2 ^ (24 + (u.log2 - 23)) := Nat.pow_le_pow_right (by omega) (by omega)
      _ = 0x1000000 * 2 ^ (u.log2 - 23) := Nat.pow_add ..
  simp only [nearestBits]
  generalize u >>> (u.log2 - 23) = kept at hkept ⊢
  generalize u.log2 - 23 = shift at hlog ⊢
  refine (Nat.min_le_left _ _).trans_lt ?_
  rw [Nat.shiftLeft_eq]
  split <;> omega

/-- **Every index is written as a word from which some index is read.** -/
theorem exists_toIndex?_ofNat {n : Nat} (h : n < 2 ^ 64) : ∃ m, (ofNat n).toIndex? = some m := by
  have hbits : nearestBits (n <<< 149) < 255 * 0x800000 := by
    refine nearestBits_lt ?_
    rw [Nat.shiftLeft_eq]
    omega
  have hw := toNat_toBits_ofUnits false hbits
  simp only [Bool.false_eq_true, if_false, Nat.add_zero] at hw
  have hreal : (ofNat n).isReal = true := by
    rw [isReal, bne_iff_ne, exponentField, ofNat, hw]
    omega
  have hneg : (ofNat n).isNegative = false := by
    rw [isNegative, ofNat, hw]
    exact decide_eq_false (by omega)
  rw [toIndex?, hreal, hneg]
  exact ⟨_, rfl⟩

end Danmaku.Word
