import Danmaku.Opcode
import Mathlib.Tactic.Common
import Mathlib.Tactic.Positivity

/-!
# Whole numbers as words

Every whole number up to `2 ^ 24` is a word, so it may be written as an operand and is read back as
itself: `Word.toIndex?_ofNat` for indices and addresses, `Word.toOffset_ofInt` for distances, and
`Opcode.ofWord?_word` for the opcodes, which are numbers below 31.

The way there is along the bits. A bit pattern that is no infinity and no missing number survives
the passage through a word (`Word.toBits_ofBits`), and a number of units with at most 24 significant
binary places has the pattern of its scale and its significand (`Word.nearestBits_shiftLeft`).
-/

namespace Danmaku.Word

open Float.Model Float.Model.UnpackedFloat

/-! ## Bit patterns -/

theorem toNat_unpackMantissa (b : BitVec 32) :
    (@unpackMantissa .binary32 b).toNat = b.toNat % 0x800000 := by
  simp [unpackMantissa]

theorem toNat_unpackExponent (b : BitVec 32) :
    (@unpackExponent .binary32 b).toNat = b.toNat / 0x800000 % 0x100 := by
  simp [unpackExponent, Nat.shiftRight_eq_div_pow]

theorem toNat_unpackSign (b : BitVec 32) :
    (@unpackSign .binary32 b).toNat = b.toNat / 0x80000000 := by
  have : b.toNat < 0x100000000 := b.isLt
  delta unpackSign
  simp [Nat.shiftRight_eq_div_pow]
  omega

theorem toNat_packComponents (s : Sign) (e : BitVec 8) (m : BitVec 23) :
    (packComponents Format.binary32 s e m).toNat =
      s.toBitVec.toNat * 0x80000000 + e.toNat * 0x800000 + m.toNat := by
  have he := e.isLt
  have hm := m.isLt
  rw [packComponents, BitVec.toNat_append, BitVec.toNat_append,
    ← Nat.shiftLeft_add_eq_or_of_lt hm, ← Nat.shiftLeft_add_eq_or_of_lt he,
    Nat.shiftLeft_eq, Nat.shiftLeft_eq]
  omega

theorem toBitVec_ofBitVec (b : BitVec 1) : (Sign.ofBitVec b).toBitVec = b := by
  revert b; decide

/-- A pattern is made of its sign, its exponent and its fraction. -/
theorem packComponents_unpack (b : BitVec 32) :
    packComponents Format.binary32 (.ofBitVec (@unpackSign .binary32 b))
      (@unpackExponent .binary32 b)
      (@unpackMantissa .binary32 b) = b := by
  apply BitVec.eq_of_toNat_eq
  rw [toNat_packComponents, toBitVec_ofBitVec, toNat_unpackSign, toNat_unpackExponent,
    toNat_unpackMantissa]
  have := b.isLt
  omega

theorem pack_finite (s : Sign) {m : Nat} (e : Int) (hm : 0 < m) :
    UnpackedFloat.pack Format.binary32 (.finite s m e hm) =
      if 256 ≤ (e + 127 + 23).toNat + 1 then packedInfinity Format.binary32 s
      else if m.log2 + 1 = 24 then
        packComponents Format.binary32 s (.ofNat 8 (e + 127 + 23).toNat) (.ofNat 23 m)
      else packComponents Format.binary32 s 0#8 (.ofNat 23 m) :=
  rfl

theorem pack_unpack (b : BitVec 32) (h : b.toNat / 0x800000 % 0x100 ≠ 255) :
    UnpackedFloat.pack Format.binary32 (UnpackedFloat.unpack Format.binary32 b) = b := by
  have he : (@unpackExponent .binary32 b).toNat ≠ 255 := by
    rwa [toNat_unpackExponent]
  have hm : (@unpackMantissa .binary32 b).toNat < 2 ^ 23 := BitVec.isLt _
  have hx : (@unpackExponent .binary32 b).toNat < 2 ^ 8 := BitVec.isLt _
  have he' : @unpackExponent .binary32 b ≠ -1#8 := fun e => he (by rw [e]; rfl)
  conv_rhs => rw [← packComponents_unpack b]
  delta UnpackedFloat.unpack
  dsimp only
  rw [if_neg he']
  by_cases h0 : @unpackExponent .binary32 b = 0#8
  · rw [if_pos h0, h0]
    by_cases h1 : @unpackMantissa .binary32 b = 0#23
    · rw [dif_pos h1, h1]
      rfl
    · have hlog : (@unpackMantissa .binary32 b).toNat.log2 + 1 ≠ 24 := by
        intro hl
        have hne : (@unpackMantissa .binary32 b).toNat ≠ 0 := fun e =>
          h1 (BitVec.eq_of_toNat_eq e)
        have := (Nat.log2_eq_iff hne).1 (Nat.succ.inj hl)
        omega
      rw [dif_neg h1, pack_finite, if_neg (by decide), if_neg hlog, BitVec.ofNat_toNat,
        BitVec.setWidth_eq]
  · have hsum : (1#1 ++ @unpackMantissa .binary32 b).toNat =
        0x800000 + (@unpackMantissa .binary32 b).toNat := by
      rw [BitVec.toNat_append, ← Nat.shiftLeft_add_eq_or_of_lt hm]; rfl
    have hlog : (0x800000 + (@unpackMantissa .binary32 b).toNat).log2 = 23 :=
      (Nat.log2_eq_iff (by omega)).2 (by omega)
    have hexp : ((@unpackExponent .binary32 b).toNat - 150 + 127 + 23 : Int).toNat =
        (@unpackExponent .binary32 b).toNat := by omega
    have hmant : BitVec.ofNat 23 (0x800000 + (@unpackMantissa .binary32 b).toNat) =
        @unpackMantissa .binary32 b := by
      apply BitVec.eq_of_toNat_eq
      rw [BitVec.toNat_ofNat]
      omega
    have hbias : ((Format.binary32.exponentBias + Format.binary32.mantissaBitsWithoutImplicit :
        Int)) = 150 := rfl
    rw [if_neg h0, pack_finite, hbias, hexp, hsum, hlog, hmant, BitVec.ofNat_toNat,
      BitVec.setWidth_eq, if_neg (by omega), if_pos rfl]

/-- A bit pattern that stands for a finite word is the one that the word has. -/
theorem toBits_ofBits {b : UInt32} (h : b.toNat / 0x800000 % 0x100 ≠ 255) :
    (Float32.ofBits b).toBits = b := by
  change UInt32.ofBitVec (UnpackedFloat.pack Format.binary32
    (UnpackedFloat.unpack Format.binary32 b.toBitVec)) = b
  rw [pack_unpack b.toBitVec h]

theorem toNat_toBits_ofUnits (negative : Bool) {u : Nat} (h : nearestBits u < 255 * 0x800000) :
    (ofUnits negative u).toBits.toNat = nearestBits u + if negative then 0x80000000 else 0 := by
  have hlt : nearestBits u + (if negative then 0x80000000 else 0) < 0x100000000 := by
    split <;> omega
  rw [ofUnits, toBits_ofBits]
  · simp only [UInt32.toNat_ofNat']
    omega
  · simp only [UInt32.toNat_ofNat']
    split <;> omega

/-! ## Rounding that rounds nothing -/

/-- A full significand at some scale is a word as it stands. -/
theorem nearestBits_shiftLeft {k shift : Nat} (hlo : 0x800000 ≤ k) (hhi : k < 0x1000000)
    (hs : shift ≤ 253) : nearestBits (k <<< shift) = shift * 0x800000 + k := by
  have hpos : 0 < 2 ^ shift := Nat.two_pow_pos _
  have hlog : (k <<< shift).log2 - 23 = shift := by
    have : (k <<< shift).log2 = 23 + shift := by
      rw [Nat.log2_eq_iff (by rw [Nat.shiftLeft_eq]; positivity), Nat.shiftLeft_eq,
        Nat.add_right_comm, Nat.pow_add, Nat.pow_add]
      exact ⟨Nat.mul_le_mul_right _ hlo, Nat.mul_lt_mul_of_pos_right hhi hpos⟩
    omega
  have hunit : (1 <<< shift : Nat) ≠ 0 := by rw [Nat.shiftLeft_eq]; omega
  simp only [nearestBits, hlog, Nat.shiftLeft_shiftRight, Nat.sub_self, Nat.mul_zero]
  rw [if_neg (by omega), Nat.shiftLeft_eq, Nat.shiftLeft_eq]
  omega

/-- A whole number up to `2 ^ 24` has room in a significand. -/
theorem exists_significand {n : Nat} (h0 : n ≠ 0) (h : n ≤ 0x1000000) :
    ∃ k, 0x800000 ≤ k ∧ k < 0x1000000 ∧ k * 2 ^ n.log2 = n * 0x800000 := by
  have hlow := Nat.log2_self_le h0
  have hhigh : n < 2 ^ n.log2 * 2 := by rw [← Nat.pow_succ]; exact Nat.lt_log2_self
  have hdvd : 2 ^ n.log2 ∣ n * 0x800000 := by
    rcases Nat.lt_or_ge n.log2 24 with hl | hl
    · exact Dvd.dvd.mul_left (Nat.pow_dvd_pow 2 (show n.log2 ≤ 23 by omega)) n
    · have : 2 ^ 24 ≤ 2 ^ n.log2 := Nat.pow_le_pow_right (by omega) hl
      exact Dvd.dvd.mul_right (by rw [show 2 ^ n.log2 = n by omega]) _
  obtain ⟨k, hk⟩ := hdvd
  refine ⟨k, ?_, ?_, by rw [hk, Nat.mul_comm]⟩
  · by_contra hc
    have := Nat.mul_le_mul_left (2 ^ n.log2) (show k ≤ 0x7fffff by omega)
    omega
  · by_contra hc
    have := Nat.mul_le_mul_left (2 ^ n.log2) (show 0x1000000 ≤ k by omega)
    omega

theorem eq_shiftLeft_of_mul {n k : Nat} (hk : k * 2 ^ n.log2 = n * 0x800000)
    (hl : n.log2 ≤ 23) : k = n <<< (23 - n.log2) := by
  apply Nat.eq_of_mul_eq_mul_right (Nat.two_pow_pos n.log2)
  rw [hk, Nat.shiftLeft_eq, Nat.mul_assoc, ← Nat.pow_add, Nat.sub_add_cancel hl]

theorem log2_le_of_le {n : Nat} (h : n ≤ 0x1000000) : n.log2 ≤ 24 := by
  rcases Nat.eq_zero_or_pos n with rfl | h0
  · decide
  · exact Nat.lt_succ_iff.1 ((Nat.log2_lt (by omega)).2 (by omega))

/-- A full significand is a word at every scale, of either sign. -/
theorem ofUnits_shiftLeft (negative : Bool) {k shift : Nat} (hlo : 0x800000 ≤ k)
    (hhi : k < 0x1000000) (hs : shift ≤ 253) :
    (ofUnits negative (k <<< shift)).isReal = true ∧
      (ofUnits negative (k <<< shift)).isNegative = negative ∧
      (ofUnits negative (k <<< shift)).isZero = false ∧
      (ofUnits negative (k <<< shift)).significand = k ∧
      (ofUnits negative (k <<< shift)).scale = shift := by
  have hbits := nearestBits_shiftLeft hlo hhi hs
  have hw := toNat_toBits_ofUnits negative (u := k <<< shift) (by rw [hbits]; omega)
  rw [hbits] at hw
  generalize ofUnits negative (k <<< shift) = w at hw ⊢
  have hexp : w.exponentField = shift + 1 := by
    rw [exponentField, hw]
    split <;> omega
  have hfrac : w.fractionField = k - 0x800000 := by
    rw [fractionField, hw]
    split <;> omega
  refine ⟨?_, ?_, ?_, ?_, ?_⟩
  · simp [isReal, hexp]; omega
  · rw [isNegative, hw]
    cases negative
    · simp; omega
    · simp
  · simp [isZero, hexp]
  · rw [significand, hexp, hfrac, if_neg (by omega)]
    omega
  · rw [scale, hexp]
    rfl

/-- **A whole number up to `2 ^ 24` is a word**, of either sign: nothing is rounded. -/
theorem ofUnits_whole (negative : Bool) {n : Nat} (h : n ≤ 0x1000000) :
    (ofUnits negative (n <<< 149)).isReal = true ∧
      (ofUnits negative (n <<< 149)).isNegative = negative ∧
      (ofUnits negative (n <<< 149)).isZero = decide (n = 0) ∧
      (ofUnits negative (n <<< 149)).isWhole = true ∧
      (ofUnits negative (n <<< 149)).magnitude = n := by
  rcases Nat.eq_zero_or_pos n with rfl | h0
  · cases negative <;> decide
  obtain ⟨k, hlo, hhi, hk⟩ := exists_significand h0.ne' h
  have hlog := log2_le_of_le h
  have hu : n <<< 149 = k <<< (n.log2 + 126) := by
    rw [Nat.shiftLeft_eq, Nat.shiftLeft_eq, Nat.pow_add, ← Nat.mul_assoc, hk, Nat.mul_assoc]
  obtain ⟨hreal, hneg, hzero, hsig, hscale⟩ :=
    ofUnits_shiftLeft negative hlo hhi (show n.log2 + 126 ≤ 253 by omega)
  rw [← hu] at hreal hneg hzero hsig hscale
  refine ⟨hreal, hneg, by rw [hzero, decide_eq_false h0.ne'], ?_, ?_⟩
  -- below `2 ^ 23` the significand carries zeros behind the point, from there on it has none
  · rcases Nat.lt_or_ge n.log2 23 with hl | hl
    · have hn := eq_shiftLeft_of_mul hk hl.le
      rw [isWhole, hsig, hscale, show 149 - (n.log2 + 126) = 23 - n.log2 by omega, hn,
        Nat.shiftLeft_shiftRight]
      simp
    · simp [isWhole, hscale, show 149 ≤ n.log2 + 126 by omega]
  · rcases Nat.lt_or_ge n.log2 23 with hl | hl
    · have hn := eq_shiftLeft_of_mul hk hl.le
      rw [magnitude, if_neg (by omega), hsig, hscale,
        show 149 - (n.log2 + 126) = 23 - n.log2 by omega, hn, Nat.shiftLeft_shiftRight]
    · rw [magnitude, if_pos (by omega), hsig, hscale, Nat.shiftLeft_eq]
      have hsplit : 2 ^ n.log2 = 2 ^ (n.log2 + 126 - 149) * 0x800000 := by
        rw [show n.log2 = n.log2 + 126 - 149 + 23 by omega, Nat.pow_add]
        simp
      rw [hsplit, ← Nat.mul_assoc] at hk
      omega

/-! ## Operands -/

/-- **An index up to `2 ^ 24` survives as an operand.** -/
theorem toIndex?_ofNat {n : Nat} (h : n ≤ 0x1000000) : (ofNat n).toIndex? = some n := by
  obtain ⟨hreal, hneg, -, -, hmag⟩ := ofUnits_whole false h
  rw [toIndex?, ofNat, hreal, hneg, hmag]
  simp
  omega

/-- A whole number up to `2 ^ 24` is read back as itself. -/
theorem toNat?_ofNat {n : Nat} (h : n ≤ 0x1000000) : (ofNat n).toNat? = some n := by
  obtain ⟨hreal, hneg, -, hwhole, hmag⟩ := ofUnits_whole false h
  rw [toNat?, ofNat, hreal, hneg, hwhole, hmag]
  simp

/-- **An offset up to `2 ^ 24` either way survives as an operand.** -/
theorem toOffset_ofInt {n : Int} (h : n.natAbs ≤ 0x1000000) : (ofInt n).toOffset = n := by
  obtain ⟨hreal, hneg, -, -, hmag⟩ := ofUnits_whole (decide (n < 0)) h
  have hnum : (ofUnits (decide (n < 0)) (n.natAbs <<< 149)).isNumber = true := by
    simp only [isReal, bne_iff_ne] at hreal
    simp [isNumber, hreal]
  rw [toOffset, ofInt, hnum, hneg, hmag]
  rcases lt_or_ge n 0 with hn | hn
  · rw [if_neg (by simp), if_pos (by simpa using hn)]
    omega
  · rw [if_neg (by simp), if_neg (by simpa using hn)]
    omega

end Danmaku.Word

namespace Danmaku.Opcode

theorem number_lt (o : Opcode) : o.number < 31 := by
  cases o with
  | binary op => cases op <;> decide
  | _ => decide

/-- **The word of an opcode is read as that opcode.** -/
theorem ofWord?_word (o : Opcode) : ofWord? o.word = some o := by
  have := o.number_lt
  rw [ofWord?, word, Word.toNat?_ofNat (by omega), Option.bind_some, ofNumber?_number]

end Danmaku.Opcode
