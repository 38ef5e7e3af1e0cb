import StackMachine.Number.Double

/-! Integers as doubles. The magnitude of the nearest double grows with the integer, so rounding
never turns the order of two integers round, though it may make them equal; up to `2 ^ 53` it keeps
them apart. -/

namespace StackMachine.Double

theorem shiftLeft_eq_mul (n k : Nat) : n <<< k = n * (1 <<< k) := by
  simp [Nat.shiftLeft_eq]

theorem one_shiftLeft_add (j k : Nat) : 1 <<< (j + k) = (1 <<< j) * (1 <<< k) := by
  simp [Nat.shiftLeft_eq, Nat.pow_add]

theorem one_shiftLeft_pos (k : Nat) : 0 < 1 <<< k := by
  rw [Nat.shiftLeft_eq, Nat.one_mul]
  exact Nat.two_pow_pos k

theorem one_shiftLeft_hidden : 1 <<< 52 = hiddenBit := by decide

section Shift

variable {n m shift : Nat}

theorem roundShift_bounds (n shift : Nat) :
    n / (1 <<< shift) ≤ roundShift n shift ∧ roundShift n shift ≤ n / (1 <<< shift) + 1 := by
  unfold roundShift
  dsimp only
  split <;> omega

theorem roundShift_mono (le : n ≤ m) : roundShift n shift ≤ roundShift m shift := by
  have quotients : n / (1 <<< shift) ≤ m / (1 <<< shift) := Nat.div_le_div_right le
  have low := roundShift_bounds n shift
  have high := roundShift_bounds m shift
  by_cases same : n / (1 <<< shift) = m / (1 <<< shift)
  · -- One quotient, so the remainders decide.
    have rests : n % (1 <<< shift) ≤ m % (1 <<< shift) := by
      have first := Nat.div_add_mod n (1 <<< shift)
      have second := Nat.div_add_mod m (1 <<< shift)
      rw [same] at first
      omega
    unfold roundShift
    simp only [same, Bool.or_eq_true, Bool.and_eq_true, decide_eq_true_eq, beq_iff_eq]
    split <;> split <;> omega
  · omega

end Shift

def significand (n : Nat) : Nat :=
  if n.log2 ≤ 52 then n <<< (52 - n.log2) else roundShift n (n.log2 - 52)

def nearest (n : Nat) : Nat :=
  if n = 0 then 0 else (n.log2 + 1022) * hiddenBit + significand n

theorem ofNat_eq_nearest (n : Nat) : ofNat n = ⟨UInt64.ofNat (nearest n)⟩ := by
  unfold ofNat nearest
  split
  · rfl
  · rfl

section Nearest

variable {n m : Nat}

theorem log2_bounds (pos : n ≠ 0) : 1 <<< n.log2 ≤ n ∧ n < 2 * (1 <<< n.log2) := by
  have low := Nat.log2_self_le pos
  have high := @Nat.lt_log2_self n
  rw [← Nat.one_shiftLeft] at low high
  rw [one_shiftLeft_add, Nat.mul_comm] at high
  exact ⟨low, high⟩

theorem log2_mono (pos : n ≠ 0) (le : n ≤ m) : n.log2 ≤ m.log2 :=
  (Nat.le_log2 (by omega)).mpr (Nat.le_trans (Nat.log2_self_le pos) le)

/-- A mantissa has 53 bits, or one more when it was rounded up to the next power of two. -/
theorem significand_bounds (pos : n ≠ 0) :
    hiddenBit ≤ significand n ∧ significand n ≤ 2 * hiddenBit ∧
      (n.log2 ≤ 52 → significand n < 2 * hiddenBit) := by
  obtain ⟨low, high⟩ := log2_bounds pos
  unfold significand
  split
  next small =>
    have scale : (1 <<< n.log2) * (1 <<< (52 - n.log2)) = hiddenBit := by
      rw [← one_shiftLeft_add, Nat.add_sub_cancel' small, one_shiftLeft_hidden]
    have lower := Nat.mul_le_mul_right (1 <<< (52 - n.log2)) low
    have upper := Nat.mul_lt_mul_of_pos_right high (one_shiftLeft_pos (52 - n.log2))
    rw [Nat.mul_assoc, scale] at upper
    rw [scale] at lower
    rw [shiftLeft_eq_mul]
    exact ⟨lower, Nat.le_of_lt upper, fun _ => upper⟩
  next large =>
    have scale : 1 <<< n.log2 = hiddenBit * (1 <<< (n.log2 - 52)) := by
      rw [← one_shiftLeft_hidden, ← one_shiftLeft_add, Nat.add_sub_cancel' (by omega)]
    have bounds := roundShift_bounds n (n.log2 - 52)
    have pos := one_shiftLeft_pos (n.log2 - 52)
    have lower : hiddenBit ≤ n / (1 <<< (n.log2 - 52)) := by
      rw [Nat.le_div_iff_mul_le pos, ← scale]
      exact low
    have upper : n / (1 <<< (n.log2 - 52)) < 2 * hiddenBit := by
      rw [Nat.div_lt_iff_lt_mul pos, Nat.mul_assoc, ← scale]
      exact high
    exact ⟨by omega, by omega, fun small => absurd small large⟩

theorem significand_mono (same : n.log2 = m.log2) (le : n ≤ m) : significand n ≤ significand m := by
  unfold significand
  rw [same]
  split
  · rw [shiftLeft_eq_mul n, shiftLeft_eq_mul m]
    exact Nat.mul_le_mul_right _ le
  · exact roundShift_mono le

theorem significand_strict (same : n.log2 = m.log2) (small : m.log2 ≤ 52) (lt : n < m) :
    significand n < significand m := by
  unfold significand
  rw [same, if_pos small, if_pos small, shiftLeft_eq_mul n, shiftLeft_eq_mul m]
  exact Nat.mul_lt_mul_of_pos_right lt (one_shiftLeft_pos _)

/-- A higher power of two outweighs any mantissa. -/
theorem binade_le (posM : m ≠ 0) (lt : n.log2 < m.log2) :
    (n.log2 + 1022) * hiddenBit + 2 * hiddenBit ≤ (m.log2 + 1022) * hiddenBit + significand m := by
  have step : (n.log2 + 1022 + 1) * hiddenBit ≤ (m.log2 + 1022) * hiddenBit :=
    Nat.mul_le_mul_right _ (by omega)
  have low := (significand_bounds posM).1
  rw [Nat.add_mul] at step
  omega

theorem nearest_mono (le : n ≤ m) : nearest n ≤ nearest m := by
  unfold nearest
  split
  · exact Nat.zero_le _
  next posN =>
    have posM : m ≠ 0 := by omega
    rw [if_neg posM]
    by_cases same : n.log2 = m.log2
    · have mantissas := significand_mono same le
      rw [same]
      omega
    · have high := (significand_bounds posN).2.1
      have binades := binade_le posM (Nat.lt_of_le_of_ne (log2_mono posN le) same)
      omega

theorem nearest_pos (pos : n ≠ 0) : hiddenBit ≤ nearest n := by
  have low := (significand_bounds pos).1
  rw [nearest, if_neg pos]
  omega

/-- Integers up to `2 ^ 53` are doubles themselves. -/
theorem nearest_strict (lt : n < m) (small : m ≤ 2 * hiddenBit) : nearest n < nearest m := by
  have posM : m ≠ 0 := by omega
  by_cases posN : n = 0
  · have low := nearest_pos posM
    rw [nearest, if_pos posN]
    exact Nat.lt_of_lt_of_le (by decide) low
  · have narrow : n.log2 ≤ 52 := by
      apply Nat.le_of_lt_succ
      rw [Nat.log2_lt posN]
      exact Nat.lt_of_lt_of_le lt small
    have high := (significand_bounds posN).2.2 narrow
    rw [nearest, nearest, if_neg posN, if_neg posM]
    by_cases same : n.log2 = m.log2
    · have mantissas := significand_strict same (same ▸ narrow) lt
      rw [same]
      omega
    · have binades := binade_le posM (Nat.lt_of_le_of_ne (log2_mono posN (Nat.le_of_lt lt)) same)
      omega

theorem nearest_lt_infinite (small : n < UInt64.size) : nearest n < infinite := by
  unfold nearest
  split
  · decide
  next pos =>
    have top : n.log2 ≤ 63 := by
      apply Nat.le_of_lt_succ
      rw [Nat.log2_lt pos]
      exact small
    have step : (n.log2 + 1022) * hiddenBit ≤ 1085 * hiddenBit := Nat.mul_le_mul_right _ (by omega)
    have high := (significand_bounds pos).2.1
    simp only [infinite, hiddenBit] at *
    omega

end Nearest

section Int

variable {n m : Int}

theorem magnitude_ofNat {n : Nat} (small : n < UInt64.size) :
    (ofNat n).magnitude = nearest n ∧ (ofNat n).negative = false := by
  have finite := nearest_lt_infinite small
  have bits : (UInt64.ofNat (nearest n)).toNat = nearest n := by
    apply UInt64.toNat_ofNat_of_lt
    simp only [infinite, hiddenBit, UInt64.size] at *
    omega
  simp only [ofNat_eq_nearest, magnitude, negative, bits, signBit]
  simp only [infinite, hiddenBit] at finite
  refine ⟨Nat.mod_eq_of_lt (by omega), by simp; omega⟩

theorem neg_bits {x : Double} (positive : x.negative = false) :
    x.neg.bits.toNat = x.bits.toNat + signBit := by
  have small : x.bits.toNat < 0x8000000000000000 := Nat.lt_of_not_le (of_decide_eq_false positive)
  have nothing : x.bits.toNat / 0x8000000000000000 = 0 := Nat.div_eq_of_lt small
  have high : (x.bits.toNat ^^^ 0x8000000000000000) / 0x8000000000000000 = 1 := by
    simpa [nothing] using Nat.xor_div_two_pow (a := x.bits.toNat) (b := 0x8000000000000000) (n :=
      63)
  have low : (x.bits.toNat ^^^ 0x8000000000000000) % 0x8000000000000000 =
      x.bits.toNat % 0x8000000000000000 := by
    simpa using Nat.xor_mod_two_pow (a := x.bits.toNat) (b := 0x8000000000000000) (n := 63)
  have sign : (0x8000000000000000 : UInt64).toNat = 0x8000000000000000 := by decide
  rw [neg, UInt64.toNat_xor, sign, signBit]
  omega

theorem neg_magnitude {x : Double} (positive : x.negative = false) :
    x.neg.magnitude = x.magnitude ∧ x.neg.negative = true := by
  have bits := neg_bits positive
  simp only [magnitude, negative, bits, signBit]
  refine ⟨by omega, by simp⟩

theorem place_ofInt (small : n.natAbs < UInt64.size) :
    (ofInt n).place = (if n < 0 then -(nearest n.natAbs : Int) else nearest n.natAbs) ∧
      (ofInt n).isNaN = false := by
  have finite := nearest_lt_infinite small
  obtain ⟨magnitude, positive⟩ := magnitude_ofNat small
  unfold ofInt
  split
  · obtain ⟨same, negative⟩ := neg_magnitude positive
    simp [place, isNaN, same, negative, magnitude]
    omega
  · simp [place, isNaN, positive, magnitude]
    omega

theorem ofInt_mono (smallN : n.natAbs < UInt64.size) (smallM : m.natAbs < UInt64.size)
    (le : n ≤ m) : (ofInt n).place ≤ (ofInt m).place := by
  rw [(place_ofInt smallN).1, (place_ofInt smallM).1]
  split <;> split
  · have grows : nearest m.natAbs ≤ nearest n.natAbs := nearest_mono (by omega)
    omega
  · omega
  · omega
  · have grows : nearest n.natAbs ≤ nearest m.natAbs := nearest_mono (by omega)
    omega

theorem eq_of_place_ofInt (smallN : n.natAbs ≤ 2 * hiddenBit) (smallM : m.natAbs ≤ 2 * hiddenBit)
    (same : (ofInt n).place = (ofInt m).place) : n = m := by
  have bound : 2 * hiddenBit < UInt64.size := by decide
  rw [(place_ofInt (by omega)).1, (place_ofInt (by omega)).1] at same
  have apart (i j : Nat) (small : i ≤ 2 * hiddenBit) (small' : j ≤ 2 * hiddenBit)
    (equal : nearest i = nearest j) :
      i = j := by
    rcases Nat.lt_trichotomy i j with less | rfl | greater
    · have strict := nearest_strict less small'
      omega
    · rfl
    · have strict := nearest_strict greater small
      omega
  split at same <;> split at same
  · have equal := apart n.natAbs m.natAbs smallN smallM (by omega)
    omega
  · have low : hiddenBit ≤ nearest n.natAbs := nearest_pos (by omega)
    have positive : 0 < hiddenBit := by decide
    omega
  · have low : hiddenBit ≤ nearest m.natAbs := nearest_pos (by omega)
    have positive : 0 < hiddenBit := by decide
    omega
  · have equal := apart n.natAbs m.natAbs smallN smallM (by omega)
    omega

end Int

end StackMachine.Double
