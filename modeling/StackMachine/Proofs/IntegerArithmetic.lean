import Mathlib.Data.Int.ModEq
import StackMachine.Operator.Container

/-! Arithmetic on integers of 64 bits. Sums, differences, products and negations are the exact ones,
reduced to 64 bits of two's complement. A quotient is an integer if nothing remains, and a double
otherwise. A shift goes by its count modulo 64, also if the count is negative or huge. -/

namespace StackMachine

section Counts

variable (a b : Int64)

theorem toNat_and_63 : (b &&& 63).toBitVec.toNat = b.toBitVec.toNat % 64 := by
  rw [Int64.toBitVec_and, BitVec.toNat_and]
  exact Nat.and_two_pow_sub_one_eq_mod _ 6

theorem toInt_mod_64 : b.toInt % 64 = (b.toBitVec.toNat % 64 : Nat) := by
  rw [← Int64.toInt_toBitVec, BitVec.toInt_eq_toNat_cond]
  split <;> omega

theorem toNat_count : ((b &&& 63).toBitVec.smod 64).toNat = (b.toInt % 64).toNat := by
  have low := toNat_and_63 b
  have positive : (b &&& 63).toBitVec.msb = false := by
    rw [BitVec.msb_eq_false_iff_two_mul_lt]
    omega
  have positive' : (64 : BitVec 64).msb = false := by decide
  have rest : ((b &&& 63).toBitVec.smod 64).toNat = (b &&& 63).toBitVec.toNat % 64 := by
    rw [BitVec.smod_eq, positive, positive']
    exact BitVec.toNat_umod
  rw [rest, low, Nat.mod_mod, toInt_mod_64, Int.toNat_natCast]

theorem toInt_shiftLeft :
    (a <<< (b &&& 63)).toInt = (a.toInt * 2 ^ (b.toInt % 64).toNat).bmod (2 ^ 64) := by
  rw [← Int64.toInt_toBitVec, Int64.toBitVec_shiftLeft, BitVec.shiftLeft_eq', toNat_count,
    BitVec.toInt_shiftLeft,
    Nat.shiftLeft_eq, ← Int64.toInt_toBitVec a, BitVec.toInt_eq_toNat_bmod a.toBitVec,
      Int.bmod_mul_bmod]
  push_cast
  rfl

theorem toInt_shiftRight : (a >>> (b &&& 63)).toInt = a.toInt.fdiv (2 ^ (b.toInt % 64).toNat) := by
  rw [← Int64.toInt_toBitVec, Int64.toBitVec_shiftRight, BitVec.sshiftRight_eq', toNat_count,
    BitVec.toInt_sshiftRight, Int.shiftRight_eq_div_pow, Int64.toInt_toBitVec,
    Int.fdiv_eq_ediv_of_nonneg _ (Int.pow_nonneg (by decide))]
  push_cast
  rfl

end Counts

section Quotients

variable {a b : Int64}

theorem mod_eq_zero_iff : a % b = 0 ↔ a.toInt.tmod b.toInt = 0 := by
  rw [← Int64.toInt_inj, Int64.toInt_mod, Int64.toInt_zero]

theorem div_mul_modEq (divides : a.toInt.tmod b.toInt = 0) :
    (a / b).toInt * b.toInt ≡ a.toInt [ZMOD 2 ^ 64] := by
  have product : a.toInt.tdiv b.toInt * b.toInt = a.toInt :=
    Int.tdiv_mul_cancel (Int.dvd_of_tmod_eq_zero divides)
  have quotient : (a / b).toInt ≡ a.toInt.tdiv b.toInt [ZMOD 2 ^ 64] := by
    rw [Int64.toInt_div]
    exact Int.bmod_emod
  calc
    (a / b).toInt * b.toInt ≡ a.toInt.tdiv b.toInt * b.toInt [ZMOD 2 ^ 64] := quotient.mul_right _
    _ = a.toInt := product

theorem div_mul_cancel_toInt (divides : a.toInt.tmod b.toInt = 0)
    (fits : ¬ (a = Int64.minValue ∧ b = -1)) : (a / b).toInt * b.toInt = a.toInt := by
  have quotient : (a / b).toInt = a.toInt.tdiv b.toInt := by
    rcases not_and_or.mp fits with left | right
    · exact Int64.toInt_div_of_ne_left a b left
    · exact Int64.toInt_div_of_ne_right a b right
  rw [quotient, Int.tdiv_mul_cancel (Int.dvd_of_tmod_eq_zero divides)]

end Quotients

namespace Op

variable {a b : Int64} {s : Store}

def Yields (act : Op Value) (s : Store) (x : Int) : Prop :=
  ∃ n : Int64, act s = .ok (.int n) s ∧ n.toInt = x

theorem divisor_check (nonzero : b ≠ 0) :
    ((Value.int a).tag.isNumeric && (Value.int b).isZero) = false :=
  beq_false_of_ne nonzero

theorem rem_ints (a b : Int64) (s : Store) : binary .rem (.int a) (.int b) s =
    if b = 0 then .error .divisionByZero s else .ok (.int (a % b)) s := by
  by_cases zero : b = 0
  · rw [if_pos zero, zero]
    rfl
  · change ofExcept (Value.rem (.int a) (.int b)) s = _
    rw [Value.rem, divisor_check zero, if_neg zero]
    rfl

theorem div_ints (a b : Int64) (s : Store) : binary .div (.int a) (.int b) s =
    if b = 0 then .error .divisionByZero s
    else if a % b = 0 then .ok (.int (a / b)) s
    else .ok (.float ((Double.ofInt a.toInt).div (Double.ofInt b.toInt))) s := by
  by_cases zero : b = 0
  · rw [if_pos zero, zero]
    rfl
  · change ofExcept (Value.div (.int a) (.int b)) s = _
    rw [Value.div, divisor_check zero, if_neg zero, if_neg Bool.false_ne_true]
    by_cases rest : a % b = 0
    · rw [if_pos (beq_iff_eq.mpr rest), if_pos rest]
      rfl
    · rw [if_neg (mt beq_iff_eq.mp rest), if_neg rest]
      rfl

theorem rem_fails_iff : binary .rem (.int a) (.int b) s = .error .divisionByZero s ↔ b = 0 := by
  rw [rem_ints]
  constructor
  · intro failed
    by_contra nonzero
    rw [if_neg nonzero] at failed
    contradiction
  · exact fun zero => if_pos zero

theorem div_fails_iff : binary .div (.int a) (.int b) s = .error .divisionByZero s ↔ b = 0 := by
  rw [div_ints]
  constructor
  · intro failed
    by_contra nonzero
    rw [if_neg nonzero] at failed
    split at failed <;> contradiction
  · exact fun zero => if_pos zero

theorem div_yields_iff (nonzero : b ≠ 0) {q : Int} :
    Yields (binary .div (.int a) (.int b)) s q ↔ a.toInt.tmod b.toInt = 0 ∧ q = (a / b).toInt := by
  rw [Yields, div_ints, if_neg nonzero, ← mod_eq_zero_iff]
  by_cases rest : a % b = 0
  · simp [rest, eq_comm]
  · simp [rest]

/-- The operators on integers mean what they mean in arithmetic, for all operands. Sums,
differences, products and negations are reduced to 64 bits. Only a division by zero fails. What
remains of a division has the sign of the dividend; if nothing remains the quotient is an integer,
and the exact one unless the least integer is divided by minus one, which leaves 64 bits; otherwise
it is the quotient of the nearest doubles. A shift multiplies by a power of two and reduces, or
divides by one and rounds down, and its count is taken modulo 64. -/
theorem integer_operators_exact (s : Store) (a b : Int64) :
    Yields (binary .add (.int a) (.int b)) s ((a.toInt + b.toInt).bmod (2 ^ 64)) ∧
    Yields (binary .sub (.int a) (.int b)) s ((a.toInt - b.toInt).bmod (2 ^ 64)) ∧
    Yields (binary .mul (.int a) (.int b)) s ((a.toInt * b.toInt).bmod (2 ^ 64)) ∧
    Yields (unary .neg (.int a)) s ((-a.toInt).bmod (2 ^ 64)) ∧
    (binary .div (.int a) (.int b) s = .error .divisionByZero s ↔ b = 0) ∧
    (binary .rem (.int a) (.int b) s = .error .divisionByZero s ↔ b = 0) ∧
    (b ≠ 0 →
      Yields (binary .rem (.int a) (.int b)) s (a.toInt.tmod b.toInt) ∧
      ((∃ q, Yields (binary .div (.int a) (.int b)) s q) ↔ a.toInt.tmod b.toInt = 0) ∧
      (∀ q, Yields (binary .div (.int a) (.int b)) s q → q * b.toInt ≡ a.toInt [ZMOD 2 ^ 64] ∧
        (¬ (a = Int64.minValue ∧ b = -1) → q * b.toInt = a.toInt)) ∧
      (a.toInt.tmod b.toInt ≠ 0 → binary .div (.int a) (.int b) s =
        .ok (.float ((Double.ofInt a.toInt).div (Double.ofInt b.toInt))) s)) ∧
    ∃ k : Nat, k < 64 ∧ (k : Int) = b.toInt % 64 ∧
      Yields (binary .shiftLeft (.int a) (.int b)) s ((a.toInt * 2 ^ k).bmod (2 ^ 64)) ∧
      Yields (binary .shiftRight (.int a) (.int b)) s (a.toInt.fdiv (2 ^ k)) := by
  refine ⟨⟨_, rfl, Int64.toInt_add a b⟩, ⟨_, rfl, Int64.toInt_sub a b⟩,
    ⟨_, rfl, Int64.toInt_mul a b⟩,
    ⟨_, rfl, Int64.toInt_neg a⟩, div_fails_iff, rem_fails_iff, fun nonzero => ⟨?_, ?_, ?_, ?_⟩, ?_⟩
  · exact ⟨a % b, by rw [rem_ints, if_neg nonzero], Int64.toInt_mod a b⟩
  · simp [div_yields_iff nonzero]
  · intro q yields
    obtain ⟨rest, rfl⟩ := (div_yields_iff nonzero).mp yields
    exact ⟨div_mul_modEq rest, div_mul_cancel_toInt rest⟩
  · intro rest
    rw [div_ints, if_neg nonzero, if_neg (mt mod_eq_zero_iff.mp rest)]
  · have low : 0 ≤ b.toInt % 64 := Int.emod_nonneg _ (by decide)
    have high : b.toInt % 64 < 64 := Int.emod_lt_of_pos _ (by decide)
    exact ⟨(b.toInt % 64).toNat, by omega, by omega, ⟨_, rfl, toInt_shiftLeft a b⟩, ⟨_, rfl,
      toInt_shiftRight a b⟩⟩

theorem integer_operators_exact_least :
    (-1 : Int64) ≠ 0 ∧ Yields (binary .rem (.int Int64.minValue) (.int (-1))) {} 0 ∧
      (∃ q, Yields (binary .div (.int Int64.minValue) (.int (-1))) {} q ∧
        q * (-1 : Int64).toInt ≡ Int64.minValue.toInt [ZMOD 2 ^ 64]) ∧
      binary .div (.int Int64.minValue) (.int 3) {} =
        .ok (.float ((Double.ofInt Int64.minValue.toInt).div (Double.ofInt (3 : Int64).toInt)))
          {} := by
  have nonzero : (-1 : Int64) ≠ 0 := by decide
  obtain ⟨_, _, _, _, _, _, divides, _⟩ := integer_operators_exact {} Int64.minValue (-1)
  obtain ⟨remains, divided, quotient, _⟩ := divides nonzero
  obtain ⟨q, yields⟩ := divided.mpr (by decide)
  obtain ⟨_, _, _, _, _, _, divides', _⟩ := integer_operators_exact {} Int64.minValue 3
  exact ⟨nonzero, remains, ⟨q, yields, (quotient q yields).1⟩,
    (divides' (by decide)).2.2.2 (by decide)⟩

end Op

end StackMachine
