import StackMachine.Operator.Comparison
import StackMachine.Proofs.Comparison

/-! The laws of comparison. Turned round, a comparison gives the turned result, and it fails for the
same pairs. To be less is transitive for every mixture of integers and doubles: integers are
compared exactly among themselves and as their nearest doubles otherwise, and rounding never turns
their order round. Values without parts are equal if they are of one kind and compare as equal. -/

namespace StackMachine

namespace Scalar

variable {a b c : Scalar}

theorem compare?_eq_some_iff {o : Ordering} : a.compare? b = some (some o) ↔
    a.kind = b.kind ∧ a.ordered = true ∧ b.ordered = true ∧ a.sameKindOrder b = o := by
  rw [compare?_eq]
  by_cases kinds : a.kind = b.kind
  · cases a.ordered <;> cases b.ordered <;> simp [kinds]
  · simp [kinds]

theorem compare?_swap (a b : Scalar) :
    b.compare? a = (a.compare? b).map (Option.map Ordering.swap) := by
  rw [compare?_eq a b, compare?_eq b a, sameKindOrder_swap a b, Bool.and_comm]
  by_cases kinds : a.kind = b.kind
  · rw [if_pos kinds, if_pos kinds.symm]
    split <;> rfl
  · rw [if_neg kinds, if_neg (Ne.symm kinds)]
    rfl

theorem compare?_lt_trans (first : a.compare? b = some (some .lt))
    (second : b.compare? c = some (some .lt)) : a.compare? c = some (some .lt) := by
  rw [compare?_eq_some_iff] at *
  obtain ⟨kinds, left, _, less⟩ := first
  obtain ⟨kinds', _, right, less'⟩ := second
  exact ⟨kinds.trans kinds', left, right, sameKindOrder_lt_trans less less'⟩

/-- Equality tells integers and doubles apart, which the comparison does not. -/
theorem equal_iff : a.equal b = true ↔ a.tag = b.tag ∧ a.compare? b = some (some .eq) := by
  cases a <;> cases b <;> simp [equal, tag, compare?, Double.equal]
  case bool.bool p q => cases p <;> cases q <;> decide

end Scalar

namespace Store

variable {s : Store} {x y z : Value} {a b : Scalar}

theorem isScalar_iff (s : Store) : x.isScalar = true ↔ ∃ a, s.scalar? x = some a := by
  cases x <;> simp [Value.isScalar, scalar?]

theorem tag_of_scalar? (read : s.scalar? x = some a) : x.tag = a.tag := by
  cases x <;> simp only [scalar?, Option.some.injEq, reduceCtorEq] at read <;> subst read <;> rfl

theorem equal_of_scalars (left : s.scalar? x = some a) (right : s.scalar? y = some b) :
    s.equal x y = a.equal b := by
  rw [Bool.eq_iff_iff]
  cases x <;> cases y <;> simp only [scalar?, Option.some.injEq, reduceCtorEq] at left right <;>
    subst left right <;>
    simp [equal, equalWithin, Scalar.equal]

theorem compare_eq_ok_iff {result : Option Ordering} : s.compare x y = .ok result ↔
    ∃ a b, s.scalar? x = some a ∧ s.scalar? y = some b ∧ a.compare? b = some result := by
  unfold compare
  constructor
  · intro compared
    split at compared
    next a b left right =>
      split at compared
      next found order => exact ⟨a, b, left, right, by rw [order, Except.ok.inj compared]⟩
      next => contradiction
    next => contradiction
  · rintro ⟨a, b, left, right, order⟩
    simp only [left, right, order]

theorem compare_swap {result : Option Ordering} (compared : s.compare x y = .ok result) :
    s.compare y x = .ok (result.map Ordering.swap) := by
  obtain ⟨a, b, left, right, order⟩ := compare_eq_ok_iff.mp compared
  exact compare_eq_ok_iff.mpr ⟨b, a, right,
    left, by rw [Scalar.compare?_swap a b, order, Option.map_some]⟩

theorem compare_lt_trans (first : s.compare x y = .ok (some .lt))
    (second : s.compare y z = .ok (some .lt)) : s.compare x z = .ok (some .lt) := by
  rw [compare_eq_ok_iff] at *
  obtain ⟨a, b, readX, readY, less⟩ := first
  obtain ⟨b', c, readY', readZ, less'⟩ := second
  obtain rfl := Option.some.inj (readY.symm.trans readY')
  exact ⟨a, c, readX, readZ, Scalar.compare?_lt_trans less less'⟩

theorem compare_fails_swap (failed : ∃ e, s.compare x y = .error e) :
    ∃ e, s.compare y x = .error e := by
  obtain ⟨e, failed⟩ := failed
  cases compared : s.compare y x with
  | error e' => exact ⟨e', rfl⟩
  | ok order => exact absurd (failed.symm.trans (compare_swap compared)) nofun

theorem equal_iff_compare (left : x.isScalar = true) (right : y.isScalar = true) :
    s.equal x y = true ↔ x.tag = y.tag ∧ s.compare x y = .ok (some .eq) := by
  obtain ⟨a, readX⟩ := s.isScalar_iff.mp left
  obtain ⟨b, readY⟩ := s.isScalar_iff.mp right
  have compared : s.compare x y = .ok (some .eq) ↔ a.compare? b = some (some .eq) := by
    simp [compare_eq_ok_iff, readX, readY]
  rw [equal_of_scalars readX readY, Scalar.equal_iff, compared, tag_of_scalar? readX,
    tag_of_scalar? readY]

/-- The laws of comparison, in every store and for values of every kind. A pair fails to compare in
both directions or in neither, and one direction gives the reverse of the other; a pair that is not
ordered stays so. What is less than something less is less. And of values without parts, those are
equal that are of one kind and compare as equal. -/
theorem comparison_laws (s : Store) :
    (∀ x y, (∃ e, s.compare x y = .error e) ↔ ∃ e, s.compare y x = .error e) ∧
    (∀ x y result, s.compare x y = .ok result → s.compare y x = .ok (result.map Ordering.swap)) ∧
    (∀ x y z, s.compare x y = .ok (some .lt) → s.compare y z = .ok (some .lt) →
      s.compare x z = .ok (some .lt)) ∧
    ∀ x y, x.isScalar = true → y.isScalar = true →
      (s.equal x y = true ↔ x.tag = y.tag ∧ s.compare x y = .ok (some .eq)) :=
  ⟨fun _ _ => ⟨compare_fails_swap, compare_fails_swap⟩, fun _ _ _ => compare_swap,
    fun _ _ _ => compare_lt_trans, fun _ _ => equal_iff_compare⟩

theorem comparison_laws_neighbours :
    (compare {} (.int 9007199254740992) (.int 9007199254740993) = .ok (some .lt) ∧
      compare {} (.int 9007199254740993) (.float ⟨0x4340000000000001⟩) = .ok (some .lt) ∧
      compare {} (.int 9007199254740992) (.float ⟨0x4340000000000001⟩) = .ok (some .lt)) ∧
    compare {} (.int 9007199254740993) (.float ⟨0x4340000000000000⟩) = .ok (some .eq) ∧
    compare {} (.float ⟨0x4340000000000000⟩) (.int 9007199254740993) = .ok (some .eq) ∧
    equal {} (.int 9007199254740993) (.float ⟨0x4340000000000000⟩) = false := by
  obtain ⟨_, swaps, transitive, equality⟩ := comparison_laws {}
  have one : compare {} (.int 9007199254740992) (.int 9007199254740993) = .ok (some .lt) := by rfl
  have other : compare {} (.int 9007199254740993) (.float ⟨0x4340000000000001⟩) = .ok (some .lt) :=
    by rfl
  have rounded : compare {} (.int 9007199254740993) (.float ⟨0x4340000000000000⟩) =
    .ok (some .eq) := by rfl
  refine ⟨⟨one, other, transitive _ _ _ one other⟩, rounded, swaps _ _ _ rounded, ?_⟩
  rw [← Bool.not_eq_true, equality _ _ rfl rfl]
  exact fun both => absurd both.1 (by decide)

end Store

end StackMachine
