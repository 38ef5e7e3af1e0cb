import StackMachine.Data.Scalar
import StackMachine.Proofs.Rounding

/-! The order of scalars. Within a kind, numbers being one kind, scalars stand in ranks; two
integers of one rank are told apart by their exact values, everything else of one rank counts as
equal. So `less` is transitive for every mixture of integers and doubles, while `equal` is not: two
integers may be equal to one double. -/

namespace StackMachine

theorem natAbs_toInt_lt (n : Int64) : n.toInt.natAbs < UInt64.size := by
  have low := n.le_toInt
  have high := n.toInt_lt
  simp only [UInt64.size]
  omega

theorem compare_int64 (a b : Int64) : compare a b = compare a.toInt b.toInt := by
  simp only [compare, compareOfLessAndEq, Int64.lt_iff_toInt_lt, Int64.toInt_inj]

namespace Scalar

/-- Numbers are one kind; the other scalars are ordered only among their like. -/
def kind : Scalar → Nat
  | null => 0
  | bool _ => 1
  | int _ => 2
  | float _ => 2
  | text _ => 3

def ordered : Scalar → Bool
  | float x => !x.isNaN
  | _ => true

/-- Where a scalar stands among its kind; integers stand where their nearest doubles do. -/
def rank : Scalar → Int × String
  | null => (0, "")
  | bool b => (b.toNat, "")
  | int n => ((Double.ofInt n.toInt).place, "")
  | float x => (x.place, "")
  | text s => (0, s)

def rankOrder (a b : Scalar) : Ordering :=
  (compare a.rank.1 b.rank.1).then (compare a.rank.2 b.rank.2)

instance : Std.TransCmp rankOrder :=
  inferInstanceAs (Std.TransCmp (compareLex (compareOn fun s : Scalar => s.rank.1)
    (compareOn fun s : Scalar => s.rank.2)))

/-- The order of two scalars of one kind, of which neither is a double that is not a number. -/
def sameKindOrder : Scalar → Scalar → Ordering
  | int a, int b => compare a b
  | a, b => rankOrder a b

theorem compare?_eq (a b : Scalar) : a.compare? b =
    if a.kind = b.kind then some (if a.ordered && b.ordered then some (a.sameKindOrder b) else none)
      else none := by
  have number (n : Int64) : (Double.ofInt n.toInt).isNaN = false :=
    (Double.place_ofInt (natAbs_toInt_lt n)).2
  cases a <;> cases b <;> simp [compare?, kind, ordered, sameKindOrder, rankOrder, rank,
    Double.compare?, number]
  case bool.bool a b => cases a <;> cases b <;> rfl
  case int.float n x => cases x.isNaN <;> rfl
  case float.int x n => cases x.isNaN <;> rfl
  case float.float x y => cases x.isNaN <;> cases y.isNaN <;> rfl

theorem rankOrder_int (a b : Int64) : rankOrder (int a) (int b) =
    compare (Double.ofInt a.toInt).place (Double.ofInt b.toInt).place := by
  simp [rankOrder, rank]

theorem sameKindOrder_of_rank_lt {a b : Scalar} (lower : rankOrder a b = .lt) :
    sameKindOrder a b = .lt := by
  unfold sameKindOrder
  split
  next n m =>
    rw [rankOrder_int, Int.compare_eq_lt] at lower
    rw [compare_int64, Int.compare_eq_lt]
    apply Int.lt_of_not_ge
    intro le
    have grows := Double.ofInt_mono (natAbs_toInt_lt m) (natAbs_toInt_lt n) le
    omega
  · exact lower

theorem sameKindOrder_swap (a b : Scalar) : sameKindOrder b a = (sameKindOrder a b).swap := by
  cases a <;> cases b <;> simp only [sameKindOrder, compare_int64] <;> exact Std.OrientedCmp.eq_swap

theorem sameKindOrder_self (a : Scalar) : sameKindOrder a a = .eq := by
  have same := sameKindOrder_swap a a
  cases order : sameKindOrder a a <;> simp_all

theorem sameKindOrder_lt_iff {a b : Scalar} : sameKindOrder a b = .lt ↔
    rankOrder a b = .lt ∨ (rankOrder a b = .eq ∧ ∃ n m, a = int n ∧ b = int m ∧
      n.toInt < m.toInt) := by
  refine ⟨fun less => ?_, fun cases => ?_⟩
  · unfold sameKindOrder at less
    split at less
    next n m =>
      rw [compare_int64, Int.compare_eq_lt] at less
      have grows := Double.ofInt_mono (natAbs_toInt_lt n) (natAbs_toInt_lt m) (Int.le_of_lt less)
      rw [rankOrder_int, Int.compare_eq_lt, Int.compare_eq_eq]
      by_cases same : (Double.ofInt n.toInt).place = (Double.ofInt m.toInt).place
      · exact .inr ⟨same, n, m, rfl, rfl, less⟩
      · exact .inl (by omega)
    · exact .inl less
  · rcases cases with lower | ⟨_, n, m, rfl, rfl, less⟩
    · exact sameKindOrder_of_rank_lt lower
    · simpa [sameKindOrder, compare_int64, Int.compare_eq_lt] using less

theorem sameKindOrder_lt_trans {a b c : Scalar} (first : sameKindOrder a b = .lt)
    (second : sameKindOrder b c = .lt) : sameKindOrder a c = .lt := by
  rw [sameKindOrder_lt_iff] at *
  rcases first with lower | ⟨equal, n, m, rfl, rfl, less⟩
  · rcases second with lower' | ⟨equal', _⟩
    · exact .inl (Std.TransCmp.lt_trans lower lower')
    · exact .inl (Std.TransCmp.lt_of_lt_of_eq lower equal')
  · rcases second with lower' | ⟨equal', m', k, same, rfl, less'⟩
    · exact .inl (Std.TransCmp.lt_of_eq_of_lt equal lower')
    · obtain rfl := Scalar.int.inj same
      exact .inr ⟨Std.TransCmp.eq_trans equal equal', n, k, rfl, rfl, by omega⟩

end Scalar

end StackMachine
