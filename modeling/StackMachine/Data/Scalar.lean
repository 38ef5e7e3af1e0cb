import StackMachine.Data.Tag
import StackMachine.Number.Shortest
import StackMachine.Text.Quoted

/-! Scalars: the values without parts. They are the keys of maps, in one total order, and the
operands of the numeric comparison, which is coarser: it identifies an integer with the double it
rounds to. -/

namespace StackMachine

inductive Scalar where
  | null
  | bool (b : Bool)
  | int (n : Int64)
  | float (x : Double)
  | text (s : String)
deriving DecidableEq, Inhabited

namespace Scalar

def tag : Scalar → Tag
  | null => .null
  | bool _ => .bool
  | int _ => .int
  | float _ => .float
  | text _ => .text

/-- Kind, number and text of a scalar; two scalars with the same place are the same. -/
def place : Scalar → Nat × Int × String
  | null => (0, 0, "")
  | bool b => (1, b.toNat, "")
  | int n => (2, n.toInt, "")
  | float x => (3, x.totalPlace, "")
  | text s => (4, 0, s)

/-- Key order: kinds in the order of `place`, doubles by the total order of their patterns, texts by
code point. -/
def order (a b : Scalar) : Ordering :=
  (compare a.place.1 b.place.1).then
    ((compare a.place.2.1 b.place.2.1).then (compare a.place.2.2 b.place.2.2))

instance : Std.TransCmp order :=
  inferInstanceAs (Std.TransCmp (compareLex (compareOn fun s : Scalar => s.place.1)
    (compareLex (compareOn fun s : Scalar => s.place.2.1)
      (compareOn fun s : Scalar => s.place.2.2))))

theorem place_injective {a b : Scalar} (same : a.place = b.place) : a = b := by
  cases a <;> cases b <;> simp only [place, Prod.mk.injEq, reduceCtorEq, false_and, true_and,
    and_true, Nat.reduceEqDiff] at same <;> try rfl
  case bool.bool a b => cases a <;> cases b <;> simp_all
  case int.int a b => rw [Int64.toInt_inj.mp same]
  case float.float x y => rw [Double.totalPlace_injective same]
  case text.text a b => rw [same]

instance : Std.LawfulEqCmp order where
  eq_of_compare {a b} equal := by
    simp only [order, Ordering.then_eq_eq, Std.LawfulEqCmp.compare_eq_iff_eq] at equal
    exact place_injective (Prod.ext equal.1 (Prod.ext equal.2.1 equal.2.2))

/-- Numeric order within numbers, the usual order within the other kinds. The outer `none` says that
the kinds have no common order, the inner one that a pattern is not a number. -/
def compare? : Scalar → Scalar → Option (Option Ordering)
  | null, null => some (some .eq)
  | bool a, bool b => some (some (compare a.toNat b.toNat))
  | int a, int b => some (some (compare a b))
  | int a, float y => some ((Double.ofInt a.toInt).compare? y)
  | float x, int b => some (x.compare? (Double.ofInt b.toInt))
  | float x, float y => some (x.compare? y)
  | text a, text b => some (some (compare a b))
  | _, _ => none

/-- Equal within one kind; a pattern that is not a number differs from itself. -/
def equal : Scalar → Scalar → Bool
  | float x, float y => x.equal y
  | a, b => a == b

def truthy : Scalar → Bool
  | null => false
  | bool b => b
  | int n => n != 0
  | float x => !x.isZero
  | text s => !s.isEmpty

def plain : Scalar → String
  | null => "null"
  | bool b => if b then "true" else "false"
  | int n => toString n.toInt
  | float x => x.text
  | text s => s

def quoted : Scalar → String
  | text s => Text.quote s
  | a => a.plain

end Scalar

end StackMachine
