import StackMachine.Operator.Basic
import StackMachine.Store.Equality

/-! Comparison of stored values. Equality holds within one kind and never fails; the order relations
need two numbers, or two scalars of one kind, and are all false for a pair that is not ordered. -/

namespace StackMachine

namespace Store

/-- `none` says that the pair is not ordered. -/
def compare (s : Store) (v w : Value) : Except OpError (Option Ordering) :=
  match s.scalar? v, s.scalar? w with
  | some a, some b =>
    match a.compare? b with
    | some result => .ok result
    | none => .error (.mismatch .compare v w)
  | _, _ => .error (.mismatch .compare v w)

end Store

namespace Comparison

def admits : Comparison → Option Ordering → Bool
  | eq, result => result == some .eq
  | ne, result => result != some .eq
  | lt, result => result == some .lt
  | le, result => result == some .lt || result == some .eq
  | gt, result => result == some .gt
  | ge, result => result == some .gt || result == some .eq

def test (c : Comparison) (s : Store) (v w : Value) : Except OpError Bool :=
  match c with
  | eq => .ok (s.equal v w)
  | ne => .ok (!s.equal v w)
  | c => (s.compare v w).map c.admits

end Comparison

end StackMachine
