import StackMachine.Operator.Basic

/-! Arithmetic on numbers. Two integers stay an integer, reduced to 64 bits, except where a division
leaves a remainder; any other pair of numbers is computed in doubles. -/

namespace StackMachine.Value

def double? : Value → Option Double
  | int n => some (Double.ofInt n.toInt)
  | float x => some x
  | _ => none

def isZero : Value → Bool
  | int n => n == 0
  | float x => x.isZero
  | _ => false

def onNumbers (op : BinaryOp) (onInts : Int64 → Int64 → Int64)
    (onDoubles : Double → Double → Double) (v w : Value) : Except OpError Value :=
  match v, w with
  | int a, int b => .ok (int (onInts a b))
  | v, w =>
    match v.double?, w.double? with
    | some x, some y => .ok (float (onDoubles x y))
    | _, _ => .error (.mismatch (.binary op) v w)

def sub (v w : Value) : Except OpError Value :=
  onNumbers .sub (· - ·) .sub v w

def mul (v w : Value) : Except OpError Value :=
  onNumbers .mul (· * ·) .mul v w

/-- An exact quotient of integers is an integer, any other one a double. -/
def div (v w : Value) : Except OpError Value :=
  if v.tag.isNumeric && w.isZero then .error .divisionByZero
  else
    match v, w with
    | int a, int b =>
      if a % b == 0 then .ok (int (a / b))
      else .ok (float ((Double.ofInt a.toInt).div (Double.ofInt b.toInt)))
    | v, w => onNumbers .div (· / ·) .div v w

def rem (v w : Value) : Except OpError Value :=
  if v.tag.isNumeric && w.isZero then .error .divisionByZero
  else onNumbers .rem (· % ·) .rem v w

def bitAnd : Value → Value → Except OpError Value
  | int a, int b => .ok (int (a &&& b))
  | bool a, bool b => .ok (bool (a && b))
  | v, w => .error (.mismatch (.binary .bitAnd) v w)

def bitOr : Value → Value → Except OpError Value
  | int a, int b => .ok (int (a ||| b))
  | bool a, bool b => .ok (bool (a || b))
  | v, w => .error (.mismatch (.binary .bitOr) v w)

def bitXor : Value → Value → Except OpError Value
  | int a, int b => .ok (int (a ^^^ b))
  | v, w => .error (.mismatch (.binary .bitXor) v w)

def shiftLeft : Value → Value → Except OpError Value
  | int a, int b => .ok (int (a <<< (b &&& 63)))
  | v, w => .error (.mismatch (.binary .shiftLeft) v w)

/-- The sign is shifted in; the low six bits of the right operand count. -/
def shiftRight : Value → Value → Except OpError Value
  | int a, int b => .ok (int (a >>> (b &&& 63)))
  | v, w => .error (.mismatch (.binary .shiftRight) v w)

/-- All of `op` but the sums that build a text or a map. -/
def binary : BinaryOp → Value → Value → Except OpError Value
  | .add => onNumbers .add (· + ·) .add
  | .sub => sub
  | .mul => mul
  | .div => div
  | .rem => rem
  | .bitAnd => bitAnd
  | .bitOr => bitOr
  | .bitXor => bitXor
  | .shiftLeft => shiftLeft
  | .shiftRight => shiftRight

def neg : Value → Except OpError Value
  | int a => .ok (int (-a))
  | float x => .ok (float x.neg)
  | v => .error (.unfit (.unary .neg) v)

def plus : Value → Except OpError Value
  | int a => .ok (int a)
  | float x => .ok (float x)
  | v => .error (.unfit (.unary .plus) v)

def bitNot : Value → Except OpError Value
  | int a => .ok (int (~~~a))
  | v => .error (.unfit (.unary .bitNot) v)

def step (delta : Int64) : Value → Except OpError Value
  | int a => .ok (int (a + delta))
  | float x => .ok (float (x.add (Double.ofInt delta.toInt)))
  | v => .error (.unfit (if delta < 0 then .stepDown else .stepUp) v)

end StackMachine.Value
