/-! Binary64 numbers as bit patterns. Order, comparison and the conversion from integers are read
off the bits, so the two zeros and every not-a-number pattern keep their identity. The four rounding
operations are those of the format. -/

namespace StackMachine

structure Double where
  bits : UInt64
deriving DecidableEq, Hashable, Inhabited

namespace Double

def signBit : Nat :=
  0x8000000000000000

/-- The leading bit of a mantissa, which most patterns leave out: it stands just above the 52 stored
ones. -/
def hiddenBit : Nat :=
  0x10000000000000

def negative (x : Double) : Bool :=
  decide (signBit ≤ x.bits.toNat)

def magnitude (x : Double) : Nat :=
  x.bits.toNat % signBit

/-- The magnitude of both infinities; larger ones are not numbers. -/
def infinite : Nat :=
  2047 * hiddenBit

def isNaN (x : Double) : Bool :=
  decide (infinite < x.magnitude)

def isInfinite (x : Double) : Bool :=
  x.magnitude == infinite

def isZero (x : Double) : Bool :=
  x.magnitude == 0

/-- A finite magnitude is `mantissa * 2 ^ exponent`. -/
def mantissa (x : Double) : Nat :=
  if x.magnitude < hiddenBit then x.magnitude else x.magnitude % hiddenBit + hiddenBit

def exponent (x : Double) : Int :=
  (max (x.magnitude / hiddenBit) 1 : Nat) - 1075

/-- Place on the line of numbers: both zeros stand at 0. -/
def place (x : Double) : Int :=
  if x.negative then -(x.magnitude : Int) else x.magnitude

/-- Place in the total order of all patterns: the negative zero stands just below the positive
one. -/
def totalPlace (x : Double) : Int :=
  if x.negative then -(x.magnitude : Int) - 1 else x.magnitude

theorem totalPlace_injective {x y : Double} (same : x.totalPlace = y.totalPlace) : x = y := by
  have small := x.bits.toNat_lt
  have small' := y.bits.toNat_lt
  have bits : x.bits.toNat = y.bits.toNat := by
    simp only [totalPlace, negative, magnitude, decide_eq_true_eq] at same
    split at same <;> split at same <;> simp only [signBit] at * <;> omega
  exact congrArg mk (UInt64.toNat_inj.mp bits)

def compare? (x y : Double) : Option Ordering :=
  if x.isNaN || y.isNaN then none else some (compare x.place y.place)

def equal (x y : Double) : Bool :=
  x.compare? y == some .eq

def invalid : Double :=
  ⟨0xfff8000000000000⟩

def quiet (x : Double) : Double :=
  ⟨x.bits ||| 0x0008000000000000⟩

def neg (x : Double) : Double :=
  ⟨x.bits ^^^ 0x8000000000000000⟩

/-- A rounding operation on two patterns: one that is not a number is passed on, the left one
first. -/
def combine (op : Float → Float → Float) (x y : Double) : Double :=
  if x.isNaN then x.quiet
  else if y.isNaN then y.quiet
  else
    let result := op (Float.ofBits x.bits) (Float.ofBits y.bits)
    if result.isNaN then invalid else ⟨result.toBits⟩

def add (x y : Double) : Double :=
  combine (· + ·) x y

def sub (x y : Double) : Double :=
  combine (· - ·) x y

def mul (x y : Double) : Double :=
  combine (· * ·) x y

def div (x y : Double) : Double :=
  combine (· / ·) x y

/-- A quotient by a power of two, to the nearest integer, a half to the even neighbour. -/
def roundShift (n shift : Nat) : Nat :=
  let divisor := 1 <<< shift
  let quotient := n / divisor
  let twice := 2 * (n % divisor)
  if twice < divisor || (twice == divisor && quotient % 2 == 0) then quotient else quotient + 1

/-- The nearest double, a half to the even neighbour. A carry out of the mantissa raises the
exponent by itself, since the fields stand side by side. -/
def ofNat (n : Nat) : Double :=
  if n = 0 then ⟨0⟩
  else
    let top := n.log2
    let significand := if top ≤ 52 then n <<< (52 - top) else roundShift n (top - 52)
    ⟨UInt64.ofNat ((top + 1022) * hiddenBit + significand)⟩

def ofInt (n : Int) : Double :=
  if n < 0 then (ofNat n.natAbs).neg else ofNat n.natAbs

/-- The double `n * 2 ^ e`, for an `n` below `2 ^ 53` and a product the format can hold. -/
def ofScaled (n : Nat) (e : Int) : Double :=
  if n = 0 then ⟨0⟩
  else
    let shift := min (52 - n.log2) (e + 1074).toNat
    let significand := n <<< shift
    if significand < hiddenBit then ⟨UInt64.ofNat significand⟩
    else ⟨UInt64.ofNat ((e - shift + 1074).toNat * hiddenBit + significand)⟩

/-- The exact remainder of the truncated quotient, with the sign of the dividend. -/
def rem (x y : Double) : Double :=
  if x.isNaN then x.quiet
  else if y.isNaN then y.quiet
  else if x.isInfinite || y.isZero then invalid
  else if y.isInfinite then x
  else
    let low := min x.exponent y.exponent
    let dividend := x.mantissa <<< (x.exponent - low).toNat
    let divisor := y.mantissa <<< (y.exponent - low).toNat
    let rest := ofScaled (dividend % divisor) low
    if x.negative then rest.neg else rest

def isIntegral (x : Double) : Bool :=
  x.mantissa % (1 <<< (-x.exponent).toNat) == 0

def wholePart (x : Double) : Nat :=
  (x.mantissa <<< x.exponent.toNat) >>> (-x.exponent).toNat

end Double

end StackMachine
