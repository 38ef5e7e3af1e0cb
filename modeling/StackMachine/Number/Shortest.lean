import StackMachine.Number.Double

/-! The shortest decimal of a double: the fewest significant digits that read back as the same
number, and of those the nearest one. Everything is exact integer arithmetic on `mantissa * 2 ^
exponent`. -/

namespace StackMachine

structure Decimal where
  digits : Nat
  exponent : Int
deriving DecidableEq

namespace Decimal

/-- The reals that round to one double, in quarters of its last place: the value is `centre`
quarters, and the interval reaches from `low` to `high`, ends included where the mantissa is
even. -/
structure Interval where
  low : Nat
  centre : Nat
  high : Nat
  closed : Bool
  exponent : Int

/-- Below a power of two the neighbour is half as far away, except at the least exponent. -/
def interval (x : Double) : Interval :=
  let m := x.mantissa
  let narrow := m == Double.hiddenBit && x.exponent != -1074
  { low := if narrow then 4 * m - 1 else 4 * m - 2
    centre := 4 * m
    high := 4 * m + 2
    closed := m % 2 == 0
    exponent := x.exponent - 2 }

namespace Interval

/-- `quarters * 2 ^ exponent` in units of `10 ^ unit`, over the common denominator `scale`. -/
def numerator (i : Interval) (unit : Int) (quarters : Nat) : Nat :=
  (quarters <<< i.exponent.toNat) * Nat.pow 10 (-unit).toNat

def scale (i : Interval) (unit : Int) : Nat :=
  Nat.pow 10 unit.toNat <<< (-i.exponent).toNat

def holds (i : Interval) (unit : Int) (count : Nat) : Bool :=
  let point := count * i.scale unit
  let low := i.numerator unit i.low
  let high := i.numerator unit i.high
  if i.closed then low ≤ point && point ≤ high else low < point && point < high

/-- The neighbour of the value on the grid of `10 ^ unit` that rounds to the double; of two the
nearer, and the upper one when both are equally near. -/
def nearest? (i : Interval) (unit : Int) : Option Nat :=
  let value := i.numerator unit i.centre
  let scale := i.scale unit
  let below := value / scale
  match i.holds unit below, i.holds unit (below + 1) with
  | true, true => some (if 2 * (value % scale) < scale then below else below + 1)
  | true, false => some below
  | false, true => some (below + 1)
  | false, false => none

/-- The place of the leading digit: the value is at least `10 ^ p` and below `10 ^ (p + 1)`. -/
def leadingPlace (i : Interval) : Int :=
  let numerator := i.numerator 0 i.centre
  let denominator := i.scale 0
  if denominator ≤ numerator then
    (Nat.toDigits 10 (numerator / denominator)).length - 1
  else
    -((Nat.toDigits 10 ((denominator - 1) / numerator)).length : Int)

def search (i : Interval) : Nat → Int → Decimal
  | 0, unit => ⟨i.numerator unit i.centre / i.scale unit, unit⟩
  | steps + 1, unit =>
    match i.nearest? unit with
    | some count => if count % 10 == 0 then ⟨count / 10, unit + 1⟩ else ⟨count, unit⟩
    | none => i.search steps (unit - 1)

end Interval

/-- The shortest decimal of a finite magnitude other than zero. Seventeen digits always suffice. -/
def shortest (x : Double) : Decimal :=
  let i := interval x
  i.search 17 i.leadingPlace

def positional (d : Decimal) : String :=
  let digits := Nat.toDigits 10 d.digits
  let zeros (n : Int) := List.replicate n.toNat '0'
  let point : Int := digits.length + d.exponent
  if 0 ≤ d.exponent then
    String.ofList (digits ++ zeros d.exponent)
  else if 0 < point then
    String.ofList (digits.take point.toNat ++ '.' :: digits.drop point.toNat)
  else
    String.ofList ('0' :: '.' :: zeros (-point) ++ digits)

end Decimal

namespace Double

/-- An integral number below `10 ^ 16` shows one decimal place; every other one shows its shortest
decimal in positional notation. -/
def text (x : Double) : String :=
  if x.isNaN then "NaN"
  else
    let sign := if x.negative then "-" else ""
    if x.isInfinite then sign ++ "Infinity"
    else if x.isIntegral && x.wholePart < 10000000000000000 then
      sign ++ toString x.wholePart ++ ".0"
    else sign ++ (Decimal.shortest x).positional

end Double

end StackMachine
