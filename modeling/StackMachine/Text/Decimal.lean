/-! Reading decimal numbers. -/

namespace StackMachine.Text

def decimal? (letters : List Char) : Option Nat :=
  if letters.isEmpty then none
  else
    letters.foldlM
      (fun n c => if c.isDigit then some (10 * n + (c.toNat - '0'.toNat)) else none) 0

def bounded? (bound : Nat) (letters : List Char) : Option Nat :=
  (decimal? letters).filter (· < bound)

/-- A decimal number below a bound that may start with a plus sign. -/
def unsigned? (bound : Nat) (s : String) : Option Nat :=
  match s.toList with
  | '+' :: digits => bounded? bound digits
  | digits => bounded? bound digits

end StackMachine.Text
