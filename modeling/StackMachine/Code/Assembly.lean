import StackMachine.Code.Opcode
import StackMachine.Text.Decimal

/-! The text of an instruction: its mnemonic, then its operands, each after one blank. The target of
a jump is marked by an at sign. -/

namespace StackMachine

namespace Instruction

def text : Instruction → String
  | plain op => op.mnemonic
  | short value => Opcode.short.mnemonic ++ " " ++ toString value.toInt
  | wide op operand => op.mnemonic ++ " " ++ toString operand.toNat
  | call keep function argc =>
    (Opcode.call keep).mnemonic ++ " " ++ toString function.toNat ++ " " ++ toString argc.toNat
  | jump op target => op.mnemonic ++ " @" ++ toString target.toNat

def int16? : List Char → Option Int16
  | '-' :: digits => (Text.bounded? 32769 digits).map fun n => Int16.ofInt (-n)
  | digits => (Text.bounded? 32768 digits).map fun n => Int16.ofInt n

def uint16? (letters : List Char) : Option UInt16 :=
  (Text.bounded? UInt16.size letters).map UInt16.ofNat

def ofOperands? : Opcode → List String → Option Instruction
  | .plain op, [] => some (plain op)
  | .short, [value] => (int16? value.toList).map short
  | .wide op, [operand] => (uint16? operand.toList).map (wide op)
  | .call keep, [function, argc] => do
    let function ← uint16? function.toList
    let argc ← Text.bounded? UInt8.size argc.toList
    some (call keep function (.ofNat argc))
  | .jump op, [target] =>
    match target.toList with
    | '@' :: digits => (Text.bounded? UInt32.size digits).map fun n => jump op (.ofNat n)
    | _ => none
  | _, _ => none

def ofText? (s : String) : Option Instruction :=
  match s.splitOn " " with
  | [] => none
  | name :: operands => (Opcode.ofMnemonic? name).bind (ofOperands? · operands)

end Instruction

end StackMachine
