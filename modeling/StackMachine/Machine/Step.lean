import StackMachine.Machine.Frame
import StackMachine.Machine.Program

/-! One instruction. A step works on the innermost frame alone and says how control goes on; a call
leaves its arguments on the stack for the machine to take. -/

namespace StackMachine

inductive Flow where
  | next
  | jump (target : Nat)
  | call (keep : Bool) (function : UInt16) (argc : Nat)
  /-- Leave the frame with a result. -/
  | ret (v : Value)
  | halt
deriving DecidableEq, Inhabited

namespace Immediate

def value : Immediate → Value
  | null => .null
  | bool b => .bool b
  | minusOne => .int (-1)
  | zero => .int 0
  | one => .int 1

end Immediate

namespace Condition

def holds : Condition → Exec Bool
  | isTrue => do
    let v ← Exec.pop
    Exec.view (·.truthy v)
  | isFalse => do
    let v ← Exec.pop
    Exec.view (!·.truthy v)
  | isNull => return (← Exec.pop).isNull
  | isNonNull => return !(← Exec.pop).isNull
  | compare c => do
    let w ← Exec.pop
    let v ← Exec.pop
    Exec.look (c.test · v w)
  | contains => do
    let item ← Exec.pop
    let container ← Exec.pop
    Exec.look (·.contains container item)
  | lacks => do
    let item ← Exec.pop
    let container ← Exec.pop
    return !(← Exec.look (·.contains container item))

end Condition

namespace Exec

def load (slot : UInt16) : Exec Unit := do
  push (← initialized slot)

def store (slot : UInt16) : Exec Unit := do
  let v ← pop
  writeLocal slot v

def onTop (f : Value → Exec Value) : Exec Unit := do
  let v ← pop
  push (← f v)

/-- Replace the top pair of cells by one; the upper of them is the right operand. -/
def onPair (f : Value → Value → Exec Value) : Exec Unit := do
  let w ← pop
  let v ← pop
  push (← f v w)

def dup (copied under : Nat) : Exec Unit := do
  let values ← popMany copied
  let others ← popMany under
  pushMany values
  pushMany others
  pushMany values

/-- Add to a local. Only the checked form tells an unassigned local apart from one that is no
number. -/
def stepLocal (slot : UInt16) (delta : Int64) (checked : Bool) : Exec Unit := do
  let v ← if checked then initialized slot else readLocal slot
  let stepped ← operate (Op.ofExcept (v.step delta))
  writeLocal slot stepped

/-- Pair keys with values; the first bad key decides. -/
def pairs (s : Store) : List Value → Except OpError (List (Scalar × Value))
  | key :: value :: rest => do
    let key ← s.key key
    return (key, value) :: (← pairs s rest)
  | _ => .ok []

def newMap (count : Nat) : Exec Unit := do
  let cells ← popMany (2 * count)
  let entries ← look (pairs · cells.toList)
  push (← operate (Op.newMap (.ofList entries)))

end Exec

namespace Plain

def execute : Plain → Exec Flow
  | nop => return .next
  | push value => do
    Exec.push value.value
    return .next
  | binary op => do
    Exec.onPair fun v w => Exec.operate (Op.binary op v w)
    return .next
  | unary op => do
    Exec.onTop fun v => Exec.operate (Op.unary op v)
    return .next
  | compare c => do
    Exec.onPair fun v w => return .bool (← Exec.look (c.test · v w))
    return .next
  | load slot => do
    Exec.load (.ofNat slot)
    return .next
  | store slot => do
    Exec.store (.ofNat slot)
    return .next
  | pop => do
    let _ ← Exec.pop
    return .next
  | popPair => do
    let _ ← Exec.pop
    let _ ← Exec.pop
    return .next
  | dup pair under => do
    Exec.dup (copied pair) under
    return .next
  | swap => do
    let w ← Exec.pop
    let v ← Exec.pop
    Exec.push w
    Exec.push v
    return .next
  | loadIndex strict => do
    Exec.onPair fun container index =>
      Exec.operate (if strict then Op.loadIndex container index
        else Op.loadIndexOrNull container index)
    return .next
  | storeIndex => do
    let value ← Exec.pop
    let index ← Exec.pop
    let container ← Exec.pop
    Exec.operate (Op.storeIndex container index value)
    return .next
  | stepIndex direction => do
    let index ← Exec.pop
    let container ← Exec.pop
    Exec.operate (Op.stepIndex container index direction.delta)
    return .next
  | contains => do
    Exec.onPair fun container item => return .bool (← Exec.look (·.contains container item))
    return .next
  | length => do
    Exec.onTop fun v => return .int (.ofNat (← Exec.look (·.length v)))
    return .next
  | append => do
    let value ← Exec.pop
    let container ← Exec.pop
    Exec.operate (Op.append container value)
    return .next
  | clone => do
    Exec.onTop Exec.deepCopy
    return .next
  | ret => return .ret (← Exec.pop)
  | leave => return .ret .null
  | unreachable => Exec.fault .unreachable
  | halt => return .halt

end Plain

namespace Code

def constant (c : Code Value) (index : UInt16) : Exec Value :=
  match c.constants[index.toNat]? with
  | some value => return value
  | none => Exec.fault (.constantOutOfRange index.toNat)

end Code

namespace Program

def readGlobal (p : Program) : Value → Exec Value
  | .text ref => do
    let name ← Exec.view (·.text ref)
    match p.global? name with
    | some value => Exec.deepCopy value
    | none => throw (.undefinedGlobal name)
  | other => Exec.fault (.nameNotText other.tag)

end Program

namespace Strategy

def target (strategy : Strategy) (t : SwitchTable) (constants : Array Value) (selector : Value)
    (s : Store) : UInt32 :=
  match strategy with
  | linear => t.linearTarget s constants selector
  | binary => t.binaryTarget s constants selector

end Strategy

namespace Wide

def execute (p : Program) (code : Code Value) (operand : UInt16) : Wide → Exec Flow
  | constant => do
    let value ← code.constant operand
    Exec.push (← Exec.deepCopy value)
    return .next
  | global => do
    let name ← code.constant operand
    Exec.push (← p.readGlobal name)
    return .next
  | load => do
    Exec.load operand
    return .next
  | store => do
    Exec.store operand
    return .next
  | step direction checked => do
    Exec.stepLocal operand direction.delta checked
    return .next
  | newList => do
    let items ← Exec.popMany operand.toNat
    Exec.push (← Exec.operate (Op.newList items))
    return .next
  | newMap => do
    Exec.newMap operand.toNat
    return .next
  | switch strategy =>
    match code.tables[operand.toNat]? with
    | none => Exec.fault (.tableOutOfRange operand.toNat)
    | some table => do
      let selector ← Exec.pop
      return .jump (← Exec.view (strategy.target table code.constants selector)).toNat

end Wide

namespace Jump

def execute (target : UInt32) : Jump → Exec Flow
  | goto => return .jump target.toNat
  | branch condition => do
    if ← condition.holds then return .jump target.toNat else return .next

end Jump

namespace Instruction

/-- The frame has been checked to have room for the declared stack effect. -/
def execute (p : Program) (code : Code Value) : Instruction → Exec Flow
  | plain op => op.execute
  | short value => do
    Exec.push (.int value.toInt64)
    return .next
  | wide op operand => op.execute p code operand
  | call keep function argc => return .call keep function argc.toNat
  | jump op target => op.execute target

def perform (p : Program) (code : Code Value) (i : Instruction) : Exec Flow := do
  let frame ← Exec.advance
  if frame.fits i then i.execute p code else Exec.fault (.doesNotFit i)

end Instruction

end StackMachine
