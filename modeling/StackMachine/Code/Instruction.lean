import StackMachine.Operator.Basic

/-! The instruction set. Instructions are sorted by the form of their operand, since that is what
their bytes and their text depend on; within a form they are sorted into families that behave alike.
-/

namespace StackMachine

inductive Immediate where
  | null
  | bool (b : Bool)
  | minusOne | zero | one
deriving DecidableEq, Repr, Inhabited

inductive Direction where
  | up | down
deriving DecidableEq, Repr, Inhabited

inductive Strategy where
  | linear | binary
deriving DecidableEq, Repr, Inhabited

inductive Condition where
  | isTrue | isFalse | isNull | isNonNull
  | compare (c : Comparison)
  | contains | lacks
deriving DecidableEq, Repr, Inhabited

inductive Plain where
  | nop
  | push (value : Immediate)
  | binary (op : BinaryOp)
  | unary (op : UnaryOp)
  | compare (c : Comparison)
  | load (slot : Fin 3)
  | store (slot : Fin 3)
  | pop
  | popPair
  /-- Copy the top cell, or the top pair, below `under` further cells. -/
  | dup (pair : Bool) (under : Fin 3)
  | swap
  | loadIndex (strict : Bool)
  | storeIndex
  | stepIndex (direction : Direction)
  | contains
  | length
  | append
  | clone
  | ret
  | leave
  | unreachable
  | halt
deriving DecidableEq, Repr, Inhabited

inductive Wide where
  | constant
  | global
  | load
  | store
  | step (direction : Direction) (checked : Bool)
  | newList
  | newMap
  | switch (strategy : Strategy)
deriving DecidableEq, Repr, Inhabited

inductive Jump where
  | goto
  | branch (condition : Condition)
deriving DecidableEq, Repr, Inhabited

inductive Opcode where
  | plain (op : Plain)
  | short
  | wide (op : Wide)
  | call (keep : Bool)
  | jump (op : Jump)
deriving DecidableEq, Repr, Inhabited

inductive Instruction where
  | plain (op : Plain)
  /-- Push a small integer. -/
  | short (value : Int16)
  | wide (op : Wide) (operand : UInt16)
  /-- `keep` says whether the caller wants the result. -/
  | call (keep : Bool) (function : UInt16) (argc : UInt8)
  | jump (op : Jump) (target : UInt32)
deriving DecidableEq, Repr, Inhabited

namespace Direction

def delta : Direction → Int64
  | up => 1
  | down => -1

end Direction

namespace Condition

/-- The opposite test; on an unordered pair neither of two opposite order relations holds. -/
def negated : Condition → Condition
  | isTrue => isFalse
  | isFalse => isTrue
  | isNull => isNonNull
  | isNonNull => isNull
  | compare .eq => compare .ne
  | compare .ne => compare .eq
  | compare .lt => compare .ge
  | compare .ge => compare .lt
  | compare .gt => compare .le
  | compare .le => compare .gt
  | contains => lacks
  | lacks => contains

def arity : Condition → Nat
  | isTrue | isFalse | isNull | isNonNull => 1
  | compare _ | contains | lacks => 2

end Condition

namespace Plain

def copied (pair : Bool) : Nat :=
  if pair then 2 else 1

def pops : Plain → Nat
  | nop | push _ | load _ | leave | unreachable | halt => 0
  | unary _ | store _ | pop | length | clone | ret => 1
  | binary _ | compare _ | popPair | swap | loadIndex _ | stepIndex _ | contains | append => 2
  | storeIndex => 3
  | dup pair under => copied pair + under

def pushes : Plain → Nat
  | nop | store _ | pop | popPair | storeIndex | stepIndex _ | append | ret | leave | unreachable
  | halt => 0
  | push _ | binary _ | unary _ | compare _ | load _ | loadIndex _ | contains | length | clone => 1
  | swap => 2
  | dup pair under => 2 * copied pair + under

def fallsThrough : Plain → Bool
  | ret | leave | unreachable | halt => false
  | _ => true

end Plain

namespace Wide

def pops : Wide → UInt16 → Nat
  | constant, _ | global, _ | load, _ | step _ _, _ => 0
  | store, _ | switch _, _ => 1
  | newList, n => n.toNat
  | newMap, n => 2 * n.toNat

def pushes : Wide → Nat
  | constant | global | load | newList | newMap => 1
  | store | step _ _ | switch _ => 0

end Wide

namespace Jump

def pops : Jump → Nat
  | goto => 0
  | branch condition => condition.arity

end Jump

namespace Instruction

def opcode : Instruction → Opcode
  | plain op => .plain op
  | short _ => .short
  | wide op _ => .wide op
  | call keep _ _ => .call keep
  | jump op _ => .jump op

def pops : Instruction → Nat
  | plain op => op.pops
  | short _ => 0
  | wide op operand => op.pops operand
  | call _ _ argc => argc.toNat
  | jump op _ => op.pops

def pushes : Instruction → Nat
  | plain op => op.pushes
  | short _ => 1
  | wide op _ => op.pushes
  | call keep _ _ => keep.toNat
  | jump _ _ => 0

def stackDelta (i : Instruction) : Int :=
  i.pushes - i.pops

def jumpTarget? : Instruction → Option UInt32
  | jump _ target => some target
  | _ => none

/-- Defined for conditional jumps only. -/
def negated? : Instruction → Option Instruction
  | jump (.branch condition) target => some (jump (.branch condition.negated) target)
  | _ => none

def fallsThrough : Instruction → Bool
  | plain op => op.fallsThrough
  | wide (.switch _) _ => false
  | jump .goto _ => false
  | _ => true

def slot? : Instruction → Option UInt16
  | plain (.load slot) => some (.ofNat slot)
  | plain (.store slot) => some (.ofNat slot)
  | wide .load slot => some slot
  | wide .store slot => some slot
  | wide (.step _ _) slot => some slot
  | _ => none

end Instruction

end StackMachine
