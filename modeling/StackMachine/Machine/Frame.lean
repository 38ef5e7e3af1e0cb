import StackMachine.Machine.Failure
import StackMachine.Operator.Container
import StackMachine.Store.Copy

/-! Frames. All frames of a thread share one vector of slots; a frame owns the region from `base` up
to `limit`, its locals first and then its operand stack, of which `tos` is the next free cell. Free
cells are `undefined`. -/

namespace StackMachine

inductive Destination where
  | push
  | discard
  /-- Out of the machine, to the host or to the native that asked for the call. -/
  | host
deriving DecidableEq, Repr, Inhabited

structure Frame where
  function : UInt16
  base : Nat
  locals : Nat
  limit : Nat
  tos : Nat
  /-- The next instruction. -/
  place : Nat
  dest : Destination
deriving DecidableEq, Inhabited

namespace Frame

def bottom (f : Frame) : Nat :=
  f.base + f.locals

def depth (f : Frame) : Nat :=
  f.tos - f.bottom

def capacity (f : Frame) : Nat :=
  f.limit - f.bottom

/-- Whether the declared stack effect of an instruction stays inside the region. -/
def fits (f : Frame) (i : Instruction) : Bool :=
  i.pops ≤ f.depth && f.depth - i.pops + i.pushes ≤ f.capacity

def lastPlace (f : Frame) : Nat :=
  f.place - 1

end Frame

def blank (slots : Array Value) (start : Nat) : Nat → Array Value
  | 0 => slots
  | count + 1 => blank (slots.setIfInBounds start .undefined) (start + 1) count

structure Activation where
  frame : Frame
  slots : Array Value
  store : Store
deriving Inhabited

/-- A part of an instruction. The activation also comes back from a failure. -/
abbrev Exec := EStateM RuntimeError Activation

namespace Exec

variable {α : Type}

def fault (cause : Fault) : Exec α :=
  throw (.fault cause)

def operate (op : Op α) : Exec α
  | { frame, slots, store } =>
    match op store with
    | .ok result store => .ok result { frame, slots, store }
    | .error cause store => .error (.operation cause) { frame, slots, store }

def look (view : Store → Except OpError α) : Exec α :=
  operate (Op.look view)

def view (f : Store → α) : Exec α
  | { frame, slots, store } => .ok (f store) { frame, slots, store }

def deepCopy (v : Value) : Exec Value
  | { frame, slots, store } =>
    let (copy, store) := store.deepCopy v
    .ok copy { frame, slots, store }

def advance : Exec Frame
  | { frame, slots, store } =>
    let frame := { frame with place := frame.place + 1 }
    .ok frame { frame, slots, store }

def jump (target : Nat) : Exec Unit
  | { frame, slots, store } => .ok () { frame := { frame with place := target }, slots, store }

def push (v : Value) : Exec Unit
  | { frame, slots, store } =>
    if frame.tos < frame.limit && frame.tos < slots.size then
      .ok () { frame := { frame with tos := frame.tos + 1 }
               slots := slots.setIfInBounds frame.tos v, store }
    else .error (.fault .outsideRegion) { frame, slots, store }

/-- Take the top cell; it becomes `undefined`. -/
def pop : Exec Value
  | { frame, slots, store } =>
    let top := frame.tos - 1
    if frame.bottom < frame.tos then
      match slots[top]? with
      | some v =>
        .ok v
          { frame := { frame with tos := top }, slots := slots.setIfInBounds top .undefined, store }
      | none => .error (.fault .outsideRegion) { frame, slots, store }
    else .error (.fault .outsideRegion) { frame, slots, store }

/-- Take the top `n` cells, the lowest first. -/
def popMany (n : Nat) : Exec (Array Value)
  | { frame, slots, store } =>
    if frame.bottom + n ≤ frame.tos && frame.tos ≤ slots.size then
      let start := frame.tos - n
      let taken := slots.extract start frame.tos
      .ok taken { frame := { frame with tos := start }, slots := blank slots start n, store }
    else .error (.fault .outsideRegion) { frame, slots, store }

def pushMany (values : Array Value) : Exec Unit :=
  values.toList.forM push

def readLocal (slot : UInt16) : Exec Value
  | { frame, slots, store } =>
    if slot.toNat < frame.locals then
      match slots[frame.base + slot.toNat]? with
      | some v => .ok v { frame, slots, store }
      | none => .error (.fault .outsideRegion) { frame, slots, store }
    else .error (.fault (.localOutOfRange slot.toNat)) { frame, slots, store }

def writeLocal (slot : UInt16) (v : Value) : Exec Unit
  | { frame, slots, store } =>
    if slot.toNat < frame.locals then
      if frame.base + slot.toNat < slots.size then
        .ok () { frame, slots := slots.setIfInBounds (frame.base + slot.toNat) v, store }
      else .error (.fault .outsideRegion) { frame, slots, store }
    else .error (.fault (.localOutOfRange slot.toNat)) { frame, slots, store }

def initialized (slot : UInt16) : Exec Value := do
  let v ← readLocal slot
  if v.isUndefined then throw (.uninitialized slot.toNat)
  return v

end Exec

end StackMachine
