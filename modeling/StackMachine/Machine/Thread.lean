import StackMachine.Machine.Step

/-! Threads: the frames, their slots, and the fault that once stopped the thread for good. -/

namespace StackMachine

inductive Status where
  | unstarted | running | calling | returning | crashed | halted
deriving DecidableEq, Repr, Inhabited

namespace Status

def name : Status → String
  | unstarted => "Unstarted"
  | running => "Running"
  | calling => "Calling"
  | returning => "Returning"
  | crashed => "Crashed"
  | halted => "Halted"

end Status

structure Limits where
  frames : Nat := 1024
  slots : Nat := 1048576
deriving DecidableEq, Inhabited

structure Thread where
  status : Status := .unstarted
  slots : Array Value := #[]
  /-- The innermost frame comes first. -/
  frames : List Frame := []
  fault : Option CallError := none
deriving Inhabited

namespace Function

def omitted (f : Function Value) (argc : Nat) : Array Value :=
  f.defaults.extract (argc - f.minArgs.toNat) f.defaults.size

/-- The omitted defaults for which there is a parameter. -/
def omittedParams (f : Function Value) (argc : Nat) : Array Value :=
  (f.omitted argc).extract 0 (f.maxArgs.toNat - argc)

end Function

namespace Store

def copyAll (s : Store) (values : Array Value) : Array Value × Store :=
  values.foldl (fun (copies, s) v =>
    let (copy, s) := s.deepCopy v
    (copies.push copy, s)) (#[], s)

end Store

namespace Program

def traceEntry (p : Program) (frame : Frame) : TraceEntry :=
  match p.function? frame.function with
  | some f =>
    { function := f.name, module := f.module
      line := f.code?.bind fun code => lineAt code.lines frame.lastPlace }
  | none => { function := "#" ++ toString frame.function, module := "", line := none }

def location (p : Program) : List Frame → String × Nat
  | [] => ("<host>", 0)
  | frame :: _ =>
    match p.function? frame.function with
    | some f => (f.qualifiedName, frame.lastPlace)
    | none => ("#" ++ toString frame.function, frame.lastPlace)

end Program

namespace Thread

def depth (t : Thread) : Nat :=
  t.frames.length

def trace (t : Thread) (p : Program) : List TraceEntry :=
  t.frames.map p.traceEntry

def clear (t : Thread) : Thread :=
  { t with slots := #[], frames := [] }

def unwind (t : Thread) (count : Nat) : Thread :=
  match t with
  | { status, slots, frames, fault } =>
    let extra := frames.length - count
    match (frames.take extra).getLast? with
    | some frame => { status, slots := slots.shrink frame.base, frames := frames.drop extra, fault }
    | none => { status, slots, frames, fault }

def refusal? (t : Thread) (limits : Limits) (f : Function Value) (code : Code Value) :
    Option RuntimeError :=
  let locals := code.locals.toNat
  let params := f.maxArgs.toNat
  if limits.frames ≤ t.depth then some (.stackOverflow t.depth)
  else if limits.slots < t.slots.size + code.frameSize then some (.stackOverflow t.depth)
  else if locals < params then some (.fault (.tooFewLocals f.qualifiedName params locals))
  else none

/-- Open a frame. It starts with the given locals; the other ones are unassigned, and its cells are
free. -/
def enter (t : Thread) (id : UInt16) (code : Code Value) (given : Array Value)
    (dest : Destination) : Thread :=
  match t with
  | { status, slots, frames, fault } =>
    let base := slots.size
    let locals := code.locals.toNat
    let frame : Frame :=
      { function := id, base, locals, limit := base + code.frameSize, tos := base + locals
        place := 0, dest }
    let free := Array.replicate (code.frameSize - given.size) .undefined
    { status, slots := slots ++ given ++ free, frames := frame :: frames, fault }

end Thread

end StackMachine
