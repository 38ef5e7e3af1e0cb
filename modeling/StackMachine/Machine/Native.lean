import StackMachine.Machine.Failure
import StackMachine.Store.Basic

/-! Host functions. A native sees its arguments and the world, and either replies or asks for a
call; when the call is over it goes on with the result. The frames of the thread are out of its
reach. -/

namespace StackMachine

/-- What natives can change: the containers, what was printed, and the thread's interrupt. -/
structure World where
  store : Store
  console : String
  interrupted : Bool
deriving Inhabited

inductive Callee where
  | id (function : UInt16)
  | name (name : String)
deriving DecidableEq, Inhabited

inductive Reply where
  | value (v : Value)
  | failure (f : Failure)
  /-- A failure that nobody reported. -/
  | silent
deriving Inhabited

inductive NativeStep where
  | reply (world : World) (reply : Reply)
  | call (world : World) (callee : Callee) (args : Array Value)
      (resume : Except CallError Value → World → NativeStep)

instance : Inhabited NativeStep :=
  ⟨.reply default .silent⟩

/-- `args` holds the supplied arguments, then the defaults of the others; `argc` counts the supplied
ones. -/
structure NativeCall where
  name : String
  function : UInt16
  args : Array Value
  argc : Nat
  /-- How many functions the program has. -/
  functions : Nat
  trace : List TraceEntry

abbrev Native := NativeCall → World → NativeStep

abbrev Registry := String → Option Native

namespace Registry

def none : Registry :=
  fun _ => .none

end Registry

namespace NativeStep

def value (world : World) (v : Value) : NativeStep :=
  .reply world (.value v)

def fail (world : World) (error : RuntimeError) : NativeStep :=
  .reply world (.failure (.runtime error))

def rethrow (world : World) (error : CallError) : NativeStep :=
  .reply world (.failure (.rethrown error))

end NativeStep

namespace NativeCall

def arg? (c : NativeCall) (i : Nat) : Option Value :=
  c.args[i]?

def supplied (c : NativeCall) : Array Value :=
  c.args.extract 0 c.argc

def rest (c : NativeCall) : Array Value :=
  c.args.extract 1 c.argc

def refuse (c : NativeCall) (world : World) (expected : String) : NativeStep :=
  .fail world (.argument c.name expected ((c.arg? 0).map Value.tag))

end NativeCall

end StackMachine
