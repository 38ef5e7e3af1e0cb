import StackMachine.Code.Assembly

/-! How execution fails. A runtime error ends one call and leaves the thread usable; a fault is a
defect of the code or of the host, and the thread refuses all further work. -/

namespace StackMachine

inductive Fault where
  | pastEnd (place : Nat)
  | doesNotFit (i : Instruction)
  | localOutOfRange (slot : Nat)
  | constantOutOfRange (index : Nat)
  | nameNotText (found : Tag)
  | tableOutOfRange (table : Nat)
  | unreachable
  | silentNative (name : String)
  | tooFewLocals (function : String) (params locals : Nat)
  | noFrame
  | noCode
  /-- A slot outside the region of the frame; an instruction that fits its frame never asks for one.
  -/
  | outsideRegion
  | reported (detail : String)
deriving DecidableEq, Inhabited

namespace Fault

def detail : Fault → String
  | pastEnd place => s!"code pointer {place} past end of function"
  | doesNotFit i => i.text ++ " does not fit the operand stack"
  | localOutOfRange slot => s!"local slot {slot} out of range"
  | constantOutOfRange index => s!"constant pool index {index} out of range"
  | nameNotText found => "constant name must be a string, found " ++ found.name
  | tableOutOfRange table => s!"switch table {table} out of range"
  | unreachable => "unreachable instruction executed"
  | silentNative name => s!"native {name} failed without reporting an error"
  | tooFewLocals function params locals =>
    s!"{function} declares {params} parameters but {locals} locals"
  | noFrame => "no active frame"
  | noCode => "active frame has no bytecode"
  | outsideRegion => "slot outside the frame"
  | reported detail => detail

end Fault

inductive ErrorKind where
  | typeError | divisionByZero | arityMismatch | undefinedFunction | indexOutOfBounds | undefinedKey
  | interruptedNative | internalFault | uninitializedLocal | stackOverflow | nativeFailure
deriving DecidableEq, Repr, Inhabited

namespace ErrorKind

def name : ErrorKind → String
  | typeError => "TypeError"
  | divisionByZero => "DivisionByZero"
  | arityMismatch => "ArityMismatch"
  | undefinedFunction => "UndefinedFunction"
  | indexOutOfBounds => "IndexOutOfBounds"
  | undefinedKey => "UndefinedKey"
  | interruptedNative => "InterruptedNative"
  | internalFault => "InternalFault"
  | uninitializedLocal => "UninitializedLocal"
  | stackOverflow => "StackOverflow"
  | nativeFailure => "NativeFailure"

end ErrorKind

inductive RuntimeError where
  | operation (cause : OpError)
  /-- A native got something other than it expects; `none` stands for a missing argument. -/
  | argument (function expected : String) (found : Option Tag)
  | arity (function : String) (min max argc : Nat)
  | undefinedFunction (name : String)
  | undefinedGlobal (name : String)
  | interrupted (function : String)
  | fault (cause : Fault)
  | uninitialized (slot : Nat)
  | stackOverflow (depth : Nat)
  | native (function message : String)
deriving DecidableEq, Inhabited

namespace RuntimeError

def kind : RuntimeError → ErrorKind
  | operation (.operands _ _ _) => .typeError
  | operation (.operand _ _) => .typeError
  | operation .divisionByZero => .divisionByZero
  | operation (.outOfBounds _ _) => .indexOutOfBounds
  | operation (.undefinedKey _) => .undefinedKey
  | argument _ _ _ => .typeError
  | arity _ _ _ _ => .arityMismatch
  | undefinedFunction _ => .undefinedFunction
  | undefinedGlobal _ => .undefinedKey
  | interrupted _ => .interruptedNative
  | fault _ => .internalFault
  | uninitialized _ => .uninitializedLocal
  | stackOverflow _ => .stackOverflow
  | native _ _ => .nativeFailure

def message : RuntimeError → String
  | operation (.operands op left right) =>
    "type error: " ++ (OpError.operands op left right).message
  | operation (.operand op tag) => "type error: " ++ (OpError.operand op tag).message
  | operation cause => cause.message
  | argument function expected found =>
    "type error: " ++ function ++ " expects " ++ expected ++ ", found " ++
      (found.map Tag.name).getD "nothing"
  | arity function min max argc => s!"{function} expects {min}..={max} arguments, got {argc}"
  | undefinedFunction name => "undefined function " ++ name
  | undefinedGlobal name => "undefined key " ++ name
  | interrupted function => function ++ " interrupted"
  | fault cause => "internal fault: " ++ cause.detail
  | uninitialized slot => s!"local slot {slot} read before assignment"
  | stackOverflow depth => s!"stack overflow at depth {depth}"
  | native function message => function ++ ": " ++ message

end RuntimeError

structure TraceEntry where
  function : String
  module : String
  line : Option UInt32
deriving DecidableEq, Inhabited

namespace TraceEntry

def text (e : TraceEntry) : String :=
  let line := match e.line with
    | some line => ":" ++ toString line.toNat
    | none => ""
  e.module ++ "." ++ e.function ++ line

end TraceEntry

/-- The error of a call. A trace lists frames from the innermost outwards. -/
inductive CallError where
  | crashed (error : RuntimeError) (trace : List TraceEntry)
  | fault (function : String) (place : Nat) (cause : Fault)
deriving DecidableEq, Inhabited

namespace CallError

def kind : CallError → ErrorKind
  | crashed error _ => error.kind
  | fault _ _ _ => .internalFault

def isFault : CallError → Bool
  | crashed _ _ => false
  | fault _ _ _ => true

def trace : CallError → List TraceEntry
  | crashed _ trace => trace
  | fault _ _ _ => []

def message : CallError → String
  | crashed error trace =>
    error.message ++ String.join (trace.map fun entry => "\n    at " ++ entry.text)
  | fault function place cause =>
    s!"internal fault in {function} at instruction {place}: " ++ cause.detail

end CallError

/-- Why a call in progress stops: an error of its own, or one that a call inside it has already
reported. -/
inductive Failure where
  | runtime (error : RuntimeError)
  | rethrown (error : CallError)
deriving DecidableEq, Inhabited

end StackMachine
