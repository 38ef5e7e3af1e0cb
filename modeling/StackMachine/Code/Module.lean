import StackMachine.Code.Instruction

/-! Code, functions and modules. They are generic in the type `κ` of their literals: trees in a
module at rest, values of the store in a loaded one. -/

namespace StackMachine

structure SwitchTable where
  keys : Array UInt16
  targets : Array UInt32
  default : UInt32
deriving DecidableEq, Inhabited

/-- From instruction `start` on, the code stems from source line `line`. -/
structure LineEntry where
  start : UInt32
  line : UInt32
deriving DecidableEq, Inhabited

structure Code (κ : Type) where
  instructions : Array Instruction := #[]
  constants : Array κ := #[]
  tables : Array SwitchTable := #[]
  locals : UInt16 := 0
  stack : UInt16 := 0
  lines : Array LineEntry := #[]
deriving Inhabited

inductive Body (κ : Type) where
  | native
  | bytecode (code : Code κ)
deriving Inhabited

structure Function (κ : Type) where
  name : String
  module : String
  minArgs : UInt8
  maxArgs : UInt8
  params : Array String
  defaults : Array κ
  body : Body κ
deriving Inhabited

structure Module (κ : Type) where
  functions : Array (Function κ) := #[]
  globals : Array (String × κ) := #[]
  entry : Option UInt16 := none
deriving Inhabited

/-- Halve the `size` entries from `base` on until one is left. If they ascend, it is the last that
starts at `place` or before, unless all of them start later. -/
def lineSearch (lines : Array LineEntry) (place : Nat) : Nat → Nat → Nat → Nat
  | 0, base, _ => base
  | fuel + 1, base, size =>
    if size ≤ 1 then base
    else
      let middle := base + size / 2
      let started := lines[middle]?.any (·.start.toNat ≤ place)
      lineSearch lines place fuel (if started then middle else base) (size - size / 2)

def lineAt (lines : Array LineEntry) (place : Nat) : Option UInt32 :=
  let entry := lines[lineSearch lines place lines.size 0 lines.size]?
  (entry.filter (·.start.toNat ≤ place)).map (·.line)

variable {κ : Type}

namespace Code

def frameSize (c : Code κ) : Nat :=
  c.locals.toNat + c.stack.toNat

def binaryTables (c : Code κ) : List Nat :=
  c.instructions.toList.filterMap fun
    | .wide (.switch .binary) table => some table.toNat
    | _ => none

end Code

namespace Function

def qualifiedName (f : Function κ) : String :=
  f.module ++ "." ++ f.name

def code? (f : Function κ) : Option (Code κ) :=
  match f.body with
  | .native => none
  | .bytecode code => some code

def isNative (f : Function κ) : Bool :=
  f.code?.isNone

def accepts (f : Function κ) (argc : Nat) : Bool :=
  f.minArgs.toNat ≤ argc && argc ≤ f.maxArgs.toNat

/-- A host function. Its parameters have no names of their own, and those it can do without default
to `null`. -/
def native (null : κ) (name module : String) (minArgs maxArgs : UInt8) : Function κ :=
  { name, module, minArgs, maxArgs
    params := (Array.range maxArgs.toNat).map fun i => "arg" ++ toString i
    defaults := Array.replicate (maxArgs.toNat - minArgs.toNat) null
    body := .native }

def bytecode (name module : String) (code : Code κ) : Function κ :=
  { name, module, minArgs := 0, maxArgs := 0, params := #[], defaults := #[]
    body := .bytecode code }

/-- Name the parameters; the last of them take the defaults. -/
def withParams (f : Function κ) (params : Array String) (defaults : Array κ) : Function κ :=
  { f with
    params, defaults
    minArgs := .ofNat (params.size - min defaults.size params.size)
    maxArgs := .ofNat params.size }

end Function

namespace Module

/-- The first function of that plain or qualified name, if a call can address it. -/
def find? (m : Module κ) (name : String) : Option UInt16 :=
  match m.functions.findIdx? fun f => f.name == name || f.qualifiedName == name with
  | some index => if index < UInt16.size then some (.ofNat index) else none
  | none => none

end Module

end StackMachine
