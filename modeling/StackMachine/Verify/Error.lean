/-! What the verifier finds wrong with a module. -/

namespace StackMachine

inductive InstructionFault where
  | localOutOfRange (slot : Nat)
  | constantOutOfRange (index : Nat)
  | nameNotText (index : Nat)
  | functionOutOfRange (callee : Nat)
  | jumpOutOfRange (target : Nat)
  | tableOutOfRange (table : Nat)
  | underflow (depth pops : Nat)
  | overflow (depth max : Nat)
  | inconsistent (expected found : Nat)
  | fallsOffEnd
  | placeholder
  | dead
deriving DecidableEq, Repr, Inhabited

inductive FunctionFault where
  | tooLarge (size : Nat)
  | stackTooLarge (stack : Nat)
  | tooManyLocals (locals : Nat)
  | invalidArity (min max : Nat)
  | defaultCount (expected found : Nat)
  | paramCount (expected found : Nat)
  | tooFewLocals (locals params : Nat)
  | undefinedDefault (index : Nat)
  | undefinedConstant (index : Nat)
  | tableMismatch (table keys targets : Nat)
  | invalidKey (table key : Nat)
  | unorderedKeys (table : Nat)
  | instruction (place : Nat) (fault : InstructionFault)
deriving DecidableEq, Repr, Inhabited

inductive VerifyError where
  | tooManyFunctions (count : Nat)
  | invalidEntry (entry : Nat)
  | undefinedGlobal (name : String)
  | function (name : String) (fault : FunctionFault)
deriving DecidableEq, Repr, Inhabited

def maxFunctions : Nat := 65535

def maxInstructions : Nat := 1048576

def maxFramePart : Nat := 4096

namespace InstructionFault

def message : InstructionFault → String
  | localOutOfRange slot => s!"local slot {slot} out of range"
  | constantOutOfRange index => s!"constant {index} out of range"
  | nameNotText index => s!"constant name {index} is not a string"
  | functionOutOfRange callee => s!"function {callee} out of range"
  | jumpOutOfRange target => s!"jump target {target} out of range"
  | tableOutOfRange table => s!"switch table {table} out of range"
  | underflow depth pops => s!"stack underflow (depth {depth}, pops {pops})"
  | overflow depth max => s!"stack depth {depth} exceeds max_stack {max}"
  | inconsistent expected found => s!"inconsistent stack depth ({expected} vs {found})"
  | fallsOffEnd => "execution falls off the end of the code"
  | placeholder => "UNREACHABLE placeholder is reachable"
  | dead => "unreachable instruction"

end InstructionFault

namespace FunctionFault

def message : FunctionFault → String
  | tooLarge size => s!" has {size} instructions (max {maxInstructions})"
  | stackTooLarge stack => s!" declares max_stack {stack} (max {maxFramePart})"
  | tooManyLocals locals => s!" declares max_locals {locals} (max {maxFramePart})"
  | invalidArity min max => s!" has min_argc {min} greater than max_argc {max}"
  | defaultCount expected found => s!" has {found} defaults, expected {expected}"
  | paramCount expected found => s!" names {found} parameters, expected {expected}"
  | tooFewLocals locals params => s!" has {locals} locals for {params} parameters"
  | undefinedDefault index => s!" default {index} is undefined"
  | undefinedConstant index => s!" constant {index} is undefined"
  | tableMismatch table keys targets =>
    s!" switch table {table} has {keys} keys but {targets} targets"
  | invalidKey table key => s!" switch table {table}: key constant {key} is missing or not a scalar"
  | unorderedKeys table => s!" switch table {table}: keys are not mutually ordered"
  | instruction place fault => s!" at {place}: " ++ fault.message

end FunctionFault

namespace VerifyError

def message : VerifyError → String
  | tooManyFunctions count => s!"module has {count} functions (max {maxFunctions})"
  | invalidEntry entry => s!"entry function {entry} out of range"
  | undefinedGlobal name => s!"module constant {name} is undefined"
  | function name fault => name ++ fault.message

end VerifyError

end StackMachine
