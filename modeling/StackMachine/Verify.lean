import StackMachine.Verify.Structure
import StackMachine.Verify.Stack

/-! Verification of a module before it is loaded. -/

namespace StackMachine.Module

/-- Everything that is wrong with a module. Depths are looked at only where all targets are known to
exist. -/
def verify (m : Module Literal) : List VerifyError :=
  let structural := m.structureErrors
  m.limitErrors ++ structural ++ (if structural.isEmpty then m.stackErrors else [])

end StackMachine.Module
