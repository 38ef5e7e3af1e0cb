import StackMachine.Code.Module
import StackMachine.Verify.Error

/-! Sizes a module has to keep. -/

namespace StackMachine

namespace Code

def limitFaults {κ : Type} (c : Code κ) : List FunctionFault :=
  (if maxInstructions < c.instructions.size then [.tooLarge c.instructions.size] else []) ++
  (if maxFramePart < c.stack.toNat then [.stackTooLarge c.stack.toNat] else []) ++
  (if maxFramePart < c.locals.toNat then [.tooManyLocals c.locals.toNat] else [])

end Code

namespace Function

def codeErrors {κ : Type} (f : Function κ) (faults : Code κ → List FunctionFault) :
    List VerifyError :=
  match f.code? with
  | none => []
  | some code => (faults code).map (.function f.qualifiedName)

end Function

namespace Module

def limitErrors {κ : Type} (m : Module κ) : List VerifyError :=
  (if maxFunctions < m.functions.size then [.tooManyFunctions m.functions.size] else []) ++
  m.functions.toList.flatMap (·.codeErrors Code.limitFaults)

end Module

end StackMachine
