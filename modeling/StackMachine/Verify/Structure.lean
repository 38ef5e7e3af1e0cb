import StackMachine.Data.Datum
import StackMachine.Verify.Limits

/-! Whatever a module names has to be there: entry, constants, locals, callees, jump targets and
switch tables. The arity of a function has to fit its parameters, defaults and locals. -/

namespace StackMachine

namespace Function

def descriptorFaults (f : Function Literal) : List FunctionFault :=
  let least := f.minArgs.toNat
  let most := f.maxArgs.toNat
  if most < least then [.invalidArity least most]
  else
    (if f.defaults.size != most - least then
      [.defaultCount (most - least) f.defaults.size] else []) ++
    (if f.params.size != most then [.paramCount most f.params.size] else []) ++
    (f.defaults.toList.zipIdx.filterMap fun (literal, index) =>
      if literal.isUndefined then some (.undefinedDefault index) else none) ++
    (match f.code? with
      | some code => if code.locals.toNat < most then [.tooFewLocals code.locals.toNat most] else []
      | none => [])

end Function

namespace Code

def constantFaults (c : Code Literal) : List FunctionFault :=
  c.constants.toList.zipIdx.filterMap fun (literal, index) =>
    if literal.isUndefined then some (.undefinedConstant index) else none

def operandFaults (c : Code Literal) (functions : Nat) : Instruction → List InstructionFault
  | .wide .constant index =>
    if index.toNat < c.constants.size then [] else [.constantOutOfRange index.toNat]
  | .wide .global index =>
    match c.constants[index.toNat]? with
    | none => [.constantOutOfRange index.toNat]
    | some (.scalar (.text _)) => []
    | some _ => [.nameNotText index.toNat]
  | .call _ callee _ =>
    if callee.toNat < functions then [] else [.functionOutOfRange callee.toNat]
  | .wide (.switch _) table =>
    if table.toNat < c.tables.size then [] else [.tableOutOfRange table.toNat]
  | _ => []

def instructionFaults (c : Code Literal) (functions : Nat) (i : Instruction) :
    List InstructionFault :=
  (match i.slot? with
    | some slot => if slot < c.locals then [] else [.localOutOfRange slot.toNat]
    | none => []) ++
  c.operandFaults functions i ++
  (match i.jumpTarget? with
    | some target =>
      if target.toNat < c.instructions.size then [] else [.jumpOutOfRange target.toNat]
    | none => [])

def key? (c : Code Literal) (key : UInt16) : Option Scalar :=
  c.constants[key.toNat]?.bind Literal.scalar?

/-- Numbers, and the scalars of any other kind, are ordered among themselves unless one is not a
number; so it is enough to compare each key with the first. -/
def mutuallyOrdered : List Scalar → Bool
  | [] => true
  | first :: rest => (first :: rest).all fun key => ((first.compare? key).bind id).isSome

def tableFaults (c : Code Literal) (binary : List Nat) (index : Nat) (t : SwitchTable) :
    List FunctionFault :=
  let keys := t.keys.toList.filterMap c.key?
  (if t.keys.size != t.targets.size then
    [.tableMismatch index t.keys.size t.targets.size] else []) ++
  ((t.targets.toList ++ [t.default]).filterMap fun target =>
    if target.toNat < c.instructions.size then none
    else some (.instruction index (.jumpOutOfRange target.toNat))) ++
  (t.keys.toList.filterMap fun key =>
    if (c.key? key).isSome then none else some (.invalidKey index key.toNat)) ++
  (if binary.contains index && keys.length == t.keys.size &&
    !mutuallyOrdered keys then [.unorderedKeys index]
    else [])

def structureFaults (c : Code Literal) (functions : Nat) : List FunctionFault :=
  let binary := c.binaryTables
  c.constantFaults ++
  (c.instructions.toList.zipIdx.flatMap fun (i, place) =>
    (c.instructionFaults functions i).map (.instruction place)) ++
  (c.tables.toList.zipIdx.flatMap fun (t, index) => c.tableFaults binary index t)

end Code

namespace Module

def structureErrors (m : Module Literal) : List VerifyError :=
  (match m.entry with
    | some entry => if entry.toNat < m.functions.size then [] else [.invalidEntry entry.toNat]
    | none => []) ++
  (m.globals.toList.filterMap fun (name, literal) =>
    if literal.isUndefined then some (.undefinedGlobal name) else none) ++
  (m.functions.toList.flatMap fun f =>
    f.descriptorFaults.map (.function f.qualifiedName) ++
      f.codeErrors (·.structureFaults m.functions.size))

end Module

end StackMachine
