import StackMachine.Verify.Flow

/-! Operand stack depths. Every place that can be reached gets the depth with which it is entered;
all paths to a place have to agree on it, and every instruction has to find the cells it takes and
stay within the declared stack. -/

namespace StackMachine

namespace Code

variable {κ : Type}

/-- Depths found so far, places whose successors are still to be looked at, faults, and the greatest
depth after any instruction. -/
structure Depths where
  depths : Array (Option Nat)
  work : List Nat
  faults : Array FunctionFault
  deepest : Nat

namespace Depths

def fault (d : Depths) (place : Nat) (cause : InstructionFault) : Depths :=
  { d with faults := d.faults.push (.instruction place cause) }

def meet (depth : Nat) (d : Depths) (place : Nat) : Depths :=
  match d.depths.getD place none with
  | none => { d with depths := d.depths.setIfInBounds place (some depth), work := place :: d.work }
  | some seen => if seen == depth then d else d.fault place (.inconsistent seen depth)

/-- The instruction at `place` runs on `depth` cells. A path ends at a fault of its depth. -/
def pass (c : Code κ) (limit : Option Nat) (place depth : Nat) (i : Instruction) (d : Depths) :
    Depths :=
  if i == .plain .unreachable then d.fault place .placeholder
  else if depth < i.pops then d.fault place (.underflow depth i.pops)
  else
    let after := depth - i.pops + i.pushes
    match limit.filter (· < after) with
    | some max => d.fault place (.overflow after max)
    | none =>
      let d := { d with deepest := max d.deepest after }
      let d :=
        if i.fallsThrough && place + 1 == c.instructions.size then d.fault place .fallsOffEnd else d
      (c.successors place).foldl (meet after) d

end Depths

def spread (c : Code κ) (limit : Option Nat) : Nat → Depths → Depths
  | 0, d => d
  | rounds + 1, d =>
    match d.work with
    | [] => d
    | place :: work =>
      let d := { d with work }
      match d.depths.getD place none, c.instructions[place]? with
      | some depth, some i => c.spread limit rounds (d.pass c limit place depth i)
      | _, _ => c.spread limit rounds d

def analyze (c : Code κ) (limit : Option Nat) : Depths :=
  let size := c.instructions.size
  if size = 0 then
    { depths := #[], work := [], faults := #[.instruction 0 .fallsOffEnd], deepest := 0 }
  else
    c.spread limit size
      { depths := (Array.replicate size none).setIfInBounds 0 (some 0), work := [0], faults := #[]
        deepest := 0 }

def stackFaults (c : Code κ) : List FunctionFault :=
  (c.analyze (some c.stack.toNat)).faults.toList

/-- The deepest stack any path needs; a path that runs out of cells is cut off. -/
def requiredStack (c : Code κ) : Nat :=
  (c.analyze none).deepest

end Code

namespace Module

def stackErrors {κ : Type} (m : Module κ) : List VerifyError :=
  m.functions.toList.flatMap (·.codeErrors Code.stackFaults)

end Module

end StackMachine
