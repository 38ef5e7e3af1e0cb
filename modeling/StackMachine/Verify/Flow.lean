import StackMachine.Code.Module
import StackMachine.Verify.Limits

/-! Control flow inside a function. Every function starts at its first instruction. -/

namespace StackMachine

namespace Code

variable {κ : Type}

def jumpTargets (c : Code κ) : Instruction → List Nat
  | .wide (.switch _) table =>
    match c.tables[table.toNat]? with
    | some t => t.targets.toList.map (·.toNat) ++ [t.default.toNat]
    | none => []
  | i => i.jumpTarget?.toList.map (·.toNat)

/-- The places that can follow `place`, those outside the code left out. -/
def successors (c : Code κ) (place : Nat) : List Nat :=
  match c.instructions[place]? with
  | none => []
  | some i =>
    let next := if i.fallsThrough then [place + 1] else []
    (c.jumpTargets i ++ next).filter (· < c.instructions.size)

/-- Places seen so far, and those of them whose successors are still to be looked at. -/
structure Search where
  seen : Array Bool
  work : List Nat

def Search.meet (s : Search) (place : Nat) : Search :=
  if s.seen.getD place true then s
  else { seen := s.seen.setIfInBounds place true, work := place :: s.work }

/-- Each place is put to work once, so as many rounds as there are instructions suffice. -/
def search (c : Code κ) : Nat → Search → Search
  | 0, s => s
  | rounds + 1, s =>
    match s.work with
    | [] => s
    | place :: work => c.search rounds ((c.successors place).foldl Search.meet { s with work })

def reachable (c : Code κ) : Array Bool :=
  let size := c.instructions.size
  (c.search size (Search.meet { seen := Array.replicate size false, work := [] } 0)).seen

def deadFaults (c : Code κ) : List FunctionFault :=
  c.reachable.toList.zipIdx.filterMap fun (seen, place) =>
    if seen then none else some (.instruction place .dead)

end Code

namespace Module

def deadCode {κ : Type} (m : Module κ) : List VerifyError :=
  m.functions.toList.flatMap (·.codeErrors Code.deadFaults)

end Module

end StackMachine
