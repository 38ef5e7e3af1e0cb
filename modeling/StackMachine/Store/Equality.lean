import StackMachine.Store.Basic

/-! Equality of stored values: same kind and equal contents, also for containers that contain
themselves. -/

namespace StackMachine.Store

/-- `active` holds the pairs of containers under comparison further up; meeting one of them again
closes a cycle and counts as equal. No pair is compared inside itself, so a bound above the number
of pairs is never used up. -/
def equalWithin (s : Store) : Nat → List (Container × Container) → Value → Value → Bool
  | 0, _, _, _ => false
  | bound + 1, active, v, w =>
    match v, w with
    | .undefined, .undefined => true
    | .null, .null => true
    | .bool a, .bool b => a == b
    | .int a, .int b => a == b
    | .float x, .float y => x.equal y
    | .text a, .text b => s.text a == s.text b
    | .list a, .list b =>
      if a == b || active.contains (.list a, .list b) then true
      else
        let items := s.list a
        let others := s.list b
        let active := (.list a, .list b) :: active
        items.size == others.size &&
          (items.toList.zip others.toList).all fun pair => s.equalWithin bound active pair.1 pair.2
    | .map a, .map b =>
      if a == b || active.contains (.map a, .map b) then true
      else
        let entries := (s.map a).entries
        let others := (s.map b).entries
        let active := (.map a, .map b) :: active
        entries.length == others.length &&
          (entries.zip others).all fun pair =>
            pair.1.1 == pair.2.1 && s.equalWithin bound active pair.1.2 pair.2.2
    | _, _ => false

def equal (s : Store) (v w : Value) : Bool :=
  s.equalWithin (s.containers * s.containers + 1) [] v w

end StackMachine.Store
