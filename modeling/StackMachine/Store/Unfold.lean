import StackMachine.Data.Datum
import StackMachine.Store.Basic

/-! The tree a stored value unfolds to. A list or map that is met again below itself becomes a back
reference; one that is only shared is unfolded at each place. -/

namespace StackMachine

/-- An open container, seen from `levels` containers further in. -/
structure Back where
  levels : Nat
  container : Container

abbrev Unfolding := Datum Back

namespace Back

def text (b : Back) : String :=
  match b.container with
  | .list _ => "[...]"
  | .map _ => "\x7b...\x7d"

end Back

namespace Store

/-- `path` holds the open containers, the innermost first. Every level opens a container of the
store that was not open before, so a bound above their number is never used up. -/
def unfoldWithin (s : Store) : Nat → List Container → Value → Unfolding
  | 0, _, _ => .undefined
  | bound + 1, path, v =>
    match v with
    | .undefined => .undefined
    | .null => .scalar .null
    | .bool b => .scalar (.bool b)
    | .int n => .scalar (.int n)
    | .float x => .scalar (.float x)
    | .text ref => .scalar (.text (s.text ref))
    | .list ref =>
      match path.idxOf? (.list ref) with
      | some depth => .back ⟨depth + 1, .list ref⟩
      | none => .list ((s.list ref).toList.map (s.unfoldWithin bound (.list ref :: path)))
    | .map ref =>
      match path.idxOf? (.map ref) with
      | some depth => .back ⟨depth + 1, .map ref⟩
      | none =>
        .map ((s.map ref).entries.map fun entry =>
          (entry.1, s.unfoldWithin bound (.map ref :: path) entry.2))

def unfold (s : Store) (v : Value) : Unfolding :=
  s.unfoldWithin (s.containers + 1) [] v

def display (s : Store) (v : Value) : String :=
  (s.unfold v).render Back.text

end Store

end StackMachine
