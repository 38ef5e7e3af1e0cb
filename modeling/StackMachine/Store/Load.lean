import StackMachine.Data.Datum
import StackMachine.Store.Basic

/-! Building a tree of data in the store. Each container of the tree gets storage of its own; a mark
stands for a value that is there already. -/

namespace StackMachine.Store

variable {β : Type} (meaning : β → Value)

mutual

def build (s : Store) : Datum β → Value × Store
  | .undefined => (.undefined, s)
  | .scalar value => s.addScalar value
  | .list items =>
    let (values, s) := buildItems s items
    s.addList values.toArray
  | .map entries =>
    let (pairs, s) := buildEntries s entries
    s.addMap (.ofList pairs)
  | .back mark => (meaning mark, s)

def buildItems (s : Store) : List (Datum β) → List Value × Store
  | [] => ([], s)
  | item :: rest =>
    let (value, s) := build s item
    let (values, s) := buildItems s rest
    (value :: values, s)

def buildEntries (s : Store) : List (Scalar × Datum β) → List (Scalar × Value) × Store
  | [] => ([], s)
  | (key, item) :: rest =>
    let (value, s) := build s item
    let (pairs, s) := buildEntries s rest
    ((key, value) :: pairs, s)

end

def load (s : Store) (literal : Literal) : Value × Store :=
  s.build nofun literal

def loadAll (s : Store) (literals : Array Literal) : Array Value × Store :=
  let (values, s) := s.buildItems nofun literals.toList
  (values.toArray, s)

end StackMachine.Store
