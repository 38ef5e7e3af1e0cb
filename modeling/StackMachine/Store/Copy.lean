import StackMachine.Store.Basic
import Std.Data.HashMap

/-! Deep copies. Every list and map that can be reached is copied once, so sharing and cycles among
them come back in the copy; a text is copied anew at each place. -/

namespace StackMachine

structure Copying where
  store : Store
  lists : Std.HashMap ListRef ListRef := ∅
  maps : Std.HashMap MapRef MapRef := ∅

namespace Copying

def copyText (c : Copying) (ref : TextRef) : Value × Copying :=
  match c with
  | { store, lists, maps } =>
    let (value, store) := store.addText (store.text ref)
    (value, { store, lists, maps })

def openList (c : Copying) (ref : ListRef) : ListRef × Copying :=
  match c with
  | { store, lists, maps } =>
    let (copy, store) := store.pushList #[]
    (copy, { store, lists := lists.insert ref copy, maps })

def openMap (c : Copying) (ref : MapRef) : MapRef × Copying :=
  match c with
  | { store, lists, maps } =>
    let (copy, store) := store.pushMap .empty
    (copy, { store, lists, maps := maps.insert ref copy })

def closeList (c : Copying) (copy : ListRef) (items : List Value) : Copying :=
  match c with
  | { store, lists, maps } => { store := store.modifyList copy fun _ => items.toArray, lists, maps }

def closeMap (c : Copying) (copy : MapRef) (entries : List (Scalar × Value)) : Copying :=
  match c with
  | { store, lists, maps } =>
    { store := store.modifyMap copy fun _ => .ofList entries, lists, maps }

/-- Every level opens a container that had no copy, so a bound above their number is never used
up. -/
def copyWithin : Nat → Value → StateM Copying Value
  | 0, v => pure v
  | bound + 1, v =>
    match v with
    | .text ref => modifyGet (·.copyText ref)
    | .list ref => do
      match (← get).lists[ref]? with
      | some copy => return .list copy
      | none =>
        let copy ← modifyGet (·.openList ref)
        let items ← ((← get).store.list ref).toList.mapM (copyWithin bound)
        modify (·.closeList copy items)
        return .list copy
    | .map ref => do
      match (← get).maps[ref]? with
      | some copy => return .map copy
      | none =>
        let copy ← modifyGet (·.openMap ref)
        let entries ← ((← get).store.map ref).entries.mapM fun entry => do
          return (entry.1, ← copyWithin bound entry.2)
        modify (·.closeMap copy entries)
        return .map copy
    | scalar => pure scalar

end Copying

namespace Store

def deepCopy (s : Store) (v : Value) : Value × Store :=
  let bound := s.containers + 1
  let (copy, c) := (Copying.copyWithin bound v).run { store := s }
  (copy, c.store)

end Store

end StackMachine
