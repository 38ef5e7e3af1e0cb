import StackMachine.Machine.Thread
import StackMachine.Proofs.Loading

/-! Copying only adds to the store: the containers that were there stay as they are. A value that is
no container is its own copy. -/

namespace StackMachine

namespace Copying

variable {α β : Type}

theorem mapM_extends {copy : α → StateM Copying β} (items : List α)
    (each : ∀ item (c : Copying), c.store.Extends (copy item c).2.store) (c : Copying) :
    c.store.Extends (items.mapM copy c).2.store := by
  induction items generalizing c with
  | nil => exact .refl _
  | cons item rest ih =>
    rw [List.mapM_cons]
    exact (each item c).trans (ih (copy item c).2)

section Levels

variable {bound : Nat} {c : Copying}

theorem copyWithin_list_known {ref copy : ListRef} (known : c.lists[ref]? = some copy) :
    copyWithin (bound + 1) (.list ref) c = (.list copy, c) := by
  simp only [copyWithin, bind, StateT.bind, get, getThe, MonadStateOf.get, StateT.get, pure, known]
  rfl

theorem copyWithin_map_known {ref copy : MapRef} (known : c.maps[ref]? = some copy) :
    copyWithin (bound + 1) (.map ref) c = (.map copy, c) := by
  simp only [copyWithin, bind, StateT.bind, get, getThe, MonadStateOf.get, StateT.get, pure, known]
  rfl

def copyItems (bound : Nat) (c : Copying) (ref : ListRef) : List Value × Copying :=
  ((c.openList ref).2.store.list ref).toList.mapM (copyWithin bound) (c.openList ref).2

def copyEntry (bound : Nat) (entry : Scalar × Value) : StateM Copying (Scalar × Value) := do
  return (entry.1, ← copyWithin bound entry.2)

def copyEntries (bound : Nat) (c : Copying) (ref : MapRef) : List (Scalar × Value) × Copying :=
  ((c.openMap ref).2.store.map ref).entries.mapM (copyEntry bound) (c.openMap ref).2

theorem copyWithin_list {ref : ListRef} (first : c.lists[ref]? = none) :
    copyWithin (bound + 1) (.list ref) c =
      (.list (c.openList ref).1, (copyItems bound c ref).2.closeList (c.openList ref).1
        (copyItems bound c ref).1) := by
  simp only [copyWithin, bind, StateT.bind, get, getThe, MonadStateOf.get, StateT.get, pure, first]
  rfl

theorem copyWithin_map {ref : MapRef} (first : c.maps[ref]? = none) :
    copyWithin (bound + 1) (.map ref) c =
      (.map (c.openMap ref).1,
        (copyEntries bound c ref).2.closeMap (c.openMap ref).1 (copyEntries bound c ref).1) := by
  simp only [copyWithin, bind, StateT.bind, get, getThe, MonadStateOf.get, StateT.get, pure, first]
  rfl

end Levels

theorem copyWithin_extends (bound : Nat) (v : Value) (c : Copying) :
    c.store.Extends (copyWithin bound v c).2.store := by
  induction bound generalizing v c with
  | zero => exact .refl _
  | succ bound ih =>
    cases v with
    | text ref => exact c.store.addText_extends _
    | list ref =>
      cases known : c.lists[ref]? with
      | some copy =>
        rw [copyWithin_list_known known]
        exact .refl _
      | none =>
        have opened : c.store.Extends (c.openList ref).2.store := c.store.addList_extends #[]
        have filled : c.store.Extends (copyItems bound c ref).2.store :=
          opened.trans (mapM_extends _ ih _)
        rw [copyWithin_list known]
        exact filled.touch (Store.modifyList_touches _ _ _) c.store.not_has_pushList
    | map ref =>
      cases known : c.maps[ref]? with
      | some copy =>
        rw [copyWithin_map_known known]
        exact .refl _
      | none =>
        have opened : c.store.Extends (c.openMap ref).2.store := c.store.addMap_extends .empty
        have each (entry : Scalar × Value) (c : Copying) :
            c.store.Extends (copyEntry bound entry c).2.store :=
          ih entry.2 c
        have filled : c.store.Extends (copyEntries bound c ref).2.store :=
          opened.trans (mapM_extends _ each _)
        rw [copyWithin_map known]
        exact filled.touch (Store.modifyMap_touches _ _ _) c.store.not_has_pushMap
    | _ => exact .refl _

end Copying

namespace Store

theorem deepCopy_extends (s : Store) (v : Value) : s.Extends (s.deepCopy v).2 :=
  Copying.copyWithin_extends (s.containers + 1) v { store := s }

def copyEach : Store → List Value → List Value × Store
  | s, [] => ([], s)
  | s, v :: rest =>
    let (copy, s) := s.deepCopy v
    let (copies, s) := copyEach s rest
    (copy :: copies, s)

theorem copyAll_eq (s : Store) (values : Array Value) :
    s.copyAll values = ((s.copyEach values.toList).1.toArray, (s.copyEach values.toList).2) := by
  suffices ∀ (values : List Value) (s : Store) (done : Array Value),
      values.foldl (fun r v => (r.1.push (deepCopy r.2 v).1, (deepCopy r.2 v).2)) (done, s) =
        (done ++ (s.copyEach values).1.toArray, (s.copyEach values).2) by
    unfold copyAll
    rw [← Array.foldl_toList]
    exact (this values.toList s #[]).trans (by rw [Array.empty_append])
  intro values
  induction values with
  | nil => simp [copyEach]
  | cons v rest ih => intro s done; simp [copyEach, ih]

theorem copyEach_extends (s : Store) (values : List Value) : s.Extends (s.copyEach values).2 := by
  induction values generalizing s with
  | nil => exact .refl s
  | cons v rest ih => exact (s.deepCopy_extends v).trans (ih (s.deepCopy v).2)

theorem copyAll_extends (s : Store) (values : Array Value) : s.Extends (s.copyAll values).2 := by
  rw [copyAll_eq]
  exact s.copyEach_extends values.toList

theorem deepCopy_immediate {v : Value} (immediate : v.tag.isContainer = false) (s : Store) :
    s.deepCopy v = (v, s) := by
  cases v with
  | text => contradiction
  | list => contradiction
  | map => contradiction
  | _ => rfl

theorem copyAll_immediate {values : Array Value}
    (immediate : ∀ v ∈ values, v.tag.isContainer = false) (s : Store) :
    (s.copyAll values).2 = s := by
  unfold copyAll
  refine Array.foldl_induction (fun _ (done : Array Value × Store) => done.2 = s) rfl
    fun i done same => ?_
  have unchanged := deepCopy_immediate (immediate values[i] (Array.getElem_mem i.isLt)) done.2
  exact (congrArg Prod.snd unchanged).trans same

end Store

end StackMachine
