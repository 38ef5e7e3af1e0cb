import StackMachine.Data.Datum
import StackMachine.Proofs.Dictionary
import StackMachine.Proofs.Reachability
import StackMachine.Store.Load

/-! What loading does to the store. Each literal becomes a value of its own tag, and all that the
value is made of is in the store. What was there stays as it is, so a scalar literal reads the same
as long as nobody writes to its text. -/

namespace StackMachine.Store

variable {β : Type} {meaning : β → Value} {s : Store}

section Tags

variable (s)

@[simp] theorem build_tag (meaning : Empty → Value) (literal : Literal) :
    (s.build meaning literal).1.tag = literal.tag := by
  cases literal with
  | undefined => rfl
  | scalar value => cases value <;> rfl
  | list items => rfl
  | map entries => rfl
  | back mark => exact mark.elim

theorem buildItems_tags (meaning : Empty → Value) (items : List Literal) :
    (s.buildItems meaning items).1.map Value.tag = items.map Literal.tag := by
  induction items generalizing s with
  | nil => rfl
  | cons item items ih => simp [buildItems, ih]

theorem loadAll_tags (literals : Array Literal) :
    (s.loadAll literals).1.map Value.tag = literals.map Literal.tag := by
  apply Array.toList_inj.mp
  simpa [loadAll] using s.buildItems_tags _ literals.toList

theorem loadAll_size (literals : Array Literal) : (s.loadAll literals).1.size = literals.size := by
  simpa using congrArg Array.size (s.loadAll_tags literals)

end Tags

mutual

theorem build_extends (s : Store) : (data : Datum β) → s.Extends (s.build meaning data).2
  | .undefined => .refl s
  | .scalar value => addScalar_extends s value
  | .list items => (buildItems_extends s items).trans (addList_extends _ _)
  | .map entries => (buildEntries_extends s entries).trans (addMap_extends _ _)
  | .back _ => .refl s

theorem buildItems_extends (s : Store) :
    (items : List (Datum β)) → s.Extends (s.buildItems meaning items).2
  | [] => .refl s
  | item :: items => (build_extends s item).trans (buildItems_extends _ items)

theorem buildEntries_extends (s : Store) : (entries : List (Scalar × Datum β)) →
    s.Extends (s.buildEntries meaning entries).2
  | [] => .refl s
  | (_, item) :: entries => (build_extends s item).trans (buildEntries_extends _ entries)

end

section Stored

theorem addScalar_stored (s : Store) (value : Scalar) :
    (s.addScalar value).2.Stored (s.addScalar value).1 := by
  cases value with
  | text t => exact stored_of_inside (by simp [addScalar, addText, pushText, Has]) nofun
  | _ => exact stored_of_inside trivial nofun

theorem addList_stored {items : Array Value} (stored : ∀ v ∈ items, s.Stored v) :
    (s.addList items).2.Stored (s.addList items).1 := by
  refine stored_of_inside (by simp [addList, pushList, Has]) fun w inside => ?_
  cases inside with
  | item member =>
    exact (stored w (s.pushList_list items ▸ member)).extends (s.addList_extends items)

theorem addMap_stored {entries : Dict Value} (stored : ∀ e ∈ entries.entries, s.Stored e.2) :
    (s.addMap entries).2.Stored (s.addMap entries).1 := by
  refine stored_of_inside (by simp [addMap, pushMap, Has]) fun w inside => ?_
  cases inside with
  | entry member =>
    exact (stored _ (s.pushMap_map entries ▸ member)).extends (s.addMap_extends entries)

mutual

/-- Nothing that a value is built of is missing, if the marks stand for values of the store. -/
theorem build_stored (s : Store) (marks : ∀ mark, s.Stored (meaning mark)) : (data : Datum β) →
    (s.build meaning data).2.Stored (s.build meaning data).1
  | .undefined => stored_of_inside trivial nofun
  | .scalar value => addScalar_stored s value
  | .list items => addList_stored (by simpa using buildItems_stored s marks items)
  | .map entries =>
    addMap_stored fun e member => buildEntries_stored s marks entries e
      (Dict.mem_of_mem_ofList member)
  | .back mark => marks mark

theorem buildItems_stored (s : Store) (marks : ∀ mark, s.Stored (meaning mark)) :
    (items : List (Datum β)) →
    ∀ v ∈ (s.buildItems meaning items).1, (s.buildItems meaning items).2.Stored v
  | [] => by simp [buildItems]
  | item :: items => by
    have grows : s.Extends (s.build meaning item).2 := build_extends s item
    have first : (s.buildItems meaning (item :: items)).2.Stored (s.build meaning item).1 :=
      (build_stored s marks item).extends (buildItems_extends _ items)
    have others := buildItems_stored _ (fun mark => (marks mark).extends grows) items
    exact List.forall_mem_cons.mpr ⟨first, others⟩

theorem buildEntries_stored (s : Store) (marks : ∀ mark, s.Stored (meaning mark)) :
    (entries : List (Scalar × Datum β)) →
    ∀ e ∈ (s.buildEntries meaning entries).1, (s.buildEntries meaning entries).2.Stored e.2
  | [] => by simp [buildEntries]
  | (key, item) :: entries => by
    have grows : s.Extends (s.build meaning item).2 := build_extends s item
    have first : (s.buildEntries meaning ((key, item) :: entries)).2.Stored
        (s.build meaning item).1 :=
      (build_stored s marks item).extends (buildEntries_extends _ entries)
    have others := buildEntries_stored _ (fun mark => (marks mark).extends grows) entries
    exact List.forall_mem_cons.mpr ⟨first, others⟩

end

theorem loadAll_extends (s : Store) (literals : Array Literal) : s.Extends (s.loadAll literals).2 :=
  buildItems_extends s literals.toList

theorem loadAll_stored (s : Store) (literals : Array Literal) :
    ∀ v ∈ (s.loadAll literals).1, (s.loadAll literals).2.Stored v := by
  simpa [loadAll] using buildItems_stored s nofun literals.toList

end Stored

theorem addScalar_scalar? {later : Store} (value : Scalar)
    (grows : (s.addScalar value).2.Extends later) :
    later.scalar? (s.addScalar value).1 = some value := by
  cases value with
  | text t =>
    have read := grows.text ⟨s.texts.size⟩ (by simp [addScalar, addText, pushText])
    simp only [addScalar, addText, pushText, scalar?] at *
    rw [read]
    simp [text]
  | _ => rfl

theorem buildItems_scalar? {later : Store} {items : List (Datum β)} {place : Nat} {value : Scalar}
    (grows : (s.buildItems meaning items).2.Extends later)
    (there : items[place]? = some (.scalar value)) :
    ∃ v, (s.buildItems meaning items).1[place]? = some v ∧ later.scalar? v = some value := by
  induction items generalizing s place with
  | nil => simp at there
  | cons item items ih =>
    cases place with
    | zero =>
      obtain rfl : item = .scalar value := by simpa using there
      exact ⟨_, rfl, addScalar_scalar? value ((buildItems_extends _ items).trans grows)⟩
    | succ place => exact ih grows there

/-- In this store the scalar constants read as their literals. -/
def Holds (s : Store) (constants : Array Value) (literals : Array Literal) : Prop :=
  ∀ (place : Nat) (value : Scalar), literals[place]? = some (.scalar value) →
    ∃ v, constants[place]? = some v ∧ s.scalar? v = some value

theorem loadAll_holds {later : Store} {literals : Array Literal}
    (grows : (s.loadAll literals).2.Extends later) :
    later.Holds (s.loadAll literals).1 literals := by
  intro place value there
  obtain ⟨v, found, read⟩ := buildItems_scalar? grows (by simpa using there)
  exact ⟨v, by simpa [loadAll] using found, read⟩

end StackMachine.Store
