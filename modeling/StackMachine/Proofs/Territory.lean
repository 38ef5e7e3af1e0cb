import StackMachine.Machine.Thread
import StackMachine.Proofs.Duplication

/-! A realm of values: all that a computation may have to do with. It begins with some of the
containers of a store, takes in every container made later, and nothing in it leads out of it. What
lies outside may be copied, if the copy is made of values inside: in a territory, which has
`undefined` inside too, this is so for all containers outside. -/

namespace StackMachine

/-- Some of the containers of the store `origin`, all that are not there yet, and all scalars.
Whether `undefined` is inside is left open. -/
structure Realm where
  origin : Store
  inside : Value → Prop
  immediate : ∀ {v}, v.tag.isContainer = false → v.isUndefined = false → inside v
  fresh : ∀ {v}, ¬ origin.Has v → inside v

namespace Realm

variable {R : Realm} {s t : Store} {v w : Value}

/-- What is inside leads to nothing outside, and what is outside is as it was. -/
structure Holds (R : Realm) (s : Store) : Prop where
  has : ∀ v, R.origin.Has v → s.Has v
  closed : ∀ v w, R.inside v → s.Inside v w → R.inside w
  kept : ∀ v, ¬ R.inside v → R.origin.Same s v

theorem Holds.new (holds : R.Holds s) (new : ¬ s.Has v) : R.inside v :=
  R.fresh fun old => new (holds.has v old)

theorem Holds.touch (holds : R.Holds s) (touches : s.Touches v t) (mine : R.inside v)
    (contents : ∀ w, t.Inside v w → R.inside w) : R.Holds t := by
  refine ⟨fun w old => touches.has w (holds.has w old), fun x y within inside => ?_,
    fun x foreign => ?_⟩
  · by_cases same : x = v
    · exact contents y (same ▸ inside)
    · exact holds.closed x y within ((touches.same x same).inside inside)
  · have other : x ≠ v := fun same => foreign (same ▸ mine)
    exact (holds.kept x foreign).trans (touches.same x other)

theorem Holds.reach (holds : R.Holds s) (within : R.inside v) (reach : s.Reach v w) : R.inside w :=
  reach.closed holds.closed within

section Store

variable (holds : R.Holds s)

include holds

theorem Holds.addText (x : String) : R.Holds (s.addText x).2 ∧ R.inside (s.addText x).1 := by
  have mine : R.inside (s.addText x).1 := holds.new s.not_has_pushText
  exact ⟨holds.touch (s.pushText_touches x) mine nofun, mine⟩

theorem Holds.addList {items : Array Value} (fine : ∀ v ∈ items, R.inside v) :
    R.Holds (s.addList items).2 ∧ R.inside (s.addList items).1 := by
  have mine : R.inside (s.addList items).1 := holds.new s.not_has_pushList
  refine ⟨holds.touch (s.pushList_touches items) mine fun w inside => ?_, mine⟩
  cases inside with
  | item member => exact fine w (s.pushList_list items ▸ member)

theorem Holds.addMap {entries : Dict Value} (fine : ∀ e ∈ entries.entries, R.inside e.2) :
    R.Holds (s.addMap entries).2 ∧ R.inside (s.addMap entries).1 := by
  have mine : R.inside (s.addMap entries).1 := holds.new s.not_has_pushMap
  refine ⟨holds.touch (s.pushMap_touches entries) mine fun w inside => ?_, mine⟩
  cases inside with
  | entry member => exact fine _ (s.pushMap_map entries ▸ member)

theorem Holds.modifyText {ref : TextRef} (mine : R.inside (.text ref)) (f : String → String) :
    R.Holds (s.modifyText ref f) :=
  holds.touch (s.modifyText_touches ref f) mine nofun

theorem Holds.modifyList {ref : ListRef} (mine : R.inside (.list ref))
    {f : Array Value → Array Value} (fine : ∀ v ∈ f (s.list ref), R.inside v) :
    R.Holds (s.modifyList ref f) := by
  refine holds.touch (s.modifyList_touches ref f) mine fun w inside => ?_
  have there : s.Has (.list ref) := by simpa [Store.Has, Store.modifyList] using inside.has
  cases inside with
  | item member => exact fine w (Store.modifyList_list there f ▸ member)

theorem Holds.modifyMap {ref : MapRef} (mine : R.inside (.map ref)) {f : Dict Value → Dict Value}
    (fine : ∀ e ∈ (f (s.map ref)).entries, R.inside e.2) : R.Holds (s.modifyMap ref f) := by
  refine holds.touch (s.modifyMap_touches ref f) mine fun w inside => ?_
  have there : s.Has (.map ref) := by simpa [Store.Has, Store.modifyMap] using inside.has
  cases inside with
  | entry member => exact fine _ (Store.modifyMap_map there f ▸ member)

end Store

section Copies

variable {c : Copying}

structure Copies (R : Realm) (c : Copying) : Prop where
  holds : R.Holds c.store
  known : ∀ v w, c.copy? v = some w → R.inside w

theorem mapM_copies {α β : Type} (copy : α → StateM Copying β) {fine : β → Prop} (items : List α)
    (each : ∀ a ∈ items, ∀ c, R.Copies c → R.Copies (copy a c).2 ∧ fine (copy a c).1)
    (copies : R.Copies c) :
    R.Copies (items.mapM copy c).2 ∧ ∀ b ∈ (items.mapM copy c).1, fine b := by
  induction items generalizing c with
  | nil =>
    rw [List.mapM_nil]
    exact ⟨copies, fun _ member => absurd member List.not_mem_nil⟩
  | cons item rest ih =>
    obtain ⟨between, first⟩ := each item List.mem_cons_self c copies
    obtain ⟨after, others⟩ := ih (fun a member => each a (List.mem_cons_of_mem _ member)) between
    rw [List.mapM_cons]
    exact ⟨after, List.forall_mem_cons.mpr ⟨first, others⟩⟩

theorem Copies.opens {d : Copying} (copies : R.Copies c) (opens : c.Opens v w d)
    (holds : R.Holds d.store) : R.Copies d := by
  refine ⟨holds, fun x y known => ?_⟩
  rw [opens.copy] at known
  split at known
  · obtain rfl := Option.some.inj known
    exact copies.holds.new opens.new
  · exact copies.known x y known

theorem Copies.closes {d : Copying} (copies : R.Copies c) (closes : c.Closes w d)
    (holds : R.Holds d.store) : R.Copies d :=
  ⟨holds, fun x y known => copies.known x y (closes.copy x ▸ known)⟩

theorem copyWithin_copies (bound : Nat) (copies : R.Copies c) (within : R.inside v) :
    R.Copies (Copying.copyWithin bound v c).2 ∧ R.inside (Copying.copyWithin bound v c).1 := by
  induction bound generalizing c v with
  | zero => exact ⟨copies, within⟩
  | succ bound ih =>
    cases v with
    | text ref =>
      obtain ⟨holds, mine⟩ := copies.holds.addText (c.store.text ref)
      refine ⟨⟨holds, fun x y known => copies.known x y ?_⟩, mine⟩
      cases x <;> exact known
    | list ref =>
      cases known : c.lists[ref]? with
      | some copy =>
        rw [Copying.copyWithin_list_known known]
        exact ⟨copies, copies.known (.list ref) _ (by simp [Copying.copy?, known])⟩
      | none =>
        have opens := c.openList_opens ref
        have mine : R.inside (.list (c.openList ref).1) := copies.holds.new opens.new
        have opened : R.Copies (c.openList ref).2 :=
          copies.opens opens (copies.holds.addList (by simp)).1
        have row : R.Copies (Copying.copyItems bound c ref).2 ∧
            ∀ w ∈ (Copying.copyItems bound c ref).1, R.inside w := by
          refine mapM_copies _ _ (fun item member d copies => ih copies ?_) opened
          exact opened.holds.closed _ _ within (.item (Array.mem_toList_iff.mp member))
        have closed := row.1.holds.modifyList mine (f :=
          fun _ => (Copying.copyItems bound c ref).1.toArray) (by simpa using row.2)
        rw [Copying.copyWithin_list known]
        exact ⟨row.1.closes (Copying.closeList_closes _ _ _) closed, mine⟩
    | map ref =>
      cases known : c.maps[ref]? with
      | some copy =>
        rw [Copying.copyWithin_map_known known]
        exact ⟨copies, copies.known (.map ref) _ (by simp [Copying.copy?, known])⟩
      | none =>
        have opens := c.openMap_opens ref
        have mine : R.inside (.map (c.openMap ref).1) := copies.holds.new opens.new
        have opened : R.Copies (c.openMap ref).2 :=
          copies.opens opens (copies.holds.addMap (by simp [Dict.empty])).1
        have row : R.Copies (Copying.copyEntries bound c ref).2 ∧
            ∀ e ∈ (Copying.copyEntries bound c ref).1, R.inside e.2 := by
          refine mapM_copies (Copying.copyEntry bound) _ (fun e member d copies => ?_) opened
          exact ih copies (opened.holds.closed _ _ within (.entry member))
        have closed := row.1.holds.modifyMap mine (f :=
          fun _ => .ofList (Copying.copyEntries bound c ref).1)
          fun e member => row.2 e (Dict.mem_of_mem_ofList member)
        rw [Copying.copyWithin_map known]
        exact ⟨row.1.closes (Copying.closeMap_closes _ _ _) closed, mine⟩
    | _ => exact ⟨copies, within⟩

theorem Holds.deepCopy (holds : R.Holds s) (within : R.inside v) :
    R.Holds (s.deepCopy v).2 ∧ R.inside (s.deepCopy v).1 := by
  have copies : R.Copies { store := s } :=
    ⟨holds, fun x _ known => by cases x <;> simp [Copying.copy?] at known⟩
  obtain ⟨after, mine⟩ := copyWithin_copies (s.containers + 1) copies within
  exact ⟨after.holds, mine⟩

/-- Whenever the value is copied, the copy is inside. -/
def Lends (R : Realm) (v : Value) : Prop :=
  ∀ s, R.Holds s → R.Holds (s.deepCopy v).2 ∧ R.inside (s.deepCopy v).1

theorem lends_of_inside (within : R.inside v) : R.Lends v :=
  fun _ holds => holds.deepCopy within

theorem Holds.copyAll (holds : R.Holds s) {values : Array Value} (lent : ∀ v ∈ values, R.Lends v) :
    R.Holds (s.copyAll values).2 ∧ ∀ w ∈ (s.copyAll values).1, R.inside w := by
  suffices ∀ (values : List Value) (s : Store), R.Holds s → (∀ v ∈ values, R.Lends v) →
      R.Holds (s.copyEach values).2 ∧ ∀ w ∈ (s.copyEach values).1, R.inside w by
    rw [Store.copyAll_eq]
    simpa using this values.toList s holds (by simpa using lent)
  intro values
  induction values with
  | nil => exact fun s holds _ => ⟨holds, by simp [Store.copyEach]⟩
  | cons v rest ih =>
    intro s holds lent
    obtain ⟨between, first⟩ := lent v List.mem_cons_self s holds
    obtain ⟨after, others⟩ := ih _ between fun x member => lent x (List.mem_cons_of_mem _ member)
    exact ⟨after, List.forall_mem_cons.mpr ⟨first, others⟩⟩

end Copies

end Realm

structure Territory where
  origin : Store
  inside : Value → Prop
  immediate : ∀ {v}, v.tag.isContainer = false → inside v
  fresh : ∀ {v}, ¬ origin.Has v → inside v

namespace Territory

variable {T : Territory} {s : Store} {v w : Value}

def realm (T : Territory) : Realm where
  origin := T.origin
  inside := T.inside
  immediate plain _ := T.immediate plain
  fresh := T.fresh

abbrev Holds (T : Territory) (s : Store) : Prop :=
  T.realm.Holds s

/-- All containers that `v` leads to are there and lie outside. -/
def Foreign (T : Territory) (v : Value) : Prop :=
  ∀ w, T.origin.Reach v w → T.origin.Has w ∧ (w.tag.isContainer = true → ¬ T.inside w)

theorem Foreign.same (foreign : T.Foreign v) (holds : T.Holds s) (reach : T.origin.Reach v w) :
    T.origin.Same s w := by
  cases container : w.tag.isContainer with
  | true => exact holds.kept w ((foreign w reach).2 container)
  | false => exact Store.same_of_immediate container _ _

theorem Foreign.stored (foreign : T.Foreign v) (holds : T.Holds s) : s.Stored v := by
  intro w reach
  have back : T.origin.Reach v w := reach.same fun x reach => foreign.same holds reach
  exact holds.has w (foreign w back).1

theorem Foreign.lends (foreign : T.Foreign v) : T.realm.Lends v := by
  intro s holds
  have grows := s.deepCopy_extends v
  obtain ⟨new, inner⟩ := Store.deepCopy_newer (foreign.stored holds)
  have newer {x : Value} (newer : s.Newer (s.deepCopy v).2 x) : T.inside x := by
    cases container : x.tag.isContainer with
    | true => exact holds.new (newer.2 container)
    | false => exact T.immediate container
  refine ⟨⟨fun x old => grows.has x (holds.has x old), fun x y within inside => ?_,
    fun x outside => ?_⟩, newer new⟩
  · by_cases old : s.Has x
    · exact holds.closed x y within ((grows.same x old).inside inside)
    · exact newer (inner x y old inside)
  · have old : s.Has x := Classical.byContradiction fun missing => outside (holds.new missing)
    exact (holds.kept x outside).trans (grows.same x old)

end Territory

end StackMachine
