import StackMachine.Store.Basic

/-! The store as a graph. A list or a map holds values, which may be containers again, and what a
value is depends on no container but those that can be reached from it. A store that only grows
leaves all of that as it was. -/

namespace StackMachine.Store

variable {s t u : Store} {v w : Value}

/-- The container is there; a value that is no container needs no storage. -/
def Has (s : Store) : Value → Prop
  | .text ref => ref.index < s.texts.size
  | .list ref => ref.index < s.lists.size
  | .map ref => ref.index < s.maps.size
  | _ => True

def Same (s t : Store) : Value → Prop
  | .text ref => t.text ref = s.text ref
  | .list ref => t.list ref = s.list ref
  | .map ref => t.map ref = s.map ref
  | _ => True

theorem Same.refl (s : Store) (v : Value) : s.Same s v := by
  cases v <;> simp [Same]

theorem Same.symm (same : s.Same t v) : t.Same s v := by
  cases v <;> simp_all [Same]

theorem Same.trans (first : s.Same t v) (second : t.Same u v) : s.Same u v := by
  cases v <;> simp_all [Same]

theorem isContainer_of_not_has (new : ¬ s.Has v) : v.tag.isContainer = true := by
  cases v with
  | text ref => rfl
  | list ref => rfl
  | map ref => rfl
  | _ => exact absurd trivial new

theorem has_of_immediate (plain : v.tag.isContainer = false) (s : Store) : s.Has v :=
  Classical.byContradiction fun missing => by simp [isContainer_of_not_has missing] at plain

theorem same_of_immediate (plain : v.tag.isContainer = false) (s t : Store) : s.Same t v := by
  cases v with
  | text ref => contradiction
  | list ref => contradiction
  | map ref => contradiction
  | _ => trivial

section Growth

structure Extends (s t : Store) : Prop where
  has : ∀ v, s.Has v → t.Has v
  same : ∀ v, s.Has v → s.Same t v

/-- At most the container `v` has changed, or is new. -/
structure Touches (s : Store) (v : Value) (t : Store) : Prop where
  has : ∀ w, s.Has w → t.Has w
  same : ∀ w, w ≠ v → s.Same t w

theorem Extends.refl (s : Store) : s.Extends s :=
  ⟨fun _ has => has, fun v _ => .refl s v⟩

theorem Extends.trans (first : s.Extends t) (second : t.Extends u) : s.Extends u :=
  ⟨fun v has => second.has v (first.has v has),
    fun v has => (first.same v has).trans (second.same v (first.has v has))⟩

theorem Extends.touch (first : s.Extends t) (touches : t.Touches v u) (new : ¬ s.Has v) :
    s.Extends u := by
  refine ⟨fun w has => touches.has w (first.has w has),
    fun w has => (first.same w has).trans (touches.same w ?_)⟩
  rintro rfl
  exact new has

theorem Extends.text (grows : s.Extends t) (ref : TextRef) (there : ref.index < s.texts.size) :
    t.text ref = s.text ref :=
  grows.same (.text ref) there

theorem touches_texts {texts : Array String} {i : Nat} (grown : s.texts.size ≤ texts.size)
    (elsewhere : ∀ j, j ≠ i → texts[j]? = s.texts[j]?) :
    s.Touches (.text ⟨i⟩) { s with texts } := by
  constructor <;> intro w given
  · cases w with
    | text ref => exact Nat.lt_of_lt_of_le given grown
    | _ => exact given
  · cases w with
    | text ref =>
      have other : ref.index ≠ i := fun same => given (by rw [← same])
      simp only [Same, Store.text, Array.getD_eq_getD_getElem?, elsewhere _ other]
    | list ref => rfl
    | map ref => rfl
    | _ => trivial

theorem touches_lists {lists : Array (Array Value)} {i : Nat} (grown : s.lists.size ≤ lists.size)
    (elsewhere : ∀ j, j ≠ i → lists[j]? = s.lists[j]?) :
    s.Touches (.list ⟨i⟩) { s with lists } := by
  constructor <;> intro w given
  · cases w with
    | list ref => exact Nat.lt_of_lt_of_le given grown
    | _ => exact given
  · cases w with
    | list ref =>
      have other : ref.index ≠ i := fun same => given (by rw [← same])
      simp only [Same, Store.list, Array.getD_eq_getD_getElem?, elsewhere _ other]
    | text ref => rfl
    | map ref => rfl
    | _ => trivial

theorem touches_maps {maps : Array (Dict Value)} {i : Nat} (grown : s.maps.size ≤ maps.size)
    (elsewhere : ∀ j, j ≠ i → maps[j]? = s.maps[j]?) : s.Touches (.map ⟨i⟩) { s with maps } := by
  constructor <;> intro w given
  · cases w with
    | map ref => exact Nat.lt_of_lt_of_le given grown
    | _ => exact given
  · cases w with
    | map ref =>
      have other : ref.index ≠ i := fun same => given (by rw [← same])
      simp only [Same, Store.map, Array.getD_eq_getD_getElem?, elsewhere _ other]
    | text ref => rfl
    | list ref => rfl
    | _ => trivial

theorem pushText_touches (s : Store) (x : String) :
    s.Touches (.text ⟨s.texts.size⟩) (s.pushText x).2 :=
  touches_texts (by simp) fun _ other => by simp [Array.getElem?_push, other]

theorem pushList_touches (s : Store) (items : Array Value) :
    s.Touches (.list ⟨s.lists.size⟩) (s.pushList items).2 :=
  touches_lists (by simp) fun _ other => by simp [Array.getElem?_push, other]

theorem pushMap_touches (s : Store) (entries : Dict Value) :
    s.Touches (.map ⟨s.maps.size⟩) (s.pushMap entries).2 :=
  touches_maps (by simp) fun _ other => by simp [Array.getElem?_push, other]

theorem modifyText_touches (s : Store) (ref : TextRef) (f : String → String) :
    s.Touches (.text ref) (s.modifyText ref f) :=
  touches_texts (by simp) fun _ other => by simp [Array.getElem?_modify, Ne.symm other]

theorem modifyList_touches (s : Store) (ref : ListRef) (f : Array Value → Array Value) :
    s.Touches (.list ref) (s.modifyList ref f) :=
  touches_lists (by simp) fun _ other => by simp [Array.getElem?_modify, Ne.symm other]

theorem modifyMap_touches (s : Store) (ref : MapRef) (f : Dict Value → Dict Value) :
    s.Touches (.map ref) (s.modifyMap ref f) :=
  touches_maps (by simp) fun _ other => by simp [Array.getElem?_modify, Ne.symm other]

theorem modifyList_list {ref : ListRef} (there : s.Has (.list ref))
    (f : Array Value → Array Value) : (s.modifyList ref f).list ref = f (s.list ref) := by
  replace there : ref.index < s.lists.size := there
  simp [modifyList, list, there, Array.getElem_modify]

theorem modifyMap_map {ref : MapRef} (there : s.Has (.map ref)) (f : Dict Value → Dict Value) :
    (s.modifyMap ref f).map ref = f (s.map ref) := by
  replace there : ref.index < s.maps.size := there
  simp [modifyMap, map, there, Array.getElem_modify]

theorem pushList_list (s : Store) (items : Array Value) :
    (s.pushList items).2.list ⟨s.lists.size⟩ = items := by
  simp [pushList, list]

theorem pushMap_map (s : Store) (entries : Dict Value) :
    (s.pushMap entries).2.map ⟨s.maps.size⟩ = entries := by
  simp [pushMap, map]

theorem not_has_pushText (s : Store) : ¬ s.Has (.text ⟨s.texts.size⟩) :=
  Nat.lt_irrefl _

theorem not_has_pushList (s : Store) : ¬ s.Has (.list ⟨s.lists.size⟩) :=
  Nat.lt_irrefl _

theorem not_has_pushMap (s : Store) : ¬ s.Has (.map ⟨s.maps.size⟩) :=
  Nat.lt_irrefl _

theorem addText_extends (s : Store) (x : String) : s.Extends (s.addText x).2 :=
  (Extends.refl s).touch (s.pushText_touches x) s.not_has_pushText

theorem addList_extends (s : Store) (items : Array Value) : s.Extends (s.addList items).2 :=
  (Extends.refl s).touch (s.pushList_touches items) s.not_has_pushList

theorem addMap_extends (s : Store) (entries : Dict Value) : s.Extends (s.addMap entries).2 :=
  (Extends.refl s).touch (s.pushMap_touches entries) s.not_has_pushMap

theorem addScalar_extends (s : Store) (value : Scalar) : s.Extends (s.addScalar value).2 := by
  cases value with
  | text x => exact addText_extends s x
  | _ => exact .refl s

end Growth

section Graph

inductive Inside (s : Store) : Value → Value → Prop
  | item {ref : ListRef} {w : Value} (member : w ∈ s.list ref) : Inside s (.list ref) w
  | entry {ref : MapRef} {e : Scalar × Value} (member : e ∈ (s.map ref).entries) :
    Inside s (.map ref) e.2

/-- `w` is `v`, or inside something that can be reached from `v`. -/
inductive Reach (s : Store) (v : Value) : Value → Prop
  | here : Reach s v v
  | inside {w x : Value} (path : Reach s v w) (inside : s.Inside w x) : Reach s v x

/-- No container is missing. -/
def Stored (s : Store) (v : Value) : Prop :=
  ∀ w, s.Reach v w → s.Has w

theorem Inside.isContainer (inside : s.Inside v w) : v.tag.isContainer = true := by
  cases inside <;> rfl

/-- A container that is not there reads as empty. -/
theorem Inside.has (inside : s.Inside v w) : s.Has v := by
  cases inside with
  | item member =>
    refine Classical.byContradiction fun missing => ?_
    simp [list, Array.getElem?_eq_none (Nat.le_of_not_lt missing)] at member
  | entry member =>
    refine Classical.byContradiction fun missing => ?_
    simp [map, Array.getElem?_eq_none (Nat.le_of_not_lt missing), Dict.empty] at member

theorem Same.inside (same : s.Same t v) (inside : t.Inside v w) : s.Inside v w := by
  cases inside with
  | item member =>
    rw [same] at member
    exact .item member
  | entry member =>
    rw [same] at member
    exact .entry member

theorem Reach.trans {x : Value} (first : s.Reach v w) (second : s.Reach w x) : s.Reach v x := by
  induction second with
  | here => exact first
  | inside _ inside ih => exact .inside ih inside

theorem Reach.closed {inner : Value → Prop} (closed : ∀ v w, inner v → s.Inside v w → inner w)
    (reach : s.Reach v w) (start : inner v) : inner w := by
  induction reach with
  | here => exact start
  | inside _ inside ih => exact closed _ _ ih inside

theorem Reach.same (same : ∀ x, s.Reach v x → s.Same t x) (reach : t.Reach v w) : s.Reach v w := by
  induction reach with
  | here => exact .here
  | inside _ inside ih => exact .inside ih ((same _ ih).inside inside)

theorem Stored.extends (stored : s.Stored v) (grows : s.Extends t) : t.Stored v := by
  intro w reach
  have back : s.Reach v w := reach.same fun x reach => grows.same x (stored x reach)
  exact grows.has w (stored w back)

theorem Reach.first (reach : s.Reach v w) : w = v ∨ ∃ x, s.Inside v x ∧ s.Reach x w := by
  induction reach with
  | here => exact .inl rfl
  | inside _ inside ih =>
    rcases ih with rfl | ⟨x, first, path⟩
    · exact .inr ⟨_, inside, .here⟩
    · exact .inr ⟨x, first, .inside path inside⟩

theorem stored_of_inside (has : s.Has v) (stored : ∀ w, s.Inside v w → s.Stored w) :
    s.Stored v := by
  intro w reach
  rcases reach.first with rfl | ⟨x, inside, path⟩
  · exact has
  · exact stored x inside w path

end Graph

section Nodes

def nodes (s : Store) : List Value :=
  (List.range s.lists.size).map (.list ⟨·⟩) ++ (List.range s.maps.size).map (.map ⟨·⟩)

theorem length_nodes (s : Store) : s.nodes.length = s.containers := by
  simp [nodes, containers]

theorem mem_nodes_list {ref : ListRef} (there : s.Has (.list ref)) : .list ref ∈ s.nodes :=
  List.mem_append_left _ (List.mem_map.mpr ⟨ref.index, List.mem_range.mpr there, rfl⟩)

theorem mem_nodes_map {ref : MapRef} (there : s.Has (.map ref)) : .map ref ∈ s.nodes :=
  List.mem_append_right _ (List.mem_map.mpr ⟨ref.index, List.mem_range.mpr there, rfl⟩)

end Nodes

end StackMachine.Store
