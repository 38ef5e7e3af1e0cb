import StackMachine.Operator.Container
import StackMachine.Proofs.AccessPaths

/-! Changing a container. An operation that stores into a list or map, steps an element of it, or
appends to a list or text either fails, and then the store is what it was, or it gives one place of
the addressed container a new value and changes nothing else. -/

namespace StackMachine

namespace Entries

variable {α : Type} {key : Scalar} {value : α} {entries : List (Scalar × α)}

theorem find?_insert (k : Scalar) :
    find? k (insert key value entries) = if k = key then some value else find? k entries := by
  have equal {a b : Scalar} : a.order b = .eq ↔ a = b := Std.LawfulEqCmp.compare_eq_iff_eq
  fun_induction insert key value entries with
  | case1 =>
    by_cases same : k = key
    · simp [find?, same, equal.mpr rfl]
    · simp only [find?, if_neg same]
      split
      next => rfl
      next found => exact absurd (equal.mp found) same
      next => rfl
  | case2 entry rest before =>
    by_cases same : k = key
    · simp [find?, same, equal.mpr rfl]
    · rw [if_neg same, find?]
      split
      next below => simp [find?, Std.TransCmp.lt_trans below before]
      next found => exact absurd (equal.mp found) same
      next => rfl
  | case3 entry rest found =>
    obtain rfl := equal.mp found
    by_cases same : k = entry.1
    · simp [find?, same, equal.mpr rfl]
    · simp only [find?, if_neg same]
      split <;> simp_all
  | case4 entry rest after ih =>
    simp only [find?, ih]
    by_cases same : k = key
    · simp [same, after]
    · simp [same]

theorem insert_keys (there : (find? key entries).isSome) :
    (insert key value entries).map Prod.fst = entries.map Prod.fst := by
  fun_induction insert key value entries with
  | case1 => simp [find?] at there
  | case2 entry rest before => simp [find?, before] at there
  | case3 entry rest found => rfl
  | case4 entry rest after ih =>
    simp only [find?, after] at there
    simp [ih there]

end Entries

namespace Value

variable {delta : Int64} {old new : Value}

/-- What a step makes of a number: integers wrap round and doubles are rounded. -/
inductive Steps (delta : Int64) : Value → Value → Prop
  | int (a : Int64) : Steps delta (.int a) (.int (a + delta))
  | float (x : Double) : Steps delta (.float x) (.float (x.add (.ofInt delta.toInt)))

theorem step_eq_ok_iff : old.step delta = .ok new ↔ old.Steps delta new := by
  constructor
  · intro stepped
    unfold step at stepped
    split at stepped
    next a =>
      obtain rfl := Except.ok.inj stepped
      exact .int a
    next x =>
      obtain rfl := Except.ok.inj stepped
      exact .float x
    · contradiction
  · intro steps
    cases steps <;> rfl

end Value

namespace Store

variable {s t : Store} {container : Value}

structure Changes (s : Store) (container : Value) (t : Store) :
    Prop extends s.Touches container t where
  back : ∀ w, t.Has w → s.Has w

/-- One place in the container has been given the value, and nothing else has changed. -/
structure Puts (s : Store) (container : Value) (place : Access) (value : Value) (t : Store) : Prop
    extends s.Changes container t where
  there : t.child? container place = some value
  others : ∀ other, other ≠ place → t.child? container other = s.child? container other
  ordered : ∀ ref, container = .map ref → Entries.Ascending (t.map ref).entries

theorem modifyText_changes (s : Store) (ref : TextRef) (f : String → String) :
    s.Changes (.text ref) (s.modifyText ref f) where
  toTouches := s.modifyText_touches ref f
  back w has := by
    cases w with
    | text other => simpa [Has, modifyText] using has
    | _ => exact has

theorem modifyList_changes (s : Store) (ref : ListRef) (f : Array Value → Array Value) :
    s.Changes (.list ref) (s.modifyList ref f) where
  toTouches := s.modifyList_touches ref f
  back w has := by
    cases w with
    | list other => simpa [Has, modifyList] using has
    | _ => exact has

theorem modifyMap_changes (s : Store) (ref : MapRef) (f : Dict Value → Dict Value) :
    s.Changes (.map ref) (s.modifyMap ref f) where
  toTouches := s.modifyMap_touches ref f
  back w has := by
    cases w with
    | map other => simpa [Has, modifyMap] using has
    | _ => exact has

theorem modifyText_text {ref : TextRef} (there : s.Has (.text ref)) (f : String → String) :
    (s.modifyText ref f).text ref = f (s.text ref) := by
  replace there : ref.index < s.texts.size := there
  simp [modifyText, text, there, Array.getElem_modify]

theorem modifyList_puts {ref : ListRef} (has : s.Has (.list ref)) {f : Array Value → Array Value}
    {place : Nat} {value : Value}
    (sets : ∀ i, (f (s.list ref))[i]? = if i = place then some value else (s.list ref)[i]?) :
    s.Puts (.list ref) (.item place) value (s.modifyList ref f) where
  toChanges := s.modifyList_changes ref f
  there := by simp [child?, modifyList_list has, sets]
  others other differ := by
    cases other with
    | item i =>
      have differ : i ≠ place := fun same => differ (by rw [same])
      simp [child?, modifyList_list has, sets, differ]
    | entry key => rfl
  ordered ref' same := by contradiction

theorem insert_puts {ref : MapRef} (has : s.Has (.map ref)) (key : Scalar) (value : Value) :
    s.Puts (.map ref) (.entry key) value (s.modifyMap ref (·.insert key value)) where
  toChanges := s.modifyMap_changes ref _
  there := by simp [child?, modifyMap_map has, Dict.find?, Dict.insert, Entries.find?_insert]
  others other differ := by
    cases other with
    | item i => rfl
    | entry k =>
      have differ : k ≠ key := fun same => differ (by rw [same])
      simp [child?, modifyMap_map has, Dict.find?, Dict.insert, Entries.find?_insert, differ]
  ordered ref' _ := Dict.ascending _

theorem setIfInBounds_puts {ref : ListRef} (has : s.Has (.list ref)) {place : Nat}
    (inside : place < (s.list ref).size) (value : Value) :
    s.Puts (.list ref) (.item place) value (s.modifyList ref (·.setIfInBounds place value)) := by
  refine modifyList_puts has fun i => ?_
  rw [Array.getElem?_setIfInBounds]
  by_cases same : place = i
  · simp [← same, inside]
  · simp [same, Ne.symm same]

theorem push_puts {ref : ListRef} (has : s.Has (.list ref)) (value : Value) :
    s.Puts (.list ref) (.item (s.list ref).size) value (s.modifyList ref (·.push value)) :=
  modifyList_puts has fun _ => Array.getElem?_push

/-- The place in a container that an index stands for: an item of a list, counted from zero, or an
entry of a map, which need not be there yet. -/
inductive Addresses (s : Store) : Value → Value → Access → Prop
  | item {ref : ListRef} {i : Int64} (low : 0 ≤ i.toInt) (high : i.toInt < (s.list ref).size) :
    Addresses s (.list ref) (.int i) (.item i.toInt.toNat)
  | entry {ref : MapRef} {index : Value} {key : Scalar} (read : s.scalar? index = some key) :
    Addresses s (.map ref) index (.entry key)

theorem Addresses.unique {index : Value} {place other : Access}
    (first : s.Addresses container index place) (second : s.Addresses container index other) :
    place = other := by
  cases first with
  | item => cases second; rfl
  | entry read =>
    cases second with
    | entry read' => rw [Option.some.inj (read.symm.trans read')]

theorem position_cases (s : Store) (ref : ListRef) (i : Int64) :
    (∃ place, s.Addresses (.list ref) (.int i) (.item place) ∧ place < (s.list ref).size ∧
      position i (s.list ref).size = .ok place) ∨
    ((∀ place, ¬ s.Addresses (.list ref) (.int i) place) ∧
      position i (s.list ref).size = .error (.outOfBounds i (s.list ref).size)) := by
  have decides : (decide (0 ≤ i) && decide (i.toInt.toNat < (s.list ref).size)) = true ↔
      0 ≤ i.toInt ∧ i.toInt < (s.list ref).size := by
    simp only [Bool.and_eq_true, decide_eq_true_eq, Int64.le_iff_toInt_le, Int64.toInt_zero]
    omega
  by_cases inside : 0 ≤ i.toInt ∧ i.toInt < (s.list ref).size
  · exact .inl ⟨_, .item inside.1 inside.2, by omega, if_pos (decides.mpr inside)⟩
  · refine .inr ⟨fun place addresses => ?_, if_neg fun within => inside (decides.mp within)⟩
    cases addresses with
    | item low high => exact inside ⟨low, high⟩

theorem key_cases (s : Store) (ref : MapRef) (index : Value) :
    (∃ key, s.Addresses (.map ref) index (.entry key) ∧ s.key index = .ok key) ∨
    ((∀ place, ¬ s.Addresses (.map ref) index place) ∧
      s.key index = .error (.unfit .key index)) := by
  cases read : s.scalar? index with
  | some key => exact .inl ⟨key, .entry read, by simp [Store.key, read]⟩
  | none =>
    refine .inr ⟨fun place addresses => ?_, by simp [Store.key, read]⟩
    cases addresses with
    | entry read' => simp [read] at read'

theorem not_addresses {index : Value}
    (noList : ∀ ref i, container = .list ref → index = .int i → False)
    (noMap : ∀ ref, container = .map ref → False) (place : Access) :
    ¬ s.Addresses container index place := by
  intro addresses
  cases addresses with
  | item => exact noList _ _ rfl rfl
  | entry => exact noMap _ rfl

end Store

namespace Op

open Store

variable {s : Store} {container : Value}

theorem storeIndex_cases (has : s.Has container) (index value : Value) :
    (∃ place t, s.Addresses container index place ∧ storeIndex container index value s = .ok () t ∧
      s.Puts container place value t) ∨
    ((∀ place, ¬ s.Addresses container index place) ∧
      ∃ e, storeIndex container index value s = .error e s) := by
  unfold storeIndex
  split
  next ref i =>
    rcases s.position_cases ref i with ⟨place, addresses, inside, found⟩ | ⟨nowhere, outside⟩
    · exact .inl ⟨_, _, addresses, by rw [found], setIfInBounds_puts has inside value⟩
    · exact .inr ⟨nowhere, _, by rw [outside]⟩
  next ref =>
    rcases s.key_cases ref index with ⟨key, addresses, read⟩ | ⟨nowhere, unread⟩
    · exact .inl ⟨_, _, addresses, by rw [read], insert_puts has key value⟩
    · exact .inr ⟨nowhere, _, by rw [unread]⟩
  next noMap noList => exact .inr ⟨not_addresses noList noMap, _, rfl⟩

theorem stepIndex_cases (has : s.Has container) (index : Value) (delta : Int64) :
    (∃ place old new t, s.Addresses container index place ∧ s.child? container place = some old ∧
      old.Steps delta new ∧ stepIndex container index delta s = .ok () t ∧
      s.Puts container place new t ∧ t.face container = s.face container) ∨
    ((∀ place old new, s.Addresses container index place → s.child? container place = some old →
      ¬ old.Steps delta new) ∧ ∃ e, stepIndex container index delta s = .error e s) := by
  simp only [← Value.step_eq_ok_iff]
  unfold stepIndex
  split
  next ref i =>
    rcases s.position_cases ref i with ⟨place, addresses, inside, found⟩ | ⟨nowhere, outside⟩
    · have here : s.child? (.list ref) (.item place) = some ((s.list ref).getD place .undefined) :=
        by
        simp [Store.child?, Array.getD_eq_getD_getElem?, inside]
      simp only [found]
      split
      next new stepped =>
        refine .inl ⟨_, _, new, _, addresses, here, stepped, rfl, setIfInBounds_puts has inside new,
          ?_⟩
        simp [face, modifyList_list has]
      next e failed =>
        refine .inr ⟨fun _ old new again held stepped => ?_, e, rfl⟩
        obtain rfl := addresses.unique again
        obtain rfl := Option.some.inj (here.symm.trans held)
        rw [failed] at stepped
        contradiction
    · simp only [outside]
      exact .inr ⟨fun place _ _ addresses => absurd addresses (nowhere place), _, rfl⟩
  next ref =>
    rcases s.key_cases ref index with ⟨key, addresses, read⟩ | ⟨nowhere, unread⟩
    · simp only [read]
      split
      next old held =>
        have here : s.child? (.map ref) (.entry key) = some old := held
        split
        next new stepped =>
          refine .inl ⟨_, _, new, _, addresses, here, stepped, rfl, insert_puts has key new, ?_⟩
          have keys : ((s.map ref).insert key new).entries.map Prod.fst =
              (s.map ref).entries.map Prod.fst :=
            Entries.insert_keys (Option.isSome_of_eq_some held)
          simp only [face, modifyMap_map has, keys]
        next e failed =>
          refine .inr ⟨fun _ old' new again held' stepped => ?_, e, rfl⟩
          obtain rfl := addresses.unique again
          obtain rfl := Option.some.inj (here.symm.trans held')
          rw [failed] at stepped
          contradiction
      next missing =>
        refine .inr ⟨fun _ old new again held => ?_, _, rfl⟩
        obtain rfl := addresses.unique again
        simp [Store.child?, missing] at held
    · simp only [unread]
      exact .inr ⟨fun place _ _ addresses => absurd addresses (nowhere place), _, rfl⟩
  next noMap noList =>
    exact .inr ⟨fun place _ _ addresses => absurd addresses (not_addresses noList noMap place), _,
      rfl⟩

/-- An append adds one item to a list, or the display of the value to a text; it fails for anything
else. The display is that of the store before, also if the value holds the text. -/
theorem append_cases (has : s.Has container) (value : Value) :
    (∃ ref t, container = .list ref ∧ append container value s = .ok () t ∧
      s.Puts container (.item (s.list ref).size) value t) ∨
    (∃ ref t, container = .text ref ∧ append container value s = .ok () t ∧ s.Changes container t ∧
      t.text ref = s.text ref ++ s.display value) ∨
    ((∀ ref, container ≠ .list ref) ∧ (∀ ref, container ≠ .text ref) ∧
      ∃ e, append container value s = .error e s) := by
  cases container with
  | list ref => exact .inl ⟨ref, _, rfl, rfl, push_puts has value⟩
  | text ref =>
    exact .inr (.inl ⟨ref, _, rfl, rfl, s.modifyText_changes ref _, modifyText_text has _⟩)
  | _ => exact .inr (.inr ⟨by simp, by simp, _, rfl⟩)

/-- Changes of containers are atomic and local. Whatever container of the store is addressed, by
whatever index, and whatever the value is or holds: an operation that fails leaves the store as it
was, and it fails only if there is no such place, no number to step there, or nothing to append to;
one that succeeds gives exactly one place of exactly this container its new value. -/
theorem mutation_atomic (s : Store) (container : Value) (has : s.Has container)
    (index value : Value) (delta : Int64) :
    ((∃ place t, s.Addresses container index place ∧
        storeIndex container index value s = .ok () t ∧ s.Puts container place value t) ∨
      ((∀ place, ¬ s.Addresses container index place) ∧
        ∃ e, storeIndex container index value s = .error e s)) ∧
    ((∃ place old new t, s.Addresses container index place ∧
        s.child? container place = some old ∧ old.Steps delta new ∧
        stepIndex container index delta s = .ok () t ∧ s.Puts container place new t ∧
        t.face container = s.face container) ∨
      ((∀ place old new, s.Addresses container index place → s.child? container place = some old →
        ¬ old.Steps delta new) ∧ ∃ e, stepIndex container index delta s = .error e s)) ∧
    ((∃ ref t, container = .list ref ∧ append container value s = .ok () t ∧
        s.Puts container (.item (s.list ref).size) value t) ∨
      (∃ ref t, container = .text ref ∧ append container value s = .ok () t ∧
        s.Changes container t ∧ t.text ref = s.text ref ++ s.display value) ∨
      ((∀ ref, container ≠ .list ref) ∧ (∀ ref, container ≠ .text ref) ∧
        ∃ e, append container value s = .error e s)) :=
  ⟨storeIndex_cases has index value, stepIndex_cases has index delta, append_cases has value⟩

end Op

def Store.tangled : Store where
  texts := #["ab"]
  lists := #[#[.text ⟨0⟩, .int 1, .list ⟨0⟩]]

/-- The list is stored into its own item 1, that item is stepped, and the list is appended to its
text and to itself. -/
theorem Op.mutation_atomic_tangled :
    (Store.tangled.Has (.text ⟨0⟩) ∧ Store.tangled.Has (.list ⟨0⟩)) ∧
    (∃ t, storeIndex (.list ⟨0⟩) (.int 1) (.list ⟨0⟩) Store.tangled = .ok () t ∧
      Store.tangled.Puts (.list ⟨0⟩) (.item 1) (.list ⟨0⟩) t) ∧
    (∃ t, stepIndex (.list ⟨0⟩) (.int 1) (-3) Store.tangled = .ok () t ∧
      Store.tangled.Puts (.list ⟨0⟩) (.item 1) (.int (-2)) t) ∧
    (∃ t, append (.text ⟨0⟩) (.list ⟨0⟩) Store.tangled = .ok () t ∧
      Store.tangled.Changes (.text ⟨0⟩) t ∧
      t.text ⟨0⟩ = "ab" ++ Store.tangled.display (.list ⟨0⟩)) ∧
    ∃ t, append (.list ⟨0⟩) (.list ⟨0⟩) Store.tangled = .ok () t ∧
      Store.tangled.Puts (.list ⟨0⟩) (.item 3) (.list ⟨0⟩) t := by
  have text : Store.tangled.Has (.text ⟨0⟩) := Nat.zero_lt_one
  have list : Store.tangled.Has (.list ⟨0⟩) := Nat.zero_lt_one
  have place : Store.tangled.Addresses (.list ⟨0⟩) (.int 1) (.item 1) :=
    .item (by decide) (by decide)
  obtain ⟨stores, steps, appends⟩ :=
    mutation_atomic Store.tangled _ list (.int 1) (.list ⟨0⟩) (-3)
  refine ⟨⟨text, list⟩, ?_, ?_, ?_, ?_⟩
  · rcases stores with ⟨_, t, addresses, done, puts⟩ | ⟨nowhere, _⟩
    · obtain rfl := place.unique addresses
      exact ⟨t, done, puts⟩
    · exact absurd place (nowhere _)
  · rcases steps with ⟨_, old, new, t, addresses, held, stepped, done, puts, _⟩ | ⟨never, _⟩
    · obtain rfl := place.unique addresses
      obtain rfl : .int 1 = old := Option.some.inj held
      cases stepped
      exact ⟨t, done, puts⟩
    · exact absurd (.int 1) (never _ _ _ place rfl)
  · rcases (mutation_atomic Store.tangled _ text .null (.list ⟨0⟩) 0).2.2 with
      ⟨_, _, other, _⟩ | ⟨_, t, same, done, changes, joined⟩ | ⟨_, other, _⟩
    · contradiction
    · obtain rfl := Value.text.inj same
      exact ⟨t, done, changes, joined⟩
    · exact absurd rfl (other _)
  · rcases appends with ⟨_, t, same, done, puts⟩ | ⟨_, _, other, _⟩ | ⟨other, _⟩
    · obtain rfl := Value.list.inj same
      exact ⟨t, done, puts⟩
    · contradiction
    · exact absurd rfl (other _)

end StackMachine
