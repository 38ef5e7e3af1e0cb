import Mathlib.Data.List.Nodup
import Mathlib.Data.List.ProdSigma
import Mathlib.Order.Bounds.Basic
import StackMachine.Proofs.Replication
import StackMachine.Store.Equality

/-! Equality of stored values is bisimilarity. A comparison goes down two values side by side and
takes for granted the pairs of containers it is already inside of; the greatest relation that
respects the contents of containers justifies that, and there are too few pairs for the comparison
to go on forever. -/

namespace StackMachine

namespace Double

variable {x y z : Double}

theorem equal_iff : x.equal y = true ↔ (x.isNaN = false ∧ y.isNaN = false) ∧ x.place = y.place := by
  simp only [equal, compare?]
  by_cases number : x.isNaN = false ∧ y.isNaN = false
  · simp [number.1, number.2]
  · have none : (x.isNaN || y.isNaN) = true := by
      simpa only [← Bool.or_eq_false_iff, Bool.not_eq_false] using number
    simp [none, number]

theorem equal_symm (same : x.equal y = true) : y.equal x = true := by
  obtain ⟨⟨left, right⟩, place⟩ := equal_iff.mp same
  exact equal_iff.mpr ⟨⟨right, left⟩, place.symm⟩

theorem equal_trans (first : x.equal y = true) (second : y.equal z = true) : x.equal z = true := by
  obtain ⟨⟨left, _⟩, place⟩ := equal_iff.mp first
  obtain ⟨⟨_, right⟩, place'⟩ := equal_iff.mp second
  exact equal_iff.mpr ⟨⟨left, right⟩, place.trans place'⟩

theorem equal_self (number : x.isNaN = false) : x.equal x = true :=
  equal_iff.mpr ⟨⟨number, number⟩, rfl⟩

end Double

theorem forall₂_comp {α β γ : Type} {R : α → β → Prop} {S : β → γ → Prop} {T : α → γ → Prop}
    {l : List α} {m : List β} {n : List γ} (first : List.Forall₂ R l m)
    (second : List.Forall₂ S m n) (both : ∀ a b c, R a b → S b c → T a c) : List.Forall₂ T l n := by
  induction first generalizing n with
  | nil =>
    cases second
    exact .nil
  | cons head _ ih =>
    cases second with
    | cons head' rest => exact .cons (both _ _ _ head head') (ih rest)

def Value.pair? : Value → Value → Option (Container × Container)
  | .list a, .list b => some (.list a, .list b)
  | .map a, .map b => some (.map a, .map b)
  | _, _ => none

namespace Store

variable {s : Store} {R R' : Value → Value → Prop} {v w x : Value} {pair : Container × Container}
  {active : List (Container × Container)} {bound : Nat}

/-- Whether two values agree, if the values inside agree as `R` says. -/
inductive Agrees (s : Store) (R : Value → Value → Prop) : Value → Value → Prop
  | undefined : Agrees s R .undefined .undefined
  | null : Agrees s R .null .null
  | bool (b : Bool) : Agrees s R (.bool b) (.bool b)
  | int (n : Int64) : Agrees s R (.int n) (.int n)
  | float {x y : Double} (same : x.equal y = true) : Agrees s R (.float x) (.float y)
  | text {a b : TextRef} (same : s.text a = s.text b) : Agrees s R (.text a) (.text b)
  | list {a b : ListRef} (items : a = b ∨ List.Forall₂ R (s.list a).toList (s.list b).toList) :
    Agrees s R (.list a) (.list b)
  | map {a b : MapRef}
    (entries : a = b ∨ List.Forall₂ (fun e f => e.1 = f.1 ∧ R e.2 f.2) (s.map a).entries
      (s.map b).entries) : Agrees s R (.map a) (.map b)

def parts (s : Store) : Container → List (Scalar × Value)
  | .list ref => (s.list ref).toList.map (.null, ·)
  | .map ref => (s.map ref).entries

def Rows (s : Store) (R : Value → Value → Prop) (k l : Container) : Prop :=
  List.Forall₂ (fun e f => e.1 = f.1 ∧ R e.2 f.2) (s.parts k) (s.parts l)

def sameLeaf (s : Store) : Value → Value → Bool
  | .undefined, .undefined => true
  | .null, .null => true
  | .bool a, .bool b => a == b
  | .int a, .int b => a == b
  | .float x, .float y => x.equal y
  | .text a, .text b => s.text a == s.text b
  | _, _ => false

theorem Rows.imp {k l : Container} (rows : s.Rows R k l) (imp : ∀ x y, R x y → R' x y) :
    s.Rows R' k l :=
  List.Forall₂.imp (fun _ _ both => ⟨both.1, imp _ _ both.2⟩) rows

theorem rows_list (a b : ListRef) :
    s.Rows R (.list a) (.list b) ↔ List.Forall₂ R (s.list a).toList (s.list b).toList := by
  simp [Rows, parts, List.forall₂_map_left_iff, List.forall₂_map_right_iff]

theorem pair?_eq_some (opens : v.pair? w = some pair) :
    (∃ a b, v = .list a ∧ w = .list b ∧ pair = (.list a, .list b)) ∨
      ∃ a b, v = .map a ∧ w = .map b ∧ pair = (.map a, .map b) := by
  unfold Value.pair? at opens
  split at opens
  · exact .inl ⟨_, _, rfl, rfl, (Option.some.inj opens).symm⟩
  · exact .inr ⟨_, _, rfl, rfl, (Option.some.inj opens).symm⟩
  · contradiction

theorem agrees_leaf (leaf : v.pair? w = none) : s.Agrees R v w ↔ s.sameLeaf v w = true := by
  constructor
  · intro agrees
    cases agrees <;> simp_all [sameLeaf, Value.pair?]
  · intro same
    unfold sameLeaf at same
    split at same
    · exact .undefined
    · exact .null
    · rw [eq_of_beq same]
      exact .bool _
    · rw [eq_of_beq same]
      exact .int _
    · exact .float same
    · exact .text (eq_of_beq same)
    · contradiction

theorem agrees_pair (opens : v.pair? w = some pair) :
    s.Agrees R v w ↔ pair.1 = pair.2 ∨ s.Rows R pair.1 pair.2 := by
  rcases pair?_eq_some opens with ⟨a, b, rfl, rfl, rfl⟩ | ⟨a, b, rfl, rfl, rfl⟩
  · simp only [rows_list, Container.list.injEq]
    refine ⟨fun agrees => ?_, .list⟩
    cases agrees with
    | list items => exact items
  · simp only [Container.map.injEq]
    refine ⟨fun agrees => ?_, .map⟩
    cases agrees with
    | map entries => exact entries

theorem equalWithin_leaf (leaf : v.pair? w = none) :
    s.equalWithin (bound + 1) active v w = s.sameLeaf v w := by
  cases v <;> cases w <;> simp_all [equalWithin, sameLeaf, Value.pair?]

theorem equalWithin_pair (opens : v.pair? w = some pair) : s.equalWithin (bound + 1) active v w =
    if pair.1 = pair.2 ∨ pair ∈ active then true
    else (s.parts pair.1).length == (s.parts pair.2).length &&
      ((s.parts pair.1).zip (s.parts pair.2)).all fun row =>
        row.1.1 == row.2.1 && s.equalWithin bound (pair :: active) row.1.2 row.2.2 := by
  rcases pair?_eq_some opens with ⟨a, b, rfl, rfl, rfl⟩ | ⟨a, b, rfl, rfl, rfl⟩
  · simp [equalWithin, parts, List.zip_map, List.all_map, Function.comp_def]
  · simp [equalWithin, parts]

theorem Agrees.imp (agrees : s.Agrees R v w) (imp : ∀ x y, R x y → R' x y) : s.Agrees R' v w := by
  cases opens : v.pair? w with
  | none => exact (agrees_leaf opens).mpr ((agrees_leaf opens).mp agrees)
  | some pair =>
    exact (agrees_pair opens).mpr (((agrees_pair opens).mp agrees).imp_right
      fun rows => rows.imp imp)

theorem equalWithin_eq_true_iff (opens : v.pair? w = some pair) :
    s.equalWithin (bound + 1) active v w = true ↔
    (pair.1 = pair.2 ∨ pair ∈ active) ∨
      s.Rows (fun x y => s.equalWithin bound (pair :: active) x y = true) pair.1 pair.2 := by
  rw [equalWithin_pair opens, Rows, List.forall₂_iff_zip]
  split
  next known => simp [known]
  next new =>
    simp only [new, false_or, Bool.and_eq_true, beq_iff_eq, List.all_eq_true]
    exact ⟨fun both => ⟨both.1, fun member => both.2 _ member⟩,
      fun both => ⟨both.1, fun row member => both.2 member⟩⟩

section Assumed

/-- Related by a relation that respects contents, except for the pairs of containers in `active`,
which need not have anything in common. -/
def SimilarBut (s : Store) (active : List (Container × Container)) (v w : Value) : Prop :=
  ∃ R : Value → Value → Prop, R v w ∧ ∀ x y, R x y → s.Agrees R x y ∨
    ∃ pair ∈ active, x.pair? y = some pair

theorem SimilarBut.unfold (similar : s.SimilarBut active v w) :
    s.Agrees (s.SimilarBut active) v w ∨ ∃ pair ∈ active, v.pair? w = some pair := by
  obtain ⟨R, related, closed⟩ := similar
  exact (closed v w related).imp_left fun agrees => agrees.imp fun x y inner => ⟨R, inner, closed⟩

/-- The similar values are all that can be related so: what would be similar by one more step
already is. -/
theorem SimilarBut.fold
    (agrees : s.Agrees (s.SimilarBut active) v w ∨ ∃ pair ∈ active, v.pair? w = some pair) :
    s.SimilarBut active v w := by
  refine ⟨fun x y => s.Agrees (s.SimilarBut active) x y ∨ ∃ pair ∈ active, x.pair? y = some pair,
    agrees, ?_⟩
  exact fun x y either => either.imp_left fun inner => inner.imp fun a b similar => similar.unfold

/-- A pair of containers may be assumed inside itself: if the contents agree with the pair assumed,
the pair need not be assumed at all. -/
theorem SimilarBut.discharge (opens : v.pair? w = some pair)
    (rows : s.Rows (s.SimilarBut (pair :: active)) pair.1 pair.2) : s.SimilarBut active v w := by
  -- the relation that assumes the pair is itself a witness, for at the pair it can be unfolded
  -- after all
  refine ⟨s.SimilarBut (pair :: active), .fold (.inr ⟨pair, List.mem_cons_self, opens⟩),
    fun x y similar => ?_⟩
  rcases similar.unfold with agrees | ⟨other, member, opens'⟩
  · exact .inl agrees
  · rcases List.mem_cons.mp member with rfl | earlier
    · exact .inl ((agrees_pair opens').mpr (.inr rows))
    · exact .inr ⟨other, earlier, opens'⟩

theorem similarBut_of_equalWithin (equal : s.equalWithin bound active v w = true) :
    s.SimilarBut active v w := by
  induction bound generalizing active v w with
  | zero => simp [equalWithin] at equal
  | succ bound ih =>
    cases opens : v.pair? w with
    | none =>
      rw [equalWithin_leaf opens] at equal
      exact .fold (.inl ((agrees_leaf opens).mpr equal))
    | some pair =>
      rcases (equalWithin_eq_true_iff opens).mp equal with (same | known) | rows
      · exact .fold (.inl ((agrees_pair opens).mpr (.inl same)))
      · exact .fold (.inr ⟨pair, known, opens⟩)
      · exact .discharge opens (rows.imp fun x y inner => ih inner)

end Assumed

section Bounded

structure Bounded (s : Store) (active : List (Container × Container)) (bound : Nat) : Prop where
  nodup : active.Nodup
  has : ∀ pair ∈ active, s.Has pair.1.value ∧ s.Has pair.2.value
  enough : s.containers * s.containers < bound + active.length

theorem active_length_le (nodup : active.Nodup)
    (has : ∀ pair ∈ active, s.Has pair.1.value ∧ s.Has pair.2.value) :
    active.length ≤ s.containers * s.containers := by
  have injective : Function.Injective fun pair : Container × Container =>
      (pair.1.value, pair.2.value) := by
    intro pair other same
    have first : pair.1 = other.1 := Container.value_injective (congrArg Prod.fst same)
    have second : pair.2 = other.2 := Container.value_injective (congrArg Prod.snd same)
    exact Prod.ext first second
  have covered : active.map (fun pair => (pair.1.value, pair.2.value)) ⊆ s.nodes ×ˢ s.nodes := by
    intro values member
    obtain ⟨pair, inside, rfl⟩ := List.mem_map.mp member
    exact List.mem_product.mpr ⟨mem_nodes_value (has pair inside).1,
      mem_nodes_value (has pair inside).2⟩
  have short := (List.subperm_of_subset (nodup.map injective) covered).length_le
  rwa [List.length_map, List.length_product, length_nodes] at short

theorem Bounded.ne_zero (bounded : s.Bounded active 0) : False := by
  have short := active_length_le bounded.nodup bounded.has
  have enough := bounded.enough
  omega

theorem has_of_mem_parts {k : Container} {e : Scalar × Value} (member : e ∈ s.parts k) :
    s.Has k.value := by
  cases k with
  | list ref =>
    obtain ⟨v, inside, _⟩ := List.mem_map.mp member
    exact (Inside.item (Array.mem_toList_iff.mp inside)).has
  | map ref => exact (Inside.entry member).has

theorem Bounded.cons (bounded : s.Bounded active (bound + 1)) (new : pair ∉ active)
    {row : (Scalar × Value) × (Scalar × Value)}
    (member : row ∈ (s.parts pair.1).zip (s.parts pair.2)) : s.Bounded (pair :: active) bound := by
  obtain ⟨left, right⟩ := List.of_mem_zip (a := row.1) (b := row.2) member
  refine ⟨List.nodup_cons.mpr ⟨new, bounded.nodup⟩, fun other later => ?_, ?_⟩
  · rcases List.mem_cons.mp later with rfl | earlier
    · exact ⟨has_of_mem_parts left, has_of_mem_parts right⟩
    · exact bounded.has other earlier
  · have enough := bounded.enough
    simp only [List.length_cons]
    omega

theorem bounded_start (s : Store) : s.Bounded [] (s.containers * s.containers + 1) :=
  ⟨.nil, by simp, Nat.lt_succ_self _⟩

theorem equalWithin_of_agrees (closed : ∀ x y, R x y → s.Agrees R x y) (related : R v w)
    (bounded : s.Bounded active bound) : s.equalWithin bound active v w = true := by
  induction bound generalizing active v w with
  | zero => exact bounded.ne_zero.elim
  | succ bound ih =>
    have agrees := closed v w related
    cases opens : v.pair? w with
    | none =>
      rw [equalWithin_leaf opens]
      exact (agrees_leaf opens).mp agrees
    | some pair =>
      rw [equalWithin_eq_true_iff opens]
      by_cases known : pair.1 = pair.2 ∨ pair ∈ active
      · exact .inl known
      · right
        have rows := ((agrees_pair opens).mp agrees).resolve_left fun same => known (.inl same)
        have new : pair ∉ active := fun member => known (.inr member)
        rw [Rows, List.forall₂_iff_zip] at rows ⊢
        refine ⟨rows.1, fun member => ?_⟩
        obtain ⟨key, inner⟩ := rows.2 member
        exact ⟨key, ih inner (bounded.cons new member)⟩

end Bounded

mutual

/-- How the comparison of two values goes, with no bound on its depth, and what it finds. `active`
holds the pairs of containers under comparison further up. -/
inductive Compares (s : Store) : List (Container × Container) → Value → Value → Bool → Prop
  | leaf {active : List (Container × Container)} {v w : Value} (leaf : v.pair? w = none) :
    Compares s active v w (s.sameLeaf v w)
  | known {active : List (Container × Container)} {v w : Value} {pair : Container × Container}
    (opens : v.pair? w = some pair) (known : pair.1 = pair.2 ∨ pair ∈ active) :
    Compares s active v w true
  | length {active : List (Container × Container)} {v w : Value} {pair : Container × Container}
    (opens : v.pair? w = some pair) (new : ¬ (pair.1 = pair.2 ∨ pair ∈ active))
    (differ : (s.parts pair.1).length ≠ (s.parts pair.2).length) : Compares s active v w false
  | parts {active : List (Container × Container)} {v w : Value} {pair : Container × Container}
    {verdict : Bool} (opens : v.pair? w = some pair) (new : ¬ (pair.1 = pair.2 ∨ pair ∈ active))
    (same : (s.parts pair.1).length = (s.parts pair.2).length)
    (inner : ComparesAll s (pair :: active) ((s.parts pair.1).zip (s.parts pair.2)) verdict) :
    Compares s active v w verdict

inductive ComparesAll (s : Store) :
    List (Container × Container) → List ((Scalar × Value) × (Scalar × Value)) → Bool → Prop
  | done {active : List (Container × Container)} : ComparesAll s active [] true
  | key {active : List (Container × Container)} {e f : Scalar × Value}
    {rest : List ((Scalar × Value) × (Scalar × Value))} (differ : e.1 ≠ f.1) :
    ComparesAll s active ((e, f) :: rest) false
  | value {active : List (Container × Container)} {e f : Scalar × Value}
    {rest : List ((Scalar × Value) × (Scalar × Value))} (same : e.1 = f.1)
    (differ : Compares s active e.2 f.2 false) : ComparesAll s active ((e, f) :: rest) false
  | next {active : List (Container × Container)} {e f : Scalar × Value}
    {rest : List ((Scalar × Value) × (Scalar × Value))} {verdict : Bool} (same : e.1 = f.1)
    (equal : Compares s active e.2 f.2 true) (others : ComparesAll s active rest verdict) :
    ComparesAll s active ((e, f) :: rest) verdict

end

theorem comparesAll_iff {rows : List ((Scalar × Value) × (Scalar × Value))} {verdict : Bool}
    (each : ∀ row ∈ rows, ∀ found, s.Compares active row.1.2 row.2.2 found ↔
      s.equalWithin bound active row.1.2 row.2.2 = found) :
    s.ComparesAll active rows verdict ↔
      (rows.all fun row => row.1.1 == row.2.1 && s.equalWithin bound active row.1.2 row.2.2) =
        verdict := by
  induction rows generalizing verdict with
  | nil =>
    rw [List.all_nil]
    constructor
    · intro compares
      cases compares with
      | done => rfl
    · rintro rfl
      exact .done
  | cons row rest ih =>
    obtain ⟨e, f⟩ := row
    obtain ⟨first, others⟩ := List.forall_mem_cons.mp each
    rw [List.all_cons]
    constructor
    · intro compares
      cases compares with
      | key differ => simp only [beq_false_of_ne differ, Bool.false_and]
      | value same differ => simp only [(first _).mp differ, Bool.and_false, Bool.false_and]
      | next same equal compares =>
        simp only [beq_iff_eq.mpr same, (first _).mp equal, Bool.true_and]
        exact (ih others).mp compares
    · rintro rfl
      by_cases same : e.1 = f.1
      · have matching : (e.1 == f.1) = true := beq_iff_eq.mpr same
        cases equal : s.equalWithin bound active e.2 f.2 with
        | true =>
          simp only [matching, Bool.true_and]
          exact .next same ((first _).mpr equal) ((ih others).mpr rfl)
        | false =>
          simp only [Bool.and_false, Bool.false_and]
          exact .value same ((first _).mpr equal)
      · simp only [beq_false_of_ne same, Bool.false_and]
        exact .key same

/-- The bound is never used up: every comparison comes to an end, and with one verdict. -/
theorem compares_iff (bounded : s.Bounded active bound) {verdict : Bool} :
    s.Compares active v w verdict ↔ s.equalWithin bound active v w = verdict := by
  induction bound generalizing active v w verdict with
  | zero => exact bounded.ne_zero.elim
  | succ bound ih =>
    have inside {pair : Container × Container} (new : ¬ (pair.1 = pair.2 ∨ pair ∈ active))
      (verdict : Bool) :
        s.ComparesAll (pair :: active) ((s.parts pair.1).zip (s.parts pair.2)) verdict ↔
          (((s.parts pair.1).zip (s.parts pair.2)).all fun row =>
            row.1.1 == row.2.1 && s.equalWithin bound (pair :: active) row.1.2 row.2.2) = verdict :=
      comparesAll_iff fun row member found =>
        ih (bounded.cons (fun known => new (.inr known)) member)
    constructor
    · intro compares
      cases compares with
      | leaf leaf => exact equalWithin_leaf leaf
      | known opens known => rw [equalWithin_pair opens, if_pos known]
      | length opens new differ =>
        rw [equalWithin_pair opens, if_neg new, beq_false_of_ne differ, Bool.false_and]
      | parts opens new same inner =>
        rw [equalWithin_pair opens, if_neg new, beq_iff_eq.mpr same, Bool.true_and]
        exact (inside new _).mp inner
    · rintro rfl
      cases opens : v.pair? w with
      | none =>
        rw [equalWithin_leaf opens]
        exact .leaf opens
      | some pair =>
        rw [equalWithin_pair opens]
        by_cases known : pair.1 = pair.2 ∨ pair ∈ active
        · rw [if_pos known]
          exact .known opens known
        · rw [if_neg known]
          by_cases same : (s.parts pair.1).length = (s.parts pair.2).length
          · rw [beq_iff_eq.mpr same, Bool.true_and]
            exact .parts opens known same ((inside known _).mpr rfl)
          · rw [beq_false_of_ne same, Bool.false_and]
            exact .length opens known same

section Laws

theorem Agrees.symm (agrees : s.Agrees R v w) : s.Agrees (fun x y => R y x) w v := by
  cases agrees with
  | undefined => exact .undefined
  | null => exact .null
  | bool b => exact .bool b
  | int n => exact .int n
  | float same => exact .float (Double.equal_symm same)
  | text same => exact .text same.symm
  | list items => exact .list (items.imp Eq.symm List.Forall₂.flip)
  | map entries =>
    refine .map (entries.imp Eq.symm fun rows => rows.flip.imp fun e f both => ?_)
    exact ⟨both.1.symm, both.2⟩

theorem Agrees.trans {T : Value → Value → Prop} (first : s.Agrees R v w) (second : s.Agrees R' w x)
    (left : ∀ a b, R a b → T a b) (right : ∀ a b, R' a b → T a b)
    (both : ∀ a b c, R a b → R' b c → T a c) : s.Agrees T v x := by
  cases first with
  | undefined => exact second.imp right
  | null => exact second.imp right
  | bool b => exact second.imp right
  | int n => exact second.imp right
  | float same =>
    cases second with
    | float same' => exact .float (Double.equal_trans same same')
  | text same =>
    cases second with
    | text same' => exact .text (same.trans same')
  | list items =>
    rcases items with rfl | items
    · exact second.imp right
    · cases second with
      | list items' =>
        rcases items' with rfl | items'
        · exact .list (.inr (items.imp left))
        · exact .list (.inr (forall₂_comp items items' both))
  | map entries =>
    rcases entries with rfl | entries
    · exact second.imp right
    · cases second with
      | map entries' =>
        rcases entries' with rfl | entries'
        · exact .map (.inr (entries.imp fun e f same => ⟨same.1, left _ _ same.2⟩))
        · refine .map (.inr (forall₂_comp entries entries' fun e f g same same' => ?_))
          exact ⟨same.1.trans same'.1, both _ _ _ same.2 same'.2⟩

/-- The values found equal are those that some relation relates which respects contents. -/
theorem equal_iff_exists :
    s.equal v w = true ↔ ∃ R : Value → Value → Prop, (∀ x y, R x y → s.Agrees R x y) ∧ R v w := by
  constructor
  · intro equal
    obtain ⟨R, related, closed⟩ := similarBut_of_equalWithin equal
    exact ⟨R, fun x y inner => (closed x y inner).resolve_right (by simp), related⟩
  · rintro ⟨R, closed, related⟩
    exact equalWithin_of_agrees closed related s.bounded_start

theorem Agrees.of_equal (equal : s.equal v w = true) :
    s.Agrees (fun x y => s.equal x y = true) v w := by
  obtain ⟨R, closed, related⟩ := equal_iff_exists.mp equal
  exact (closed v w related).imp fun x y inner => equal_iff_exists.mpr ⟨R, closed, inner⟩

theorem equal_of_agrees (agrees : s.Agrees (fun x y => s.equal x y = true) v w) :
    s.equal v w = true := by
  refine equal_iff_exists.mpr ⟨s.Agrees (fun x y => s.equal x y = true), fun x y inner => ?_,
    agrees⟩
  exact inner.imp fun _ _ => .of_equal

theorem equal_symm (equal : s.equal v w = true) : s.equal w v = true :=
  equal_iff_exists.mpr ⟨fun x y => s.equal y x = true,
    fun _ _ inner => (Agrees.of_equal inner).symm, equal⟩

theorem equal_trans (first : s.equal v w = true) (second : s.equal w x = true) :
    s.equal v x = true := by
  let related (a c : Value) : Prop :=
    s.equal a c = true ∨ ∃ b, s.equal a b = true ∧ s.equal b c = true
  refine equal_iff_exists.mpr ⟨related, fun a c either => ?_, .inr ⟨w, first, second⟩⟩
  rcases either with direct | ⟨b, first, second⟩
  · exact (Agrees.of_equal direct).imp fun _ _ => .inl
  · refine (Agrees.of_equal first).trans (.of_equal second) (fun _ _ => .inl) (fun _ _ => .inl) ?_
    exact fun a b c left right => .inr ⟨b, left, right⟩

theorem equal_self_of_container (container : v.tag.isContainer = true) : s.equal v v = true := by
  apply equal_of_agrees
  cases v with
  | text ref => exact .text rfl
  | list ref => exact .list (.inl rfl)
  | map ref => exact .map (.inl rfl)
  | _ => contradiction

theorem equal_of_alike {t : Store} (alike : t.Alike v t w)
    (numbers : ∀ x : Double, t.Reach v (.float x) → x.isNaN = false) : t.equal v w = true := by
  obtain ⟨R, matched, related⟩ := alike
  refine equal_iff_exists.mpr ⟨fun x y => t.Reach v x ∧ R x y, ?_, .here, related⟩
  rintro x y ⟨path, related⟩
  have matched : t.Matches t (fun x y => t.Reach v x ∧ R x y) x y :=
    (matched x y related).inside.imp fun a b both => ⟨.inside path both.1, both.2.2⟩
  cases matched with
  | immediate plain =>
    cases x with
    | undefined => exact .undefined
    | null => exact .null
    | bool b => exact .bool b
    | int n => exact .int n
    | float x => exact .float (Double.equal_self (numbers x path))
    | _ => contradiction
  | text same => exact .text same.symm
  | list items => exact .list (.inr items)
  | map entries => exact .map (.inr (entries.imp fun e f both => ⟨both.1.symm, both.2⟩))

theorem equal_deepCopy (stored : s.Stored v)
    (numbers : ∀ x : Double, s.Reach v (.float x) → x.isNaN = false) :
    (s.deepCopy v).2.equal v (s.deepCopy v).1 = true := by
  have kept (x : Value) (reach : s.Reach v x) : s.Same (s.deepCopy v).2 x :=
    (s.deepCopy_extends v).same x (stored x reach)
  refine equal_of_alike ((deepCopy_alike stored).congr kept fun y _ => .refl _ y) fun x reach => ?_
  exact numbers x (reach.same kept)

end Laws

/-- Equality decides bisimilarity, in every store and with whatever cycles. Each comparison comes to
an end without a bound, and what it finds is `equal`; the values found equal are those that the
greatest relation relates which respects contents. So equality is symmetric and transitive, every
container equals itself, and a value from which nothing can be reached that is not a number equals
its deep copy. -/
theorem equal_decides_bisimilarity (s : Store) :
    (∀ v w verdict, s.Compares [] v w verdict ↔ s.equal v w = verdict) ∧
    IsGreatest {R : Value → Value → Prop | ∀ v w, R v w → s.Agrees R v w}
      (fun v w => s.equal v w = true) ∧
    (∀ v w, s.equal v w = true ↔ s.Agrees (fun x y => s.equal x y = true) v w) ∧
    (∀ v w, s.equal v w = s.equal w v) ∧
    (∀ v w x, s.equal v w = true → s.equal w x = true → s.equal v x = true) ∧
    (∀ v, v.tag.isContainer = true → s.equal v v = true) ∧
    ∀ v, s.Stored v → (∀ x : Double, s.Reach v (.float x) → x.isNaN = false) →
      (s.deepCopy v).2.equal v (s.deepCopy v).1 = true := by
  refine ⟨fun v w verdict => compares_iff s.bounded_start,
    ⟨fun v w => .of_equal, fun R closed v w related => ?_⟩,
    fun v w => ⟨.of_equal, equal_of_agrees⟩, fun v w => ?_, fun v w x => equal_trans,
    fun v => equal_self_of_container, fun v => equal_deepCopy⟩
  · exact equal_iff_exists.mpr ⟨R, closed, related⟩
  · exact Bool.eq_iff_iff.mpr ⟨equal_symm, equal_symm⟩

section Loops

def loops : Store where
  lists := #[#[.int 1, .list ⟨0⟩], #[.int 1, .list ⟨1⟩]]

theorem loops_reach {x : Value} (reach : loops.Reach (.list ⟨0⟩) x) :
    x = .list ⟨0⟩ ∨ x = .int 1 := by
  let inner (v : Value) : Prop := v = .list ⟨0⟩ ∨ v = .int 1
  refine reach.closed (fun v w (here : inner v) inside => ?_) (Or.inl rfl)
  rcases here with rfl | rfl
  · cases inside with
    | item member =>
      have either : w = .int 1 ∨ w = .list ⟨0⟩ := by simpa [loops, list] using member
      exact either.symm
  · cases inside

theorem equal_decides_bisimilarity_loops :
    loops.equal (.list ⟨0⟩) (.list ⟨1⟩) = true ∧ loops.equal (.list ⟨1⟩) (.list ⟨0⟩) = true ∧
      loops.Stored (.list ⟨0⟩) ∧ (∀ x : Double, loops.Reach (.list ⟨0⟩) (.float x) →
        x.isNaN = false) ∧
      (loops.deepCopy (.list ⟨0⟩)).2.equal (.list ⟨0⟩) (loops.deepCopy (.list ⟨0⟩)).1 = true := by
  obtain ⟨_, ⟨_, greatest⟩, _, symmetric, _, _, copies⟩ := equal_decides_bisimilarity loops
  have stored : loops.Stored (.list ⟨0⟩) := by
    intro x reach
    rcases loops_reach reach with rfl | rfl
    · exact Nat.two_pos
    · trivial
  have numbers (x : Double) (reach : loops.Reach (.list ⟨0⟩) (.float x)) : x.isNaN = false := by
    rcases loops_reach reach with same | same <;> contradiction
  let R (v w : Value) : Prop := (v = .list ⟨0⟩ ∧ w = .list ⟨1⟩) ∨ (v = .int 1 ∧ w = .int 1)
  have closed : R ∈ {R : Value → Value → Prop | ∀ v w, R v w → loops.Agrees R v w} := by
    rintro v w (⟨rfl, rfl⟩ | ⟨rfl, rfl⟩)
    · refine .list (.inr ?_)
      exact .cons (.inr ⟨rfl, rfl⟩) (.cons (.inl ⟨rfl, rfl⟩) .nil)
    · exact .int 1
  have equal : loops.equal (.list ⟨0⟩) (.list ⟨1⟩) = true := greatest closed _ _ (.inl ⟨rfl, rfl⟩)
  exact ⟨equal, (symmetric _ _).symm.trans equal, stored, numbers, copies _ stored numbers⟩

end Loops

end Store

end StackMachine
