import Mathlib.Data.List.Induction
import StackMachine.Proofs.ComparisonLaws
import StackMachine.Proofs.Switching

/-! What sorting a switch table does, whatever its keys are, as long as they are ordered: it keeps
the first case of each key, puts the cases it keeps in ascending order, and has nothing left to do
the second time. -/

namespace StackMachine

namespace Sorting

variable {α : Type} {equal : α → α → Bool} {items : List α}

def firsts (equal : α → α → Bool) (items : List α) : List α :=
  (items.zipIdx.filter fun entry => !(items.take entry.2).any (equal · entry.1)).map (·.1)

theorem firsts_append (items : List α) (x : α) :
    firsts equal (items ++ [x]) = firsts equal items ++ if items.any (equal · x) then []
      else [x] := by
  have earlier : ∀ entry ∈ items.zipIdx, (!((items ++ [x]).take entry.2).any (equal · entry.1)) =
      !(items.take entry.2).any (equal · entry.1) := by
    intro entry member
    have inside := List.snd_lt_of_mem_zipIdx member
    rw [List.take_append_of_le_length (by omega)]
  simp only [firsts, List.zipIdx_append, List.filter_append, List.map_append,
    List.filter_congr earlier]
  congr 1
  cases hidden : items.any (equal · x) <;> simp [hidden]

theorem any_dropHidden {x : α}
    (trans : ∀ a ∈ items, ∀ b ∈ items, equal a b = true → equal b x = true → equal a x = true) :
    (dropHidden equal items).any (equal · x) = items.any (equal · x) := by
  refine Bool.eq_iff_iff.mpr ?_
  simp only [Array.any_eq_true', List.any_eq_true]
  refine ⟨fun ⟨y, kept, hides⟩ => ⟨y, (dropHidden_sublist items).mem
    (Array.mem_toList_iff.mpr kept), hides⟩, ?_⟩
  rintro ⟨y, member, hides⟩
  obtain ⟨before, after, split⟩ := List.append_of_mem member
  rcases @mem_dropHidden_or _ equal before after y with kept | ⟨z, earlier, kept, same⟩
  · exact ⟨y, split ▸ kept, hides⟩
  · exact ⟨z, split ▸ kept, trans z (by simp [split, earlier]) y member same hides⟩

theorem dropHidden_append (items : List α) (x : α) :
    dropHidden equal (items ++ [x]) = keep equal (dropHidden equal items) x := by
  simp only [dropHidden_eq_foldl, List.foldl_append, List.foldl_cons, List.foldl_nil]

/-- Where `equal` is transitive, it makes no difference whether the earlier item was kept. -/
theorem dropHidden_eq_firsts
    (trans : ∀ a ∈ items, ∀ b ∈ items, ∀ c ∈ items, equal a b = true → equal b c = true →
      equal a c = true) : (dropHidden equal items).toList = firsts equal items := by
  induction items using List.reverseRecOn with
  | nil => rfl
  | append_singleton items x ih =>
    have inside {a : α} (member : a ∈ items) : a ∈ items ++ [x] := List.mem_append_left _ member
    have kept := ih fun a inA b inB c inC => trans a (inside inA) b (inside inB) c (inside inC)
    have hidden := any_dropHidden (x := x) fun a inA b inB =>
      trans a (inside inA) b (inside inB) x List.mem_concat_self
    rw [dropHidden_append, keep, hidden, firsts_append, ← kept]
    split <;> simp

theorem dropHidden_of_apart (apart : items.Pairwise fun a b => equal a b = false) :
    dropHidden equal items = items.toArray := by
  induction items using List.reverseRecOn with
  | nil => rfl
  | append_singleton items x ih =>
    obtain ⟨before, _, last⟩ := List.pairwise_append.mp apart
    have shown : items.any (equal · x) = false :=
      List.any_eq_false.mpr fun a member => by simp [last a member x List.mem_cons_self]
    rw [dropHidden_append, ih before, keep]
    simp [shown]

theorem quicksort_of_ascending {order : α → α → Ordering}
    (swap : ∀ a ∈ items, ∀ b ∈ items, order b a = (order a b).swap)
    (trans : ∀ a ∈ items, ∀ b ∈ items, ∀ c ∈ items, order a b = .lt → order b c = .lt →
      order a c = .lt)
    (ascending : items.Pairwise fun a b => order a b = .lt) :
    quicksort order items.length items.toArray = items.toArray := by
  have all : dropHidden (fun a b => order a b == .eq) items = items.toArray :=
    dropHidden_of_apart (ascending.imp fun less => by simp [less])
  have sorted := @quicksort_dropHidden_ascending _ (fun a b => order a b == .eq) _ _
    (fun _ _ _ _ => rfl) swap trans
  have perm := (quicksort_perm order items.length items.toArray).toList
  rw [all, List.size_toArray] at sorted
  refine Array.toList_inj.mp (List.Perm.eq_of_pairwise (fun a b inA inB less greater => ?_) sorted
    ascending perm)
  have inA : a ∈ items := perm.mem_iff.mp inA
  simp [swap a inA b inB, less] at greater

end Sorting

namespace Store

def AtMost (s : Store) (v w : Value) : Prop :=
  s.compare v w = .ok (some .lt) ∨ s.compare v w = .ok (some .eq)

/-- On the values, the comparison is a total preorder. -/
structure Ranks (s : Store) (values : List Value) : Prop where
  total : ∀ v ∈ values, ∀ w ∈ values, ∃ order, s.compare v w = .ok (some order)
  trans : ∀ u ∈ values, ∀ v ∈ values, ∀ w ∈ values, s.AtMost u v → s.AtMost v w → s.AtMost u w

theorem order?_eq_some_iff {s : Store} {v w : Value} {order : Ordering} :
    s.order? v w = some order ↔ s.compare v w = .ok (some order) := by
  unfold order?
  cases s.compare v w <;> simp

theorem ranks_of_ints {s : Store} {values : List Value} (ints : ∀ v ∈ values, ∃ n, v = .int n) :
    s.Ranks values := by
  have atMost (n m : Int64) : s.AtMost (.int n) (.int m) ↔ n.toInt ≤ m.toInt := by
    have compared : s.compare (.int n) (.int m) = .ok (some (Ord.compare n m)) := rfl
    rw [AtMost, compared, compare_int64]
    simp only [Except.ok.injEq, Option.some.injEq, Int.compare_eq_lt, Int.compare_eq_eq]
    omega
  refine ⟨fun v inV w inW => ?_, fun u inU v inV w inW => ?_⟩
  · obtain ⟨n, rfl⟩ := ints v inV
    obtain ⟨m, rfl⟩ := ints w inW
    exact ⟨_, rfl⟩
  · obtain ⟨k, rfl⟩ := ints u inU
    obtain ⟨n, rfl⟩ := ints v inV
    obtain ⟨m, rfl⟩ := ints w inW
    simp only [atMost]
    omega

theorem scalars_of_compare {s : Store} {v w : Value} {order : Ordering}
    (compared : s.compare v w = .ok (some order)) :
    ∃ a b, s.scalar? v = some a ∧ s.scalar? w = some b ∧ order = a.sameKindOrder b := by
  obtain ⟨a, b, first, second, found⟩ := compare_eq_ok_iff.mp compared
  exact ⟨a, b, first, second, (Scalar.compare?_eq_some_iff.mp found).2.2.2.symm⟩

end Store

namespace SwitchTable

variable {t : SwitchTable} {s : Store} {constants : Array Value}

def keyValue (constants : Array Value) (x : SwitchCase) : Value :=
  constants.getD x.1.toNat .undefined

structure Sortable (t : SwitchTable) (s : Store) (constants : Array Value) : Prop where
  resolved : ∀ x ∈ t.cases, x.1.toNat < constants.size
  ranks : s.Ranks (t.cases.map (keyValue constants))

def keyScalar (s : Store) (constants : Array Value) (x : SwitchCase) : Scalar :=
  (s.scalar? (keyValue constants x)).getD .null

theorem caseOrder?_eq_some_iff {x y : SwitchCase} {order : Ordering} :
    caseOrder? s constants x y = some order ↔
    s.compare (keyValue constants x) (keyValue constants y) = .ok (some order) :=
  Store.order?_eq_some_iff

namespace Sortable

variable (sortable : t.Sortable s constants) {x y z : SwitchCase}

include sortable

theorem caseOrder?_eq (first : x ∈ t.cases) (second : y ∈ t.cases) :
    caseOrder? s constants x y = some ((keyScalar s constants x).sameKindOrder
      (keyScalar s constants y)) := by
  obtain ⟨order, compared⟩ :=
    sortable.ranks.total _ (List.mem_map_of_mem first) _ (List.mem_map_of_mem second)
  obtain ⟨a, b, left, right, rfl⟩ := Store.scalars_of_compare compared
  rw [caseOrder?_eq_some_iff.mpr compared]
  simp [keyScalar, left, right]

theorem caseOrder?_swap (first : x ∈ t.cases) (second : y ∈ t.cases) {order : Ordering}
    (ordered : caseOrder? s constants x y = some order) :
    caseOrder? s constants y x = some order.swap := by
  rw [sortable.caseOrder?_eq first second, Option.some.injEq] at ordered
  rw [sortable.caseOrder?_eq second first, Scalar.sameKindOrder_swap, ordered]

theorem equal_trans (first : x ∈ t.cases) (second : y ∈ t.cases) (third : z ∈ t.cases)
    (left : caseOrder? s constants x y = some .eq) (right : caseOrder? s constants y z = some .eq) :
    caseOrder? s constants x z = some .eq := by
  have atMost {x y : SwitchCase} (equal : caseOrder? s constants x y = some .eq) :
      s.AtMost (keyValue constants x) (keyValue constants y) :=
        .inr (caseOrder?_eq_some_iff.mp equal)
  have trans {x y z : SwitchCase} (first : x ∈ t.cases) (second : y ∈ t.cases)
      (third : z ∈ t.cases) :=
    sortable.ranks.trans _ (List.mem_map_of_mem first) _ (List.mem_map_of_mem second) _
      (List.mem_map_of_mem third)
  rcases trans first second third (atMost left) (atMost right) with less | equal
  · -- Both ways around are at most level, so neither is less.
    have back := trans third second first (atMost (sortable.caseOrder?_swap second third right))
      (atMost (sortable.caseOrder?_swap first second left))
    have greater := sortable.caseOrder?_swap first third (caseOrder?_eq_some_iff.mpr less)
    rcases back with back | back <;> simp [caseOrder?_eq_some_iff.mpr back] at greater
  · exact caseOrder?_eq_some_iff.mpr equal

theorem mono {u : SwitchTable} (within : ∀ x ∈ u.cases, x ∈ t.cases) : u.Sortable s constants := by
  have value {v : Value} (member : v ∈ u.cases.map (keyValue constants)) :
      v ∈ t.cases.map (keyValue constants) := by
    obtain ⟨x, listed, rfl⟩ := List.mem_map.mp member
    exact List.mem_map_of_mem (within x listed)
  exact
    { resolved := fun x member => sortable.resolved x (within x member)
      ranks :=
        { total := fun v inV w inW => sortable.ranks.total v (value inV) w (value inW)
          trans := fun u inU v inV w inW =>
            sortable.ranks.trans u (value inU) v (value inV) w (value inW) } }

theorem ascending :
    (t.arranged s constants).toList.Pairwise fun x y => caseOrder? s constants x y = some .lt := by
  have ranked := arranged_ascending_of_ranked fun _ inX _ inY => sortable.caseOrder?_eq inX inY
  refine (List.Pairwise.and_mem.mp ranked).imp ?_
  rintro x y ⟨inX, inY, less⟩
  rw [sortable.caseOrder?_eq (mem_cases_of_mem_arranged (Array.mem_toList_iff.mp inX))
    (mem_cases_of_mem_arranged (Array.mem_toList_iff.mp inY)), less]

theorem arranged_perm : (t.arranged s constants).toList.Perm
    (Sorting.firsts (fun x y => caseOrder? s constants x y == some .eq) t.cases) := by
  rw [← Sorting.dropHidden_eq_firsts fun x inX y inY z inZ => ?_]
  · exact (Sorting.quicksort_perm _ _ _).toList
  · simp only [beq_iff_eq]
    exact sortable.equal_trans inX inY inZ

theorem again {u : SwitchTable} (listed : u.cases = (t.arranged s constants).toList) :
    u.Sortable s constants :=
  sortable.mono fun _ member => mem_cases_of_mem_arranged
    (Array.mem_toList_iff.mp (listed ▸ member))

theorem arranged_eq {u : SwitchTable} (listed : u.cases = (t.arranged s constants).toList) :
    u.arranged s constants = t.arranged s constants := by
  have again := sortable.again listed
  have ascending := sortable.ascending
  rw [← listed] at ascending
  have kept : u.kept s constants = u.cases.toArray :=
    Sorting.dropHidden_of_apart (ascending.imp fun less => by simp [less])
  rw [arranged, kept, ← Array.toList_inj, ← listed, List.size_toArray,
    Sorting.quicksort_of_ascending]
  · intro x inX y inY
    rw [again.caseOrder?_eq inX inY, again.caseOrder?_eq inY inX]
    exact Scalar.sameKindOrder_swap _ _
  · intro x inX y inY z inZ
    rw [again.caseOrder?_eq inX inY, again.caseOrder?_eq inY inZ, again.caseOrder?_eq inX inZ]
    exact Scalar.sameKindOrder_lt_trans
  · exact ascending.imp fun less => by simp [less]

end Sortable

/-- Sorting a table sorts it. The keys and the targets are of one number; the keys ascend strictly;
the cases are the original ones to whose key no earlier key is equal, each of them once and each
with its own target; the default stays, and sorting once more changes nothing. -/
theorem sorted_exact (t : SwitchTable) (s : Store) (constants : Array Value)
    (sortable : t.Sortable s constants) :
    let u := t.sorted s constants
    u.keys.size = u.targets.size ∧
    (u.keys.toList.Pairwise fun key next => ∃ v w, constants[key.toNat]? = some v ∧
      constants[next.toNat]? = some w ∧ s.compare v w = .ok (some .lt)) ∧
    u.cases.Perm (Sorting.firsts (fun x y => caseOrder? s constants x y == some .eq) t.cases) ∧
    u.default = t.default ∧ u.sorted s constants = u := by
  intro u
  have arranged : u = _ := sorted_of_resolved sortable.resolved
  have listed : u.cases = (t.arranged s constants).toList := arranged ▸ cases_of_maps _ _
  refine ⟨by simp [arranged], ?_, listed ▸ sortable.arranged_perm, sorted_default t s constants, ?_⟩
  · rw [arranged, Array.toList_map, List.pairwise_map]
    refine (List.Pairwise.and_mem.mp sortable.ascending).imp ?_
    rintro x y ⟨inX, inY, less⟩
    have there {x : SwitchCase} (member : x ∈ (t.arranged s constants).toList) :
        constants[x.1.toNat]? = some (keyValue constants x) := by
      have inside :=
        sortable.resolved x (mem_cases_of_mem_arranged (Array.mem_toList_iff.mp member))
      simp [keyValue, Array.getD_eq_getD_getElem?, inside]
    exact ⟨_, _, there inX, there inY, caseOrder?_eq_some_iff.mp less⟩
  · rw [sorted_of_resolved (sortable.again listed).resolved, sortable.arranged_eq listed, arranged]

end SwitchTable

def SwitchTable.mixed : SwitchTable where
  keys := #[2, 0, 1, 3, 4, 0]
  targets := #[102, 100, 101, 103, 104]
  default := 99

theorem SwitchTable.sorted_exact_mixed :
    let constants : Array Value := #[.int 5, .int (-2), .int 9, .int 5, .int 0]
    mixed.Sortable {} constants ∧
    let u := mixed.sorted {} constants
    u.cases.Perm [(2, 102), (0, 100), (1, 101), (4, 104)] ∧
    (u.keys.toList.Pairwise fun key next => ∃ v w, constants[key.toNat]? = some v ∧
      constants[next.toNat]? = some w ∧ ({} : Store).compare v w = .ok (some .lt)) ∧
    u.sorted {} constants = u := by
  intro constants
  have sortable : mixed.Sortable {} constants := by
    refine ⟨?_, Store.ranks_of_ints ?_⟩
    · simp [cases, mixed, constants]
    · simp [cases, mixed, keyValue, constants]
  obtain ⟨_, ascending, perm, _, again⟩ := sorted_exact mixed {} constants sortable
  exact ⟨sortable, perm, ascending, again⟩

end StackMachine
