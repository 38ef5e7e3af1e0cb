import StackMachine.Machine.Switch

/-! Sorting in place. The two scans stop at an item that stands on the wrong side, and one always
exists: at first the pivot, later the item that the last swap put there. So a partition never runs
off either end, it splits the items into two shorter parts, and sorting the parts sorts the whole.
-/

namespace StackMachine.Sorting

variable {α : Type}

section Scan

variable {stay : α → Bool} {items : Array α}

theorem scanUp_spec {i m : Nat} {x : α} (fuel : Nat) (ahead : i ≤ m) (there : items[m]? = some x)
    (stops : stay x = false) (enough : m ≤ i + fuel) :
    i ≤ scanUp stay items fuel i ∧ scanUp stay items fuel i ≤ m ∧
      (∃ y, items[scanUp stay items fuel i]? = some y ∧ stay y = false) ∧
      ∀ k y, i ≤ k → k < scanUp stay items fuel i → items[k]? = some y → stay y = true := by
  induction fuel generalizing i with
  | zero =>
    obtain rfl : i = m := by omega
    exact ⟨Nat.le_refl i, Nat.le_refl i, ⟨x, there, stops⟩,
      fun k y low high => by simp only [scanUp] at high; omega⟩
  | succ fuel ih =>
    have inside : i < items.size := by
      obtain ⟨bound, _⟩ := Array.getElem?_eq_some_iff.mp there
      omega
    have here : items[i]? = some items[i] := Array.getElem?_eq_getElem inside
    unfold scanUp
    simp only [here]
    split
    next moves =>
      have further : i ≠ m := by
        rintro rfl
        rw [Option.some.inj (here.symm.trans there), stops] at moves
        contradiction
      obtain ⟨low, high, stop, passed⟩ := @ih (i + 1) (by omega) (by omega)
      refine ⟨by omega, high, stop, fun k y from' before found => ?_⟩
      by_cases first : k = i
      · subst first
        rw [← Option.some.inj (here.symm.trans found)]
        exact moves
      · exact passed k y (by omega) before found
    next stays =>
      exact ⟨Nat.le_refl i, ahead, ⟨_, here, by simpa using stays⟩, fun k y low high => by omega⟩

theorem scanDown_spec {j m : Nat} {x : α} (fuel : Nat) (behind : m ≤ j) (bound : j < items.size)
    (there : items[m]? = some x) (stops : stay x = false) (enough : j ≤ m + fuel) :
    m ≤ scanDown stay items fuel j ∧ scanDown stay items fuel j ≤ j ∧
      (∃ y, items[scanDown stay items fuel j]? = some y ∧ stay y = false) ∧
      ∀ k y, scanDown stay items fuel j < k → k ≤ j → items[k]? = some y → stay y = true := by
  induction fuel generalizing j with
  | zero =>
    obtain rfl : j = m := by omega
    exact ⟨Nat.le_refl j, Nat.le_refl j, ⟨x, there, stops⟩,
      fun k y low high => by simp only [scanDown] at low; omega⟩
  | succ fuel ih =>
    have here : items[j]? = some items[j] := Array.getElem?_eq_getElem bound
    unfold scanDown
    simp only [here]
    split
    next moves =>
      have further : j ≠ m := by
        rintro rfl
        rw [Option.some.inj (here.symm.trans there), stops] at moves
        contradiction
      obtain ⟨low, high, stop, passed⟩ := @ih (j - 1) (by omega) (by omega) (by omega)
      refine ⟨low, by omega, stop, fun k y from' before found => ?_⟩
      by_cases last : k = j
      · subst last
        rw [← Option.some.inj (here.symm.trans found)]
        exact moves
      · exact passed k y from' (by omega) found
    next stays =>
      exact ⟨behind, Nat.le_refl j, ⟨_, here, by simpa using stays⟩, fun k y low high => by omega⟩

end Scan

theorem getElem?_swapped {items : Array α} {i j : Nat} {x y : α} (first : items[i]? = some x)
    (second : items[j]? = some y) (k : Nat) :
    (items.swapIfInBounds i j)[k]? = if j = k then some x else if i = k then some y
      else items[k]? := by
  obtain ⟨low, rfl⟩ := Array.getElem?_eq_some_iff.mp first
  obtain ⟨high, rfl⟩ := Array.getElem?_eq_some_iff.mp second
  rw [Array.swapIfInBounds_def, dif_pos low, dif_pos high, Array.getElem?_swap]

theorem swapIfInBounds_perm (items : Array α) (i j : Nat) :
    (items.swapIfInBounds i j).Perm items := by
  unfold Array.swapIfInBounds
  split
  · split
    · exact Array.swap_perm _ _
    · exact .refl _
  · exact .refl _

theorem partition_perm (smaller greater : α → Bool) (fuel i j : Nat) (items : Array α) :
    (partition smaller greater fuel i j items).2.Perm items := by
  induction fuel generalizing i j items with
  | zero => exact .refl _
  | succ fuel ih =>
    simp only [partition]
    split
    · exact .refl _
    · exact (ih _ _ _).trans (swapIfInBounds_perm items _ _)

/-- Before place `i` nothing is greater than the pivot, and after place `j` nothing is smaller. -/
structure Bracketed (smaller greater : α → Bool) (i j : Nat) (items : Array α) : Prop where
  low : ∀ k x, k < i → items[k]? = some x → greater x = false
  high : ∀ k x, j < k → items[k]? = some x → smaller x = false

variable {smaller greater : α → Bool}

theorem Bracketed.swap {i j : Nat} {items : Array α} {x y : α}
    (bracketed : Bracketed smaller greater i j items) (first : items[i]? = some x)
    (second : items[j]? = some y) (apart : i < j) (large : smaller x = false)
    (small : greater y = false) :
    Bracketed smaller greater (i + 1) (j - 1) (items.swapIfInBounds i j) := by
  refine ⟨fun k z before found => ?_, fun k z behind found => ?_⟩
  · rw [getElem?_swapped first second, if_neg (by omega)] at found
    split at found
    · exact Option.some.inj found ▸ small
    · exact bracketed.low k z (by omega) found
  · rw [getElem?_swapped first second] at found
    split at found
    · exact Option.some.inj found ▸ large
    · rw [if_neg (by omega)] at found
      exact bracketed.high k z (by omega) found

theorem Bracketed.scan {i j i' j' : Nat} {items : Array α}
    (bracketed : Bracketed smaller greater i j items)
    (exclusive : ∀ x, smaller x = true → greater x = false)
    (up : ∀ k y, i ≤ k → k < i' → items[k]? = some y → smaller y = true)
    (down : ∀ k y, j' < k → k ≤ j → items[k]? = some y → greater y = true) :
    Bracketed smaller greater i' j' items := by
  refine ⟨fun k x before found => ?_, fun k x behind found => ?_⟩
  · by_cases passed : k < i
    · exact bracketed.low k x passed found
    · exact exclusive x (up k x (by omega) before found)
  · by_cases passed : j < k
    · exact bracketed.high k x passed found
    · have big := down k x behind (by omega) found
      cases less : smaller x with
      | false => rfl
      | true => rw [exclusive x less] at big; contradiction

/-- A partition splits the items at the place it returns. That place lies before `j`, or no further
than the item `m` at which the scan to the right had to stop. -/
theorem partition_spec {i j m n : Nat} {items : Array α} {x y : α} (fuel : Nat)
    (exclusive : ∀ x, smaller x = true → greater x = false) (bound : j < items.size)
    (bracketed : Bracketed smaller greater i j items)
    (ahead : i ≤ m) (right : items[m]? = some x) (large : smaller x = false)
    (behind : n ≤ j) (left : items[n]? = some y) (small : greater y = false)
    (fueled : 0 < fuel) (enough : j + 1 ≤ i + fuel) :
    let split := (partition smaller greater fuel i j items).1
    split ≤ j ∧ (split < j ∨ split ≤ m) ∧
      Bracketed smaller greater (split + 1) split (partition smaller greater fuel i j items).2 := by
  induction fuel generalizing i j m n items x y with
  | zero => contradiction
  | succ fuel ih =>
    have sized : m < items.size := (Array.getElem?_eq_some_iff.mp right).1
    obtain ⟨up, upStop, ⟨x', first, large'⟩, upPassed⟩ :=
      scanUp_spec items.size ahead right large (by omega)
    obtain ⟨downStop, down, ⟨y', second, small'⟩, downPassed⟩ :=
      scanDown_spec items.size behind bound left small (by omega)
    simp only [partition]
    generalize scanUp smaller items items.size i = i' at *
    generalize scanDown greater items items.size j = j' at *
    have scanned := bracketed.scan exclusive upPassed downPassed
    split
    next met =>
      refine ⟨down, .inr (by omega), fun k z before found => ?_, scanned.high⟩
      by_cases earlier : k < i'
      · exact scanned.low k z earlier found
      · obtain rfl : k = j' := by omega
        exact Option.some.inj (second.symm.trans found) ▸ small'
    next crossing =>
      have apart : i' < j' := Nat.lt_of_not_le crossing
      have swapped := getElem?_swapped first second
      obtain ⟨place, _, parts⟩ := @ih (i' + 1) (j' - 1) j' i' (items.swapIfInBounds i' j') x' y'
        (by simp only [Array.size_swapIfInBounds]; omega)
        (scanned.swap first second apart large' small') apart (by simp [swapped]) large' (by omega)
        (by rw [swapped, if_neg (by omega), if_pos rfl]) small' (by omega) (by omega)
      exact ⟨by omega, .inl (by omega), parts⟩

theorem extract_append_extract (items : Array α) (place : Nat) :
    items.extract 0 place ++ items.extract place items.size = items := by
  by_cases inside : place ≤ items.size
  · simp [inside]
  · have outside : items.size ≤ place := by omega
    simp [outside]

theorem place_of_mem_extract {items : Array α} {low high : Nat} {x : α}
    (member : x ∈ items.extract low high) : ∃ k, low ≤ k ∧ k < high ∧ items[k]? = some x := by
  obtain ⟨k, found⟩ := Array.mem_iff_getElem?.mp member
  rw [Array.getElem?_extract] at found
  split at found
  next inside => exact ⟨low + k, by omega, by omega, found⟩
  next => contradiction

theorem quicksort_perm (order : α → α → Ordering) (fuel : Nat) (items : Array α) :
    (quicksort order fuel items).Perm items := by
  induction fuel generalizing items with
  | zero => exact .refl _
  | succ fuel ih =>
    unfold quicksort
    split
    · exact .refl _
    next pivot _ =>
      split
      · exact .refl _
      · refine ((ih _).append (ih _)).trans ?_
        rw [extract_append_extract]
        exact partition_perm _ _ _ _ _ _

structure Preorders (order : α → α → Ordering) (items : Array α) : Prop where
  swap : ∀ a ∈ items, ∀ b ∈ items, order b a = (order a b).swap
  trans : ∀ a ∈ items, ∀ b ∈ items, ∀ c ∈ items, order a b ≠ .gt → order b c ≠ .gt → order a c ≠ .gt

theorem Preorders.mono {order : α → α → Ordering} {items others : Array α}
    (laws : Preorders order items) (within : ∀ a ∈ others, a ∈ items) : Preorders order others where
  swap a first b second := laws.swap a (within a first) b (within b second)
  trans a first b second c third :=
    laws.trans a (within a first) b (within b second) c (within c third)

theorem Preorders.refl {order : α → α → Ordering} {items : Array α} (laws : Preorders order items)
    {a : α} (member : a ∈ items) : order a a = .eq := by
  have same := laws.swap a member a member
  cases place : order a a <;> simp_all

theorem partition_middle {order : α → α → Ordering} {items : Array α} {pivot : α}
    (middle : items[(items.size - 1) / 2]? = some pivot) (several : 2 ≤ items.size)
    (neutral : order pivot pivot = .eq) :
    let parts :=
      partition (order · pivot == .lt) (order · pivot == .gt) items.size 0 (items.size - 1) items
    parts.1 + 1 < items.size ∧
      Bracketed (order · pivot == .lt) (order · pivot == .gt) (parts.1 + 1) parts.1 parts.2 := by
  have outside : Bracketed (order · pivot == .lt) (order · pivot == .gt) 0 (items.size - 1) items :=
    by
    refine ⟨fun k x before => by omega, fun k x behind found => ?_⟩
    have inside := (Array.getElem?_eq_some_iff.mp found).1
    omega
  obtain ⟨_, place, parts⟩ := partition_spec items.size
    (fun x less => by simp only [beq_iff_eq] at less; simp [less]) (by omega) outside
    (Nat.zero_le _) middle (by simp [neutral]) (by omega) middle (by simp [neutral])
      (by omega) (by omega)
  exact ⟨by omega, parts⟩

theorem quicksort_sorted {order : α → α → Ordering} {fuel : Nat} {items : Array α}
    (laws : Preorders order items) (enough : items.size ≤ fuel) :
    (quicksort order fuel items).toList.Pairwise fun a b => order a b ≠ .gt := by
  induction fuel generalizing items with
  | zero =>
    obtain rfl := Array.eq_empty_of_size_eq_zero (Nat.le_zero.mp enough)
    exact List.Pairwise.nil
  | succ fuel ih =>
    unfold quicksort
    split
    next missing =>
      have empty : items.size = 0 := by
        simp only [Array.getElem?_eq_none_iff] at missing
        omega
      rw [Array.eq_empty_of_size_eq_zero empty]
      exact List.Pairwise.nil
    next pivot middle =>
      split
      next short =>
        have single : items.toList.length < 2 := short
        match listed : items.toList, single with
        | [], _ => exact List.Pairwise.nil
        | [_], _ => exact List.pairwise_singleton _ _
      next several =>
        obtain ⟨shorter, bracketed⟩ := partition_middle middle (by omega)
          (laws.refl (Array.mem_of_getElem? middle))
        have same := partition_perm (order · pivot == .lt) (order · pivot == .gt) items.size 0
          (items.size - 1) items
        generalize partition (order · pivot == .lt) (order · pivot == .gt) items.size 0
          (items.size - 1) items = parts at *
        obtain ⟨split, moved⟩ := parts
        have size : moved.size = items.size := same.size_eq
        have part (low high : Nat) : Preorders order (moved.extract low high) := by
          refine laws.mono fun a member => same.mem_iff.mp ?_
          obtain ⟨k, _, _, found⟩ := place_of_mem_extract member
          exact Array.mem_of_getElem? found
        simp only [Array.toList_append, List.pairwise_append]
        refine ⟨ih (part _ _) (by simp only [Array.size_extract]; omega),
          ih (part _ _) (by simp only [Array.size_extract]; omega), fun a low b high => ?_⟩
        obtain ⟨k, _, before, first⟩ :=
          place_of_mem_extract ((quicksort_perm _ _ _).mem_iff.mp (Array.mem_toList_iff.mp low))
        obtain ⟨n, behind, _, second⟩ :=
          place_of_mem_extract ((quicksort_perm _ _ _).mem_iff.mp (Array.mem_toList_iff.mp high))
        have atMost : order a pivot ≠ .gt := by simpa using bracketed.low k a before first
        have atLeast : order b pivot ≠ .lt := by simpa using bracketed.high n b behind second
        have inA : a ∈ items := same.mem_iff.mp (Array.mem_of_getElem? first)
        have inB : b ∈ items := same.mem_iff.mp (Array.mem_of_getElem? second)
        have inPivot : pivot ∈ items := Array.mem_of_getElem? middle
        refine laws.trans a inA pivot inPivot b inB atMost ?_
        rw [laws.swap b inB pivot inPivot]
        cases place : order b pivot <;> simp_all

/-- Among items of which no two are equal, a transitive `less` is enough. -/
theorem preorders_of_apart {order : α → α → Ordering} {items : Array α}
    (swap : ∀ a ∈ items, ∀ b ∈ items, order b a = (order a b).swap)
    (trans : ∀ a ∈ items, ∀ b ∈ items, ∀ c ∈ items, order a b = .lt → order b c = .lt →
      order a c = .lt)
    (apart : ∀ a ∈ items, ∀ b ∈ items, order a b = .eq → a = b) : Preorders order items where
  swap := swap
  trans a inA b inB c inC first second := by
    cases left : order a b with
    | gt => exact absurd left first
    | eq =>
      obtain rfl := apart a inA b inB left
      exact second
    | lt =>
      cases right : order b c with
      | gt => exact absurd right second
      | eq =>
        obtain rfl := apart b inB c inC right
        exact first
      | lt => simp [trans a inA b inB c inC left right]

section Hidden

variable {equal : α → α → Bool}

def keep (equal : α → α → Bool) (kept : Array α) (item : α) : Array α :=
  if kept.any (equal · item) then kept else kept.push item

theorem dropHidden_eq_foldl (items : List α) :
    dropHidden equal items = items.foldl (keep equal) #[] :=
  rfl

theorem foldl_keep_sublist (items : List α) (kept : Array α) :
    ∃ more, (items.foldl (keep equal) kept).toList = kept.toList ++ more ∧ more.Sublist items := by
  induction items generalizing kept with
  | nil => exact ⟨[], by simp, List.Sublist.refl _⟩
  | cons item items ih =>
    obtain ⟨more, listed, sub⟩ := ih (keep equal kept item)
    rw [List.foldl_cons, listed, keep]
    split
    · exact ⟨more, rfl, sub.cons item⟩
    · exact ⟨item :: more, by simp, sub.cons_cons item⟩

theorem dropHidden_sublist (items : List α) : (dropHidden equal items).toList.Sublist items := by
  obtain ⟨more, listed, sub⟩ := @foldl_keep_sublist _ equal items #[]
  rw [dropHidden_eq_foldl, listed]
  exact sub

theorem mem_keep_of_mem {kept : Array α} {x : α} (member : x ∈ kept) (items : List α) :
    x ∈ items.foldl (keep equal) kept := by
  obtain ⟨more, listed, _⟩ := @foldl_keep_sublist _ equal items kept
  rw [← Array.mem_toList_iff, listed, List.mem_append, Array.mem_toList_iff]
  exact .inl member

theorem dropHidden_pairwise (items : List α) :
    (dropHidden equal items).toList.Pairwise fun a b => equal a b = false := by
  suffices ∀ kept : Array α, kept.toList.Pairwise (fun a b => equal a b = false) →
      (items.foldl (keep equal) kept).toList.Pairwise fun a b => equal a b = false from
    this #[] List.Pairwise.nil
  induction items with
  | nil => exact fun kept apart => apart
  | cons item items ih =>
    intro kept apart
    apply ih
    unfold keep
    split
    · exact apart
    next unhidden =>
      simp only [Array.toList_push, List.pairwise_append, List.pairwise_singleton,
        List.mem_singleton, true_and]
      refine ⟨apart, fun a member b same => ?_⟩
      subst same
      refine Bool.eq_false_iff.mpr fun hides => unhidden ?_
      exact Array.any_eq_true'.mpr ⟨a, Array.mem_toList_iff.mp member, hides⟩

theorem mem_dropHidden_or (before after : List α) (x : α) :
    x ∈ dropHidden equal (before ++ x :: after) ∨
      ∃ y ∈ before, y ∈ dropHidden equal (before ++ x :: after) ∧ equal y x = true := by
  simp only [dropHidden_eq_foldl, List.foldl_append, List.foldl_cons]
  by_cases hidden : (before.foldl (keep equal) #[]).any (equal · x) = true
  · obtain ⟨y, member, hides⟩ := Array.any_eq_true'.mp hidden
    have earlier : y ∈ before := (dropHidden_sublist before).mem (Array.mem_toList_iff.mpr member)
    refine .inr ⟨y, earlier, ?_, hides⟩
    rw [keep, if_pos hidden]
    exact mem_keep_of_mem member after
  · refine .inl (mem_keep_of_mem ?_ after)
    rw [keep, if_neg hidden]
    exact Array.mem_push_self

theorem quicksort_dropHidden_ascending {order : α → α → Ordering} {items : List α}
    (equals : ∀ a ∈ items, ∀ b ∈ items, equal a b = (order a b == .eq))
    (swap : ∀ a ∈ items, ∀ b ∈ items, order b a = (order a b).swap)
    (trans : ∀ a ∈ items, ∀ b ∈ items, ∀ c ∈ items, order a b = .lt → order b c = .lt →
      order a c = .lt) :
    (quicksort order (dropHidden equal items).size (dropHidden equal items)).toList.Pairwise
      fun a b => order a b = .lt := by
  have listed : ∀ a ∈ dropHidden equal items, a ∈ items := fun a member =>
    (dropHidden_sublist items).mem (Array.mem_toList_iff.mpr member)
  have distinct : (dropHidden equal items).toList.Pairwise fun a b =>
      a ∈ items ∧ b ∈ items ∧ order a b ≠ .eq := by
    refine (List.Pairwise.and_mem.mp (dropHidden_pairwise items)).imp ?_
    rintro a b ⟨inA, inB, unequal⟩
    have inA := listed a (Array.mem_toList_iff.mp inA)
    have inB := listed b (Array.mem_toList_iff.mp inB)
    exact ⟨inA, inB, by simpa [equals a inA b inB] using unequal⟩
  have symmetric : ∀ {a b : α}, a ∈ items ∧ b ∈ items ∧ order a b ≠ .eq → b ∈ items ∧ a ∈ items ∧
      order b a ≠ .eq := by
    rintro a b ⟨inA, inB, unequal⟩
    refine ⟨inB, inA, ?_⟩
    rw [swap a inA b inB]
    cases place : order a b with
    | eq => exact absurd place unequal
    | _ => simp
  have apart : ∀ a ∈ dropHidden equal items, ∀ b ∈ dropHidden equal items, order a b = .eq →
      a = b := by
    have either : (dropHidden equal items).toList.Pairwise fun a b => order a b = .eq → a = b :=
      distinct.imp fun ⟨_, _, unequal⟩ same => absurd same unequal
    have flipped :
        (dropHidden equal items).toList.Pairwise (flip fun a b => order a b = .eq → a = b) :=
      distinct.imp fun unequal same => absurd same (symmetric unequal).2.2
    intro a inA b inB
    exact either.forall_of_forall_of_flip (fun _ _ _ => rfl) flipped (Array.mem_toList_iff.mpr inA)
      (Array.mem_toList_iff.mpr inB)
  have laws : Preorders order (dropHidden equal items) :=
    preorders_of_apart (fun a inA b inB => swap a (listed a inA) b (listed b inB))
      (fun a inA b inB c inC => trans a (listed a inA) b (listed b inB) c (listed c inC)) apart
  have sorted := quicksort_sorted laws (Nat.le_refl _)
  have unequal :=
    ((quicksort_perm order (dropHidden equal items).size
    (dropHidden equal items)).toList.pairwise_iff symmetric).mpr distinct
  refine (List.pairwise_and_iff.mpr ⟨sorted, unequal⟩).imp ?_
  rintro a b ⟨atMost, _, _, differ⟩
  cases place : order a b with
  | lt => rfl
  | eq => exact absurd place differ
  | gt => exact absurd place atMost

end Hidden

end StackMachine.Sorting
