import StackMachine.Proofs.Linking
import StackMachine.Proofs.TableSorting

/-! Sorting as it is carried out in place, on a column of keys beside a column of targets. A run is
a derivation: it has no rule for a place outside a column, for a key without a constant or for a
step below the first place, and it is finite. So a run that exists neither fails nor goes on
forever, and since a run has one result, every table has exactly the run that ends in its sorted
form. -/

namespace StackMachine

namespace Store

/-- The order by which tables are sorted. A pair without an order counts as equal. -/
def sortOrder (s : Store) (v w : Value) : Ordering :=
  (s.order? v w).getD .eq

theorem sortOrder_self (s : Store) (v : Value) : s.sortOrder v v = .eq := by
  unfold sortOrder
  cases read : s.scalar? v with
  | none => simp [order?, compare, read]
  | some a =>
    rw [order?_scalar read read, Scalar.compare?_eq, Scalar.sameKindOrder_self, if_pos rfl]
    cases a.ordered <;> rfl

end Store

namespace SwitchTable

/-- Two look-ups, both in range: the key at a place, and the constant it stands for. -/
def Reads (constants : Array Value) (keys : Array UInt16) (i : Nat) (v : Value) : Prop :=
  ∃ key, keys[i]? = some key ∧ constants[key.toNat]? = some v

theorem Reads.unique {constants : Array Value} {keys : Array UInt16} {i : Nat} {v w : Value}
    (first : Reads constants keys i v) (second : Reads constants keys i w) : v = w := by
  obtain ⟨key, there, found⟩ := first
  obtain ⟨key', there', found'⟩ := second
  obtain rfl := Option.some.inj (there.symm.trans there')
  exact Option.some.inj (found.symm.trans found')

def tableOrder (s : Store) (constants : Array Value) (x y : SwitchCase) : Ordering :=
  s.sortOrder (keyValue constants x) (keyValue constants y)

theorem tableOrder_self (s : Store) (constants : Array Value) (x : SwitchCase) :
    tableOrder s constants x x = .eq :=
  s.sortOrder_self _

end SwitchTable

namespace Sorting

variable {α : Type} {smaller greater : α → Bool} {items : Array α} {i j : Nat}

/-- Both scans have an item ahead at which they stop. -/
structure Guarded (smaller greater : α → Bool) (i j : Nat) (items : Array α) : Prop where
  bound : j < items.size
  right : ∃ m x, i ≤ m ∧ items[m]? = some x ∧ smaller x = false
  left : ∃ n y, n ≤ j ∧ items[n]? = some y ∧ greater y = false

theorem Guarded.right_stops (guarded : Guarded smaller greater i j items) :
    let k := scanUp smaller items items.size i
    i ≤ k ∧ (∃ x, items[k]? = some x ∧ smaller x = false) ∧
      ∀ n y, i ≤ n → n < k → items[n]? = some y → smaller y = true := by
  obtain ⟨m, x, ahead, there, large⟩ := guarded.right
  have inside : m < items.size := (Array.getElem?_eq_some_iff.mp there).1
  obtain ⟨low, _, stop, passed⟩ := scanUp_spec items.size ahead there large (by omega)
  exact ⟨low, stop, passed⟩

theorem Guarded.left_stops (guarded : Guarded smaller greater i j items) :
    let k := scanDown greater items items.size j
    k ≤ j ∧ (∃ y, items[k]? = some y ∧ greater y = false) ∧
      ∀ n y, k < n → n ≤ j → items[n]? = some y → greater y = true := by
  obtain ⟨m, x, behind, there, small⟩ := guarded.left
  have bound := guarded.bound
  obtain ⟨_, high, stop, passed⟩ := scanDown_spec items.size behind bound there small (by omega)
  exact ⟨high, stop, passed⟩

theorem Guarded.swap {x y : α} {i' j' : Nat} (bound : j' < items.size) (first : items[i']? = some x)
    (second : items[j']? = some y) (large : smaller x = false) (small : greater y = false)
    (apart : i' < j') : Guarded smaller greater (i' + 1) (j' - 1) (items.swapIfInBounds i' j') where
  bound := by
    simp only [Array.size_swapIfInBounds]
    omega
  right := ⟨j', x, apart, by simp [getElem?_swapped first second], large⟩
  left :=
    ⟨i', y, by omega, by rw [getElem?_swapped first second, if_neg (by omega), if_pos rfl], small⟩

end Sorting

structure Columns where
  keys : Array UInt16
  targets : Array UInt32

namespace Columns

def ofRows (rows : Array SwitchCase) : Columns :=
  ⟨rows.map (·.1), rows.map (·.2)⟩

def rows (c : Columns) : Array SwitchCase :=
  c.keys.zip c.targets

def take (c : Columns) (n : Nat) : Columns :=
  ⟨c.keys.extract 0 n, c.targets.extract 0 n⟩

def drop (c : Columns) (n : Nat) : Columns :=
  ⟨c.keys.extract n c.keys.size, c.targets.extract n c.targets.size⟩

def append (c d : Columns) : Columns :=
  ⟨c.keys ++ d.keys, c.targets ++ d.targets⟩

def At (c : Columns) (i : Nat) (x : SwitchCase) : Prop :=
  c.keys[i]? = some x.1 ∧ c.targets[i]? = some x.2

def Lists (c : Columns) (i : Nat) (cases : List SwitchCase) : Prop :=
  ∀ k x, cases[k]? = some x → c.At (i + k) x

def Swaps (c : Columns) (i j : Nat) (d : Columns) : Prop :=
  ∃ (iKey : i < c.keys.size) (jKey : j < c.keys.size) (iTarget : i < c.targets.size)
    (jTarget : j < c.targets.size),
    d = ⟨c.keys.swap i j iKey jKey, c.targets.swap i j iTarget jTarget⟩

def Moves (c : Columns) (i k : Nat) (d : Columns) : Prop :=
  ∃ (x : SwitchCase) (key : k < c.keys.size) (target : k < c.targets.size),
    c.At i x ∧ d = ⟨c.keys.set k x.1 key, c.targets.set k x.2 target⟩

def rightOf (i : Nat) : Option Nat :=
  some (i + 1)

def leftOf : Nat → Option Nat
  | 0 => none
  | i + 1 => some i

section Runs

open SwitchTable

variable (s : Store) (constants : Array Value)

inductive Scans (pivot : Value) (keys : Array UInt16) (passing : Ordering)
    (next : Nat → Option Nat) : Nat → Nat → Prop
  | stop {i : Nat} {v : Value} (read : Reads constants keys i v)
    (stays : s.sortOrder v pivot ≠ passing) : Scans pivot keys passing next i i
  | move {i j k : Nat} {v : Value} (read : Reads constants keys i v)
    (passes : s.sortOrder v pivot = passing) (further : next i = some j)
    (rest : Scans pivot keys passing next j k) : Scans pivot keys passing next i k

inductive Partitions (pivot : Value) : Nat → Nat → Columns → Nat → Columns → Prop
  | meet {i j i' j' : Nat} {c : Columns} (up : Scans s constants pivot c.keys .lt rightOf i i')
    (down : Scans s constants pivot c.keys .gt leftOf j j') (met : j' ≤ i') :
    Partitions pivot i j c j' c
  | swap {i j i' j' left split : Nat} {c d e : Columns}
    (up : Scans s constants pivot c.keys .lt rightOf i i')
    (down : Scans s constants pivot c.keys .gt leftOf j j') (apart : i' < j')
    (swapped : c.Swaps i' j' d) (back : leftOf j' = some left)
    (rest : Partitions pivot (i' + 1) left d split e) : Partitions pivot i j c split e

/-- A partition around the middle key. Of no keys there is no last one. -/
def Splits (c : Columns) (split : Nat) (d : Columns) : Prop :=
  ∃ last pivot, leftOf c.keys.size = some last ∧ Reads constants c.keys (last / 2) pivot ∧
    Partitions s constants pivot 0 last c split d

/-- Both columns are cut behind the place where a partition splits them, and both parts are
sorted. -/
inductive Quicksorts : Columns → Columns → Prop
  | short {c : Columns} (few : c.keys.size < 2) : Quicksorts c c
  | halve {c d low high : Columns} {split : Nat} (several : 2 ≤ c.keys.size)
    (parts : Splits s constants c split d) (inKeys : split + 1 ≤ d.keys.size)
    (inTargets : split + 1 ≤ d.targets.size) (first : Quicksorts (d.take (split + 1)) low)
    (second : Quicksorts (d.drop (split + 1)) high) : Quicksorts c (low.append high)

def Hides (keys : Array UInt16) (kept : Nat) (v : Value) : Prop :=
  ∃ k w, k < kept ∧ Reads constants keys k w ∧ s.compare w v = .ok (some .eq)

/-- The first `len` cases are looked at one by one, and those that no kept one hides are moved to
the front. -/
inductive Drops (len : Nat) : Nat → Nat → Columns → Columns → Prop
  | done {kept : Nat} {c : Columns} : Drops len len kept c (c.take kept)
  | hide {i kept : Nat} {c d : Columns} {v : Value} (inside : i < len)
    (read : Reads constants c.keys i v) (earlier : ∀ k < kept, ∃ w, Reads constants c.keys k w)
    (hidden : Hides s constants c.keys kept v) (rest : Drops len (i + 1) kept c d) :
    Drops len i kept c d
  | keep {i kept : Nat} {c d e : Columns} {v : Value} (inside : i < len)
    (read : Reads constants c.keys i v) (earlier : ∀ k < kept, ∃ w, Reads constants c.keys k w)
    (shown : ¬ Hides s constants c.keys kept v) (moved : c.Moves i kept d)
    (rest : Drops len (i + 1) (kept + 1) d e) : Drops len i kept c e

end Runs

section Unique

variable {s : Store} {constants : Array Value}

theorem Scans.unique {pivot : Value} {keys : Array UInt16} {passing : Ordering}
    {next : Nat → Option Nat} {i k k' : Nat} (first : Scans s constants pivot keys passing next i k)
    (second : Scans s constants pivot keys passing next i k') : k = k' := by
  induction first with
  | stop read stays =>
    cases second with
    | stop => rfl
    | move read' passes => exact absurd (read.unique read' ▸ passes) stays
  | move read passes further rest ih =>
    cases second with
    | stop read' stays => exact absurd (read.unique read' ▸ passes) stays
    | move read' _ further' rest' =>
      obtain rfl := Option.some.inj (further.symm.trans further')
      exact ih rest'

theorem Partitions.unique {pivot : Value} {i j split split' : Nat} {c d d' : Columns}
    (first : Partitions s constants pivot i j c split d)
    (second : Partitions s constants pivot i j c split' d') : split = split' ∧ d = d' := by
  induction first with
  | meet up down met =>
    cases second with
    | meet _ down' => exact ⟨down.unique down', rfl⟩
    | swap up' down' apart =>
      obtain rfl := up.unique up'
      obtain rfl := down.unique down'
      omega
  | swap up down apart swapped back rest ih =>
    cases second with
    | meet up' down' met =>
      obtain rfl := up.unique up'
      obtain rfl := down.unique down'
      omega
    | swap up' down' _ swapped' back' rest' =>
      obtain rfl := up.unique up'
      obtain rfl := down.unique down'
      obtain rfl := Option.some.inj (back.symm.trans back')
      obtain ⟨_, _, _, _, rfl⟩ := swapped
      obtain ⟨_, _, _, _, rfl⟩ := swapped'
      exact ih rest'

theorem Splits.unique {c d d' : Columns} {split split' : Nat} (first : Splits s constants c split d)
    (second : Splits s constants c split' d') : split = split' ∧ d = d' := by
  obtain ⟨last, pivot, sized, read, run⟩ := first
  obtain ⟨last', pivot', sized', read', run'⟩ := second
  obtain rfl := Option.some.inj (sized.symm.trans sized')
  obtain rfl := read.unique read'
  exact run.unique run'

theorem Quicksorts.unique {c d d' : Columns} (first : Quicksorts s constants c d)
    (second : Quicksorts s constants c d') : d = d' := by
  induction first generalizing d' with
  | short few =>
    cases second with
    | short => rfl
    | halve several => omega
  | halve several parts _ _ _ _ ihLow ihHigh =>
    cases second with
    | short few => omega
    | halve _ parts' _ _ low' high' =>
      obtain ⟨rfl, rfl⟩ := parts.unique parts'
      rw [ihLow low', ihHigh high']

theorem Drops.unique {len i kept : Nat} {c d d' : Columns}
    (first : Drops s constants len i kept c d) (second : Drops s constants len i kept c d') :
    d = d' := by
  induction first with
  | done =>
    cases second with
    | done => rfl
    | hide inside => omega
    | keep inside => omega
  | hide inside read _ hidden _ ih =>
    cases second with
    | done => omega
    | hide _ _ _ _ rest' => exact ih rest'
    | keep _ read' _ shown => exact absurd (read.unique read' ▸ hidden) shown
  | keep inside read _ shown moved _ ih =>
    cases second with
    | done => omega
    | hide _ read' _ hidden => exact absurd (read.unique read' ▸ hidden) shown
    | keep _ _ _ _ moved' rest' =>
      obtain ⟨x, _, _, ⟨key, target⟩, rfl⟩ := moved
      obtain ⟨x', _, _, ⟨key', target'⟩, rfl⟩ := moved'
      obtain rfl : x = x' :=
        Prod.ext (Option.some.inj (key.symm.trans key'))
          (Option.some.inj (target.symm.trans target'))
      exact ih rest'

end Unique

section Rows

variable {rows others : Array SwitchCase} {c d : Columns}

theorem ofRows_rows (paired : c.keys.size = c.targets.size) : ofRows c.rows = c := by
  simp only [ofRows, rows]
  rw [Array.map_fst_zip (Nat.le_of_eq paired), Array.map_snd_zip (Nat.le_of_eq paired.symm)]

theorem rows_ofRows (rows : Array SwitchCase) : (ofRows rows).rows = rows := by
  apply Array.toList_inj.mp
  rw [Columns.rows, Array.toList_zip]
  exact SwitchTable.cases_of_maps rows 0

theorem keys_size (rows : Array SwitchCase) : (ofRows rows).keys.size = rows.size :=
  Array.size_map

theorem targets_size (rows : Array SwitchCase) : (ofRows rows).targets.size = rows.size :=
  Array.size_map

theorem at_ofRows {i : Nat} {x : SwitchCase} (there : rows[i]? = some x) :
    (ofRows rows).At i x := by
  simp [At, ofRows, there]

theorem take_ofRows (n : Nat) : (ofRows rows).take n = ofRows (rows.extract 0 n) := by
  simp [take, ofRows]

theorem drop_ofRows (n : Nat) : (ofRows rows).drop n = ofRows (rows.extract n rows.size) := by
  simp [drop, ofRows]

theorem append_ofRows : (ofRows rows).append (ofRows others) = ofRows (rows ++ others) := by
  simp [append, ofRows]

theorem swaps_ofRows {i j : Nat} (left : i < rows.size) (right : j < rows.size) :
    (ofRows rows).Swaps i j (ofRows (rows.swapIfInBounds i j)) := by
  refine ⟨by simpa [keys_size], by simpa [keys_size], by simpa [targets_size],
    by simpa [targets_size], ?_⟩
  simp only [ofRows, mk.injEq]
  constructor <;>
  · apply Array.ext_getElem?
    intro k
    rw [Array.getElem?_map, Sorting.getElem?_swapped (Array.getElem?_eq_getElem left)
      (Array.getElem?_eq_getElem right), Array.getElem?_swap]
    split
    · simp
    · split <;> simp

theorem at_set {k n : Nat} {x y : SwitchCase} (key : k < c.keys.size)
    (target : k < c.targets.size) :
    At ⟨c.keys.set k x.1 key, c.targets.set k x.2 target⟩ n y ↔ if k = n then x = y
      else c.At n y := by
  simp only [At, Array.getElem?_set]
  split
  · simp only [Option.some.injEq, Prod.ext_iff]
  · rfl

section Lists

variable {i : Nat} {x : SwitchCase} {rest : List SwitchCase}

theorem Lists.head (lists : c.Lists i (x :: rest)) : c.At i x :=
  lists 0 x rfl

theorem Lists.tail (lists : c.Lists i (x :: rest)) : c.Lists (i + 1) rest := by
  intro k y there
  rw [Nat.add_assoc, Nat.add_comm 1 k]
  exact lists (k + 1) y there

theorem at_cases {t : SwitchTable} (there : t.cases[i]? = some x) : At ⟨t.keys, t.targets⟩ i x := by
  simpa [At] using List.getElem?_zip_eq_some.mp there

theorem lists_cases (t : SwitchTable) : Lists ⟨t.keys, t.targets⟩ 0 t.cases := by
  intro k x there
  rw [Nat.zero_add]
  exact at_cases there

end Lists

theorem take_of_front (front : ∀ k x, rows[k]? = some x → c.At k x) :
    c.take rows.size = ofRows rows := by
  have column {α : Type} (items : Array α) (part : SwitchCase → α)
      (same : ∀ (k : Nat) x, rows[k]? = some x → items[k]? = some (part x)) :
      items.extract 0 rows.size = rows.map part := by
    apply Array.ext_getElem?
    intro k
    rw [Array.getElem?_extract, Array.getElem?_map, Nat.zero_add]
    by_cases inside : k < rows.size
    · have there := same k _ (Array.getElem?_eq_getElem inside)
      have bound := (Array.getElem?_eq_some_iff.mp there).1
      rw [if_pos (by omega), there, Array.getElem?_eq_getElem inside, Option.map_some]
    · rw [if_neg (by omega), Array.getElem?_eq_none (by omega), Option.map_none]
  rw [take, ofRows, column _ _ fun k x there => (front k x there).1,
    column _ _ fun k x there => (front k x there).2]

end Rows

section Exist

open SwitchTable Sorting

variable {s : Store} {constants : Array Value} {rows : Array SwitchCase} {pivot : SwitchCase}

def Resolved (constants : Array Value) (rows : Array SwitchCase) : Prop :=
  ∀ x ∈ rows, x.1.toNat < constants.size

theorem reads_of_at {c : Columns} {i : Nat} {x : SwitchCase} (there : c.At i x)
    (resolved : x.1.toNat < constants.size) :
    Reads constants c.keys i (keyValue constants x) := by
  refine ⟨x.1, there.1, ?_⟩
  simp [keyValue, resolved]

theorem reads_row {i : Nat} {x : SwitchCase} (resolved : Resolved constants rows)
    (there : rows[i]? = some x) : Reads constants (ofRows rows).keys i (keyValue constants x) :=
  reads_of_at (at_ofRows there) (resolved x (Array.mem_of_getElem? there))

theorem scans_right {i k : Nat} (resolved : Resolved constants rows) (ahead : i ≤ k)
    (stop : ∃ y, rows[k]? = some y ∧ (tableOrder s constants y pivot == .lt) = false)
    (passed : ∀ n y, i ≤ n → n < k → rows[n]? = some y →
      (tableOrder s constants y pivot == .lt) = true) :
    Scans s constants (keyValue constants pivot) (ofRows rows).keys .lt rightOf i k := by
  obtain ⟨y, there, stays⟩ := stop
  obtain ⟨distance, rfl⟩ := Nat.exists_eq_add_of_le ahead
  induction distance generalizing i with
  | zero => exact .stop (reads_row resolved there) (by simpa [tableOrder] using stays)
  | succ distance ih =>
    have inside : i < rows.size := by
      have bound := (Array.getElem?_eq_some_iff.mp there).1
      omega
    have here := Array.getElem?_eq_getElem inside
    have passes := passed i _ (Nat.le_refl i) (by omega) here
    refine .move (reads_row resolved here) (by simpa [tableOrder] using passes) rfl ?_
    have rest := @ih (i + 1) (by omega) (fun n y low high => passed n y (by omega) (by omega))
      (by rw [Nat.add_right_comm]; exact there)
    rwa [Nat.add_right_comm] at rest

theorem scans_left {j k : Nat} (resolved : Resolved constants rows) (behind : k ≤ j)
    (bound : j < rows.size)
    (stop : ∃ y, rows[k]? = some y ∧ (tableOrder s constants y pivot == .gt) = false)
    (passed : ∀ n y, k < n → n ≤ j → rows[n]? = some y →
      (tableOrder s constants y pivot == .gt) = true) :
    Scans s constants (keyValue constants pivot) (ofRows rows).keys .gt leftOf j k := by
  obtain ⟨y, there, stays⟩ := stop
  obtain ⟨distance, rfl⟩ := Nat.exists_eq_add_of_le behind
  induction distance with
  | zero => exact .stop (reads_row resolved there) (by simpa [tableOrder] using stays)
  | succ distance ih =>
    have here := Array.getElem?_eq_getElem bound
    have passes := passed _ _ (by omega) (Nat.le_refl _) here
    refine .move (reads_row resolved here) (by simpa [tableOrder] using passes) rfl ?_
    exact ih (by omega) (by omega) fun n y low high => passed n y low (by omega)

theorem partitions_ofRows {i j : Nat} (fuel : Nat) (resolved : Resolved constants rows)
    (guarded : Guarded (tableOrder s constants · pivot == .lt)
      (tableOrder s constants · pivot == .gt) i j rows)
    (fueled : 0 < fuel) (enough : j + 1 ≤ i + fuel) :
    let parts :=
      partition (tableOrder s constants · pivot == .lt)
        (tableOrder s constants · pivot == .gt) fuel i j rows
    Partitions s constants (keyValue constants pivot) i j (ofRows rows) parts.1
      (ofRows parts.2) := by
  induction fuel generalizing i j rows with
  | zero => contradiction
  | succ fuel ih =>
    have bound := guarded.bound
    obtain ⟨up, ⟨x, first, large⟩, upPassed⟩ := guarded.right_stops
    obtain ⟨down, ⟨y, second, small⟩, downPassed⟩ := guarded.left_stops
    have rises := scans_right resolved up ⟨x, first, large⟩ upPassed
    have falls := scans_left resolved down bound ⟨y, second, small⟩ downPassed
    simp only [partition]
    generalize scanUp (tableOrder s constants · pivot == .lt) rows rows.size i = i' at *
    generalize scanDown (tableOrder s constants · pivot == .gt) rows rows.size j = j' at *
    split
    next met => exact .meet rises falls met
    next crossing =>
      have apart : i' < j' := Nat.lt_of_not_le crossing
      have kept : Resolved constants (rows.swapIfInBounds i' j') := fun z member =>
        resolved z ((swapIfInBounds_perm rows i' j').mem_iff.mp member)
      refine .swap rises falls apart (swaps_ofRows (by omega) (by omega)) ?_
        (ih kept (.swap (by omega) first second large small apart) (by omega) (by omega))
      obtain ⟨before, rfl⟩ := Nat.exists_eq_add_of_lt apart
      rfl

theorem splits_ofRows (resolved : Resolved constants rows) (several : 2 ≤ rows.size)
    (middle : rows[(rows.size - 1) / 2]? = some pivot) :
    let parts :=
      partition (tableOrder s constants · pivot == .lt) (tableOrder s constants · pivot == .gt)
        rows.size 0 (rows.size - 1) rows
    Splits s constants (ofRows rows) parts.1 (ofRows parts.2) := by
  have neutral := tableOrder_self s constants pivot
  have guarded : Guarded (tableOrder s constants · pivot == .lt)
    (tableOrder s constants · pivot == .gt) 0 (rows.size - 1) rows :=
    { bound := by omega
      right := ⟨_, pivot, Nat.zero_le _, middle, by simp [neutral]⟩
      left := ⟨_, pivot, by omega, middle, by simp [neutral]⟩ }
  refine ⟨rows.size - 1, keyValue constants pivot, ?_, reads_row resolved middle,
    partitions_ofRows _ resolved guarded (by omega) (by omega)⟩
  rw [keys_size]
  obtain ⟨more, size⟩ := Nat.exists_eq_add_of_le' several
  rw [size]
  rfl

theorem quicksorts_ofRows (fuel : Nat) (resolved : Resolved constants rows)
    (enough : rows.size ≤ fuel) :
    Quicksorts s constants (ofRows rows)
      (ofRows (quicksort (tableOrder s constants) fuel rows)) := by
  induction fuel generalizing rows with
  | zero => exact .short (by rw [keys_size]; omega)
  | succ fuel ih =>
    unfold quicksort
    split
    next missing =>
      refine .short ?_
      rw [Array.getElem?_eq_none_iff] at missing
      rw [keys_size]
      omega
    next pivot middle =>
      split
      next few => exact .short (by rwa [keys_size])
      next several =>
        have parts := splits_ofRows (s := s) resolved (by omega) middle
        obtain ⟨shorter, _⟩ :=
          partition_middle middle (by omega) (tableOrder_self s constants pivot)
        have same := partition_perm (tableOrder s constants · pivot == .lt)
          (tableOrder s constants · pivot == .gt) rows.size 0 (rows.size - 1) rows
        generalize partition (tableOrder s constants · pivot == .lt)
          (tableOrder s constants · pivot == .gt) rows.size 0 (rows.size - 1) rows = result at *
        obtain ⟨split, moved⟩ := result
        dsimp only at parts shorter same ⊢
        have size : moved.size = rows.size := same.size_eq
        have part (low high : Nat) : Resolved constants (moved.extract low high) := by
          intro x member
          obtain ⟨k, _, _, found⟩ := place_of_mem_extract member
          exact resolved x (same.mem_iff.mp (Array.mem_of_getElem? found))
        rw [← append_ofRows]
        refine .halve (by rw [keys_size]; omega) parts (by rw [keys_size]; omega)
          (by rw [targets_size]; omega) ?_ ?_
        · rw [take_ofRows]
          exact ih (part _ _) (by rw [Array.size_extract]; omega)
        · rw [drop_ofRows]
          exact ih (part _ _) (by rw [Array.size_extract]; omega)

section Dropping

variable {kept : Array SwitchCase} {c : Columns} {x : SwitchCase}

theorem hides_iff (front : ∀ k y, kept[k]? = some y → c.At k y)
    (resolved : Resolved constants kept) :
    Hides s constants c.keys kept.size (keyValue constants x) ↔
      kept.any (fun y => caseOrder? s constants y x == some .eq) = true := by
  have read {k : Nat} {y : SwitchCase} (there : kept[k]? = some y) :
      Reads constants c.keys k (keyValue constants y) :=
    reads_of_at (front k y there) (resolved y (Array.mem_of_getElem? there))
  simp only [Array.any_eq_true', beq_iff_eq, caseOrder?_eq_some_iff]
  constructor
  · rintro ⟨k, w, inside, found, equal⟩
    have there := Array.getElem?_eq_getElem inside
    obtain rfl := found.unique (read there)
    exact ⟨kept[k], Array.getElem_mem inside, equal⟩
  · rintro ⟨y, member, equal⟩
    obtain ⟨k, there⟩ := Array.mem_iff_getElem?.mp member
    exact ⟨k, _, (Array.getElem?_eq_some_iff.mp there).1, read there, equal⟩

/-- Halfway through dropping: the cases that were kept stand in front, and from place `i` on nothing
was touched. -/
structure Halfway (c : Columns) (kept : Array SwitchCase) (i : Nat) (rest : List SwitchCase) :
    Prop where
  behind : kept.size ≤ i
  front : ∀ k y, kept[k]? = some y → c.At k y
  back : c.Lists i rest

variable {i : Nat} {rest : List SwitchCase}

theorem Halfway.pass (halfway : Halfway c kept i (x :: rest)) : Halfway c kept (i + 1) rest where
  behind := Nat.le_succ_of_le halfway.behind
  front := halfway.front
  back := halfway.back.tail

theorem Halfway.move (halfway : Halfway c kept i (x :: rest)) :
    ∃ d, c.Moves i kept.size d ∧ Halfway d (kept.push x) (i + 1) rest := by
  obtain ⟨behind, front, back⟩ := halfway
  have inKeys : i < c.keys.size := (Array.getElem?_eq_some_iff.mp back.head.1).1
  have inTargets : i < c.targets.size := (Array.getElem?_eq_some_iff.mp back.head.2).1
  refine ⟨_, ⟨x, by omega, by omega, back.head, rfl⟩, ?_, fun k y there => ?_, fun k y there => ?_⟩
  · rw [Array.size_push]
    omega
  · rw [at_set]
    split
    next last => simpa [← last] using there
    next other =>
      rw [Array.getElem?_push, if_neg (Ne.symm other)] at there
      exact front k y there
  · rw [at_set, if_neg (by omega)]
    exact back.tail k y there

theorem drops_ofRows {len : Nat} (span : i + rest.length = len) (halfway : Halfway c kept i rest)
    (known : Resolved constants kept) (resolved : ∀ y ∈ rest, y.1.toNat < constants.size) :
    Drops s constants len i kept.size c
      (ofRows (rest.foldl (keep fun y z => caseOrder? s constants y z == some .eq) kept)) := by
  induction rest generalizing i kept c with
  | nil =>
    obtain rfl : i = len := by simpa using span
    rw [List.foldl_nil, ← take_of_front halfway.front]
    exact .done
  | cons x rest ih =>
    rw [List.length_cons] at span
    obtain ⟨first, others⟩ := List.forall_mem_cons.mp resolved
    have read := reads_of_at halfway.back.head first
    have earlier : ∀ k < kept.size, ∃ w, Reads constants c.keys k w := fun k inside =>
      ⟨_, reads_of_at (halfway.front k _ (Array.getElem?_eq_getElem inside))
        (known _ (Array.getElem_mem inside))⟩
    have hides := @hides_iff s constants kept c x halfway.front known
    rw [List.foldl_cons, keep]
    split
    next hidden =>
      exact .hide (by omega) read earlier (hides.mpr hidden)
        (ih (by omega) halfway.pass known others)
    next shown =>
      obtain ⟨d, moved, further⟩ := halfway.move
      have more : Resolved constants (kept.push x) := by
        intro y member
        rcases Array.mem_push.mp member with old | rfl
        · exact known y old
        · exact first
      refine .keep (by omega) read earlier (fun hidden => shown (hides.mp hidden)) moved ?_
      rw [← Array.size_push x]
      exact ih (by omega) further more others

end Dropping

theorem exists_rows {c : Columns} (paired : c.keys.size = c.targets.size)
    (resolved : ∀ key ∈ c.keys, key.toNat < constants.size) :
    ∃ rows, c = ofRows rows ∧ Resolved constants rows := by
  refine ⟨c.rows, (ofRows_rows paired).symm, fun x member => ?_⟩
  obtain ⟨k, there⟩ := Array.mem_iff_getElem?.mp member
  exact resolved x.1 (Array.mem_of_getElem? (Array.getElem?_zip_eq_some.mp there).1)

end Exist

end Columns

namespace SwitchTable

section Runs

open Columns

variable (s : Store) (constants : Array Value)

inductive Sorts (t : SwitchTable) : SwitchTable → Prop
  | skip {k : Nat} {key : UInt16} (inside : k < min t.keys.size t.targets.size)
    (there : t.keys[k]? = some key) (missing : constants[key.toNat]? = none) : Sorts t t
  | sort {c d : Columns}
    (resolved : ∀ k < min t.keys.size t.targets.size, ∃ v, Reads constants t.keys k v)
    (dropped : Drops s constants (min t.keys.size t.targets.size) 0 0 ⟨t.keys, t.targets⟩ c)
    (sorted : Quicksorts s constants c d) : Sorts t ⟨d.keys, d.targets, t.default⟩

/-- The tables at some places are sorted one after the other. A place without a table is passed
by. -/
inductive SortsAll : List Nat → Array SwitchTable → Array SwitchTable → Prop
  | done {tables : Array SwitchTable} : SortsAll [] tables tables
  | pass {i : Nat} {places : List Nat} {tables sorted : Array SwitchTable}
    (absent : tables[i]? = none) (rest : SortsAll places tables sorted) :
    SortsAll (i :: places) tables sorted
  | sort {i : Nat} {places : List Nat} {tables sorted : Array SwitchTable} {t u : SwitchTable}
    (there : tables[i]? = some t) (table : Sorts s constants t u)
    (rest : SortsAll places (tables.setIfInBounds i u) sorted) :
    SortsAll (i :: places) tables sorted

end Runs

open Columns Sorting

variable {s : Store} {constants : Array Value}

theorem Sorts.unique {t u u' : SwitchTable} (first : Sorts s constants t u)
    (second : Sorts s constants t u') : u = u' := by
  have decided {k : Nat} {key : UInt16} {len : Nat}
    (resolved : ∀ k < len, ∃ v, Reads constants t.keys k v)
      (inside : k < len) (there : t.keys[k]? = some key) : constants[key.toNat]? ≠ none := by
    obtain ⟨v, key', there', found⟩ := resolved k inside
    obtain rfl := Option.some.inj (there.symm.trans there')
    simp [found]
  cases first with
  | skip inside there missing =>
    cases second with
    | skip => rfl
    | sort resolved => exact absurd missing (decided resolved inside there)
  | sort resolved dropped sorted =>
    cases second with
    | skip inside there missing => exact absurd missing (decided resolved inside there)
    | sort _ dropped' sorted' =>
      obtain rfl := dropped.unique dropped'
      obtain rfl := sorted.unique sorted'
      rfl

theorem SortsAll.unique {places : List Nat} {tables sorted sorted' : Array SwitchTable}
    (first : SortsAll s constants places tables sorted)
    (second : SortsAll s constants places tables sorted') : sorted = sorted' := by
  induction first with
  | done =>
    cases second
    rfl
  | pass absent _ ih =>
    cases second with
    | pass _ rest' => exact ih rest'
    | sort there => simp [absent] at there
  | sort there table _ ih =>
    cases second with
    | pass absent => simp [there] at absent
    | sort there' table' rest' =>
      obtain rfl := Option.some.inj (there.symm.trans there')
      obtain rfl := table.unique table'
      exact ih rest'

theorem cases_length (t : SwitchTable) : t.cases.length = min t.keys.size t.targets.size := by
  simp [cases]

theorem sorted_of_unresolved {t : SwitchTable} {x : SwitchCase} (member : x ∈ t.cases)
    (missing : constants.size ≤ x.1.toNat) : t.sorted s constants = t := by
  refine if_pos (List.any_eq_true.mpr ⟨x, member, ?_⟩)
  simpa using missing

theorem sorts_sorted (s : Store) (constants : Array Value) (t : SwitchTable) :
    Sorts s constants t (t.sorted s constants) := by
  by_cases resolved : ∀ x ∈ t.cases, x.1.toNat < constants.size
  · have reads : ∀ k < min t.keys.size t.targets.size, ∃ v, Reads constants t.keys k v := by
      intro k inside
      rw [← cases_length] at inside
      exact ⟨_, reads_of_at (at_cases (List.getElem?_eq_getElem inside))
        (resolved _ (List.getElem_mem inside))⟩
    have kept : Resolved constants (t.kept s constants) := fun x member =>
      resolved x ((dropHidden_sublist t.cases).mem (Array.mem_toList_iff.mpr member))
    rw [sorted_of_resolved resolved]
    have start : Halfway ⟨t.keys, t.targets⟩ #[] 0 t.cases :=
      ⟨Nat.le_refl 0, by simp, lists_cases t⟩
    refine .sort reads (drops_ofRows ?_ start (by simp [Resolved]) resolved)
      (quicksorts_ofRows (t.kept s constants).size kept (Nat.le_refl _))
    rw [Nat.zero_add, cases_length]
  · simp only [not_forall, Nat.not_lt] at resolved
    obtain ⟨x, member, missing⟩ := resolved
    obtain ⟨k, inside, there⟩ := List.getElem_of_mem member
    rw [sorted_of_unresolved member missing]
    rw [cases_length] at inside
    exact .skip inside (at_cases (List.getElem?_eq_some_iff.mpr ⟨_, there⟩)).1
      (Array.getElem?_eq_none missing)

theorem sorts_iff {t u : SwitchTable} : Sorts s constants t u ↔ u = t.sorted s constants :=
  ⟨fun run => run.unique (sorts_sorted s constants t),
    fun same => same ▸ sorts_sorted s constants t⟩

theorem sortsAll_foldl (places : List Nat) (tables : Array SwitchTable) :
    SortsAll s constants places tables
      (places.foldl (fun tables i => tables.modify i (·.sorted s constants)) tables) := by
  induction places generalizing tables with
  | nil => exact .done
  | cons i places ih =>
    rw [List.foldl_cons]
    cases there : tables[i]? with
    | none =>
      refine .pass there ?_
      have outside : tables.modify i (·.sorted s constants) = tables := by
        apply Array.ext_getElem?
        intro k
        rw [Array.getElem?_modify]
        split
        next same =>
          subst same
          rw [there, Option.map_none]
        · rfl
      rw [outside]
      exact ih tables
    | some t =>
      refine .sort there (sorts_sorted s constants t) ?_
      have inside : tables.modify i (·.sorted s constants) =
          tables.setIfInBounds i (t.sorted s constants) := by
        apply Array.ext_getElem?
        intro k
        rw [Array.getElem?_modify, Array.getElem?_setIfInBounds]
        split
        next same =>
          subst same
          rw [there, Option.map_some, if_pos (Array.getElem?_eq_some_iff.mp there).1]
        · rfl
      rw [← inside]
      exact ih _

theorem sortsAll_iff {c : Code Value} {tables : Array SwitchTable} :
    SortsAll s c.constants c.binaryTables c.tables tables ↔ tables = (c.sortTables s).tables := by
  have run : SortsAll s c.constants c.binaryTables c.tables (c.sortTables s).tables :=
    sortsAll_foldl _ _
  exact ⟨fun other => other.unique run, fun same => same ▸ run⟩

/-- Sorting a table in place is total. A partition of two keys or more, whatever constants they
stand for, has one run; it splits the keys before the last one, and does nothing but permute the
cases. So sorting columns of one length has one run, and so has sorting a table, where columns may
differ in length and keys may have no constants. In particular, all tables that are sorted when a
module is linked can be, and the module need not have been verified. -/
theorem sorting_total (s : Store) :
    (∀ (constants : Array Value) (c : Columns), c.keys.size = c.targets.size → 2 ≤ c.keys.size →
      (∀ key ∈ c.keys, key.toNat < constants.size) →
      ∃ pivot split d, c.rows[(c.keys.size - 1) / 2]? = some pivot ∧
        partition (tableOrder s constants · pivot == .lt)
          (tableOrder s constants · pivot == .gt) c.keys.size 0
          (c.keys.size - 1) c.rows = (split, d.rows) ∧
        (∀ split' d', Splits s constants c split' d' ↔ split' = split ∧ d' = d) ∧
        split < c.keys.size - 1 ∧ d.keys.size = d.targets.size ∧ d.rows.Perm c.rows) ∧
    (∀ (constants : Array Value) (c : Columns), c.keys.size = c.targets.size →
      (∀ key ∈ c.keys, key.toNat < constants.size) →
      ∃ d, d.rows = quicksort (tableOrder s constants) c.keys.size c.rows ∧
        (∀ d', Quicksorts s constants c d' ↔ d' = d) ∧ d.keys.size = d.targets.size ∧
          d.rows.Perm c.rows) ∧
    (∀ (constants : Array Value) (t u : SwitchTable), Sorts s constants t u ↔
      u = t.sorted s constants) ∧
    ∀ (m : Module Literal) (registry : Registry) (place : Nat) (f : Function Value)
      (c : Code Value),
      (s.loadModule m).1.functions[place]? = some f → f.code? = some c →
      ∃ g d, (Program.link (s.loadModule m).1 (s.loadModule m).2 registry).functions[place]? =
        some g ∧ g.code? = some d ∧
        ∀ tables, SortsAll (s.loadModule m).2 c.constants c.binaryTables c.tables tables ↔
          tables = d.tables := by
  refine ⟨fun constants c paired several resolved => ?_, fun constants c paired resolved => ?_,
    fun constants t u => sorts_iff, fun m registry place f c there code => ?_⟩
  · obtain ⟨rows, rfl, known⟩ := exists_rows paired resolved
    simp only [Columns.keys_size, Columns.rows_ofRows] at several ⊢
    have middle := Array.getElem?_eq_getElem (show (rows.size - 1) / 2 < rows.size by omega)
    have run := splits_ofRows (s := s) known several middle
    obtain ⟨before, _⟩ := partition_middle middle several (tableOrder_self s constants _)
    refine ⟨_, _, Columns.ofRows _, middle, Prod.ext rfl (Columns.rows_ofRows _).symm,
      fun split' d' => ⟨fun other => other.unique run, ?_⟩, Nat.lt_sub_of_add_lt before, ?_, ?_⟩
    · rintro ⟨rfl, rfl⟩
      exact run
    · rw [Columns.keys_size, Columns.targets_size]
    · rw [Columns.rows_ofRows]
      exact partition_perm _ _ _ _ _ _
  · obtain ⟨rows, rfl, known⟩ := exists_rows paired resolved
    simp only [Columns.keys_size, Columns.rows_ofRows]
    have run := quicksorts_ofRows (s := s) rows.size known (Nat.le_refl _)
    refine ⟨_, Columns.rows_ofRows _,
      fun d' => ⟨fun other => other.unique run, fun same => same ▸ run⟩, ?_, ?_⟩
    · rw [Columns.keys_size, Columns.targets_size]
    · rw [Columns.rows_ofRows]
      exact quicksort_perm _ _ _
  · refine ⟨f.sortTables (s.loadModule m).2, c.sortTables (s.loadModule m).2, ?_, ?_,
      fun tables => sortsAll_iff⟩
    · simp [Program.link, there]
    · rw [Function.code?_sortTables, code, Option.map_some]

theorem sorting_total_mixed :
    let s : Store := { texts := #["a"], lists := #[#[]] }
    let constants : Array Value :=
      #[.float ⟨0x7ff8000000000000⟩, .int 3, .list ⟨0⟩, .text ⟨0⟩, .int 1]
    let c : Columns := ⟨#[0, 1, 2, 3, 4], #[10, 11, 12, 13, 14]⟩
    (c.keys.size = c.targets.size ∧ 2 ≤ c.keys.size ∧ ∀ key ∈ c.keys, key.toNat < constants.size) ∧
      (∃ d, Splits s constants c 2 d ∧ d.rows.Perm c.rows) ∧ ∃ d, Quicksorts s constants c d ∧
        d.rows.Perm c.rows := by
  intro s constants c
  have resolved : ∀ key ∈ c.keys, key.toNat < constants.size := by simp [c, constants]
  have rows : c.rows = #[(0, 10), (1, 11), (2, 12), (3, 13), (4, 14)] := by
    apply Array.toList_inj.mp
    rw [Columns.rows, Array.toList_zip]
    rfl
  obtain ⟨parts, sorts, _⟩ := sorting_total s
  obtain ⟨pivot, split, d, middle, done, run, _, _, perm⟩ :=
    parts constants c rfl (by decide) resolved
  obtain ⟨e, _, run', _, perm'⟩ := sorts constants c rfl resolved
  have size : c.keys.size = 5 := rfl
  rw [rows, size] at middle done
  obtain rfl : (2, 12) = pivot := Option.some.inj middle
  have place :
    (partition (tableOrder s constants · (2, 12) == .lt)
    (tableOrder s constants · (2, 12) == .gt) 5 0 4
      #[(0, 10), (1, 11), (2, 12), (3, 13), (4, 14)]).1 = 2 := by
    decide +kernel
  obtain rfl : 2 = split := place.symm.trans (congrArg Prod.fst done)
  exact ⟨⟨rfl, by decide, resolved⟩, ⟨d, (run 2 d).mpr ⟨rfl, rfl⟩, perm⟩, e, (run' e).mpr rfl,
    perm'⟩

end SwitchTable

end StackMachine
