import Mathlib.Data.List.Find
import StackMachine.Machine.Switch
import StackMachine.Proofs.Comparison
import StackMachine.Proofs.Loading
import StackMachine.Proofs.Sorting
import StackMachine.Verify.Structure

/-! Linear and binary switches. A sorted table is strictly ascending, so the binary search always
finds a case that equals the selector if the table still has one. Which one it finds, and whether
the first of them was dropped as hidden, depends on equality being transitive among the keys and the
selector. -/

namespace StackMachine

def Scalar.Agrees (a b : Scalar) : Prop :=
  a.compare? b = some (some .eq)

/-- Equality does not fork at the selector: a key that equals it equals the same keys as the
selector does. -/
def Scalar.Coherent (keys : List Scalar) (selector : Option Scalar) : Prop :=
  ∀ b, selector = some b → ∀ x ∈ keys, ∀ y ∈ keys, x.Agrees b → (y.Agrees b ↔ x.Agrees y)

namespace Scalar

/-- Not an integer beyond `2 ^ 53`. -/
def Exact (a : Scalar) : Prop :=
  ∀ n, a = int n → n.toInt.natAbs ≤ 2 * Double.hiddenBit

theorem sameKindOrder_eq_iff {a b : Scalar} (exactA : a.Exact) (exactB : b.Exact) :
    a.sameKindOrder b = .eq ↔ a.rankOrder b = .eq := by
  unfold sameKindOrder
  split
  next n m =>
    rw [rankOrder_int, compare_int64, Int.compare_eq_eq, Int.compare_eq_eq]
    refine ⟨fun same => by rw [same], fun same => ?_⟩
    exact Double.eq_of_place_ofInt (exactA n rfl) (exactB m rfl) same
  · rfl

theorem agrees_iff_rank {a b : Scalar} (exactA : a.Exact) (exactB : b.Exact) :
    a.Agrees b ↔ a.kind = b.kind ∧ a.ordered = true ∧ b.ordered = true ∧ a.rankOrder b = .eq := by
  rw [Agrees, compare?_eq, ← sameKindOrder_eq_iff exactA exactB]
  by_cases kinds : a.kind = b.kind <;> cases a.ordered <;> cases b.ordered <;> simp [kinds]

theorem coherent_of_exact {keys : List Scalar} {selector : Option Scalar}
    (exact : ∀ x ∈ keys, x.Exact) (exactSelector : ∀ b, selector = some b → b.Exact) :
    Coherent keys selector := by
  intro b read x inX y inY agrees
  have exactB := exactSelector b read
  rw [agrees_iff_rank (exact x inX) exactB] at agrees
  rw [agrees_iff_rank (exact y inY) exactB, agrees_iff_rank (exact x inX) (exact y inY)]
  obtain ⟨kind, ordered, orderedB, rank⟩ := agrees
  refine ⟨fun ⟨kindY, orderedY, _, rankY⟩ => ⟨kind.trans kindY.symm, ordered, orderedY, ?_⟩,
    fun ⟨kindY, _, orderedY, rankY⟩ => ⟨kindY.symm.trans kind, orderedY, orderedB, ?_⟩⟩
  · exact Std.TransCmp.eq_trans rank (Std.OrientedCmp.eq_symm rankY)
  · exact Std.TransCmp.eq_trans (Std.OrientedCmp.eq_symm rankY) rank

end Scalar

namespace Store

theorem Holds.key {s : Store} {constants : Array Value} {c : Code Literal}
    (holds : s.Holds constants c.constants) {key : UInt16} {a : Scalar}
    (known : c.key? key = some a) : ∃ v, constants[key.toNat]? = some v ∧ s.scalar? v = some a := by
  obtain ⟨literal, there, scalar⟩ := Option.bind_eq_some_iff.mp known
  refine holds key.toNat a ?_
  cases literal <;> simp_all [Literal.scalar?]

theorem order?_scalar {s : Store} {v w : Value} {a b : Scalar} (left : s.scalar? v = some a)
    (right : s.scalar? w = some b) : s.order? v w = (a.compare? b).join := by
  simp only [order?, compare, left, right]
  cases a.compare? b <;> rfl

end Store

namespace Code

variable {c : Code Literal}

def scalar (c : Code Literal) (key : UInt16) : Scalar :=
  (c.key? key).getD .null

def Keyed (c : Code Literal) (kind : Nat) (keys : List UInt16) : Prop :=
  ∀ key ∈ keys, c.key? key = some (c.scalar key) ∧ (c.scalar key).kind = kind ∧
    (c.scalar key).ordered = true

theorem Keyed.perm {kind : Nat} {keys others : List UInt16} (keyed : c.Keyed kind keys)
    (perm : others.Perm keys) : c.Keyed kind others :=
  fun key member => keyed key (perm.mem_iff.mp member)

theorem kind_of_mutuallyOrdered {keys : List Scalar} (ordered : mutuallyOrdered keys = true) :
    ∃ kind, ∀ a ∈ keys, a.kind = kind ∧ a.ordered = true := by
  cases keys with
  | nil => exact ⟨0, by simp⟩
  | cons first rest =>
    refine ⟨first.kind, fun a member => ?_⟩
    have compared := List.all_eq_true.mp ordered a member
    rw [Scalar.compare?_eq] at compared
    split at compared
    next same =>
      refine ⟨same.symm, ?_⟩
      cases place : a.ordered with
      | true => rfl
      | false => simp [place] at compared
    next => simp at compared

theorem filterMap_key? {keys : List UInt16}
    (known : ∀ key ∈ keys, c.key? key = some (c.scalar key)) :
    keys.filterMap c.key? = keys.map c.scalar := by
  induction keys with
  | nil => rfl
  | cons key keys ih =>
    rw [List.filterMap_cons_some (known key List.mem_cons_self), List.map_cons,
      ih fun other member => known other (List.mem_cons_of_mem _ member)]

end Code

namespace SwitchTable

variable {c : Code Literal} {kind : Nat} {s : Store} {constants : Array Value}

theorem keyed_of_accepted {index : Nat} {t : SwitchTable} (binary : index ∈ c.binaryTables)
    (accepted : c.tableFaults c.binaryTables index t = []) :
    t.keys.size = t.targets.size ∧ ∃ kind, c.Keyed kind t.keys.toList := by
  simp only [Code.tableFaults, List.append_eq_nil_iff, List.filterMap_eq_nil_iff] at accepted
  obtain ⟨⟨⟨paired, _⟩, resolved⟩, ordered⟩ := accepted
  have known : ∀ key ∈ t.keys.toList, c.key? key = some (c.scalar key) := by
    intro key member
    have there := resolved key member
    simp only [Code.scalar]
    cases found : c.key? key with
    | none => simp [found] at there
    | some a => rfl
  have listed := Code.filterMap_key? known
  have agreed : Code.mutuallyOrdered (t.keys.toList.map c.scalar) = true := by
    simpa [listed, binary] using ordered
  obtain ⟨kind, kinds⟩ := Code.kind_of_mutuallyOrdered agreed
  exact ⟨by simpa using paired, kind,
    fun key member => ⟨known key member, kinds _ (List.mem_map_of_mem member)⟩⟩

def caseOrder? (s : Store) (constants : Array Value) (x y : SwitchCase) : Option Ordering :=
  s.order? (constants.getD x.1.toNat .undefined) (constants.getD y.1.toNat .undefined)

def kept (t : SwitchTable) (s : Store) (constants : Array Value) : Array SwitchCase :=
  Sorting.dropHidden (fun x y => caseOrder? s constants x y == some .eq) t.cases

def arranged (t : SwitchTable) (s : Store) (constants : Array Value) : Array SwitchCase :=
  Sorting.quicksort (fun x y => (caseOrder? s constants x y).getD .eq) (t.kept s constants).size
    (t.kept s constants)

variable {t : SwitchTable}

theorem mem_keys_of_mem_cases {x : SwitchCase} (member : x ∈ t.cases) : x.1 ∈ t.keys.toList :=
  (List.of_mem_zip member).1

theorem caseOrder?_eq (keyed : c.Keyed kind t.keys.toList) (holds : s.Holds constants c.constants)
    {x y : SwitchCase} (first : x ∈ t.cases) (second : y ∈ t.cases) :
    caseOrder? s constants x y = some ((c.scalar x.1).sameKindOrder (c.scalar y.1)) := by
  obtain ⟨known, kindX, orderedX⟩ := keyed x.1 (mem_keys_of_mem_cases first)
  obtain ⟨known', kindY, orderedY⟩ := keyed y.1 (mem_keys_of_mem_cases second)
  obtain ⟨v, there, scalar⟩ := holds.key known
  obtain ⟨w, there', scalar'⟩ := holds.key known'
  simp only [caseOrder?, Array.getD_eq_getD_getElem?, there, there', Option.getD_some]
  rw [Store.order?_scalar scalar scalar', Scalar.compare?_eq]
  simp [kindX, kindY, orderedX, orderedY]

theorem sorted_of_resolved (resolved : ∀ x ∈ t.cases, x.1.toNat < constants.size) :
    t.sorted s constants =
      { t with
        keys := (t.arranged s constants).map (·.1)
        targets := (t.arranged s constants).map (·.2) } := by
  refine (if_neg ?_).trans rfl
  rw [Bool.not_eq_true, List.any_eq_false]
  intro x member
  simpa using resolved x member

theorem sorted_eq_arranged (keyed : c.Keyed kind t.keys.toList)
    (holds : s.Holds constants c.constants) :
    t.sorted s constants =
      { t with
        keys := (t.arranged s constants).map (·.1)
        targets := (t.arranged s constants).map (·.2) } := by
  refine sorted_of_resolved fun x member => ?_
  obtain ⟨v, there, _⟩ := holds.key (keyed x.1 (mem_keys_of_mem_cases member)).1
  exact (Array.getElem?_eq_some_iff.mp there).1

theorem cases_of_maps (rows : Array SwitchCase) (default : UInt32) :
    cases { keys := rows.map (·.1), targets := rows.map (·.2), default } = rows.toList := by
  simp only [cases, Array.toList_map]
  induction rows.toList with
  | nil => rfl
  | cons row rows ih => simp [ih]

theorem mem_arranged_iff {x : SwitchCase} : x ∈ t.arranged s constants ↔ x ∈ t.kept s constants :=
  (Sorting.quicksort_perm _ _ _).mem_iff

theorem mem_cases_of_mem_arranged {x : SwitchCase} (member : x ∈ t.arranged s constants) :
    x ∈ t.cases :=
  (Sorting.dropHidden_sublist _).mem (Array.mem_toList_iff.mpr (mem_arranged_iff.mp member))

theorem arranged_ascending_of_ranked {scalar : SwitchCase → Scalar}
    (ranked : ∀ x ∈ t.cases, ∀ y ∈ t.cases,
      caseOrder? s constants x y = some ((scalar x).sameKindOrder (scalar y))) :
    (t.arranged s constants).toList.Pairwise fun x y =>
      (scalar x).sameKindOrder (scalar y) = .lt := by
  have ascending : (t.arranged s constants).toList.Pairwise fun x y =>
      (caseOrder? s constants x y).getD .eq = .lt := by
    refine Sorting.quicksort_dropHidden_ascending (fun x inX y inY => ?_) (fun x inX y inY => ?_)
      fun x inX y inY z inZ => ?_
    · simp [ranked x inX y inY]
    · simp only [ranked x inX y inY, ranked y inY x inX, Option.getD_some]
      exact Scalar.sameKindOrder_swap _ _
    · simp only [ranked x inX y inY, ranked y inY z inZ, ranked x inX z inZ, Option.getD_some]
      exact Scalar.sameKindOrder_lt_trans
  refine (List.Pairwise.and_mem.mp ascending).imp ?_
  rintro x y ⟨inX, inY, less⟩
  rw [ranked x (mem_cases_of_mem_arranged (Array.mem_toList_iff.mp inX)) y
    (mem_cases_of_mem_arranged (Array.mem_toList_iff.mp inY))] at less
  exact less

theorem arranged_ascending (keyed : c.Keyed kind t.keys.toList)
    (holds : s.Holds constants c.constants) :
    (t.arranged s constants).toList.Pairwise fun x y =>
      (c.scalar x.1).sameKindOrder (c.scalar y.1) = .lt :=
  arranged_ascending_of_ranked fun _ inX _ inY => caseOrder?_eq keyed holds inX inY

theorem mem_arranged_or (keyed : c.Keyed kind t.keys.toList) (holds : s.Holds constants c.constants)
    {before after : List SwitchCase} {x : SwitchCase} (split : t.cases = before ++ x :: after) :
    x ∈ t.arranged s constants ∨
      ∃ y ∈ before, y ∈ t.arranged s constants ∧
        (c.scalar y.1).sameKindOrder (c.scalar x.1) = .eq := by
  have either := @Sorting.mem_dropHidden_or _ (fun x y => caseOrder? s constants x y == some .eq)
    before after x
  rw [← split] at either
  refine either.imp mem_arranged_iff.mpr ?_
  rintro ⟨y, earlier, member, hides⟩
  have inX : x ∈ t.cases := by simp [split]
  have inY : y ∈ t.cases := by simp [split, earlier]
  refine ⟨y, earlier, mem_arranged_iff.mpr member, ?_⟩
  simpa [caseOrder?_eq keyed holds inY inX] using hides

theorem eq_of_mem_arranged (keyed : c.Keyed kind t.keys.toList)
    (holds : s.Holds constants c.constants) {x y : SwitchCase} (inX : x ∈ t.arranged s constants)
    (inY : y ∈ t.arranged s constants) (equal : (c.scalar x.1).sameKindOrder (c.scalar y.1) = .eq) :
    x = y := by
  have ascending := arranged_ascending keyed holds
  have forward :=
    ascending.imp fun {x y} less (equal : (c.scalar x.1).sameKindOrder (c.scalar y.1) = .eq) =>
    (show x = y by rw [less] at equal; contradiction)
  have backward :=
    ascending.imp fun {x y} less (equal : (c.scalar y.1).sameKindOrder (c.scalar x.1) = .eq) =>
    (show y = x by rw [Scalar.sameKindOrder_swap, less] at equal; contradiction)
  exact forward.forall_of_forall_of_flip (fun _ _ _ => rfl) backward (Array.mem_toList_iff.mpr inX)
    (Array.mem_toList_iff.mpr inY) equal

/-- The result is the target of a case that meets the condition, or the default if there is none. -/
def Picks (rows : List SwitchCase) (hit : SwitchCase → Prop) (default target : UInt32) : Prop :=
  (∃ x ∈ rows, hit x ∧ target = x.2) ∨ ((∀ x ∈ rows, ¬ hit x) ∧ target = default)

section Selector

variable {selector : Value} {b : Scalar}

theorem isScalar_of_scalar? (read : s.scalar? selector = some b) : selector.isScalar = true := by
  cases selector <;> simp_all [Store.scalar?, Value.isScalar]

theorem order?_selector (holds : s.Holds constants c.constants) (read : s.scalar? selector = some b)
    {key : UInt16} (known : c.key? key = some (c.scalar key)) :
    ∃ v, constants[key.toNat]? = some v ∧
      s.order? v selector = ((c.scalar key).compare? b).join := by
  obtain ⟨v, there, scalar⟩ := holds.key known
  exact ⟨v, there, Store.order?_scalar scalar read⟩

def hits (c : Code Literal) (b : Scalar) (x : SwitchCase) : Bool :=
  (c.scalar x.1).compare? b == some (some .eq)

theorem hits_of_order? {v : Value} {x : SwitchCase}
    (order : s.order? v selector = ((c.scalar x.1).compare? b).join) :
    (s.order? v selector == some .eq) = hits c b x := by
  rw [order, hits]
  cases (c.scalar x.1).compare? b <;> rfl

theorem linearTarget_eq (keyed : c.Keyed kind t.keys.toList) (holds : s.Holds constants c.constants)
    (read : s.scalar? selector = some b) :
    t.linearTarget s constants selector = ((t.cases.find? (hits c b)).map (·.2)).getD
      t.default := by
  have same (test : SwitchCase → Bool) (agree : ∀ x ∈ t.cases, test x = hits c b x) :
      t.cases.find? test = t.cases.find? (hits c b) := List.find?_congr agree
  unfold linearTarget
  rw [isScalar_of_scalar? read, if_neg (by simp)]
  dsimp only
  rw [same _ fun x member => ?_]
  · cases t.cases.find? (hits c b) <;> rfl
  · obtain ⟨v, there, order⟩ :=
      order?_selector holds read (keyed x.1 (mem_keys_of_mem_cases member)).1
    simp only [there]
    exact hits_of_order? order

theorem picks_find? (rows : List SwitchCase) (default : UInt32) :
    Picks rows (hits c b · = true) default (((rows.find? (hits c b)).map (·.2)).getD default) := by
  cases found : rows.find? (hits c b) with
  | none => exact .inr ⟨fun x member => List.find?_eq_none.mp found x member, rfl⟩
  | some x => exact .inl ⟨x, List.mem_of_find?_eq_some found, List.find?_some found, rfl⟩

def Probes (t : SwitchTable) (s : Store) (constants : Array Value) (selector : Value) (size : Nat)
    (place : Nat → Option Ordering) : Prop :=
  ∀ i, i < size → ∃ v, (t.keys[i]?.bind fun key => constants[key.toNat]?) = some v ∧
    s.order? v selector = place i

theorem search_finds {size fuel low high : Nat} {place : Nat → Ordering}
    (probes : t.Probes s constants selector size fun i => some (place i))
    (below : ∀ i j, i < j → j < size → place j = .lt → place i = .lt)
    (above : ∀ i j, i < j → j < size → place i = .gt → place j = .gt)
    (lower : ∀ i, i < low → place i = .lt) (upper : ∀ i, high ≤ i → i < size → place i = .gt)
    (bound : high ≤ size) (enough : high - low < fuel) :
    (∃ i, i < size ∧ place i = .eq ∧
      t.search s constants selector fuel low high = t.targets.getD i t.default) ∨
      ((∀ i, i < size → place i ≠ .eq) ∧
        t.search s constants selector fuel low high = t.default) := by
  induction fuel generalizing low high with
  | zero => omega
  | succ fuel ih =>
    unfold search
    split
    next remains =>
      have middle : low + (high - low) / 2 < size := by omega
      obtain ⟨v, found, order⟩ := probes (low + (high - low) / 2) middle
      simp only [found, order]
      generalize half : low + (high - low) / 2 = m at *
      cases here : place m with
      | eq => exact .inl ⟨m, middle, here, rfl⟩
      | lt =>
        refine ih (fun i before => ?_) upper bound (by omega)
        by_cases last : i = m
        · exact last ▸ here
        · exact below i m (by omega) middle here
      | gt =>
        refine ih lower (fun i behind inside => ?_) (by omega) (by omega)
        by_cases first : i = m
        · exact first ▸ here
        · exact above m i (by omega) inside here
    next closed =>
      refine .inr ⟨fun i inside equal => ?_, rfl⟩
      by_cases before : i < low
      · rw [lower i before] at equal
        contradiction
      · rw [upper i (by omega) inside] at equal
        contradiction

theorem search_finds_equal {size : Nat} {place : Nat → Ordering}
    (probes : t.Probes s constants selector size fun i => some (place i))
    (below : ∀ i j, i < j → j < size → place j = .lt → place i = .lt)
    (above : ∀ i j, i < j → j < size → place i = .gt → place j = .gt) :
    (∃ i, i < size ∧ place i = .eq ∧
      t.search s constants selector (size + 1) 0 size = t.targets.getD i t.default) ∨
      ((∀ i, i < size → place i ≠ .eq) ∧
        t.search s constants selector (size + 1) 0 size = t.default) :=
  search_finds probes below above (fun i before => by omega) (fun i behind inside => by omega)
    (Nat.le_refl _) (by omega)

theorem search_unordered {size fuel low high : Nat}
    (probes : t.Probes s constants selector size fun _ => none) (bound : high ≤ size) :
    t.search s constants selector fuel low high = t.default := by
  cases fuel with
  | zero => rfl
  | succ fuel =>
    unfold search
    split
    next remains =>
      obtain ⟨v, found, order⟩ := probes (low + (high - low) / 2) (by omega)
      simp only [found, order]
    · rfl

theorem compare?_join (keyed : c.Keyed kind t.keys.toList) {x : SwitchCase} (member : x ∈ t.cases) :
    ((c.scalar x.1).compare? b).join =
      if kind = b.kind ∧ b.ordered = true then some ((c.scalar x.1).sameKindOrder b) else none := by
  obtain ⟨_, same, ordered⟩ := keyed x.1 (mem_keys_of_mem_cases member)
  rw [Scalar.compare?_eq, same, ordered]
  by_cases kinds : kind = b.kind <;> cases b.ordered <;> simp [kinds]

theorem hits_iff (keyed : c.Keyed kind t.keys.toList) {x : SwitchCase} (member : x ∈ t.cases) :
    hits c b x = true ↔ (kind = b.kind ∧ b.ordered = true) ∧
      (c.scalar x.1).sameKindOrder b = .eq := by
  have joined : hits c b x = (((c.scalar x.1).compare? b).join == some .eq) := by
    rw [hits]
    cases (c.scalar x.1).compare? b <;> rfl
  rw [joined, compare?_join keyed member]
  by_cases comparable : kind = b.kind ∧ b.ordered = true <;> simp [comparable]

theorem picks_binaryTarget {linking : Store} (keyed : c.Keyed kind t.keys.toList)
    (linked : linking.Holds constants c.constants)
    (holds : s.Holds constants c.constants) (read : s.scalar? selector = some b) :
    Picks (t.arranged linking constants).toList (hits c b · = true) t.default
      ((t.sorted linking constants).binaryTarget s constants selector) := by
  have ascending := List.pairwise_iff_getElem.mp (arranged_ascending keyed linked)
  have listed : ∀ x ∈ t.arranged linking constants, x ∈ t.cases :=
    fun x => mem_cases_of_mem_arranged
  rw [sorted_eq_arranged keyed linked]
  unfold binaryTarget
  simp only [isScalar_of_scalar? read, Array.size_map, Nat.min_self]
  generalize t.arranged linking constants = rows at *
  have probes : Probes { t with keys := rows.map (·.1), targets := rows.map (·.2) } s constants
    selector rows.size
      fun i => if kind = b.kind ∧ b.ordered =
        true then some ((c.scalar (rows.getD i (0, 0)).1).sameKindOrder b)
        else none := by
    intro i inside
    have member := listed rows[i] (Array.getElem_mem inside)
    obtain ⟨v, there, order⟩ :=
      order?_selector holds read (keyed _ (mem_keys_of_mem_cases member)).1
    refine ⟨v, by simpa [inside] using there, ?_⟩
    rw [order, compare?_join keyed member]
    simp [inside]
  by_cases comparable : kind = b.kind ∧ b.ordered = true
  · simp only [if_pos comparable] at probes
    have less {i j : Nat} (before : i < j) (inside : j < rows.size) :
        (c.scalar (rows.getD i (0, 0)).1).sameKindOrder (c.scalar (rows.getD j (0, 0)).1) =
          .lt := by
      have known := ascending i j (by simp; omega) (by simpa using inside) before
      simpa [inside, Nat.lt_trans before inside] using known
    have below : ∀ i j, i < j → j < rows.size →
        (c.scalar (rows.getD j (0, 0)).1).sameKindOrder b = .lt →
        (c.scalar (rows.getD i (0, 0)).1).sameKindOrder b = .lt :=
      fun i j before inside => Scalar.sameKindOrder_lt_trans (less before inside)
    have above : ∀ i j, i < j → j < rows.size →
        (c.scalar (rows.getD i (0, 0)).1).sameKindOrder b = .gt →
        (c.scalar (rows.getD j (0, 0)).1).sameKindOrder b = .gt := by
      intro i j before inside greater
      have first : b.sameKindOrder (c.scalar (rows.getD i (0, 0)).1) = .lt := by
        rw [Scalar.sameKindOrder_swap, greater]
        rfl
      rw [Scalar.sameKindOrder_swap, Scalar.sameKindOrder_lt_trans first (less before inside)]
      rfl
    rcases search_finds_equal probes below above with ⟨i, inside, equal, found⟩ | ⟨unequal, found⟩
    · refine .inl ⟨rows[i], by simp, (hits_iff keyed
        (listed _ (Array.getElem_mem inside))).mpr ⟨comparable, ?_⟩, ?_⟩
      · simpa [inside] using equal
      · simpa [inside] using found
    · refine .inr ⟨fun x member hit => ?_, found⟩
      obtain ⟨i, inside, rfl⟩ := List.mem_iff_getElem.mp member
      have equal := ((hits_iff keyed (listed _ (Array.mem_toList_iff.mp member))).mp hit).2
      refine unequal i (by simpa using inside) ?_
      simpa [show i < rows.size by simpa using inside] using equal
  · simp only [if_neg comparable] at probes
    refine .inr ⟨fun x member hit => ?_, ?_⟩
    · exact comparable ((hits_iff keyed (listed x (Array.mem_toList_iff.mp member))).mp hit).1
    · exact search_unordered probes (Nat.le_refl _)

theorem agrees_selector_iff {x : SwitchCase} : (c.scalar x.1).Agrees b ↔ hits c b x = true := by
  simp [Scalar.Agrees, hits]

theorem agrees_keys_iff {keys : List UInt16} (keyed : c.Keyed kind keys) {k n : UInt16}
    (first : k ∈ keys) (second : n ∈ keys) :
    (c.scalar k).Agrees (c.scalar n) ↔ (c.scalar k).sameKindOrder (c.scalar n) = .eq := by
  obtain ⟨_, kind₁, ordered₁⟩ := keyed k first
  obtain ⟨_, kind₂, ordered₂⟩ := keyed n second
  simp [Scalar.Agrees, Scalar.compare?_eq, kind₁, kind₂, ordered₁, ordered₂]

theorem linearTarget_sorted {linking : Store} (keyed : c.Keyed kind t.keys.toList)
    (linked : linking.Holds constants c.constants)
    (holds : s.Holds constants c.constants) (read : s.scalar? selector = some b) :
    (t.sorted linking constants).linearTarget s constants selector =
      (((t.arranged linking constants).toList.find? (hits c b)).map (·.2)).getD t.default := by
  have narrower : c.Keyed kind (t.sorted linking constants).keys.toList := by
    intro key member
    rw [sorted_eq_arranged keyed linked] at member
    simp only [Array.toList_map, List.mem_map, Array.mem_toList_iff] at member
    obtain ⟨x, kept, rfl⟩ := member
    exact keyed x.1 (mem_keys_of_mem_cases (mem_cases_of_mem_arranged kept))
  rw [linearTarget_eq narrower holds read, sorted_eq_arranged keyed linked, cases_of_maps]

/-- Where equality does not fork, every way to pick a kept case leads where the first case of the
selector leads. -/
theorem eq_linearTarget_of_picks {linking : Store} (keyed : c.Keyed kind t.keys.toList)
    (linked : linking.Holds constants c.constants)
    (holds : s.Holds constants c.constants) (read : s.scalar? selector = some b)
    (coherent : Scalar.Coherent (t.keys.toList.map c.scalar) (some b)) {target : UInt32}
    (picks : Picks (t.arranged linking constants).toList (hits c b · = true) t.default target) :
    target = t.linearTarget s constants selector := by
  have coherent {x y : SwitchCase} (inX : x ∈ t.cases) (inY : y ∈ t.cases)
    (hit : hits c b x = true) :
      hits c b y = true ↔ (c.scalar x.1).sameKindOrder (c.scalar y.1) = .eq := by
    have keyX := mem_keys_of_mem_cases inX
    have keyY := mem_keys_of_mem_cases inY
    rw [← agrees_keys_iff keyed keyX keyY, ← agrees_selector_iff]
    exact coherent b rfl _ (List.mem_map_of_mem keyX) _ (List.mem_map_of_mem keyY)
      (agrees_selector_iff.mpr hit)
  have listed {x : SwitchCase} (member : x ∈ (t.arranged linking constants).toList) : x ∈ t.cases :=
    mem_cases_of_mem_arranged (Array.mem_toList_iff.mp member)
  rw [linearTarget_eq keyed holds read]
  cases found : t.cases.find? (hits c b) with
  | none =>
    rcases picks with ⟨x, member, hit, _⟩ | ⟨_, rfl⟩
    · exact absurd hit (List.find?_eq_none.mp found x (listed member))
    · rfl
  | some x =>
    obtain ⟨hit, before, after, split, earlier⟩ := List.find?_eq_some_iff_append.mp found
    have inX : x ∈ t.cases := List.mem_of_find?_eq_some found
    have stays : x ∈ t.arranged linking constants := by
      rcases mem_arranged_or keyed linked split with stays | ⟨y, first, kept, equal⟩
      · exact stays
      · have inY := mem_cases_of_mem_arranged kept
        rw [Scalar.sameKindOrder_swap, Ordering.swap_eq_eq] at equal
        have hitY := (coherent inX inY hit).mpr equal
        have missed := earlier y first
        simp [hitY] at missed
    rcases picks with ⟨y, member, hitY, rfl⟩ | ⟨none, _⟩
    · have equal := (coherent inX (listed member) hit).mp hitY
      rw [eq_of_mem_arranged keyed linked stays (Array.mem_toList_iff.mp member) equal]
      rfl
    · exact absurd hit (none x (Array.mem_toList_iff.mpr stays))

def led (first second : SwitchCase) (rest : List UInt16) : SwitchTable where
  keys := (first.1 :: second.1 :: rest).toArray
  targets := (first.2 :: second.2 :: rest.map fun _ => 0).toArray
  default := 0

theorem cases_led (first second : SwitchCase) (rest : List UInt16) :
    (led first second rest).cases = first :: second :: rest.map fun key => (key, 0) := by
  have others : rest.zip (rest.map fun _ => (0 : UInt32)) = rest.map fun key => (key, 0) := by
    induction rest with
    | nil => rfl
    | cons key rest ih => simp only [List.map_cons, List.zip_cons_cons, ih]
  simp only [cases, led, List.zip_cons_cons, others]

theorem eq_of_mem_led {first second x : SwitchCase} {rest : List UInt16}
    (member : x ∈ (led first second rest).cases) (other : x.2 ≠ 0) : x = first ∨ x = second := by
  rw [cases_led] at member
  rcases List.mem_cons.mp member with same | member
  · exact .inl same
  · rcases List.mem_cons.mp member with same | member
    · exact .inr same
    · obtain ⟨key, _, rfl⟩ := List.mem_map.mp member
      exact absurd rfl other

theorem exists_led {keys : List UInt16} {k n : UInt16} (first : k ∈ keys) (second : n ∈ keys)
    (differ : k ≠ n) : ∃ rest, (k :: n :: rest).Perm keys := by
  have left : n ∈ keys.erase k := (List.mem_erase_of_ne differ.symm).mpr second
  exact ⟨(keys.erase k).erase n, ((List.perm_cons_erase left).symm.cons k).trans
    (List.perm_cons_erase first).symm⟩

/-- Of two kept cases that both are the selector's, the linear search of the sorted table takes the
lesser one, although the greater one may come first. -/
theorem linearTarget_sorted_lesser {linking : Store} {k n : UInt16} {rest : List UInt16}
    (keyed : c.Keyed kind (k :: n :: rest)) (linked : linking.Holds constants c.constants)
    (holds : s.Holds constants c.constants) (read : s.scalar? selector = some b)
    (hitK : hits c b (k, 1) = true) (hitN : hits c b (n, 0) = true)
    (greater : (c.scalar n).sameKindOrder (c.scalar k) = .lt) :
    ((led (k, 1) (n, 0) rest).sorted linking constants).linearTarget s constants selector ≠
      (led (k, 1) (n, 0) rest).linearTarget s constants selector := by
  have keyed : c.Keyed kind (led (k, 1) (n, 0) rest).keys.toList := keyed
  have linear : (led (k, 1) (n, 0) rest).linearTarget s constants selector = 1 := by
    rw [linearTarget_eq keyed holds read, cases_led, List.find?_cons_of_pos hitK]
    rfl
  have unequal : (c.scalar k).sameKindOrder (c.scalar n) = .gt := by
    rw [Scalar.sameKindOrder_swap, greater]
    rfl
  have stays : (n, 0) ∈ (led (k, 1) (n, 0) rest).arranged linking constants := by
    have split : (led (k, 1) (n, 0) rest).cases = [(k, 1)] ++ (n, 0) :: rest.map fun key =>
      (key, 0) := cases_led _ _ _
    rcases mem_arranged_or keyed linked split with stays | ⟨y, first, _, equal⟩
    · exact stays
    · obtain rfl := List.mem_singleton.mp first
      rw [unequal] at equal
      contradiction
  rw [linear, linearTarget_sorted keyed linked holds read]
  intro same
  cases found : ((led (k, 1) (n, 0) rest).arranged linking constants).toList.find? (hits c b) with
  | none =>
    rw [found] at same
    exact absurd same (show (0 : UInt32) ≠ 1 by decide)
  | some x =>
    obtain ⟨_, before, after, split, earlier⟩ := List.find?_eq_some_iff_append.mp found
    have target : x.2 = 1 := by
      rw [found] at same
      exact same
    have listed :=
      mem_cases_of_mem_arranged (Array.mem_toList_iff.mp (List.mem_of_find?_eq_some found))
    obtain rfl : x = (k, 1) := by
      rcases eq_of_mem_led listed (by simp [target]) with rfl | rfl
      · rfl
      · exact absurd target (show (0 : UInt32) ≠ 1 by decide)
    have ascending := arranged_ascending keyed linked
    have member := Array.mem_toList_iff.mpr stays
    rw [split] at ascending member
    rcases List.mem_append.mp member with ahead | behind
    · have missed := earlier (n, 0) ahead
      simp [hitN] at missed
    · rcases List.mem_cons.mp behind with same | behind
      · simp at same
      · have less := List.rel_of_pairwise_cons (List.pairwise_append.mp ascending).2.1 behind
        rw [unequal] at less
        contradiction

theorem linearTarget_sorted_hidden {linking : Store} {k n : UInt16} {rest : List UInt16}
    (keyed : c.Keyed kind (k :: n :: rest)) (linked : linking.Holds constants c.constants)
    (holds : s.Holds constants c.constants) (read : s.scalar? selector = some b)
    (missed : hits c b (k, 0) = false) (hit : hits c b (n, 1) = true)
    (equal : (c.scalar k).sameKindOrder (c.scalar n) = .eq) :
    ((led (k, 0) (n, 1) rest).sorted linking constants).linearTarget s constants selector ≠
      (led (k, 0) (n, 1) rest).linearTarget s constants selector := by
  have keyed : c.Keyed kind (led (k, 0) (n, 1) rest).keys.toList := keyed
  have linear : (led (k, 0) (n, 1) rest).linearTarget s constants selector = 1 := by
    rw [linearTarget_eq keyed holds read, cases_led, List.find?_cons_of_neg (by simp [missed]),
      List.find?_cons_of_pos hit]
    rfl
  have stays : (k, 0) ∈ (led (k, 0) (n, 1) rest).arranged linking constants := by
    have split : (led (k, 0) (n, 1) rest).cases =
        [] ++ (k, 0) :: (n, 1) :: rest.map fun key => (key, 0) :=
      cases_led _ _ _
    rcases mem_arranged_or keyed linked split with stays | ⟨y, first, _⟩
    · exact stays
    · contradiction
  rw [linear, linearTarget_sorted keyed linked holds read]
  intro same
  cases found : ((led (k, 0) (n, 1) rest).arranged linking constants).toList.find? (hits c b) with
  | none =>
    rw [found] at same
    exact absurd same (show (0 : UInt32) ≠ 1 by decide)
  | some x =>
    have member := Array.mem_toList_iff.mp (List.mem_of_find?_eq_some found)
    have target : x.2 = 1 := by
      rw [found] at same
      exact same
    obtain rfl : x = (n, 1) := by
      rcases eq_of_mem_led (mem_cases_of_mem_arranged member) (by simp [target]) with rfl | rfl
      · exact absurd target (show (0 : UInt32) ≠ 1 by decide)
      · rfl
    have one := eq_of_mem_arranged keyed linked stays member equal
    simp at one

end Selector

theorem coherent_of_targets_agree {keys : List UInt16} {linking : Store} {selector : Value}
    (keyed : c.Keyed kind keys) (linked : linking.Holds constants c.constants)
    (holds : s.Holds constants c.constants)
    (agree : ∀ t : SwitchTable, t.keys.toList.Perm keys → t.keys.size = t.targets.size →
      (t.sorted linking constants).linearTarget s constants selector =
      t.linearTarget s constants selector) :
    Scalar.Coherent (keys.map c.scalar) (s.scalar? selector) := by
  intro b read x inX y inY agreesX
  obtain ⟨k, inK, rfl⟩ := List.mem_map.mp inX
  obtain ⟨n, inN, rfl⟩ := List.mem_map.mp inY
  -- Two keys that differ can be put in front of the others in either order.
  have front {k n : UInt16} (inK : k ∈ keys) (inN : n ∈ keys) (differ : k ≠ n)
    (target target' : UInt32) :
      ∃ rest, c.Keyed kind (k :: n :: rest) ∧
        ((led (k, target) (n, target') rest).sorted linking constants).linearTarget s
          constants selector =
          (led (k, target) (n, target') rest).linearTarget s constants selector := by
    obtain ⟨rest, perm⟩ := exists_led inK inN differ
    exact ⟨rest, keyed.perm perm, agree _ perm (by simp [led])⟩
  have hit : hits c b (k, 0) = true := agrees_selector_iff.mp agreesX
  rw [agrees_keys_iff keyed inK inN]
  refine ⟨fun agreesY => ?_, fun equal => ?_⟩
  · have hit' : hits c b (n, 0) = true := agrees_selector_iff.mp agreesY
    cases order : (c.scalar k).sameKindOrder (c.scalar n) with
    | eq => rfl
    | lt =>
      obtain ⟨rest, keyed, same⟩ :=
        front inN inK (by rintro rfl; simp [Scalar.sameKindOrder_self] at order) 1 0
      exact absurd same (linearTarget_sorted_lesser keyed linked holds read hit' hit order)
    | gt =>
      have less : (c.scalar n).sameKindOrder (c.scalar k) = .lt := by
        rw [Scalar.sameKindOrder_swap, order]
        rfl
      obtain ⟨rest, keyed, same⟩ :=
        front inK inN (by rintro rfl; simp [Scalar.sameKindOrder_self] at order) 1 0
      exact absurd same (linearTarget_sorted_lesser keyed linked holds read hit hit' less)
  · rw [agrees_selector_iff (x := (n, 0))]
    cases missed : hits c b (n, 0) with
    | true => rfl
    | false =>
      obtain ⟨rest, keyed, same⟩ := front inN inK (by rintro rfl; simp [hit] at missed) 0 1
      rw [Scalar.sameKindOrder_swap, Ordering.swap_eq_eq] at equal
      exact absurd same (linearTarget_sorted_hidden keyed linked holds read missed hit equal)

theorem isScalar_of_scalar?_none {selector : Value} (read : s.scalar? selector = none) :
    selector.isScalar = false := by
  cases selector <;> simp_all [Store.scalar?, Value.isScalar]

theorem sorted_default (t : SwitchTable) (s : Store) (constants : Array Value) :
    (t.sorted s constants).default = t.default := by
  unfold sorted
  dsimp only
  split <;> rfl

/-- The strategies of a switch agree for exactly those keys and selectors among which equality does
not fork. The table is one that the verifier accepts for a binary switch; its cases may stand in any
order and lead anywhere. Only integers beyond `2 ^ 53` make equality fork. -/
theorem targets_agree_iff {index : Nat} {t : SwitchTable} (binary : index ∈ c.binaryTables)
    (accepted : c.tableFaults c.binaryTables index t = []) {linking : Store}
    (linked : linking.Holds constants c.constants)
    (holds : s.Holds constants c.constants) (selector : Value) :
    ((∀ u : SwitchTable, u.keys.toList.Perm t.keys.toList → u.keys.size = u.targets.size →
      (u.sorted linking constants).binaryTarget s constants selector =
        u.linearTarget s constants selector ∧
      (u.sorted linking constants).linearTarget s constants selector =
        u.linearTarget s constants selector) ↔
      Scalar.Coherent (t.keys.toList.filterMap c.key?) (s.scalar? selector)) ∧
    ((∀ x ∈ t.keys.toList.filterMap c.key?, x.Exact) →
      (∀ b, s.scalar? selector = some b → b.Exact) →
      Scalar.Coherent (t.keys.toList.filterMap c.key?) (s.scalar? selector)) := by
  refine ⟨?_, Scalar.coherent_of_exact⟩
  obtain ⟨_, kind, keyed⟩ := keyed_of_accepted binary accepted
  rw [Code.filterMap_key? fun key member => (keyed key member).1]
  refine ⟨fun agree => coherent_of_targets_agree keyed linked holds
    fun u perm paired => (agree u perm paired).2, fun coherent u perm _ => ?_⟩
  cases read : s.scalar? selector with
  | none => simp [binaryTarget, linearTarget, isScalar_of_scalar?_none read, sorted_default]
  | some b =>
    have keyed := keyed.perm perm
    have coherent : Scalar.Coherent (u.keys.toList.map c.scalar) (some b) := by
      intro b' same x inX y inY
      exact coherent b' (read.trans same) x ((perm.map _).mem_iff.mp inX) y
        ((perm.map _).mem_iff.mp inY)
    refine ⟨?_, ?_⟩
    · exact eq_linearTarget_of_picks keyed linked holds read coherent
        (picks_binaryTarget keyed linked holds read)
    · refine eq_linearTarget_of_picks keyed linked holds read coherent ?_
      rw [linearTarget_sorted keyed linked holds read]
      exact picks_find? _ _

end SwitchTable

def SwitchTable.twins : SwitchTable where
  keys := #[0, 1]
  targets := #[0, 1]
  default := 2

def Code.twins : Code Literal where
  instructions := #[.wide (.switch .binary) 0, .plain .leave, .plain .halt]
  constants := #[.scalar (.int 9007199254740992), .scalar (.int 9007199254740993)]
  tables := #[.twins]

theorem SwitchTable.targets_agree_iff_twins :
    0 ∈ Code.twins.binaryTables ∧ Code.twins.tableFaults Code.twins.binaryTables 0 twins = [] ∧
    let pool := ({} : Store).loadAll Code.twins.constants
    pool.2.Holds pool.1 Code.twins.constants ∧
    ((∀ u : SwitchTable, u.keys.toList.Perm twins.keys.toList → u.keys.size = u.targets.size →
      (u.sorted pool.2 pool.1).binaryTarget pool.2 pool.1 (.int 9007199254740993) =
        u.linearTarget pool.2 pool.1 (.int 9007199254740993) ∧
      (u.sorted pool.2 pool.1).linearTarget pool.2 pool.1 (.int 9007199254740993) =
        u.linearTarget pool.2 pool.1 (.int 9007199254740993)) ↔
      Scalar.Coherent (twins.keys.toList.filterMap Code.twins.key?)
        (pool.2.scalar? (.int 9007199254740993))) :=
  have binary : 0 ∈ Code.twins.binaryTables := by decide
  have accepted : Code.twins.tableFaults Code.twins.binaryTables 0 twins = [] := by decide
  have holds := Store.loadAll_holds (.refl (({} : Store).loadAll Code.twins.constants).2)
  ⟨binary, accepted, holds, (targets_agree_iff binary accepted holds holds _).1⟩

/-- The double equals both integers, so neither hides the other. The linear search takes the first
of them, and the search of the sorted table begins with the second. -/
theorem SwitchTable.binaryTarget_twins :
    Code.twins.tableFaults Code.twins.binaryTables 0 twins = [] ∧
    let pool := ({} : Store).loadAll Code.twins.constants
    (twins.sorted pool.2 pool.1).binaryTarget pool.2 pool.1 (.float ⟨0x4340000000000000⟩) = 1 ∧
      twins.linearTarget pool.2 pool.1 (.float ⟨0x4340000000000000⟩) = 0 := by
  decide +kernel

end StackMachine
