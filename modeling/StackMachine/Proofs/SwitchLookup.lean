import StackMachine.Machine.Step
import StackMachine.Proofs.InPlaceSorting

/-! How a switch looks for its case, in a table of any shape. A run is a derivation that ends at the
place of a case, or at none; it has no rule for a place outside a column. Every lookup has exactly
one run, and where that ends at a case, the key of the case is equal to the selector. So a selector
that equals nothing takes the default. -/

namespace StackMachine

namespace Value

/-- Values that have no order, not even with themselves. -/
inductive Unordered : Value → Prop
  | undefined : Unordered .undefined
  | list (ref : ListRef) : Unordered (.list ref)
  | map (ref : MapRef) : Unordered (.map ref)
  | notANumber {x : Double} (pattern : x.isNaN = true) : Unordered (.float x)

theorem Unordered.not_equal {s : Store} {v selector : Value} (unordered : selector.Unordered) :
    s.compare v selector ≠ .ok (some .eq) := by
  intro equal
  obtain ⟨a, b, _, read, compared⟩ := Store.compare_eq_ok_iff.mp equal
  obtain ⟨_, _, ordered, _⟩ := Scalar.compare?_eq_some_iff.mp compared
  cases unordered with
  | notANumber pattern =>
    obtain rfl := Option.some.inj read
    simp [Scalar.ordered, pattern] at ordered
  | _ => simp [Store.scalar?] at read

end Value

namespace SwitchTable

section Runs

variable (t : SwitchTable) (s : Store) (constants : Array Value) (selector : Value)

def MatchesAt (i : Nat) : Prop :=
  ∃ v, Reads constants t.keys i v ∧ s.compare v selector = .ok (some .eq)

/-- The key at a place is compared with the selector. There is no result if it stands for no
constant, or if the two are not ordered. -/
def Probe (i : Nat) (result : Option Ordering) : Prop :=
  ∃ key, t.keys[i]? = some key ∧ (constants[key.toNat]?.bind (s.order? · selector)) = result

inductive Tries : Nat → Option Nat → Prop
  | ended {i : Nat} (done : min t.keys.size t.targets.size ≤ i) : Tries i none
  | hit {i : Nat} (inside : i < t.targets.size)
    (probe : t.Probe s constants selector i (some .eq)) : Tries i (some i)
  | miss {i : Nat} {result : Option Ordering} {place : Option Nat} (inside : i < t.targets.size)
    (probe : t.Probe s constants selector i result) (unequal : result ≠ some .eq)
    (rest : Tries (i + 1) place) : Tries i place

inductive Seeks : Nat → Nat → Option Nat → Prop
  | ended {low high : Nat} (closed : high ≤ low) : Seeks low high none
  | lost {low high m : Nat} (wide : low < high) (middle : low + (high - low) / 2 = m)
      (probe : t.Probe s constants selector m none) : Seeks low high none
  | hit {low high m : Nat} (wide : low < high) (middle : low + (high - low) / 2 = m)
    (probe : t.Probe s constants selector m (some .eq)) (inside : m < t.targets.size) :
    Seeks low high (some m)
  | upper {low high m : Nat} {place : Option Nat} (wide : low < high)
    (middle : low + (high - low) / 2 = m) (probe : t.Probe s constants selector m (some .lt))
    (rest : Seeks (m + 1) high place) : Seeks low high place
  | lower {low high m : Nat} {place : Option Nat} (wide : low < high)
    (middle : low + (high - low) / 2 = m) (probe : t.Probe s constants selector m (some .gt))
    (rest : Seeks low m place) : Seeks low high place

/-- The whole lookup. For a selector that is no scalar nothing is compared. -/
inductive Looks : Strategy → Option Nat → Prop
  | refused {strategy : Strategy} (compound : selector.isScalar = false) : Looks strategy none
  | linear {place : Option Nat} (scalar : selector.isScalar = true)
    (run : t.Tries s constants selector 0 place) : Looks .linear place
  | binary {place : Option Nat} (scalar : selector.isScalar = true)
    (run : t.Seeks s constants selector 0 (min t.keys.size t.targets.size) place) :
    Looks .binary place

def targetAt (place : Option Nat) : UInt32 :=
  place.elim t.default fun i => t.targets.getD i t.default

end Runs

variable {t : SwitchTable} {s : Store} {constants : Array Value} {selector : Value}

theorem Probe.inside {i : Nat} {result : Option Ordering}
    (probe : t.Probe s constants selector i result) : i < t.keys.size := by
  obtain ⟨_, there, _⟩ := probe
  exact (Array.getElem?_eq_some_iff.mp there).1

theorem Probe.unique {i : Nat} {result result' : Option Ordering}
    (first : t.Probe s constants selector i result)
    (second : t.Probe s constants selector i result') : result = result' := by
  obtain ⟨key, there, rfl⟩ := first
  obtain ⟨key', there', rfl⟩ := second
  rw [Option.some.inj (there.symm.trans there')]

theorem matchesAt_iff_probe {i : Nat} :
    t.MatchesAt s constants selector i ↔ t.Probe s constants selector i (some .eq) := by
  simp only [MatchesAt, Reads, Probe, Option.bind_eq_some_iff, Store.order?_eq_some_iff]
  constructor
  · rintro ⟨v, ⟨key, there, found⟩, equal⟩
    exact ⟨key, there, v, found, equal⟩
  · rintro ⟨key, there, v, found, equal⟩
    exact ⟨v, ⟨key, there, found⟩, equal⟩

theorem Tries.unique {i : Nat} {place place' : Option Nat}
    (first : t.Tries s constants selector i place)
    (second : t.Tries s constants selector i place') : place = place' := by
  induction first with
  | ended done =>
    cases second with
    | ended => rfl
    | hit inside probe => exact absurd (Nat.lt_min.mpr ⟨probe.inside, inside⟩) (Nat.not_lt.mpr done)
    | miss inside probe =>
      exact absurd (Nat.lt_min.mpr ⟨probe.inside, inside⟩) (Nat.not_lt.mpr done)
  | hit inside probe =>
    cases second with
    | ended done => exact absurd (Nat.lt_min.mpr ⟨probe.inside, inside⟩) (Nat.not_lt.mpr done)
    | hit => rfl
    | miss _ probe' unequal => exact absurd (probe'.unique probe) unequal
  | miss inside probe unequal _ ih =>
    cases second with
    | ended done => exact absurd (Nat.lt_min.mpr ⟨probe.inside, inside⟩) (Nat.not_lt.mpr done)
    | hit _ probe' => exact absurd (probe.unique probe') unequal
    | miss _ _ _ rest' => exact ih rest'

theorem Seeks.unique {low high : Nat} {place place' : Option Nat}
    (first : t.Seeks s constants selector low high place)
    (second : t.Seeks s constants selector low high place') : place = place' := by
  -- Two runs stand at the same middle, and there they find the same result.
  induction first with
  | ended closed => cases second <;> grind
  | lost wide middle probe => cases second <;> grind [Probe.unique]
  | hit wide middle probe inside => cases second <;> grind [Probe.unique]
  | upper wide middle probe _ ih => cases second <;> grind [Probe.unique]
  | lower wide middle probe _ ih => cases second <;> grind [Probe.unique]

theorem Looks.unique {strategy : Strategy} {place place' : Option Nat}
    (first : t.Looks s constants selector strategy place)
    (second : t.Looks s constants selector strategy place') : place = place' := by
  cases first with
  | refused compound =>
    cases second with
    | refused => rfl
    | linear scalar => simp [compound] at scalar
    | binary scalar => simp [compound] at scalar
  | linear scalar run =>
    cases second with
    | refused compound => simp [compound] at scalar
    | linear _ run' => exact run.unique run'
  | binary scalar run =>
    cases second with
    | refused compound => simp [compound] at scalar
    | binary _ run' => exact run.unique run'

def picked (s : Store) (constants : Array Value) (selector : Value) (x : SwitchCase) : Bool :=
  constants[x.1.toNat]?.bind (s.order? · selector) == some .eq

theorem linearTarget_eq_find? (scalar : selector.isScalar = true) :
    t.linearTarget s constants selector = ((t.cases.find? (picked s constants selector)).map
      (·.2)).getD t.default := by
  have same (test : SwitchCase → Bool)
    (agree : ∀ x ∈ t.cases, test x = picked s constants selector x) :
      t.cases.find? test = t.cases.find? (picked s constants selector) := List.find?_congr agree
  unfold linearTarget
  rw [scalar, if_neg (by simp)]
  dsimp only
  rw [same _ fun x _ => ?_]
  · cases t.cases.find? (picked s constants selector) <;> rfl
  · unfold picked
    cases constants[x.1.toNat]? <;> rfl

theorem tries_find? {rest : List SwitchCase} {i : Nat}
    (span : i + rest.length = min t.keys.size t.targets.size)
    (lists : Columns.Lists ⟨t.keys, t.targets⟩ i rest) :
    ∃ place, t.Tries s constants selector i place ∧
      ((rest.find? (picked s constants selector)).map (·.2)).getD t.default = t.targetAt place := by
  induction rest generalizing i with
  | nil => exact ⟨none, .ended (by simpa using Nat.le_of_eq span.symm), rfl⟩
  | cons x rest ih =>
    rw [List.length_cons] at span
    obtain ⟨key, target⟩ := lists.head
    have inside : i < t.targets.size := (Array.getElem?_eq_some_iff.mp target).1
    have probe : t.Probe s constants selector i _ := ⟨x.1, key, rfl⟩
    rw [List.find?_cons]
    split
    next hit =>
      refine ⟨some i, .hit inside (beq_iff_eq.mp hit ▸ probe), ?_⟩
      simp [targetAt, target]
    next missed =>
      obtain ⟨place, run, found⟩ := ih (by omega) lists.tail
      exact ⟨place, .miss inside probe (by simpa [picked] using missed) run, found⟩

theorem seeks_search {fuel low high : Nat} (bound : high ≤ min t.keys.size t.targets.size)
    (enough : high - low < fuel) :
    ∃ place, t.Seeks s constants selector low high place ∧
      t.search s constants selector fuel low high = t.targetAt place := by
  induction fuel generalizing low high with
  | zero => omega
  | succ fuel ih =>
    unfold search
    split
    next wide =>
      generalize middle : low + (high - low) / 2 = m
      have inKeys : m < t.keys.size := by omega
      have there : t.keys[m]? = some t.keys[m] := Array.getElem?_eq_getElem inKeys
      have probe : t.Probe s constants selector m _ := ⟨_, there, rfl⟩
      simp only [there, Option.bind_some]
      cases found : constants[t.keys[m].toNat]? with
      | none =>
        rw [found] at probe
        exact ⟨none, .lost wide middle probe, rfl⟩
      | some v =>
        simp only [found, Option.bind_some] at probe ⊢
        cases order : s.order? v selector with
        | none => exact ⟨none, .lost wide middle (order ▸ probe), rfl⟩
        | some result =>
          rw [order] at probe
          cases result with
          | eq => exact ⟨some m, .hit wide middle probe (by omega), rfl⟩
          | lt =>
            obtain ⟨place, run, same⟩ := @ih (m + 1) high bound (by omega)
            exact ⟨place, .upper wide middle probe run, same⟩
          | gt =>
            obtain ⟨place, run, same⟩ := @ih low m (by omega) (by omega)
            exact ⟨place, .lower wide middle probe run, same⟩
    next closed => exact ⟨none, .ended (Nat.le_of_not_lt closed), rfl⟩

theorem exists_looks (t : SwitchTable) (s : Store) (constants : Array Value) (selector : Value)
    (strategy : Strategy) :
    ∃ place, t.Looks s constants selector strategy place ∧
      strategy.target t constants selector s = t.targetAt place := by
  cases scalar : selector.isScalar with
  | false =>
    refine ⟨none, .refused scalar, ?_⟩
    cases strategy <;> simp [Strategy.target, linearTarget, binaryTarget, scalar, targetAt]
  | true =>
    cases strategy with
    | linear =>
      obtain ⟨place, run, found⟩ := @tries_find? t s constants selector t.cases 0
        (by rw [Nat.zero_add, cases_length]) (Columns.lists_cases t)
      exact ⟨place, .linear scalar run, (linearTarget_eq_find? scalar).trans found⟩
    | binary =>
      obtain ⟨place, run, found⟩ :=
        @seeks_search t s constants selector (min t.keys.size t.targets.size + 1) 0
        (min t.keys.size t.targets.size) (Nat.le_refl _) (by omega)
      refine ⟨place, .binary scalar run, ?_⟩
      simp only [Strategy.target, binaryTarget, scalar]
      exact found

theorem Tries.hits {i k : Nat} {place : Option Nat} (run : t.Tries s constants selector i place)
    (ends : place = some k) : k < t.targets.size ∧ t.MatchesAt s constants selector k := by
  induction run with
  | ended => contradiction
  | hit inside probe =>
    obtain rfl := Option.some.inj ends
    exact ⟨inside, matchesAt_iff_probe.mpr probe⟩
  | miss _ _ _ _ ih => exact ih ends

theorem Seeks.hits {low high k : Nat} {place : Option Nat}
    (run : t.Seeks s constants selector low high place) (ends : place = some k) :
    k < t.targets.size ∧ t.MatchesAt s constants selector k := by
  induction run with
  | ended => contradiction
  | lost => contradiction
  | hit _ _ probe inside =>
    obtain rfl := Option.some.inj ends
    exact ⟨inside, matchesAt_iff_probe.mpr probe⟩
  | upper _ _ _ _ ih => exact ih ends
  | lower _ _ _ _ ih => exact ih ends

theorem Looks.hits {strategy : Strategy} {place : Option Nat} {k : Nat}
    (run : t.Looks s constants selector strategy place) (ends : place = some k) :
    k < t.targets.size ∧ t.MatchesAt s constants selector k := by
  cases run with
  | refused => contradiction
  | linear _ run => exact run.hits ends
  | binary _ run => exact run.hits ends

theorem Tries.passed {i k : Nat} {place : Option Nat} (run : t.Tries s constants selector i place)
    (ahead : i ≤ k) (inside : k < min t.keys.size t.targets.size)
    (before : ∀ n, place = some n → k < n) : ¬ t.MatchesAt s constants selector k := by
  induction run with
  | ended done => omega
  | hit => exact absurd (before _ rfl) (Nat.not_lt.mpr ahead)
  | @miss i _ _ _ probe unequal _ ih =>
    by_cases here : k = i
    · subst here
      rw [matchesAt_iff_probe]
      exact fun hit => unequal (probe.unique hit)
    · exact ih (by omega) before

theorem Looks.passed {k : Nat} {place : Option Nat}
    (run : t.Looks s constants selector .linear place) (inside : k < min t.keys.size t.targets.size)
    (before : ∀ n, place = some n → k < n) : ¬ t.MatchesAt s constants selector k := by
  cases run with
  | refused compound =>
    rintro ⟨v, _, equal⟩
    obtain ⟨_, b, _, read, _⟩ := Store.compare_eq_ok_iff.mp equal
    rw [isScalar_of_scalar? read] at compound
    contradiction
  | linear _ run => exact run.passed (Nat.zero_le k) inside before

/-- A switch never invents a match, whatever its table is. Its lookup has one run, which reads no
place outside the columns; it ends at a case whose key stands for a constant equal to the selector,
and leads to the target of that case, or else it leads to the default. With a selector that has no
order it always leads there. A linear switch ends at the first case of the selector that has both a
key and a target, and takes the default only if there is none. -/
theorem lookup_exact (t : SwitchTable) (s : Store) (constants : Array Value) (selector : Value)
    (strategy : Strategy) :
    ∃ place, (∀ other, t.Looks s constants selector strategy other ↔ other = place) ∧
      (place = none → strategy.target t constants selector s = t.default) ∧
      (∀ i, place = some i →
        t.targets[i]? = some (strategy.target t constants selector s) ∧
          t.MatchesAt s constants selector i) ∧
      (selector.Unordered → place = none) ∧
      (strategy = .linear → ∀ i < min t.keys.size t.targets.size, (∀ n, place = some n → i < n) →
        ¬ t.MatchesAt s constants selector i) := by
  obtain ⟨place, run, leads⟩ := t.exists_looks s constants selector strategy
  refine ⟨place, fun other => ⟨fun run' => run'.unique run, fun same => same ▸ run⟩, ?_,
    fun i ends => ?_, fun unordered => ?_, ?_⟩
  · rintro rfl
    exact leads
  · obtain ⟨inside, hit⟩ := run.hits ends
    refine ⟨?_, hit⟩
    rw [leads, ends]
    simp [targetAt, inside]
  · cases ends : place with
    | none => rfl
    | some i =>
      obtain ⟨_, v, _, equal⟩ := run.hits ends
      exact absurd equal unordered.not_equal
  · rintro rfl i inside before
    exact run.passed inside before

/-- More keys than targets, not in order, and one of them without a constant. -/
def ragged : SwitchTable where
  keys := #[1, 7, 0]
  targets := #[10, 11]
  default := 99

theorem lookup_exact_ragged :
    let constants : Array Value := #[.int 1, .int 2]
    let selector : Value := .float ⟨0x7ff8000000000000⟩
    selector.Unordered ∧
      (∀ strategy, ragged.Looks {} constants selector strategy none ∧
        strategy.target ragged constants selector {} = 99) ∧
      (∃ i, ragged.Looks {} constants (.int 2) .linear (some i) ∧
        ragged.MatchesAt {} constants (.int 2) i) ∧
      ∀ i < 2, ¬ ragged.MatchesAt {} constants (.int 1) i := by
  intro constants selector
  have unordered : selector.Unordered := .notANumber (by decide)
  refine ⟨unordered, fun strategy => ?_, ?_, fun i inside => ?_⟩
  · obtain ⟨place, run, default, _, refused, _⟩ :=
      lookup_exact ragged {} constants selector strategy
    exact ⟨(run none).mpr (refused unordered).symm, default (refused unordered)⟩
  · obtain ⟨place, run, default, hits, _⟩ := lookup_exact ragged {} constants (.int 2) .linear
    cases place with
    | none => exact absurd (default rfl) (by decide +kernel)
    | some i => exact ⟨i, (run _).mpr rfl, (hits i rfl).2⟩
  · obtain ⟨place, _, _, hits, _, passed⟩ := lookup_exact ragged {} constants (.int 1) .linear
    refine passed rfl i inside fun n ends => ?_
    obtain ⟨target, _⟩ := hits n ends
    have taken : Strategy.linear.target ragged constants (.int 1) {} = 99 := by decide +kernel
    rw [taken] at target
    exact absurd (Array.mem_of_getElem? target) (by simp [ragged])

end SwitchTable

end StackMachine
