import StackMachine.Proofs.InPlaceSorting

/-! Which keys a binary switch may have. Scalars that can be compared with one another form classes,
and what is in no class cannot even be compared with itself. So a verifier that compares each key
with the first one finds a pair without an order if there is any. -/

namespace StackMachine

namespace Scalar

variable {a b c : Scalar}

def Comparable (a b : Scalar) : Prop :=
  ∃ order, a.compare? b = some (some order)

theorem comparable_iff :
    a.Comparable b ↔ a.kind = b.kind ∧ a.ordered = true ∧ b.ordered = true := by
  simp only [Comparable, compare?_eq_some_iff]
  constructor
  · rintro ⟨order, kinds, first, second, _⟩
    exact ⟨kinds, first, second⟩
  · rintro ⟨kinds, first, second⟩
    exact ⟨_, kinds, first, second, rfl⟩

theorem Comparable.symm (comparable : a.Comparable b) : b.Comparable a := by
  obtain ⟨kinds, first, second⟩ := comparable_iff.mp comparable
  exact comparable_iff.mpr ⟨kinds.symm, second, first⟩

theorem Comparable.trans (first : a.Comparable b) (second : b.Comparable c) : a.Comparable c := by
  obtain ⟨kinds, left, _⟩ := comparable_iff.mp first
  obtain ⟨kinds', _, right⟩ := comparable_iff.mp second
  exact comparable_iff.mpr ⟨kinds.trans kinds', left, right⟩

theorem not_comparable_iff : ¬ a.Comparable b ↔ a.compare? b = none ∨ a.compare? b = some none := by
  unfold Comparable
  rcases a.compare? b with _ | _ | order <;> simp

end Scalar

namespace Code

variable {c : Code Literal} {index functions : Nat} {t : SwitchTable}

theorem mutuallyOrdered_iff {keys : List Scalar} :
    mutuallyOrdered keys = true ↔ ∀ a ∈ keys, ∀ b ∈ keys, a.Comparable b := by
  cases keys with
  | nil => simp [mutuallyOrdered]
  | cons first rest =>
    have leading : mutuallyOrdered (first :: rest) = true ↔
        ∀ a ∈ first :: rest, first.Comparable a := by
      simp only [mutuallyOrdered, List.all_eq_true, Option.isSome_iff_exists,
        Option.bind_eq_some_iff, id_eq, Scalar.Comparable, exists_eq_right]
    rw [leading]
    exact ⟨fun led a inA b inB => (led a inA).symm.trans (led b inB),
      fun all => all first List.mem_cons_self⟩

/-- Some pair of keys of the table, perhaps a key and itself, has no order. -/
def Clashes (c : Code Literal) (t : SwitchTable) : Prop :=
  ∃ k ∈ t.keys, ∃ n ∈ t.keys, ∃ a b, c.key? k = some a ∧ c.key? n = some b ∧ ¬ a.Comparable b

theorem clashes_iff : c.Clashes t ↔ mutuallyOrdered (t.keys.toList.filterMap c.key?) = false := by
  rw [← Bool.not_eq_true, mutuallyOrdered_iff]
  simp only [Clashes, List.mem_filterMap, Array.mem_toList_iff, not_forall]
  constructor
  · rintro ⟨k, inK, n, inN, a, b, known, known', clash⟩
    exact ⟨a, ⟨k, inK, known⟩, b, ⟨n, inN, known'⟩, clash⟩
  · rintro ⟨a, ⟨k, inK, known⟩, b, ⟨n, inN, known'⟩, clash⟩
    exact ⟨k, inK, n, inN, a, b, known, known', clash⟩

theorem unorderedKeys_mem_tableFaults {place : Nat} {binary : List Nat} :
    .unorderedKeys index ∈ c.tableFaults binary place t ↔
      place = index ∧ place ∈ binary ∧ (∀ key ∈ t.keys, (c.key? key).isSome) ∧ c.Clashes t := by
  have known : (t.keys.toList.filterMap c.key?).length = t.keys.size ↔
      ∀ key ∈ t.keys, (c.key? key).isSome := by
    rw [← Array.length_toList, List.filterMap_length_eq_length]
    simp only [Array.mem_toList_iff]
  rw [clashes_iff, ← known]
  have listed : .unorderedKeys index ∈ c.tableFaults binary place t ↔
      ((place ∈ binary ∧ (t.keys.toList.filterMap c.key?).length = t.keys.size) ∧
        mutuallyOrdered (t.keys.toList.filterMap c.key?) = false) ∧ index = place := by
    simp [tableFaults]
  rw [listed]
  constructor
  · rintro ⟨⟨⟨used, all⟩, clash⟩, same⟩
    exact ⟨same.symm, used, all, clash⟩
  · rintro ⟨same, used, all, clash⟩
    exact ⟨⟨⟨used, all⟩, clash⟩, same.symm⟩

theorem unorderedKeys_mem_structureFaults : .unorderedKeys index ∈ c.structureFaults functions ↔
    ∃ t, c.tables[index]? = some t ∧ index ∈ c.binaryTables ∧
      (∀ key ∈ t.keys, (c.key? key).isSome) ∧ c.Clashes t := by
  simp [structureFaults, constantFaults, unorderedKeys_mem_tableFaults,
    List.mem_zipIdx_iff_getElem?]

end Code

namespace Store

variable {s : Store} {constants : Array Value} {c : Code Literal} {keys : Array UInt16}
  {key : UInt16} {a b : Scalar}
  {v w : Value}

theorem compare_unordered_iff (left : s.scalar? v = some a) (right : s.scalar? w = some b) :
    ((∃ e, s.compare v w = .error e) ∨ s.compare v w = .ok none) ↔ ¬ a.Comparable b := by
  rw [Scalar.not_comparable_iff]
  simp only [compare, left, right]
  cases a.compare? b <;> simp

theorem Holds.exists_reads (holds : s.Holds constants c.constants) (member : key ∈ keys)
    (known : c.key? key = some a) :
    ∃ i v, SwitchTable.Reads constants keys i v ∧ s.scalar? v = some a := by
  obtain ⟨i, there⟩ := Array.mem_iff_getElem?.mp member
  obtain ⟨v, found, scalar⟩ := holds.key known
  exact ⟨i, v, ⟨key, there, found⟩, scalar⟩

theorem Holds.of_reads (holds : s.Holds constants c.constants)
    (scalars : ∀ key ∈ keys, (c.key? key).isSome) {i : Nat}
    (read : SwitchTable.Reads constants keys i v) :
    ∃ key ∈ keys, ∃ a, c.key? key = some a ∧ s.scalar? v = some a := by
  obtain ⟨key, there, found⟩ := read
  have member := Array.mem_of_getElem? there
  obtain ⟨a, known⟩ := Option.isSome_iff_exists.mp (scalars key member)
  obtain ⟨v', found', scalar⟩ := holds.key known
  obtain rfl := Option.some.inj (found.symm.trans found')
  exact ⟨key, member, a, known, scalar⟩

end Store

theorem Code.clashes_iff_compare {c : Code Literal} {t : SwitchTable} {s : Store}
    {constants : Array Value} (holds : s.Holds constants c.constants)
    (scalars : ∀ key ∈ t.keys, (c.key? key).isSome) :
    c.Clashes t ↔ ∃ i j v w, SwitchTable.Reads constants t.keys i v ∧
      SwitchTable.Reads constants t.keys j w ∧
      ((∃ e, s.compare v w = .error e) ∨ s.compare v w = .ok none) := by
  constructor
  · rintro ⟨k, inK, n, inN, a, b, known, known', clash⟩
    obtain ⟨i, v, read, scalar⟩ := holds.exists_reads inK known
    obtain ⟨j, w, read', scalar'⟩ := holds.exists_reads inN known'
    exact ⟨i, j, v, w, read, read', (Store.compare_unordered_iff scalar scalar').mpr clash⟩
  · rintro ⟨i, j, v, w, read, read', unordered⟩
    obtain ⟨k, inK, a, known, scalar⟩ := holds.of_reads scalars read
    obtain ⟨n, inN, b, known', scalar'⟩ := holds.of_reads scalars read'
    exact ⟨k, inK, n, inN, a, b, known, known',
      (Store.compare_unordered_iff scalar scalar').mp unordered⟩

namespace Function

variable {f : Function Literal} {name : String} {fault : FunctionFault}

theorem mem_codeErrors {faults : Code Literal → List FunctionFault} :
    .function name fault ∈ f.codeErrors faults ↔
      f.qualifiedName = name ∧ ∃ c, f.code? = some c ∧ fault ∈ faults c := by
  unfold codeErrors
  cases f.code? <;> simp [and_comm]

theorem unorderedKeys_not_mem_descriptorFaults {index : Nat} :
    .unorderedKeys index ∉ f.descriptorFaults := by
  unfold descriptorFaults
  dsimp only
  split
  · simp
  · cases f.code? <;> simp

end Function

namespace Module

theorem unorderedKeys_mem_structureErrors {m : Module Literal} {name : String} {index : Nat} :
    .function name (.unorderedKeys index) ∈ m.structureErrors ↔
      ∃ f ∈ m.functions, f.qualifiedName = name ∧
        ∃ c, f.code? = some c ∧ .unorderedKeys index ∈ c.structureFaults m.functions.size := by
  unfold structureErrors
  cases m.entry <;> simp [Function.mem_codeErrors, Function.unorderedKeys_not_mem_descriptorFaults]

/-- Comparing the keys of a table with the first one finds every pair without an order. For a table
of a binary switch whose keys are all scalar constants, the verifier reports unordered keys exactly
if some two keys, or a key and itself, have no order: in any store that holds the constants,
comparing them fails or finds none. What it reports of a module are these tables, each under the
name of its function. -/
theorem unorderedKeys_exact (m : Module Literal) :
    (∀ name index, .function name (.unorderedKeys index) ∈ m.structureErrors ↔
      ∃ f ∈ m.functions, f.qualifiedName = name ∧
        ∃ c, f.code? = some c ∧ .unorderedKeys index ∈ c.structureFaults m.functions.size) ∧
    ∀ (c : Code Literal) (functions : Nat) (table : UInt16) (t : SwitchTable),
      .wide (.switch .binary) table ∈ c.instructions → c.tables[table.toNat]? = some t →
      (∀ key ∈ t.keys, (c.key? key).isSome) →
      (.unorderedKeys table.toNat ∈ c.structureFaults functions ↔
        ∃ k ∈ t.keys, ∃ n ∈ t.keys, ∃ a b, c.key? k = some a ∧ c.key? n = some b ∧
          (a.compare? b = none ∨ a.compare? b = some none)) ∧
      ∀ (s : Store) (constants : Array Value), s.Holds constants c.constants →
        (.unorderedKeys table.toNat ∈ c.structureFaults functions ↔
          ∃ i j v w, SwitchTable.Reads constants t.keys i v ∧
            SwitchTable.Reads constants t.keys j w ∧
            ((∃ e, s.compare v w = .error e) ∨ s.compare v w = .ok none)) := by
  refine ⟨fun name index => unorderedKeys_mem_structureErrors,
    fun c functions table t used there scalars => ?_⟩
  have binary : table.toNat ∈ c.binaryTables :=
    List.mem_filterMap.mpr ⟨_, Array.mem_toList_iff.mpr used, rfl⟩
  have reported : .unorderedKeys table.toNat ∈ c.structureFaults functions ↔ c.Clashes t := by
    rw [Code.unorderedKeys_mem_structureFaults]
    refine ⟨fun ⟨u, found, _, _, clash⟩ => ?_, fun clash => ⟨t, there, binary, scalars, clash⟩⟩
    exact Option.some.inj (found.symm.trans there) ▸ clash
  refine ⟨?_, fun s constants holds => reported.trans (Code.clashes_iff_compare holds scalars)⟩
  simp only [reported, Code.Clashes, Scalar.not_comparable_iff]

end Module

def Code.motley : Code Literal where
  instructions := #[.wide (.switch .binary) 0, .plain .halt]
  constants := #[.scalar (.int 1), .scalar (.float ⟨0x4000000000000000⟩), .scalar (.text "a"),
    .scalar (.float ⟨0x7ff8000000000000⟩)]
  tables := #[{ keys := #[0, 1, 2, 3], targets := #[1, 1, 1, 1], default := 1 }]

/-- The second key and the third cannot be compared in the store that the constants are loaded into,
and the last one not even with itself. -/
theorem Module.unorderedKeys_exact_motley :
    let t : SwitchTable := { keys := #[0, 1, 2, 3], targets := #[1, 1, 1, 1], default := 1 }
    let pool := ({} : Store).loadAll Code.motley.constants
    (.wide (.switch .binary) 0 ∈ Code.motley.instructions ∧ Code.motley.tables[0]? = some t ∧
      (∀ key ∈ t.keys, (Code.motley.key? key).isSome) ∧
      pool.2.Holds pool.1 Code.motley.constants) ∧
    (∃ v w e, SwitchTable.Reads pool.1 t.keys 1 v ∧ SwitchTable.Reads pool.1 t.keys 2 w ∧
      pool.2.compare v w = .error e) ∧
    .unorderedKeys 0 ∈ Code.motley.structureFaults 1 ∧
    ∃ v, SwitchTable.Reads pool.1 t.keys 3 v ∧ pool.2.compare v v = .ok none := by
  intro t pool
  have used : .wide (.switch .binary) 0 ∈ Code.motley.instructions := by simp [Code.motley]
  have scalars : ∀ key ∈ t.keys, (Code.motley.key? key).isSome := by
    simp [t, Code.motley, Code.key?, Literal.scalar?]
  have holds := Store.loadAll_holds (.refl pool.2)
  obtain ⟨_, sound⟩ := unorderedKeys_exact {}
  obtain ⟨_, reported⟩ := sound Code.motley 1 0 t used rfl scalars
  have number : SwitchTable.Reads pool.1 t.keys 1 (.float ⟨0x4000000000000000⟩) := ⟨1, rfl, rfl⟩
  have text : SwitchTable.Reads pool.1 t.keys 2 (.text ⟨0⟩) := ⟨2, rfl, rfl⟩
  have apart : pool.2.compare (.float ⟨0x4000000000000000⟩) (.text ⟨0⟩) = .error _ := rfl
  refine ⟨⟨used, rfl, scalars, holds⟩, ⟨_, _, _, number, text, apart⟩, ?_, ?_⟩
  · exact (reported pool.2 pool.1 holds).mpr ⟨1, 2, _, _, number, text, .inl ⟨_, apart⟩⟩
  · exact ⟨_, ⟨3, rfl, rfl⟩, rfl⟩

end StackMachine
