import StackMachine.Machine.Program
import StackMachine.Proofs.Loading
import StackMachine.Proofs.Sorting
import StackMachine.Verify.Flow

/-! What linking keeps. Loading turns the literals of a module into values of the same tags, and
sorting a table only drops and reorders its cases. So linked code has the instructions, sizes and
constants of the code at rest, and its switches lead nowhere new. -/

namespace StackMachine

namespace SwitchTable

/-- A table with no other cases than the original has. -/
structure Narrows (t original : SwitchTable) : Prop where
  default : t.default = original.default
  keys : ∀ key ∈ t.keys, key ∈ original.keys
  targets : ∀ target ∈ t.targets, target ∈ original.targets
  paired : original.keys.size = original.targets.size → t.keys.size = t.targets.size

theorem Narrows.refl (t : SwitchTable) : t.Narrows t :=
  ⟨rfl, fun _ member => member, fun _ member => member, fun paired => paired⟩

theorem Narrows.trans {t u v : SwitchTable} (first : t.Narrows u) (second : u.Narrows v) :
    t.Narrows v :=
  ⟨first.default.trans second.default, fun key member => second.keys key (first.keys key member),
    fun target member => second.targets target (first.targets target member),
    fun paired => first.paired (second.paired paired)⟩

theorem sorted_narrows (t : SwitchTable) (s : Store) (constants : Array Value) :
    (t.sorted s constants).Narrows t := by
  unfold sorted
  dsimp only
  split
  · exact .refl t
  · have member (c : SwitchCase) (order : SwitchCase → SwitchCase → Ordering)
      (equal : SwitchCase → SwitchCase → Bool)
        (fuel : Nat) (kept : c ∈ Sorting.quicksort order fuel (Sorting.dropHidden equal t.cases)) :
        c.1 ∈ t.keys ∧ c.2 ∈ t.targets := by
      have unsorted := (Sorting.quicksort_perm _ _ _).mem_iff.mp kept
      have listed := (Sorting.dropHidden_sublist _).mem (Array.mem_toList_iff.mpr unsorted)
      obtain ⟨key, target⟩ := c
      exact ⟨Array.mem_toList_iff.mp (List.of_mem_zip listed).1,
        Array.mem_toList_iff.mp (List.of_mem_zip listed).2⟩
    refine ⟨rfl, fun key found => ?_, fun target found => ?_, fun _ => by simp⟩
    · obtain ⟨c, kept, rfl⟩ := Array.mem_map.mp found
      exact (member c _ _ _ kept).1
    · obtain ⟨c, kept, rfl⟩ := Array.mem_map.mp found
      exact (member c _ _ _ kept).2

end SwitchTable

namespace Code

def TablesNarrow (tables originals : Array SwitchTable) : Prop :=
  tables.size = originals.size ∧
    ∀ (index : Nat) (t : SwitchTable), tables[index]? = some t →
      ∃ original, originals[index]? = some original ∧ t.Narrows original

theorem TablesNarrow.refl (tables : Array SwitchTable) : TablesNarrow tables tables :=
  ⟨rfl, fun _ t found => ⟨t, found, .refl t⟩⟩

theorem TablesNarrow.modify {tables originals : Array SwitchTable}
    (narrow : TablesNarrow tables originals) (place : Nat) (s : Store) (constants : Array Value) :
    TablesNarrow (tables.modify place (·.sorted s constants)) originals := by
  refine ⟨by simpa using narrow.1, fun index t found => ?_⟩
  rw [Array.getElem?_modify] at found
  split at found
  · obtain ⟨u, there, rfl⟩ := Option.map_eq_some_iff.mp found
    obtain ⟨original, same, narrows⟩ := narrow.2 index u there
    exact ⟨original, same, (u.sorted_narrows s constants).trans narrows⟩
  · exact narrow.2 index t found

theorem sortTables_narrow (d : Code Value) (s : Store) :
    TablesNarrow (d.sortTables s).tables d.tables := by
  suffices ∀ (places : List Nat) (tables : Array SwitchTable), TablesNarrow tables d.tables →
      TablesNarrow (places.foldl (fun tables i => tables.modify i (·.sorted s d.constants)) tables)
        d.tables from
    this d.binaryTables d.tables (.refl _)
  intro places
  induction places with
  | nil => exact fun tables narrow => narrow
  | cons place places ih => exact fun tables narrow => ih _ (narrow.modify place s d.constants)

theorem TablesNarrow.jumpTargets {κ κ' : Type} {d : Code κ} {c : Code κ'}
    (narrow : TablesNarrow d.tables c.tables) {i : Instruction} {target : Nat}
    (member : target ∈ d.jumpTargets i) : target ∈ c.jumpTargets i := by
  cases i with
  | wide op table =>
    cases op with
    | switch strategy =>
      simp only [Code.jumpTargets] at member ⊢
      cases there : d.tables[table.toNat]? with
      | none => simp [there] at member
      | some t =>
        obtain ⟨original, same, narrows⟩ := narrow.2 table.toNat t there
        simp only [there, same, List.mem_append, List.mem_map, Array.mem_toList_iff] at member ⊢
        rw [← narrows.default]
        exact member.imp (fun ⟨target, found, same⟩ => ⟨target, narrows.targets target found, same⟩)
          id
    | _ => exact member
  | _ => exact member

/-- `d` is what loading and linking may make of `c`. -/
structure LinkedTo (d : Code Value) (c : Code Literal) : Prop where
  instructions : d.instructions = c.instructions
  tags : d.constants.map Value.tag = c.constants.map Literal.tag
  tables : TablesNarrow d.tables c.tables
  locals : d.locals = c.locals
  stack : d.stack = c.stack

theorem sortTables_linkedTo (c : Code Literal) (s s' : Store) :
    ((s.loadCode c).1.sortTables s').LinkedTo c where
  instructions := rfl
  tags := s.loadAll_tags c.constants
  tables := sortTables_narrow (s.loadCode c).1 s'
  locals := rfl
  stack := rfl

namespace LinkedTo

variable {d : Code Value} {c : Code Literal}

theorem constants_size (linked : d.LinkedTo c) : d.constants.size = c.constants.size := by
  simpa using congrArg Array.size linked.tags

theorem constant_tag (linked : d.LinkedTo c) {index : Nat} {v : Value}
    (found : d.constants[index]? = some v) :
    ∃ literal, c.constants[index]? = some literal ∧ v.tag = Literal.tag literal := by
  have same := congrArg (·[index]?) linked.tags
  simp only [Array.getElem?_map, found, Option.map_some] at same
  obtain ⟨literal, there, tag⟩ := Option.map_eq_some_iff.mp same.symm
  exact ⟨literal, there, tag.symm⟩

theorem jumpTargets (linked : d.LinkedTo c) {i : Instruction} {target : Nat}
    (member : target ∈ d.jumpTargets i) : target ∈ c.jumpTargets i :=
  linked.tables.jumpTargets member

end LinkedTo

end Code

namespace Function

structure LinkedTo (g : Function Value) (f : Function Literal) : Prop where
  minArgs : g.minArgs = f.minArgs
  maxArgs : g.maxArgs = f.maxArgs
  defaults : g.defaults.size = f.defaults.size
  code : (g.code? = none ∧ f.code? = none) ∨ ∃ d c, g.code? = some d ∧ f.code? = some c ∧
    d.LinkedTo c

theorem sortTables_linkedTo (f : Function Literal) (s s' : Store) :
    ((s.loadFunction f).1.sortTables s').LinkedTo f := by
  obtain ⟨name, module, minArgs, maxArgs, params, defaults, body⟩ := f
  cases body with
  | native => exact ⟨rfl, rfl, s.loadAll_size defaults, .inl ⟨rfl, rfl⟩⟩
  | bytecode code =>
    exact ⟨rfl, rfl, s.loadAll_size defaults,
      .inr ⟨_, code, rfl, rfl, code.sortTables_linkedTo _ s'⟩⟩

theorem code?_sortTables (f : Function Value) (s : Store) :
    (f.sortTables s).code? = f.code?.map (·.sortTables s) := by
  obtain ⟨name, module, minArgs, maxArgs, params, defaults, body⟩ := f
  cases body <;> rfl

end Function

namespace Store

theorem loadFunctions_places (s : Store) (fs : List (Function Literal))
    (loaded : Array (Function Value)) :
    ∃ more : List (Function Value),
      (fs.foldl (fun (loaded, s) f =>
        let (f, s) := s.loadFunction f
        (loaded.push f, s)) (loaded, s)).1.toList = loaded.toList ++ more ∧
      more.length = fs.length ∧
      ∀ (place : Nat) (g : Function Value), more[place]? = some g →
        ∃ (f : Function Literal) (s : Store), fs[place]? = some f ∧ g = (s.loadFunction f).1 := by
  induction fs generalizing s loaded with
  | nil => exact ⟨[], by simp, rfl, by simp⟩
  | cons f fs ih =>
    obtain ⟨more, listed, length, places⟩ :=
      ih (s.loadFunction f).2 (loaded.push (s.loadFunction f).1)
    refine ⟨(s.loadFunction f).1 :: more, ?_, by simp [length], fun place g found => ?_⟩
    · simpa using listed
    · cases place with
      | zero => exact ⟨f, s, rfl, (Option.some.inj found).symm⟩
      | succ place => exact places place g found

theorem loadModule_functions (s : Store) (m : Module Literal) :
    (s.loadModule m).1.functions.size = m.functions.size ∧
      ∀ (place : Nat) (g : Function Value), (s.loadModule m).1.functions[place]? = some g →
        ∃ (f : Function Literal) (s : Store), m.functions[place]? = some f ∧
          g = (s.loadFunction f).1 := by
  obtain ⟨more, listed, length, places⟩ := s.loadFunctions_places m.functions.toList #[]
  have functions : (s.loadModule m).1.functions = more.toArray := by
    apply Array.toList_inj.mp
    simpa [loadModule, loadFunctions] using listed
  rw [functions]
  refine ⟨by simpa using length, fun place g found => ?_⟩
  obtain ⟨f, s, there, same⟩ := places place g (by simpa using found)
  exact ⟨f, s, by simpa using there, same⟩

end Store

namespace Program

structure LinkedTo (p : Program) (m : Module Literal) : Prop where
  size : p.functions.size = m.functions.size
  functions : ∀ (place : Nat) (g : Function Value), p.functions[place]? = some g →
    ∃ f, m.functions[place]? = some f ∧ g.LinkedTo f

theorem link_linkedTo (m : Module Literal) (s s' : Store) (registry : Registry) :
    (link (s.loadModule m).1 s' registry).LinkedTo m := by
  obtain ⟨size, functions⟩ := s.loadModule_functions m
  refine ⟨by simpa [link] using size, fun place g found => ?_⟩
  simp only [link, Array.getElem?_map, Option.map_eq_some_iff] at found
  obtain ⟨loaded, there, rfl⟩ := found
  obtain ⟨f, s, same, rfl⟩ := functions place loaded there
  exact ⟨f, same, f.sortTables_linkedTo s s'⟩

theorem function?_link (m : Module Value) (s : Store) (registry : Registry) (id : UInt16) :
    (link m s registry).function? id = m.functions[id.toNat]?.map (·.sortTables s) := by
  simp [function?, link]

theorem code?_link (m : Module Value) (s : Store) (registry : Registry) (id : UInt16) :
    (link m s registry).code? id = (m.functions[id.toNat]?.bind (·.code?)).map
      (·.sortTables s) := by
  rw [code?, function?_link]
  cases m.functions[id.toNat]? with
  | none => rfl
  | some f => exact f.code?_sortTables s

theorem link_native? {m : Module Value} {s : Store} {registry : Registry} {id : UInt16}
    {native : Native} (bound : (link m s registry).native? id = some native) :
    ∃ name, registry name = some native := by
  simp only [native?, link, Array.getElem?_map, Option.join_eq_some_iff,
    Option.map_eq_some_iff] at bound
  obtain ⟨f, there, native⟩ := bound
  split at native
  · exact ⟨_, native⟩
  · contradiction

namespace LinkedTo

variable {p : Program} {m : Module Literal}

theorem code (linked : p.LinkedTo m) {id : UInt16} {f : Function Literal} {c : Code Literal}
    (there : m.functions[id.toNat]? = some f) (code : f.code? = some c) :
    ∃ d, p.code? id = some d ∧ d.LinkedTo c := by
  have inside : id.toNat < p.functions.size := linked.size ▸ (Array.getElem?_eq_some_iff.mp there).1
  have found : p.functions[id.toNat]? = some p.functions[id.toNat] :=
    Array.getElem?_eq_getElem inside
  obtain ⟨f', same, function⟩ := linked.functions id.toNat _ found
  obtain rfl : f' = f := Option.some.inj (same.symm.trans there)
  rcases function.code with ⟨_, none⟩ | ⟨d, c', some, rest, codes⟩
  · rw [code] at none
    contradiction
  · obtain rfl : c' = c := Option.some.inj (rest.symm.trans code)
    exact ⟨d, by simp [code?, function?, found, some], codes⟩

end LinkedTo

end Program

end StackMachine
