import StackMachine.Proofs.Depths
import StackMachine.Proofs.Effects
import StackMachine.Proofs.Linking
import StackMachine.Verify

/-! What an accepted module promises to the machine. Every function has depths without a fault, and
whatever one of its instructions names is there, also after linking. So no instruction has an
operand to fault over. -/

namespace StackMachine

namespace Code

structure Accepted (functions : Nat) (c : Code Literal) : Prop where
  certified : c.Certified
  operands : ∀ (place : Nat) (i : Instruction), c.instructions[place]? = some i →
    c.instructionFaults functions i = []
  tables : ∀ (index : Nat) (t : SwitchTable), c.tables[index]? = some t →
    c.tableFaults c.binaryTables index t = []

theorem mem_zipIdx_of_getElem? {α : Type} {items : Array α} {place : Nat} {item : α}
    (there : items[place]? = some item) : (item, place) ∈ items.toList.zipIdx := by
  rw [List.mem_zipIdx_iff_getElem?, Array.getElem?_toList]
  exact there

theorem accepted_of_faultless {functions : Nat} {c : Code Literal}
    (structural : c.structureFaults functions = []) (depths : c.stackFaults = []) :
    c.Accepted functions := by
  simp only [structureFaults, List.append_eq_nil_iff] at structural
  obtain ⟨⟨_, operands⟩, tables⟩ := structural
  simp only [List.flatMap_eq_nil_iff] at operands tables
  refine ⟨certified_of_faultless depths, fun place i there => ?_, fun index t there => ?_⟩
  · exact List.map_eq_nil_iff.mp (operands (i, place) (mem_zipIdx_of_getElem? there))
  · exact tables (t, index) (mem_zipIdx_of_getElem? there)

end Code

namespace Function

/-- A function whose descriptor fits: it has a default for each argument that may be left out, and a
local for each parameter. -/
structure Described (f : Function Literal) : Prop where
  ordered : f.minArgs.toNat ≤ f.maxArgs.toNat
  defaults : f.defaults.size = f.maxArgs.toNat - f.minArgs.toNat
  roomy : ∀ c, f.code? = some c → f.maxArgs.toNat ≤ c.locals.toNat

theorem described_of_faultless {f : Function Literal} (faultless : f.descriptorFaults = []) :
    f.Described := by
  unfold descriptorFaults at faultless
  dsimp only at faultless
  split at faultless
  · contradiction
  next ordered =>
    simp only [List.append_eq_nil_iff] at faultless
    obtain ⟨⟨⟨defaults, _⟩, _⟩, locals⟩ := faultless
    exact ⟨by omega, by simpa using defaults, fun c some => by simpa [some] using locals⟩

structure Accepted (functions : Nat) (f : Function Literal) : Prop where
  ordered : f.minArgs.toNat ≤ f.maxArgs.toNat
  defaults : f.defaults.size = f.maxArgs.toNat - f.minArgs.toNat
  roomy : ∀ c, f.code? = some c → f.maxArgs.toNat ≤ c.locals.toNat
  code : ∀ c, f.code? = some c → c.Accepted functions

end Function

theorem Module.accepted_of_verify {m : Module Literal} {place : Nat} {f : Function Literal}
    (accepted : m.verify = []) (there : m.functions[place]? = some f) :
    f.Accepted m.functions.size := by
  have member : f ∈ m.functions.toList := Array.mem_toList_iff.mpr (Array.mem_of_getElem? there)
  simp only [verify, List.append_eq_nil_iff] at accepted
  obtain ⟨⟨_, structural⟩, depths⟩ := accepted
  rw [structural] at depths
  have stack := List.flatMap_eq_nil_iff.mp depths f member
  simp only [structureErrors, List.append_eq_nil_iff, List.flatMap_eq_nil_iff] at structural
  obtain ⟨descriptor, code⟩ := structural.2 f member
  obtain ⟨ordered, defaults, roomy⟩ :=
    Function.described_of_faultless (List.map_eq_nil_iff.mp descriptor)
  refine ⟨ordered, defaults, roomy, fun c some => ?_⟩
  simp only [Function.codeErrors, some, List.map_eq_nil_iff] at code stack
  exact Code.accepted_of_faultless code stack

namespace Instruction

/-- Whatever an instruction names is there, in linked code of a program of `functions` functions. -/
structure Grounded (d : Code Value) (functions : Nat) (i : Instruction) : Prop where
  slot : ∀ slot, i.slot? = some slot → slot.toNat < d.locals.toNat
  constant : ∀ index, i = .wide .constant index → index.toNat < d.constants.size
  name : ∀ index, i = .wide .global index → ∃ ref, d.constants[index.toNat]? = some (.text ref)
  table : ∀ strategy index, i = .wide (.switch strategy) index →
    ∃ t, d.tables[index.toNat]? = some t ∧
    t.keys.size = t.targets.size ∧ ∀ key ∈ t.keys, key.toNat < d.constants.size
  target : ∀ target ∈ d.jumpTargets i, target < d.instructions.size
  callee : ∀ keep id argc, i = .call keep id argc → id.toNat < functions

theorem Grounded.not_blames {d : Code Value} {functions : Nat} {i : Instruction}
    (grounded : i.Grounded d functions) (real : i ≠ .plain .unreachable) (cause : Fault) :
    ¬ i.Blames d d.locals.toNat cause := by
  intro blame
  cases cause with
  | localOutOfRange n =>
    obtain ⟨slot, named, rfl, outside⟩ := blame
    exact Nat.not_lt.mpr outside (grounded.slot slot named)
  | constantOutOfRange n =>
    obtain ⟨op, index, rfl, rfl | rfl, rfl, outside⟩ := blame
    · exact Nat.not_lt.mpr outside (grounded.constant index rfl)
    · obtain ⟨ref, there⟩ := grounded.name index rfl
      exact Nat.not_lt.mpr outside (Array.getElem?_eq_some_iff.mp there).1
  | nameNotText found =>
    obtain ⟨index, v, rfl, there, rfl, other⟩ := blame
    obtain ⟨ref, text⟩ := grounded.name index rfl
    obtain rfl := Option.some.inj (there.symm.trans text)
    exact other rfl
  | tableOutOfRange n =>
    obtain ⟨strategy, table, rfl, rfl, outside⟩ := blame
    obtain ⟨t, there, _⟩ := grounded.table strategy table rfl
    exact Nat.not_lt.mpr outside (Array.getElem?_eq_some_iff.mp there).1
  | unreachable => exact real blame
  | _ => exact blame

end Instruction

namespace Code.LinkedTo

variable {d : Code Value} {c : Code Literal} {functions : Nat} {i : Instruction}

theorem table (linked : d.LinkedTo c) (accepted : c.Accepted functions) {index : Nat}
    (inside : index < c.tables.size) :
    ∃ t, d.tables[index]? = some t ∧ t.keys.size = t.targets.size ∧
      (∀ key ∈ t.keys, key.toNat < d.constants.size) ∧
      (∀ target ∈ t.targets, target.toNat < d.instructions.size) ∧
        t.default.toNat < d.instructions.size := by
  have inside : index < d.tables.size := linked.tables.1 ▸ inside
  have there : d.tables[index]? = some d.tables[index] := Array.getElem?_eq_getElem inside
  obtain ⟨original, same, narrows⟩ := linked.tables.2 index _ there
  have faultless := accepted.tables index original same
  simp only [tableFaults, List.append_eq_nil_iff, List.filterMap_eq_nil_iff] at faultless
  obtain ⟨⟨⟨paired, targets⟩, keys⟩, _⟩ := faultless
  have bounded : ∀ target ∈ original.targets.toList ++ [original.default],
      target.toNat < d.instructions.size := by
    intro target member
    simpa [linked.instructions] using targets target member
  refine ⟨d.tables[index], there, narrows.paired (by simpa using paired), fun key member => ?_,
    fun target member => bounded target ?_, bounded _ ?_⟩
  · have constant := keys key (Array.mem_toList_iff.mpr (narrows.keys key member))
    rw [linked.constants_size]
    apply Nat.lt_of_not_le
    intro outside
    simp [key?, outside] at constant
  · exact List.mem_append_left _ (Array.mem_toList_iff.mpr (narrows.targets target member))
  · rw [narrows.default]
    exact List.mem_append_right _ List.mem_cons_self

theorem grounded (linked : d.LinkedTo c) (accepted : c.Accepted functions) {place : Nat}
    (here : c.instructions[place]? = some i) : i.Grounded d functions := by
  have faultless := accepted.operands place i here
  simp only [instructionFaults, List.append_eq_nil_iff] at faultless
  obtain ⟨⟨slot, operand⟩, target⟩ := faultless
  refine ⟨fun n named => ?_, ?_, ?_, ?_, fun n member => ?_, ?_⟩
  · rw [linked.locals]
    simpa [named, UInt16.lt_iff_toNat_lt] using slot
  · rintro index rfl
    rw [linked.constants_size]
    simpa [operandFaults] using operand
  · rintro index rfl
    obtain ⟨t, there⟩ : ∃ t, c.constants[index.toNat]? = some (.scalar (.text t)) := by
      simp only [operandFaults] at operand
      split at operand
      · contradiction
      next t there => exact ⟨t, there⟩
      · contradiction
    have inside : index.toNat < d.constants.size :=
      linked.constants_size ▸ (Array.getElem?_eq_some_iff.mp there).1
    have found : d.constants[index.toNat]? = some d.constants[index.toNat] :=
      Array.getElem?_eq_getElem inside
    obtain ⟨literal, same, tag⟩ := linked.constant_tag found
    obtain rfl := Option.some.inj (same.symm.trans there)
    rw [found]
    cases v : d.constants[index.toNat] <;> simp_all [Value.tag, Literal.tag, Scalar.tag]
  · rintro strategy index rfl
    obtain ⟨t, there, paired, keys, _⟩ :=
      linked.table accepted (by simpa [operandFaults] using operand)
    exact ⟨t, there, paired, keys⟩
  · cases i with
    | jump op place =>
      obtain rfl : n = place.toNat := by
        simpa [Code.jumpTargets, Instruction.jumpTarget?] using member
      simpa [Instruction.jumpTarget?, linked.instructions] using target
    | wide op index =>
      cases op with
      | switch strategy =>
        obtain ⟨t, there, _, _, targets, default⟩ :=
          linked.table accepted (by simpa [operandFaults] using operand)
        simp only [Code.jumpTargets, there, List.mem_append, List.mem_map, Array.mem_toList_iff,
          List.mem_singleton] at member
        rcases member with ⟨place, listed, rfl⟩ | rfl
        · exact targets place listed
        · exact default
      | _ => simp [Code.jumpTargets, Instruction.jumpTarget?] at member
    | _ => simp [Code.jumpTargets, Instruction.jumpTarget?] at member
  · rintro keep id argc rfl
    simpa [operandFaults] using operand

end Code.LinkedTo

end StackMachine
