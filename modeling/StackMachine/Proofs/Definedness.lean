import StackMachine.Proofs.Acceptance
import StackMachine.Proofs.Literals
import StackMachine.Proofs.Occupancy

/-! Where `undefined` can be seen. The values that lead to no `undefined` form a realm. Literals
without `undefined` in them are loaded into it, and a run that begins there stays there: it never
has `undefined` among its operands, inside a container that they lead to, or in a result. The
verifier looks at a literal as a whole and not at its parts, so it does accept a list literal with
`undefined` as an item, and such an item can be seen. -/

namespace StackMachine

namespace Datum

variable {β : Type}

mutual

def complete : Datum β → Bool
  | undefined => false
  | scalar _ => true
  | list items => completeItems items
  | map entries => completeEntries entries
  | back _ => true

def completeItems : List (Datum β) → Bool
  | [] => true
  | item :: rest => complete item && completeItems rest

def completeEntries : List (Scalar × Datum β) → Bool
  | [] => true
  | (_, item) :: rest => complete item && completeEntries rest

end

end Datum

section Literals

variable {κ : Type}

def Function.literals (f : Function κ) : List κ :=
  f.defaults.toList ++ (f.code?.map (·.constants.toList)).getD []

def Module.literals (m : Module κ) : List κ :=
  m.functions.toList.flatMap Function.literals ++ m.globals.toList.map Prod.snd

theorem Module.IsLiteral.mem_literals {m : Module Value} {v : Value} (known : m.IsLiteral v) :
    v ∈ m.literals := by
  simp only [literals, Function.literals, List.mem_append, List.mem_flatMap, List.mem_map,
    Array.mem_toList_iff]
  cases known with
  | @constant f _ _ member body constant =>
    exact .inl ⟨f, member, .inr (by simpa [body] using constant)⟩
  | @default f _ member default => exact .inl ⟨f, member, .inl default⟩
  | @global e member => exact .inr ⟨e, member, rfl⟩

end Literals

theorem not_isUndefined_of_filterMap {ε : Type} {literals : List Literal} {fault : Nat → ε}
    (faultless : (literals.zipIdx.filterMap fun (literal, index) =>
      if literal.isUndefined then some (fault index) else none) = []) :
    ∀ literal ∈ literals, literal.isUndefined = false := by
  intro literal member
  obtain ⟨index, there⟩ := List.getElem?_of_mem member
  have passes := List.filterMap_eq_nil_iff.mp faultless (literal, index)
    (List.mem_zipIdx_iff_getElem?.mpr there)
  simpa using passes

theorem Function.not_isUndefined_of_descriptor {f : Function Literal}
    (described : f.descriptorFaults = []) :
    ∀ literal ∈ f.defaults.toList, literal.isUndefined = false := by
  unfold descriptorFaults at described
  dsimp only at described
  split at described
  · contradiction
  · simp only [List.append_eq_nil_iff] at described
    exact not_isUndefined_of_filterMap described.1.2

theorem Module.not_isUndefined_of_verify {m : Module Literal} (accepted : m.verify = []) :
    ∀ literal ∈ m.literals, literal.isUndefined = false := by
  simp only [verify, List.append_eq_nil_iff] at accepted
  obtain ⟨⟨_, structural⟩, _⟩ := accepted
  simp only [structureErrors, List.append_eq_nil_iff, List.flatMap_eq_nil_iff] at structural
  obtain ⟨⟨_, globals⟩, functions⟩ := structural
  intro literal member
  rcases List.mem_append.mp member with inFunction | isGlobal
  · obtain ⟨f, there, among⟩ := List.mem_flatMap.mp inFunction
    obtain ⟨descriptor, code⟩ := functions f there
    rcases List.mem_append.mp among with isDefault | isConstant
    · exact Function.not_isUndefined_of_descriptor (List.map_eq_nil_iff.mp descriptor)
        literal isDefault
    · cases body : f.code? with
      | none => simp [body] at isConstant
      | some c =>
        simp only [Function.codeErrors, body, List.map_eq_nil_iff] at code
        simp only [Code.structureFaults, List.append_eq_nil_iff] at code
        exact not_isUndefined_of_filterMap code.1.1 literal (by simpa [body] using isConstant)
  · obtain ⟨e, there, rfl⟩ := List.mem_map.mp isGlobal
    simpa using List.filterMap_eq_nil_iff.mp globals e there

namespace Store

variable {s : Store} {v : Value}

def Defined (s : Store) (v : Value) : Prop :=
  ∀ w, s.Reach v w → w ≠ .undefined

theorem defined_of_inside (here : v ≠ .undefined) (parts : ∀ w, s.Inside v w → s.Defined w) :
    s.Defined v := by
  intro w reach
  rcases reach.first with rfl | ⟨x, inside, further⟩
  · exact here
  · exact parts x inside w further

end Store

namespace Realm

variable {R : Realm} {s t : Store} {v : Value}

def defined (s : Store) : Realm where
  origin := s
  inside := s.Defined
  immediate plain whole :=
    Store.defined_of_inside (by rintro rfl; contradiction)
      fun _ inside => by simp [inside.isContainer] at plain
  fresh new := Store.defined_of_inside (by rintro rfl; exact new trivial) fun _ inside =>
    absurd inside.has new

theorem defined_holds (s : Store) : (defined s).Holds s where
  has _ has := has
  closed _ _ defined inside x reach := defined x (Store.Reach.trans (.inside .here inside) reach)
  kept v _ := .refl s v

theorem Holds.defined (holds : (defined s).Holds t) (within : s.Defined v) : t.Defined v :=
  fun w reach => holds.reach within reach w .here

section Loading

theorem Holds.addScalar (holds : R.Holds s) (value : Scalar) :
    R.Holds (s.addScalar value).2 ∧ R.inside (s.addScalar value).1 := by
  cases value with
  | text t => exact holds.addText t
  | _ => exact ⟨holds, R.immediate rfl rfl⟩

variable {meaning : Empty → Value}

mutual

theorem Holds.build {s : Store} (holds : R.Holds s) :
    (literal : Literal) → literal.complete = true →
    R.Holds (s.build meaning literal).2 ∧ R.inside (s.build meaning literal).1
  | .scalar value, _ => holds.addScalar value
  | .list items, complete => by
    obtain ⟨between, fine⟩ := Holds.buildItems holds items complete
    exact between.addList (by simpa using fine)
  | .map entries, complete => by
    obtain ⟨between, fine⟩ := Holds.buildEntries holds entries complete
    exact between.addMap fun e member => fine e (Dict.mem_of_mem_ofList member)

theorem Holds.buildItems {s : Store} (holds : R.Holds s) :
    (items : List Literal) → Datum.completeItems items = true →
    R.Holds (s.buildItems meaning items).2 ∧ ∀ v ∈ (s.buildItems meaning items).1, R.inside v
  | [], _ => ⟨holds, by simp [Store.buildItems]⟩
  | item :: rest, complete => by
    obtain ⟨whole, others⟩ := Bool.and_eq_true_iff.mp complete
    obtain ⟨between, first⟩ := Holds.build holds item whole
    obtain ⟨after, fine⟩ := Holds.buildItems between rest others
    exact ⟨after, List.forall_mem_cons.mpr ⟨first, fine⟩⟩

theorem Holds.buildEntries {s : Store} (holds : R.Holds s) : (entries : List (Scalar × Literal)) →
    Datum.completeEntries entries = true →
    R.Holds (s.buildEntries meaning entries).2 ∧
      ∀ e ∈ (s.buildEntries meaning entries).1, R.inside e.2
  | [], _ => ⟨holds, by simp [Store.buildEntries]⟩
  | (_, item) :: rest, complete => by
    obtain ⟨whole, others⟩ := Bool.and_eq_true_iff.mp complete
    obtain ⟨between, first⟩ := Holds.build holds item whole
    obtain ⟨after, fine⟩ := Holds.buildEntries between rest others
    exact ⟨after, List.forall_mem_cons.mpr ⟨first, fine⟩⟩

end

theorem completeItems_of_forall {items : List Literal}
    (complete : ∀ item ∈ items, item.complete = true) : Datum.completeItems items = true := by
  induction items with
  | nil => rfl
  | cons item rest ih =>
    obtain ⟨whole, others⟩ := List.forall_mem_cons.mp complete
    exact Bool.and_eq_true_iff.mpr ⟨whole, ih others⟩

theorem Holds.loadAll (holds : R.Holds s) (literals : Array Literal)
    (complete : ∀ literal ∈ literals.toList, literal.complete = true) :
    R.Holds (s.loadAll literals).2 ∧ ∀ v ∈ (s.loadAll literals).1.toList, R.inside v :=
  holds.buildItems literals.toList (completeItems_of_forall complete)

theorem Holds.loadFunction (holds : R.Holds s) {f : Function Literal}
    (complete : ∀ literal ∈ f.literals, literal.complete = true) :
    R.Holds (s.loadFunction f).2 ∧ ∀ v ∈ (s.loadFunction f).1.literals, R.inside v := by
  obtain ⟨name, module, minArgs, maxArgs, params, defaults, body⟩ := f
  obtain ⟨forDefaults, forConstants⟩ := List.forall_mem_append.mp complete
  obtain ⟨between, first⟩ := holds.loadAll defaults forDefaults
  cases body with
  | native => exact ⟨between, List.forall_mem_append.mpr ⟨first, nofun⟩⟩
  | bytecode code =>
    obtain ⟨after, second⟩ := between.loadAll code.constants forConstants
    exact ⟨after, List.forall_mem_append.mpr ⟨first, second⟩⟩

theorem Holds.loadFunctions (holds : R.Holds s) (fs : Array (Function Literal))
    (complete : ∀ f ∈ fs, ∀ literal ∈ f.literals, literal.complete = true) :
    R.Holds (s.loadFunctions fs).2 ∧
      ∀ f ∈ (s.loadFunctions fs).1, ∀ v ∈ f.literals, R.inside v := by
  refine Array.foldl_induction (fun _ (r : Array (Function Value) × Store) =>
    R.Holds r.2 ∧ ∀ f ∈ r.1, ∀ v ∈ f.literals, R.inside v) ⟨holds, by simp⟩ fun i r ih => ?_
  obtain ⟨after, new⟩ := ih.1.loadFunction (complete fs[i] (Array.getElem_mem i.isLt))
  refine ⟨after, fun f member => ?_⟩
  rcases Array.mem_push.mp member with old | rfl
  · exact ih.2 f old
  · exact new

theorem Holds.loadGlobals (holds : R.Holds s) (globals : Array (String × Literal))
    (complete : ∀ e ∈ globals, e.2.complete = true) :
    R.Holds (s.loadGlobals globals).2 ∧ ∀ e ∈ (s.loadGlobals globals).1, R.inside e.2 := by
  refine Array.foldl_induction (fun _ (r : Array (String × Value) × Store) =>
    R.Holds r.2 ∧ ∀ e ∈ r.1, R.inside e.2) ⟨holds, by simp⟩ fun i r ih => ?_
  obtain ⟨after, new⟩ := ih.1.build globals[i].2 (complete globals[i] (Array.getElem_mem i.isLt))
  refine ⟨after, fun e member => ?_⟩
  rcases Array.mem_push.mp member with old | rfl
  · exact ih.2 e old
  · exact new

theorem Holds.loadModule (holds : R.Holds s) {m : Module Literal}
    (complete : ∀ literal ∈ m.literals, literal.complete = true) :
    R.Holds (s.loadModule m).2 ∧ ∀ v ∈ (s.loadModule m).1.literals, R.inside v := by
  obtain ⟨ofFunctions, ofGlobals⟩ := List.forall_mem_append.mp complete
  obtain ⟨between, functions⟩ := holds.loadFunctions m.functions fun f member literal among =>
    ofFunctions literal (List.mem_flatMap.mpr ⟨f, Array.mem_toList_iff.mpr member, among⟩)
  obtain ⟨after, globals⟩ := between.loadGlobals m.globals fun e member =>
    ofGlobals e.2 (List.mem_map_of_mem (Array.mem_toList_iff.mpr member))
  refine ⟨after, List.forall_mem_append.mpr ⟨fun v member => ?_, fun v member => ?_⟩⟩
  · obtain ⟨f, there, among⟩ := List.mem_flatMap.mp member
    exact functions f (Array.mem_toList_iff.mp there) v among
  · obtain ⟨e, there, rfl⟩ := List.mem_map.mp member
    exact globals e (Array.mem_toList_iff.mp there)

theorem supplies_of_literals {m : Module Value} (s : Store) (registry : Registry)
    (literals : ∀ v ∈ m.literals, R.inside v) : R.Supplies (.link m s registry) where
  constants found _ member :=
    lends_of_inside (literals _ (Program.link_constants found member).mem_literals)
  defaults found _ member :=
    lends_of_inside (literals _ (Program.link_defaults found member).mem_literals)
  globals found := lends_of_inside (literals _ (Program.link_globals found).mem_literals)

end Loading

end Realm

namespace Machine

/-- No `undefined` is to be seen. Take an accepted module whose literals hold no `undefined` inside,
linked with the core natives, and any state that a call reaches if its arguments lead to no
`undefined`, and the literals still do not. Every operand of every frame is there and leads to no
`undefined`, nor does an argument or a result that is handed on; and no value has come to lead to
`undefined` that did not when the call began. -/
theorem undefined_unobservable (m : Module Literal) (s : Store) (limits : Limits) (thread : Thread)
    (world : World) (callee : Callee) (args : Array Value) (accepted : m.verify = [])
    (complete : ∀ literal ∈ m.literals, literal.isUndefined = false → literal.complete = true)
    (idle : thread.frames = [] ∧ thread.slots = #[])
    (still : ∀ v ∈ (s.loadModule m).1.literals, (s.loadModule m).2.Defined v →
      world.store.Defined v)
    (defined : ∀ v ∈ args, world.store.Defined v) (machine : Machine)
    (reaches : Reaches (.link (s.loadModule m).1 (s.loadModule m).2 Registry.core) limits
      { thread, world, control := .enter callee args } machine) :
    (∀ frame ∈ machine.thread.frames, ∀ i, frame.bottom ≤ i → i < frame.tos →
      ∃ v, machine.thread.slots[i]? = some v ∧ machine.world.store.Defined v) ∧
    (∀ v, Hands machine.control v → machine.world.store.Defined v) ∧
    ∀ v, world.store.Defined v → machine.world.store.Defined v := by
  have whole : ∀ literal ∈ m.literals, literal.complete = true := fun literal member =>
    complete literal member (Module.not_isUndefined_of_verify accepted literal member)
  -- The literals are followed from the store before they were loaded, the run from the store it
  -- begins with.
  obtain ⟨loaded, literals⟩ := (Realm.defined_holds s).loadModule whole
  have supplies :=
    Realm.supplies_of_literals (R := .defined world.store) (s.loadModule m).2 Registry.core
    fun v member => still v member (loaded.defined (literals v member))
  have first : Stays (.defined world.store) (Realm.defined world.store).Filled
      { thread, world, control := .enter callee args } := by
    refine ⟨⟨Realm.defined_holds _, ?_⟩, fun v hands => ?_⟩
    · rw [idle.1, idle.2]
      exact .idle
    · cases hands with
      | argument member => exact defined v member
  have stays :=
    (reaches.stays (Realm.suits_filled _) (Program.link_core _ _) supplies
    ⟨by simp, .inr rfl⟩ first).2
  refine ⟨fun frame member i bottom top => ?_, fun v hands => ?_,
    fun v within => stays.holds.defined within⟩
  · obtain ⟨v, there, within⟩ := stays.slots.cell member bottom top
    exact ⟨v, there, stays.holds.defined within⟩
  · exact stays.holds.defined (stays.hands v hands)

end Machine

section Picking

def Code.picking {κ : Type} (literal : κ) : Code κ where
  instructions := #[.wide .constant 0, .plain (.push .zero), .plain (.loadIndex true), .plain .ret]
  constants := #[literal]
  locals := 0
  stack := 2

def Module.picking {κ : Type} (literal : κ) : Module κ where
  functions := #[
    { name := "pick", module := "sample", minArgs := 0, maxArgs := 0, params := #[], defaults := #[]
      body := .bytecode (.picking literal) }]

theorem Module.picking_function? (s : Store) (id : UInt16) :
    (Program.link (.picking (.list ⟨0⟩)) s Registry.core).function? id =
      (Module.picking (Value.list ⟨0⟩)).functions[id.toNat]? := by
  simp [Program.function?, Program.link, picking, Code.picking, Function.sortTables,
    Code.sortTables, Code.binaryTables]

def Store.picking (item : Value) (copies : Nat) : Store where
  lists := Array.replicate (copies + 1) #[item]

theorem Store.picking_deepCopy {item : Value} (plain : item.tag.isContainer = false) :
    (picking item 0).deepCopy (.list ⟨0⟩) = (.list ⟨1⟩, picking item 1) := by
  have first : ({ store := picking item 0 } : Copying).lists[(⟨0⟩ : ListRef)]? = none :=
    Std.HashMap.getElem?_empty
  have opened : (picking item 0).deepCopy (.list ⟨0⟩) =
      ((Copying.copyWithin ((picking item 0).containers + 1) (.list ⟨0⟩)
        { store := picking item 0 }).1,
        (Copying.copyWithin ((picking item 0).containers + 1) (.list ⟨0⟩)
          { store := picking item 0 }).2.store) := rfl
  rw [opened, Copying.copyWithin_list first]
  cases item with
  | text | list | map => contradiction
  | _ => rfl

namespace Machine

def picking (item : Value) : Machine where
  thread := {}
  world := { store := .picking item 0, console := "", interrupted := false }
  control := .enter (.id 0) #[]

def pickingFrame (tos place : Nat) : Frame where
  function := 0
  base := 0
  locals := 0
  limit := 2
  tos := tos
  place := place
  dest := .host

def pickingAt (status : Status) (slots : Array Value) (tos place : Nat) (item : Value)
    (copies : Nat) : Machine where
  thread := { status, slots, frames := [pickingFrame tos place] }
  world := { store := .picking item copies, console := "", interrupted := false }
  control := .execute

def pickingCopied (item : Value) : Machine :=
  pickingAt .running #[.list ⟨1⟩, .undefined] 1 1 item 1

theorem picking_copies {item : Value} (plain : item.tag.isContainer = false) :
    Reaches (.link (.picking (.list ⟨0⟩)) (.picking item 0) Registry.core) {} (picking item)
      (pickingCopied item) := by
  have known := Module.picking_function? (.picking item 0)
  generalize Program.link (.picking (.list ⟨0⟩)) (.picking item 0) Registry.core = p at known ⊢
  have enters : (picking item).next p {} = pickingAt .calling #[.undefined,
      .undefined] 0 0 item 0 := by
    simp only [picking, next, enter, Callee.resolve, invoke, known]
    rfl
  have performs : (Instruction.wide .constant 0).perform p (.picking (.list ⟨0⟩))
      ⟨pickingFrame 0 0, #[.undefined, .undefined], .picking item 0⟩ =
      .ok .next ⟨pickingFrame 1 1, #[.list ⟨1⟩, .undefined], .picking item 1⟩ := by
    have opened : (Instruction.wide .constant 0).perform p (.picking (.list ⟨0⟩))
        ⟨pickingFrame 0 0, #[.undefined, .undefined], .picking item 0⟩ =
        Exec.pushCopy (.list ⟨0⟩) ⟨pickingFrame 0 1, #[.undefined, .undefined], .picking item 0⟩ :=
          rfl
    simp only [opened, Exec.pushCopy, Exec.deepCopy, bind, EStateM.bind,
      Store.picking_deepCopy plain]
    rfl
  have copies : (pickingAt .calling #[.undefined, .undefined] 0 0 item 0).next p {} =
      pickingCopied item := by
    have fetches : (pickingAt .calling #[.undefined, .undefined] 0 0 item 0).next p {} =
        onFrame (pickingAt .running #[.undefined, .undefined] 0 0 item 0)
          ((Instruction.wide .constant 0).perform p (.picking (.list ⟨0⟩))) (follow p {}) := by
      simp only [pickingAt, next, execute, setStatus, Program.code?, known]
      rfl
    rw [fetches]
    simp only [onFrame, pickingAt, performs]
    rfl
  have run : Reaches p {} (picking item) (((picking item).next p {}).next p {}) :=
    Reaches.start.step.step
  rwa [enters, copies] at run

theorem picking_ends {item : Value} (plain : item.tag.isContainer = false) :
    ∃ machine, Reaches (.link (.picking (.list ⟨0⟩)) (.picking item 0) Registry.core) {}
      (picking item) machine ∧ machine.control = .answer (.ok item) := by
  have run := picking_copies plain
  have known := Module.picking_function? (.picking item 0)
  generalize Program.link (.picking (.list ⟨0⟩)) (.picking item 0) Registry.core = p at known run ⊢
  have pushes : (pickingCopied item).next p {} = pickingAt .running #[.list ⟨1⟩,
      .int 0] 2 2 item 1 := by
    simp only [pickingCopied, pickingAt, next, execute, setStatus, Program.code?, known]
    rfl
  have loads : (pickingAt .running #[.list ⟨1⟩, .int 0] 2 2 item 1).next p {} =
      pickingAt .running #[item, .undefined] 1 3 item 1 := by
    simp only [pickingAt, next, execute, setStatus, Program.code?, known]
    rfl
  refine ⟨_, run.step.step.step.step, ?_⟩
  rw [pushes, loads]
  simp only [pickingAt, next, execute, setStatus, Program.code?, known]
  rfl

/-- A list literal whose item is `undefined` is accepted, and a call gives the item as its
result. -/
theorem undefined_observable :
    let m : Module Literal := .picking (.list [.undefined])
    let loaded := ({} : Store).loadModule m
    m.verify = [] ∧ loaded = (.picking (.list ⟨0⟩), .picking .undefined 0) ∧
    ∃ machine, Reaches (.link loaded.1 loaded.2 Registry.core) {} (picking .undefined) machine ∧
      (picking .undefined).world.store = loaded.2 ∧ machine.control = .answer (.ok .undefined) :=
  ⟨by decide, rfl, (picking_ends rfl).imp fun _ ends => ⟨ends.1, rfl, ends.2⟩⟩

theorem undefined_unobservable_picking :
    let m : Module Literal := .picking (.list [.scalar (.int 7)])
    let machine := pickingCopied (.int 7)
    m.verify = [] ∧ (∀ literal ∈ m.literals, literal.isUndefined = false →
      literal.complete = true) ∧
    Reaches (.link (.picking (.list ⟨0⟩)) (.picking (.int 7) 0) Registry.core) {}
      (picking (.int 7)) machine ∧
    machine.thread.frames = [pickingFrame 1 1] ∧ (pickingFrame 1 1).bottom = 0 ∧
    ∃ v, machine.thread.slots[0]? = some v ∧ machine.world.store.Defined v := by
  intro m machine
  have accepted : m.verify = [] := by decide
  have complete : ∀ literal ∈ m.literals, literal.isUndefined = false → literal.complete = true :=
    by
    intro literal member _
    obtain rfl := List.mem_singleton.mp member
    rfl
  have plain : (Value.int 7).tag.isContainer = false := rfl
  have reaches := picking_copies plain
  refine ⟨accepted, complete, reaches, rfl, rfl, ?_⟩
  exact (undefined_unobservable m {} {} {} (picking (.int 7)).world (.id 0) #[] accepted
    complete ⟨rfl, rfl⟩
    (fun _ _ defined => defined) (by simp) machine reaches).1 _ List.mem_cons_self 0
      (by decide) (by decide)

end Machine

end Picking

end StackMachine
