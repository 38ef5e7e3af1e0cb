import StackMachine.Proofs.CallReturns
import StackMachine.Proofs.FlowSearch

/-! Instructions to which no path leads are never executed. A frame begins at the first instruction
of its function, goes on to a successor, or waits just after a call, which is a successor too; and
the tables of a linked program lead nowhere that those of its module do not lead. So wherever an
instruction is fetched a path leads, whatever the natives do and whether or not the module was
verified. -/

namespace StackMachine

section Points

variable {Q : UInt16 → Nat → Prop} {frames callers : List Frame} {frame : Frame}

def Points (Q : UInt16 → Nat → Prop) (frames : List Frame) : Prop :=
  ∀ frame ∈ frames, Q frame.function frame.place

theorem points_nil : Points Q [] := by
  simp [Points]

theorem points_cons :
    Points Q (frame :: callers) ↔ Q frame.function frame.place ∧ Points Q callers :=
  List.forall_mem_cons

theorem Points.drop (points : Points Q frames) (count : Nat) : Points Q (frames.drop count) :=
  fun frame member => points frame (List.mem_of_mem_drop member)

theorem Points.tail (points : Points Q frames) : Points Q frames.tail :=
  fun frame member => points frame (List.mem_of_mem_tail member)

namespace Machine

variable {p : Program} {limits : Limits} {machine : Machine}

theorem deliver_points (points : Points Q machine.thread.frames) (v : Value) (dest : Destination) :
    Points Q (machine.deliver v dest).thread.frames := by
  cases dest with
  | push =>
    simp only [deliver]
    cases framed : machine.thread.frames with
    | nil =>
      obtain ⟨⟨status, slots, frames, fault⟩, world, waiting, base, control⟩ := machine
      obtain rfl : frames = [] := framed
      exact points_nil
    | cons frame callers =>
      rw [framed, points_cons] at points
      refine @onFrame_of_frame _ (fun after => Points Q after.thread.frames) _ _ _ _ _ framed
        ((Exec.push_frame v _).mono (fun _ b grown => ?_) fun _ b same => ?_)
      · refine points_cons.mpr ⟨?_, points.2⟩
        rw [grown]
        exact points.1
      · refine points_cons.mpr ⟨?_, points.2⟩
        rw [same]
        exact points.1
  | discard => exact points
  | host => exact points

theorem stop_points (points : Points Q machine.thread.frames) :
    Points Q machine.stop.thread.frames := by
  simp only [stop, Thread.unwind_frames]
  exact points.drop _

theorem land_points (points : Points Q machine.thread.frames) (v : Value) (dest : Destination) :
    Points Q (machine.land v dest).thread.frames := by
  by_cases leaves : dest = .host
  · rw [leaves]
    exact points
  · rw [land_awaited _ _ leaves]
    split
    · exact points
    split
    · exact stop_points points
    · exact deliver_points points v dest

theorem proceed_points {thread : Thread} (points : Points Q thread.frames)
    (waiting : List Suspended) (base : Nat) (name : String) (dest : Destination)
    (step : NativeStep) : Points Q (proceed thread waiting base name dest step).thread.frames := by
  unfold proceed
  split
  · exact points
  · apply land_points
    exact points
  · exact points
  · exact points

theorem invoke_points (points : Points Q machine.thread.frames) (first : ∀ id, Q id 0) (id : UInt16)
    (args : Array Value) (dest : Destination) :
    Points Q (machine.invoke p limits id args dest).thread.frames := by
  unfold invoke
  split
  · exact points
  split
  · split
    · split
      · exact points
      · rw [callNative_eq]
        exact proceed_points points _ _ _ _ _
    · unfold callCode
      split
      · exact points
      · obtain ⟨⟨status, slots, frames, fault⟩, ⟨store, console, interrupted⟩, waiting, base,
          control⟩ := machine
        exact points_cons.mpr ⟨first id, points⟩
  · exact points

theorem enter_points (points : Points Q machine.thread.frames) (first : ∀ id, Q id 0)
    (callee : Callee) (args : Array Value) :
    Points Q (machine.enter p limits callee args).thread.frames := by
  unfold enter
  split
  · exact points
  split
  · exact points
  split
  · exact invoke_points points_nil first _ _ _
  · split
    · exact points
    · apply invoke_points _ first
      exact points

theorem leaveFrame_points (framed : machine.thread.frames = frame :: callers)
    (points : Points Q callers) (v : Value) : Points Q (machine.leaveFrame v).thread.frames := by
  obtain ⟨⟨status, slots, frames, fault⟩, world, waiting, base, control⟩ := machine
  obtain rfl : frames = frame :: callers := framed
  simp only [leaveFrame]
  split
  · exact points
  · apply deliver_points
    exact points

/-- Every frame has the property, except that the innermost one need not have it once it has
failed. -/
structure Stationed (Q : UInt16 → Nat → Prop) (machine : Machine) : Prop where
  callers : Points Q machine.thread.frames.tail
  innermost : (∀ failure, machine.control = .settle (.error failure) →
    machine.thread.frames.length ≤ machine.base) → Points Q machine.thread.frames

theorem stationed_of_points (points : Points Q machine.thread.frames) : machine.Stationed Q :=
  ⟨points.tail, fun _ => points⟩

theorem stationed_of_failure (framed : machine.thread.frames = frame :: callers)
    (points : Points Q callers) (within : machine.base ≤ callers.length) {failure : Failure}
    (fails : machine.control = .settle (.error failure)) : machine.Stationed Q := by
  refine ⟨by rwa [framed], fun unfailed => ?_⟩
  have bound := unfailed failure fails
  rw [framed, List.length_cons] at bound
  omega

end Machine

end Points

/-- A path leads to the place, if it lies inside the function. -/
def Program.Arrives (p : Program) (id : UInt16) (place : Nat) : Prop :=
  ∀ c, p.code? id = some c → place < c.instructions.size → c.Leads 0 place

theorem Program.arrives_zero (p : Program) (id : UInt16) : p.Arrives id 0 :=
  fun _ _ _ => .refl

theorem Program.Arrives.onward {p : Program} {id : UInt16} {place next : Nat} {c : Code Value}
    {i : Instruction} (arrives : p.Arrives id place) (known : p.code? id = some c)
    (here : c.instructions[place]? = some i)
    (goes : next ∈ c.jumpTargets i ∨ i.fallsThrough = true ∧ next = place + 1) :
    p.Arrives id next := by
  intro d known' inside
  obtain rfl : c = d := Option.some.inj (known.symm.trans known')
  exact (arrives c known (Code.lt_of_instruction here)).tail
    ((Code.mem_successors_iff here).mpr ⟨inside, goes⟩)

namespace Machine

variable {p : Program} {limits : Limits} {machine : Machine} {l : Layout} {callers : List Frame}
  {code : Code Value}
  {i : Instruction}

theorem follow_stationed (within : machine.base ≤ callers.length)
    (points : Points p.Arrives callers)
    (onward : ∀ next, next ∈ code.jumpTargets i ∨ i.fallsThrough = true ∧ next = l.place →
      p.Arrives l.function next)
    (noCall : ∀ keep function argc, i ≠ .call keep function argc) {flow : Flow} {b : Activation}
    (completed : l.Completed code i flow b) :
    (follow p limits flow (machine.hold callers b)).Stationed p.Arrives := by
  obtain ⟨leads, put, locals, s, _, _, _, rfl⟩ := completed
  cases flow with
  | next => exact stationed_of_points (points_cons.mpr ⟨onward l.place (.inr ⟨leads, rfl⟩), points⟩)
  | jump target =>
    simp only [follow]
    rw [onFrame_ok _ rfl rfl (Exec.jump_layout target _ _)]
    exact stationed_of_points (points_cons.mpr ⟨onward target (.inl leads), points⟩)
  | call keep function argc =>
    obtain ⟨n, rfl, _⟩ := leads
    exact absurd rfl (noCall keep function n)
  | ret v =>
    have framed :
      (machine.hold callers ({ l.after i.pops put with locals }.activation s)).thread.frames =
        { l.after i.pops put with locals }.frame :: callers := rfl
    exact stationed_of_points (leaveFrame_points framed points v)
  | halt =>
    -- Halting drops the frame together with those of its callers that belong to the same call.
    have beyond : callers.length + 1 - machine.base = callers.length - machine.base + 1 :=
      Nat.succ_sub within
    refine stationed_of_points ?_
    simp only [follow, stop, setStatus, hold]
    rw [Thread.unwind_frames, List.length_cons, beyond, List.drop_succ_cons]
    exact points.drop _

theorem execute_stationed (live : Within limits .host machine)
    (running : machine.control = .execute) (points : Points p.Arrives machine.thread.frames) :
    (machine.execute p limits).Stationed p.Arrives := by
  obtain ⟨l, callers, framed, slotted, within, _, _⟩ := (live.executing running).innermost (by simp)
  obtain ⟨thread, world, waiting, base, control⟩ := machine
  dsimp only at framed slotted within points
  rw [framed, points_cons] at points
  obtain ⟨arrives, points⟩ := points
  simp only [execute, setStatus, framed]
  split
  · exact stationed_of_failure rfl points within rfl
  next code known =>
    split
    · exact stationed_of_failure rfl points within rfl
    next i here =>
      refine onFrame_of_ends rfl slotted
        (Exec.Ends.bind (Exec.Ends.ok (Exec.advance_layout l world.store) ?_))
      split
      next fits =>
        cases i with
        | call keep function argc =>
          refine Exec.Ends.ok rfl ?_
          simp only [follow]
          have taken : argc.toNat ≤ { l with place := l.place + 1 }.operands.length :=
            ((Layout.fits_iff _ _).mp fits).1
          rw [onFrame_ok _ rfl rfl (Exec.popMany_layout taken)]
          refine stationed_of_points (invoke_points (points_cons.mpr ⟨?_, points⟩)
            p.arrives_zero _ _ _)
          exact arrives.onward known here (.inr ⟨rfl, rfl⟩)
        | _ =>
          refine (Instruction.execute_effect p code world.store (by simp) fits).mono
            (fun flow b completed => ?_) fun e b _ => ?_
          · exact follow_stationed (l := { l with place := l.place + 1 }) within points
              (fun next goes => arrives.onward known here goes) (by simp) completed
          · exact stationed_of_failure rfl points within rfl
      next => exact stationed_of_failure rfl points within rfl

theorem next_stationed (live : Within limits .host machine)
    (stationed : machine.Stationed p.Arrives) : (machine.next p limits).Stationed p.Arrives := by
  cases control : machine.control with
  | enter callee args =>
    simp only [next, control]
    exact stationed_of_points (enter_points (stationed.innermost (by simp [control]))
      p.arrives_zero callee args)
  | execute =>
    simp only [next, control]
    exact execute_stationed live control (stationed.innermost (by simp [control]))
  | settle outcome =>
    simp only [next, control]
    refine stationed_of_points ?_
    cases outcome with
    | ok v => exact stationed.innermost (by simp [control])
    | error failure =>
      simp only [settle, Thread.unwind_frames]
      by_cases outside : machine.thread.frames.length ≤ machine.base
      · exact (stationed.innermost fun _ _ => outside).drop _
      · obtain ⟨count, more⟩ : ∃ count, machine.thread.frames.length - machine.base = count + 1 :=
          ⟨machine.thread.frames.length - machine.base - 1, by omega⟩
        simp only [more, ← List.drop_tail]
        exact stationed.callers.drop count
  | answer result =>
    have points := stationed.innermost (by simp [control])
    simp only [next, control, answer]
    split
    · exact stationed
    · exact stationed_of_points (proceed_points points _ _ _ _ _)

theorem Live.stationed (live : Live p limits machine) : machine.Stationed p.Arrives := by
  induction live with
  | first world callee args => exact stationed_of_points points_nil
  | step before ih => exact next_stationed before.within ih
  | again before finished world callee args ih =>
    obtain ⟨answered, _⟩ := result?_eq_some finished
    exact stationed_of_points (ih.innermost (by simp [answered]))

end Machine

theorem Machine.Live.arrives {p : Program} {limits : Limits} {machine : Machine}
    (live : Live p limits machine) {level : Nat} {id : UInt16} {place : Nat}
    (fetches : machine.Fetches level id place) : p.Arrives id place := by
  obtain ⟨running, frame, callers, framed, _, rfl, rfl⟩ := fetches
  have points := live.stationed.innermost (by simp [running])
  rw [framed] at points
  exact (points_cons.mp points).1

theorem Program.Arrives.of_link {m : Module Value} {s : Store} {registry : Registry} {id : UInt16}
    {place : Nat} {d : Code Value} {i : Instruction}
    (arrives : (link m s registry).Arrives id place) (known : (link m s registry).code? id = some d)
    (here : d.instructions[place]? = some i) :
    ∃ f c, m.functions[id.toNat]? = some f ∧ f.code? = some c ∧ c.instructions[place]? = some i ∧
      c.Leads 0 place := by
  have leads := arrives d known (Code.lt_of_instruction here)
  rw [code?_link] at known
  obtain ⟨c, original, rfl⟩ := Option.map_eq_some_iff.mp known
  obtain ⟨f, there, body⟩ := Option.bind_eq_some_iff.mp original
  exact ⟨f, c, there, body, here, leads.widen rfl fun _ _ => (c.sortTables_narrow s).jumpTargets⟩

theorem Store.loadModule_deadCode (s : Store) (m : Module Literal) :
    (s.loadModule m).1.deadCode = m.deadCode := by
  have each (s : Store) (f : Function Literal) :
      (s.loadFunction f).1.codeErrors Code.deadFaults = f.codeErrors Code.deadFaults := by
    obtain ⟨name, module, minArgs, maxArgs, params, defaults, body⟩ := f
    cases body with
    | native => rfl
    | bytecode c => exact congrArg (List.map _) (Code.deadFaults_congr rfl rfl)
  obtain ⟨size, functions⟩ := s.loadModule_functions m
  have listed : (s.loadModule m).1.functions.map (·.codeErrors Code.deadFaults) =
      m.functions.map (·.codeErrors Code.deadFaults) := by
    refine Array.ext (by simpa using size) fun place inside _ => ?_
    have there : place < (s.loadModule m).1.functions.size := by simpa using inside
    obtain ⟨f, s', found, loaded⟩ := functions place _ (Array.getElem?_eq_getElem there)
    obtain ⟨_, rfl⟩ := Array.getElem?_eq_some_iff.mp found
    rw [Array.getElem_map, Array.getElem_map, loaded, each]
  simpa [Module.deadCode, List.flatMap_def] using congrArg (·.toList.flatten) listed

/-- Warnings about dead code are exact, and dead code is never executed. The search finds exactly
the instructions to which a path of successors leads from the first one, and the warnings name
exactly the others, for a module at rest and for the same module loaded. Whatever the natives are,
in every state of a thread's life a path leads, in the code that runs and in the code of the
module, to the instruction that is fetched; so an instruction that its function is warned of is not
fetched. -/
theorem Module.deadCode_exact (m : Module Value) (linking : Store) (registry : Registry)
    (limits : Limits) (machine : Machine)
    (live : Machine.Live (Program.link m linking registry) limits machine) :
    (∀ (κ : Type) (c : Code κ) (place : Nat),
      c.reachable[place]? = some true ↔ place < c.instructions.size ∧ c.Leads 0 place) ∧
    (∀ error, error ∈ m.deadCode ↔ ∃ f ∈ m.functions, ∃ c, f.code? = some c ∧ ∃ place,
      error = .function f.qualifiedName (.instruction place .dead) ∧ place < c.instructions.size ∧
        ¬ c.Leads 0 place) ∧
    (∀ (s : Store) (rest : Module Literal), (s.loadModule rest).1.deadCode = rest.deadCode) ∧
    ∀ (level : Nat) (id : UInt16) (place : Nat), machine.Fetches level id place →
      (∀ d i, (Program.link m linking registry).code? id = some d →
        d.instructions[place]? = some i →
        d.reachable[place]? = some true ∧ ∃ f c, m.functions[id.toNat]? = some f ∧
          f.code? = some c ∧ c.instructions[place]? = some i ∧ c.reachable[place]? = some true) ∧
      ∀ f, m.functions[id.toNat]? = some f →
        .function f.qualifiedName (.instruction place .dead) ∉ f.codeErrors Code.deadFaults := by
  refine ⟨fun κ c place => c.reachable_iff place, m.mem_deadCode_iff, Store.loadModule_deadCode,
    fun level id place fetches => ?_⟩
  have arrives := live.arrives fetches
  refine ⟨fun d i known here => ?_, fun f there warned => ?_⟩
  · obtain ⟨f, c, there, body, same, leads⟩ := arrives.of_link known here
    have inside := Code.lt_of_instruction here
    exact ⟨(d.reachable_iff place).mpr ⟨inside, arrives d known inside⟩, f, c, there, body, same,
      (c.reachable_iff place).mpr ⟨Code.lt_of_instruction same, leads⟩⟩
  · obtain ⟨c, body, place', same, inside, dead⟩ := (f.mem_codeErrors_dead_iff _).mp warned
    obtain rfl : place = place' := by simpa using same
    have known : (Program.link m linking registry).code? id = some (c.sortTables linking) := by
      simp [Program.code?_link, there, body]
    obtain ⟨f', c', there', body', _, leads⟩ :=
      arrives.of_link known (Array.getElem?_eq_getElem inside)
    obtain rfl : f = f' := by simpa [there] using there'
    obtain rfl : c = c' := by simpa [body] using body'
    exact dead leads

def Function.overrunning : Function Value where
  name := "main"
  module := "sample"
  minArgs := 0
  maxArgs := 1
  params := #["n"]
  defaults := #[.int 2]
  body := .bytecode
    { instructions := #[.wide .load 0, .wide (.switch .binary) 0, .plain .leave,
        .plain (.push .one), .plain .ret]
      constants := #[.int 1, .int 2]
      tables := #[{ keys := #[1, 0, 1], targets := #[2, 1, 0], default := 2 }]
      locals := 1, stack := 1 }

theorem Module.deadCode_exact_overrunning :
    let m : Module Value := { functions := #[.overrunning] }
    let p := Program.link m {} Registry.core
    let start : Machine := { thread := {}, world := default, control := .enter (.id 0) #[.int 2] }
    let machine := (start.next p {}).next p {}
    m.deadCode = [3, 4].map (fun place => .function "sample.main" (.instruction place .dead)) ∧
    Machine.Live p {} machine ∧ machine.Fetches 0 0 1 ∧
    ∀ d i, p.code? 0 = some d → d.instructions[1]? = some i → d.reachable[1]? = some true := by
  intro m p start machine
  have live : Machine.Live p {} machine := .step (.step (.first default (.id 0) #[.int 2]))
  have known : p.function? 0 = some (Function.overrunning.sortTables {}) := by
    rw [Program.function?_link]
    rfl
  have entered : start.next p {} =
      { thread :=
          { status := .calling, slots := #[.int 2, .undefined]
            frames := [{ function := 0, base := 0, locals := 1, limit := 2, tos := 1, place := 0
                         dest := .host }] }
        world := default, control := .execute } := by
    simp only [start, Machine.next, Machine.enter, Callee.resolve, Machine.invoke, known]
    rfl
  have fetches : machine.Fetches 0 0 1 := by
    simp only [machine, entered]
    simp only [Machine.next, Machine.execute, Machine.setStatus, Program.code?, known]
    exact ⟨rfl, _, _, rfl, rfl, rfl, rfl⟩
  refine ⟨by decide, live, fetches, fun d i known here => ?_⟩
  exact (((deadCode_exact m {} Registry.core {} machine live).2.2.2 0 0 1 fetches).1 d
    i known here).1

end StackMachine
