import StackMachine.Proofs.Relaying

/-! Halting. Under the core natives, once a thread is halted every call that is still open ends with
`null`, from the innermost one to the call from the host, and no instruction is executed on the way.
-/

namespace StackMachine

namespace Machine

/-- The current call is about to end with `null`, or its end is about to be told to whoever asked
for it. -/
inductive Closes (limits : Limits) (machine : Machine) : Prop
  | settle (settles : machine.control = .settle (.ok .null))
    (nested : Nested limits .host machine.waiting machine.base .host machine.thread.frames
      machine.thread.slots)
  | answer (answers : machine.control = .answer (.ok .null))
    (nested : Nested limits .host machine.waiting machine.thread.frames.length .host
      machine.thread.frames
      machine.thread.slots)

structure Halts (limits : Limits) (world : World) (machine : Machine) : Prop where
  halted : machine.thread.status = .halted
  clean : machine.thread.fault = none
  same : machine.world = world
  resumes : ∀ native ∈ machine.waiting, native.resume = NativeStep.relay
  closes : machine.Closes limits

variable {p : Program} {limits : Limits} {machine start : Machine} {world : World}

theorem Halts.control_ne (halts : Halts limits world machine) : machine.control ≠ .execute := by
  rcases halts.closes with ⟨settles, _⟩ | ⟨answers, _⟩
  · simp [settles]
  · simp [answers]

theorem Halts.answer_eq (halts : Halts limits world machine) {result : Except CallError Value}
    (answers : machine.control = .answer result) : result = .ok .null := by
  rcases halts.closes with ⟨settles, _⟩ | ⟨nulls, _⟩
  · simp [settles] at answers
  · rw [nulls] at answers
    exact (Control.answer.inj answers).symm

theorem Halts.frames_eq (halts : Halts limits world machine) {result : Except CallError Value}
    (answers : machine.control = .answer result) (idle : machine.waiting = []) :
    machine.thread.frames = [] := by
  rcases halts.closes with ⟨settles, _⟩ | ⟨_, nested⟩
  · simp [settles] at answers
  · rw [idle] at nested
    exact (nested.eq_root : _ ∧ _).1

theorem stop_halts (dest : Destination) (halted : machine.thread.status = .halted)
    (clean : machine.thread.fault = none) (same : machine.world = world)
    (resumes : ∀ native ∈ machine.waiting, native.resume = NativeStep.relay)
    (nested : Nested limits .host machine.waiting machine.base dest machine.thread.frames
      machine.thread.slots) : Halts limits world machine.stop where
  halted := (Thread.unwind_status _ _).trans halted
  clean := (Thread.unwind_fault _ _).trans clean
  same := same
  resumes := resumes
  closes := .settle rfl nested.unwind

theorem Halts.settle_next (halts : Halts limits world machine)
    (settles : machine.control = .settle (.ok .null)) :
    Halts limits world (machine.next p limits) ∧
      (machine.next p limits).control = .answer (.ok .null) ∧
      (machine.next p limits).waiting = machine.waiting := by
  obtain ⟨⟨status, slots, frames, fault⟩, world', waiting, base, control⟩ := machine
  obtain ⟨rfl, rfl, rfl, resumes, closes⟩ := halts
  obtain rfl : control = .settle (.ok .null) := settles
  rcases closes with ⟨_, nested⟩ | ⟨answers, _⟩
  · have halted : (if waiting.isEmpty || Status.halted == .halted then Status.halted
      else .running) = .halted := by simp
    dsimp only [Machine.next, settle, setStatus]
    rw [halted]
    exact ⟨⟨rfl, rfl, rfl, resumes, .answer rfl nested.resting⟩, rfl, rfl⟩
  · simp at answers

theorem Halts.answer_next (halts : Halts limits world machine)
    (answers : machine.control = .answer (.ok .null)) {native : Suspended} {others : List Suspended}
    (waits : machine.waiting = native :: others) :
    Halts limits world (machine.next p limits) ∧
      (machine.next p limits).control = .settle (.ok .null) ∧
      (machine.next p limits).waiting = others := by
  obtain ⟨⟨status, slots, frames, fault⟩, world', waiting, base, control⟩ := machine
  obtain ⟨rfl, rfl, rfl, resumes, closes⟩ := halts
  obtain rfl : control = .answer (.ok .null) := answers
  obtain rfl : waiting = native :: others := waits
  rcases closes with ⟨settles, _⟩ | ⟨_, nested⟩
  · simp at settles
  have outer := nested.suspended (by simp [Root.host])
  have relays : native.resume = NativeStep.relay := resumes native List.mem_cons_self
  have rest : ∀ native ∈ others, native.resume = NativeStep.relay :=
    fun native member => resumes native (List.mem_cons_of_mem _ member)
  simp only [next, answer, relays, NativeStep.relay, NativeStep.value, proceed]
  cases landing : native.landing with
  | host =>
    rw [landing] at outer
    exact ⟨⟨rfl, rfl, rfl, rest, .settle rfl outer⟩, rfl, rfl⟩
  | _ =>
    simp only [land, beq_self_eq_true, if_true]
    exact ⟨stop_halts _ rfl rfl rfl rest outer, rfl, rfl⟩

theorem Halts.next (halts : Halts limits world machine) :
    Halts limits world (machine.next p limits) := by
  rcases halts.closes with ⟨settles, _⟩ | ⟨answers, _⟩
  · exact (halts.settle_next settles).1
  · cases waits : machine.waiting with
    | nil =>
      have stays : machine.next p limits = machine := by
        simp only [Machine.next, answers, answer, waits]
      rw [stays]
      exact halts
    | cons native others => exact (halts.answer_next answers waits).1

theorem Reaches.halts (reaches : Reaches p limits start machine)
    (first : Halts limits world start) : Halts limits world machine := by
  induction reaches with
  | start => exact first
  | step _ ih => exact ih.next

theorem Halts.answers (halts : Halts limits world machine)
    (settles : machine.control = .settle (.ok .null)) {n : Nat}
    (inside : n ≤ machine.waiting.length) :
    ∃ later, Reaches p limits machine later ∧ Halts limits world later ∧
      later.control = .answer (.ok .null) ∧ later.waiting = machine.waiting.drop n := by
  induction n with
  | zero =>
    obtain ⟨after, answers, same⟩ := halts.settle_next (p := p) settles
    exact ⟨_, .step .start, after, answers, same⟩
  | succ n ih =>
    obtain ⟨later, reaches, closing, answers, waits⟩ := ih (Nat.le_of_succ_le inside)
    rw [List.drop_eq_getElem_cons inside] at waits
    obtain ⟨dropped, settles', waits'⟩ := closing.answer_next (p := p) answers waits
    obtain ⟨after, answers', same⟩ := dropped.settle_next (p := p) settles'
    exact ⟨_, reaches.step.step, after, answers', same.trans waits'⟩

/-- A call that is over at some state on the way is over for whoever counts the steps from the
start. -/
theorem Reaches.run_eq (reaches : Reaches p limits start machine) {fuel : Nat} {outcome : Outcome}
    (finished : run p limits fuel machine = some outcome) :
    ∃ more, run p limits more start = some outcome := by
  induction reaches generalizing fuel with
  | start => exact ⟨fuel, finished⟩
  | @step machine _ ih =>
    cases ended : machine.result? with
    | none =>
      have longer : run p limits (fuel + 1) machine = some outcome := by
        simp only [run, ended, finished]
      exact ih longer
    | some result =>
      obtain ⟨answers, idle⟩ := result?_eq_some ended
      have stays : machine.next p limits = machine := by
        simp only [Machine.next, answers, answer, idle]
      rw [stays] at finished
      exact ih finished

theorem execute_halts (live : Live p limits machine) (relaying : machine.Relaying)
    (clean : machine.thread.fault = none) (running : machine.control = .execute) {frame : Frame}
    {callers : List Frame} {code : Code Value}
    (innermost : machine.thread.frames = frame :: callers)
    (body : p.code? frame.function = some code)
    (halt : code.instructions[frame.place]? = some (.plain .halt)) :
    Halts limits machine.world (machine.next p limits) ∧
      (machine.next p limits).control = .settle (.ok .null) ∧
      (machine.next p limits).waiting = machine.waiting := by
  have nested := live.within.executing running
  obtain ⟨thread, world, waiting, base, control⟩ := machine
  obtain rfl : control = .execute := running
  obtain ⟨l, others, framed, slotted, inside, tidy, outer⟩ := nested.innermost (by simp)
  obtain ⟨rfl, rfl⟩ := List.cons.inj (framed.symm.trans innermost)
  have fits : { l with place := l.place + 1 }.frame.fits (.plain .halt) = true :=
    (Layout.fits_iff _ _).mpr ⟨Nat.zero_le _, Nat.zero_le _⟩
  have performed : (Instruction.plain .halt).perform p code (l.activation world.store) =
      .ok .halt ({ l with place := l.place + 1 }.activation world.store) := by
    simp only [Instruction.perform, bind, EStateM.bind, Exec.advance_layout, fits, if_true]
    rfl
  dsimp only at framed slotted
  simp only [Machine.next, execute, setStatus, framed, body, halt]
  rw [onFrame_ok _ rfl slotted performed]
  refine ⟨stop_halts .push rfl clean rfl relaying.resumes ?_, rfl, rfl⟩
  exact .frame inside (by simp) (tidy.at _) outer

end Machine

/-- Halting stops the whole thread. Let a thread whose program has the core natives execute a halt,
at any depth of frames and of calls that natives asked for. From then on no instruction is executed
and nothing in the world changes; every open call, for each native that waits and for the host, is
answered with `null`; and the call from the host ends with the thread halted and without frames. -/
theorem Machine.halt_stops (m : Module Value) (s : Store) (limits : Limits) (machine : Machine)
    (live : Live (Program.link m s Registry.core) limits machine)
    (running : machine.control = .execute) (frame : Frame) (callers : List Frame)
    (innermost : machine.thread.frames = frame :: callers) (code : Code Value)
    (body : (Program.link m s Registry.core).code? frame.function = some code)
    (halt : code.instructions[frame.place]? = some (.plain .halt)) :
    let p := Program.link m s Registry.core
    (∀ later, Reaches p limits (machine.next p limits) later → later.control ≠ .execute ∧
      later.world = machine.world ∧ ∀ result, later.control = .answer result → result = .ok .null) ∧
    (∀ n ≤ machine.waiting.length, ∃ later, Reaches p limits (machine.next p limits) later ∧
      later.control = .answer (.ok .null) ∧ later.waiting = machine.waiting.drop n) ∧
    ∀ start, Reaches p limits start machine →
      ∃ fuel outcome, run p limits fuel start = some outcome ∧
      outcome.result = .ok .null ∧ outcome.thread.status = .halted ∧ outcome.thread.depth = 0 := by
  intro p
  have relaying := live.relaying (Program.link_core m s)
  obtain ⟨halts, settles, same⟩ :=
    execute_halts live relaying (live.clean (Program.link_core m s) running) running
    innermost body halt
  refine ⟨fun later reaches => ?_, fun n inside => ?_, fun start reaches => ?_⟩
  · have closing := reaches.halts halts
    exact ⟨closing.control_ne, closing.same, fun result => closing.answer_eq⟩
  · obtain ⟨later, reaches, _, answers, waits⟩ :=
      halts.answers (p := p) settles (n := n) (by rwa [same])
    exact ⟨later, reaches, answers, by rw [waits, same]⟩
  · obtain ⟨later, onwards, closing, answers, waits⟩ :=
      halts.answers (p := p) settles (Nat.le_refl _)
    rw [List.drop_length] at waits
    have finished :
        run p limits 1
          later = some { result := .ok .null, thread := later.thread, world := later.world } := by
      simp only [run, result?, answers, waits]
    obtain ⟨fuel, finished⟩ := onwards.run_eq finished
    obtain ⟨fuel, finished⟩ := reaches.step.run_eq finished
    exact ⟨fuel, _, finished, rfl,
      closing.halted, by simp [Thread.depth, closing.frames_eq answers waits]⟩

def Module.halting : Module Value where
  functions := #[
    { name := "invoke", module := "core", minArgs := 1, maxArgs := 1, params := #["name"]
      defaults := #[]
      body := .native },
    { name := "outer", module := "sample", minArgs := 0, maxArgs := 0, params := #[]
      defaults := #[]
      body := .bytecode
        { instructions := #[.call true 2 0, .plain .ret], constants := #[], tables := #[]
          locals := 0, stack := 1 } },
    { name := "inner", module := "sample", minArgs := 0, maxArgs := 0, params := #[]
      defaults := #[]
      body := .bytecode { instructions := #[.plain .halt], constants := #[], tables := #[]
                          locals := 0, stack := 0 } }]

def Machine.halting : Machine where
  thread :=
    { status := .calling
      slots := #[.undefined]
      frames := [
        { function := 2, base := 1, locals := 0, limit := 1, tos := 1, place := 0, dest := .push },
        { function := 1, base := 0, locals := 0, limit := 1, tos := 0, place := 1
          dest := .host }] }
  world := { store := { texts := #["outer"] }, console := "", interrupted := false }
  waiting := [{ name := "core.invoke", base := 0, landing := .host, resume := NativeStep.relay }]
  control := .execute

theorem Machine.halting_live : Live (Program.link .halting {} Registry.core) {} .halting := by
  have known (id : UInt16) :
      (Program.link .halting {} Registry.core).function? id =
        Module.halting.functions[id.toNat]? := by
    simp [Program.function?, Program.link, Module.halting, Function.sortTables, Code.sortTables,
      Code.binaryTables]
  have bound : (Program.link .halting {} Registry.core).native? 0 = some Native.invoke := by
    simp [Program.native?, Program.link, Module.halting, Function.isNative, Function.qualifiedName,
      Registry.core, Function.code?]
  have named : (Program.link .halting {} Registry.core).find? "outer" = some 1 := by
    simp [Program.find?, Program.link, Program.nameTable, Module.halting, Function.qualifiedName,
      Std.HashMap.getElem_insertIfNew]
  generalize Program.link .halting {} Registry.core = p at known bound named ⊢
  let asking : Machine :=
    { Machine.halting with thread := { status := .calling }, control := .enter (.name "outer") #[] }
  let outer : Frame :=
    { function := 1, base := 0, locals := 0, limit := 1, tos := 0, place := 0, dest := .host }
  let entered : Machine :=
    { Machine.halting with
      thread := { status := .calling, slots := #[.undefined], frames := [outer] } }
  have first : next p {} { thread := {}, world := Machine.halting.world
                           control := .enter (.id 0) #[.text ⟨0⟩] } =
      asking := by
    simp only [next, enter, Callee.resolve, invoke, known, bound]
    rfl
  have second : next p {} asking = entered := by
    rw [next_name named]
    simp only [next, enter, Callee.resolve, invoke, known]
    rfl
  have third : next p {} entered = .halting := by
    simp only [next, execute, setStatus, Program.code?, entered, outer, known]
    let calling : Thread :=
      { status := .calling, slots := #[.undefined], frames := [{ outer with place := 1 }] }
    change invoke p {} { entered with thread := calling } 2 #[] .push = _
    simp only [invoke, known]
    rfl
  have start : Live p {} { thread := {}, world := Machine.halting.world
                           control := .enter (.id 0) #[.text ⟨0⟩] } :=
    .first _ _ _
  have live := start.step.step.step
  rwa [first, second, third] at live

theorem Machine.halt_stops_nested :
    let p := Program.link .halting {} Registry.core
    Live p {} .halting ∧
    (∀ later, Reaches p {} (Machine.halting.next p {}) later → later.control ≠ .execute ∧
      later.world = Machine.halting.world ∧ ∀ result, later.control = .answer result →
        result = .ok .null) ∧
    (∀ n ≤ 1, ∃ later, Reaches p {} (Machine.halting.next p {}) later ∧
      later.control = .answer (.ok .null) ∧ later.waiting = Machine.halting.waiting.drop n) ∧
    ∀ start, Reaches p {} start .halting → ∃ fuel outcome, run p {} fuel start = some outcome ∧
      outcome.result = .ok .null ∧ outcome.thread.status = .halted ∧ outcome.thread.depth = 0 :=
  ⟨halting_live, halt_stops .halting {} {} .halting halting_live rfl _ _ rfl _
    (by with_unfolding_all rfl) rfl⟩

end StackMachine
