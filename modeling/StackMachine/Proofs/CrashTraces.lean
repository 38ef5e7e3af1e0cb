import StackMachine.Proofs.CodePointers

/-! The traces of crashes. A crash is first met in a step that executes an instruction or begins a
call; its trace is taken there, from all frames of the thread, and under the core natives every
later step only passes the error on. -/

namespace StackMachine

namespace Machine

variable {p : Program} {limits : Limits} {machine before start : Machine} {error : RuntimeError}
  {entries : List TraceEntry}

/-- The current call is about to end with the error, or its end is about to be told to whoever asked
for it. -/
def Carries (p : Program) (error : CallError) (machine : Machine) : Prop :=
  machine.control = .answer (.error error) ∨
    ∃ failure, machine.control = .settle (.error failure) ∧ machine.report p failure = error

def Working (machine : Machine) : Prop :=
  machine.control = .execute ∨ ∃ callee args, machine.control = .enter callee args

section Origin

theorem Live.genuine (live : Live p limits machine) {recorded : CallError}
    (on : machine.thread.fault = some recorded) : recorded.isFault = true := by
  induction live with
  | first => contradiction
  | @step machine _ ih =>
    rcases next_fault p limits machine with same | ⟨cause, _, replaced⟩
    · exact ih (same ▸ on)
    · obtain rfl := Option.some.inj (replaced.symm.trans on)
      rfl
  | again _ _ _ _ _ ih => exact ih on

theorem report_crashed (reports : machine.report p (.runtime error) = .crashed error' entries) :
    entries = machine.thread.trace p := by
  cases error with
  | fault cause => simp [report] at reports
  | _ => exact (CallError.crashed.inj reports).2.symm

theorem land_carries (clean : machine.thread.fault = none) (v : Value) (dest : Destination) :
    ¬ (machine.land v dest).Carries p (.crashed error entries) := by
  have delivered (dest : Destination) :
      ¬ (machine.deliver v dest).Carries p (.crashed error entries) := by
    rintro (answers | ⟨failure, fails, reports⟩)
    · rcases deliver_cases machine v dest with ⟨goes, _⟩ | ⟨_, faults, _⟩
      · simp [goes] at answers
      · simp [faults] at answers
    · rcases deliver_cases machine v dest with ⟨goes, _⟩ | ⟨_, faults, _⟩
      · simp [goes] at fails
      · obtain rfl := Except.error.inj (Control.settle.inj (faults.symm.trans fails))
        simp [report] at reports
  cases dest with
  | host => simp [land, Carries]
  | _ =>
    simp only [land, clean]
    split
    · simp [stop, Carries]
    · exact delivered _

theorem proceed_carries {thread : Thread} {waiting : List Suspended} {base : Nat} {name : String}
    {dest : Destination} {step : NativeStep} (clean : thread.fault = none) (relays : step.Relays)
    (carries : (proceed thread waiting base name dest step).Carries p (.crashed error entries)) :
    entries = (proceed thread waiting base name dest step).thread.trace p := by
  cases relays with
  | value world v => exact absurd carries (land_carries clean v _)
  | failure world error =>
    rcases carries with answers | ⟨failure, fails, reports⟩
    · contradiction
    · obtain rfl := Except.error.inj (Control.settle.inj fails)
      exact report_crashed reports
  | call world callee args => simp [Carries, proceed] at carries

theorem Works.carries (core : p.Core) {dests : Destination → Prop}
    (works : Works p before dests machine) (clean : before.thread.fault = none)
    (carries : machine.Carries p (.crashed error entries)) : entries = machine.thread.trace p := by
  cases works with
  | continues continues =>
    rcases continues.control with goes | ⟨v, ends⟩ | ⟨error, fails⟩
    · simp [Carries, goes] at carries
    · simp [Carries, ends] at carries
    · rcases carries with answers | ⟨failure, same, reports⟩
      · simp [fails] at answers
      · obtain rfl := Except.error.inj (Control.settle.inj (fails.symm.trans same))
        exact report_crashed reports
  | native bound same name _ call world =>
    obtain ⟨_, known⟩ := core _ _ bound
    exact proceed_carries (same.trans clean) (Registry.core_relays known call world) carries

/-- A crash that is there after a step was there before, or the step has met it. -/
theorem carries_of_next (core : p.Core) (live : Live p limits machine)
    (carries : (machine.next p limits).Carries p (.crashed error entries)) :
    machine.Carries p (.crashed error entries) ∨
      (machine.Working ∧ entries = (machine.next p limits).thread.trace p) := by
  cases control : machine.control with
  | enter callee args =>
    refine .inr ⟨.inr ⟨callee, args, control⟩, ?_⟩
    have enters := enter_enters p limits machine callee args
    simp only [next, control] at carries ⊢
    generalize machine.enter p limits callee args = after at enters carries ⊢
    cases enters with
    | unknown unresolved =>
      rcases carries with answers | ⟨failure, settles, _⟩
      · exact (CallError.crashed.inj (Except.error.inj (Control.answer.inj answers))).2.symm
      · contradiction
    | refused _ recorded =>
      rcases carries with answers | ⟨failure, settles, _⟩
      · have genuine := live.genuine recorded
        rw [Except.error.inj (Control.answer.inj answers)] at genuine
        contradiction
      · contradiction
    | halted => simp [Carries] at carries
    | begins _ clean works => exact works.carries core clean carries
  | execute =>
    refine .inr ⟨.inl control, ?_⟩
    simp only [next, control] at carries ⊢
    exact (execute_works machine).carries core (live.clean core control) carries
  | settle outcome =>
    left
    simp only [next, control] at carries
    cases outcome with
    | ok v => simp [settle, Carries] at carries
    | error failure =>
      rcases carries with answers | ⟨_, settles, _⟩
      · exact .inr ⟨failure, control, Except.error.inj (Control.answer.inj answers)⟩
      · contradiction
  | answer result =>
    left
    have relaying := live.relaying core
    obtain ⟨thread, world, waiting, base, current⟩ := machine
    obtain rfl : current = .answer result := control
    cases waiting with
    | nil => exact carries
    | cons native waiting =>
      have relays : native.resume = NativeStep.relay := relaying.resumes native List.mem_cons_self
      simp only [next, answer, relays] at carries
      cases result with
      | ok v =>
        have clean : thread.fault = none := relaying.clean.resolve_right fun failing => failing
        exact absurd carries (land_carries clean v _)
      | error told =>
        rcases carries with answers | ⟨failure, settles, reports⟩
        · contradiction
        · obtain rfl := Except.error.inj (Control.settle.inj settles)
          exact .inl (by rw [← reports]; rfl)

theorem after_live (live : Live p limits start) (n : Nat) :
    Live p limits (after p limits start n) := by
  induction n with
  | zero => exact live
  | succ n ih => exact ih.step

/-- A crash was met in one step, and has only been passed on since. -/
theorem carried (core : p.Core) (live : Live p limits start)
    (fresh : ¬ start.Carries p (.crashed error entries)) (n : Nat)
    (carries : (after p limits start n).Carries p (.crashed error entries)) :
    ∃ k < n, (after p limits start k).Working ∧
      entries = (after p limits start (k + 1)).thread.trace p ∧
      ∀ j, k < j → j ≤ n → (after p limits start j).Carries p (.crashed error entries) := by
  induction n with
  | zero => exact absurd carries fresh
  | succ n ih =>
    rcases carries_of_next core (after_live live n) carries with before | ⟨working, taken⟩
    · obtain ⟨k, earlier, working, taken, passed⟩ := ih before
      refine ⟨k, Nat.lt_succ_of_lt earlier, working, taken, fun j later bound => ?_⟩
      rcases Nat.lt_or_eq_of_le bound with less | rfl
      · exact passed j later (Nat.le_of_lt_succ less)
      · exact carries
    · -- The last step has met the crash, so there is no other state to speak of.
      refine ⟨n, Nat.lt_succ_self n, working, taken, fun j later bound => ?_⟩
      rwa [Nat.le_antisymm bound later]

end Origin

section Frames

theorem Ensues.carried {frames : List Frame} (ensues : Ensues frames machine) {told : CallError}
    (carries : machine.Carries p told) : machine.thread.frames = frames := by
  cases ensues with
  | opens _ goes _ => simp [Carries, goes] at carries
  | goes goes _ => simp [Carries, goes] at carries
  | keeps _ same => exact same
  | stops ends _ _ => simp [Carries, ends] at carries

theorem execute_crashed (within : Within limits .host machine)
    (running : machine.control = .execute)
    (carries : (machine.next p limits).Carries p (.crashed error entries)) :
    ∃ frame callers code frame', machine.thread.frames = frame :: callers ∧
      p.code? frame.function = some code ∧
      Passes frame frame' ∧ (machine.next p limits).thread.frames = frame' :: callers := by
  have unfaulted (cause : Fault) :
      (machine.next p limits).control ≠ .settle (.error (.runtime (.fault cause))) := by
    intro faults
    rcases carries with answers | ⟨failure, fails, reports⟩
    · simp [faults] at answers
    · obtain rfl := Except.error.inj (Control.settle.inj (faults.symm.trans fails))
      simp [report] at reports
  have steps : machine.next p limits = machine.execute p limits := by simp only [next, running]
  rw [steps] at carries unfaulted ⊢
  rcases execute_performs within running with ⟨cause, faults, _⟩ |
    ⟨frame, callers, code, i, framed, known, here, performs⟩
  · exact absurd faults (unfaulted cause)
  · cases performs with
    | onward _ goes _ => simp [Carries, goes] at carries
    | fails frame' passes _ same _ =>
      exact ⟨frame, callers, code, frame', framed, known, passes, same⟩
    | calls frame' passes _ ensues =>
      exact ⟨frame, callers, code, frame', framed, known, passes, ensues.carried carries⟩
    | leaves _ faults =>
      rcases faults with goes | ⟨v, ends⟩ | ⟨cause, faults⟩
      · simp [Carries, goes] at carries
      · simp [Carries, ends] at carries
      · exact absurd faults (unfaulted cause)

end Frames

end Machine

def Program.ShowsLine (p : Program) (function : UInt16) (place : Nat) (entry : TraceEntry) : Prop :=
  ∃ f code, p.function? function = some f ∧ f.body = .bytecode code ∧
    entry = { function := f.name, module := f.module, line := lineAt code.lines place }

theorem Program.traceEntry_showsLine {p : Program} {frame : Frame} {code : Code Value} {place : Nat}
    (known : p.code? frame.function = some code) (past : frame.place = place + 1) :
    p.ShowsLine frame.function place (p.traceEntry frame) := by
  obtain ⟨f, found, body⟩ := Option.bind_eq_some_iff.mp known
  refine ⟨f, code, found, ?_, ?_⟩
  · unfold Function.code? at body
    split at body
    · contradiction
    next is => rw [is, Option.some.inj body]
  · simp only [traceEntry, found, body, Option.bind_some, Frame.lastPlace, past, Nat.add_sub_cancel]

namespace Machine

section Entries

variable {p : Program} {limits : Limits} {start : Machine} {error : RuntimeError}
  {entries : List TraceEntry} {k : Nat}

def Lists (p : Program) (limits : Limits) (start : Machine) (k : Nat) (entries : List TraceEntry)
    (i : Nat) (frame : Frame) : Prop :=
  let machine := after p limits start k
  ∃ entry place, entries[i]? = some entry ∧ p.ShowsLine frame.function place entry ∧
    Executing p limits start (k + 1) (machine.thread.depth - (i + 1)) frame.function place ∧
    (i = 0 → machine.control = .execute → place = frame.place) ∧
    (0 < i ∨ machine.control ≠ .execute → p.CallAt frame.function place)

theorem Awaits.lists {i : Nat} {frame : Frame}
    (awaits : Awaits p limits start k ((after p limits start k).thread.depth - (i + 1))
      frame.function frame.place)
    (listed : entries[i]? = some (p.traceEntry frame))
    (there : (after p limits start k).thread.depth - (i + 1) <
      (after p limits start (k + 1)).thread.depth)
    (waits : 0 < i ∨ (after p limits start k).control ≠ .execute)
    (inside : i < (after p limits start k).thread.depth) :
    Lists p limits start k entries i frame := by
  obtain ⟨q, past, ⟨code, keep, callee, argc, known, here⟩, executing⟩ := awaits
  refine ⟨_, q, listed, Program.traceEntry_showsLine known past,
    executing.stay (fun other r fetches => ?_) there,
    fun first running => ?_, fun _ => ⟨code, keep, callee, argc, known, here⟩⟩
  · obtain ⟨running, top, callers, framed, level, _⟩ := fetches
    have depth : (after p limits start k).thread.depth = callers.length + 1 := by
      simp [Thread.depth, framed]
    rcases waits with later | resting
    · omega
    · exact resting running
  · rcases waits with later | resting
    · omega
    · exact absurd running resting

theorem enter_lists (waits : (after p limits start k).Waits (Awaits p limits start k))
    (resting : ∃ callee args, (after p limits start k).control = .enter callee args)
    (same : (after p limits start (k + 1)).thread.frames = (after p limits start k).thread.frames)
    {i : Nat} {frame : Frame} (here : (after p limits start k).thread.frames[i]? = some frame) :
    Lists p limits start k ((after p limits start (k + 1)).thread.trace p) i frame := by
  obtain ⟨callee, args, enters⟩ := resting
  have inside : i < (after p limits start k).thread.depth := (List.getElem?_eq_some_iff.mp here).1
  have awaits := (waits.innermost (by simp [enters]) (by simp [enters])).at here
  refine Awaits.lists awaits ?_ ?_ (.inr (by simp [enters])) inside
  · rw [Thread.trace, same, List.getElem?_map, here]
    rfl
  · simp only [Thread.depth, same] at inside ⊢
    omega

theorem execute_lists (waits : (after p limits start k).Waits (Awaits p limits start k))
    (running : (after p limits start k).control = .execute) {top top' : Frame}
    {callers : List Frame} {code : Code Value}
    (framed : (after p limits start k).thread.frames = top :: callers)
    (known : p.code? top.function = some code) (passes : Passes top top')
    (same : (after p limits start (k + 1)).thread.frames = top' :: callers) {i : Nat}
    {frame : Frame} (here : (after p limits start k).thread.frames[i]? = some frame) :
    Lists p limits start k ((after p limits start (k + 1)).thread.trace p) i frame := by
  have depth : (after p limits start k).thread.depth = callers.length + 1 := by
    simp [Thread.depth, framed]
  have depth' : (after p limits start (k + 1)).thread.depth = callers.length + 1 := by
    simp [Thread.depth, same]
  rw [framed] at here
  cases i with
  | zero =>
    obtain rfl : top = frame := by simpa using here
    have shows : p.ShowsLine top'.function top.place (p.traceEntry top') :=
      Program.traceEntry_showsLine (by rwa [passes.function]) passes.place
    rw [passes.function] at shows
    refine ⟨_, top.place, ?_, shows, .fetch ⟨running, top, callers, framed, ?_, rfl, rfl⟩ ?_,
      fun _ _ => rfl, ?_⟩
    · simp [Thread.trace, same]
    · simp [depth]
    · omega
    · simp [running]
  | succ i =>
    have here : callers[i]? = some frame := by simpa using here
    have inside : i < callers.length := (List.getElem?_eq_some_iff.mp here).1
    have lined := waits.callers
    rw [framed] at lined
    have awaits := Lined.at lined here
    have level : callers.length - (i + 1) = (after p limits start k).thread.depth - (i + 1 + 1) :=
      by omega
    rw [List.tail_cons, level] at awaits
    refine Awaits.lists awaits ?_ (by omega) (.inl (Nat.succ_pos i)) (by omega)
    simp [Thread.trace, same, here]

theorem crash_lists (within : Within limits .host start) (idle : start.thread.frames = [])
    (working : (after p limits start k).Working)
    (carries : (after p limits start (k + 1)).Carries p (.crashed error entries)) :
    ((after p limits start (k + 1)).thread.trace p).length = (after p limits start k).thread.depth ∧
    ∀ i frame, (after p limits start k).thread.frames[i]? = some frame →
      Lists p limits start k ((after p limits start (k + 1)).thread.trace p) i frame := by
  have waits := after_waits (p := p) within idle k
  rcases working with running | ⟨callee, args, enters⟩
  · obtain ⟨top, callers, code, top', framed, known, passes, same⟩ :=
      execute_crashed (after_within within k) running carries
    refine ⟨?_, fun i frame here => execute_lists waits running framed known passes same here⟩
    have length : (after p limits start (k + 1)).thread.frames.length = callers.length + 1 :=
      congrArg List.length same
    rw [Thread.trace, List.length_map, length, Thread.depth, framed, List.length_cons]
  · have same : (after p limits start (k + 1)).thread.frames =
        (after p limits start k).thread.frames := by
      have ensues : Ensues _ (enter p limits (after p limits start k) callee args) :=
        enter_ensues ((after_within within k).idle enters) callee args
      simp only [after, next, enters] at carries ⊢
      exact ensues.carried carries
    refine ⟨?_, fun i frame here => enter_lists waits ⟨callee, args, enters⟩ same here⟩
    simp only [Thread.trace, List.length_map, Thread.depth]
    exact congrArg List.length same

theorem run_after (start : Machine) (k : Nat) {fuel : Nat} {outcome : Outcome}
    (finished : run p limits fuel (after p limits start k) = some outcome) :
    ∃ n, (after p limits start n).result? = some outcome.result := by
  induction fuel generalizing k with
  | zero => contradiction
  | succ fuel ih =>
    unfold run at finished
    split at finished
    next result found =>
      obtain rfl := Option.some.inj finished
      exact ⟨k, found⟩
    · exact ih (k + 1) finished

end Entries

end Machine

/-- The traces of crashes are exact. Let a call from the host, in any program with the core natives,
end with a crash. One step has met the error, in an instruction or where a call began, and from that
step to the end of the run the error is passed on as it is. The trace has an entry for each frame of
the thread in that step, the innermost first; the entry shows the line of the instruction that the
frame was at work on. For the innermost frame of a step that executed an instruction, this is that
instruction; for all others it is the call they waited for. -/
theorem Thread.crash_trace_exact (m : Module Value) (s : Store) (limits : Limits) (thread : Thread)
    (world : World) (callee : Callee) (args : Array Value)
    (live : Machine.Live (Program.link m s Registry.core) limits
      { thread, world, control := .enter callee args })
    (fuel : Nat) (outcome : Outcome)
    (called : thread.call (Program.link m s Registry.core) limits fuel world callee args =
      some outcome)
    (error : RuntimeError) (entries : List TraceEntry)
    (crashed : outcome.result = .error (.crashed error entries)) :
    let p := Program.link m s Registry.core
    let start : Machine := { thread, world, control := .enter callee args }
    let state := Machine.after p limits start
    ∃ k n, k < n ∧ (state n).result? = some outcome.result ∧
      (state k).Working ∧ (∀ j, k < j → j ≤ n → (state j).Carries p (.crashed error entries)) ∧
      entries.length = (state k).thread.depth ∧
      ∀ i frame, (state k).thread.frames[i]? = some frame →
        ∃ entry place, entries[i]? = some entry ∧ p.ShowsLine frame.function place entry ∧
        Machine.Executing p limits start (k + 1) ((state k).thread.depth - (i + 1))
          frame.function place ∧
        (i = 0 → (state k).control = .execute → place = frame.place) ∧
        (0 < i ∨ (state k).control ≠ .execute → p.CallAt frame.function place) := by
  intro p start state
  have core : p.Core := Program.link_core m s
  obtain ⟨n, ended⟩ := Machine.run_after start 0 called
  have carries : (state n).Carries p (.crashed error entries) := by
    refine .inl ?_
    rw [← crashed]
    exact (Machine.result?_eq_some ended).1
  have fresh : ¬ start.Carries p (.crashed error entries) := by simp [start, Machine.Carries]
  obtain ⟨k, before, working, rfl, passed⟩ := Machine.carried core live fresh n carries
  have idle : start.thread.frames = [] := live.within.idle rfl rfl
  obtain ⟨length, lists⟩ :=
    Machine.crash_lists live.within idle working (passed (k + 1) (Nat.lt_succ_self k) before)
  exact ⟨k, n, before, ended, working, passed, length, lists⟩

section Faltering

def Module.faltering : Module Value where
  functions := #[
    { name := "main", module := "sample", minArgs := 1, maxArgs := 1, params := #["name"]
      defaults := #[]
      body := .bytecode
        { instructions := #[.wide .load 0, .call true 1 1, .plain .ret], constants := #[]
          tables := #[], locals := 1
          stack := 1, lines := #[⟨0, 10⟩, ⟨1, 11⟩, ⟨2, 12⟩] } },
    { name := "invoke", module := "core", minArgs := 1, maxArgs := 1, params := #["arg0"]
      defaults := #[]
      body := .native },
    { name := "half", module := "sample", minArgs := 0, maxArgs := 0, params := #[], defaults := #[]
      body := .bytecode
        { instructions := #[.plain (.push .one), .plain (.push .zero), .plain (.binary .div),
            .plain .ret]
          constants := #[], tables := #[], locals := 0, stack := 2
          lines := #[⟨0, 20⟩, ⟨2, 21⟩] } }]

def World.faltering : World where
  store := { texts := #["half"] }
  console := ""
  interrupted := false

namespace Module

theorem faltering_function? (id : UInt16) :
    (Program.link .faltering {} Registry.core).function? id =
      Module.faltering.functions[id.toNat]? := by
  simp [Program.function?, Program.link, faltering, Function.sortTables, Code.sortTables,
    Code.binaryTables]

theorem faltering_native? :
    (Program.link .faltering {} Registry.core).native? 1 = some Native.invoke := by
  simp [Program.native?, Program.link, faltering, Function.isNative, Function.qualifiedName,
    Registry.core, Function.code?]

theorem faltering_find? : (Program.link .faltering {} Registry.core).find? "half" = some 2 := by
  simp [Program.find?, Program.link, Program.nameTable, faltering, Function.qualifiedName,
    Std.HashMap.getElem_insertIfNew]

end Module

namespace Machine

def faltering : Machine where
  thread := {}
  world := .faltering
  control := .enter (.id 0) #[.text ⟨0⟩]

theorem faltering_reaches :
    Reaches (Program.link .faltering {} Registry.core) {} faltering
      { thread := { status := .crashed }, world := .faltering
        control := .answer (.error (.crashed (.operation .divisionByZero)
          [⟨"half", "sample", some 21⟩, ⟨"main", "sample", some 11⟩])) } := by
  have known := Module.faltering_function?
  have bound := Module.faltering_native?
  have named := Module.faltering_find?
  generalize Program.link .faltering {} Registry.core = p at known bound named ⊢
  let main (tos place : Nat) : Frame :=
    { function := 0, base := 0, locals := 1, limit := 2, tos, place, dest := .host }
  let half (tos place : Nat) : Frame :=
    { function := 2, base := 2, locals := 0, limit := 4, tos, place, dest := .host }
  let waiting : List Suspended :=
    [{ name := "core.invoke", base := 0, landing := .push, resume := NativeStep.relay }]
  let crash : CallError :=
    .crashed (.operation .divisionByZero) [⟨"half", "sample", some 21⟩, ⟨"main", "sample", some 11⟩]
  let entered : Machine :=
    { thread := { status := .calling, slots := #[.text ⟨0⟩, .undefined], frames := [main 1 0] }
      world := .faltering
      control := .execute }
  let loaded : Machine :=
    { entered with
      thread := { status := .running, slots := #[.text ⟨0⟩, .text ⟨0⟩], frames := [main 2 1] } }
  let asking : Machine :=
    { thread := { status := .calling, slots := #[.text ⟨0⟩, .undefined], frames := [main 1 2] }
      world := .faltering, waiting, control := .enter (.name "half") #[] }
  let working (status : Status) (cells : Array Value) (tos place : Nat)
    (control : Control) : Machine :=
    { thread := { status, slots := #[.text ⟨0⟩, .undefined] ++ cells
                  frames := [half tos place, main 1 2] }
      world := .faltering, waiting, base := 1, control }
  let told : Machine :=
    { thread := { status := .crashed, slots := #[.text ⟨0⟩, .undefined], frames := [main 1 2] }
      world := .faltering, waiting, base := 1, control := .answer (.error crash) }
  let passing : Machine :=
    { told with waiting := [], base := 0, control := .settle (.error (.rethrown crash)) }
  have enters : next p {} faltering = entered := by
    simp only [faltering, next, enter, Callee.resolve, invoke, known]
    rfl
  have loads : next p {} entered = loaded := by
    simp only [next, execute, setStatus, Program.code?, entered, main, known]
    rfl
  have asks : next p {} loaded = asking := by
    have calls : next p {} loaded =
        invoke p {} { asking with waiting := [], control := .execute } 1 #[.text ⟨0⟩] .push := by
      simp only [next, execute, setStatus, Program.code?, loaded, entered, main, known]
      rfl
    rw [calls]
    simp only [invoke, known, bound]
    rfl
  have begins : next p {} asking = working .calling #[.undefined, .undefined] 2 0 .execute := by
    simp only [asking]
    rw [next_name named]
    simp only [next, enter, Callee.resolve, invoke, known]
    rfl
  have pushes : next p {} (working .calling #[.undefined, .undefined] 2 0 .execute) =
      working .running #[.int 1, .undefined] 3 1 .execute := by
    simp only [next, execute, setStatus, Program.code?, working, half, known]
    rfl
  have pushes' : next p {} (working .running #[.int 1, .undefined] 3 1 .execute) =
      working .running #[.int 1, .int 0] 4 2 .execute := by
    simp only [next, execute, setStatus, Program.code?, working, half, known]
    rfl
  have fails : next p {} (working .running #[.int 1, .int 0] 4 2 .execute) =
      working .running #[.undefined, .undefined] 2 3
        (.settle (.error (.runtime (.operation .divisionByZero)))) := by
    simp only [next, execute, setStatus, Program.code?, working, half, known]
    rfl
  have tells : next p {} (working .running #[.undefined, .undefined] 2 3
      (.settle (.error (.runtime (.operation .divisionByZero))))) = told := by
    simp only [next, settle, recorded, report, Thread.trace, List.map, Program.traceEntry, working,
      half, main, known]
    rfl
  have passes : next p {} told = passing := rfl
  have run : Reaches p {} faltering (passing.next p {}) := by
    have steps : Reaches p {} faltering _ :=
      Reaches.start.step.step.step.step.step.step.step.step.step.step
    rwa [enters, loads, asks, begins, pushes, pushes', fails, tells, passes] at steps
  exact run

end Machine

theorem Thread.crash_trace_exact_faltering :
    let p := Program.link .faltering {} Registry.core
    let entries : List TraceEntry := [⟨"half", "sample", some 21⟩, ⟨"main", "sample", some 11⟩]
    let state := Machine.after p {} .faltering
    ∃ fuel outcome, Machine.Live p {} .faltering ∧
      ({} : Thread).call p {} fuel .faltering (.id 0) #[.text ⟨0⟩] = some outcome ∧
      outcome.result = .error (.crashed (.operation .divisionByZero) entries) ∧
      ∃ k n, k < n ∧ (state n).result? = some outcome.result ∧
        (state k).Working ∧ (∀ j, k < j → j ≤ n →
          (state j).Carries p (.crashed (.operation .divisionByZero) entries)) ∧
        entries.length = (state k).thread.depth ∧
        ∀ i frame, (state k).thread.frames[i]? = some frame →
          ∃ entry place, entries[i]? = some entry ∧ p.ShowsLine frame.function place entry ∧
          Machine.Executing p {} .faltering (k + 1) ((state k).thread.depth - (i + 1))
            frame.function place ∧
          (i = 0 → (state k).control = .execute → place = frame.place) ∧
          (0 < i ∨ (state k).control ≠ .execute → p.CallAt frame.function place) := by
  intro p entries state
  have live : Machine.Live p {} .faltering := .first .faltering (.id 0) #[.text ⟨0⟩]
  have ended :
    Machine.run p {} 1
    { thread := { status := .crashed }, world := .faltering, control := .answer _ } =
      some { result := .error (.crashed (.operation .divisionByZero) entries)
             thread := { status := .crashed }
             world := .faltering } := rfl
  obtain ⟨fuel, called⟩ := Machine.faltering_reaches.run_eq ended
  exact ⟨fuel, _, live, called, rfl, crash_trace_exact .faltering {} {} {} .faltering
    (.id 0) #[.text ⟨0⟩] live fuel _ called (.operation .divisionByZero) entries rfl⟩

end Faltering

end StackMachine
