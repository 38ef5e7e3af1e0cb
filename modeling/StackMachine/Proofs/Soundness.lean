import StackMachine.Proofs.CallStack

/-! Verified code never faults. The innermost frame always holds as many operands as the analysis
found for its place, and the frames below it form a chain of pending calls. Every step of the
machine keeps this, and while it holds there is nothing to fault over: the instruction is there,
fits its frame, and finds whatever it names. -/

namespace StackMachine

/-- The program is linked from an accepted module, and its natives report no fault of their own. -/
structure Program.Serves (p : Program) (m : Module Literal) : Prop where
  accepted : m.verify = []
  linked : p.LinkedTo m
  harmless : ∀ id native, p.native? id = some native → ∀ call world, (native call world).Harmless

structure Thread.Executes (m : Module Literal) (waiting : List Suspended) (base : Nat) (l : Layout)
    (c : Code Literal) (callers : List Frame) (thread : Thread) : Prop where
  frames : thread.frames = l.frame :: callers
  slots : thread.slots = l.slots
  runs : l.Runs m c 0
  within : base ≤ callers.length
  pending : Pending m waiting base l.dest callers l.below.toArray

inductive Machine.Sound (m : Module Literal) : Machine → Prop
  | enter {thread : Thread} {world : World} {waiting : List Suspended} {base : Nat}
    {callee : Callee} {args : Array Value} (clean : thread.fault = none)
    (resting : waiting = [] ∨ Pending m waiting thread.frames.length .host thread.frames
      thread.slots) : Sound m { thread, world, waiting, base, control := .enter callee args }
  | execute {thread : Thread} {world : World} {waiting : List Suspended} {base : Nat} {l : Layout}
    {c : Code Literal} {callers : List Frame} (clean : thread.fault = none)
    (executes : thread.Executes m waiting base l c callers) :
    Sound m { thread, world, waiting, base, control := .execute }
  | done {thread : Thread} {world : World} {waiting : List Suspended} {base : Nat} {v : Value}
    (clean : thread.fault = none)
    (pending : Pending m waiting base .host thread.frames thread.slots) :
    Sound m { thread, world, waiting, base, control := .settle (.ok v) }
  | failed {thread : Thread} {world : World} {waiting : List Suspended} {base : Nat}
    {failure : Failure} (clean : thread.fault = none) (left : Pending.Left m waiting base thread)
    (harmless : failure.kind ≠ .internalFault) :
    Sound m { thread, world, waiting, base, control := .settle (.error failure) }
  | answer {thread : Thread} {world : World} {waiting : List Suspended} {base : Nat}
    {result : Except CallError Value} (clean : thread.fault = none)
    (resting : waiting = [] ∨ Pending m waiting thread.frames.length .host
      thread.frames thread.slots)
    (unfaulted : Unfaulted result) :
    Sound m { thread, world, waiting, base, control := .answer result }

theorem foldl_size {step : Array Value × Store → Value → Array Value × Store}
    (grows : ∀ p v, (step p v).1.size = p.1.size + 1) (values : List Value)
    (p : Array Value × Store) : (values.foldl step p).1.size = p.1.size + values.length := by
  induction values generalizing p with
  | nil => rfl
  | cons v values ih =>
    rw [List.foldl_cons, ih, grows, List.length_cons]
    omega

@[simp] theorem Store.copyAll_size (s : Store) (values : Array Value) :
    (s.copyAll values).1.size = values.size := by
  rw [copyAll, ← Array.foldl_toList, foldl_size fun p v => Array.size_push _, Array.length_toList]
  exact Nat.zero_add _

theorem Function.given_size_le {f : Function Value} {code : Code Value} {args : Array Value}
    (accepts : f.accepts args.size = true) (params : f.maxArgs.toNat ≤ code.locals.toNat)
    (s : Store) : (args ++ (s.copyAll (f.omittedParams args.size)).1).size ≤ code.locals.toNat := by
  simp only [Function.accepts, Bool.and_eq_true, decide_eq_true_eq] at accepts
  simp only [Array.size_append, Store.copyAll_size, omittedParams, Array.size_extract]
  omega

def Layout.opened (id : UInt16) (code : Code Value) (given : Array Value) (dest : Destination)
    (slots : Array Value) : Layout where
  function := id
  place := 0
  dest := dest
  below := slots.toList
  locals := given.toList ++ List.replicate (code.locals.toNat - given.size) .undefined
  operands := []
  free := List.replicate code.stack.toNat .undefined
  above := []

theorem Thread.enter_eq_opened (thread : Thread) (id : UInt16) {code : Code Value}
    {given : Array Value} (dest : Destination) (few : given.size ≤ code.locals.toNat) :
    thread.enter id code given dest =
      { thread with
        slots := (Layout.opened id code given dest thread.slots).slots
        frames := (Layout.opened id code given dest thread.slots).frame :: thread.frames } := by
  have parts : code.frameSize - given.size = code.locals.toNat - given.size + code.stack.toNat := by
    simp only [Code.frameSize]
    omega
  have free : thread.slots ++ given ++
    Array.replicate (code.frameSize - given.size) Value.undefined =
      (Layout.opened id code given dest thread.slots).slots := by
    apply Array.toList_inj.mp
    simp [Layout.opened, Layout.slots, parts, ← List.replicate_append_replicate]
  simp only [enter, free]
  congr 2
  simp [Layout.opened, Layout.frame, Code.frameSize]
  omega

theorem Thread.refusal?_kind {thread : Thread} {limits : Limits} {f : Function Value}
    {code : Code Value} {error : RuntimeError} (roomy : f.maxArgs.toNat ≤ code.locals.toNat)
    (refused : thread.refusal? limits f code = some error) : error.kind ≠ .internalFault := by
  unfold refusal? at refused
  dsimp only at refused
  split at refused
  · obtain rfl := Option.some.inj refused
    simp [RuntimeError.kind]
  · split at refused
    · obtain rfl := Option.some.inj refused
      simp [RuntimeError.kind]
    · rw [if_neg (Nat.not_lt.mpr roomy)] at refused
      contradiction

namespace Machine

variable {m : Module Literal} {machine : Machine} {l : Layout} {c : Code Literal}
  {callers : List Frame}

def hold (machine : Machine) (callers : List Frame) (a : Activation) : Machine :=
  { machine with
    thread := { machine.thread with slots := a.slots, frames := a.frame :: callers }
    world := { machine.world with store := a.store } }

theorem onFrame_ok {α : Type} {act : Exec α} {l' : Layout} {s : Store} {v : α}
    (andThen : α → Machine → Machine) (frames : machine.thread.frames = l.frame :: callers)
    (slots : machine.thread.slots = l.slots)
    (path : act (l.activation machine.world.store) = .ok v (l'.activation s)) :
    machine.onFrame act andThen = andThen v (machine.hold callers (l'.activation s)) := by
  obtain ⟨⟨status, slots', frames', fault⟩, ⟨store, console, interrupted⟩, waiting, base,
    control⟩ := machine
  obtain rfl : frames' = l.frame :: callers := frames
  obtain rfl : slots' = l.slots := slots
  simp only [Layout.activation] at path
  simp only [onFrame, path]
  rfl

theorem onFrame_of_frame {Holds : Machine → Prop} {α : Type} {act : Exec α}
    {andThen : α → Machine → Machine} {frame : Frame} {callers : List Frame}
    (framed : machine.thread.frames = frame :: callers)
    (ends : act.Ends ⟨frame, machine.thread.slots, machine.world.store⟩
      (fun v b => Holds (andThen v (machine.hold callers b))) fun e b =>
      Holds ((machine.hold callers b).fail e)) : Holds (machine.onFrame act andThen) := by
  obtain ⟨⟨status, slots, frames, fault⟩, ⟨store, console, interrupted⟩, waiting, base, control⟩ :=
    machine
  obtain rfl : frames = frame :: callers := framed
  simp only [Exec.Ends] at ends
  simp only [onFrame]
  split <;> rename_i path <;> simp only [path] at ends <;> exact ends

theorem onFrame_of_ends {Holds : Machine → Prop} {α : Type} {act : Exec α}
    {andThen : α → Machine → Machine} (frames : machine.thread.frames = l.frame :: callers)
    (slots : machine.thread.slots = l.slots)
    (ends : act.Ends (l.activation machine.world.store)
      (fun v b => Holds (andThen v (machine.hold callers b)))
      (fun e b => Holds ((machine.hold callers b).fail e))) :
    Holds (machine.onFrame act andThen) := by
  refine onFrame_of_frame frames ?_
  rw [slots]
  exact ends

theorem deliver_sound {dest : Destination} (clean : machine.thread.fault = none)
    (awaited : dest ≠ .host)
    (pending : Pending m machine.waiting machine.base dest machine.thread.frames
      machine.thread.slots)
    (v : Value) : Sound m (machine.deliver v dest) := by
  obtain ⟨l, c, callers, framed, slotted, within, runs, outer⟩ := pending.caller awaited
  cases dest with
  | host => exact absurd rfl awaited
  | discard => exact .execute (l := l) clean ⟨framed, slotted, runs, within, outer⟩
  | push =>
    simp only [deliver]
    rw [onFrame_ok _ framed slotted (Exec.push_layout v runs.room)]
    have filled : (l.after 0 [v]).Runs m c 0 :=
      { function := runs.function, locals := runs.locals, last := runs.last, room := Nat.zero_le _
        stack := by
          have room := runs.room
          have stack := runs.stack
          simp only [Destination.kept] at room
          simp
          omega
        depth := by
          rw [Layout.after_operands_length, List.length_singleton, Nat.sub_zero, Nat.add_zero,
            Nat.add_comm]
          exact runs.depth }
    exact .execute clean ⟨rfl, rfl, filled, within, outer⟩

theorem stop_sound (clean : machine.thread.fault = none)
    (left : Pending.Left m machine.waiting machine.base machine.thread) : Sound m machine.stop := by
  obtain ⟨frames, slots, unwound, pending⟩ := left
  unfold stop
  rw [unwound machine.thread.status machine.thread.fault]
  exact .done clean pending

theorem land_sound {dest : Destination} (clean : machine.thread.fault = none)
    (pending : Pending m machine.waiting machine.base dest machine.thread.frames
      machine.thread.slots)
    (v : Value) : Sound m (machine.land v dest) := by
  by_cases awaited : dest = .host
  · subst awaited
    exact .done clean pending
  · have landed : machine.land v dest =
        if machine.thread.status == .halted then machine.stop else machine.deliver v dest := by
      cases dest <;> simp_all [land]
    rw [landed]
    split
    · exact stop_sound clean pending.left
    · exact deliver_sound clean awaited pending v

theorem proceed_sound {thread : Thread} {waiting : List Suspended} {base : Nat} {dest : Destination}
    (clean : thread.fault = none) (pending : Pending m waiting base dest thread.frames thread.slots)
    (name : String) {step : NativeStep} (harmless : step.Harmless) :
    Sound m (proceed thread waiting base name dest step) := by
  cases harmless with
  | value world v => exact land_sound clean pending v
  | failure world harmless => exact .failed clean pending.left harmless
  | call world callee args harmless => exact .enter clean (.inr (.native harmless pending))

variable {p : Program} {dest : Destination}

theorem callNative_sound (serves : p.Serves m) (clean : machine.thread.fault = none)
    (pending : Pending m machine.waiting machine.base dest machine.thread.frames
      machine.thread.slots)
    {id : UInt16} {native : Native} (bound : p.native? id = some native) (f : Function Value)
    (args : Array Value) : Sound m (machine.callNative p id f native args dest) :=
  proceed_sound clean pending _ (serves.harmless id native bound _ _)

theorem callCode_sound (serves : p.Serves m) (limits : Limits) (clean : machine.thread.fault = none)
    (pending : Pending m machine.waiting machine.base dest machine.thread.frames
      machine.thread.slots)
    {id : UInt16} {f : Function Value} {d : Code Value} {args : Array Value}
    (found : p.function? id = some f) (code : f.code? = some d)
    (accepts : f.accepts args.size = true) :
    Sound m (machine.callCode limits id f d args dest) := by
  obtain ⟨original, there, linked⟩ := serves.linked.functions id.toNat f found
  have accepted := Module.accepted_of_verify serves.accepted there
  obtain ⟨c, origin, codes⟩ : ∃ c, original.code? = some c ∧ d.LinkedTo c := by
    rcases linked.code with ⟨none, _⟩ | ⟨d', c, some, origin, codes⟩
    · rw [code] at none
      contradiction
    · obtain rfl := Option.some.inj (some.symm.trans code)
      exact ⟨c, origin, codes⟩
  have roomy : f.maxArgs.toNat ≤ d.locals.toNat := by
    rw [linked.maxArgs, codes.locals]
    exact accepted.roomy c origin
  unfold callCode
  split
  next error refused => exact .failed clean pending.left (Thread.refusal?_kind roomy refused)
  next =>
    obtain ⟨thread, ⟨store, console, interrupted⟩, waiting, base, control⟩ := machine
    have few := Function.given_size_le accepts roomy store
    dsimp only at clean pending ⊢
    rw [Thread.enter_eq_opened _ _ _ few]
    have runs : (Layout.opened id d (args ++ (store.copyAll (f.omittedParams args.size)).1) dest
        thread.slots).Runs m c 0 :=
      { function := ⟨original, there, origin⟩
        locals := by
          simp only [Layout.opened, List.length_append, Array.length_toList, List.length_replicate,
            ← codes.locals]
          omega
        stack := by simp [Layout.opened, codes.stack]
        depth := (accepted.code c origin).certified.start
        room := Nat.zero_le _
        last := rfl }
    exact .execute clean ⟨rfl, rfl, runs, pending.base_le, by simpa [Layout.opened] using pending⟩

theorem invoke_sound (serves : p.Serves m) (limits : Limits) (clean : machine.thread.fault = none)
    (pending : Pending m machine.waiting machine.base dest machine.thread.frames
      machine.thread.slots)
    (id : UInt16) (args : Array Value) : Sound m (machine.invoke p limits id args dest) := by
  have fails {error : RuntimeError} (harmless : error.kind ≠ .internalFault) :
      Sound m (machine.fail error) :=
    .failed clean pending.left harmless
  unfold invoke
  split
  · exact fails (by simp [RuntimeError.kind])
  next f found =>
    split
    next accepts =>
      split
      · split
        · exact fails (by simp [RuntimeError.kind])
        next native bound => exact callNative_sound serves clean pending bound f args
      next code body =>
        exact callCode_sound serves limits clean pending found
          (by simp [Function.code?, body]) accepts
    · exact fails (by simp [RuntimeError.kind])

theorem enter_sound {waiting : List Suspended} {base : Nat} {thread : Thread} {world : World}
    {control : Control} (serves : p.Serves m) (limits : Limits) (clean : thread.fault = none)
    (resting : waiting = [] ∨ Pending m waiting thread.frames.length .host
      thread.frames thread.slots)
    (callee : Callee) (args : Array Value) :
    Sound m (enter p limits { thread, world, waiting, base, control } callee args) := by
  unfold enter
  split
  · exact .answer clean resting (by rintro _ ⟨⟩; simp [CallError.kind, RuntimeError.kind])
  next id _ =>
    rw [clean]
    dsimp only
    split
    next idle =>
      obtain rfl : waiting = [] := List.isEmpty_iff.mp idle
      exact invoke_sound serves limits clean .host id args
    next busy =>
      have pending : Pending m waiting thread.frames.length .host thread.frames thread.slots :=
        resting.resolve_left fun none => busy (by simp [none])
      split
      · exact .answer clean resting (by rintro _ ⟨⟩)
      · exact invoke_sound serves limits clean pending id args

theorem leaveFrame_sound (frames : machine.thread.frames = l.frame :: callers)
    (slots : machine.thread.slots = l.slots) (clean : machine.thread.fault = none)
    (pending : Pending m machine.waiting machine.base l.dest callers l.below.toArray) (v : Value) :
    Sound m (machine.leaveFrame v) := by
  obtain ⟨⟨status, slots', frames', fault⟩, world, waiting, base, control⟩ := machine
  obtain rfl : frames' = l.frame :: callers := frames
  obtain rfl : slots' = l.slots := slots
  have shrunk : l.slots.shrink l.frame.base = l.below.toArray := by
    simpa using Pending.shrink_slots l #[]
  simp only [leaveFrame, shrunk]
  dsimp only at pending
  split
  next bottom =>
    have host : l.dest = .host := pending.host_iff.mpr (Nat.le_antisymm bottom pending.base_le)
    rw [host] at pending
    exact .done clean pending
  next inside =>
    have awaited : l.dest ≠ .host := fun host => inside (Nat.le_of_eq (pending.host_iff.mp host))
    refine deliver_sound ?_ awaited pending v
    exact clean

structure Ready (p : Program) (c : Code Literal) (l : Layout) (d : Code Value) (i : Instruction) :
    Prop where
  linked : d.LinkedTo c
  code : p.code? l.function = some d
  settled : Code.Settled c (some c.stack.toNat) (c.analyze (some c.stack.toNat)).depths l.place
    l.operands.length i
  grounded : i.Grounded d p.functions.size

theorem ready_of_runs (serves : p.Serves m) (runs : l.Runs m c 0) : ∃ d i, Ready p c l d i := by
  obtain ⟨f, there, origin⟩ := runs.function
  have accepted := (Module.accepted_of_verify serves.accepted there).code c origin
  obtain ⟨d, code, linked⟩ := serves.linked.code there origin
  obtain ⟨i, settled⟩ := accepted.certified.settled runs.depth
  rw [← serves.linked.size] at accepted
  exact ⟨d, i, linked, code, settled, linked.grounded accepted settled.here⟩

namespace Ready

variable {d : Code Value} {i : Instruction}

theorem here (ready : Ready p c l d i) : d.instructions[l.place]? = some i := by
  rw [ready.linked.instructions]
  exact ready.settled.here

theorem fits (ready : Ready p c l d i) (runs : l.Runs m c 0) : l.frame.fits i = true := by
  have bounded := ready.settled.bounded c.stack.toNat rfl
  have supplied := ready.settled.supplied
  have stack := runs.stack
  simp only [Code.depthAfter] at bounded
  rw [Layout.fits_iff]
  omega

theorem successor (ready : Ready p c l d i) {next : Nat}
    (follows : next ∈ d.jumpTargets i ∨ (i.fallsThrough = true ∧ next = l.place + 1)) :
    next ∈ c.successors l.place := by
  have inside : l.place < c.instructions.size :=
    (Array.getElem?_eq_some_iff.mp ready.settled.here).1
  simp only [Code.successors, ready.settled.here, List.mem_filter, List.mem_append,
    decide_eq_true_eq]
  rcases follows with jump | ⟨falls, rfl⟩
  · refine ⟨.inl (ready.linked.jumpTargets jump), ?_⟩
    rw [← ready.linked.instructions]
    exact ready.grounded.target next jump
  · have continued := ready.settled.continued falls
    exact ⟨.inr (by simp [falls]), by omega⟩

/-- The frame goes on at a place that can follow, with the declared exchange of cells made except
for the `kept` ones that are still to come. -/
theorem advance (ready : Ready p c l d i) (runs : l.Runs m c 0) {next kept : Nat}
    {put locals : List Value}
    (follows : next ∈ d.jumpTargets i ∨ (i.fallsThrough = true ∧ next = l.place + 1))
    (count : put.length + kept = i.pushes) (same : locals.length = l.locals.length) :
    ({ l.after i.pops put with place := next, locals } : Layout).Runs m c kept := by
  have agreed := ready.settled.agreed next (ready.successor follows)
  have supplied := ready.settled.supplied
  have fits := (l.fits_iff i).mp (ready.fits runs)
  have stack := runs.stack
  refine ⟨runs.function, same.trans runs.locals, ?_, ?_, ?_, runs.last⟩
  · simp only [Layout.after_operands_length, Layout.after_free_length]
    omega
  · rw [Code.depthAt?, agreed]
    simp only [Code.depthAfter, Layout.after_operands_length]
    congr 1
    omega
  · simp only [Layout.after_free_length]
    omega

end Ready

variable {d : Code Value} {i : Instruction} (serves : p.Serves m) (limits : Limits)
  (clean : machine.thread.fault = none) (ready : Ready p c l d i) (runs : l.Runs m c 0)
  (within : machine.base ≤ callers.length)
  (pending : Pending m machine.waiting machine.base l.dest callers l.below.toArray)

include clean ready runs within pending in
theorem follow_sound {flow : Flow} {b : Activation}
    (noCall : ∀ keep function argc, i ≠ .call keep function argc)
    (completed : Layout.Completed { l with place := l.place + 1 } d i flow b) :
    Sound m (follow p limits flow (machine.hold callers b)) := by
  obtain ⟨leads, put, locals, s, count, same, _, rfl⟩ := completed
  cases flow with
  | next =>
    exact .execute clean ⟨rfl, rfl, ready.advance runs (.inr ⟨leads, rfl⟩) count same, within,
      pending⟩
  | jump target =>
    simp only [follow]
    rw [onFrame_ok _ rfl rfl (Exec.jump_layout target _ _)]
    exact .execute clean ⟨rfl, rfl, ready.advance runs (.inl leads) count same, within, pending⟩
  | call keep function argc =>
    obtain ⟨n, rfl, _⟩ := leads
    exact absurd rfl (noCall keep function n)
  | ret v =>
    simp only [follow]
    refine leaveFrame_sound rfl rfl ?_ ?_ v
    · exact clean
    · exact pending
  | halt => exact stop_sound clean (Pending.left_of_frame rfl rfl within pending)

include serves clean ready runs within pending in
theorem follow_call_sound {keep : Bool} {function : UInt16} {argc : UInt8}
    (call : i = .call keep function argc) (s : Store) :
    Sound m (follow p limits (.call keep function argc.toNat)
      (machine.hold callers ({ l with place := l.place + 1 }.activation s))) := by
  subst call
  simp only [follow]
  have supplied : argc.toNat ≤ ({ l with place := l.place + 1 } : Layout).operands.length :=
    ready.settled.supplied
  rw [onFrame_ok _ rfl rfl (Exec.popMany_layout supplied)]
  have kept : (if keep then Destination.push else .discard).kept =
      (Instruction.call keep function argc).pushes := by
    cases keep <;> rfl
  have waits : ({ l.after argc.toNat [] with place := l.place + 1 } : Layout).Runs m c _ :=
    ready.advance runs (.inr ⟨rfl, rfl⟩) ((Nat.zero_add _).trans kept) rfl
  refine invoke_sound serves limits ?_ ?_ function _
  · exact clean
  · exact .frame within (by cases keep <;> simp) waits pending

include clean runs within pending in
theorem fail_sound (grounded : i.Grounded d p.functions.size) (linked : d.LinkedTo c)
    (real : i ≠ .plain .unreachable) {e : RuntimeError} {b : Activation}
    (failed : Layout.Failed { l with place := l.place + 1 } d i e b) :
    Sound m ((machine.hold callers b).fail e) := by
  obtain ⟨⟨n, s, _, rfl⟩, blame⟩ := failed
  refine .failed clean (Pending.left_of_frame rfl rfl within pending) fun internal => ?_
  cases e with
  | fault cause =>
    have blamed := blame cause rfl
    simp only [runs.locals, ← linked.locals] at blamed
    exact grounded.not_blames real cause blamed
  | operation cause => cases cause <;> simp [Failure.kind, RuntimeError.kind] at internal
  | _ => simp [Failure.kind, RuntimeError.kind] at internal

include serves in
theorem execute_sound {thread : Thread} {world : World} {waiting : List Suspended} {base : Nat}
    {control : Control} (clean : thread.fault = none)
    (executes : thread.Executes m waiting base l c callers) :
    Sound m (execute p limits { thread, world, waiting, base, control }) := by
  obtain ⟨frames, slots, runs, within, pending⟩ := executes
  obtain ⟨d, i, ready⟩ := ready_of_runs serves runs
  have fits : ({ l with place := l.place + 1 } : Layout).frame.fits i = true := ready.fits runs
  have function : p.code? l.frame.function = some d := ready.code
  have here : d.instructions[l.frame.place]? = some i := ready.here
  simp only [execute, setStatus, frames, function, here]
  refine onFrame_of_ends rfl slots
    (Exec.Ends.bind (Exec.Ends.ok (Exec.advance_layout l world.store) ?_))
  rw [if_pos fits]
  cases i with
  | call keep callee argc =>
    exact Exec.Ends.ok rfl (follow_call_sound serves limits clean ready runs within pending
      rfl world.store)
  | _ =>
    refine (Instruction.execute_effect p d world.store (by simp) fits).mono
      (fun flow b completed => ?_) fun e b failed => ?_
    · exact follow_sound limits clean ready runs within pending (by simp) completed
    · exact fail_sound clean runs within pending ready.grounded ready.linked
        ready.settled.real failed

theorem report_kind (machine : Machine) {failure : Failure}
    (harmless : failure.kind ≠ .internalFault) :
    (machine.report p failure).kind ≠ .internalFault := by
  cases failure with
  | rethrown error => exact harmless
  | runtime error =>
    cases error with
    | fault cause => exact absurd rfl harmless
    | _ => exact harmless

theorem recorded_eq (machine : Machine) {failure : Failure}
    (harmless : failure.kind ≠ .internalFault) :
    machine.recorded p failure = machine.thread.fault := by
  cases failure with
  | rethrown error => rfl
  | runtime error =>
    cases error with
    | fault cause => exact absurd rfl harmless
    | _ => rfl

include serves in
theorem next_sound (sound : Sound m machine) : Sound m (machine.next p limits) := by
  cases sound with
  | enter clean resting => exact enter_sound serves limits clean resting _ _
  | execute clean executes => exact execute_sound serves limits clean executes
  | done clean pending =>
    have resting := pending.host_iff.mp rfl
    exact .answer clean (.inr (by rw [← resting] at pending; exact pending)) (by rintro _ ⟨⟩)
  | failed clean left harmless =>
    obtain ⟨frames, slots, unwound, pending⟩ := left
    have resting := pending.host_iff.mp rfl
    simp only [next, settle, recorded_eq _ harmless, unwound]
    refine .answer clean (.inr ?_) (by rintro _ ⟨⟩; exact report_kind _ harmless)
    rw [← resting] at pending
    exact pending
  | @answer thread world waiting base result clean resting unfaulted =>
    cases waiting with
    | nil => exact .answer clean resting unfaulted
    | cons native waiting =>
      obtain ⟨harmless, outer⟩ := (resting.resolve_left (by simp)).suspended
      exact proceed_sound clean outer _ (harmless _ _ unfaulted)

end Machine

/-- What a frame relies on when it executes `i`: the instruction is there, the frame holds as many
operands as the analysis found for the place, there is room for the exchange inside its own region,
and all that `i` names exists. -/
structure Frame.Prepared (p : Program) (m : Module Literal) (slots : Array Value) (c : Code Literal)
    (d : Code Value) (i : Instruction) (frame : Frame) : Prop where
  function : ∃ f, m.functions[frame.function.toNat]? = some f ∧ f.code? = some c
  code : p.code? frame.function = some d
  here : d.instructions[frame.place]? = some i
  depth : c.depthAt? frame.place = some frame.depth
  fits : frame.fits i = true
  locals : frame.locals = d.locals.toNat
  region : frame.bottom ≤ frame.tos ∧ frame.tos ≤ frame.limit ∧ frame.limit ≤ slots.size
  grounded : i.Grounded d p.functions.size

namespace Machine

/-- No fault is recorded or on its way, and an instruction about to be executed is prepared. -/
structure Guarded (p : Program) (m : Module Literal) (machine : Machine) : Prop where
  clean : machine.thread.fault = none
  harmless : ∀ failure, machine.control = .settle (.error failure) → failure.kind ≠ .internalFault
  prepared : machine.control = .execute →
    ∃ frame callers c d i, machine.thread.frames = frame :: callers ∧
    frame.Prepared p m machine.thread.slots c d i

inductive Reaches (p : Program) (limits : Limits) (start : Machine) : Machine → Prop
  | start : Reaches p limits start start
  | step {machine : Machine} (before : Reaches p limits start machine) :
    Reaches p limits start (machine.next p limits)

variable {p : Program} {m : Module Literal} {machine start : Machine}

theorem Sound.guarded (serves : p.Serves m) (sound : Sound m machine) : machine.Guarded p m := by
  cases sound with
  | enter clean _ => exact ⟨clean, by simp, by simp⟩
  | done clean _ => exact ⟨clean, by simp, by simp⟩
  | failed clean _ harmless => exact ⟨clean, by simpa using harmless, by simp⟩
  | answer clean _ _ => exact ⟨clean, by simp, by simp⟩
  | @execute thread world waiting base l c callers clean executes =>
    obtain ⟨frames, slots, runs, _, _⟩ := executes
    obtain ⟨d, i, ready⟩ := ready_of_runs serves runs
    refine ⟨clean, by simp, fun _ => ⟨l.frame, callers, c, d, i, frames, ?_⟩⟩
    exact
      { function := runs.function, code := ready.code, here := ready.here, fits := ready.fits runs
        grounded := ready.grounded
        depth := by rw [Layout.frame_depth]; exact runs.depth
        locals := by rw [ready.linked.locals]; exact runs.locals
        region := by simp only [slots, Layout.slots_size, Layout.frame, Frame.bottom]; omega }

theorem Reaches.sound {limits : Limits} (serves : p.Serves m) (first : Sound m start)
    (reaches : Reaches p limits start machine) : Sound m machine := by
  induction reaches with
  | start => exact first
  | step _ ih => exact next_sound serves limits ih

theorem run_reaches {limits : Limits} {fuel : Nat} {outcome : Outcome}
    (reaches : Reaches p limits start machine)
    (finished : run p limits fuel machine = some outcome) :
    ∃ world base, Reaches p limits start
      { thread := outcome.thread, world, waiting := [], base
        control := .answer outcome.result } := by
  induction fuel generalizing machine with
  | zero => contradiction
  | succ fuel ih =>
    unfold run at finished
    split at finished
    next result found =>
      obtain rfl := Option.some.inj finished
      obtain ⟨thread, world, waiting, base, control⟩ := machine
      unfold result? at found
      split at found
      next answered idle =>
        obtain rfl := Option.some.inj found
        obtain rfl := answered
        obtain rfl := idle
        exact ⟨world, base, reaches⟩
      · contradiction
    · exact ih reaches.step finished

end Machine

/-- A verified module, linked with the core natives, never faults. Whatever the limits, the world,
the thread, the callee and the arguments are, no call ends in an internal fault or leaves one
behind, and in every state on the way the next instruction finds its operands where the analysis
placed them. -/
theorem Thread.call_unfaulted (m : Module Literal) (accepted : m.verify = []) (s : Store)
    (limits : Limits) (thread : Thread) (clean : thread.fault = none) (world : World)
    (callee : Callee) (args : Array Value) :
    let p := Program.link (s.loadModule m).1 (s.loadModule m).2 Registry.core
    (∀ fuel outcome, thread.call p limits fuel world callee args = some outcome →
      Unfaulted outcome.result ∧ outcome.thread.fault = none) ∧
    (∀ machine, Machine.Reaches p limits { thread, world, control := .enter callee args } machine →
      machine.Guarded p m) := by
  intro p
  have serves : p.Serves m :=
    { accepted
      linked := Program.link_linkedTo m s _ _
      harmless := fun id native bound => by
        obtain ⟨name, known⟩ := Program.link_native? bound
        exact Registry.core_harmless known }
  have first : Machine.Sound m { thread, world, control := .enter callee args } :=
    .enter clean (.inl rfl)
  refine ⟨fun fuel outcome finished => ?_,
    fun machine reaches => (reaches.sound serves first).guarded serves⟩
  obtain ⟨world, base, reaches⟩ := Machine.run_reaches .start finished
  cases reaches.sound serves first with
  | answer clean _ unfaulted => exact ⟨unfaulted, clean⟩

def Module.switching : Module Literal where
  functions := #[
    { name := "main", module := "sample", minArgs := 0, maxArgs := 1, params := #["n"]
      defaults := #[.scalar (.int 2)]
      body := .bytecode
        { instructions := #[.wide .load 0, .wide (.switch .binary) 0, .plain .leave,
            .wide .constant 2, .call false 1 1, .plain .leave, .plain (.push .one),
            .call true 0 1, .plain .ret]
          constants := #[.scalar (.int 1), .scalar (.int 2), .scalar (.text "one")]
          tables := #[{ keys := #[1, 0], targets := #[6, 3], default := 2 }]
          locals := 1, stack := 1 } },
    { name := "print", module := "core", minArgs := 0, maxArgs := 1, params := #["line"]
      defaults := #[.scalar .null], body := .native }]

theorem Thread.call_unfaulted_switching :
    Module.switching.verify = [] ∧ ({} : Thread).fault = none ∧
    let p :=
      Program.link (({} : Store).loadModule .switching).1
        (({} : Store).loadModule .switching).2 Registry.core
    (∀ fuel outcome, ({} : Thread).call p {} fuel default (.id 0) #[.int 2] = some outcome →
      Unfaulted outcome.result ∧ outcome.thread.fault = none) ∧
    (∀ machine, Machine.Reaches p {}
      { thread := {}, world := default, control := .enter (.id 0) #[.int 2] } machine →
      machine.Guarded p .switching) :=
  ⟨by decide, rfl, call_unfaulted .switching (by decide) {} {} {} rfl default (.id 0) #[.int 2]⟩

end StackMachine
