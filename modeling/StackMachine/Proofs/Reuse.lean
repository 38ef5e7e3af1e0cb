import StackMachine.Proofs.Halting

/-! Threads at rest. However a call from the host ends, it leaves no frames and no slots behind, and
the status of the thread says whether it gave a value. So a thread without a fault on record serves
the next call as a new one would. -/

namespace StackMachine

def Status.after : Except CallError Value → Status
  | .ok _ => .halted
  | .error _ => .crashed

namespace Machine

/-- Has something to do other than to hand out a result, and begins no call but for a native that
waits. -/
structure Busy (machine : Machine) : Prop where
  works : ∀ result, machine.control ≠ .answer result
  inner : ∀ callee args, machine.control = .enter callee args → machine.waiting ≠ []

/-- A call that the host gets the result of. The host's own call is one that the thread does not
refuse, and when its result is there, the status goes with it. -/
structure Admitted (p : Program) (machine : Machine) : Prop where
  accepted : ∀ callee args, machine.control = .enter callee args → machine.waiting = [] →
    machine.thread.fault = none ∧ ∃ id, callee.resolve p = .ok id
  status : ∀ result, machine.control = .answer result → machine.waiting = [] →
    machine.thread.status = .after result

variable {p : Program} {limits : Limits} {machine before start : Machine}

theorem Continues.busy (continues : Continues before machine) : machine.Busy := by
  rcases continues.control with running | ⟨v, ends⟩ | ⟨error, fails⟩
  · exact ⟨by simp [running], by simp [running]⟩
  · exact ⟨by simp [ends], by simp [ends]⟩
  · exact ⟨by simp [fails], by simp [fails]⟩

theorem settle_busy {thread : Thread} {world : World} {waiting : List Suspended} {base : Nat}
    {outcome : Except Failure Value} :
    Busy { thread, world, waiting, base, control := .settle outcome } :=
  ⟨by simp, by simp⟩

theorem land_busy (v : Value) (dest : Destination) : (machine.land v dest).Busy := by
  cases dest with
  | host => exact settle_busy
  | _ =>
    simp only [land]
    split
    · exact settle_busy
    · split
      · exact settle_busy
      · exact (deliver_continues (.refl machine)).busy

theorem proceed_busy (thread : Thread) (waiting : List Suspended) (base : Nat) (name : String)
    (dest : Destination) (step : NativeStep) :
    (proceed thread waiting base name dest step).Busy := by
  unfold proceed
  split
  · exact ⟨by simp, by simp⟩
  · exact land_busy _ _
  · exact settle_busy
  · exact settle_busy

theorem Works.busy {dests : Destination → Prop} (works : Works p before dests machine) :
    machine.Busy := by
  cases works with
  | continues continues => exact continues.busy
  | native => exact proceed_busy _ _ _ _ _ _

theorem Busy.admitted (busy : machine.Busy) : machine.Admitted p :=
  ⟨fun callee args enters idle => absurd idle (busy.inner callee args enters),
    fun result answers => absurd answers (busy.works result)⟩

theorem admitted_answer (waits : machine.waiting ≠ []) (result : Except CallError Value) :
    Admitted p { machine with control := .answer result } :=
  ⟨by simp, fun _ _ idle => absurd idle waits⟩

theorem enter_admitted (admitted : machine.Admitted p) {callee : Callee} {args : Array Value}
    (enters : machine.control = .enter callee args) :
    (machine.enter p limits callee args).Admitted p := by
  have accepted := admitted.accepted callee args enters
  have comes := enter_enters p limits machine callee args
  generalize machine.enter p limits callee args = after at comes ⊢
  cases comes with
  | unknown unresolved =>
    refine admitted_answer (fun idle => ?_) _
    obtain ⟨_, id, resolves⟩ := accepted idle
    simp [resolves] at unresolved
  | refused _ recorded =>
    refine admitted_answer (fun idle => ?_) _
    simp [(accepted idle).1] at recorded
  | halted _ _ waits => exact admitted_answer waits _
  | begins _ _ works => exact works.busy.admitted

theorem settle_admitted (outcome : Except Failure Value) :
    (machine.settle p outcome).Admitted p := by
  refine ⟨by cases outcome <;> simp [settle], fun result answers idle => ?_⟩
  cases outcome with
  | ok v =>
    obtain rfl : Except.ok v = result := Control.answer.inj answers
    replace idle : machine.waiting = [] := idle
    simp [settle, setStatus, idle, Status.after]
  | error failure =>
    obtain rfl : Except.error (machine.report p failure) = result := Control.answer.inj answers
    exact Thread.unwind_status _ _

theorem next_admitted (admitted : machine.Admitted p) : (machine.next p limits).Admitted p := by
  unfold next
  split
  next callee args enters => exact enter_admitted admitted enters
  next => exact (execute_works machine).busy.admitted
  next outcome _ => exact settle_admitted outcome
  next result answers =>
    unfold answer
    split
    · exact admitted
    · exact (proceed_busy _ _ _ _ _ _).admitted

theorem Reaches.admitted (reaches : Reaches p limits start machine) (first : start.Admitted p) :
    machine.Admitted p := by
  induction reaches with
  | start => exact first
  | step _ ih => exact next_admitted ih

theorem Reaches.within (reaches : Reaches p limits start machine)
    (first : Within limits .host start) : Within limits .host machine := by
  induction reaches with
  | start => exact first
  | step _ ih => exact next_within_host ih

end Machine

namespace Thread

/-- The threads at rest that a sequence of calls from the host leads to. -/
inductive Served (p : Program) (limits : Limits) : Thread → Prop
  | new : Served p limits {}
  | call {thread : Thread} {fuel : Nat} {world : World} {callee : Callee} {args : Array Value}
    {outcome : Outcome} (before : Served p limits thread)
    (ended : thread.call p limits fuel world callee args = some outcome) :
    Served p limits outcome.thread

variable {p : Program} {limits : Limits} {thread : Thread} {fuel : Nat} {world : World}
  {callee : Callee}
  {args : Array Value} {outcome : Outcome}

theorem call_leaves (idle : thread.frames = [] ∧ thread.slots = #[])
    (ended : thread.call p limits fuel world callee args = some outcome) :
    outcome.thread.frames = [] ∧ outcome.thread.slots = #[] := by
  obtain ⟨world, base, reaches⟩ := Machine.run_reaches .start ended
  have start : Nested limits .host [] thread.frames.length .host thread.frames thread.slots := by
    rw [idle.1, idle.2]
    exact .root
  exact (reaches.within (.enter start)).eq_root ⟨rfl, _, rfl⟩

theorem Served.idle (served : Served p limits thread) :
    thread.frames = [] ∧ thread.slots = #[] := by
  induction served with
  | new => exact ⟨rfl, rfl⟩
  | call _ ended ih => exact call_leaves ih ended

theorem call_status (clean : thread.fault = none) {id : UInt16}
    (resolves : callee.resolve p = .ok id)
    (ended : thread.call p limits fuel world callee args = some outcome) :
    outcome.thread.status = .after outcome.result := by
  obtain ⟨_, _, reaches⟩ := Machine.run_reaches .start ended
  have first : Machine.Admitted p { thread, world, control := .enter callee args } :=
    ⟨fun _ _ enters _ => by cases enters; exact ⟨clean, id, resolves⟩, by simp⟩
  exact (reaches.admitted first).status _ rfl rfl

theorem call_eq_new (clean : thread.fault = none) (id : UInt16) :
    thread.call p limits fuel world (.id id) args =
      ({} : Thread).call p limits fuel world (.id id) args := by
  cases fuel with
  | zero => rfl
  | succ fuel =>
    obtain ⟨status, slots, frames, fault⟩ := thread
    obtain rfl : fault = none := clean
    rfl

end Thread

/-- Threads are reusable. Take the thread that any sequence of calls from the host led to, with any
natives, however the calls ended, as long as no fault is on record. It holds no frames and no slots,
and a call on it does, step for step, the same as on a new thread: the same result, the same world
and the same final thread, or neither call ends. And the thread is at rest afterwards, halted after
a value and crashed after an error. -/
theorem Thread.served_call (p : Program) (limits : Limits) (thread : Thread)
    (served : Served p limits thread) (clean : thread.fault = none) (world : World) (id : UInt16)
    (args : Array Value) :
    (thread.depth = 0 ∧ thread.slots = #[]) ∧
    (∀ fuel, thread.call p limits fuel world (.id id) args =
      ({} : Thread).call p limits fuel world (.id id) args) ∧
    ∀ fuel outcome, thread.call p limits fuel world (.id id) args = some outcome →
      outcome.thread.depth = 0 ∧ outcome.thread.slots = #[] ∧
        outcome.thread.status = .after outcome.result := by
  obtain ⟨noFrames, noSlots⟩ := served.idle
  refine ⟨⟨by simp [depth, noFrames], noSlots⟩, fun fuel => call_eq_new clean id,
    fun fuel outcome ended => ?_⟩
  obtain ⟨frames, slots⟩ := call_leaves ⟨noFrames, noSlots⟩ ended
  exact ⟨by simp [depth, frames], slots, call_status clean rfl ended⟩

def Program.numeric : Program where
  functions := #[
    { name := "outer", module := "sample", minArgs := 1, maxArgs := 1, params := #["n"]
      defaults := #[]
      body := .bytecode
        { instructions := #[.wide .load 0, .call true 1 1, .plain .ret], constants := #[]
          tables := #[]
          locals := 1, stack := 1 } },
    { name := "inner", module := "sample", minArgs := 1, maxArgs := 1, params := #["n"]
      defaults := #[]
      body := .bytecode
        { instructions := #[.wide .load 0, .plain (.unary .plus), .plain .ret], constants := #[]
          tables := #[]
          locals := 1, stack := 1 } }]
  bound := #[none, none]
  globals := ∅
  names := ∅
  entry := none

def Thread.crashed : Thread where
  status := .crashed

theorem Thread.numeric_crashes : ({} : Thread).call .numeric {} 7 default (.id 0) #[.null] = some
    { result := .error (.crashed (.operation (.operand (.unary .plus) .null))
        [⟨"inner", "sample", none⟩, ⟨"outer", "sample", none⟩])
      thread := .crashed, world := default } :=
  rfl

theorem Thread.served_call_numeric : Served .numeric {} .crashed ∧ crashed.fault = none ∧
    (∀ fuel, crashed.call .numeric {} fuel default (.id 0) #[.int 1] =
      ({} : Thread).call .numeric {} fuel default (.id 0) #[.int 1]) ∧
    ∃ outcome, crashed.call .numeric {} 9 default (.id 0) #[.int 1] = some outcome ∧
      outcome.result = .ok (.int 1) ∧
      outcome.thread.depth = 0 ∧ outcome.thread.slots = #[] ∧ outcome.thread.status = .halted := by
  have served : Served .numeric {} crashed := .call .new numeric_crashes
  have gives : crashed.call .numeric {} 9 default (.id 0) #[.int 1] = some
      { result := .ok (.int 1), thread := { status := .halted }, world := default } :=
    rfl
  obtain ⟨_, same, rests⟩ := served_call .numeric {} crashed served rfl default 0 #[.int 1]
  exact ⟨served, rfl, same, _, gives, rfl, rests 9 _ gives⟩

end StackMachine
