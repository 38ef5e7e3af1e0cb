import StackMachine.Proofs.Reuse

/-! Threads with a fault on record, in any program and with any natives. Such a thread executes
nothing any more: a call that is begun, by the host or by a native, is answered with the fault at
once. The fault that is on record stays there until a native that the thread goes back to fails with
a fault of its own, which then takes its place. -/

namespace StackMachine

/-- What the reply of a native makes of the call it belongs to while `error` is on record: only
bytecode that called the native is told of it. -/
def Reply.verdict (name : String) (landing : Destination) (error : CallError) :
    Reply → Except Failure Value
  | .value v => if landing = .host then .ok v else .error (.rethrown error)
  | .failure f => .error f
  | .silent => .error (.runtime (.fault (.silentNative name)))

namespace Machine

/-- The thread, with a fault on record, goes back to a native that is done, and the call that the
native belongs to is going to end with `outcome`; then `others` wait. -/
def Returns (others : List Suspended) (outcome : Except Failure Value) (machine : Machine) : Prop :=
  ∃ native result world reply error, machine.waiting = native :: others ∧
    machine.control = .answer result ∧
    machine.thread.fault = some error ∧ native.resume result machine.world = .reply world reply ∧
    reply.verdict native.name native.landing error = outcome

def Raises (cause : Fault) (machine : Machine) : Prop :=
  ∃ others, machine.Returns others (.error (.runtime (.fault cause)))

def Barred (machine : Machine) : Prop :=
  machine.thread.fault = none ∨ machine.control ≠ .execute

inductive Onward (p : Program) (limits : Limits) (start : Machine) : Machine → Prop
  | start : Onward p limits start start
  | step {machine : Machine} (before : Onward p limits start machine) :
    Onward p limits start (machine.next p limits)
  | again {machine : Machine} {result : Except CallError Value}
    (before : Onward p limits start machine) (finished : machine.result? = some result)
    (world : World) (callee : Callee) (args : Array Value) :
    Onward p limits start { thread := machine.thread, world, control := .enter callee args }

variable {p : Program} {limits : Limits} {machine before start : Machine}

theorem land_fault (v : Value) (dest : Destination) :
    (machine.land v dest).thread.fault = machine.thread.fault := by
  cases dest with
  | host => rfl
  | _ =>
    simp only [land]
    split
    · rfl
    · split
      · exact Thread.unwind_fault _ _
      · exact (deliver_continues (.refl machine)).fault

theorem proceed_fault (thread : Thread) (waiting : List Suspended) (base : Nat) (name : String)
    (dest : Destination) (step : NativeStep) :
    (proceed thread waiting base name dest step).thread.fault = thread.fault := by
  unfold proceed
  split
  · rfl
  · exact land_fault _ _
  · rfl
  · rfl

theorem Works.fault {dests : Destination → Prop} (works : Works p before dests machine) :
    machine.thread.fault = before.thread.fault := by
  cases works with
  | continues continues => exact continues.fault
  | native _ same => exact (proceed_fault _ _ _ _ _ _).trans same

theorem proceed_reply {thread : Thread} {error : CallError} (recorded : thread.fault = some error)
    (waiting : List Suspended) (base : Nat) (name : String) (dest : Destination) (world : World)
    (reply : Reply) :
    proceed thread waiting base name dest (.reply world reply) =
      { thread, world, waiting, base, control := .settle (reply.verdict name dest error) } := by
  cases reply with
  | value v => cases dest <;> simp [proceed, land, recorded, Reply.verdict]
  | failure f => rfl
  | silent => rfl

theorem proceed_barred (thread : Thread) (waiting : List Suspended) (base : Nat) (name : String)
    (dest : Destination) (step : NativeStep) :
    (proceed thread waiting base name dest step).Barred := by
  cases recorded : thread.fault with
  | none => exact .inl ((proceed_fault _ _ _ _ _ _).trans recorded)
  | some error =>
    cases step with
    | call => exact .inr (by simp [proceed])
    | reply world reply => exact .inr (by simp [proceed_reply recorded])

theorem next_barred (barred : machine.Barred) : (machine.next p limits).Barred := by
  obtain ⟨thread, world, waiting, base, control⟩ := machine
  cases control with
  | enter callee args =>
    have enters := enter_enters p limits ⟨thread, world, waiting, base, .enter callee args⟩ callee
      args
    simp only [next]
    generalize enter p limits _ callee args = after at enters ⊢
    cases enters with
    | unknown => exact .inr (by simp)
    | refused => exact .inr (by simp)
    | halted => exact .inr (by simp)
    | begins _ clean works => exact .inl (works.fault.trans clean)
  | execute => exact .inl ((execute_works _).fault.trans (barred.resolve_right (by simp)))
  | settle outcome => exact .inr (by cases outcome <;> simp [next, settle])
  | answer result =>
    cases waiting with
    | nil => exact barred
    | cons native others => exact proceed_barred _ _ _ _ _ _

theorem Live.barred (live : Live p limits machine) : machine.Barred := by
  induction live with
  | first => exact .inl rfl
  | step _ ih => exact next_barred ih
  | again => exact .inr (by simp)

theorem Barred.control_ne (barred : machine.Barred) {error : CallError}
    (recorded : machine.thread.fault = some error) : machine.control ≠ .execute := by
  refine barred.resolve_left fun clean => ?_
  rw [clean] at recorded
  contradiction

theorem next_refused (p : Program) (limits : Limits) {callee : Callee} {args : Array Value}
    {error : CallError} (enters : machine.control = .enter callee args)
    (recorded : machine.thread.fault = some error) :
    ∃ told, machine.next p limits = { machine with control := .answer (.error told) } ∧
      ∀ id, callee.resolve p = .ok id → told = error := by
  have comes := enter_enters p limits machine callee args
  simp only [next, enters]
  generalize machine.enter p limits callee args = after at comes ⊢
  cases comes with
  | unknown unresolved => exact ⟨_, rfl, fun id resolves => by simp [resolves] at unresolved⟩
  | refused _ found => exact ⟨_, rfl, fun _ _ => Option.some.inj (found.symm.trans recorded)⟩
  | halted _ clean _ => simp [clean] at recorded
  | begins _ clean _ => simp [clean] at recorded

theorem next_returns (p : Program) (limits : Limits) {others : List Suspended}
    {outcome : Except Failure Value} (returns : machine.Returns others outcome) :
    ∃ world base, machine.next p limits =
      { thread := machine.thread, world, waiting := others, base, control := .settle outcome } := by
  obtain ⟨native, result, world, reply, error, waits, answers, recorded, replies, rfl⟩ := returns
  refine ⟨world, native.base, ?_⟩
  simp only [next, answers, answer, waits, replies, proceed_reply recorded]

/-- What a step does to the record: nothing, unless a call ends with a fault. -/
theorem next_fault (p : Program) (limits : Limits) (machine : Machine) :
    (machine.next p limits).thread.fault = machine.thread.fault ∨
      ∃ cause, machine.control = .settle (.error (.runtime (.fault cause))) ∧
        (machine.next p limits).thread.fault =
          some (machine.report p (.runtime (.fault cause))) := by
  obtain ⟨thread, world, waiting, base, control⟩ := machine
  cases control with
  | enter callee args =>
    have enters := enter_enters p limits ⟨thread, world, waiting, base, .enter callee args⟩ callee
      args
    simp only [next]
    generalize enter p limits _ callee args = after at enters ⊢
    cases enters with
    | unknown => exact .inl rfl
    | refused => exact .inl rfl
    | halted => exact .inl rfl
    | begins _ _ works => exact .inl works.fault
  | execute => exact .inl (execute_works _).fault
  | settle outcome =>
    cases outcome with
    | ok v => exact .inl rfl
    | error failure =>
      cases failure with
      | rethrown error => exact .inl (Thread.unwind_fault _ _)
      | runtime error =>
        cases error with
        | fault cause => exact .inr ⟨cause, rfl, Thread.unwind_fault _ _⟩
        | _ => exact .inl (Thread.unwind_fault _ _)
  | answer result =>
    cases waiting with
    | nil => exact .inl rfl
    | cons native others => exact .inl (proceed_fault _ _ _ _ _ _)

theorem next_fault_ne (recorded : machine.thread.fault ≠ none) :
    (machine.next p limits).thread.fault ≠ none := by
  rcases next_fault p limits machine with same | ⟨_, _, replaced⟩
  · rwa [same]
  · simp [replaced]

theorem raises_of_next {cause : Fault} (barred : machine.Barred)
    (recorded : (machine.next p limits).thread.fault ≠ none)
    (settles : (machine.next p limits).control = .settle (.error (.runtime (.fault cause)))) :
    machine.Raises cause := by
  obtain ⟨thread, world, waiting, base, control⟩ := machine
  cases control with
  | enter callee args =>
    have comes := enter_enters p limits ⟨thread, world, waiting, base, .enter callee args⟩ callee
      args
    simp only [next] at recorded settles
    generalize enter p limits _ callee args = after at comes recorded settles
    cases comes with
    | unknown => simp at settles
    | refused => simp at settles
    | halted => simp at settles
    | begins _ clean works => exact absurd (works.fault.trans clean) recorded
  | execute =>
    have clean := barred.resolve_right (by simp)
    exact absurd ((execute_works _).fault.trans clean) recorded
  | settle outcome => cases outcome <;> simp [next, settle] at settles
  | answer result =>
    cases waiting with
    | nil => simp [next, answer] at settles
    | cons native others =>
      simp only [next, answer] at recorded settles
      rw [proceed_fault] at recorded
      obtain ⟨error, known⟩ := Option.ne_none_iff_exists'.mp recorded
      cases replies : native.resume result world with
      | call => simp [replies, proceed] at settles
      | reply world reply =>
        rw [replies, proceed_reply known] at settles
        exact ⟨others, native, result, world, reply, error, rfl, rfl, known, replies,
          Control.settle.inj settles⟩

theorem Live.raises {cause : Fault} (live : Live p limits machine)
    (recorded : machine.thread.fault ≠ none)
    (settles : machine.control = .settle (.error (.runtime (.fault cause)))) :
    ∃ raising : Machine, raising.Raises cause ∧ raising.next p limits = machine := by
  cases live with
  | first => contradiction
  | step before => exact ⟨_, raises_of_next before.barred recorded settles, rfl⟩
  | again => contradiction

theorem Onward.live (onward : Onward p limits start machine) (live : Live p limits start) :
    Live p limits machine := by
  induction onward with
  | start => exact live
  | step _ ih => exact ih.step
  | again _ finished world callee args ih => exact ih.again finished world callee args

/-- The fault that is on record `later` is the first one, or that of the native which raised one
last. -/
def Latched (p : Program) (limits : Limits) (start : Machine) (first : CallError) (later : Machine)
    (last : CallError) : Prop :=
  last = first ∨ ∃ (raising : Machine) (cause : Fault), raising.Raises cause ∧
    Onward p limits start (raising.next p limits) ∧
    ((raising.next p limits).next p limits).thread.fault = some last ∧
    Onward p limits ((raising.next p limits).next p limits) later

theorem Onward.latched (onward : Onward p limits start machine) (live : Live p limits start)
    {first : CallError} (recorded : start.thread.fault = some first) :
    ∃ last, machine.thread.fault = some last ∧ Latched p limits start first machine last := by
  induction onward with
  | start => exact ⟨first, recorded, .inl rfl⟩
  | @step machine before ih =>
    obtain ⟨last, known, latched⟩ := ih
    have present : machine.thread.fault ≠ none := by simp [known]
    rcases next_fault p limits machine with same | ⟨cause, settles, replaced⟩
    · refine ⟨last, same.trans known, latched.imp_right ?_⟩
      rintro ⟨raising, cause, raises, reached, left, onward⟩
      exact ⟨raising, cause, raises, reached, left, onward.step⟩
    · obtain ⟨raising, raises, rfl⟩ := (before.live live).raises present settles
      exact ⟨_, replaced, .inr ⟨raising, cause, raises, before, replaced, .start⟩⟩
  | again before finished world callee args ih =>
    obtain ⟨last, known, latched⟩ := ih
    refine ⟨last, known, latched.imp_right ?_⟩
    rintro ⟨raising, cause, raises, reached, left, onward⟩
    exact ⟨raising, cause, raises, reached, left, onward.again finished world callee args⟩

end Machine

/-- Once a fault is on record, in any program and with any natives, no instruction is executed any
more, there is always a fault on record, and every call of a function that there is, from the host
or from a native, is answered with that fault at once. It is the first one, until a native that goes
on after a call of its own fails with a fault; from then on it is that native's. -/
theorem Machine.fault_latched (p : Program) (limits : Limits) (machine : Machine)
    (live : Live p limits machine) (first : CallError)
    (recorded : machine.thread.fault = some first) (later : Machine)
    (onward : Onward p limits machine later) :
    later.control ≠ .execute ∧
    ∃ last, later.thread.fault = some last ∧
      (∀ callee args id, later.control = .enter callee args → callee.resolve p = .ok id →
        later.next p limits = { later with control := .answer (.error last) }) ∧
      Latched p limits machine first later last := by
  obtain ⟨last, known, latched⟩ := onward.latched live recorded
  refine ⟨(onward.live live).barred.control_ne known, last, known,
    fun callee args id enters resolves => ?_, latched⟩
  obtain ⟨told, refused, same⟩ := next_refused p limits enters known
  rw [refused, same id resolves]

def Program.careless : Program where
  functions := #[
    { name := "careless", module := "host", minArgs := 0, maxArgs := 0, params := #[]
      defaults := #[]
      body := .native },
    { name := "bad", module := "sample", minArgs := 0, maxArgs := 0, params := #[], defaults := #[]
      body := .bytecode
        { instructions := #[.plain .pop, .plain .leave], constants := #[], tables := #[]
          locals := 0, stack := 0 } }]
  bound := #[some fun _ world => .call world (.id 1) #[] fun _ world => .reply world .silent, none]
  globals := ∅
  names := ∅
  entry := none

def Thread.careless : Thread where
  status := .crashed
  fault := some (.fault "<host>" 0 (.silentNative "host.careless"))

namespace Machine

def caught : Machine where
  thread := { status := .crashed
              fault := some (.fault "sample.bad" 0 (.doesNotFit (.plain .pop))) }
  world := default
  waiting :=
    [{ name := "host.careless", base := 0, landing := .host
       resume := fun _ world => .reply world .silent }]
  control := .answer (.error (.fault "sample.bad" 0 (.doesNotFit (.plain .pop))))

def recalled : Machine where
  thread := .careless
  world := default
  control := .enter (.id 1) #[]

theorem caught_live : Live .careless {} caught :=
  (Live.first default (.id 0) #[]).step.step.step.step

theorem caught_recalled : Onward .careless {} caught recalled := by
  have settled : Onward .careless {} caught ((caught.next .careless {}).next .careless {}) :=
    Onward.start.step.step
  exact settled.again rfl default (.id 1) #[]

end Machine

theorem Machine.fault_latched_careless :
    Live .careless {} caught ∧ caught.thread.fault =
      some (.fault "sample.bad" 0 (.doesNotFit (.plain .pop))) ∧
      Onward .careless {} caught recalled ∧ recalled.control ≠ .execute ∧
      ∃ last, recalled.thread.fault = some last ∧
        recalled.next .careless {} = { recalled with control := .answer (.error last) } ∧
        Latched .careless {} caught (.fault "sample.bad" 0 (.doesNotFit (.plain .pop)))
          recalled last := by
  obtain ⟨rests, last, known, refuses, latched⟩ :=
    fault_latched .careless {} caught caught_live _ rfl recalled caught_recalled
  exact ⟨caught_live, rfl, caught_recalled, rests, last, known, refuses (.id 1) #[] 1 rfl rfl,
    latched⟩

/-- A fault on record is not there for good. A native that catches it and fails without a word puts
another one in its place, and that one answers the calls from then on. A name that nothing bears is
reported as such all the same. -/
theorem Machine.fault_overwritten :
    Live .careless {} caught ∧ caught.thread.fault =
      some (.fault "sample.bad" 0 (.doesNotFit (.plain .pop))) ∧
      Onward .careless {} caught recalled ∧
      recalled.thread.fault = some (.fault "<host>" 0 (.silentNative "host.careless")) ∧
      Thread.careless.call .careless {} 2 default (.id 1) #[] = some
        { result := .error (.fault "<host>" 0 (.silentNative "host.careless")), thread := .careless
          world := default } ∧
      Thread.careless.call .careless {} 2 default (.name "absent") #[] = some
        { result := .error (.crashed (.undefinedFunction "absent") []), thread := .careless
          world := default } := by
  have unknown : Program.careless.find? "absent" = none := by simp [Program.find?, Program.careless]
  refine ⟨caught_live, rfl, caught_recalled, rfl, rfl, ?_⟩
  simp only [Thread.call, run, result?, next, enter, Callee.resolve, unknown]
  rfl

end StackMachine
