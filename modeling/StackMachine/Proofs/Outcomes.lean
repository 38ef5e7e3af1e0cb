import StackMachine.Proofs.Lockstep

/-! How two calls in lockstep end. Each of them is followed from the point where they part to the
state in which the caller goes on or the call it belongs to is answered; if one of the calls comes
that far then so does the other, and they agree there. -/

namespace StackMachine

namespace Machine

/-- The call that a frame made is over: the frame goes on, or the call that the frame belongs to is
answered. -/
def Back (waiting : List Suspended) (depth : Nat) (machine : Machine) : Prop :=
  machine.waiting = waiting ∧
    (machine.control = .execute ∧ machine.thread.depth = depth ∨
      ∃ result, machine.control = .answer result)

def Comes (p : Program) (limits : Limits) (final : Machine → Prop) (start last : Machine) : Prop :=
  Visits p limits final start last ∧ final last

section Comes

variable {p : Program} {limits : Limits} {final : Machine → Prop} {machine first last : Machine}

theorem comes_here (here : final machine) : Comes p limits final machine machine :=
  ⟨.start, here⟩

theorem Comes.step (unfinished : ¬ final machine)
    (comes : Comes p limits final (machine.next p limits) last) :
    Comes p limits final machine last :=
  ⟨.step unfinished comes.1, comes.2⟩

theorem Comes.onward (unfinished : ¬ final machine) (comes : Comes p limits final machine last) :
    Comes p limits final (machine.next p limits) last := by
  obtain ⟨visits, ends⟩ := comes
  cases visits with
  | start => exact absurd ends unfinished
  | step _ rest => exact ⟨rest, ends⟩

theorem Comes.unique (comes : Comes p limits final machine first)
    (again : Comes p limits final machine last) : first = last := by
  obtain ⟨visits, ends⟩ := comes
  induction visits with
  | start =>
    obtain ⟨visits', _⟩ := again
    cases visits' with
    | start => rfl
    | step unfinished _ => exact absurd ends unfinished
  | step unfinished _ ih => exact ih (again.onward unfinished) ends

end Comes

/-- Two machines after the same call, made from `place` and from `place'`: the frame goes on, or the
call it belongs to has the same result. -/
inductive Agree (lined : Prop) (place place' : Nat) : Machine → Machine → Prop
  | resumed (frame : Frame) {status status' : Status} {slots : Array Value} {callers : List Frame}
    {world : World} {waiting : List Suspended} {base : Nat} : Agree lined place place'
      { thread := { status, slots, frames := { frame with place } :: callers }, world, waiting, base
        control := .execute }
      { thread := { status := status', slots, frames := { frame with place := place' } :: callers }
        world, waiting, base, control := .execute }
  | answered {status : Status} {slots : Array Value} {frames : List Frame}
    {fault fault' : Option CallError} {world : World} {waiting : List Suspended} {base : Nat}
    {result result' : Except CallError Value}
    (faults : Option.Rel (CallError.Alike lined (place = place')) fault fault')
    (alike : Alike lined (place = place') result result') : Agree lined place place'
      { thread := { status, slots, frames, fault }, world, waiting, base
        control := .answer result }
      { thread := { status, slots, frames, fault := fault' }, world, waiting, base
        control := .answer result' }

end Machine

theorem shrink_eq_of_isPrefix {slots longer : Array Value} {n : Nat}
    (begins : slots.toList <+: longer.toList) (inside : n ≤ slots.size) :
    longer.shrink n = slots.shrink n := by
  obtain ⟨rest, same⟩ := begins
  apply Array.toList_inj.mp
  simp [← same, List.take_append_of_le_length, inside]

theorem Thread.unwind_slots_isPrefix (thread : Thread) (count : Nat) :
    (thread.unwind count).slots.toList <+: thread.slots.toList := by
  unfold unwind
  dsimp only
  split
  · simp [List.take_prefix]
  · exact List.prefix_rfl

namespace Fork

variable (k : Fork)

abbrev Over : Machine → Prop :=
  Machine.Back k.waiting (k.callers.length + 1)

def root : Root where
  waiting := k.late.waiting
  frames := k.late.frames
  slots := k.caller.slots
  idle := nofun

theorem unwind_late {thread : Thread} {base : Nat}
    (frames : (thread.unwind base).frames = k.root.frames)
    (slots : (thread.unwind base).slots = k.root.slots) :
    thread.unwind base = { thread with slots := k.caller.slots, frames := k.late.frames } ∧
      k.caller.slots.toList <+: thread.slots.toList := by
  have begins := thread.unwind_slots_isPrefix base
  rw [slots] at begins
  refine ⟨?_, begins⟩
  have status := thread.unwind_status base
  have fault := thread.unwind_fault base
  generalize thread.unwind base = after at frames slots status fault ⊢
  obtain ⟨_, _, _, _⟩ := after
  exact (Thread.mk.injEq ..).mpr ⟨status, slots, frames, fault⟩

def left : Thread :=
  Thread.unwind { slots := k.caller.slots, frames := k.caller.frame :: k.callers } k.base

/-- A seat from which the end of the call that the caller belongs to leaves just that. -/
structure Drops (s : Seat) (slots : Array Value) : Prop where
  waiting : s.waiting = k.waiting
  base : s.base = k.base
  unwind : ∀ status fault,
    Thread.unwind { status, slots, frames := s.frames, fault } k.base =
      { k.left with status, fault }

theorem unwind_eq {slots : Array Value} (begins : k.caller.slots.toList <+: slots.toList)
    (place : Nat) (status : Status) (fault : Option CallError) :
    Thread.unwind { status, slots, frames := { k.caller with place }.frame :: k.callers, fault }
      k.base = { k.left with status, fault } := by
  have within := k.within
  obtain ⟨extra, count⟩ : ∃ extra, k.callers.length + 1 - k.base = extra + 1 :=
    ⟨k.callers.length - k.base, by omega⟩
  have below : k.caller.below.length ≤ k.caller.slots.size := by
    simp only [Layout.slots_size]
    omega
  simp only [left, Thread.unwind, List.length_cons, count, List.take_succ_cons, List.getLast?_cons,
    List.drop_succ_cons]
  cases last : (k.callers.take extra).getLast? with
  | none => simp only [Option.getD_none, Layout.frame, shrink_eq_of_isPrefix begins below]
  | some frame =>
    have bounded := k.ordered frame (List.mem_of_mem_take (List.mem_of_getLast? last))
    simp only [Option.getD_some, shrink_eq_of_isPrefix begins (Nat.le_trans bounded below)]

theorem drops_plain : k.Drops k.plain k.caller.slots :=
  ⟨rfl, rfl, k.unwind_eq List.prefix_rfl k.caller.place⟩

theorem drops_direct {late direct : Seat} (twin : Twin k late direct)
    (own : late.waiting = k.late.waiting) {slots : Array Value}
    (begins : k.caller.slots.toList <+: slots.toList) : k.Drops direct slots := by
  obtain ⟨_, waiting, base⟩ := twin.own_eq own
  refine ⟨waiting, base, fun status fault => ?_⟩
  rw [twin.unwind_own]
  exact k.unwind_eq begins k.place status fault

end Fork

namespace Machine

variable {p : Program} {limits : Limits} {k : Fork} {machine machine' : Machine}

def Agreed (p : Program) (limits : Limits) (k : Fork) (late direct : Machine) : Prop :=
  ∃ last last', Comes p limits k.Over late last ∧ Comes p limits k.Over direct last' ∧
    Agree (k.Lined p) k.caller.place k.place last last'

theorem back_answer {thread : Thread} {world : World} {base depth : Nat} {waiting : List Suspended}
    {result : Except CallError Value} :
    Back waiting depth { thread, world, waiting, base, control := .answer result } :=
  ⟨rfl, .inr ⟨result, rfl⟩⟩

theorem not_back_settle {thread : Thread} {world : World} {base depth : Nat}
    {waiting waiting' : List Suspended} {outcome : Except Failure Value} :
    ¬ Back waiting depth
      { thread, world, waiting := waiting', base, control := .settle outcome } := by
  rintro ⟨_, ⟨running, _⟩ | ⟨_, answered⟩⟩
  · contradiction
  · contradiction

theorem not_back_of_deeper {waiting : List Suspended} {depth : Nat}
    (running : machine.control = .execute) (deeper : machine.thread.depth ≠ depth) :
    ¬ Back waiting depth machine := by
  rintro ⟨_, ⟨_, same⟩ | ⟨_, answered⟩⟩
  · exact deeper same
  · rw [running] at answered
    contradiction

theorem not_answers {waiting : List Suspended}
    (working : ∀ result, machine.control ≠ .answer result) : ¬ machine.Answers waiting :=
  fun ⟨_, result, answered⟩ => working result answered

theorem failed_comes {s : Seat} {slots : Array Value} (drops : k.Drops s slots) (status : Status)
    (fault : Option CallError) (world : World) (failure : Failure) (depth : Nat) :
    let machine := s.machine status slots fault world (.settle (.error failure))
    Comes p limits (Back k.waiting depth) machine
      { thread := { k.left with status := .crashed, fault := machine.recorded p failure }, world
        waiting := k.waiting, base := k.base
        control := .answer (.error (machine.report p failure)) } := by
  intro machine
  refine .step not_back_settle ?_
  rw [next_failed, drops.base, drops.waiting, drops.unwind]
  exact comes_here back_answer

theorem stopped_comes {s : Seat} {slots : Array Value} (drops : k.Drops s slots) (world : World)
    (control : Control) (depth : Nat) :
    Comes p limits (Back k.waiting depth) (stop (s.machine .halted slots none world control))
      { thread := { k.left with status := .halted, fault := none }, world
        waiting := k.waiting, base := k.base, control := .answer (.ok .null) } := by
  refine .step not_back_settle ?_
  have ends : next p limits (stop (s.machine .halted slots none world control)) =
      { thread := { k.left with status := .halted, fault := none }, world
        waiting := k.waiting, base := k.base, control := .answer (.ok .null) } := by
    simp only [stop, Seat.machine, drops.base, drops.waiting, drops.unwind, next, settle, setStatus,
      beq_self_eq_true, Bool.or_true, if_true]
  rw [ends]
  exact comes_here back_answer

theorem delivered_agreed (status status' : Status) (world : World) (v : Value)
    (control control' : Control) :
    Agreed p limits k
      (deliver (k.plain.machine status k.caller.slots none world control) v k.dest)
      (deliver (k.direct.machine status' k.caller.slots none world control') v k.dest) := by
  cases kept : k.dest with
  | host => exact absurd kept k.awaited
  | discard =>
    exact ⟨_, _, comes_here ⟨rfl, .inl ⟨rfl, rfl⟩⟩, comes_here ⟨rfl, .inl ⟨rfl, rfl⟩⟩,
      .resumed k.caller.frame⟩
  | push =>
    let caller' : Layout := { k.caller with place := k.place }
    have pushed :
        Exec.push v (caller'.activation world.store) =
          .ok () ((caller'.after 0 [v]).activation world.store) :=
      Exec.push_layout v k.room
    simp only [deliver]
    rw [onFrame_ok _ rfl rfl (Exec.push_layout v k.room), onFrame_ok _ rfl rfl pushed]
    exact ⟨_, _, comes_here ⟨rfl, .inl ⟨rfl, rfl⟩⟩, comes_here ⟨rfl, .inl ⟨rfl, rfl⟩⟩,
      .resumed (k.caller.after 0 [v]).frame⟩

theorem land_agreed {status status' : Status} (halted : status = .halted ↔ status' = .halted)
    {fault fault' : Option CallError} (faults : k.Faults p fault fault') (world : World) (v : Value)
    (control control' : Control) : Agreed p limits k
      (land (k.plain.machine status k.caller.slots fault world control) v k.dest)
      (land (k.direct.machine status' k.caller.slots fault' world control') v k.dest) := by
  have drops := k.drops_plain
  have drops' := k.drops_direct .root rfl List.prefix_rfl
  rw [land_awaited _ v k.awaited, land_awaited _ v k.awaited]
  cases faults with
  | some alike =>
    exact ⟨_, _, failed_comes drops _ _ _ _ _, failed_comes drops' _ _ _ _ _,
      .answered (.some alike) (.error alike)⟩
  | none =>
    by_cases stopped : status = .halted
    · obtain rfl := stopped
      obtain rfl := halted.mp rfl
      exact ⟨_, _, stopped_comes drops _ _ _, stopped_comes drops' _ _ _,
        .answered .none (.ok .null)⟩
    · have going : ¬ status' = .halted := fun same => stopped (halted.mpr same)
      simp only [Seat.machine, beq_false_of_ne stopped, beq_false_of_ne going, Bool.false_eq_true,
        if_false]
      exact delivered_agreed status status' world v control control'

theorem Agreed.step (unfinished : ¬ k.Over machine) (unfinished' : ¬ k.Over machine')
    (agreed : Agreed p limits k (machine.next p limits) (machine'.next p limits)) :
    Agreed p limits k machine machine' := by
  obtain ⟨last, last', comes, comes', agree⟩ := agreed
  exact ⟨last, last', comes.step unfinished, comes'.step unfinished', agree⟩

theorem Agreed.late (unfinished : ¬ k.Over machine)
    (agreed : Agreed p limits k (machine.next p limits) machine') :
    Agreed p limits k machine machine' := by
  obtain ⟨last, last', comes, comes', agree⟩ := agreed
  exact ⟨last, last', comes.step unfinished, comes', agree⟩

theorem not_back_of_longer {waiting : List Suspended}
    (longer : waiting.length < machine.waiting.length) (depth : Nat) :
    ¬ Back waiting depth machine := by
  rintro ⟨same, _⟩
  rw [same] at longer
  omega

theorem relay_value (status : Status) (slots : Array Value) (fault : Option CallError)
    (world : World) (base : Nat) (v : Value) :
    next p limits (next p limits
      { thread := { status, slots, frames := k.late.frames, fault }, world
        waiting := k.late.waiting, base
        control := .settle (.ok v) }) =
      land (k.plain.machine (if status == .halted then .halted else .running) slots fault world
        .execute) v k.dest :=
  rfl

theorem relay_error (status : Status) (slots : Array Value) (fault : Option CallError)
    (world : World) (base : Nat) (error : CallError) :
    next p limits
      { thread := { status, slots, frames := k.late.frames, fault }, world
        waiting := k.late.waiting, base
        control := .answer (.error error) } =
      k.plain.machine status slots fault world (.settle (.error (.rethrown error))) :=
  rfl

theorem not_over_of_waiting (waits : machine.waiting = k.late.waiting) : ¬ k.Over machine :=
  not_back_of_longer (waits ▸ Nat.lt_succ_self _) _

/-- The late call is halted: the native passes the `null` on, and the call that the caller belongs
to ends as well. -/
theorem late_stopped_comes {late : Seat} (own : late.waiting = k.late.waiting) {slots : Array Value}
    {world : World} {control : Control}
    (within : Within limits k.root (stop (late.machine .halted slots none world control))) :
    k.caller.slots.toList <+: slots.toList ∧
      Comes p limits k.Over (stop (late.machine .halted slots none world control))
        { thread := { k.left with status := .halted, fault := none }, world
          waiting := k.waiting, base := k.base, control := .answer (.ok .null) } := by
  have nested := within.ending rfl
  simp only [stop, Seat.machine, own] at nested
  obtain ⟨unwound, begins⟩ := k.unwind_late nested.eq_root.1 nested.eq_root.2
  refine ⟨begins, ?_⟩
  simp only [stop, Seat.machine, unwound, own]
  refine .step not_back_settle (.step (not_over_of_waiting rfl) ?_)
  rw [relay_value, land_awaited _ _ k.awaited]
  exact stopped_comes k.drops_plain world .execute _

theorem late_failed_comes {late : Seat} (own : late.waiting = k.late.waiting) {status : Status}
    {slots : Array Value} {fault : Option CallError} {world : World} {failure : Failure} :
    let machine := late.machine status slots fault world (.settle (.error failure))
    Within limits k.root machine → k.caller.slots.toList <+: slots.toList ∧
      Comes p limits k.Over machine
        { thread := { k.left with status := .crashed, fault := machine.recorded p failure }, world
          waiting := k.waiting, base := k.base
          control := .answer (.error (machine.report p failure)) } := by
  intro machine within
  have resting : Within limits k.root (machine.next p limits) :=
    next_within p within (not_answers (by simp [machine, Seat.machine]))
  obtain ⟨frames, same⟩ := resting.eq_root ⟨own, _, rfl⟩
  obtain ⟨unwound, begins⟩ : _ ∧ k.caller.slots.toList <+: slots.toList := k.unwind_late frames same
  have crashed : machine.next p limits =
      { thread := { status := .crashed, slots := k.caller.slots, frames := k.late.frames
                    fault := machine.recorded p failure }
        world, waiting := k.late.waiting, base := late.base
        control := .answer (.error (machine.report p failure)) } := by
    rw [← own]
    exact congrArg (fun thread : Thread => ({ machine.next p limits with thread } : Machine))
      unwound
  refine ⟨begins, .step not_back_settle ?_⟩
  rw [crashed]
  refine .step (not_over_of_waiting rfl) ?_
  rw [relay_error]
  exact failed_comes k.drops_plain _ _ _ _ _

theorem Parting.agreed (parting : Parting p k machine machine')
    (within : Within limits k.root machine) : Agreed p limits k machine machine' := by
  cases parting with
  | @landed status slots fault fault' faults world v control =>
    -- the late call has left no slots of its own, so the caller finds what it finds after the
    -- direct one
    obtain ⟨_, rfl⟩ := (within.ending rfl).eq_root
    refine Agreed.late not_back_settle (Agreed.late (not_over_of_waiting rfl) ?_)
    have going : (if status == .halted then Status.halted else .running) = .halted ↔
        status = .halted := by
      cases status <;> simp
    exact relay_value (k := k) status _ fault world _ v ▸ land_agreed going faults world v _ control
  | stopped twin own =>
    obtain ⟨begins, comes⟩ := late_stopped_comes own within
    exact ⟨_, _, comes, stopped_comes (k.drops_direct twin own begins) _ _ _,
      .answered .none (.ok .null)⟩
  | failed twin own faults alike =>
    obtain ⟨begins, comes⟩ := late_failed_comes own within
    exact ⟨_, _, comes, failed_comes (k.drops_direct twin own begins) _ _ _ _ _,
      .answered (recorded_alike twin faults alike) (.error (report_alike twin alike))⟩

theorem Lockstep.unfinished (lockstep : Lockstep p k machine machine') :
    ¬ k.Over machine ∧ ¬ k.Over machine' ∧ ¬ machine.Answers k.root.waiting := by
  have longer {late direct : Seat} (twin : Twin k late direct) :
      k.waiting.length < late.waiting.length :=
    twin.waiting_suffix.1.length_le
  cases lockstep with
  | enter twin name _ =>
    refine ⟨not_back_of_longer (longer (twin.native name)) _, ?_, not_answers (by simp)⟩
    rintro ⟨_, ⟨running, _⟩ | ⟨_, answered⟩⟩ <;> contradiction
  | execute twin frame =>
    refine ⟨not_back_of_longer (longer twin) _, ?_, not_answers (by simp [Seat.machine])⟩
    exact not_back_of_deeper rfl fun same => Nat.ne_of_lt twin.frames_le (Nat.succ.inj same).symm
  | done => exact ⟨not_back_settle, not_back_settle, not_answers (by simp)⟩
  | failed => exact ⟨not_back_settle, not_back_settle, not_answers (by simp [Seat.machine])⟩
  | answer twin name _ _ =>
    refine ⟨not_back_of_longer (longer (twin.native name)) _,
      not_back_of_longer (Nat.lt_succ_of_le twin.waiting_suffix.2.length_le) _, fun answers => ?_⟩
    exact Nat.ne_of_gt (Nat.lt_succ_of_le twin.waiting_suffix.1.length_le)
      (congrArg List.length answers.1)

/-- In no state of the direct call are frames shown that differ from those of the late call. -/
def Hushed (p : Program) (limits : Limits) (k : Fork) (direct : Machine) : Prop :=
  k.Lined p ∨
    ∀ machine, Visits p limits k.Over direct machine → ∀ id, machine.callee? p = some id →
      ¬ p.Shows id

/-- The calls come to an end and agree, or one step of both keeps them abreast. -/
theorem Abreast.step (abreast : Abreast p k machine machine')
    (within : Within limits k.root machine) (bound : p.Bound)
    (hushed : Hushed p limits k machine') : Agreed p limits k machine machine' ∨
      (¬ k.Over machine ∧ ¬ k.Over machine') ∧
        Abreast p k (machine.next p limits) (machine'.next p limits) ∧
      Within limits k.root (machine.next p limits) ∧
        Hushed p limits k (machine'.next p limits) := by
  rcases abreast with lockstep | parting
  · obtain ⟨unfinished, unfinished', unanswered⟩ := lockstep.unfinished
    refine .inr ⟨⟨unfinished, unfinished'⟩, ?_, next_within p within unanswered, ?_⟩
    · exact lockstep.next within bound (hushed.imp_right fun silent => silent _ .start)
    · exact hushed.imp_right fun silent later visits => silent later (.step unfinished' visits)
  · exact .inl (parting.agreed within)

theorem Abreast.agreed_of_direct {last' : Machine} (abreast : Abreast p k machine machine')
    (within : Within limits k.root machine) (bound : p.Bound) (hushed : Hushed p limits k machine')
    (comes' : Comes p limits k.Over machine' last') : Agreed p limits k machine machine' := by
  obtain ⟨visits, back⟩ := comes'
  induction visits generalizing machine with
  | start =>
    rcases abreast.step within bound hushed with agreed | ⟨⟨_, unfinished'⟩, _⟩
    · exact agreed
    · exact absurd back unfinished'
  | step _ _ ih =>
    rcases abreast.step within bound hushed with
      agreed | ⟨⟨unfinished, unfinished'⟩, abreast, within, hushed⟩
    · exact agreed
    · exact (ih abreast within hushed back).step unfinished unfinished'

theorem Abreast.agreed_of_late {last : Machine} (abreast : Abreast p k machine machine')
    (within : Within limits k.root machine) (bound : p.Bound) (hushed : Hushed p limits k machine')
    (comes : Comes p limits k.Over machine last) : Agreed p limits k machine machine' := by
  obtain ⟨visits, back⟩ := comes
  induction visits generalizing machine' with
  | start =>
    rcases abreast.step within bound hushed with agreed | ⟨⟨unfinished, _⟩, _⟩
    · exact agreed
    · exact absurd back unfinished
  | step _ _ ih =>
    rcases abreast.step within bound hushed with
      agreed | ⟨⟨unfinished, unfinished'⟩, abreast, within, hushed⟩
    · exact agreed
    · exact (ih abreast within hushed back).step unfinished unfinished'

end Machine

end StackMachine
