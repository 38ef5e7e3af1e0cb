import StackMachine.Proofs.Poisoning

/-! Where the frames of a thread stand in their code. A frame that waits for a call has fetched the
call and has stayed just after it ever since; only the frame that executes, or the one that has
failed, can stand elsewhere. Every step of the machine keeps this, whatever the natives do. -/

namespace StackMachine

theorem Thread.unwind_frames (thread : Thread) (count : Nat) :
    (thread.unwind count).frames = thread.frames.drop (thread.frames.length - count) := by
  obtain ⟨status, slots, frames, fault⟩ := thread
  simp only [unwind]
  split
  · rfl
  next none =>
    rcases List.take_eq_nil_iff.mp (List.getLast?_eq_none_iff.mp none) with zero | empty
    · rw [zero]
      rfl
    · rw [empty, List.drop_nil]

section Levels

variable {Q R : Nat → UInt16 → Nat → Prop} {frames callers : List Frame} {frame : Frame}

/-- Each frame has the property, given its level, its function and its place. The outermost frame is
at level 0. -/
def Lined (Q : Nat → UInt16 → Nat → Prop) : List Frame → Prop
  | [] => True
  | frame :: callers => Q callers.length frame.function frame.place ∧ Lined Q callers

theorem Lined.mono (lined : Lined Q frames)
    (weaker : ∀ level function place, level < frames.length → Q level function place →
      R level function place) : Lined R frames := by
  induction frames with
  | nil => trivial
  | cons frame callers ih =>
    refine ⟨weaker _ _ _ (Nat.lt_succ_self _) lined.1,
      ih lined.2 fun level function place below => ?_⟩
    exact weaker level function place (Nat.lt_succ_of_lt below)

theorem Lined.drop (lined : Lined Q frames) (count : Nat) : Lined Q (frames.drop count) := by
  induction count generalizing frames with
  | zero => exact lined
  | succ count ih =>
    cases frames with
    | nil => trivial
    | cons frame callers => exact ih lined.2

theorem Lined.tail (lined : Lined Q frames) : Lined Q frames.tail := by
  rw [← List.drop_one]
  exact lined.drop 1

theorem Lined.at (lined : Lined Q frames) {i : Nat} (here : frames[i]? = some frame) :
    Q (frames.length - (i + 1)) frame.function frame.place := by
  induction frames generalizing i with
  | nil => simp at here
  | cons first callers ih =>
    cases i with
    | zero =>
      obtain rfl : first = frame := by simpa using here
      simpa using lined.1
    | succ i =>
      have level : (first :: callers).length - (i + 1 + 1) = callers.length - (i + 1) := by
        rw [List.length_cons, Nat.succ_sub_succ]
      rw [level]
      exact ih lined.2 (by simpa using here)

end Levels

namespace Machine

section Calls

inductive Ensues (frames : List Frame) (after : Machine) : Prop
  | opens (frame : Frame) (goes : after.control = .execute)
    (above : after.thread.frames = frame :: frames)
  | goes (goes : after.control = .execute) (same : after.thread.frames.tail = frames.tail)
  | keeps (ends : after.control ≠ .execute) (same : after.thread.frames = frames)
  | stops {v : Value} (ends : after.control = .settle (.ok v)) (count : Nat)
    (dropped : after.thread.frames = frames.drop count)

variable {p : Program} {limits : Limits} {machine : Machine}

theorem deliver_cases (machine : Machine) (v : Value) (dest : Destination) :
    ((machine.deliver v dest).control = .execute ∧
      (machine.deliver v dest).thread.frames.tail = machine.thread.frames.tail) ∨
    ∃ cause, (machine.deliver v dest).control = .settle (.error (.runtime (.fault cause))) ∧
      (machine.deliver v dest).thread.frames = machine.thread.frames := by
  cases dest with
  | push =>
    obtain ⟨⟨status, slots, frames, fault⟩, ⟨store, console, interrupted⟩, waiting, base,
      control⟩ := machine
    cases frames with
    | nil => exact .inr ⟨_, rfl, rfl⟩
    | cons frame callers =>
      by_cases room : (frame.tos < frame.limit && frame.tos < slots.size) = true
      · simp only [deliver, onFrame, Exec.push, room, if_true]
        exact .inl ⟨trivial, rfl⟩
      · simp only [deliver, onFrame, Exec.push, room]
        exact .inr ⟨_, rfl, rfl⟩
  | discard => exact .inl ⟨rfl, rfl⟩
  | host => exact .inl ⟨rfl, rfl⟩

theorem deliver_ensues (machine : Machine) (v : Value) (dest : Destination) :
    Ensues machine.thread.frames (machine.deliver v dest) := by
  rcases deliver_cases machine v dest with ⟨goes, same⟩ | ⟨_, fails, same⟩
  · exact .goes goes same
  · exact .keeps (by simp [fails]) same

theorem stop_ensues (machine : Machine) : Ensues machine.thread.frames machine.stop :=
  .stops rfl _ (Thread.unwind_frames _ _)

theorem land_ensues (machine : Machine) (v : Value) (dest : Destination) :
    Ensues machine.thread.frames (machine.land v dest) := by
  cases dest with
  | host => exact .keeps (by simp [land]) rfl
  | _ =>
    simp only [land]
    split
    · exact .keeps (by simp) rfl
    · split
      · exact stop_ensues machine
      · exact deliver_ensues machine v _

theorem proceed_ensues (thread : Thread) (waiting : List Suspended) (base : Nat) (name : String)
    (dest : Destination) (step : NativeStep) :
    Ensues thread.frames (proceed thread waiting base name dest step) := by
  unfold proceed
  split
  · exact .keeps (by simp) rfl
  · exact land_ensues ⟨thread, _, waiting, base, .execute⟩ _ dest
  · exact .keeps (by simp) rfl
  · exact .keeps (by simp) rfl

theorem callCode_ensues (machine : Machine) (id : UInt16) (f : Function Value) (code : Code Value)
    (args : Array Value) (dest : Destination) :
    Ensues machine.thread.frames (machine.callCode limits id f code args dest) := by
  unfold callCode
  split
  · exact .keeps (by simp [fail]) rfl
  · obtain ⟨⟨status, slots, frames, fault⟩, ⟨store, console, interrupted⟩, waiting, base,
      control⟩ := machine
    dsimp only [Thread.enter]
    exact .opens _ rfl rfl

theorem invoke_ensues {frames : List Frame} (framed : machine.thread.frames = frames) (id : UInt16)
    (args : Array Value) (dest : Destination) :
    Ensues frames (machine.invoke p limits id args dest) := by
  rw [← framed]
  unfold invoke
  split
  · exact .keeps (by simp [fail]) rfl
  split
  · split
    · split
      · exact .keeps (by simp [fail]) rfl
      · rw [callNative_eq]
        exact proceed_ensues _ _ _ _ _ _
    · exact callCode_ensues _ _ _ _ _ _
  · exact .keeps (by simp [fail]) rfl

theorem enter_ensues (idle : machine.waiting = [] → machine.thread.frames = []) (callee : Callee)
    (args : Array Value) : Ensues machine.thread.frames (machine.enter p limits callee args) := by
  unfold enter
  split
  · exact .keeps (by simp) rfl
  split
  · exact .keeps (by simp) rfl
  split
  next none =>
    -- A call from the host clears the thread, but there is nothing to clear.
    have cleared : machine.thread.frames = machine.thread.clear.frames :=
      idle (List.isEmpty_iff.mp none)
    rw [cleared]
    apply invoke_ensues
    rfl
  · split
    · exact .keeps (by simp) rfl
    · apply invoke_ensues
      rfl

theorem Within.idle (within : Within limits .host machine) {callee : Callee} {args : Array Value}
    (enters : machine.control = .enter callee args) (none : machine.waiting = []) :
    machine.thread.frames = [] := by
  cases within with
  | enter nested =>
    obtain rfl : _ = [] := none
    exact nested.eq_root.1
  | _ => simp at enters

end Calls

section Instructions

structure Passes (frame after : Frame) : Prop where
  function : after.function = frame.function
  place : after.place = frame.place + 1

inductive Performs (frame : Frame) (callers : List Frame) (i : Instruction) (after : Machine) : Prop
  | onward (frame' : Frame) (goes : after.control = .execute)
    (same : after.thread.frames = frame' :: callers)
  | fails {error : RuntimeError} (frame' : Frame) (passes : Passes frame frame')
    (fails : after.control = .settle (.error (.runtime error)))
    (same : after.thread.frames = frame' :: callers) (within : after.base ≤ callers.length)
  | calls (frame' : Frame) (passes : Passes frame frame') {keep : Bool} {function : UInt16}
    {argc : UInt8} (call : i = .call keep function argc) (ensues : Ensues (frame' :: callers) after)
  | leaves (ensues : Ensues callers after)
    (faults : after.control = .execute ∨ (∃ v, after.control = .settle (.ok v)) ∨
      ∃ cause, after.control = .settle (.error (.runtime (.fault cause))))

variable {p : Program} {limits : Limits} {machine : Machine} {l : Layout} {callers : List Frame}
  {i : Instruction}

theorem leaveFrame_performs {frame frame' : Frame}
    (framed : machine.thread.frames = frame' :: callers) (v : Value) :
    Performs frame callers i (machine.leaveFrame v) := by
  obtain ⟨⟨status, slots, frames, fault⟩, world, waiting, base, control⟩ := machine
  obtain rfl : frames = frame' :: callers := framed
  simp only [leaveFrame]
  split
  · exact .leaves (.keeps (by simp) rfl) (.inr (.inl ⟨v, rfl⟩))
  · let left : Machine :=
      ⟨⟨.returning, slots.shrink frame'.base, callers, fault⟩, world, waiting, base, control⟩
    refine .leaves (deliver_ensues left v _) ?_
    rcases deliver_cases left v frame'.dest with ⟨goes, _⟩ | ⟨cause, faults, _⟩
    · exact .inl goes
    · exact .inr (.inr ⟨cause, faults⟩)

theorem follow_performs (within : machine.base ≤ callers.length) {frame : Frame} {code : Code Value}
    (noCall : ∀ keep function argc, i ≠ .call keep function argc) {flow : Flow} {b : Activation}
    (completed : l.Completed code i flow b) :
    Performs frame callers i (follow p limits flow (machine.hold callers b)) := by
  obtain ⟨leads, put, locals, s, _, _, _, rfl⟩ := completed
  cases flow with
  | next => exact .onward _ rfl rfl
  | jump target =>
    simp only [follow]
    rw [onFrame_ok _ rfl rfl (Exec.jump_layout target _ _)]
    exact .onward _ rfl rfl
  | call keep function argc =>
    obtain ⟨n, rfl, _⟩ := leads
    exact absurd rfl (noCall keep function n)
  | ret v =>
    have framed :
      (machine.hold callers ({ l.after i.pops put with locals }.activation s)).thread.frames =
        { l.after i.pops put with locals }.frame :: callers := rfl
    exact leaveFrame_performs framed v
  | halt =>
    have beyond : callers.length + 1 - machine.base = callers.length - machine.base + 1 :=
      Nat.succ_sub within
    refine .leaves (.stops rfl (callers.length - machine.base) ?_) (.inr (.inl ⟨_, rfl⟩))
    simp only [follow, stop, setStatus, hold]
    rw [Thread.unwind_frames, List.length_cons, beyond, List.drop_succ_cons]

theorem follow_call_performs {frame : Frame} (passes : Passes frame l.frame) (keep : Bool)
    (function : UInt16) {argc : UInt8} (enough : argc.toNat ≤ l.operands.length) (s : Store) :
    Performs frame callers (.call keep function argc)
      (follow p limits (.call keep function argc.toNat)
        (machine.hold callers (l.activation s))) := by
  simp only [follow]
  rw [onFrame_ok _ rfl rfl (Exec.popMany_layout enough)]
  refine .calls (l.after argc.toNat []).frame ⟨passes.function, passes.place⟩ rfl ?_
  apply invoke_ensues
  rfl

theorem execute_performs {root : Root} (within : Within limits root machine)
    (running : machine.control = .execute) :
    (∃ cause, (machine.execute p limits).control = .settle (.error (.runtime (.fault cause))) ∧
      (machine.execute p limits).thread.frames = machine.thread.frames ∧
      (machine.execute p limits).base < machine.thread.frames.length) ∨
    ∃ frame callers code i, machine.thread.frames = frame :: callers ∧
      p.code? frame.function = some code ∧
      code.instructions[frame.place]? = some i ∧
        Performs frame callers i (machine.execute p limits) := by
  obtain ⟨l, callers, framed, slotted, inside, tidy, outer⟩ :=
    (within.executing running).innermost (by simp)
  obtain ⟨thread, world, waiting, base, control⟩ := machine
  dsimp only at framed slotted inside
  have below : base < thread.frames.length := by
    rw [framed]
    exact Nat.lt_succ_of_le inside
  simp only [execute, setStatus, framed]
  rw [framed] at below
  split
  · exact .inl ⟨_, rfl, rfl, below⟩
  next code known =>
    split
    · exact .inl ⟨_, rfl, rfl, below⟩
    next i here =>
      refine .inr ⟨_, callers, code, i, rfl, known, here, ?_⟩
      refine onFrame_of_ends rfl slotted
        (Exec.Ends.bind (Exec.Ends.ok (Exec.advance_layout l world.store) ?_))
      split
      next fits =>
        cases i with
        | call keep function argc =>
          refine Exec.Ends.ok rfl ?_
          have passes : Passes l.frame { l with place := l.place + 1 }.frame := ⟨rfl, rfl⟩
          exact follow_call_performs passes keep function
            ((Layout.fits_iff _ _).mp fits).1 world.store
        | _ =>
          refine (Instruction.execute_effect p code world.store (by simp) fits).mono
            (fun flow b completed => ?_) fun e b reduced => ?_
          · exact follow_performs inside (by simp) completed
          · obtain ⟨⟨n, s, _, rfl⟩, _⟩ := reduced
            refine .fails _ ?_ rfl rfl inside
            exact ⟨rfl, rfl⟩
      next => exact .fails { l with place := l.place + 1 }.frame ⟨rfl, rfl⟩ rfl rfl inside

end Instructions

section Waiting

/-- Every frame that waits for a call has the property: all frames but the one that executes or has
failed. -/
structure Waits (Q : Nat → UInt16 → Nat → Prop) (machine : Machine) : Prop where
  callers : Lined Q machine.thread.frames.tail
  innermost : machine.control ≠ .execute →
    (∀ failure, machine.control = .settle (.error failure) →
      machine.thread.frames.length ≤ machine.base) →
    Lined Q machine.thread.frames

def Fetches (machine : Machine) (level : Nat) (function : UInt16) (place : Nat) : Prop :=
  machine.control = .execute ∧ ∃ frame callers, machine.thread.frames = frame :: callers ∧
    callers.length = level ∧ frame.function = function ∧ frame.place = place

end Waiting

end Machine

def Program.CallAt (p : Program) (function : UInt16) (place : Nat) : Prop :=
  ∃ code keep callee argc, p.code? function = some code ∧
    code.instructions[place]? = some (.call keep callee argc)

namespace Machine

section Waiting

variable {Q R : Nat → UInt16 → Nat → Prop} {p : Program} {limits : Limits} {machine after : Machine}
  {frames callers : List Frame}

theorem Waits.mono (waits : machine.Waits Q)
    (weaker : ∀ level function place, level < machine.thread.frames.length →
      (∀ f q, ¬ machine.Fetches level f q) → Q level function place → R level function place) :
    machine.Waits R := by
  have behind (level : Nat) (below : level < machine.thread.frames.tail.length)
    (f : UInt16) (q : Nat) :
      ¬ machine.Fetches level f q := by
    rintro ⟨_, frame, callers, framed, rfl, _⟩
    simp [framed] at below
  refine ⟨waits.callers.mono fun level function place below => ?_, fun resting unfailed => ?_⟩
  · refine weaker level function place ?_ (behind level below)
    rw [List.length_tail] at below
    omega
  · refine (waits.innermost resting unfailed).mono fun level function place below => ?_
    exact weaker level function place below fun f q fetches => resting fetches.1

theorem Lined.waits (lined : Lined Q machine.thread.frames) : machine.Waits Q :=
  ⟨lined.tail, fun _ _ => lined⟩

theorem Ensues.waits (ensues : Ensues frames after) (lined : Lined Q frames) : after.Waits Q := by
  cases ensues with
  | opens frame goes above => exact ⟨by rwa [above], fun resting => absurd goes resting⟩
  | goes goes same => exact ⟨same ▸ lined.tail, fun resting => absurd goes resting⟩
  | keeps _ same => exact Lined.waits (same ▸ lined)
  | stops _ count dropped => exact Lined.waits (dropped ▸ lined.drop count)

theorem Performs.waits {frame : Frame} {i : Instruction} (performs : Performs frame callers i after)
    (lined : Lined Q callers)
    (called : ∀ keep function argc, i = .call keep function argc →
      Q callers.length frame.function (frame.place + 1)) : after.Waits Q := by
  cases performs with
  | onward frame' goes same => exact ⟨by rwa [same], fun resting => absurd goes resting⟩
  | fails frame' passes fails same within =>
    refine ⟨by rwa [same], fun _ unfailed => ?_⟩
    have bound := unfailed _ fails
    rw [same, List.length_cons] at bound
    omega
  | @calls frame' passes keep function argc call ensues =>
    refine ensues.waits ⟨?_, lined⟩
    rw [passes.function, passes.place]
    exact called keep function argc call
  | leaves ensues _ => exact ensues.waits lined

/-- Every step keeps what is known of the frames that wait, if it holds of a frame that begins to
wait for a call. -/
theorem next_waits (within : Within limits .host machine) (waits : machine.Waits Q)
    (called : ∀ level function place, machine.Fetches level function place →
      p.CallAt function place → Q level function (place + 1)) :
    (machine.next p limits).Waits Q := by
  cases control : machine.control with
  | enter callee args =>
    have lined := waits.innermost (by simp [control]) (by simp [control])
    simp only [next, control]
    exact (enter_ensues (within.idle control) callee args).waits lined
  | execute =>
    simp only [next, control]
    rcases execute_performs within control with ⟨cause, faults, same, below⟩ |
      ⟨frame, callers, code, i, framed, known, here, performs⟩
    · refine ⟨same ▸ waits.callers, fun _ unfailed => ?_⟩
      have bound := unfailed _ faults
      rw [same] at bound
      omega
    · have lined := waits.callers
      rw [framed] at lined
      refine performs.waits lined fun keep function argc call => ?_
      exact called _ _ _ ⟨control, frame, callers, framed, rfl, rfl, rfl⟩
        ⟨code, keep, function, argc, known, call ▸ here⟩
  | settle outcome =>
    simp only [next, control]
    cases outcome with
    | ok v => exact Lined.waits (waits.innermost (by simp [control]) (by simp [control]))
    | error failure =>
      refine Lined.waits ?_
      simp only [settle]
      rw [Thread.unwind_frames]
      by_cases outside : machine.thread.frames.length ≤ machine.base
      · exact (waits.innermost (by simp [control]) fun _ _ => outside).drop _
      · obtain ⟨count, more⟩ : ∃ count, machine.thread.frames.length - machine.base = count + 1 :=
          ⟨machine.thread.frames.length - machine.base - 1, by omega⟩
        simp only [more, ← List.drop_tail]
        exact waits.callers.drop count
  | answer result =>
    have lined := waits.innermost (by simp [control]) (by simp [control])
    simp only [next, control, answer]
    split
    · exact waits
    · exact (proceed_ensues _ _ _ _ _ _).waits lined

end Waiting

section History

variable (p : Program) (limits : Limits) (start : Machine)

def after : Nat → Machine
  | 0 => start
  | n + 1 => (after n).next p limits

/-- After `n` steps, the frame at `level` is at work on the instruction at `place` of its function:
it has fetched it, has been there ever since, and has fetched no other one. -/
inductive Executing : Nat → Nat → UInt16 → Nat → Prop
  | fetch {n level : Nat} {function : UInt16} {place : Nat}
    (fetches : (after p limits start n).Fetches level function place)
    (there : level < (after p limits start (n + 1)).thread.depth) :
    Executing (n + 1) level function place
  | stay {n level : Nat} {function : UInt16} {place : Nat}
    (before : Executing n level function place)
    (waits : ∀ other q, ¬ (after p limits start n).Fetches level other q)
    (there : level < (after p limits start (n + 1)).thread.depth) :
    Executing (n + 1) level function place

def Awaits (n level : Nat) (function : UInt16) (place : Nat) : Prop :=
  ∃ q, place = q + 1 ∧ p.CallAt function q ∧ Executing p limits start n level function q

variable {p limits start}

theorem after_within (within : Within limits .host start) (n : Nat) :
    Within limits .host (after p limits start n) := by
  induction n with
  | zero => exact within
  | succ n ih => exact next_within_host ih

theorem after_waits (within : Within limits .host start) (idle : start.thread.frames = [])
    (n : Nat) : (after p limits start n).Waits (Awaits p limits start n) := by
  induction n with
  | zero =>
    refine Lined.waits ?_
    simp only [after, idle]
    trivial
  | succ n ih =>
    -- What is known after one more step, of the frames that are still there.
    have stays :=
      ih.mono (R :=
        fun level function place => level < (after p limits start (n + 1)).thread.depth →
        Awaits p limits start (n + 1) level function place)
          fun level function place _ quiet awaits there => by
      obtain ⟨q, rfl, call, executing⟩ := awaits
      exact ⟨q, rfl, call, executing.stay quiet there⟩
    refine (next_waits (after_within within n) stays
      fun level function place fetches call there => ?_).mono
      fun level function place below _ awaits => awaits below
    exact ⟨place, rfl, call, .fetch fetches there⟩

end History

end Machine

end StackMachine
