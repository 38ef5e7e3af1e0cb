import StackMachine.Proofs.Destinations
import StackMachine.Proofs.Relaying

/-! One function called twice from the same frame: once by a native that was asked to call it, once
by the frame itself. The two calls go on in lockstep. They differ only in where the result of the
call goes and in where the current call began, and both make a difference only when the call is
over. -/

namespace StackMachine

/-- Errors of the same cause. With the same line they have the same trace, and from the same place
they are equal. -/
inductive CallError.Alike (lined placed : Prop) : CallError → CallError → Prop
  | crashed (error : RuntimeError) {trace trace' : List TraceEntry}
    (same : lined → trace = trace') :
    Alike lined placed (.crashed error trace) (.crashed error trace')
  | fault (function : String) {place place' : Nat} (cause : Fault)
    (same : placed → place = place') :
    Alike lined placed (.fault function place cause) (.fault function place' cause)

inductive Failure.Alike (lined placed : Prop) : Failure → Failure → Prop
  | runtime (error : RuntimeError) : Alike lined placed (.runtime error) (.runtime error)
  | rethrown {error error' : CallError} (alike : error.Alike lined placed error') :
    Alike lined placed (.rethrown error) (.rethrown error')

inductive Alike (lined placed : Prop) : Except CallError Value → Except CallError Value → Prop
  | ok (v : Value) : Alike lined placed (.ok v) (.ok v)
  | error {error error' : CallError} (alike : error.Alike lined placed error') :
    Alike lined placed (.error error) (.error error')

namespace Program

def Bound (p : Program) : Prop :=
  ∀ id f native, p.function? id = some f → p.native? id = some native →
    Registry.core f.qualifiedName = some native

def line (p : Program) (id : UInt16) (place : Nat) : Option UInt32 :=
  (p.code? id).bind fun code => lineAt code.lines place

theorem traceEntry_eq {p : Program} {l : Layout} {place : Nat}
    (lined : p.line l.function (l.place - 1) = p.line l.function (place - 1)) :
    p.traceEntry l.frame = p.traceEntry { l with place }.frame := by
  simp only [line, code?] at lined
  simp only [traceEntry, Layout.frame, Frame.lastPlace]
  split
  next f known =>
    simp only [known, Option.bind_some] at lined
    rw [lined]
  · rfl

def Shows (p : Program) (id : UInt16) : Prop :=
  ∃ f, p.function? id = some f ∧ f.qualifiedName = "core.stack_trace"

theorem link_native?_eq {m : Module Value} {s : Store} {registry : Registry} {id : UInt16}
    {f : Function Value} (known : (link m s registry).function? id = some f) :
    (link m s registry).native? id = if f.isNative then registry f.qualifiedName else none := by
  simp only [function?, link, Array.getElem?_map, Option.map_eq_some_iff] at known
  obtain ⟨g, there, rfl⟩ := known
  have name : (g.sortTables s).qualifiedName = g.qualifiedName := by
    unfold Function.sortTables
    split <;> rfl
  have kind : (g.sortTables s).isNative = g.isNative := by
    unfold Function.sortTables
    split
    · rfl
    next code body => simp [Function.isNative, Function.code?, body]
  simp only [native?, link, Array.getElem?_map, there, Option.map_some, Option.join_some, name,
    kind]

theorem link_bound (m : Module Value) (s : Store) : (link m s Registry.core).Bound := by
  intro id f native known bound
  rw [link_native?_eq known] at bound
  split at bound
  · exact bound
  · contradiction

end Program

theorem Registry.core_trace {name : String} {native : Native} (known : core name = some native)
    (other : name ≠ "core.stack_trace") (call : NativeCall) (trace : List TraceEntry)
    (world : World) : native { call with trace } world = native call world := by
  unfold core at known
  split at known
  · obtain rfl := Option.some.inj known
    rfl
  · obtain rfl := Option.some.inj known
    rfl
  · obtain rfl := Option.some.inj known
    rfl
  · exact absurd rfl other
  · contradiction

/-- Where a call stands: who waits, where the current call began, where the next result goes, and
the frames. -/
structure Seat where
  waiting : List Suspended
  base : Nat
  dest : Destination
  frames : List Frame

namespace Seat

def suspend (s : Seat) (name : String) : Seat where
  waiting := { name, base := s.base, landing := s.dest, resume := NativeStep.relay } :: s.waiting
  base := s.frames.length
  dest := .host
  frames := s.frames

def stack (s : Seat) (frame : Frame) (dest : Destination) : Seat :=
  { s with dest, frames := { frame with dest := s.dest } :: s.frames }

def machine (s : Seat) (status : Status) (slots : Array Value) (fault : Option CallError)
    (world : World) (control : Control) : Machine where
  thread := { status, slots, frames := s.frames, fault }
  world := world
  waiting := s.waiting
  base := s.base
  control := control

end Seat

/-- A frame that makes a call, once through a native and once by itself. The second time it may
stand at another place of its code. -/
structure Fork where
  waiting : List Suspended
  base : Nat
  /-- What the frame does with the result. -/
  dest : Destination
  /-- The native. -/
  name : String
  caller : Layout
  place : Nat
  callers : List Frame
  awaited : dest ≠ .host
  within : base ≤ callers.length
  /-- The caller has a cell left for the result. -/
  room : 0 < caller.free.length
  ordered : ∀ frame ∈ callers, frame.base ≤ caller.below.length

namespace Fork

variable (k : Fork)

def plain : Seat where
  waiting := k.waiting
  base := k.base
  dest := k.dest
  frames := k.caller.frame :: k.callers

def late : Seat :=
  k.plain.suspend k.name

def direct : Seat :=
  { k.plain with frames := { k.caller with place := k.place }.frame :: k.callers }

/-- Both calls are made from the same source line. The caller has moved on to the instruction after
the call. -/
def Lined (p : Program) : Prop :=
  p.line k.caller.function (k.caller.place - 1) = p.line k.caller.function (k.place - 1)

def Placed : Prop :=
  k.caller.place = k.place

abbrev Faults (p : Program) : Option CallError → Option CallError → Prop :=
  Option.Rel (CallError.Alike (k.Lined p) k.Placed)

end Fork

/-- Seats with the same natives and frames above the two calls. -/
inductive Twin (k : Fork) : Seat → Seat → Prop
  | root : Twin k k.late k.direct
  | native {late direct : Seat} (outer : Twin k late direct) (name : String) :
    Twin k (late.suspend name) (direct.suspend name)
  | frame {late direct : Seat} (outer : Twin k late direct) (frame : Frame) {dest : Destination}
    (awaited : dest ≠ .host) : Twin k (late.stack frame dest) (direct.stack frame dest)

namespace Twin

variable {k : Fork} {late direct : Seat} {p : Program}

theorem length_eq (twin : Twin k late direct) : late.frames.length = direct.frames.length := by
  induction twin with
  | root => rfl
  | native _ _ ih => exact ih
  | frame _ _ _ ih => exact congrArg (· + 1) ih

theorem base_le (twin : Twin k late direct) :
    late.base ≤ late.frames.length ∧ direct.base ≤ direct.frames.length := by
  induction twin with
  | root => exact ⟨Nat.le_refl _, Nat.le_succ_of_le k.within⟩
  | native _ _ _ => exact ⟨Nat.le_refl _, Nat.le_refl _⟩
  | frame _ _ _ ih => exact ⟨Nat.le_succ_of_le ih.1, Nat.le_succ_of_le ih.2⟩

theorem trace_eq (twin : Twin k late direct) (lined : k.Lined p) :
    late.frames.map p.traceEntry = direct.frames.map p.traceEntry := by
  induction twin with
  | root => exact congrArg (· :: k.callers.map p.traceEntry) (Program.traceEntry_eq lined)
  | native _ _ ih => exact ih
  | frame _ frame _ ih => exact congrArg (p.traceEntry frame :: ·) ih

/-- A fault is charged to the same function, and to the same place unless the caller itself is to
blame. -/
theorem location_alike (twin : Twin k late direct) :
    (p.location late.frames).1 = (p.location direct.frames).1 ∧
    (k.Placed → (p.location late.frames).2 = (p.location direct.frames).2) := by
  induction twin with
  | root =>
    simp only [Program.location, Fork.late, Fork.direct, Fork.plain, Seat.suspend, Layout.frame,
      Frame.lastPlace]
    split <;> exact ⟨rfl, fun placed => congrArg (· - 1) placed⟩
  | native _ _ ih => exact ih
  | frame _ _ _ _ => exact ⟨rfl, fun _ => rfl⟩

theorem waiting_suffix (twin : Twin k late direct) :
    k.late.waiting <:+ late.waiting ∧ k.waiting <:+ direct.waiting := by
  induction twin with
  | root => exact ⟨List.suffix_rfl, List.suffix_rfl⟩
  | native _ _ ih => exact ⟨ih.1.trans (List.suffix_cons _ _), ih.2.trans (List.suffix_cons _ _)⟩
  | frame _ _ _ ih => exact ih

theorem unwind_native (twin : Twin k late direct) (above : late.waiting ≠ k.late.waiting)
    (status : Status) (slots : Array Value) (fault fault' : Option CallError) :
    ∃ outer outer' name slots', Twin k outer outer' ∧
      late.waiting = (outer.suspend name).waiting ∧ direct.waiting = (outer'.suspend name).waiting ∧
      Thread.unwind { status, slots, frames := late.frames, fault } late.base =
        { status, slots := slots', frames := outer.frames, fault } ∧
      Thread.unwind { status, slots, frames := direct.frames, fault := fault' } direct.base =
        { status, slots := slots', frames := outer'.frames, fault := fault' } := by
  induction twin with
  | root => exact absurd rfl above
  | @native late direct outer name =>
    exact ⟨late, direct, name, slots, outer, rfl, rfl, Thread.unwind_resting rfl,
      Thread.unwind_resting rfl⟩
  | frame outer frame _ ih =>
    -- which cell the slots are cut at is decided by the last frame that is dropped, so look at what
    -- lies below this one
    cases outer with
    | root => exact absurd rfl above
    | @native late direct outer name =>
      exact ⟨late, direct, name, slots.shrink frame.base, outer, rfl, rfl, Thread.unwind_last rfl,
        Thread.unwind_last rfl⟩
    | frame outer _ _ =>
      obtain ⟨within, within'⟩ := outer.base_le
      obtain ⟨late, direct, name, slots', twin, waits, waits', left, left'⟩ := ih above
      exact ⟨late, direct, name, slots', twin, waits, waits',
        (Thread.unwind_inner (Nat.lt_succ_of_le within)).trans left,
        (Thread.unwind_inner (Nat.lt_succ_of_le within')).trans left'⟩

theorem frames_le (twin : Twin k late direct) : k.callers.length < direct.frames.length := by
  induction twin with
  | root => exact Nat.lt_succ_self _
  | native _ _ ih => exact ih
  | frame _ _ _ ih => exact Nat.lt_succ_of_lt ih

/-- Without a native above the fork, the direct call is part of the call that the caller belongs
to. -/
theorem own_eq (twin : Twin k late direct) (own : late.waiting = k.late.waiting) :
    late.base = k.late.base ∧ direct.waiting = k.waiting ∧ direct.base = k.base := by
  induction twin with
  | root => exact ⟨rfl, rfl, rfl⟩
  | native outer name _ =>
    have longer := outer.waiting_suffix.1.length_le
    rw [← own] at longer
    simp only [Seat.suspend, List.length_cons] at longer
    omega
  | frame _ _ _ ih => exact ih own

theorem unwind_own (twin : Twin k late direct) (status : Status) (slots : Array Value)
    (fault : Option CallError) :
    Thread.unwind { status, slots, frames := direct.frames, fault } k.base =
      Thread.unwind { status, slots, frames := k.direct.frames, fault } k.base := by
  induction twin with
  | root => rfl
  | native _ _ ih => exact ih
  | frame outer _ _ ih =>
    have inner := Nat.lt_of_le_of_lt k.within outer.frames_le
    exact (Thread.unwind_inner inner).trans ih

end Twin

namespace Machine

/-- What holds of the two machines while both calls go on. -/
inductive Lockstep (p : Program) (k : Fork) : Machine → Machine → Prop
  | enter {late direct : Seat} (twin : Twin k late direct) (name : String) {status : Status}
    {slots : Array Value} {fault fault' : Option CallError} (faults : k.Faults p fault fault')
    {world : World} {base base' : Nat} {callee : Callee} {args : Array Value} : Lockstep p k
      { thread := { status, slots, frames := late.frames, fault }, world
        waiting := (late.suspend name).waiting, base
        control := .enter callee args }
      { thread := { status, slots, frames := direct.frames, fault := fault' }, world
        waiting := (direct.suspend name).waiting, base := base', control := .enter callee args }
  | execute {late direct : Seat} (twin : Twin k late direct) (frame : Frame) {status : Status}
    {slots : Array Value} {world : World} : Lockstep p k
      ((late.stack frame .push).machine status slots none world .execute)
      ((direct.stack frame .push).machine status slots none world .execute)
  | done {late direct : Seat} (twin : Twin k late direct) (name : String) {status : Status}
    {slots : Array Value} {fault fault' : Option CallError} (faults : k.Faults p fault fault')
    {world : World} {base base' : Nat} {v : Value} : Lockstep p k
      { thread := { status, slots, frames := late.frames, fault }, world
        waiting := (late.suspend name).waiting, base
        control := .settle (.ok v) }
      { thread := { status, slots, frames := direct.frames, fault := fault' }, world
        waiting := (direct.suspend name).waiting, base := base', control := .settle (.ok v) }
  | failed {late direct : Seat} (twin : Twin k late direct) (above : late.waiting ≠ k.late.waiting)
    {status : Status} {slots : Array Value} {fault fault' : Option CallError}
    (faults : k.Faults p fault fault') {world : World} {failure failure' : Failure}
    (alike : failure.Alike (k.Lined p) k.Placed failure') : Lockstep p k
      (late.machine status slots fault world (.settle (.error failure)))
      (direct.machine status slots fault' world (.settle (.error failure')))
  | answer {late direct : Seat} (twin : Twin k late direct) (name : String) {status : Status}
    {slots : Array Value} {fault fault' : Option CallError} (faults : k.Faults p fault fault')
    {world : World} {base base' : Nat} {result result' : Except CallError Value}
    (alike : Alike (k.Lined p) k.Placed result result') : Lockstep p k
      { thread := { status, slots, frames := late.frames, fault }, world
        waiting := (late.suspend name).waiting, base
        control := .answer result }
      { thread := { status, slots, frames := direct.frames, fault := fault' }, world
        waiting := (direct.suspend name).waiting, base := base', control := .answer result' }

/-- The two calls have just ended: with a value, by a halt, or by a failure. -/
inductive Parting (p : Program) (k : Fork) : Machine → Machine → Prop
  | landed {status : Status} {slots : Array Value} {fault fault' : Option CallError}
    (faults : k.Faults p fault fault') {world : World} {v : Value} {control : Control} : Parting p k
      (k.late.machine status slots fault world (.settle (.ok v)))
      (land (k.direct.machine status slots fault' world control) v k.dest)
  | stopped {late direct : Seat} (twin : Twin k late direct) (own : late.waiting = k.late.waiting)
    {slots : Array Value} {world : World} {control control' : Control} : Parting p k
      (stop (late.machine .halted slots none world control))
      (stop (direct.machine .halted slots none world control'))
  | failed {late direct : Seat} (twin : Twin k late direct) (own : late.waiting = k.late.waiting)
    {status : Status} {slots : Array Value} {fault fault' : Option CallError}
    (faults : k.Faults p fault fault') {world : World} {failure failure' : Failure}
    (alike : failure.Alike (k.Lined p) k.Placed failure') : Parting p k
      (late.machine status slots fault world (.settle (.error failure)))
      (direct.machine status slots fault' world (.settle (.error failure')))

def Abreast (p : Program) (k : Fork) (late direct : Machine) : Prop :=
  Lockstep p k late direct ∨ Parting p k late direct

variable {p : Program} {k : Fork} {late direct : Seat} {status : Status} {slots : Array Value}
  {fault fault' : Option CallError} {world : World} {control control' : Control}

theorem fail_abreast (twin : Twin k late direct) (faults : k.Faults p fault fault')
    {failure failure' : Failure} (alike : failure.Alike (k.Lined p) k.Placed failure') : Abreast p k
      (late.machine status slots fault world (.settle (.error failure)))
      (direct.machine status slots fault' world (.settle (.error failure'))) := by
  by_cases own : late.waiting = k.late.waiting
  · exact .inr (.failed twin own faults alike)
  · exact .inl (.failed twin own faults alike)

theorem stop_abreast (twin : Twin k late direct) : Abreast p k
    (stop (late.machine .halted slots none world control))
    (stop (direct.machine .halted slots none world control')) := by
  by_cases own : late.waiting = k.late.waiting
  · exact .inr (.stopped twin own)
  · obtain ⟨outer, outer', name, slots', twin', waits, waits', left, left'⟩ :=
      twin.unwind_native own .halted slots none none
    simp only [stop, Seat.machine, left, left', waits, waits']
    exact .inl (.done twin' name .none)

theorem onFrame_abreast {α : Type} {act : Exec α} (blind : act.Blind)
    {andThen : α → Machine → Machine} (twin : Twin k late direct) (frame : Frame)
    {dest : Destination} (awaited : dest ≠ .host)
    (works : ∀ (v : α) (b : Activation),
      act (Activation.toward ⟨frame, slots, world.store⟩ late.dest) = .ok v (b.toward late.dest) →
      let world := { world with store := b.store }
      Abreast p k
        (andThen v ((late.stack b.frame dest).machine status b.slots none world control))
        (andThen v ((direct.stack b.frame dest).machine status b.slots none world control'))) :
    Abreast p k
      (onFrame ((late.stack frame dest).machine status slots none world control) act andThen)
      (onFrame ((direct.stack frame dest).machine status slots none world control')
        act andThen) := by
  have ends := blind ⟨frame, slots, world.store⟩ late.dest
  have ends' := blind ⟨frame, slots, world.store⟩ direct.dest
  cases path : act ⟨frame, slots, world.store⟩ with
  | ok v b =>
    simp only [path] at ends ends'
    have result := works v b ends
    simp only [Activation.toward] at ends ends'
    simp only [onFrame, Seat.machine, Seat.stack, ends, ends']
    exact result
  | error e b =>
    simp only [path, Activation.toward] at ends ends'
    simp only [onFrame, Seat.machine, Seat.stack, ends, ends']
    exact fail_abreast (twin.frame b.frame awaited) .none (.runtime e)

theorem deliver_abreast (twin : Twin k late direct) (frame : Frame) {dest : Destination}
    (awaited : dest ≠ .host) (v : Value) : Abreast p k
      (deliver ((late.stack frame dest).machine status slots none world control) v dest)
      (deliver ((direct.stack frame dest).machine status slots none world control') v dest) := by
  cases dest with
  | host => exact absurd rfl awaited
  | discard => exact .inl (.execute twin frame)
  | push =>
    simp only [deliver]
    exact onFrame_abreast (Exec.blind_push v) twin frame awaited fun _ b _ =>
      .inl (.execute twin b.frame)

theorem land_awaited (machine : Machine) (v : Value) {dest : Destination} (awaited : dest ≠ .host) :
    machine.land v dest =
      match machine.thread.fault with
      | some error => { machine with control := .settle (.error (.rethrown error)) }
      | none => if machine.thread.status == .halted then machine.stop
        else machine.deliver v dest := by
  cases dest with
  | host => exact absurd rfl awaited
  | push => rfl
  | discard => rfl

theorem land_abreast (twin : Twin k late direct) (faults : k.Faults p fault fault') (v : Value) :
    Abreast p k
    (land (late.machine status slots fault world control) v late.dest)
    (land (direct.machine status slots fault' world control') v direct.dest) := by
  cases twin with
  | root => exact .inr (.landed faults)
  | native outer name => exact .inl (.done outer name faults)
  | frame outer frame awaited =>
    simp only [Seat.stack]
    rw [land_awaited _ v awaited, land_awaited _ v awaited]
    cases faults with
    | some alike => exact fail_abreast (outer.frame frame awaited) (.some alike) (.rethrown alike)
    | none =>
      by_cases halted : status = .halted
      · simp only [Seat.machine, halted, beq_self_eq_true, if_true]
        exact stop_abreast (outer.frame frame awaited)
      · simp only [Seat.machine, beq_false_of_ne halted, Bool.false_eq_true, if_false]
        exact deliver_abreast outer frame awaited v

theorem leaveFrame_last (s : Seat) (frame : Frame) {dest : Destination} (v : Value)
    (last : s.frames.length ≤ s.base) :
    leaveFrame ((s.stack frame dest).machine status slots fault world control) v =
      s.machine .returning (slots.shrink frame.base) fault world (.settle (.ok v)) :=
  if_pos last

theorem leaveFrame_inner (s : Seat) (frame : Frame) {dest : Destination} (v : Value)
    (inner : s.base < s.frames.length) :
    leaveFrame ((s.stack frame dest).machine status slots fault world control) v =
      deliver (s.machine .returning (slots.shrink frame.base) fault world control) v s.dest :=
  if_neg (Nat.not_le.mpr inner)

theorem leaveFrame_abreast (twin : Twin k late direct) (frame : Frame) {dest : Destination}
    (v : Value) : Abreast p k
    (leaveFrame ((late.stack frame dest).machine status slots none world control) v)
    (leaveFrame ((direct.stack frame dest).machine status slots none world control') v) := by
  cases twin with
  | root =>
    -- the native's call ends here, while the direct one returns to a frame of the same call
    rw [leaveFrame_last _ _ _ (Nat.le_refl _), leaveFrame_inner _ _ _ (Nat.lt_succ_of_le k.within)]
    have landed :
      deliver (k.direct.machine .returning (slots.shrink frame.base) none world control') v
      k.direct.dest =
        land (k.direct.machine .returning (slots.shrink frame.base) none world control') v
          k.dest := by
      rw [land_awaited _ v k.awaited]
      rfl
    rw [landed]
    exact .inr (.landed .none)
  | native outer name =>
    rw [leaveFrame_last _ _ _ (Nat.le_refl _), leaveFrame_last _ _ _ (Nat.le_refl _)]
    exact .inl (.done outer name .none)
  | frame outer inner awaited =>
    obtain ⟨within, within'⟩ := outer.base_le
    rw [leaveFrame_inner _ _ _ (Nat.lt_succ_of_le within),
      leaveFrame_inner _ _ _ (Nat.lt_succ_of_le within')]
    exact deliver_abreast outer inner awaited v

theorem proceed_abreast (twin : Twin k late direct) (faults : k.Faults p fault fault')
    (name : String) {step : NativeStep} (relays : step.Relays) : Abreast p k
      (proceed { status, slots, frames := late.frames, fault } late.waiting late.base name
        late.dest step)
      (proceed { status, slots, frames := direct.frames, fault := fault' } direct.waiting
        direct.base name direct.dest step) := by
  cases relays with
  | value world v => exact land_abreast twin faults v
  | failure world error => exact fail_abreast twin faults (.runtime error)
  | call world callee args => exact .inl (.enter twin name faults)

/-- Both calls of a native do the same, unless the native shows frames that differ. -/
theorem native_step_eq (twin : Twin k late direct) (bound : p.Bound) {id : UInt16}
    {f : Function Value} (known : p.function? id = some f) {native : Native}
    (host : p.native? id = some native) (quiet : k.Lined p ∨ ¬ p.Shows id) (args : Array Value)
    (world' : World) :
    native ((late.machine status slots fault world control).nativeCall p id f args) world' =
      native ((direct.machine status slots fault' world control').nativeCall p id f args)
        world' := by
  rcases quiet with lined | silent
  · have same : (late.machine status slots fault world control).nativeCall p id f args =
        (direct.machine status slots fault' world control').nativeCall p id f args := by
      simp only [nativeCall, Seat.machine, Thread.trace, twin.trace_eq lined]
    rw [same]
  · exact Registry.core_trace (bound id f native known host) (fun named => silent ⟨f, known, named⟩)
      ((direct.machine status slots fault' world control').nativeCall p id f args)
        (late.frames.map p.traceEntry) world'

theorem callCode_abreast (twin : Twin k late direct) (limits : Limits) (id : UInt16)
    (f : Function Value) (code : Code Value) (args : Array Value) : Abreast p k
      (callCode limits (late.machine status slots none world control) id f code args late.dest)
      (callCode limits (direct.machine status slots none world control') id f code args
        direct.dest) := by
  have same : Thread.refusal? { status, slots, frames := late.frames } limits f code =
      Thread.refusal? { status, slots, frames := direct.frames } limits f code := by
    unfold Thread.refusal? Thread.depth
    rw [twin.length_eq]
  simp only [callCode, Seat.machine, same]
  split
  next error _ => exact fail_abreast twin .none (.runtime error)
  next =>
    let frame : Frame :=
      { function := id, base := slots.size, locals := code.locals.toNat
        limit := slots.size + code.frameSize
        tos := slots.size + code.locals.toNat, place := 0, dest := .push }
    exact .inl (.execute twin frame)

theorem invoke_abreast (twin : Twin k late direct) (bound : p.Bound) (limits : Limits) {id : UInt16}
    (quiet : k.Lined p ∨ ¬ p.Shows id) (args : Array Value) : Abreast p k
      (invoke p limits (late.machine status slots none world control) id args late.dest)
      (invoke p limits (direct.machine status slots none world control') id args direct.dest) := by
  have failed (error : RuntimeError) : Abreast p k
      (fail (late.machine status slots none world control) error)
      (fail (direct.machine status slots none world control') error) :=
        fail_abreast twin .none (.runtime error)
  unfold invoke
  cases known : p.function? id with
  | none => exact failed _
  | some f =>
    dsimp only
    split
    · cases f.body with
      | bytecode code => exact callCode_abreast twin limits id f code args
      | native =>
        cases host : p.native? id with
        | none => exact failed _
        | some native =>
          dsimp only
          rw [callNative_eq, callNative_eq, native_step_eq twin bound known host quiet]
          obtain ⟨_, core⟩ : ∃ name, Registry.core name = some native :=
            ⟨_, bound id f native known host⟩
          exact proceed_abreast twin .none _ (Registry.core_relays core _ _)
    · exact failed _

theorem enter_abreast (twin : Twin k late direct) (bound : p.Bound) (limits : Limits)
    (name : String) (faults : k.Faults p fault fault') {base base' : Nat} {callee : Callee}
    (args : Array Value) (quiet : k.Lined p ∨ ∀ id, callee.resolve p = .ok id → ¬ p.Shows id) :
    Abreast p k
      (enter p limits
        { thread := { status, slots, frames := late.frames, fault }, world
          waiting := (late.suspend name).waiting, base, control } callee args)
      (enter p limits
        { thread := { status, slots, frames := direct.frames, fault := fault' }, world
          waiting := (direct.suspend name).waiting, base := base', control := control' }
        callee args) := by
  unfold enter
  cases resolved : callee.resolve p with
  | error unknown => exact .inl (.answer twin name faults (.error (.crashed _ twin.trace_eq)))
  | ok id =>
    cases faults with
    | some alike => exact .inl (.answer twin name (.some alike) (.error alike))
    | none =>
      simp only [Seat.suspend, List.isEmpty_cons, Bool.false_eq_true, if_false]
      by_cases halted : status = .halted
      · simp only [halted, beq_self_eq_true, if_true]
        exact .inl (.answer twin name .none (.ok .null))
      · simp only [beq_false_of_ne halted, Bool.false_eq_true, if_false]
        exact invoke_abreast (twin.native name) bound limits
          (quiet.imp_right fun silent => silent id resolved) args

theorem follow_abreast (twin : Twin k late direct) (bound : p.Bound) (limits : Limits)
    (frame : Frame) (flow : Flow)
    (quiet : ∀ keep id argc, flow = .call keep id argc → k.Lined p ∨ ¬ p.Shows id) : Abreast p k
      (follow p limits flow ((late.stack frame .push).machine status slots none world control))
      (follow p limits flow ((direct.stack frame .push).machine status slots none world
        control')) := by
  cases flow with
  | next => exact .inl (.execute twin frame)
  | jump target =>
    simp only [follow]
    exact onFrame_abreast (Exec.blind_jump target) twin frame (by simp) fun _ b _ =>
      .inl (.execute twin b.frame)
  | call keep id argc =>
    have awaited : (if keep then Destination.push else .discard) ≠ .host := by cases keep <;> simp
    simp only [follow]
    exact onFrame_abreast (Exec.blind_popMany argc) twin frame awaited fun args b _ =>
      invoke_abreast (twin.frame b.frame awaited) bound limits (quiet keep id argc rfl) args
  | ret v =>
    simp only [follow]
    exact leaveFrame_abreast twin frame v
  | halt => exact stop_abreast (twin.frame frame (by simp))

theorem perform_call {l : Layout} {s : Store} {code : Code Value} {i : Instruction} {keep : Bool}
    {id : UInt16} {argc : Nat} {b : Activation}
    (path : i.perform p code (l.activation s) = .ok (.call keep id argc) b) :
    ∃ n, i = .call keep id n := by
  simp only [Instruction.perform, bind, EStateM.bind, Exec.advance_layout] at path
  split at path
  next fits =>
    by_cases called : ∃ keep function n, i = .call keep function n
    · obtain ⟨_, _, n, rfl⟩ := called
      obtain ⟨rfl, rfl, _⟩ := Flow.call.inj (EStateM.Result.ok.inj path).1
      exact ⟨n, rfl⟩
    · have effect := Instruction.execute_effect p code s
        (fun keep function n same => called ⟨_, _, _, same⟩) fits
      simp only [Layout.Effect, Exec.Ends, path] at effect
      obtain ⟨⟨n, same, _⟩, _⟩ := effect
      exact ⟨n, same⟩
  · contradiction

def callee? (p : Program) (machine : Machine) : Option UInt16 :=
  match machine.control with
  | .enter callee _ => (callee.resolve p).toOption
  | .execute =>
    match machine.thread.frames with
    | [] => none
    | frame :: _ =>
      match (p.code? frame.function).bind (·.instructions[frame.place]?) with
      | some (.call _ id _) => some id
      | _ => none
  | _ => none

theorem execute_abreast (twin : Twin k late direct) (bound : p.Bound) (limits : Limits)
    (frame : Frame) {l : Layout} (framed : { frame with dest := late.dest } = l.frame)
    (slotted : slots = l.slots)
    (quiet : k.Lined p ∨ ∀ id, callee? p
      ((direct.stack frame .push).machine status slots none world .execute) = some id →
      ¬ p.Shows id) :
    Abreast p k
      (execute p limits ((late.stack frame .push).machine status slots none world control))
      (execute p limits ((direct.stack frame .push).machine status slots none world control')) := by
  have awaited : Destination.push ≠ .host := by simp
  have failed (error : RuntimeError) : Abreast p k
      (fail ((late.stack frame .push).machine .running slots none world control) error)
      (fail ((direct.stack frame .push).machine .running slots none world control') error) :=
    fail_abreast (twin.frame frame awaited) .none (.runtime error)
  simp only [execute, setStatus, Seat.machine, Seat.stack]
  cases body : p.code? frame.function with
  | none => exact failed _
  | some code =>
    dsimp only
    cases fetched : code.instructions[frame.place]? with
    | none => exact failed _
    | some i =>
      refine onFrame_abreast (i.perform_blind p code) twin frame awaited fun flow b path => ?_
      refine follow_abreast twin bound limits b.frame flow fun keep id argc same =>
        quiet.imp_right fun silent => ?_
      have here : Activation.toward ⟨frame, slots, world.store⟩ late.dest =
          l.activation world.store := by
        simp only [Activation.toward, Layout.activation, framed, slotted]
      rw [here, same] at path
      obtain ⟨n, rfl⟩ := perform_call path
      refine silent id ?_
      simp only [callee?, Seat.machine, Seat.stack, body, Option.bind_some, fetched]

theorem report_alike (twin : Twin k late direct) {failure failure' : Failure}
    (alike : failure.Alike (k.Lined p) k.Placed failure') :
    (report p (late.machine status slots fault world control) failure).Alike (k.Lined p) k.Placed
      (report p (direct.machine status slots fault' world control') failure') := by
  cases alike with
  | rethrown alike => exact alike
  | runtime error =>
    cases error with
    | fault cause =>
      obtain ⟨function, place⟩ := twin.location_alike (p := p)
      simp only [report, Seat.machine, function]
      exact .fault _ cause place
    | _ => exact .crashed _ twin.trace_eq

theorem recorded_alike (twin : Twin k late direct) (faults : k.Faults p fault fault')
    {failure failure' : Failure} (alike : failure.Alike (k.Lined p) k.Placed failure') : k.Faults p
      (recorded p (late.machine status slots fault world control) failure)
      (recorded p (direct.machine status slots fault' world control') failure') := by
  cases alike with
  | rethrown _ => exact faults
  | runtime error =>
    cases error with
    | fault cause => exact .some (report_alike twin (.runtime _))
    | _ => exact faults

theorem next_failed (p : Program) (limits : Limits) (s : Seat) (status : Status)
    (slots : Array Value) (fault : Option CallError) (world : World) (failure : Failure) :
    next p limits (s.machine status slots fault world (.settle (.error failure))) =
      { thread := Thread.unwind
          { status := .crashed, slots, frames := s.frames
            fault :=
              recorded p (s.machine status slots fault world (.settle (.error failure)))
                failure } s.base
        world, waiting := s.waiting, base := s.base
        control := .answer
          (.error (report p (s.machine status slots fault world (.settle (.error failure)))
            failure)) } :=
  rfl

/-- One step of both calls. The direct one shows its frames only if they are the same in both. -/
theorem Lockstep.next {limits : Limits} {root : Root} {machine machine' : Machine}
    (lockstep : Lockstep p k machine machine') (within : Within limits root machine)
    (bound : p.Bound) (quiet : k.Lined p ∨ ∀ id, callee? p machine' = some id → ¬ p.Shows id) :
    Abreast p k (machine.next p limits) (machine'.next p limits) := by
  cases lockstep with
  | enter twin name faults =>
    refine enter_abreast twin bound limits name faults _
      (quiet.imp_right fun silent id resolved => silent id ?_)
    simp only [callee?, resolved, Except.toOption]
  | @execute late direct twin frame status slots world =>
    obtain ⟨l, _, framed, slotted, _⟩ := (within.executing rfl).innermost (by simp)
    exact execute_abreast twin bound limits frame (List.cons.inj framed).1 slotted quiet
  | done twin name faults => exact .inl (.answer twin name faults (.ok _))
  | @failed late direct twin above status slots fault fault' faults world failure failure' alike =>
    obtain ⟨outer, outer', name, slots', twin', waits, waits', left, left'⟩ :=
      twin.unwind_native above .crashed slots
      (recorded p (late.machine status slots fault world (.settle (.error failure))) failure)
      (recorded p (direct.machine status slots fault' world (.settle (.error failure'))) failure')
    rw [next_failed, next_failed, left, left', waits, waits']
    exact .inl (.answer twin' name (recorded_alike twin faults alike)
      (.error (report_alike twin alike)))
  | @answer late direct twin name status slots fault fault' faults world base base' result
    result' alike =>
    simp only [Machine.next, Seat.suspend]
    cases alike with
    | ok v => exact land_abreast twin faults v
    | error alike => exact fail_abreast twin faults (.rethrown alike)

end Machine

end StackMachine
