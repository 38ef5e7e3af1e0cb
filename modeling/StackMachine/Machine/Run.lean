import StackMachine.Machine.Thread

/-! The machine: one call from the host in progress. A native that asks for a call is suspended
until the call is over, so the whole call is a sequence of small steps, each of them total; only
`run` counts them. -/

namespace StackMachine

namespace Callee

def resolve (p : Program) : Callee → Except String UInt16
  | id function => .ok function
  | name unresolved =>
    match p.find? unresolved with
    | some function => .ok function
    | none => .error unresolved

end Callee

structure Suspended where
  name : String
  /-- How many frames there were when the call that the native belongs to began. -/
  base : Nat
  /-- Where the native's own result goes. -/
  landing : Destination
  resume : Except CallError Value → World → NativeStep

inductive Control where
  /-- Begin a call. -/
  | enter (callee : Callee) (args : Array Value)
  /-- Execute the next instruction of the innermost frame. -/
  | execute
  /-- End the call that began at `base`. -/
  | settle (outcome : Except Failure Value)
  /-- Hand the result of a call to whoever asked for it. -/
  | answer (result : Except CallError Value)

structure Machine where
  thread : Thread
  world : World
  /-- Natives that wait, the innermost first. -/
  waiting : List Suspended := []
  /-- How many frames there were when the current call began. -/
  base : Nat := 0
  control : Control

structure Outcome where
  result : Except CallError Value
  thread : Thread
  world : World

namespace Machine

def fail (m : Machine) (error : RuntimeError) : Machine :=
  { m with control := .settle (.error (.runtime error)) }

def fault (m : Machine) (cause : Fault) : Machine :=
  m.fail (.fault cause)

def setStatus (m : Machine) (status : Status) : Machine :=
  { m with thread := { m.thread with status } }

/-- Work on the innermost frame, then go on with the result; a failure ends the current call. -/
def onFrame {α : Type} (m : Machine) (act : Exec α) (andThen : α → Machine → Machine) : Machine :=
  match m with
  | { thread := { status, slots, frames, fault }, world := { store, console, interrupted }
      waiting, base, control } =>
    match frames with
    | [] =>
      Machine.fault
        { thread := { status, slots, frames, fault }, world := { store, console, interrupted }
          waiting, base, control } .noFrame
    | frame :: callers =>
      match act { frame, slots, store } with
      | .ok a { frame, slots, store } =>
        andThen a
          { thread := { status, slots, frames := frame :: callers, fault }
            world := { store, console, interrupted }, waiting, base, control }
      | .error error { frame, slots, store } =>
        Machine.fail
          { thread := { status, slots, frames := frame :: callers, fault }
            world := { store, console, interrupted }, waiting, base, control } error

def deliver (m : Machine) (v : Value) : Destination → Machine
  | .push => m.onFrame (Exec.push v) fun _ m => { m with control := .execute }
  | _ => { m with control := .execute }

def stop (m : Machine) : Machine :=
  { m with thread := m.thread.unwind m.base, control := .settle (.ok .null) }

/-- The result of a native. Bytecode that called the native goes on only if the thread met no fault
and was not halted meanwhile. -/
def land (m : Machine) (v : Value) : Destination → Machine
  | .host => { m with control := .settle (.ok v) }
  | dest =>
    match m.thread.fault with
    | some error => { m with control := .settle (.error (.rethrown error)) }
    | none => if m.thread.status == .halted then m.stop else m.deliver v dest

def proceed (thread : Thread) (waiting : List Suspended) (base : Nat) (name : String)
    (landing : Destination) : NativeStep → Machine
  | .call world callee args resume =>
    { thread, world, waiting := { name, base, landing, resume } :: waiting, base
      control := .enter callee args }
  | .reply world (.value v) => land { thread, world, waiting, base, control := .execute } v landing
  | .reply world (.failure failure) =>
    { thread, world, waiting, base, control := .settle (.error failure) }
  | .reply world .silent =>
    { thread, world, waiting, base
      control := .settle (.error (.runtime (.fault (.silentNative name)))) }

variable (p : Program) (limits : Limits)

def callNative (m : Machine) (id : UInt16) (f : Function Value) (native : Native)
    (args : Array Value) (dest : Destination) : Machine :=
  match m with
  | { thread, world := { store, console, interrupted }, waiting, base, control := _ } =>
    let name := f.qualifiedName
    let trace := thread.trace p
    let (defaults, store) := store.copyAll (f.omitted args.size)
    let call : NativeCall :=
      { name, function := id, args := args ++ defaults, argc := args.size
        functions := p.functions.size, trace }
    proceed thread waiting base name dest (native call { store, console, interrupted })

/-- Open a frame for bytecode, with the arguments given, then fresh copies of the omitted ones'
defaults. -/
def callCode (m : Machine) (id : UInt16) (f : Function Value) (code : Code Value)
    (args : Array Value) (dest : Destination) : Machine :=
  match m.thread.refusal? limits f code with
  | some error => m.fail error
  | none =>
    match m with
    | { thread, world := { store, console, interrupted }, waiting, base, control := _ } =>
      let (defaults, store) := store.copyAll (f.omittedParams args.size)
      { thread := thread.enter id code (args ++ defaults) dest
        world := { store, console, interrupted }, waiting, base, control := .execute }

def invoke (m : Machine) (id : UInt16) (args : Array Value) (dest : Destination) : Machine :=
  match p.function? id with
  | none => m.fail (.undefinedFunction ("#" ++ toString id))
  | some f =>
    if f.accepts args.size then
      match f.body with
      | .native =>
        match p.native? id with
        | none => m.fail (.undefinedFunction f.qualifiedName)
        | some native => m.callNative p id f native args dest
      | .bytecode code => m.callCode limits id f code args dest
    else m.fail (.arity f.qualifiedName f.minArgs.toNat f.maxArgs.toNat args.size)

/-- Begin a call. A name that nothing bears is reported at once; then a fault of the past decides,
and then a halt that is still under way. -/
def enter (m : Machine) (callee : Callee) (args : Array Value) : Machine :=
  match callee.resolve p with
  | .error name =>
    { m with control := .answer (.error (.crashed (.undefinedFunction name) (m.thread.trace p))) }
  | .ok id =>
    match m.thread.fault with
    | some error => { m with control := .answer (.error error) }
    | none =>
      if m.waiting.isEmpty then
        invoke p limits { m with thread := { m.thread.clear with status := .calling }, base := 0 }
          id args .host
      else if m.thread.status == .halted then { m with control := .answer (.ok .null) }
      else
        invoke p limits
          { m with thread := { m.thread with status := .calling }, base := m.thread.depth }
          id args .host

def leaveFrame (m : Machine) (v : Value) : Machine :=
  match m with
  | { thread := { status := _, slots, frames, fault }, world, waiting, base, control } =>
    match frames with
    | [] =>
      Machine.fault
        { thread := { status := .returning, slots, frames, fault }, world, waiting, base, control }
        .noFrame
    | frame :: callers =>
      let thread : Thread :=
        { status := .returning, slots := slots.shrink frame.base, frames := callers, fault }
      if callers.length ≤ base then { thread, world, waiting, base, control := .settle (.ok v) }
      else deliver { thread, world, waiting, base, control } v frame.dest

def follow (flow : Flow) (m : Machine) : Machine :=
  match flow with
  | .next => { m with control := .execute }
  | .jump target => m.onFrame (Exec.jump target) fun _ m => { m with control := .execute }
  | .call keep function argc =>
    (m.setStatus .calling).onFrame (Exec.popMany argc) fun args m =>
      m.invoke p limits function args (if keep then .push else .discard)
  | .ret v => m.leaveFrame v
  | .halt => (m.setStatus .halted).stop

def execute (m : Machine) : Machine :=
  let m := m.setStatus .running
  match m.thread.frames with
  | [] => m.fault .noFrame
  | frame :: _ =>
    match p.code? frame.function with
    | none => m.fault .noCode
    | some code =>
      match code.instructions[frame.place]? with
      | none => m.fault (.pastEnd frame.place)
      | some i => m.onFrame (i.perform p code) (follow p limits)

def report (m : Machine) : Failure → CallError
  | .rethrown error => error
  | .runtime (.fault cause) =>
    let (function, place) := p.location m.thread.frames
    .fault function place cause
  | .runtime error => .crashed error (m.thread.trace p)

def recorded (m : Machine) (failure : Failure) : Option CallError :=
  match failure with
  | .runtime (.fault _) => some (m.report p failure)
  | _ => m.thread.fault

/-- End the current call. After a success the thread is idle again, or goes on with the native that
asked for the call, unless it was halted. A failure drops the frames of the call. -/
def settle (m : Machine) : Except Failure Value → Machine
  | .ok v =>
    let status := if m.waiting.isEmpty || m.thread.status == .halted then .halted else .running
    { m.setStatus status with control := .answer (.ok v) }
  | .error failure =>
    let thread := { m.thread with status := .crashed, fault := m.recorded p failure }
    { m with thread := thread.unwind m.base, control := .answer (.error (m.report p failure)) }

def answer (m : Machine) (result : Except CallError Value) : Machine :=
  match m.waiting with
  | [] => m
  | native :: waiting =>
    proceed m.thread waiting native.base native.name native.landing (native.resume result m.world)

def next (m : Machine) : Machine :=
  match m.control with
  | .enter callee args => m.enter p limits callee args
  | .execute => m.execute p limits
  | .settle outcome => m.settle p outcome
  | .answer result => m.answer result

def result? (m : Machine) : Option (Except CallError Value) :=
  match m.control, m.waiting with
  | .answer result, [] => some result
  | _, _ => none

/-- At most `fuel` steps; `none` says that they were not enough. -/
def run : Nat → Machine → Option Outcome
  | 0, _ => none
  | fuel + 1, m =>
    match m.result? with
    | some result => some { result, thread := m.thread, world := m.world }
    | none => run fuel (m.next p limits)

end Machine

namespace Thread

def call (t : Thread) (p : Program) (limits : Limits) (fuel : Nat) (world : World) (callee : Callee)
    (args : Array Value) : Option Outcome :=
  Machine.run p limits fuel { thread := t, world, control := .enter callee args }

end Thread

namespace Program

def start (p : Program) (limits : Limits) (fuel : Nat) (world : World) : Option Outcome :=
  ({} : Thread).call p limits fuel world (.id (p.entry.getD 0)) #[]

end Program

end StackMachine
