import StackMachine.Proofs.Regions

/-! The core natives. Each of them replies at once, or asks for one call and passes the result on as
its own. So a fault is never lost: from the moment it is recorded until the host gets it, the thread
does nothing but fail. -/

namespace StackMachine

namespace NativeStep

def relay (result : Except CallError Value) (world : World) : NativeStep :=
  match result with
  | .ok v => .value world v
  | .error error => .rethrow world error

/-- A native that replies at once, or asks for one call and passes its result on. -/
inductive Relays : NativeStep → Prop
  | value (world : World) (v : Value) : Relays (.reply world (.value v))
  | failure (world : World) (error : RuntimeError) :
    Relays (.reply world (.failure (.runtime error)))
  | call (world : World) (callee : Callee) (args : Array Value) :
    Relays (.call world callee args relay)

end NativeStep

def Program.Core (p : Program) : Prop :=
  ∀ id native, p.native? id = some native → ∃ name, Registry.core name = some native

theorem Program.link_core (m : Module Value) (s : Store) : (Program.link m s Registry.core).Core :=
  fun _ _ bound => Program.link_native? bound

theorem Registry.core_relays {name : String} {native : Native} (known : core name = some native)
    (call : NativeCall) (world : World) : (native call world).Relays := by
  unfold core at known
  split at known
  · obtain rfl := Option.some.inj known
    unfold Native.invoke
    split
    · exact .call _ _ _
    · exact .failure _ _
  · obtain rfl := Option.some.inj known
    unfold Native.sleep
    split
    · split
      · exact .failure _ _
      · split
        · exact .failure _ _
        · exact .value _ _
    · exact .failure _ _
  · obtain rfl := Option.some.inj known
    exact .value _ _
  · obtain rfl := Option.some.inj known
    unfold Native.stackTrace
    dsimp only
    split
    · exact .value _ _
    · exact .value _ _
    · split
      · exact .failure _ _
      · exact .value _ _
    · exact .failure _ _
  · contradiction

namespace World

def copied (world : World) (f : Function Value) (argc : Nat) : World :=
  { world with store := (world.store.copyAll (f.omitted argc)).2 }

end World

namespace Machine

def nativeCall (machine : Machine) (p : Program) (id : UInt16) (f : Function Value)
    (args : Array Value) : NativeCall where
  name := f.qualifiedName
  function := id
  args := args ++ (machine.world.store.copyAll (f.omitted args.size)).1
  argc := args.size
  functions := p.functions.size
  trace := machine.thread.trace p

theorem invoke_control (p : Program) (limits : Limits) (thread : Thread) (world : World)
    (waiting : List Suspended) (base : Nat) (control control' : Control) (id : UInt16)
    (args : Array Value) (dest : Destination) :
    invoke p limits { thread, world, waiting, base, control } id args dest =
      invoke p limits { thread, world, waiting, base, control := control' } id args dest := by
  unfold invoke
  split
  · rfl
  split
  · split
    · split <;> rfl
    · unfold callCode
      dsimp only
      split <;> rfl
  · rfl

theorem next_name {p : Program} {name : String} {id : UInt16} (found : p.find? name = some id)
    (limits : Limits) (thread : Thread) (world : World) (waiting : List Suspended) (base : Nat)
    (args : Array Value) :
    next p limits { thread, world, waiting, base, control := .enter (.name name) args } =
      next p limits { thread, world, waiting, base, control := .enter (.id id) args } := by
  simp only [next, enter, Callee.resolve, found,
    invoke_control p limits _ _ _ _ (.enter (.name name) args) (.enter (.id id) args)]

/-- Who waits, where the current call began and which fault is recorded are the same. -/
structure Keeps (before after : Machine) : Prop where
  waiting : after.waiting = before.waiting
  base : after.base = before.base
  fault : after.thread.fault = before.thread.fault

structure Continues (before after : Machine) : Prop extends Keeps before after where
  control : after.control = .execute ∨ (∃ v, after.control = .settle (.ok v)) ∨
    ∃ error, after.control = .settle (.error (.runtime error))

/-- What work inside a call comes to: the call goes on, or a native has its turn, whose result goes
to one of `dests`. -/
inductive Works (p : Program) (before : Machine) (dests : Destination → Prop) : Machine → Prop
  | continues {after : Machine} (continues : Continues before after) : Works p before dests after
  | native {id : UInt16} {native : Native} {thread : Thread} (bound : p.native? id = some native)
    (same : thread.fault = before.thread.fault) (name : String) {dest : Destination}
    (sent : dests dest) (call : NativeCall) (world : World) :
    Works p before dests (proceed thread before.waiting before.base name dest (native call world))

variable {p : Program} {limits : Limits} {machine before : Machine}

theorem Keeps.refl (machine : Machine) : Keeps machine machine :=
  ⟨rfl, rfl, rfl⟩

theorem Keeps.trans {first second third : Machine} (one : Keeps first second)
    (two : Keeps second third) : Keeps first third :=
  ⟨two.waiting.trans one.waiting, two.base.trans one.base, two.fault.trans one.fault⟩

theorem fail_continues {error : RuntimeError} (keeps : Keeps before machine) :
    Continues before (machine.fail error) :=
  ⟨keeps.trans ⟨rfl, rfl, rfl⟩, .inr (.inr ⟨error, rfl⟩)⟩

theorem onward_continues (keeps : Keeps before machine) :
    Continues before { machine with control := .execute } :=
  ⟨keeps.trans ⟨rfl, rfl, rfl⟩, .inl rfl⟩

theorem onFrame_keeps {Holds : Machine → Prop} {α : Type} {act : Exec α}
    {andThen : α → Machine → Machine} (keeps : Keeps before machine)
    (fails : ∀ after, Continues before after → Holds after)
    (works : ∀ v after, Keeps before after → Holds (andThen v after)) :
    Holds (machine.onFrame act andThen) := by
  obtain ⟨⟨status, slots, frames, fault⟩, ⟨store, console, interrupted⟩, waiting, base, control⟩ :=
    machine
  cases frames with
  | nil => exact fails _ (fail_continues keeps)
  | cons frame callers =>
    simp only [onFrame]
    split
    · exact works _ _ (keeps.trans ⟨rfl, rfl, rfl⟩)
    · exact fails _ (fail_continues (keeps.trans ⟨rfl, rfl, rfl⟩))

theorem deliver_continues {v : Value} {dest : Destination} (keeps : Keeps before machine) :
    Continues before (machine.deliver v dest) := by
  cases dest with
  | push => exact onFrame_keeps keeps (fun _ fails => fails) fun _ _ keeps => onward_continues keeps
  | discard => exact onward_continues keeps
  | host => exact onward_continues keeps

theorem stop_continues (keeps : Keeps before machine) : Continues before machine.stop :=
  ⟨keeps.trans ⟨rfl, rfl, Thread.unwind_fault _ _⟩, .inr (.inl ⟨.null, rfl⟩)⟩

theorem leaveFrame_continues {v : Value} (keeps : Keeps before machine) :
    Continues before (machine.leaveFrame v) := by
  obtain ⟨⟨status, slots, frames, fault⟩, world, waiting, base, control⟩ := machine
  cases frames with
  | nil =>
    simp only [leaveFrame]
    exact fail_continues (keeps.trans ⟨rfl, rfl, rfl⟩)
  | cons frame callers =>
    simp only [leaveFrame]
    split
    · exact ⟨keeps.trans ⟨rfl, rfl, rfl⟩, .inr (.inl ⟨v, rfl⟩)⟩
    · exact deliver_continues (keeps.trans ⟨rfl, rfl, rfl⟩)

theorem callCode_continues {id : UInt16} {f : Function Value} {code : Code Value}
    {args : Array Value} {dest : Destination} (keeps : Keeps before machine) :
    Continues before (machine.callCode limits id f code args dest) := by
  unfold callCode
  split
  · exact fail_continues keeps
  · obtain ⟨⟨status, slots, frames, fault⟩, ⟨store, console, interrupted⟩, waiting, base,
      control⟩ := machine
    dsimp only [Thread.enter]
    exact ⟨keeps.trans ⟨rfl, rfl, rfl⟩, .inl rfl⟩

theorem land_continues {v : Value} {dest : Destination} (clean : machine.thread.fault = none)
    (keeps : Keeps before machine) : Continues before (machine.land v dest) := by
  have landed : Continues before
      (if machine.thread.status == .halted then machine.stop else machine.deliver v dest) := by
    split
    · exact stop_continues keeps
    · exact deliver_continues keeps
  cases dest with
  | host => exact ⟨keeps.trans ⟨rfl, rfl, rfl⟩, .inr (.inl ⟨v, rfl⟩)⟩
  | _ =>
    simp only [land, clean]
    exact landed

theorem callNative_eq (machine : Machine) (p : Program) (id : UInt16) (f : Function Value)
    (native : Native) (args : Array Value) (dest : Destination) :
    machine.callNative p id f native args dest =
      proceed machine.thread machine.waiting machine.base f.qualifiedName dest
        (native (machine.nativeCall p id f args) (machine.world.copied f args.size)) :=
  rfl

theorem invoke_works {id : UInt16} {args : Array Value} {dests : Destination → Prop}
    {dest : Destination} (sent : dests dest) (keeps : Keeps before machine) :
    Works p before dests (machine.invoke p limits id args dest) := by
  unfold invoke
  split
  · exact .continues (fail_continues keeps)
  split
  · split
    · split
      · exact .continues (fail_continues keeps)
      next native bound =>
        rw [callNative_eq, keeps.waiting, keeps.base]
        exact .native bound keeps.fault _ sent _ _
    · exact .continues (callCode_continues keeps)
  · exact .continues (fail_continues keeps)

theorem follow_works {flow : Flow} (keeps : Keeps before machine) :
    Works p before (· ≠ .host) (follow p limits flow machine) := by
  have marked (status : Status) : Keeps before (machine.setStatus status) :=
    keeps.trans ⟨rfl, rfl, rfl⟩
  cases flow with
  | next => exact .continues (onward_continues keeps)
  | jump target =>
    simp only [follow]
    exact .continues (onFrame_keeps keeps (fun _ fails => fails)
      fun _ _ keeps => onward_continues keeps)
  | call keep function argc =>
    simp only [follow]
    have inner : (if keep then Destination.push else .discard) ≠ .host := by cases keep <;> simp
    exact onFrame_keeps (marked .calling) (fun _ fails => .continues fails) fun _ _ keeps =>
      invoke_works inner keeps
  | ret v => exact .continues (leaveFrame_continues keeps)
  | halt => exact .continues (stop_continues (marked .halted))

theorem execute_works (machine : Machine) :
    Works p machine (· ≠ .host) (machine.execute p limits) := by
  have keeps : Keeps machine (machine.setStatus .running) := ⟨rfl, rfl, rfl⟩
  unfold execute
  dsimp only
  split
  · exact .continues (fail_continues keeps)
  split
  · exact .continues (fail_continues keeps)
  split
  · exact .continues (fail_continues keeps)
  · exact onFrame_keeps keeps (fun _ fails => .continues fails) fun _ _ keeps => follow_works keeps

/-- What the beginning of a call comes to. A name that nothing bears, a fault on record and a halt
under way answer it at once. -/
inductive Enters (p : Program) (callee : Callee) (machine : Machine) : Machine → Prop
  | unknown {name : String} (unresolved : callee.resolve p = .error name) :
    Enters p callee machine
      { machine with
        control := .answer (.error (.crashed (.undefinedFunction name) (machine.thread.trace p))) }
  | refused {id : UInt16} {error : CallError} (resolves : callee.resolve p = .ok id)
    (recorded : machine.thread.fault = some error) :
    Enters p callee machine { machine with control := .answer (.error error) }
  | halted {id : UInt16} (resolves : callee.resolve p = .ok id)
    (clean : machine.thread.fault = none) (waits : machine.waiting ≠ []) :
    Enters p callee machine { machine with control := .answer (.ok .null) }
  | begins {id : UInt16} {base : Nat} {after : Machine} (resolves : callee.resolve p = .ok id)
    (clean : machine.thread.fault = none)
    (works : Works p { machine with base } (· = .host) after) : Enters p callee machine after

theorem enter_enters (p : Program) (limits : Limits) (machine : Machine) (callee : Callee)
    (args : Array Value) : Enters p callee machine (machine.enter p limits callee args) := by
  unfold enter
  split
  next unresolved => exact .unknown unresolved
  next resolves =>
    split
    next recorded => exact .refused resolves recorded
    next clean =>
      split
      · exact .begins resolves clean (invoke_works rfl ⟨rfl, rfl, rfl⟩)
      next waits =>
        split
        · exact .halted resolves clean fun idle => waits (List.isEmpty_iff.mpr idle)
        · exact .begins resolves clean (invoke_works rfl ⟨rfl, rfl, rfl⟩)

def Failing (machine : Machine) : Prop :=
  match machine.control with
  | .answer (.error _) => True
  | .settle (.error (.rethrown _)) => True
  | .enter _ _ => machine.waiting = []
  | _ => False

/-- The natives that wait pass the result on, and with a fault on record the thread fails. -/
structure Relaying (machine : Machine) : Prop where
  resumes : ∀ native ∈ machine.waiting, native.resume = NativeStep.relay
  clean : machine.thread.fault = none ∨ machine.Failing

theorem Keeps.relaying (keeps : Keeps before machine) (clean : before.thread.fault = none)
    (resumes : ∀ native ∈ before.waiting, native.resume = NativeStep.relay) : machine.Relaying :=
  ⟨by rwa [keeps.waiting], .inl (keeps.fault.trans clean)⟩

theorem proceed_relaying {thread : Thread} {waiting : List Suspended} {base : Nat} {name : String}
    {dest : Destination} {step : NativeStep} (clean : thread.fault = none)
    (resumes : ∀ native ∈ waiting, native.resume = NativeStep.relay) (relays : step.Relays) :
    Relaying (proceed thread waiting base name dest step) := by
  cases relays with
  | value world v =>
    have landed : Continues ⟨thread, world, waiting, base, .execute⟩
        (land ⟨thread, world, waiting, base, .execute⟩ v dest) := land_continues clean (.refl _)
    exact landed.toKeeps.relaying clean resumes
  | failure world error => exact ⟨resumes, .inl clean⟩
  | call world callee args =>
    refine ⟨fun native member => ?_, .inl clean⟩
    rcases List.mem_cons.mp member with rfl | outer
    · rfl
    · exact resumes native outer

theorem Works.relaying (core : p.Core) {dests : Destination → Prop}
    (works : Works p before dests machine) (clean : before.thread.fault = none)
    (resumes : ∀ native ∈ before.waiting, native.resume = NativeStep.relay) : machine.Relaying := by
  cases works with
  | continues continues => exact continues.toKeeps.relaying clean resumes
  | native bound same name _ call world =>
    obtain ⟨_, known⟩ := core _ _ bound
    exact proceed_relaying (same.trans clean) resumes (Registry.core_relays known call world)

theorem enter_relaying (core : p.Core) (relaying : machine.Relaying) (callee : Callee)
    (args : Array Value) : (machine.enter p limits callee args).Relaying := by
  obtain ⟨resumes, _⟩ := relaying
  have enters := enter_enters p limits machine callee args
  generalize machine.enter p limits callee args = after at enters ⊢
  cases enters with
  | unknown => exact ⟨resumes, .inr trivial⟩
  | refused => exact ⟨resumes, .inr trivial⟩
  | halted _ clean _ => exact ⟨resumes, .inl clean⟩
  | begins _ clean works => exact works.relaying core clean resumes

theorem next_relaying (core : p.Core) (relaying : machine.Relaying) :
    (machine.next p limits).Relaying := by
  obtain ⟨thread, world, waiting, base, control⟩ := machine
  have resumes := relaying.resumes
  cases control with
  | enter callee args => exact enter_relaying core relaying callee args
  | execute =>
    have clean := relaying.clean.resolve_right fun failing => failing
    exact (execute_works _).relaying core clean resumes
  | settle outcome =>
    cases outcome with
    | ok v => exact ⟨resumes, .inl (relaying.clean.resolve_right fun failing => failing)⟩
    | error failure => exact ⟨resumes, .inr trivial⟩
  | answer result =>
    cases waiting with
    | nil => exact relaying
    | cons native waiting =>
      have relays : native.resume = NativeStep.relay := resumes native List.mem_cons_self
      have others : ∀ native ∈ waiting, native.resume = NativeStep.relay :=
        fun native member => resumes native (List.mem_cons_of_mem _ member)
      simp only [next, answer, relays]
      cases result with
      | ok v =>
        have clean := relaying.clean.resolve_right fun failing => failing
        exact proceed_relaying clean others (.value world v)
      | error error => exact ⟨others, .inr trivial⟩

theorem Live.relaying (core : p.Core) (live : Live p limits machine) : machine.Relaying := by
  induction live with
  | first world callee args => exact ⟨by simp, .inl rfl⟩
  | step _ ih => exact next_relaying core ih
  | again _ _ world callee args _ => exact ⟨by simp, .inr rfl⟩

theorem Live.clean (core : p.Core) (live : Live p limits machine)
    (running : machine.control = .execute) : machine.thread.fault = none := by
  refine (live.relaying core).clean.resolve_right fun failing => ?_
  simp only [Failing, running] at failing

end Machine

end StackMachine
