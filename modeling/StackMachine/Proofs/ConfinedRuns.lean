import StackMachine.Proofs.Confinement
import StackMachine.Proofs.Relaying

/-! Whole runs keep to a realm. If the arguments of a call are inside and copies of the literals of
the program are, then every step of the call, under the core natives, leaves all that it has at hand
inside. -/

namespace StackMachine

theorem Thread.enter_given {thread : Thread} {id : UInt16} {code : Code Value} {given : Array Value}
    {dest : Destination} {i : Nat} (inside : i < given.size) :
    (thread.enter id code given dest).slots[thread.slots.size + i]? = given[i]? := by
  obtain ⟨status, slots, frames, fault⟩ := thread
  simp only [Thread.enter]
  rw [Array.getElem?_append_left (by rw [Array.size_append]; omega),
    Array.getElem?_append_right (Nat.le_add_right _ _), Nat.add_sub_cancel_left]

/-- What a native does keeps to the realm; a result that it asked for it passes on. -/
inductive NativeStep.Confined (R : Realm) : NativeStep → Prop
  | value {world : World} {v : Value} (holds : R.Holds world.store) (within : R.inside v) :
    Confined R (.reply world (.value v))
  | failure {world : World} {f : Failure} (holds : R.Holds world.store) :
    Confined R (.reply world (.failure f))
  | call {world : World} {callee : Callee} {args : Array Value} (holds : R.Holds world.store)
    (within : ∀ v ∈ args, R.inside v) : Confined R (.call world callee args NativeStep.relay)

section Natives

variable {R : Realm} {world : World}

theorem World.addTexts_confined (holds : R.Holds world.store) (texts : List String) :
    R.Holds (world.addTexts texts).2.store ∧ R.inside (world.addTexts texts).1 := by
  suffices ∀ (texts : List String) (items : Array Value) (world : World), R.Holds world.store →
      (∀ v ∈ items, R.inside v) →
      R.Holds (texts.foldl (fun r t => (r.1.push (World.addText r.2 t).1, (r.2.addText t).2))
        (items, world)).2.store ∧
      ∀ v ∈ (texts.foldl (fun r t => (r.1.push (World.addText r.2 t).1, (r.2.addText t).2))
          (items, world)).1,
        R.inside v by
    obtain ⟨holds, fine⟩ := this texts #[] world holds (by simp)
    exact holds.addList fine
  intro texts
  induction texts with
  | nil => exact fun items world holds fine => ⟨holds, fine⟩
  | cons t rest ih =>
    intro items world holds fine
    obtain ⟨after, mine⟩ := holds.addText t
    refine ih (items.push (world.addText t).1) (world.addText t).2 after fun v member => ?_
    rcases Array.mem_push.mp member with old | rfl
    · exact fine v old
    · exact mine

theorem Registry.core_confined {name : String} {native : Native} (known : core name = some native)
    {call : NativeCall} (args : ∀ v ∈ call.args, R.inside v) (holds : R.Holds world.store) :
    (native call world).Confined R := by
  have refused (world : World) (holds : R.Holds world.store) (expected : String) :
      (call.refuse world expected).Confined R := .failure holds
  unfold core at known
  split at known
  · obtain rfl := Option.some.inj known
    unfold Native.invoke
    split
    · exact .call holds fun v member => args v (mem_of_mem_extract member)
    · exact refused world holds _
  · obtain rfl := Option.some.inj known
    unfold Native.sleep
    split
    · split
      · exact refused world holds _
      · split
        · exact .failure holds
        · exact .value holds (R.immediate rfl rfl)
    · exact refused world holds _
  · obtain rfl := Option.some.inj known
    exact .value holds (R.immediate rfl rfl)
  · obtain rfl := Option.some.inj known
    have answered (frames : List TraceEntry) := World.addTexts_confined holds (frames.map (·.text))
    unfold Native.stackTrace
    dsimp only
    split
    · exact .value (answered _).1 (answered _).2
    · exact .value (answered _).1 (answered _).2
    · split
      · exact refused world holds _
      · exact .value (answered _).1 (answered _).2
    · exact refused world holds _
  · contradiction

end Natives

namespace Machine

inductive Hands : Control → Value → Prop
  | argument {callee : Callee} {args : Array Value} {v : Value} (member : v ∈ args) :
    Hands (.enter callee args) v
  | outcome {v : Value} : Hands (.settle (.ok v)) v
  | result {v : Value} : Hands (.answer (.ok v)) v

structure Covered (R : Realm) (fills : List Frame → Array Value → Prop) (machine : Machine) :
    Prop where
  holds : R.Holds machine.world.store
  slots : fills machine.thread.frames machine.thread.slots

/-- All that a run has at hand keeps to the realm. -/
structure Stays (R : Realm) (fills : List Frame → Array Value → Prop) (machine : Machine) :
    Prop extends
    Covered R fills machine where
  hands : ∀ v, Hands machine.control v → R.inside v

variable {R : Realm} {fills : List Frame → Array Value → Prop} {p : Program} {limits : Limits}
  {machine : Machine}

theorem Covered.fail (covered : machine.Covered R fills) (error : RuntimeError) :
    (machine.fail error).Stays R fills :=
  ⟨⟨covered.holds, covered.slots⟩, by rintro _ ⟨⟩⟩

theorem Covered.onward (covered : machine.Covered R fills) :
    Stays R fills { machine with control := .execute } :=
  ⟨⟨covered.holds, covered.slots⟩, by rintro _ ⟨⟩⟩

theorem Covered.settled {v : Value} (covered : machine.Covered R fills) (within : R.inside v) :
    Stays R fills { machine with control := .settle (.ok v) } := by
  refine ⟨⟨covered.holds, covered.slots⟩, fun w hands => ?_⟩
  cases hands
  exact within

theorem onFrame_stays {α : Type} {act : Exec α} {good : α → Prop} {andThen : α → Machine → Machine}
    (sustains : ∀ callers, Sustains (R.Covers fills callers) act good)
    (covered : machine.Covered R fills)
    (rest : ∀ a after, good a → after.Covered R fills → (andThen a after).Stays R fills) :
    (machine.onFrame act andThen).Stays R fills := by
  obtain ⟨⟨status, slots, frames, fault⟩, ⟨store, console, interrupted⟩, waiting, base, control⟩ :=
    machine
  cases frames with
  | nil => exact covered.fail _
  | cons frame callers =>
    have outcome := sustains callers ⟨frame, slots, store⟩ ⟨covered.holds, covered.slots⟩
    simp only [onFrame]
    generalize act ⟨frame, slots, store⟩ = result at outcome ⊢
    cases outcome with
    | ok covers fine => exact rest _ _ fine ⟨covers.holds, covers.slots⟩
    | error covers => exact Covered.fail ⟨covers.holds, covers.slots⟩ _

section Steps

variable (suits : R.Suits fills)

include suits

theorem deliver_stays {v : Value} (covered : machine.Covered R fills) (within : R.inside v)
    (dest : Destination) : (machine.deliver v dest).Stays R fills := by
  cases dest with
  | push =>
    exact onFrame_stays (fun _ => suits.push within) covered fun _ _ _ covered => covered.onward
  | discard => exact covered.onward
  | host => exact covered.onward

theorem stop_stays (covered : machine.Covered R fills) : machine.stop.Stays R fills := by
  refine ⟨⟨covered.holds, suits.unwound _ covered.slots⟩, fun w hands => ?_⟩
  cases hands
  exact R.immediate rfl rfl

theorem land_stays {v : Value} (covered : machine.Covered R fills) (within : R.inside v)
    (dest : Destination) : (machine.land v dest).Stays R fills := by
  cases dest with
  | host => exact covered.settled within
  | _ =>
    simp only [land]
    split
    · exact ⟨⟨covered.holds, covered.slots⟩, by rintro _ ⟨⟩⟩
    · split
      · exact stop_stays suits covered
      · exact deliver_stays suits covered within _

theorem proceed_stays {thread : Thread} (slots : fills thread.frames thread.slots)
    {step : NativeStep} (confined : step.Confined R) (waiting : List Suspended) (base : Nat)
    (name : String) (dest : Destination) :
    (proceed thread waiting base name dest step).Stays R fills := by
  cases confined with
  | value holds within => exact land_stays suits ⟨holds, slots⟩ within dest
  | failure holds => exact ⟨⟨holds, slots⟩, by rintro _ ⟨⟩⟩
  | call holds within =>
    refine ⟨⟨holds, slots⟩, fun v hands => ?_⟩
    cases hands with
    | argument member => exact within v member

theorem callCode_stays {id : UInt16} {f : Function Value} {code : Code Value} {args : Array Value}
    {dest : Destination} (accepts : f.accepts args.size = true)
    (defaults : ∀ v ∈ f.defaults, R.Lends v) (covered : machine.Covered R fills)
    (within : ∀ v ∈ args, R.inside v) :
    (machine.callCode limits id f code args dest).Stays R fills := by
  have lent (v : Value) (member : v ∈ f.omittedParams args.size) : R.Lends v :=
    defaults v (mem_of_mem_extract (mem_of_mem_extract member))
  obtain ⟨holds, copies⟩ := covered.holds.copyAll lent
  unfold callCode
  split
  · exact covered.fail _
  next admitted =>
    have few := Function.given_size_le accepts (Thread.admitted_of_refusal? admitted).2.2
      machine.world.store
    refine ⟨⟨holds, suits.opened id dest covered.slots (fun v given => ?_) few⟩, by rintro _ ⟨⟩⟩
    exact (Array.mem_append.mp given).elim (within v) (copies v)

theorem callNative_stays {id : UInt16} {f : Function Value} {native : Native} {args : Array Value}
    {dest : Destination} {name : String} (known : Registry.core name = some native)
    (defaults : ∀ v ∈ f.defaults, R.Lends v) (covered : machine.Covered R fills)
    (within : ∀ v ∈ args, R.inside v) :
    (machine.callNative p id f native args dest).Stays R fills := by
  have lent (v : Value) (member : v ∈ f.omitted args.size) : R.Lends v :=
    defaults v (mem_of_mem_extract member)
  obtain ⟨holds, copies⟩ := covered.holds.copyAll lent
  have given : ∀ v ∈ (machine.nativeCall p id f args).args, R.inside v := fun v member =>
    (Array.mem_append.mp member).elim (within v) (copies v)
  rw [callNative_eq]
  exact proceed_stays suits covered.slots (Registry.core_confined known given holds) _ _ _ _

variable (core : p.Core) (supplies : R.Supplies p)

include core supplies

theorem invoke_stays (id : UInt16) {args : Array Value} (dest : Destination)
    (covered : machine.Covered R fills) (within : ∀ v ∈ args, R.inside v) :
    (machine.invoke p limits id args dest).Stays R fills := by
  unfold invoke
  split
  · exact covered.fail _
  next f found =>
    have defaults := supplies.defaults found
    split
    next accepts =>
      split
      · split
        · exact covered.fail _
        next native bound =>
          obtain ⟨_, known⟩ := core _ _ bound
          exact callNative_stays suits known defaults covered within
      · exact callCode_stays suits accepts defaults covered within
    · exact covered.fail _

theorem enter_stays (callee : Callee) {args : Array Value} (covered : machine.Covered R fills)
    (within : ∀ v ∈ args, R.inside v) : (machine.enter p limits callee args).Stays R fills := by
  unfold enter
  split
  · exact ⟨⟨covered.holds, covered.slots⟩, by rintro _ ⟨⟩⟩
  · split
    · exact ⟨⟨covered.holds, covered.slots⟩, by rintro _ ⟨⟩⟩
    · split
      · exact invoke_stays suits core supplies _ _ ⟨covered.holds, suits.cleared⟩ within
      · split
        · refine ⟨⟨covered.holds, covered.slots⟩, fun v hands => ?_⟩
          cases hands
          exact R.immediate rfl rfl
        · exact invoke_stays suits core supplies _ _ ⟨covered.holds, covered.slots⟩ within

omit core supplies in
theorem leaveFrame_stays {v : Value} (covered : machine.Covered R fills) (within : R.inside v) :
    (machine.leaveFrame v).Stays R fills := by
  obtain ⟨⟨status, slots, frames, fault⟩, world, waiting, base, control⟩ := machine
  cases frames with
  | nil =>
    have marked : Covered R fills
        { thread := { status := .returning, slots, frames := [], fault }, world, waiting, base
          control } :=
      ⟨covered.holds, covered.slots⟩
    exact marked.fail _
  | cons frame callers =>
    have left (control : Control) : Covered R fills
        { thread :=
            { status := .returning, slots := slots.shrink frame.base, frames := callers, fault }
          world, waiting, base, control } :=
      ⟨covered.holds, suits.left covered.slots⟩
    simp only [leaveFrame]
    split
    · exact (left control).settled within
    · exact deliver_stays suits (left control) within _

theorem follow_stays {flow : Flow} (lets : R.Lets flow) (covered : machine.Covered R fills) :
    (follow p limits flow machine).Stays R fills := by
  cases flow with
  | next => exact covered.onward
  | jump target =>
    exact onFrame_stays (fun _ => Exec.confined_jump suits target) covered fun _ _ _ covered =>
      covered.onward
  | call keep function argc =>
    have marked : (machine.setStatus .calling).Covered R fills := ⟨covered.holds, covered.slots⟩
    simp only [follow]
    refine onFrame_stays (fun _ => suits.popMany argc) marked fun args after within covered => ?_
    exact invoke_stays suits core supplies _ _ covered within
  | ret v => exact leaveFrame_stays suits covered (lets v rfl)
  | halt => exact stop_stays suits ⟨covered.holds, covered.slots⟩

theorem execute_stays (covered : machine.Covered R fills) :
    (machine.execute p limits).Stays R fills := by
  have marked : (machine.setStatus .running).Covered R fills := ⟨covered.holds, covered.slots⟩
  unfold execute
  dsimp only
  split
  · exact marked.fail _
  split
  · exact marked.fail _
  next code found =>
    split
    · exact marked.fail _
    next i _ =>
      have performed (callers : List Frame) :
          Sustains (R.Covers fills callers) (i.perform p code) R.Lets :=
        i.perform_confined suits supplies (supplies.constants found)
      exact onFrame_stays performed marked fun flow after lets covered =>
        follow_stays suits core supplies lets covered

omit core supplies in
theorem settle_stays {outcome : Except Failure Value} (covered : machine.Covered R fills)
    (within : ∀ v, outcome = .ok v → R.inside v) : (machine.settle p outcome).Stays R fills := by
  cases outcome with
  | ok v =>
    refine ⟨⟨covered.holds, covered.slots⟩, fun w hands => ?_⟩
    cases hands
    exact within v rfl
  | error failure =>
    refine ⟨⟨covered.holds, suits.unwound _ ?_⟩, by rintro _ ⟨⟩⟩
    exact covered.slots

theorem next_stays (resumes : ∀ native ∈ machine.waiting, native.resume = NativeStep.relay)
    (stays : machine.Stays R fills) : (machine.next p limits).Stays R fills := by
  unfold next
  split
  next callee args enters =>
    exact enter_stays suits core supplies callee stays.toCovered fun v member =>
      stays.hands v (by rw [enters]; exact .argument member)
  next => exact execute_stays suits core supplies stays.toCovered
  next outcome settles =>
    refine settle_stays suits stays.toCovered fun v gives => stays.hands v ?_
    rw [settles, gives]
    exact .outcome
  next result answers =>
    unfold answer
    split
    · exact stays
    next native waiting waits =>
      have relays := resumes native (by simp [waits])
      have passes : (NativeStep.relay result machine.world).Confined R := by
        cases result with
        | ok v => exact .value stays.holds (stays.hands v (by rw [answers]; exact .result))
        | error error => exact .failure stays.holds
      rw [relays]
      exact proceed_stays suits stays.slots passes _ _ _ _

theorem Reaches.stays {start : Machine} (reaches : Reaches p limits start machine)
    (relaying : start.Relaying) (first : start.Stays R fills) :
    machine.Relaying ∧ machine.Stays R fills := by
  induction reaches with
  | start => exact ⟨relaying, first⟩
  | step _ ih => exact ⟨next_relaying core ih.1, next_stays suits core supplies ih.1.resumes ih.2⟩

end Steps

section Territories

abbrev Confined (T : Territory) (machine : Machine) : Prop :=
  machine.Stays T.realm fun _ slots => ∀ v ∈ slots, T.inside v

theorem Reaches.confined {T : Territory} {start : Machine} (core : p.Core) (excludes : T.Excludes p)
    (reaches : Reaches p limits start machine) (relaying : start.Relaying)
    (first : start.Confined T) : machine.Relaying ∧ machine.Confined T :=
  reaches.stays T.suits core excludes.supplies relaying first

end Territories

end Machine

end StackMachine
