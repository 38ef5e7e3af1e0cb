import StackMachine.Proofs.Soundness

/-! Calls nested above a point of the call stack, in any program and with any natives. The frames
above that point own adjoining regions of the slots, their free cells are blank, and everything
below it stays out of reach: each step of the machine keeps this until the call that began there is
over. -/

namespace StackMachine

namespace Thread

variable {status : Status} {slots : Array Value} {frame : Frame} {frames callers : List Frame}
  {fault : Option CallError} {base : Nat}

@[simp] theorem unwind_fault (thread : Thread) (count : Nat) :
    (thread.unwind count).fault = thread.fault := by
  unfold unwind
  dsimp only
  split <;> rfl

@[simp] theorem unwind_status (thread : Thread) (count : Nat) :
    (thread.unwind count).status = thread.status := by
  unfold unwind
  dsimp only
  split <;> rfl

theorem unwind_resting (resting : frames.length = base) :
    unwind { status, slots, frames, fault } base = { status, slots, frames, fault } := by
  simp [unwind, resting]

theorem unwind_last (last : callers.length = base) :
    unwind { status, slots, frames := frame :: callers, fault } base =
      { status, slots := slots.shrink frame.base, frames := callers, fault } := by
  have single : callers.length + 1 - base = 1 := by omega
  simp [unwind, single]

theorem unwind_inner (inner : base < callers.length) :
    unwind { status, slots, frames := frame :: callers, fault } base =
      unwind { status, slots, frames := callers, fault } base := by
  obtain ⟨extra, count⟩ : ∃ extra, callers.length - base = extra + 1 :=
    ⟨callers.length - base - 1, by omega⟩
  have more : callers.length + 1 - base = extra + 1 + 1 := by omega
  obtain ⟨caller, rest, rfl⟩ := List.exists_cons_of_length_pos (Nat.zero_lt_of_lt inner)
  simp only [unwind, List.length_cons] at count more ⊢
  simp only [count, more, List.take_succ_cons, List.getLast?_cons, List.drop_succ_cons,
    Option.getD_some]

theorem admitted_of_refusal? {thread : Thread} {limits : Limits} {f : Function Value}
    {code : Code Value} (admitted : thread.refusal? limits f code = none) :
    thread.frames.length < limits.frames ∧ thread.slots.size + code.frameSize ≤ limits.slots ∧
      f.maxArgs.toNat ≤ code.locals.toNat := by
  unfold refusal? at admitted
  dsimp only at admitted
  split at admitted
  · contradiction
  · split at admitted
    · contradiction
    · split at admitted
      · contradiction
      next frames slots params =>
        exact ⟨Nat.lt_of_not_le frames, Nat.le_of_not_lt slots, Nat.le_of_not_lt params⟩

end Thread

namespace Layout

/-- A frame at the end of the slots with blank free cells, above `callers` others, that the limits
admit. -/
structure Tidy (limits : Limits) (callers : Nat) (l : Layout) : Prop where
  blank : ∀ v ∈ l.free, v = .undefined
  last : l.above = []
  frames : callers < limits.frames
  slots : l.frame.limit ≤ limits.slots

variable {limits : Limits} {callers : Nat} {l : Layout}

theorem Tidy.after (tidy : l.Tidy limits callers) (n : Nat) (put locals : List Value) (place : Nat)
    (enough : n ≤ l.operands.length) (room : put.length ≤ n + l.free.length)
    (same : locals.length = l.locals.length) :
    Tidy limits callers { l.after n put with place, locals } := by
  refine ⟨fun v member => ?_, tidy.last, tidy.frames, ?_⟩
  · rcases List.mem_append.mp (List.mem_of_mem_drop member) with taken | free
    · exact List.eq_of_mem_replicate taken
    · exact tidy.blank v free
  · have region := tidy.slots
    have operands := l.after_operands_length n put
    have free := l.after_free_length n put
    have below : (l.after n put).below.length = l.below.length := rfl
    simp only [frame] at region ⊢
    omega

theorem Tidy.at (tidy : l.Tidy limits callers) (place : Nat) :
    Tidy limits callers { l with place } :=
  tidy.after 0 [] l.locals place (Nat.zero_le _) (Nat.zero_le _) rfl

end Layout

/-- A point of the call stack: the natives that wait, the frames and the slots that lie below it. -/
structure Root where
  waiting : List Suspended
  frames : List Frame
  slots : Array Value
  /-- Below a call from the host there is nothing. -/
  idle : waiting = [] → frames = [] ∧ slots = #[]

def Root.host : Root where
  waiting := []
  frames := []
  slots := #[]
  idle _ := ⟨rfl, rfl⟩

/-- The calls that are open above `root`. The next result goes to `dest`, and the current call began
with `base` frames. -/
inductive Nested (limits : Limits) (root : Root) :
    List Suspended → Nat → Destination → List Frame → Array Value → Prop
  | root : Nested limits root root.waiting root.frames.length .host root.frames root.slots
  | native {native : Suspended} {waiting : List Suspended} {frames : List Frame}
    {slots : Array Value}
    (outer : Nested limits root waiting native.base native.landing frames slots) :
    Nested limits root (native :: waiting) frames.length .host frames slots
  | frame {waiting : List Suspended} {base : Nat} {dest : Destination} {callers : List Frame}
    {l : Layout} (within : base ≤ callers.length) (awaited : dest ≠ .host)
    (tidy : l.Tidy limits callers.length)
    (outer : Nested limits root waiting base l.dest callers l.below.toArray) :
    Nested limits root waiting base dest (l.frame :: callers) l.slots

namespace Nested

variable {limits : Limits} {root : Root} {waiting : List Suspended} {base : Nat}
  {dest : Destination}
  {frames callers : List Frame} {slots : Array Value} {l : Layout}

theorem base_le (nested : Nested limits root waiting base dest frames slots) :
    base ≤ frames.length := by
  cases nested with
  | root => exact Nat.le_refl _
  | native _ => exact Nat.le_refl _
  | frame within _ _ _ => exact Nat.le_succ_of_le within

theorem host_iff (nested : Nested limits root waiting base dest frames slots) :
    dest = .host ↔ frames.length = base := by
  cases nested with
  | root => simp
  | native _ => simp
  | frame within awaited _ _ => simp [awaited]; omega

theorem resting (nested : Nested limits root waiting base .host frames slots) :
    Nested limits root waiting frames.length .host frames slots := by
  rw [nested.host_iff.mp rfl]
  exact nested

theorem extends_root (nested : Nested limits root waiting base dest frames slots) :
    root.waiting <:+ waiting ∧ root.frames <:+ frames ∧ root.slots.toList <+: slots.toList := by
  induction nested with
  | root => exact ⟨List.suffix_rfl, List.suffix_rfl, List.prefix_rfl⟩
  | native _ ih => exact ⟨ih.1.trans (List.suffix_cons _ _), ih.2⟩
  | @frame _ _ _ _ l _ _ _ _ ih =>
    have below : l.below <+: l.slots.toList := by
      simp only [Layout.slots, List.append_assoc]
      exact List.prefix_append _ _
    exact ⟨ih.1, ih.2.1.trans (List.suffix_cons _ _), ih.2.2.trans below⟩

theorem eq_root (nested : Nested limits root root.waiting base .host frames slots) :
    frames = root.frames ∧ slots = root.slots := by
  generalize origin : root.waiting = waiting at nested
  generalize leaving : Destination.host = dest at nested
  cases nested with
  | root => exact ⟨rfl, rfl⟩
  | native outer =>
    have longer := outer.extends_root.1.length_le
    rw [origin, List.length_cons] at longer
    omega
  | frame _ awaited _ _ => exact absurd leaving.symm awaited

theorem suspended {native : Suspended} (above : native :: waiting ≠ root.waiting)
    (nested : Nested limits root (native :: waiting) base .host frames slots) :
    Nested limits root waiting native.base native.landing frames slots := by
  generalize origin : native :: waiting = natives at nested
  generalize leaving : Destination.host = dest at nested
  cases nested with
  | root => exact absurd origin above
  | native outer =>
    obtain ⟨rfl, rfl⟩ := List.cons.inj origin
    exact outer
  | frame _ awaited _ _ => exact absurd leaving.symm awaited

/-- Dropping the frames of the current call, seen from its innermost frame. The slots may have a
remainder of frames that were dropped already. -/
theorem unwind_frame (within : base ≤ callers.length)
    (nested : Nested limits root waiting base l.dest callers l.below.toArray) (rest : Array Value)
    (status : Status) (fault : Option CallError) :
    let thread :=
      Thread.unwind { status, slots := l.slots ++ rest, frames := l.frame :: callers, fault } base
    Nested limits root waiting base .host thread.frames thread.slots := by
  generalize direction : l.dest = dest at nested
  generalize lower : l.below.toArray = slots at nested
  induction nested generalizing l rest with
  | root =>
    rw [Thread.unwind_last rfl, Pending.shrink_slots, lower]
    exact .root
  | native outer =>
    rw [Thread.unwind_last rfl, Pending.shrink_slots, lower]
    exact .native outer
  | @frame waiting base dest callers k within' _ _ outer ih =>
    have joined : l.slots ++ rest =
        k.slots ++ ((l.locals ++ (l.operands.reverse ++ (l.free ++ l.above))).toArray ++ rest) := by
      rw [← lower, ← Array.append_assoc]
      simp [Layout.slots]
    rw [Thread.unwind_inner (Nat.lt_succ_of_le within'), joined]
    exact ih within' _ rfl rfl

theorem unwind {thread : Thread}
    (nested : Nested limits root waiting base dest thread.frames thread.slots) :
    Nested limits root waiting base .host (thread.unwind base).frames
      (thread.unwind base).slots := by
  obtain ⟨status, slots, frames, fault⟩ := thread
  by_cases leaving : dest = .host
  · rw [Thread.unwind_resting (nested.host_iff.mp leaving), ← leaving]
    exact nested
  · dsimp only at nested
    cases nested with
    | root => exact absurd rfl leaving
    | native _ => exact absurd rfl leaving
    | frame within _ _ outer => simpa using outer.unwind_frame within #[] status fault

end Nested

structure Thread.Innermost (limits : Limits) (root : Root) (waiting : List Suspended) (base : Nat)
    (l : Layout) (callers : List Frame) (thread : Thread) : Prop where
  frames : thread.frames = l.frame :: callers
  slots : thread.slots = l.slots
  within : base ≤ callers.length
  tidy : l.Tidy limits callers.length
  outer : Nested limits root waiting base l.dest callers l.below.toArray

namespace Nested

variable {limits : Limits} {root : Root} {waiting : List Suspended} {base : Nat}
  {dest : Destination} {thread : Thread}

theorem innermost (nested : Nested limits root waiting base dest thread.frames thread.slots)
    (awaited : dest ≠ .host) :
    ∃ l callers, thread.Innermost limits root waiting base l callers := by
  generalize framed : thread.frames = frames at nested
  generalize slotted : thread.slots = slots at nested
  cases nested with
  | root => exact absurd rfl awaited
  | native _ => exact absurd rfl awaited
  | frame within _ tidy outer => exact ⟨_, _, framed, slotted, within, tidy, outer⟩

end Nested

theorem Thread.Innermost.nested {limits : Limits} {root : Root} {waiting : List Suspended}
    {base : Nat} {l : Layout} {callers : List Frame} {thread : Thread}
    (innermost : thread.Innermost limits root waiting base l callers) {dest : Destination}
    (awaited : dest ≠ .host) : Nested limits root waiting base dest thread.frames thread.slots := by
  rw [innermost.frames, innermost.slots]
  exact .frame innermost.within awaited innermost.tidy innermost.outer

/-- What holds between two steps until the call that began at `root` is over. -/
inductive Machine.Within (limits : Limits) (root : Root) : Machine → Prop
  | enter {thread : Thread} {world : World} {waiting : List Suspended} {base : Nat}
    {callee : Callee} {args : Array Value}
    (nested : Nested limits root waiting thread.frames.length .host thread.frames thread.slots) :
    Within limits root { thread, world, waiting, base, control := .enter callee args }
  | execute {thread : Thread} {world : World} {waiting : List Suspended} {base : Nat}
    (nested : Nested limits root waiting base .push thread.frames thread.slots) :
    Within limits root { thread, world, waiting, base, control := .execute }
  | done {thread : Thread} {world : World} {waiting : List Suspended} {base : Nat} {v : Value}
    (nested : Nested limits root waiting base .host thread.frames thread.slots) :
    Within limits root { thread, world, waiting, base, control := .settle (.ok v) }
  | failed {thread : Thread} {world : World} {waiting : List Suspended} {base : Nat}
    {failure : Failure} (dest : Destination)
    (nested : Nested limits root waiting base dest thread.frames thread.slots) :
    Within limits root { thread, world, waiting, base, control := .settle (.error failure) }
  | answer {thread : Thread} {world : World} {waiting : List Suspended} {base : Nat}
    {result : Except CallError Value}
    (nested : Nested limits root waiting thread.frames.length .host thread.frames thread.slots) :
    Within limits root { thread, world, waiting, base, control := .answer result }

def Machine.Answers (waiting : List Suspended) (machine : Machine) : Prop :=
  machine.waiting = waiting ∧ ∃ result, machine.control = .answer result

theorem Exec.push_full {l : Layout} {s : Store} (v : Value) (full : l.free = []) :
    push v (l.activation s) = .error (.fault .outsideRegion) (l.activation s) := by
  have atLimit : ¬ l.frame.tos < l.frame.limit := by simp [Layout.frame, full]
  unfold Layout.activation
  simp [push, atLimit]

namespace Machine

variable {limits : Limits} {root : Root} {machine : Machine} {dest : Destination} {l : Layout}
  {callers : List Frame}

theorem deliver_within (awaited : dest ≠ .host)
    (nested : Nested limits root machine.waiting machine.base dest machine.thread.frames
      machine.thread.slots)
    (v : Value) : Within limits root (machine.deliver v dest) := by
  obtain ⟨l, callers, innermost⟩ := nested.innermost awaited
  cases dest with
  | host => exact absurd rfl awaited
  | discard => exact .execute (innermost.nested (by simp))
  | push =>
    simp only [deliver]
    refine onFrame_of_ends innermost.frames innermost.slots ?_
    by_cases room : 0 < l.free.length
    · refine Exec.Ends.ok (Exec.push_layout v room)
        (.execute (.frame innermost.within (by simp) ?_ innermost.outer))
      refine innermost.tidy.after 0 [v] l.locals l.place (Nat.zero_le _) ?_ rfl
      simp only [List.length_singleton]
      omega
    · have full : l.free = [] := by simpa using room
      refine Exec.Ends.error (Exec.push_full v full) ?_
      exact .failed .push (.frame innermost.within awaited innermost.tidy innermost.outer)

theorem stop_within (dest : Destination)
    (nested : Nested limits root machine.waiting machine.base dest machine.thread.frames
      machine.thread.slots) : Within limits root machine.stop :=
  .done nested.unwind

theorem land_within
    (nested : Nested limits root machine.waiting machine.base dest machine.thread.frames
      machine.thread.slots)
    (v : Value) : Within limits root (machine.land v dest) := by
  cases dest with
  | host => exact .done nested
  | _ =>
    simp only [land]
    split
    · exact .failed _ nested
    · split
      · exact stop_within _ nested
      · exact deliver_within (by simp) nested v

theorem proceed_within {thread : Thread} {waiting : List Suspended} {base : Nat}
    (nested : Nested limits root waiting base dest thread.frames thread.slots) (name : String)
    (step : NativeStep) : Within limits root (proceed thread waiting base name dest step) := by
  unfold proceed
  split
  · exact .enter (.native nested)
  · exact land_within nested _
  · exact .failed _ nested
  · exact .failed _ nested

theorem leaveFrame_within
    (innermost : machine.thread.Innermost limits root machine.waiting machine.base l callers)
    (v : Value) : Within limits root (machine.leaveFrame v) := by
  obtain ⟨⟨status, slots, frames, fault⟩, world, waiting, base, control⟩ := machine
  obtain ⟨framed, slotted, within, tidy, outer⟩ := innermost
  obtain rfl : frames = l.frame :: callers := framed
  obtain rfl : slots = l.slots := slotted
  have shrunk : l.slots.shrink l.frame.base = l.below.toArray := by
    simpa using Pending.shrink_slots l #[]
  simp only [leaveFrame, shrunk]
  dsimp only at within outer
  split
  next bottom =>
    have leaving : l.dest = .host := outer.host_iff.mpr (Nat.le_antisymm bottom within)
    rw [leaving] at outer
    exact .done outer
  next inside =>
    have awaited : l.dest ≠ .host :=
      fun leaving => inside (Nat.le_of_eq (outer.host_iff.mp leaving))
    refine deliver_within awaited ?_ v
    exact outer

variable (p : Program)

theorem callCode_within
    (nested : Nested limits root machine.waiting machine.base dest machine.thread.frames
      machine.thread.slots)
    (id : UInt16) {f : Function Value} (code : Code Value) {args : Array Value}
    (accepts : f.accepts args.size = true) :
    Within limits root (machine.callCode limits id f code args dest) := by
  unfold callCode
  split
  · exact .failed _ nested
  next admitted =>
    obtain ⟨thread, ⟨store, console, interrupted⟩, waiting, base, control⟩ := machine
    dsimp only at nested admitted ⊢
    obtain ⟨frames, slots, params⟩ := Thread.admitted_of_refusal? admitted
    have few := Function.given_size_le accepts params store
    rw [Thread.enter_eq_opened _ _ _ few]
    have limit : (Layout.opened id code (args ++ (store.copyAll (f.omittedParams args.size)).1) dest
        thread.slots).frame.limit = thread.slots.size + code.frameSize := by
      simp only [Layout.opened, Layout.frame, Code.frameSize, List.length_append,
        Array.length_toList, List.length_replicate, List.length_nil]
      omega
    refine .execute (.frame nested.base_le (by simp)
      ⟨fun v member => ?_, rfl, frames, limit ▸ slots⟩ ?_)
    · exact List.eq_of_mem_replicate member
    · simpa [Layout.opened] using nested

theorem invoke_within
    (nested : Nested limits root machine.waiting machine.base dest machine.thread.frames
      machine.thread.slots)
    (id : UInt16) (args : Array Value) :
    Within limits root (machine.invoke p limits id args dest) := by
  unfold invoke
  split
  · exact .failed _ nested
  split
  · split
    · split
      · exact .failed _ nested
      · exact proceed_within nested _ _
    next accepts _ code _ => exact callCode_within nested id code accepts
  · exact .failed _ nested

theorem enter_within {thread : Thread} {world : World} {waiting : List Suspended} {base : Nat}
    {control : Control}
    (nested : Nested limits root waiting thread.frames.length .host thread.frames thread.slots)
    (callee : Callee) (args : Array Value) :
    Within limits root (enter p limits { thread, world, waiting, base, control } callee args) := by
  unfold enter
  split
  · exact .answer nested
  split
  · exact .answer nested
  split
  next idle =>
    -- Nothing waits, so the root is that of a call from the host, which clears the thread.
    obtain rfl : waiting = [] := List.isEmpty_iff.mp idle
    have bottom : root.waiting = [] := List.suffix_nil.mp nested.extends_root.1
    obtain ⟨noFrames, noSlots⟩ := root.idle bottom
    have cleared : Nested limits root [] 0 .host [] #[] := by
      have start : Nested limits root root.waiting root.frames.length .host root.frames
        root.slots := .root
      rwa [bottom, noFrames, noSlots] at start
    exact invoke_within p cleared _ _
  · split
    · exact .answer nested
    · exact invoke_within p nested _ _

theorem follow_within (within : machine.base ≤ callers.length)
    (outer : Nested limits root machine.waiting machine.base l.dest callers l.below.toArray)
    (tidy : l.Tidy limits callers.length) {code : Code Value} {i : Instruction}
    (fits : l.frame.fits i = true) (noCall : ∀ keep function argc, i ≠ .call keep function argc)
    {flow : Flow} {b : Activation} (completed : l.Completed code i flow b) :
    Within limits root (follow p limits flow (machine.hold callers b)) := by
  obtain ⟨leads, put, locals, s, count, same, _, rfl⟩ := completed
  obtain ⟨enough, room⟩ := (l.fits_iff i).mp fits
  have exchanged (place : Nat) :
      Layout.Tidy limits callers.length { l.after i.pops put with place, locals } :=
    tidy.after i.pops put locals place enough (by omega) same
  cases flow with
  | next => exact .execute (.frame within (by simp) (exchanged l.place) outer)
  | jump target =>
    simp only [follow]
    rw [onFrame_ok _ rfl rfl (Exec.jump_layout target _ _)]
    exact .execute (.frame within (by simp) (exchanged target) outer)
  | call keep function argc =>
    obtain ⟨n, rfl, _⟩ := leads
    exact absurd rfl (noCall keep function n)
  | ret v =>
    simp only [follow]
    refine leaveFrame_within (l := { l.after i.pops put with locals })
      ⟨rfl, rfl, ?_, exchanged l.place, ?_⟩ v
    · exact within
    · exact outer
  | halt =>
    refine stop_within .push ?_
    exact .frame within (by simp) (exchanged l.place) outer

theorem follow_call_within (within : machine.base ≤ callers.length)
    (outer : Nested limits root machine.waiting machine.base l.dest callers l.below.toArray)
    (tidy : l.Tidy limits callers.length) (keep : Bool) (function : UInt16) {argc : Nat}
    (enough : argc ≤ l.operands.length) (s : Store) :
    Within limits root (follow p limits (.call keep function argc)
      (machine.hold callers (l.activation s))) := by
  simp only [follow]
  rw [onFrame_ok _ rfl rfl (Exec.popMany_layout enough)]
  refine invoke_within p (.frame within ?_
    (tidy.after argc [] l.locals l.place enough (Nat.zero_le _) rfl) outer) _ _
  cases keep <;> simp

theorem execute_within {thread : Thread} {world : World} {waiting : List Suspended} {base : Nat}
    {control : Control}
    (nested : Nested limits root waiting base .push thread.frames thread.slots) :
    Within limits root (execute p limits { thread, world, waiting, base, control }) := by
  obtain ⟨l, callers, framed, slotted, within, tidy, outer⟩ := nested.innermost (by simp)
  simp only [execute, setStatus, framed]
  split
  · rw [framed, slotted] at nested
    exact .failed .push (by simpa [slotted] using nested)
  next code _ =>
    split
    · exact .failed .push (by simpa [framed, slotted] using nested)
    next i _ =>
      refine onFrame_of_ends rfl slotted
        (Exec.Ends.bind (Exec.Ends.ok (Exec.advance_layout l world.store) ?_))
      split
      next fits =>
        cases i with
        | call keep function argc =>
          refine Exec.Ends.ok rfl ?_
          refine follow_call_within p within outer (tidy.at (l.place + 1)) keep
            function ?_ world.store
          exact ((Layout.fits_iff _ _).mp fits).1
        | _ =>
          refine (Instruction.execute_effect p code world.store (by simp) fits).mono
            (fun flow b completed => ?_) fun e b reduced => ?_
          · exact follow_within p within outer (tidy.at (l.place + 1)) fits (by simp) completed
          · obtain ⟨⟨n, s, some, rfl⟩, _⟩ := reduced
            refine .failed .push (.frame within (by simp) ?_ outer)
            have enough := Nat.le_trans some ((Layout.fits_iff _ _).mp fits).1
            exact tidy.after n [] l.locals (l.place + 1) enough (Nat.zero_le _) rfl
      next => exact .failed .push (.frame within (by simp) (tidy.at (l.place + 1)) outer)

/-- Every step stays above the root until the call that began there is over. -/
theorem next_within (within : Within limits root machine)
    (unfinished : ¬ machine.Answers root.waiting) : Within limits root (machine.next p limits) := by
  cases within with
  | enter nested => exact enter_within p nested _ _
  | execute nested => exact execute_within p nested
  | done nested => exact .answer nested.resting
  | failed _ nested =>
    apply Within.answer
    apply Nested.resting
    apply Nested.unwind
    exact nested
  | @answer thread world waiting base result nested =>
    cases waiting with
    | nil => exact .answer nested
    | cons native waiting =>
      have above : native :: waiting ≠ root.waiting := fun same => unfinished ⟨same, result, rfl⟩
      exact proceed_within (nested.suspended above) _ _

end Machine

end StackMachine
