import StackMachine.Proofs.CodePointers
import StackMachine.Proofs.LateBinding

/-! How a call comes back to the frame that made it, in any program and with any natives. Frames and
natives pile up above the caller, each with a result of its own to wait for. Until the caller gets
its result nothing touches it; then its stack has grown by that result, or not at all if it is not
wanted. -/

namespace StackMachine

/-- A frame that has made a call and handed over its arguments. -/
structure Caller where
  waiting : List Suspended
  /-- How many frames there were when the call that the frame belongs to began. -/
  base : Nat
  /-- Where the result of the call goes. -/
  dest : Destination
  frame : Frame
  callers : List Frame
  awaited : dest ≠ .host

def Caller.resumed (r : Caller) : Frame :=
  { r.frame with tos := r.frame.tos + r.dest.kept }

/-- What is open above the caller: the natives that wait, where the current call began, where the
next result goes, and the frames. A call that a native asked for began with all the frames that were
there. -/
inductive Above (r : Caller) : List Suspended → Nat → Destination → List Frame → Prop
  | caller : Above r r.waiting r.base r.dest (r.frame :: r.callers)
  | native {native : Suspended} {waiting : List Suspended} {frames : List Frame}
    (outer : Above r waiting native.base native.landing frames) :
    Above r (native :: waiting) frames.length .host frames
  | frame {waiting : List Suspended} {base : Nat} {dest : Destination} {frame : Frame}
    {callers : List Frame} (within : base ≤ callers.length ∨ waiting = r.waiting)
    (awaited : dest ≠ .host) (outer : Above r waiting base frame.dest callers) :
    Above r waiting base dest (frame :: callers)

namespace Above

variable {r : Caller} {waiting : List Suspended} {base : Nat} {dest : Destination}
  {frames : List Frame}

theorem within (above : Above r waiting base dest frames) :
    base ≤ frames.length ∨ waiting = r.waiting := by
  cases above with
  | caller => exact .inr rfl
  | native _ => exact .inl (Nat.le_refl _)
  | frame within _ _ => exact within.imp_left Nat.le_succ_of_le

theorem callers_lt (above : Above r waiting base dest frames) :
    r.callers.length < frames.length := by
  induction above with
  | caller => exact Nat.lt_succ_self _
  | native _ ih => exact ih
  | frame _ _ _ ih => exact Nat.lt_succ_of_lt ih

theorem length_eq (above : Above r waiting base .host frames) : frames.length = base := by
  generalize leaves : Destination.host = dest at above
  cases above with
  | caller => exact absurd leaves.symm r.awaited
  | native _ => rfl
  | frame _ awaited _ => exact absurd leaves.symm awaited

theorem waiting_eq (above : Above r waiting base dest frames) (awaited : dest ≠ .host)
    (last : frames.length ≤ base) : waiting = r.waiting := by
  cases above with
  | caller => rfl
  | native _ => exact absurd rfl awaited
  | frame within _ _ => exact within.resolve_left (Nat.not_le_of_lt last)

/-- Dropping the frames of the current call: a native above the caller asked for it, or it is the
one that the caller belongs to. -/
theorem drop (above : Above r waiting base dest frames) :
    Above r waiting base .host (frames.drop (frames.length - base)) ∨ waiting = r.waiting := by
  induction above with
  | caller => exact .inr rfl
  | native outer _ =>
    rw [Nat.sub_self, List.drop_zero]
    exact .inl (.native outer)
  | frame within _ _ ih =>
    rcases within with inside | same
    · rw [List.length_cons, Nat.succ_sub inside, List.drop_succ_cons]
      exact ih
    · exact .inr same

theorem exists_native (above : Above r waiting base .host frames) :
    ∃ native outer, waiting = native :: outer ∧
    Above r outer native.base native.landing frames := by
  generalize leaves : Destination.host = dest at above
  cases above with
  | caller => exact absurd leaves.symm r.awaited
  | native outer => exact ⟨_, _, rfl, outer⟩
  | frame _ awaited _ => exact absurd leaves.symm awaited

end Above

theorem Exec.Blind.dest_eq {α : Type} {act : Exec α} (blind : act.Blind) (a : Activation) :
    act.Ends a (fun _ b => b.frame.dest = a.frame.dest) fun _ b => b.frame.dest = a.frame.dest := by
  have same := blind a a.frame.dest
  have here : a.toward a.frame.dest = a := rfl
  rw [here] at same
  unfold Exec.Ends
  cases path : act a with
  | ok v b =>
    simp only [path, EStateM.Result.ok.injEq, true_and] at same
    exact congrArg (·.frame.dest) same
  | error e b =>
    simp only [path, EStateM.Result.error.injEq, true_and] at same
    exact congrArg (·.frame.dest) same

theorem Exec.push_frame (v : Value) (a : Activation) : (Exec.push v).Ends a
    (fun _ b => b.frame = { a.frame with tos := a.frame.tos + 1 }) fun _ b =>
      b.frame = a.frame := by
  obtain ⟨frame, slots, store⟩ := a
  by_cases room : (frame.tos < frame.limit && frame.tos < slots.size) = true
  · exact Exec.Ends.ok (if_pos room) rfl
  · exact Exec.Ends.error (if_neg room) rfl

namespace Machine

inductive Open (r : Caller) (machine : Machine) : Prop
  | enter {callee : Callee} {args : Array Value} (control : machine.control = .enter callee args)
    (above : Above r machine.waiting machine.thread.frames.length .host machine.thread.frames)
  | execute {frame : Frame} {callers : List Frame} (control : machine.control = .execute)
    (framed : machine.thread.frames = frame :: callers)
    (above : Above r machine.waiting machine.base frame.dest callers)
  | done {v : Value} (control : machine.control = .settle (.ok v))
    (above : Above r machine.waiting machine.base .host machine.thread.frames)
  | failed {failure : Failure} (control : machine.control = .settle (.error failure))
    {dest : Destination}
    (above : Above r machine.waiting machine.base dest machine.thread.frames)
  | answer {result : Except CallError Value} (control : machine.control = .answer result)
    (above : Above r machine.waiting machine.thread.frames.length .host machine.thread.frames)

/-- How the call stands: it goes on, the caller has its result, or the call that the caller belongs
to ends. -/
inductive Stands (r : Caller) (machine : Machine) : Prop
  | goes (goes : Open r machine)
  | returned (control : machine.control = .execute)
    (framed : machine.thread.frames = r.resumed :: r.callers)
    (waits : machine.waiting = r.waiting)
  | ends {outcome : Except Failure Value} (control : machine.control = .settle outcome)
    (waits : machine.waiting = r.waiting)
  | ended {result : Except CallError Value} (control : machine.control = .answer result)
    (waits : machine.waiting = r.waiting)

variable {p : Program} {limits : Limits} {r : Caller} {machine : Machine} {dest : Destination}

theorem failed_of_frame {frame : Frame} {callers : List Frame} {failure : Failure}
    (control : machine.control = .settle (.error failure))
    (framed : machine.thread.frames = frame :: callers)
    (above : Above r machine.waiting machine.base frame.dest callers) : Stands r machine := by
  have inside : Above r machine.waiting machine.base .discard machine.thread.frames := by
    rw [framed]
    exact .frame above.within (by simp) above
  exact .goes (.failed control inside)

theorem deliver_stands (above : Above r machine.waiting machine.base dest machine.thread.frames)
    (awaited : dest ≠ .host) (v : Value) : Stands r (machine.deliver v dest) := by
  obtain ⟨⟨status, slots, frames, fault⟩, world, waiting, base, control⟩ := machine
  dsimp only at above
  cases kept : dest with
  | host => exact absurd kept awaited
  | discard =>
    cases above with
    | caller => exact .returned rfl (by simp [deliver, Caller.resumed, kept, Destination.kept]) rfl
    | native _ => contradiction
    | frame within awaited outer => exact .goes (.execute rfl rfl outer)
  | push =>
    simp only [deliver]
    cases above with
    | caller =>
      apply onFrame_of_frame rfl
      refine (Exec.push_frame v _).mono (fun _ b grown => ?_) fun e b same => ?_
      · refine .returned rfl ?_ rfl
        simp [hold, grown, Caller.resumed, kept, Destination.kept]
      · have unchanged : Above r r.waiting r.base r.dest (b.frame :: r.callers) := by
          rw [same]
          exact .caller
        exact .goes (.failed rfl unchanged)
    | native _ => contradiction
    | frame within awaited outer =>
      apply onFrame_of_frame rfl
      refine (Exec.push_frame v _).mono (fun _ b grown => ?_) fun e b same => ?_
      · refine .goes (.execute rfl rfl ?_)
        rw [grown]
        exact outer
      · refine failed_of_frame rfl rfl ?_
        rw [same]
        exact outer

theorem stop_stands (above : Above r machine.waiting machine.base dest machine.thread.frames) :
    Stands r machine.stop := by
  rcases above.drop with left | same
  · refine .goes (.done rfl ?_)
    rw [← Thread.unwind_frames] at left
    exact left
  · exact .ends rfl same

theorem land_stands (above : Above r machine.waiting machine.base dest machine.thread.frames)
    (v : Value) : Stands r (machine.land v dest) := by
  by_cases leaves : dest = .host
  · obtain rfl := leaves
    exact .goes (.done rfl above)
  · rw [land_awaited _ _ leaves]
    split
    · exact .goes (.failed rfl above)
    split
    · exact stop_stands above
    · exact deliver_stands above leaves v

theorem proceed_stands {thread : Thread} {waiting : List Suspended} {base : Nat} (name : String)
    (above : Above r waiting base dest thread.frames) (step : NativeStep) :
    Stands r (proceed thread waiting base name dest step) := by
  unfold proceed
  split
  · exact .goes (.enter rfl (.native above))
  · apply land_stands
    exact above
  · exact .goes (.failed rfl above)
  · exact .goes (.failed rfl above)

theorem callCode_stands (above : Above r machine.waiting machine.base dest machine.thread.frames)
    (id : UInt16) (f : Function Value) (code : Code Value) (args : Array Value) :
    Stands r (machine.callCode limits id f code args dest) := by
  unfold callCode
  split
  · exact .goes (.failed rfl above)
  · obtain ⟨⟨status, slots, frames, fault⟩, ⟨store, console, interrupted⟩, waiting, base,
      control⟩ := machine
    dsimp only [Thread.enter]
    exact .goes (.execute rfl rfl above)

theorem invoke_stands (above : Above r machine.waiting machine.base dest machine.thread.frames)
    (id : UInt16) (args : Array Value) : Stands r (machine.invoke p limits id args dest) := by
  unfold invoke
  split
  · exact .goes (.failed rfl above)
  split
  · split
    · split
      · exact .goes (.failed rfl above)
      · rw [callNative_eq]
        exact proceed_stands _ above _
    · exact callCode_stands above _ _ _ _
  · exact .goes (.failed rfl above)

theorem enter_stands
    (above : Above r machine.waiting machine.thread.frames.length .host machine.thread.frames)
    (callee : Callee) (args : Array Value) : Stands r (machine.enter p limits callee args) := by
  obtain ⟨native, outer, waits, _⟩ := above.exists_native
  have busy : machine.waiting.isEmpty = false := by rw [waits]; rfl
  unfold enter
  rw [busy]
  split
  · exact .goes (.answer rfl above)
  split
  · exact .goes (.answer rfl above)
  simp only [Bool.false_eq_true, if_false]
  split
  · exact .goes (.answer rfl above)
  · apply invoke_stands
    exact above

theorem leaveFrame_stands {frame : Frame} {callers : List Frame}
    (framed : machine.thread.frames = frame :: callers)
    (above : Above r machine.waiting machine.base frame.dest callers) (v : Value) :
    Stands r (machine.leaveFrame v) := by
  obtain ⟨⟨status, slots, frames, fault⟩, world, waiting, base, control⟩ := machine
  obtain rfl : frames = frame :: callers := framed
  simp only [leaveFrame]
  by_cases leaves : frame.dest = .host
  · rw [leaves] at above
    rw [if_pos (Nat.le_of_eq above.length_eq)]
    exact .goes (.done rfl above)
  · split
    next last => exact .ends rfl (above.waiting_eq leaves last)
    · apply deliver_stands
      · exact above
      · exact leaves

theorem follow_stands {frame : Frame} {callers : List Frame}
    (framed : machine.thread.frames = frame :: callers)
    (above : Above r machine.waiting machine.base frame.dest callers) (flow : Flow) :
    Stands r (follow p limits flow machine) := by
  cases flow with
  | next => exact .goes (.execute rfl framed above)
  | jump target =>
    simp only [follow]
    apply onFrame_of_frame framed
    exact .goes (.execute rfl rfl above)
  | call keep function argc =>
    simp only [follow]
    have marked : (machine.setStatus .calling).thread.frames = frame :: callers := framed
    apply onFrame_of_frame marked
    refine ((Exec.blind_popMany argc).dest_eq _).mono (fun args b same => ?_) fun e b same => ?_
    · apply invoke_stands
      refine .frame above.within (by cases keep <;> simp) ?_
      rw [same]
      exact above
    · refine failed_of_frame rfl rfl ?_
      rw [same]
      exact above
  | ret v => exact leaveFrame_stands framed above v
  | halt =>
    have inside : Above r machine.waiting machine.base .discard machine.thread.frames := by
      rw [framed]
      exact .frame above.within (by simp) above
    apply stop_stands
    exact inside

theorem execute_stands {frame : Frame} {callers : List Frame}
    (framed : machine.thread.frames = frame :: callers)
    (above : Above r machine.waiting machine.base frame.dest callers) :
    Stands r (machine.execute p limits) := by
  have marked : (machine.setStatus .running).thread.frames = frame :: callers := framed
  unfold execute
  dsimp only
  rw [marked]
  dsimp only
  split
  · exact failed_of_frame rfl framed above
  split
  · exact failed_of_frame rfl framed above
  next i here =>
    refine onFrame_of_frame marked
      (((i.perform_blind p _).dest_eq _).mono (fun flow b same => ?_) fun e b same => ?_)
    · apply follow_stands rfl
      rw [same]
      exact above
    · refine failed_of_frame rfl rfl ?_
      rw [same]
      exact above

theorem Open.next (goes : Open r machine) : Stands r (machine.next p limits) := by
  unfold Machine.next
  cases goes with
  | enter control above =>
    simp only [control]
    exact enter_stands above _ _
  | execute control framed above =>
    simp only [control]
    exact execute_stands framed above
  | done control above =>
    simp only [control]
    refine .goes (.answer rfl ?_)
    have resting := above
    rw [← above.length_eq] at resting
    exact resting
  | failed control above =>
    simp only [control]
    rcases above.drop with left | same
    · refine .goes (.answer rfl ?_)
      simp only [settle, Thread.unwind_frames]
      rw [left.length_eq]
      exact left
    · exact .ended rfl same
  | answer control above =>
    obtain ⟨native, outer, waits, above⟩ := above.exists_native
    simp only [control, Machine.answer, waits]
    exact proceed_stands _ above _

theorem settle_ended (waits : machine.waiting = r.waiting) (outcome : Except Failure Value) :
    Stands r (machine.settle p outcome) := by
  cases outcome with
  | ok v => exact .ended rfl waits
  | error failure => exact .ended rfl waits

theorem Open.not_back (goes : Open r machine) (running : machine.control = .execute) :
    ¬ Back r.waiting (r.callers.length + 1) machine := by
  refine not_back_of_deeper running fun same => ?_
  cases goes with
  | execute _ framed above =>
    have deeper := above.callers_lt
    rw [Thread.depth, framed, List.length_cons] at same
    omega
  | _ => simp_all

/-- When the call is over and the caller goes on, it has the result and nothing else has changed. -/
theorem Stands.frames_eq {last : Machine} (stands : Stands r machine)
    (comes : Comes p limits (Back r.waiting (r.callers.length + 1)) machine last)
    (running : last.control = .execute) : last.thread.frames = r.resumed :: r.callers := by
  obtain ⟨visits, back⟩ := comes
  induction visits with
  | @start machine =>
    cases stands with
    | goes goes => exact absurd back (goes.not_back running)
    | returned _ framed _ => exact framed
    | ends control _ => simp [control] at running
    | ended control _ => simp [control] at running
  | @step machine _ unfinished _ ih =>
    refine ih ?_ running back
    cases stands with
    | goes goes => exact goes.next
    | returned control framed waits =>
      exact absurd ⟨waits, .inl ⟨control, congrArg List.length framed⟩⟩ unfinished
    | ends control waits =>
      rw [Machine.next, control]
      exact settle_ended waits _
    | ended control waits => exact absurd ⟨waits, .inr ⟨_, control⟩⟩ unfinished

end Machine

end StackMachine
