import StackMachine.Proofs.Nesting

/-! The frames of a thread in its slots. Whatever the program, the natives and the limits are, in
every state of a thread's life the frames own adjoining regions that fill the slots exactly, with
blank cells above each operand stack. A native that asks for a call finds the frames and the slots
below it as they were, however the call ends. -/

namespace StackMachine

/-- Frames, the innermost first, whose regions fill the slots. -/
structure Framed (limits : Limits) (frames : List Frame) (slots : Array Value) : Prop where
  first : ∀ frame, frames.getLast? = some frame → frame.base = 0
  adjoining : ∀ (i : Nat) (inner outer : Frame), frames[i]? = some inner →
    frames[i + 1]? = some outer → outer.limit = inner.base
  filled : slots.size = (frames.head?.map Frame.limit).getD 0
  inside : ∀ frame ∈ frames, frame.limit ≤ slots.size
  cursor : ∀ frame ∈ frames, frame.base + frame.locals ≤ frame.tos ∧ frame.tos ≤ frame.limit
  blank : ∀ frame ∈ frames, ∀ i, frame.tos ≤ i → i < frame.limit → slots[i]? = some .undefined
  frames_le : frames.length ≤ limits.frames
  slots_le : slots.size ≤ limits.slots

namespace Layout

variable {limits : Limits} {l : Layout} {callers : Nat}

theorem Tidy.size (tidy : l.Tidy limits callers) : l.slots.size = l.frame.limit := by
  simp only [slots_size, frame, tidy.last, List.length_nil]
  omega

theorem slots_below (l : Layout) {i : Nat} (below : i < l.below.length) :
    l.slots[i]? = l.below.toArray[i]? := by
  simp [slots, List.getElem?_append_left, below]

theorem Tidy.blank_cell (tidy : l.Tidy limits callers) {i : Nat} (free : l.frame.tos ≤ i)
    (inside : i < l.frame.limit) : l.slots[i]? = some .undefined := by
  simp only [frame] at free inside
  have place : i - (l.below.length + l.locals.length) - l.operands.length < l.free.length := by
    omega
  have cell : l.slots[i]? = l.free[i - (l.below.length + l.locals.length) - l.operands.length]? :=
    by
    rw [Layout.slots, List.getElem?_toArray, List.getElem?_append_right
      (by simp only [List.length_append]; omega),
      List.length_append, List.getElem?_append_right (by simp only [List.length_reverse]; omega),
      List.length_reverse, List.getElem?_append_left place]
  rw [cell, List.getElem?_eq_getElem place, tidy.blank _ (List.getElem_mem place)]

end Layout

namespace Framed

variable {limits : Limits} {callers : List Frame} {l : Layout}

theorem empty (limits : Limits) : Framed limits [] #[] := by
  constructor <;> simp

theorem frame (outer : Framed limits callers l.below.toArray)
    (tidy : l.Tidy limits callers.length) : Framed limits (l.frame :: callers) l.slots where
  first := by
    intro frame last
    cases callers with
    | nil =>
      obtain rfl : l.frame = frame := by simpa using last
      exact outer.filled
    | cons caller callers => exact outer.first frame (by simpa using last)
  adjoining := by
    intro i inner outermost here above
    cases i with
    | zero =>
      obtain rfl : l.frame = inner := by simpa using here
      have head : callers.head? = some outermost := by simpa [List.head?_eq_getElem?] using above
      have filled := outer.filled
      simp only [head, Option.map_some, Option.getD_some, List.size_toArray] at filled
      exact filled.symm
    | succ i => exact outer.adjoining i inner outermost (by simpa using here) (by simpa using above)
  filled := tidy.size
  inside := by
    intro frame member
    rw [tidy.size]
    rcases List.mem_cons.mp member with rfl | below
    · exact Nat.le_refl _
    · have inside := outer.inside frame below
      simp only [List.size_toArray] at inside
      simp only [Layout.frame]
      omega
  cursor := by
    intro frame member
    rcases List.mem_cons.mp member with rfl | below
    · simp only [Layout.frame]
      omega
    · exact outer.cursor frame below
  blank := by
    intro frame member i free inside
    rcases List.mem_cons.mp member with rfl | below
    · exact tidy.blank_cell free inside
    · have bound := outer.inside frame below
      rw [List.size_toArray] at bound
      rw [l.slots_below (Nat.lt_of_lt_of_le inside bound)]
      exact outer.blank frame below i free inside
  frames_le := tidy.frames
  slots_le := by
    rw [tidy.size]
    exact tidy.slots

end Framed

theorem Nested.framed {limits : Limits} {waiting : List Suspended} {base : Nat} {dest : Destination}
    {frames : List Frame} {slots : Array Value}
    (nested : Nested limits .host waiting base dest frames slots) : Framed limits frames slots := by
  induction nested with
  | root => exact .empty limits
  | native _ ih => exact ih
  | frame _ _ tidy _ ih => exact ih.frame tidy

namespace Machine

/-- The states of a thread from its first call on. The host may call again once a call is over, and
change the world in between. -/
inductive Live (p : Program) (limits : Limits) : Machine → Prop
  | first (world : World) (callee : Callee) (args : Array Value) :
    Live p limits { thread := {}, world, control := .enter callee args }
  | step {machine : Machine} (before : Live p limits machine) :
    Live p limits (machine.next p limits)
  | again {machine : Machine} {result : Except CallError Value} (before : Live p limits machine)
    (finished : machine.result? = some result) (world : World) (callee : Callee)
    (args : Array Value) :
    Live p limits { thread := machine.thread, world, control := .enter callee args }

variable {p : Program} {limits : Limits} {root : Root} {machine : Machine}

theorem result?_eq_some {result : Except CallError Value}
    (finished : machine.result? = some result) :
    machine.control = .answer result ∧ machine.waiting = [] := by
  unfold result? at finished
  split at finished
  next answered idle => exact ⟨by rw [answered, Option.some.inj finished], idle⟩
  · contradiction

theorem Within.nested (within : Within limits root machine) :
    ∃ base dest, Nested limits root machine.waiting base dest machine.thread.frames
      machine.thread.slots := by
  cases within with
  | enter nested => exact ⟨_, _, nested⟩
  | execute nested => exact ⟨_, _, nested⟩
  | done nested => exact ⟨_, _, nested⟩
  | failed _ nested => exact ⟨_, _, nested⟩
  | answer nested => exact ⟨_, _, nested⟩

theorem Within.executing (within : Within limits root machine)
    (running : machine.control = .execute) :
    Nested limits root machine.waiting machine.base .push machine.thread.frames
      machine.thread.slots := by
  cases within with
  | execute nested => exact nested
  | _ => simp at running

theorem Within.ending (within : Within limits root machine) {v : Value}
    (ends : machine.control = .settle (.ok v)) :
    Nested limits root machine.waiting machine.base .host machine.thread.frames
      machine.thread.slots := by
  cases within with
  | done nested => exact nested
  | _ => simp at ends

theorem Within.eq_root (within : Within limits root machine)
    (answers : machine.Answers root.waiting) :
    machine.thread.frames = root.frames ∧ machine.thread.slots = root.slots := by
  obtain ⟨origin, result, answered⟩ := answers
  cases within with
  | answer nested =>
    dsimp only at origin
    rw [origin] at nested
    exact nested.eq_root
  | _ => simp at answered

/-- Nothing lies below a call from the host, so every step stays above it. -/
theorem next_within_host (within : Within limits .host machine) :
    Within limits .host (machine.next p limits) := by
  by_cases finished : machine.Answers Root.host.waiting
  · -- The host has its answer, and the machine stays as it is.
    obtain ⟨thread, world, waiting, base, control⟩ := machine
    obtain ⟨rfl, result, rfl⟩ := finished
    exact within
  · exact next_within p within finished

theorem Live.within (live : Live p limits machine) : Within limits .host machine := by
  induction live with
  | first world callee args => exact .enter .root
  | step _ ih => exact next_within_host ih
  | again _ finished world callee args ih =>
    obtain ⟨answered, idle⟩ := result?_eq_some finished
    obtain ⟨noFrames, noSlots⟩ := ih.eq_root ⟨idle, _, answered⟩
    refine .enter ?_
    rw [noFrames, noSlots]
    exact .root

end Machine

/-- In every state of a thread's life, for any program, natives and limits, the frames fill the
slots from the first slot on, one after the other; the cells above each operand stack are blank, and
the limits are kept. -/
theorem Machine.live_framed (p : Program) (limits : Limits) (machine : Machine)
    (live : Live p limits machine) : Framed limits machine.thread.frames machine.thread.slots := by
  obtain ⟨base, dest, nested⟩ := live.within.nested
  exact nested.framed

def Program.unverified : Program where
  functions := #[
    { name := "outer", module := "sample", minArgs := 0, maxArgs := 0, params := #[]
      defaults := #[]
      body := .bytecode
        { instructions := #[.plain (.push .one), .call true 1 1, .plain .ret], constants := #[]
          tables := #[]
          locals := 0, stack := 1 } },
    { name := "inner", module := "sample", minArgs := 1, maxArgs := 1, params := #["n"]
      defaults := #[]
      body := .bytecode
        { instructions := #[.plain (.push .one), .plain .popPair], constants := #[], tables := #[]
          locals := 1, stack := 1 } }]
  bound := #[none, none]
  globals := ∅
  names := ∅
  entry := none

def Thread.unverified : Thread where
  status := .running
  slots := #[.undefined, .int 1, .int 1]
  frames := [
    { function := 1, base := 1, locals := 1, limit := 3, tos := 3, place := 1, dest := .push },
    { function := 0, base := 0, locals := 0, limit := 1, tos := 0, place := 2, dest := .host }]

theorem Machine.live_framed_unverified :
    Live .unverified {} { thread := .unverified, world := default, control := .execute } ∧
      Framed {} Thread.unverified.frames Thread.unverified.slots := by
  have live :
      Live .unverified {} { thread := .unverified, world := default, control := .execute } :=
    (Live.first default (.id 0) #[]).step.step.step.step
  exact ⟨live, live_framed _ _ _ live⟩

inductive Machine.Visits (p : Program) (limits : Limits) (final : Machine → Prop) :
    Machine → Machine → Prop
  | start {machine : Machine} : Visits p limits final machine machine
  | step {machine later : Machine} (unfinished : ¬ final machine)
    (rest : Visits p limits final (machine.next p limits) later) :
    Visits p limits final machine later

theorem Machine.Visits.within {p : Program} {limits : Limits} {root : Root}
    {start machine : Machine} (visits : Visits p limits (Answers root.waiting) start machine)
    (first : Within limits root start) : Within limits root machine := by
  induction visits with
  | start => exact first
  | step unfinished _ ih => exact ih (next_within p first unfinished)

/-- A native asks for a call, of any function and with any arguments. In every state until the
native gets the result, what waits and lies below the call is untouched; when the native gets it, be
it a value or an error, the frames and the slots are exactly those of before. -/
theorem Machine.nested_call_neutral (p : Program) (limits : Limits) (machine : Machine)
    (native : Suspended) (others : List Suspended) (running : machine.waiting = native :: others)
    (callee : Callee) (args : Array Value) (later : Machine)
    (visits : Visits p limits (Answers machine.waiting)
      { machine with control := .enter callee args } later) :
    (machine.waiting <:+ later.waiting ∧ machine.thread.frames <:+ later.thread.frames ∧
      machine.thread.slots.toList <+: later.thread.slots.toList) ∧
    (later.Answers machine.waiting →
      later.thread.frames = machine.thread.frames ∧ later.thread.slots = machine.thread.slots) := by
  let root : Root :=
    { waiting := machine.waiting, frames := machine.thread.frames, slots := machine.thread.slots
      idle := fun none => by rw [running] at none; contradiction }
  have within : Within limits root later := visits.within (.enter .root)
  obtain ⟨base, dest, nested⟩ := within.nested
  exact ⟨nested.extends_root, within.eq_root⟩

def Machine.suspended (control : Control) : Machine where
  thread :=
    { status := .calling
      slots := #[.int 7]
      frames := [{ function := 0, base := 0, locals := 0, limit := 1, tos := 1, place := 1
                   dest := .host }] }
  world := default
  waiting := [{ name := "host.native", base := 0, landing := .push
                resume := fun _ world => .value world .null }]
  control

theorem Machine.nested_call_neutral_unverified :
    ∃ later, Visits .unverified {} (Answers (suspended .execute).waiting)
      (suspended (.enter (.id 1) #[.int 1])) later ∧
      later.Answers (suspended .execute).waiting ∧ later.thread.fault.isSome ∧
      later.thread.frames = (suspended .execute).thread.frames ∧
        later.thread.slots = #[.int 7] := by
  let start := suspended (.enter (.id 1) #[.int 1])
  let entered := start.next .unverified {}
  let pushed := entered.next .unverified {}
  let failed := pushed.next .unverified {}
  let final := failed.next .unverified {}
  have begins : start.control = .enter (.id 1) #[.int 1] := rfl
  have runs : entered.control = .execute := rfl
  have goes : pushed.control = .execute := rfl
  have fails :
    failed.control = .settle (.error (.runtime (.fault (.doesNotFit (.plain .popPair))))) := rfl
  have answers : final.Answers (suspended .execute).waiting := ⟨rfl, _, rfl⟩
  have faulty : final.thread.fault.isSome = true := by decide +kernel
  have going {machine : Machine} {control : Control} (known : machine.control = control)
      (working : ∀ result, control ≠ .answer result) : ¬ machine.Answers
        (suspended .execute).waiting :=
    fun answers => answers.2.elim fun result answered => working result (known.symm.trans answered)
  have visits : Visits .unverified {} (Answers (suspended .execute).waiting) start final :=
    .step (going begins (by simp)) (.step (going runs (by simp)) (.step (going goes (by simp))
      (.step (going fails (by simp)) .start)))
  have neutral := nested_call_neutral .unverified {} (suspended .execute) _ _ rfl
    (.id 1) #[.int 1] final visits
  exact ⟨final, visits, answers, faulty, neutral.2 answers⟩

end StackMachine
