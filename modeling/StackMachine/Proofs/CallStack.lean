import StackMachine.Machine.Run
import StackMachine.Native.Core
import StackMachine.Proofs.Acceptance

/-! The frames of a thread during a call from the host. Each frame but the innermost waits for the
result of the call it made, and natives wait in between; together they form one chain down to the
host. Dropping the frames of the current call leaves a shorter chain of the same kind. -/

namespace StackMachine

def Unfaulted (result : Except CallError Value) : Prop :=
  ∀ error, result = .error error → error.kind ≠ .internalFault

def Failure.kind : Failure → ErrorKind
  | runtime error => error.kind
  | rethrown error => error.kind

/-- A native that reports no fault of its own, whatever the calls it asks for bring, as long as they
bring none. -/
inductive NativeStep.Harmless : NativeStep → Prop
  | value (world : World) (v : Value) : Harmless (.reply world (.value v))
  | failure (world : World) {failure : Failure} (harmless : failure.kind ≠ .internalFault) :
    Harmless (.reply world (.failure failure))
  | call (world : World) (callee : Callee) (args : Array Value)
    {resume : Except CallError Value → World → NativeStep}
    (harmless : ∀ result world, Unfaulted result → Harmless (resume result world)) :
    Harmless (.call world callee args resume)

theorem NativeCall.refuse_harmless (c : NativeCall) (world : World) (expected : String) :
    (c.refuse world expected).Harmless :=
  .failure world (by simp [Failure.kind, RuntimeError.kind])

theorem Registry.core_harmless {name : String} {native : Native} (known : core name = some native)
    (call : NativeCall) (world : World) : (native call world).Harmless := by
  unfold core at known
  split at known
  · obtain rfl := Option.some.inj known
    unfold Native.invoke
    split
    · refine .call _ _ _ fun result world unfaulted => ?_
      cases result with
      | ok v => exact .value world v
      | error error => exact .failure world (unfaulted error rfl)
    · exact call.refuse_harmless world _
  · obtain rfl := Option.some.inj known
    unfold Native.sleep
    split
    · split
      · exact call.refuse_harmless world _
      · split
        · exact .failure _ (by simp [Failure.kind, RuntimeError.kind])
        · exact .value world _
    · exact call.refuse_harmless world _
  · obtain rfl := Option.some.inj known
    exact .value _ _
  · obtain rfl := Option.some.inj known
    unfold Native.stackTrace
    dsimp only
    split
    · exact .value _ _
    · exact .value _ _
    · split
      · exact call.refuse_harmless world _
      · exact .value _ _
    · exact call.refuse_harmless world _
  · contradiction

def Destination.kept : Destination → Nat
  | push => 1
  | discard => 0
  | host => 0

/-- A frame of code `c` of the module, at the end of the slots. At its place the analysis expects
`kept` more cells than there are, and there is room for them. -/
structure Layout.Runs (m : Module Literal) (c : Code Literal) (kept : Nat) (l : Layout) : Prop where
  function : ∃ f, m.functions[l.function.toNat]? = some f ∧ f.code? = some c
  locals : l.locals.length = c.locals.toNat
  stack : l.operands.length + l.free.length = c.stack.toNat
  depth : c.depthAt? l.place = some (l.operands.length + kept)
  room : kept ≤ l.free.length
  last : l.above = []

/-- Who waits for the result of a call made at `dest`: the host, a native, or a frame. The current
call from the host or from the innermost native began with `base` frames. -/
inductive Pending (m : Module Literal) :
    List Suspended → Nat → Destination → List Frame → Array Value → Prop
  | host : Pending m [] 0 .host [] #[]
  | native {native : Suspended} {waiting : List Suspended} {frames : List Frame}
    {slots : Array Value}
    (harmless : ∀ result world, Unfaulted result → (native.resume result world).Harmless)
    (outer : Pending m waiting native.base native.landing frames slots) :
    Pending m (native :: waiting) frames.length .host frames slots
  | frame {waiting : List Suspended} {base : Nat} {dest : Destination} {callers : List Frame}
    {l : Layout} {c : Code Literal} (within : base ≤ callers.length) (awaited : dest ≠ .host)
    (runs : l.Runs m c dest.kept) (outer : Pending m waiting base l.dest callers l.below.toArray) :
    Pending m waiting base dest (l.frame :: callers) l.slots

namespace Pending

variable {m : Module Literal} {waiting : List Suspended} {base : Nat} {dest : Destination}
  {frames callers : List Frame}
  {slots : Array Value} {l : Layout} {thread : Thread}

theorem base_le (pending : Pending m waiting base dest frames slots) : base ≤ frames.length := by
  cases pending with
  | host => exact Nat.le_refl 0
  | native _ _ => exact Nat.le_refl _
  | frame within _ _ _ => exact Nat.le_succ_of_le within

theorem host_iff (pending : Pending m waiting base dest frames slots) :
    dest = .host ↔ frames.length = base := by
  cases pending with
  | host => simp
  | native _ _ => simp
  | frame within awaited _ _ => simp [awaited]; omega

theorem caller (pending : Pending m waiting base dest frames slots) (awaited : dest ≠ .host) :
    ∃ (l : Layout) (c : Code Literal) (callers : List Frame),
      frames = l.frame :: callers ∧ slots = l.slots ∧ base ≤ callers.length ∧
      l.Runs m c dest.kept ∧ Pending m waiting base l.dest callers l.below.toArray := by
  cases pending with
  | host => exact absurd rfl awaited
  | native _ _ => exact absurd rfl awaited
  | frame within _ runs outer => exact ⟨_, _, _, rfl, rfl, within, runs, outer⟩

theorem suspended {native : Suspended}
    (pending : Pending m (native :: waiting) base .host frames slots) :
    (∀ result world, Unfaulted result → (native.resume result world).Harmless) ∧
      Pending m waiting native.base native.landing frames slots := by
  cases pending with
  | native harmless outer => exact ⟨harmless, outer⟩
  | frame _ awaited _ _ => exact absurd rfl awaited

theorem shrink_slots (l : Layout) (above : Array Value) :
    (l.slots ++ above).shrink l.frame.base = l.below.toArray := by
  apply Array.toList_inj.mp
  simp [Layout.slots, Layout.frame]

/-- Dropping the frames of the current call, seen from its innermost frame. The slots may have a
remainder of frames that were dropped already. -/
theorem drop_frames (within : base ≤ callers.length)
    (pending : Pending m waiting base l.dest callers l.below.toArray) (rest : Array Value) :
    ∃ frame, ((l.frame :: callers).take (callers.length + 1 - base)).getLast? = some frame ∧
      Pending m waiting base .host ((l.frame :: callers).drop (callers.length + 1 - base))
        ((l.slots ++ rest).shrink frame.base) := by
  generalize direction : l.dest = dest at pending
  generalize lower : l.below.toArray = slots at pending
  induction pending generalizing l rest with
  | host =>
    refine ⟨l.frame, rfl, ?_⟩
    rw [shrink_slots, lower]
    exact .host
  | @native native waiting frames slots harmless outer =>
    have single : frames.length + 1 - frames.length = 1 := by omega
    refine ⟨l.frame, by simp [single], ?_⟩
    rw [shrink_slots, lower, single]
    exact .native harmless outer
  | @frame waiting base dest callers below c within' awaited runs outer ih =>
    obtain ⟨frame, found, dropped⟩ := ih (l := below) within'
      ((l.locals ++ (l.operands.reverse ++ (l.free ++ l.above))).toArray ++ rest) rfl rfl
    have more : (below.frame :: callers).length + 1 - base = callers.length + 1 - base + 1 := by
      simp only [List.length_cons]
      omega
    have joined : l.slots ++ rest =
        below.slots ++ ((l.locals ++ (l.operands.reverse ++ (l.free ++ l.above))).toArray ++
          rest) := by
      rw [← lower, ← Array.append_assoc]
      simp [Layout.slots]
    refine ⟨frame, ?_, ?_⟩
    · rw [more, List.take_succ_cons, List.getLast?_cons, found, Option.getD_some]
    · rw [more, List.drop_succ_cons, joined]
      exact dropped

def Left (m : Module Literal) (waiting : List Suspended) (base : Nat) (thread : Thread) : Prop :=
  ∃ frames slots, (∀ status fault,
    { thread with status, fault }.unwind base = { status, slots, frames, fault }) ∧
    Pending m waiting base .host frames slots

theorem left_of_frame (framed : thread.frames = l.frame :: callers)
    (slotted : thread.slots = l.slots) (within : base ≤ callers.length)
    (pending : Pending m waiting base l.dest callers l.below.toArray) :
    Left m waiting base thread := by
  obtain ⟨status, slots, frames, fault⟩ := thread
  obtain rfl : frames = l.frame :: callers := framed
  obtain rfl : slots = l.slots := slotted
  obtain ⟨frame, found, dropped⟩ := drop_frames within pending #[]
  rw [Array.append_empty] at dropped
  refine ⟨_, _, fun status fault => ?_, dropped⟩
  simp only [Thread.unwind, List.length_cons, found]

theorem left (pending : Pending m waiting base dest thread.frames thread.slots) :
    Left m waiting base thread := by
  by_cases resting : thread.frames.length = base
  · obtain rfl := pending.host_iff.mpr resting
    refine ⟨thread.frames, thread.slots, fun status fault => ?_, pending⟩
    simp [Thread.unwind, resting]
  · generalize framed : thread.frames = frames at pending resting
    generalize slotted : thread.slots = slots at pending
    cases pending with
    | host => exact absurd rfl resting
    | native _ _ => exact absurd rfl resting
    | frame within _ _ outer => exact left_of_frame framed slotted within outer

end Pending

end StackMachine
