import StackMachine.Proofs.ConfinedRuns

/-! How frames fill their slots. The operands of every frame keep to a realm; a local does so once
it has been assigned, and until then it is `undefined`. Nothing that a run does with its slots
changes that, so a realm need not have `undefined` inside. -/

namespace StackMachine

theorem Exec.pop_empty {l : Layout} {s : Store} (empty : l.operands = []) :
    pop (l.activation s) = .error (.fault .outsideRegion) (l.activation s) := by
  have atBottom : ¬ l.frame.bottom < l.frame.tos := by simp [Layout.frame, Frame.bottom, empty]
  simp [pop, Layout.activation, atBottom]

theorem Exec.popMany_few {l : Layout} {s : Store} {n : Nat} (few : l.operands.length < n) :
    popMany n (l.activation s) = .error (.fault .outsideRegion) (l.activation s) := by
  have above : ¬ l.frame.bottom + n ≤ l.frame.tos := by
    simp only [Layout.frame, Frame.bottom]
    omega
  simp [popMany, Layout.activation, above]

namespace Realm

variable {R : Realm} {frames callers : List Frame} {slots : Array Value} {l : Layout}

/-- The last part of the slots belongs to this frame. Its operands are inside, and so are the locals
that have been assigned. -/
structure Fills (R : Realm) (l : Layout) : Prop where
  operands : ∀ v ∈ l.operands, R.inside v
  locals : ∀ v ∈ l.locals, v.isUndefined = false → R.inside v
  last : l.above = []

inductive Filled (R : Realm) : List Frame → Array Value → Prop
  | idle : Filled R [] #[]
  | frame {callers : List Frame} {l : Layout} (fills : R.Fills l)
    (outer : Filled R callers l.below.toArray) : Filled R (l.frame :: callers) l.slots

theorem Filled.cell (filled : R.Filled frames slots) {frame : Frame} (member : frame ∈ frames)
    {i : Nat} (bottom : frame.bottom ≤ i) (top : i < frame.tos) :
    ∃ v, slots[i]? = some v ∧ R.inside v := by
  induction filled with
  | idle => contradiction
  | @frame callers l fills _ ih =>
    rcases List.mem_cons.mp member with rfl | outside
    · simp only [Layout.frame, Frame.bottom] at bottom top
      have place : i - (l.below.length + l.locals.length) < l.operands.reverse.length := by
        rw [List.length_reverse]
        omega
      refine ⟨l.operands.reverse[i - (l.below.length + l.locals.length)], ?_, ?_⟩
      · rw [Layout.slots, List.getElem?_toArray, List.getElem?_append_right (by simpa using bottom),
          List.length_append, List.getElem?_append_left place, List.getElem?_eq_getElem place]
      · exact fills.operands _ (List.mem_reverse.mp (List.getElem_mem place))
    · obtain ⟨v, there, within⟩ := ih outside
      have below : i < l.below.length := by simpa using (Array.getElem?_eq_some_iff.mp there).1
      exact ⟨v, by rw [l.slots_below below]; exact there, within⟩

/-- Dropping frames, down to one that is there. The slots may have a remainder of frames that were
dropped already. -/
theorem Filled.unwind_inner (filled : R.Filled frames slots) {count : Nat}
    (fewer : count < frames.length) (rest : Array Value) (status : Status)
    (fault : Option CallError) :
    let thread := Thread.unwind { status, slots := slots ++ rest, frames, fault } count
    R.Filled thread.frames thread.slots := by
  induction filled generalizing rest with
  | idle => contradiction
  | @frame callers l _ outer ih =>
    rcases Nat.lt_or_eq_of_le (Nat.le_of_lt_succ fewer) with inner | rfl
    · -- Nothing is cut off yet: what the frame had above its callers joins the remainder.
      have joined : l.slots ++ rest =
          l.below.toArray ++ ((l.locals ++ (l.operands.reverse ++ (l.free ++ l.above))).toArray ++
            rest) := by
        rw [← Array.append_assoc]
        simp [Layout.slots]
      rw [Thread.unwind_inner inner, joined]
      exact ih inner _
    · rw [Thread.unwind_last rfl, Pending.shrink_slots]
      exact outer

theorem Filled.unwind {thread : Thread} (filled : R.Filled thread.frames thread.slots)
    (count : Nat) : R.Filled (thread.unwind count).frames (thread.unwind count).slots := by
  obtain ⟨status, slots, frames, fault⟩ := thread
  rcases Nat.lt_or_ge count frames.length with fewer | all
  · simpa using filled.unwind_inner fewer #[] status fault
  · have none : frames.length - count = 0 := Nat.sub_eq_zero_of_le all
    simpa [Thread.unwind, none] using filled

theorem Filled.enter {thread : Thread} (filled : R.Filled thread.frames thread.slots) (id : UInt16)
    {code : Code Value} {given : Array Value} (dest : Destination) (fine : ∀ v ∈ given, R.inside v)
    (few : given.size ≤ code.locals.toNat) :
    R.Filled (thread.enter id code given dest).frames (thread.enter id code given dest).slots := by
  rw [Thread.enter_eq_opened _ _ _ few]
  refine .frame ⟨by simp [Layout.opened], fun v member defined => ?_, rfl⟩
    (by simpa [Layout.opened] using filled)
  rcases List.mem_append.mp member with passed | unassigned
  · exact fine v (Array.mem_toList_iff.mp passed)
  · rw [List.eq_of_mem_replicate unassigned] at defined
    contradiction

theorem Fills.after (fills : R.Fills l) (n : Nat) {put : List Value}
    (fine : ∀ v ∈ put, R.inside v) : R.Fills (l.after n put) := by
  refine ⟨fun v member => ?_, fills.locals, fills.last⟩
  rcases List.mem_append.mp member with new | old
  · exact fine v new
  · exact fills.operands v (List.mem_of_mem_drop old)

theorem Fills.assign (fills : R.Fills l) (place : Nat) {v : Value} (within : R.inside v) :
    R.Fills { l with locals := l.locals.set place v } := by
  refine ⟨fills.operands, fun w member defined => ?_, fills.last⟩
  rcases List.mem_or_eq_of_mem_set member with old | rfl
  · exact fills.locals w old defined
  · exact within

theorem covers_filled {s : Store} (holds : R.Holds s) (fills : R.Fills l)
    (outer : R.Filled callers l.below.toArray) : R.Covers R.Filled callers (l.activation s) :=
  ⟨holds, .frame fills outer⟩

theorem sustains_filled {α : Type} {act : Exec α} {good : α → Prop}
    (each : ∀ (l : Layout) (s : Store), R.Holds s → R.Fills l → R.Filled callers l.below.toArray →
      Sustained (R.Covers R.Filled callers) good (act (l.activation s))) :
    Sustains (R.Covers R.Filled callers) act good := by
  rintro ⟨frame, slots, store⟩ ⟨holds, filled⟩
  cases filled with
  | @frame _ l fills outer => exact each l store holds fills outer

theorem suits_filled (R : Realm) : R.Suits R.Filled where
  moved {frame callers slots} place filled := by
    cases filled with
    | @frame _ l fills outer =>
      exact .frame (l := { l with place }) ⟨fills.operands, fills.locals, fills.last⟩ outer
  push {callers v} within := by
    refine sustains_filled fun l s holds fills outer => ?_
    by_cases room : 0 < l.free.length
    · rw [Exec.push_layout v room]
      exact .ok (covers_filled holds (fills.after 0 (by simpa using within)) outer) trivial
    · rw [Exec.push_full v (by simpa using room)]
      exact .error (covers_filled holds fills outer)
  pop {callers} := by
    refine sustains_filled fun l s holds fills outer => ?_
    cases top : l.operands with
    | nil =>
      rw [Exec.pop_empty top]
      exact .error (covers_filled holds fills outer)
    | cons v rest =>
      rw [Exec.pop_layout top]
      refine .ok (covers_filled holds (fills.after 1 (by simp)) outer) (fills.operands v ?_)
      rw [top]
      exact List.mem_cons_self
  popMany {callers} n := by
    refine sustains_filled fun l s holds fills outer => ?_
    rcases Nat.lt_or_ge l.operands.length n with few | enough
    · rw [Exec.popMany_few few]
      exact .error (covers_filled holds fills outer)
    · rw [Exec.popMany_layout enough]
      refine .ok (covers_filled holds (fills.after n (by simp)) outer) fun v member =>
        fills.operands v ?_
      exact List.mem_of_mem_take (List.mem_reverse.mp (List.mem_toArray.mp member))
  readLocal {callers} slot := by
    refine sustains_filled fun l s holds fills outer => ?_
    cases there : l.locals[slot.toNat]? with
    | none =>
      rw [Exec.readLocal_outside (List.getElem?_eq_none_iff.mp there)]
      exact .error (covers_filled holds fills outer)
    | some v =>
      rw [Exec.readLocal_layout there]
      exact .ok (covers_filled holds fills outer) (fills.locals v (List.mem_of_getElem? there))
  writeLocal {callers v} slot within := by
    refine sustains_filled fun l s holds fills outer => ?_
    rcases Nat.lt_or_ge slot.toNat l.locals.length with inside | outside
    · rw [Exec.writeLocal_layout v inside]
      exact .ok (covers_filled holds (fills.assign slot.toNat within) outer) trivial
    · rw [Exec.writeLocal_outside v outside]
      exact .error (covers_filled holds fills outer)
  cleared := .idle
  opened id _ _ dest filled fine few := filled.enter id dest fine few
  left {frame callers slots} filled := by
    cases filled with
    | @frame _ l _ outer =>
      have shrunk : l.slots.shrink l.frame.base = l.below.toArray := by
        simpa using Pending.shrink_slots l #[]
      rw [shrunk]
      exact outer
  unwound count filled := filled.unwind count

end Realm

end StackMachine
