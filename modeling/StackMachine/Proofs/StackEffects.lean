import StackMachine.Proofs.CallReturns

/-! The declared stack effects of the instructions are exact. In any region with a cursor in it
where an instruction fits, the instruction stays inside the region and takes off and puts on just
the cells it declares; for a call this holds once the call is over. -/

namespace StackMachine

namespace Layout

variable (l : Layout)

theorem slots_local {n : Nat} (inside : n < l.locals.length) :
    l.slots[l.below.length + n]? = l.locals[n]? := by
  simp [slots, List.getElem?_append_left, List.getElem?_append_right, inside]

theorem slots_operand {n : Nat} (inside : n < l.operands.length) :
    l.slots[l.frame.bottom + n]? = l.operands.reverse[n]? := by
  have start : l.frame.bottom = (l.below ++ l.locals).length := by simp [Frame.bottom, frame]
  rw [slots, start, List.getElem?_toArray, List.getElem?_append_right (Nat.le_add_right _ _),
    Nat.add_sub_cancel_left, List.getElem?_append_left (by rwa [List.length_reverse])]

theorem slots_above (n : Nat) : l.slots[l.frame.limit + n]? = l.above[n]? := by
  have laid : l.slots = (l.below ++ l.locals ++ l.operands.reverse ++ l.free ++ l.above).toArray :=
    by simp [slots]
  have stop : l.frame.limit = (l.below ++ l.locals ++ l.operands.reverse ++ l.free).length := by
    simp [frame, Nat.add_assoc]
  rw [laid, stop, List.getElem?_toArray, List.getElem?_append_right (Nat.le_add_right _ _),
    Nat.add_sub_cancel_left]

theorem after_reverse {taken n : Nat} (put : List Value) (deep : n < l.operands.length - taken) :
    (l.after taken put).operands.reverse[n]? = l.operands.reverse[n]? := by
  have kept : n < (l.operands.drop taken).reverse.length := by
    rwa [List.length_reverse, List.length_drop]
  have whole : l.operands.reverse = (l.operands.drop taken).reverse ++ (l.operands.take
      taken).reverse := by
    rw [← List.reverse_append, List.take_append_drop]
  rw [after, List.reverse_append, List.getElem?_append_left kept, whole,
    List.getElem?_append_left kept]

end Layout

namespace Activation

/-- The region lies inside the slots, and the cursor in the region, above the locals. -/
structure Placed (a : Activation) : Prop where
  above : a.frame.bottom ≤ a.frame.tos
  within : a.frame.tos ≤ a.frame.limit
  inside : a.frame.limit ≤ a.slots.size

def SameOutside (a b : Activation) : Prop :=
  ∀ n, n < a.frame.base ∨ a.frame.limit ≤ n → b.slots[n]? = a.slots[n]?

/-- The cursor has moved by the declared effect of the instruction. Nothing has changed outside the
region, nor below the cells that the instruction takes off, except the local it writes. -/
structure Exchanges (a : Activation) (i : Instruction) (b : Activation) : Prop where
  frame : b.frame = { a.frame with tos := a.frame.tos - i.pops + i.pushes }
  size : b.slots.size = a.slots.size
  operands : ∀ n < a.frame.depth - i.pops,
    b.slots[a.frame.bottom + n]? = a.slots[a.frame.bottom + n]?
  locals : ∀ n < a.frame.locals, (∀ slot, i.written? = some slot → slot.toNat ≠ n) →
    b.slots[a.frame.base + n]? = a.slots[a.frame.base + n]?
  outside : a.SameOutside b

theorem Placed.exists_layout {a : Activation} (placed : a.Placed) :
    ∃ l : Layout, a = l.activation a.store := by
  obtain ⟨⟨function, base, locals, limit, tos, place, dest⟩, ⟨cells⟩, store⟩ := a
  obtain ⟨above, within, inside⟩ := placed
  simp only [Frame.bottom, List.size_toArray] at above within inside
  have split (cells : List Value) (n : Nat) (enough : n ≤ cells.length) :
      ∃ first rest, cells = first ++ rest ∧ first.length = n :=
    ⟨cells.take n, cells.drop n, (List.take_append_drop n cells).symm,
      List.length_take_of_le enough⟩
  obtain ⟨below, rest, rfl, rfl⟩ := split cells base (by omega)
  rw [List.length_append] at inside
  obtain ⟨named, rest, rfl, rfl⟩ := split rest locals (by omega)
  rw [List.length_append] at inside
  obtain ⟨operands, rest, rfl, count⟩ := split rest (tos - (below.length + named.length)) (by omega)
  rw [List.length_append] at inside
  obtain ⟨free, rest, rfl, left⟩ := split rest (limit - tos) (by omega)
  refine ⟨⟨function, place, dest, below, named, operands.reverse, free, rest⟩, ?_⟩
  have cursor : tos = below.length + named.length + operands.length := by omega
  have ending : limit = below.length + named.length + (operands.length + free.length) := by omega
  simp [Layout.activation, Layout.frame, Layout.slots, cursor, ending]

end Activation

namespace Layout

variable {l l' : Layout} {i : Instruction} {b : Activation} {s s' : Store}

theorem sameOutside (below : l'.below = l.below) (above : l'.above = l.above)
    (limit : l'.frame.limit = l.frame.limit) : (l.activation s).SameOutside (l'.activation s') := by
  rintro n (before | after)
  · change l'.slots[n]? = l.slots[n]?
    have before' : n < l'.below.length := by rwa [below]
    rw [l.slots_below before, l'.slots_below before', below]
  · change l'.slots[n]? = l.slots[n]?
    obtain ⟨m, rfl⟩ := Nat.exists_eq_add_of_le after
    have after' := l'.slots_above m
    rw [limit] at after'
    change l'.slots[l.frame.limit + m]? = l.slots[l.frame.limit + m]?
    rw [after', l.slots_above, above]

/-- Cells move between the stack and the free ones; only the cursor shows it. -/
theorem after_frame {taken : Nat} (put locals : List Value) (enough : taken ≤ l.operands.length)
    (room : put.length ≤ taken + l.free.length) (length : locals.length = l.locals.length) :
    { l.after taken put with locals }.frame =
      { l.frame with tos := l.frame.tos - taken + put.length } := by
  have operands := l.after_operands_length taken put
  have free := l.after_free_length taken put
  have below : (l.after taken put).below = l.below := rfl
  have limit : (l.after taken put).operands.length + (l.after taken put).free.length =
      l.operands.length + l.free.length := by omega
  have cursor : l.below.length + l.locals.length + (l.after taken put).operands.length =
      l.below.length + l.locals.length + l.operands.length - taken + put.length := by omega
  simp only [frame, below, length, limit, cursor]
  rfl

theorem Reduced.sameOutside (reduced : l.Reduced i b) (enough : i.pops ≤ l.operands.length) :
    (l.activation s).SameOutside b := by
  obtain ⟨n, s', some, rfl⟩ := reduced
  have frame := after_frame [] l.locals (Nat.le_trans some enough) (Nat.zero_le _) rfl
  exact Layout.sameOutside rfl rfl (congrArg Frame.limit frame :)

theorem Exchanged.exchanges (exchanged : l.Exchanged i b) (enough : i.pops ≤ l.operands.length)
    (room : i.pushes ≤ i.pops + l.free.length) : (l.activation s).Exchanges i b := by
  obtain ⟨put, locals, s', count, length, same, rfl⟩ := exchanged
  let after : Layout := { l.after i.pops put with locals }
  have frame : after.frame = { l.frame with tos := l.frame.tos - i.pops + put.length } :=
    after_frame put locals enough (by omega) length
  constructor
  case frame =>
    rw [← count]
    exact frame
  case size =>
    change after.slots.size = l.slots.size
    simp only [after, slots_size, after_operands_length, after_free_length, length, count]
    have below : (l.after i.pops put).below = l.below := rfl
    have above : (l.after i.pops put).above = l.above := rfl
    rw [below, above]
    omega
  case operands =>
    intro n deep
    have deep : n < l.operands.length - i.pops := by simpa [activation] using deep
    have bottom : after.frame.bottom = l.frame.bottom := by rw [frame]; rfl
    have moved := after.slots_operand (n := n) (by simp [after]; omega)
    rw [bottom] at moved
    change after.slots[l.frame.bottom + n]? = l.slots[l.frame.bottom + n]?
    rw [moved, l.slots_operand (by omega)]
    exact l.after_reverse put deep
  case locals =>
    intro n inside other
    change after.slots[l.below.length + n]? = l.slots[l.below.length + n]?
    have moved := after.slots_local (n := n) (by rw [length]; exact inside)
    rw [l.slots_local inside, ← same n other]
    exact moved
  case outside => exact Layout.sameOutside rfl rfl (congrArg Frame.limit frame :)

end Layout

namespace Instruction

theorem execute_exchanges (p : Program) (code : Code Value) {i : Instruction} {a : Activation}
    (placed : a.Placed) (fits : a.frame.fits i = true)
    (noCall : ∀ keep function argc, i ≠ .call keep function argc) :
    (i.execute p code).Ends a (fun _ b => a.Exchanges i b) fun e b =>
      e ≠ .fault .outsideRegion ∧ a.SameOutside b := by
  obtain ⟨l, laid⟩ := placed.exists_layout
  rw [laid] at fits ⊢
  obtain ⟨enough, room⟩ := (l.fits_iff i).mp fits
  refine (execute_effect p code a.store noCall fits).mono (fun flow b completed => ?_)
    fun e b failed => ?_
  · exact completed.2.exchanges enough room
  · obtain ⟨reduced, blames⟩ := failed
    exact ⟨fun same => blames _ same, reduced.sameOutside enough⟩

end Instruction

theorem Activation.Exchanges.depth_eq {a b : Activation} {i : Instruction}
    (exchanges : a.Exchanges i b) (placed : a.Placed) (fits : a.frame.fits i = true) :
    (b.frame.depth : Int) = a.frame.depth + i.stackDelta := by
  have above := placed.above
  have bottom : b.frame.bottom = a.frame.bottom := by rw [exchanges.frame]; rfl
  have cursor : b.frame.tos = a.frame.tos - i.pops + i.pushes := by rw [exchanges.frame]
  have enough : i.pops ≤ a.frame.tos - a.frame.bottom :=
    of_decide_eq_true (Bool.and_eq_true_iff.mp fits).1
  simp only [Frame.depth, bottom, cursor, Instruction.stackDelta]
  omega

namespace Machine

structure Fetched (p : Program) (code : Code Value) (i : Instruction) (a : Activation)
    (callers : List Frame) (machine : Machine) : Prop where
  running : machine.control = .execute
  framed : machine.thread.frames = a.frame :: callers
  slotted : machine.thread.slots = a.slots
  body : p.code? a.frame.function = some code
  here : code.instructions[a.frame.place]? = some i

variable {p : Program} {limits : Limits} {machine : Machine} {a : Activation} {callers : List Frame}
  {code : Code Value}

theorem Fetched.call_returns {keep : Bool} {function : UInt16} {argc : UInt8}
    (fetched : machine.Fetched p code (.call keep function argc) a callers) (placed : a.Placed)
    (fits : a.frame.fits (.call keep function argc) = true) {last : Machine}
    (comes : Comes p limits (Back machine.waiting machine.thread.depth)
      (machine.next p limits) last)
    (running : last.control = .execute) :
    last.thread.frames =
      { a.frame with place := a.frame.place + 1, tos := a.frame.tos - argc.toNat + keep.toNat } ::
        callers := by
  obtain ⟨l, laid⟩ := placed.exists_layout
  obtain ⟨frame, slots, store⟩ := a
  obtain ⟨rfl, rfl⟩ : frame = l.frame ∧ slots = l.slots :=
    ⟨congrArg Activation.frame laid, congrArg Activation.slots laid⟩
  obtain ⟨enough, room⟩ := (l.fits_iff _).mp fits
  let onward : Layout := { l with place := l.place + 1 }
  let r : Caller :=
    { waiting := machine.waiting, base := machine.base, dest := if keep then .push else .discard
      frame := (onward.after argc.toNat []).frame, callers, awaited := by cases keep <;> simp }
  have begun : Stands r (machine.next p limits) := by
    rw [next_eq_perform fetched.running fetched.framed fetched.body fetched.here,
      perform_call_eq fetched.framed fetched.slotted code keep function enough room]
    apply invoke_stands
    exact Above.caller (r := r)
  have depth : machine.thread.depth = r.callers.length + 1 := congrArg List.length fetched.framed
  rw [depth] at comes
  have kept : r.dest.kept = keep.toNat := by cases keep <;> rfl
  have popped : r.frame = { onward.frame with tos := onward.frame.tos - argc.toNat } :=
    Layout.after_frame (l := onward) [] onward.locals enough (Nat.zero_le _) rfl
  rw [begun.frames_eq comes running, Caller.resumed, kept, popped]
  rfl

theorem Fetched.call_depth {keep : Bool} {function : UInt16} {argc : UInt8}
    (fetched : machine.Fetched p code (.call keep function argc) a callers) (placed : a.Placed)
    (fits : a.frame.fits (.call keep function argc) = true) {last : Machine}
    (comes : Comes p limits (Back machine.waiting machine.thread.depth)
      (machine.next p limits) last)
    (running : last.control = .execute) : ∃ frame, last.thread.frames = frame :: callers ∧
      (frame.depth : Int) = a.frame.depth + (Instruction.call keep function argc).stackDelta := by
  refine ⟨_, fetched.call_returns placed fits comes running, ?_⟩
  have above := placed.above
  have enough : argc.toNat ≤ a.frame.tos - a.frame.bottom :=
    of_decide_eq_true (Bool.and_eq_true_iff.mp fits).1
  simp only [Frame.depth, Frame.bottom, Instruction.stackDelta, Instruction.pops,
    Instruction.pushes] at *
  omega

end Machine

/-- In any region and for any cursor where an instruction fits, in any code and program. The
instruction makes no access outside the region, whether it succeeds or fails. If it is no call and
succeeds, the depth has changed by the declared effect, and the operands below those it takes off
and all locals but the written one are as they were. A call leaves the memory alone; when the call
is over and the frame goes on, the depth has changed by the declared effect. -/
theorem Instruction.stack_effect_exact (p : Program) (code : Code Value) (i : Instruction)
    (a : Activation) (placed : a.Placed) (fits : a.frame.fits i = true) :
    (∀ e b, i.execute p code a = .error e b → e ≠ .fault .outsideRegion ∧ a.SameOutside b) ∧
    (∀ flow b, i.execute p code a = .ok flow b →
      ((∀ keep function argc, i ≠ .call keep function argc) →
        (b.frame.depth : Int) = a.frame.depth + i.stackDelta ∧ a.Exchanges i b) ∧
      ∀ keep function argc, i = .call keep function argc → b = a) ∧
    ∀ keep function argc, i = .call keep function argc →
      ∀ limits machine callers, Machine.Fetched p code i a callers machine → ∀ last,
        Machine.Comes p limits (Machine.Back machine.waiting machine.thread.depth)
          (machine.next p limits) last →
        last.control = .execute →
          ∃ frame, last.thread.frames = frame :: callers ∧
            (frame.depth : Int) = a.frame.depth + i.stackDelta := by
  refine ⟨fun e b failed => ?_, fun flow b done => ⟨fun noCall => ?_, ?_⟩, ?_⟩
  · have noCall : ∀ keep function argc, i ≠ .call keep function argc := by
      rintro keep function argc rfl
      contradiction
    have ends := execute_exchanges p code placed fits noCall
    rw [Exec.Ends, failed] at ends
    exact ends
  · have ends := execute_exchanges p code placed fits noCall
    rw [Exec.Ends, done] at ends
    exact ⟨ends.depth_eq placed fits, ends⟩
  · rintro keep function argc rfl
    exact (EStateM.Result.ok.inj done).2.symm
  · rintro keep function argc rfl limits machine callers fetched last comes running
    exact fetched.call_depth placed fits comes running

def Code.relayed : Code Value where
  instructions := #[.plain (.push .one), .plain (.push .one), .call true 1 2, .plain .ret]
  constants := #[]
  tables := #[]
  locals := 0
  stack := 2

def Program.relayed : Program where
  functions := #[
    { name := "outer", module := "sample", minArgs := 0, maxArgs := 0, params := #[]
      defaults := #[]
      body := .bytecode .relayed },
    { name := "native", module := "host", minArgs := 2, maxArgs := 2, params := #["m", "n"]
      defaults := #[]
      body := .native },
    { name := "inner", module := "sample", minArgs := 0, maxArgs := 0, params := #[]
      defaults := #[]
      body := .bytecode
        { instructions := #[.short 7, .plain .ret], constants := #[], tables := #[], locals := 0
          stack := 1 } }]
  bound := #[none, some fun _ world => .call world (.id 2) #[] NativeStep.relay, none]
  globals := ∅
  names := ∅
  entry := none

def Activation.relayed : Activation where
  frame := { function := 0, base := 0, locals := 0, limit := 2, tos := 2, place := 2
             dest := .host }
  slots := #[.int 1, .int 1]
  store := {}

def Machine.relayed : Machine where
  thread := { status := .running, slots := Activation.relayed.slots
              frames := [Activation.relayed.frame] }
  world := default
  control := .execute

theorem Machine.relayed_comes : Comes .relayed {} (Back [] 1) (relayed.next .relayed {})
    { thread :=
        { status := .running, slots := #[.int 7, .undefined]
          frames := [{ function := 0, base := 0, locals := 0, limit := 2, tos := 1, place := 3
                       dest := .host }] }
      world := default, control := .execute } := by
  let caller : Frame :=
    { function := 0, base := 0, locals := 0, limit := 2, tos := 0, place := 3, dest := .host }
  let inner : Frame :=
    { function := 2, base := 2, locals := 0, limit := 3, tos := 2, place := 0, dest := .host }
  let native : Suspended :=
    { name := "host.native", base := 0, landing := .push, resume := NativeStep.relay }
  let state (base : Nat) (thread : Thread) (control : Control) : Machine :=
    { thread, world := default, waiting := [native], base, control }
  let asking : Thread :=
    { status := .calling, slots := #[.undefined, .undefined], frames := [caller] }
  let entered : Thread :=
    { status := .calling, slots := #[.undefined, .undefined, .undefined]
      frames := [inner, caller] }
  let pushed : Thread :=
    { status := .running, slots := #[.undefined, .undefined, .int 7]
      frames := [{ inner with tos := 3, place := 1 }, caller] }
  have first : relayed.next .relayed {} = state 0 asking (.enter (.id 2) #[]) := rfl
  have second : (state 0 asking (.enter (.id 2) #[])).next .relayed {} = state 1 entered .execute :=
    rfl
  have third : (state 1 entered .execute).next .relayed {} = state 1 pushed .execute := rfl
  have fourth : (state 1 pushed .execute).next .relayed {} =
      state 1 { asking with status := .returning } (.settle (.ok (.int 7))) := rfl
  have fifth : (state 1 { asking with status := .returning } (.settle (.ok (.int 7)))).next .relayed
    {} = state 1 { asking with status := .running } (.answer (.ok (.int 7))) := rfl
  have waits (base : Nat) (thread : Thread) (control : Control) :
      ¬ Back [] 1 (state base thread control) := by
    have busy : ([] : List Suspended).length < (state base thread control).waiting.length :=
      Nat.one_pos
    exact not_back_of_longer busy 1
  rw [first]
  refine .step (waits _ _ _) ?_
  rw [second]
  refine .step (waits _ _ _) ?_
  rw [third]
  refine .step (waits _ _ _) ?_
  rw [fourth]
  refine .step (waits _ _ _) ?_
  rw [fifth]
  refine .step (waits _ _ _) ?_
  exact comes_here ⟨rfl, .inl ⟨rfl, rfl⟩⟩

theorem Instruction.stack_effect_exact_relayed :
    Activation.relayed.Placed ∧ Activation.relayed.frame.fits (.call true 1 2) = true ∧
      Activation.relayed.frame.fits (.plain .popPair) = true ∧
      Machine.Fetched .relayed .relayed (.call true 1 2) .relayed [] .relayed ∧
      (∃ last frame, Machine.Comes .relayed {} (Machine.Back [] 1)
        (Machine.relayed.next .relayed {}) last ∧
        last.control = .execute ∧ last.thread.frames = [frame] ∧
        (frame.depth : Int) =
          Activation.relayed.frame.depth + (Instruction.call true 1 2).stackDelta) ∧
      ∃ b, (Instruction.plain .popPair).execute .relayed .relayed .relayed = .ok .next b ∧
        (b.frame.depth : Int) =
          Activation.relayed.frame.depth + (Instruction.plain .popPair).stackDelta := by
  have placed : Activation.relayed.Placed := ⟨by decide, by decide, by decide⟩
  have fetched : Machine.Fetched .relayed .relayed (.call true 1 2) .relayed [] .relayed :=
    ⟨rfl, rfl, rfl, rfl, rfl⟩
  have fits : Activation.relayed.frame.fits (.call true 1 2) = true := by decide
  have fits' : Activation.relayed.frame.fits (.plain .popPair) = true := by decide
  have popped : (Instruction.plain .popPair).execute .relayed .relayed .relayed = .ok .next
      { frame := { function := 0, base := 0, locals := 0, limit := 2, tos := 0, place := 2
                   dest := .host }
        slots := #[.undefined, .undefined], store := {} } := rfl
  obtain ⟨frame, framed, depth⟩ :=
    (stack_effect_exact .relayed .relayed _ _ placed fits).2.2 true 1 2 rfl {} _ _ fetched _
      Machine.relayed_comes rfl
  obtain ⟨depth', _⟩ :=
    ((stack_effect_exact .relayed .relayed _ _ placed fits').2.1 _ _ popped).1 (by simp)
  exact ⟨placed, fits, fits', fetched, ⟨_, frame, Machine.relayed_comes, rfl, framed, depth⟩, _,
    popped, depth'⟩

end StackMachine
