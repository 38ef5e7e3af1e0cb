import StackMachine.Machine.Step

/-! The slots of a thread as one of its frames sees them: what lies below the frame, its locals, its
operands, its free cells, and what lies above. On slots laid out like this every part of an
instruction is an operation on lists, with no arithmetic on indices left. -/

namespace StackMachine

/-- Slots around a frame. The operands come with the top one first, everything else in the order of
the slots. -/
structure Layout where
  function : UInt16
  place : Nat
  dest : Destination
  below : List Value
  locals : List Value
  operands : List Value
  free : List Value
  above : List Value

namespace Layout

def frame (l : Layout) : Frame :=
  { function := l.function, base := l.below.length, locals := l.locals.length
    limit := l.below.length + l.locals.length + (l.operands.length + l.free.length)
    tos := l.below.length + l.locals.length + l.operands.length
    place := l.place, dest := l.dest }

def slots (l : Layout) : Array Value :=
  (l.below ++ l.locals ++ (l.operands.reverse ++ (l.free ++ l.above))).toArray

def activation (l : Layout) (s : Store) : Activation :=
  { frame := l.frame, slots := l.slots, store := s }

/-- Take operands off, leaving blank cells, then put others on. -/
def after (l : Layout) (taken : Nat) (put : List Value) : Layout :=
  { l with
    operands := put ++ l.operands.drop taken
    free := (List.replicate taken Value.undefined ++ l.free).drop put.length }

@[simp] theorem frame_depth (l : Layout) : l.frame.depth = l.operands.length := by
  simp only [Frame.depth, Frame.bottom, frame]
  omega

@[simp] theorem frame_capacity (l : Layout) :
    l.frame.capacity = l.operands.length + l.free.length := by
  simp only [Frame.capacity, Frame.bottom, frame]
  omega

@[simp] theorem slots_size (l : Layout) : l.slots.size =
    l.below.length + l.locals.length + (l.operands.length + (l.free.length + l.above.length)) := by
  simp [slots, Nat.add_assoc]

@[simp] theorem after_taken (l : Layout) (n m : Nat) (put : List Value) :
    (l.after n []).after m put = l.after (n + m) put := by
  simp [after, ← List.append_assoc, List.replicate_append_replicate, Nat.add_comm m n]

@[simp] theorem after_put (l : Layout) (n : Nat) (first second : List Value) :
    (l.after n first).after 0 second = l.after n (second ++ first) := by
  simp [after, Nat.add_comm first.length]

@[simp] theorem after_operands_length (l : Layout) (n : Nat) (put : List Value) :
    (l.after n put).operands.length = put.length + (l.operands.length - n) := by
  simp [after]

@[simp] theorem after_free_length (l : Layout) (n : Nat) (put : List Value) :
    (l.after n put).free.length = n + l.free.length - put.length := by
  simp [after]

theorem fits_iff (l : Layout) (i : Instruction) : l.frame.fits i = true ↔
    i.pops ≤ l.operands.length ∧ i.pushes ≤ i.pops + l.free.length := by
  simp only [Frame.fits, frame_depth, frame_capacity, Bool.and_eq_true, decide_eq_true_eq]
  omega

end Layout

namespace Exec

variable {o : UInt16} {place : Nat} {dest : Destination}
  {below locals operands free above : List Value} {s : Store}

@[simp] theorem advance_layout (l : Layout) (s : Store) :
    advance (l.activation s) = .ok { l with place := l.place + 1 }.frame
      ({ l with place := l.place + 1 }.activation s) :=
  rfl

@[simp] theorem jump_layout (target : Nat) (l : Layout) (s : Store) :
    jump target (l.activation s) = .ok () ({ l with place := target }.activation s) :=
  rfl

theorem set_middle {before after : List Value} {v w : Value} {n : Nat} (place : n = before.length) :
    (before ++ w :: after).toArray.setIfInBounds n v = (before ++ v :: after).toArray := by
  subst place
  simp

theorem get_middle {before after : List Value} {v : Value} {n : Nat} (place : n = before.length) :
    (before ++ v :: after).toArray[n]? = some v := by
  subst place
  simp

theorem slots_free (cell : Value) :
    Layout.slots ⟨o, place, dest, below, locals, operands, cell :: free, above⟩ =
    ((below ++ locals ++ operands.reverse) ++ cell :: (free ++ above)).toArray := by
  simp [Layout.slots]

theorem slots_top (v : Value) :
    Layout.slots ⟨o, place, dest, below, locals, v :: operands, free, above⟩ =
    ((below ++ locals ++ operands.reverse) ++ v :: (free ++ above)).toArray := by
  simp [Layout.slots]

theorem push_ok {frame : Frame} {slots : Array Value} (v : Value) (room : frame.tos < frame.limit)
    (inside : frame.tos < slots.size) :
    push v { frame, slots, store := s } =
      .ok ()
        { frame := { frame with tos := frame.tos + 1 }, slots := slots.setIfInBounds frame.tos v
          store := s } := by
  simp [push, room, inside]

theorem pop_ok {frame : Frame} {slots : Array Value} {v : Value}
    (occupied : frame.bottom < frame.tos) (top : slots[frame.tos - 1]? = some v) :
    pop { frame, slots, store := s } =
      .ok v { frame := { frame with tos := frame.tos - 1 }
              slots := slots.setIfInBounds (frame.tos - 1) .undefined, store := s } := by
  simp [pop, occupied, top]

theorem push_layout {l : Layout} (v : Value) (room : 0 < l.free.length) :
    push v (l.activation s) = .ok () ((l.after 0 [v]).activation s) := by
  obtain ⟨function, place, dest, below, locals, operands, free, above⟩ := l
  obtain ⟨cell, free, rfl⟩ := List.exists_cons_of_length_pos room
  have written :
    (Layout.slots ⟨function, place, dest, below, locals, operands, cell :: free,
    above⟩).setIfInBounds
      (below.length + locals.length + operands.length) v =
        Layout.slots ⟨function, place, dest, below, locals, v :: operands, free, above⟩ := by
    rw [slots_free, slots_top, set_middle (by simp [Nat.add_assoc])]
  unfold Layout.activation
  rw [push_ok v (by simp only [Layout.frame, List.length_cons]; omega)
    (by simp only [Layout.slots_size, List.length_cons, Layout.frame]; omega)]
  simp only [Layout.after, Layout.frame, written, List.length_cons, List.drop_zero,
    List.replicate_zero,
    List.nil_append, List.singleton_append, List.length_nil, List.drop_succ_cons,
    EStateM.Result.ok.injEq, Activation.mk.injEq, Frame.mk.injEq, true_and, and_true]
  omega

theorem pop_layout {l : Layout} {v : Value} {rest : List Value} (top : l.operands = v :: rest) :
    pop (l.activation s) = .ok v ((l.after 1 []).activation s) := by
  obtain ⟨function, place, dest, below, locals, operands, free, above⟩ := l
  obtain rfl : operands = v :: rest := top
  have middle : below.length + locals.length + (rest.length + 1) - 1 =
      (below ++ locals ++ rest.reverse).length := by
    simp only [List.length_append, List.length_reverse]
    omega
  have read : (Layout.slots ⟨function, place, dest, below, locals, v :: rest, free, above⟩)[
      below.length + locals.length + (rest.length + 1) - 1]? = some v := by
    rw [slots_top, get_middle middle]
  have written :
    (Layout.slots ⟨function, place, dest, below, locals, v :: rest, free, above⟩).setIfInBounds
      (below.length + locals.length + (rest.length + 1) - 1) .undefined =
        Layout.slots ⟨function, place, dest, below, locals, rest, .undefined :: free, above⟩ := by
    rw [slots_free, slots_top, set_middle middle]
  unfold Layout.activation
  rw [pop_ok (by simp only [Layout.frame, Frame.bottom, List.length_cons]; omega) read]
  simp only [Layout.after, Layout.frame, written, List.length_cons, List.drop_zero,
    List.replicate_one,
    List.nil_append, List.singleton_append, List.length_nil, List.drop_succ_cons,
    EStateM.Result.ok.injEq, Activation.mk.injEq, Frame.mk.injEq, true_and, and_true]
  omega

theorem blank_middle (before taken after : List Value) :
    blank (before ++ (taken ++ after)).toArray before.length taken.length =
      (before ++ (List.replicate taken.length Value.undefined ++ after)).toArray := by
  induction taken generalizing before with
  | nil => simp [blank]
  | cons v rest ih =>
    have step := ih (before ++ [Value.undefined])
    rw [List.length_cons, blank, List.cons_append, set_middle rfl]
    simpa [List.replicate_succ] using step

theorem extract_middle (before taken after : List Value) :
    (before ++ (taken ++ after)).toArray.extract before.length (before.length + taken.length) =
      taken.toArray := by
  simp

theorem popMany_ok {frame : Frame} {slots : Array Value} {n : Nat}
    (occupied : frame.bottom + n ≤ frame.tos) (inside : frame.tos ≤ slots.size) :
    popMany n { frame, slots, store := s } =
      .ok (slots.extract (frame.tos - n) frame.tos)
        { frame := { frame with tos := frame.tos - n }, slots := blank slots (frame.tos - n) n
          store := s } := by
  simp [popMany, occupied, inside]

theorem popMany_layout {l : Layout} {n : Nat} (enough : n ≤ l.operands.length) :
    popMany n (l.activation s) =
      .ok (l.operands.take n).reverse.toArray ((l.after n []).activation s) := by
  obtain ⟨function, place, dest, below, locals, operands, free, above⟩ := l
  obtain ⟨taken, rest, rfl, rfl⟩ : ∃ taken rest, operands = taken ++ rest ∧ n = taken.length :=
    ⟨operands.take n, operands.drop n, (List.take_append_drop n operands).symm, by
      simpa using (Nat.min_eq_left enough).symm⟩
  have start : below.length + locals.length + (taken ++ rest).length - taken.length =
      (below ++ locals ++ rest.reverse).length := by
    simp only [List.length_append, List.length_reverse]
    omega
  have stop : below.length + locals.length + (taken ++ rest).length =
      (below ++ locals ++ rest.reverse).length + taken.reverse.length := by
    simp only [List.length_append, List.length_reverse]
    omega
  have laid : Layout.slots ⟨function, place, dest, below, locals, taken ++ rest, free, above⟩ =
      ((below ++ locals ++ rest.reverse) ++ (taken.reverse ++ (free ++ above))).toArray := by
    simp [Layout.slots]
  have blanked := blank_middle (below ++ locals ++ rest.reverse) taken.reverse (free ++ above)
  rw [List.length_reverse] at blanked
  have read :
    (Layout.slots ⟨function, place, dest, below, locals, taken ++ rest, free, above⟩).extract
      (below.length + locals.length + (taken ++ rest).length - taken.length)
      (below.length + locals.length + (taken ++ rest).length) = taken.reverse.toArray := by
    rw [laid, start, stop, extract_middle]
  have written :
    blank (Layout.slots ⟨function, place, dest, below, locals, taken ++ rest, free, above⟩)
      (below.length + locals.length + (taken ++ rest).length - taken.length) taken.length =
        Layout.slots
          ⟨function, place, dest, below, locals, rest, List.replicate taken.length .undefined ++
            free, above⟩ := by
    rw [laid, start, blanked]
    simp [Layout.slots]
  unfold Layout.activation
  rw [popMany_ok (by simp only [Layout.frame, Frame.bottom, List.length_append]; omega)
    (by simp [Layout.frame])]
  simp only [Layout.after, Layout.frame, read, written, List.take_left, List.drop_left,
    List.nil_append,
    List.length_nil, List.drop_zero, EStateM.Result.ok.injEq, Activation.mk.injEq, Frame.mk.injEq,
      true_and, and_true]
  simp only [List.length_append, List.length_replicate]
  omega

theorem pushMany_layout {l : Layout} (values : List Value) (room : values.length ≤ l.free.length) :
    pushMany values.toArray (l.activation s) =
      .ok () ((l.after 0 values.reverse).activation s) := by
  induction values generalizing l with
  | nil => rfl
  | cons v rest ih =>
    have fewer : rest.length ≤ (l.after 0 [v]).free.length := by
      simp only [List.length_cons] at room
      simp [Layout.after]
      omega
    have pushed := push_layout (s := s) v (Nat.lt_of_lt_of_le (Nat.succ_pos _) room)
    have others := ih fewer
    simp only [pushMany, List.forM_eq_forM] at others ⊢
    simp only [List.forM_cons, bind, EStateM.bind, pushed, others]
    simp

theorem readLocal_layout {l : Layout} {slot : UInt16} {v : Value}
    (there : l.locals[slot.toNat]? = some v) :
    readLocal slot (l.activation s) = .ok v (l.activation s) := by
  obtain ⟨inside, value⟩ := List.getElem?_eq_some_iff.mp there
  have read : l.slots[l.below.length + slot.toNat]? = some v := by
    simp [Layout.slots, List.getElem?_append_right, List.getElem?_append_left, inside, value]
  simp [readLocal, Layout.activation, Layout.frame, inside, read]

theorem readLocal_outside {l : Layout} {slot : UInt16} (outside : l.locals.length ≤ slot.toNat) :
    readLocal slot (l.activation s) = .error (.fault (.localOutOfRange slot.toNat))
      (l.activation s) := by
  simp [readLocal, Layout.activation, Layout.frame, Nat.not_lt.mpr outside]

theorem writeLocal_layout {l : Layout} {slot : UInt16} (v : Value)
    (inside : slot.toNat < l.locals.length) :
    writeLocal slot v (l.activation s) =
      .ok () ({ l with locals := l.locals.set slot.toNat v }.activation s) := by
  have written : l.slots.setIfInBounds (l.below.length + slot.toNat) v =
      { l with locals := l.locals.set slot.toNat v }.slots := by
    simp [Layout.slots, List.set_append_right, List.set_append_left, inside]
  simp [writeLocal, Layout.activation, Layout.frame, inside, written]
  omega

theorem writeLocal_outside {l : Layout} {slot : UInt16} (v : Value)
    (outside : l.locals.length ≤ slot.toNat) :
    writeLocal slot v (l.activation s) = .error (.fault (.localOutOfRange slot.toNat))
      (l.activation s) := by
  simp [writeLocal, Layout.activation, Layout.frame, Nat.not_lt.mpr outside]

end Exec

end StackMachine
