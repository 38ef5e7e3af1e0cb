import StackMachine.Proofs.RoundTrip

/-! Streams of instructions. The bytes of an instruction say where it ends, whatever follows. So a
stream of any length is read back instruction by instruction from wherever it stands, and what was
read is written back as the bytes it was read from. -/

namespace StackMachine

namespace Reader

-- A stream may be longer than any count, so the codecs, which bound the input, give only one
-- direction.
theorem uint8_of_past {n : UInt8} {c c' : Cursor} (past : c.Past (Bytes.uint8 n) c') :
    uint8 c = .ok (n, c') := by
  have past : c.Past (Bytes.littleEndian 1 n.toNat) c' := by
    simpa [Bytes.littleEndian, Bytes.uint8] using past
  refine (bind_of_ok (number_eq_ok.mpr ⟨Bytes.fits_one.mpr n.toNat_lt, past⟩)).trans ?_
  rw [UInt8.ofNat_toNat]
  rfl

theorem uint32_of_past {n : UInt32} {c c' : Cursor} (past : c.Past (Bytes.uint32 n) c') :
    uint32 c = .ok (n, c') := by
  refine (bind_of_ok (number_eq_ok.mpr ⟨Bytes.fits_four.mpr n.toNat_lt, past⟩)).trans ?_
  rw [UInt32.ofNat_toNat]
  rfl

theorem operand_of_past {i : Instruction} {c c' : Cursor} (past : c.Past i.operandBytes c') :
    operand i.opcode c = .ok (i, c') := by
  cases i with
  | plain op => rw [Cursor.Past.nil_iff.mp past]; rfl
  | short value =>
    refine (bind_of_ok (uint16_eq_ok.mpr past)).trans ?_
    rw [Int16.toInt16_toUInt16]
    rfl
  | wide op index => exact bind_of_ok (uint16_eq_ok.mpr past)
  | call keep function argc =>
    obtain ⟨d, first, second⟩ := past.split
    exact (bind_of_ok (uint16_eq_ok.mpr first)).trans (bind_of_ok (uint8_of_past second))
  | jump op target => exact bind_of_ok (uint32_of_past past)

theorem instruction_eq_ok {i : Instruction} {c c' : Cursor} :
    instruction c = .ok (i, c') ↔ c.Past i.encode c' := by
  refine ⟨fun ok => ?_, fun past => ?_⟩
  · obtain ⟨_, _, _, rfl, past⟩ := instruction_codec.accepts ok
    exact past
  · have past : c.Past ([i.opcode.byte] ++ i.operandBytes) c' := past
    obtain ⟨d, first, second⟩ := past.split
    have opcode : (liftM (Opcode.decode i.opcode.byte) : Reader Opcode) d = .ok (i.opcode, d) := by
      rw [Opcode.decode_eq_ok.mpr rfl]
      rfl
    have enough : Bytes.hasAtLeast i.opcode.operandLength d.rest = true := by
      rw [Bytes.hasAtLeast_iff, second.length, i.length_operandBytes]
      exact Nat.le_add_right ..
    refine (bind_of_ok (uint8_of_past first)).trans ((bind_of_ok opcode).trans ?_)
    refine (bind_of_ok (a := d) rfl).trans ?_
    rw [if_pos enough]
    exact operand_of_past second

end Reader

def Bytes.cursor (bytes : Bytes) (offset : Nat) : Cursor :=
  ⟨offset, bytes.drop offset⟩

theorem Cursor.Past.eq_cursor {bytes part : Bytes} {offset : Nat} {c : Cursor}
    (past : (bytes.cursor offset).Past part c) : c = bytes.cursor c.offset := by
  have read : bytes.drop offset = part ++ c.rest := past.rest
  have rest : bytes.drop c.offset = c.rest := by
    rw [past.offset, Bytes.cursor, ← List.drop_drop, read, List.drop_left]
  rw [Bytes.cursor, rest]

namespace Instruction

theorem encode_prefix_free {i j : Instruction} {a b : Bytes}
    (same : i.encode ++ a = j.encode ++ b) : i = j ∧ a = b := by
  have first : Cursor.Past ⟨0, i.encode ++ a⟩ i.encode ⟨0 + i.encode.length, a⟩ := ⟨rfl, rfl⟩
  have second : Cursor.Past ⟨0, i.encode ++ a⟩ j.encode ⟨0 + j.encode.length, b⟩ := ⟨same, rfl⟩
  have read := (Reader.instruction_eq_ok.mpr first).symm.trans (Reader.instruction_eq_ok.mpr second)
  simp only [Except.ok.injEq, Prod.mk.injEq, Cursor.mk.injEq] at read
  exact ⟨read.1, read.2.2⟩

theorem flatMap_encode_injective {is js : List Instruction}
    (same : is.flatMap encode = js.flatMap encode) : is = js := by
  induction is generalizing js with
  | nil =>
    cases js with
    | nil => rfl
    | cons j js => contradiction
  | cons i is ih =>
    cases js with
    | nil => contradiction
    | cons j js =>
      rw [List.flatMap_cons, List.flatMap_cons] at same
      obtain ⟨rfl, later⟩ := encode_prefix_free same
      rw [ih later]

theorem decode_eq_ok {bytes : Bytes} {offset stop : Nat} {i : Instruction} :
    decode bytes offset = .ok (i, stop) ↔
      (bytes.cursor offset).Past i.encode (bytes.cursor stop) := by
  refine ⟨fun ok => ?_, fun past => ?_⟩
  · cases read : Reader.instruction ⟨offset, bytes.drop offset⟩ with
    | error e =>
      simp only [decode, StateT.run, read] at ok
      cases ok
    | ok found =>
      simp only [decode, StateT.run, read] at ok
      cases ok
      have past : (bytes.cursor offset).Past found.1.encode found.2 :=
        Reader.instruction_eq_ok.mp read
      rwa [past.eq_cursor] at past
  · have read : Reader.instruction ⟨offset, bytes.drop offset⟩ = .ok (i, bytes.cursor stop) :=
      Reader.instruction_eq_ok.mpr past
    simp only [decode, StateT.run, read]
    rfl

def decodeMany (bytes : Bytes) : Nat → Nat → Except DecodeError (List Instruction × Nat)
  | 0, offset => .ok ([], offset)
  | n + 1, offset =>
    (decode bytes offset).bind fun first =>
      (decodeMany bytes n first.2).map fun later => (first.1 :: later.1, later.2)

theorem decodeMany_succ_eq_ok {bytes : Bytes} {n offset stop : Nat} {is : List Instruction} :
    decodeMany bytes (n + 1) offset = .ok (is, stop) ↔ ∃ i later next,
      decode bytes offset = .ok (i, next) ∧ decodeMany bytes n next = .ok (later, stop) ∧
        is = i :: later := by
  rw [decodeMany]
  constructor
  · intro ok
    cases first : decode bytes offset with
    | error e =>
      rw [first] at ok
      cases ok
    | ok found =>
      rw [first] at ok
      cases second : decodeMany bytes n found.2 with
      | error e =>
        simp only [Except.bind, second] at ok
        cases ok
      | ok later =>
        simp only [Except.bind, second] at ok
        cases ok
        exact ⟨found.1, later.1, found.2, rfl, second, rfl⟩
  · rintro ⟨i, later, next, first, second, rfl⟩
    simp only [first, Except.bind, second]
    rfl

theorem decodeMany_eq_ok {bytes : Bytes} {n offset stop : Nat} {is : List Instruction} :
    decodeMany bytes n offset = .ok (is, stop) ↔
      is.length = n ∧ (bytes.cursor offset).Past (is.flatMap encode) (bytes.cursor stop) := by
  induction n generalizing offset is with
  | zero =>
    constructor
    · intro ok
      cases ok
      exact ⟨rfl, Cursor.Past.nil_iff.mpr rfl⟩
    · rintro ⟨none, past⟩
      obtain rfl := List.length_eq_zero_iff.mp none
      have same := congrArg Cursor.offset (Cursor.Past.nil_iff.mp past)
      exact congrArg (fun stop => Except.ok ([], stop)) same.symm
  | succ n ih =>
    rw [decodeMany_succ_eq_ok]
    constructor
    · rintro ⟨i, later, next, first, second, rfl⟩
      obtain ⟨length, past⟩ := ih.mp second
      refine ⟨congrArg (· + 1) length, ?_⟩
      rw [List.flatMap_cons]
      exact (decode_eq_ok.mp first).append past
    · rintro ⟨length, past⟩
      obtain ⟨i, later, rfl⟩ := List.exists_cons_of_length_eq_add_one length
      rw [List.flatMap_cons] at past
      obtain ⟨d, first, second⟩ := past.split
      have place := first.eq_cursor
      rw [place] at first second
      exact ⟨i, later, d.offset, decode_eq_ok.mpr first, ih.mpr ⟨Nat.succ.inj length, second⟩, rfl⟩

/-- Streams of instructions can be read in one way only. Any list of instructions, with any bytes
before and after it, is read back from where it begins up to where it ends. Whatever is read
anywhere is spelled by the bytes it was read from. And no two lists have the same bytes. -/
theorem streams_uniquely_decodable :
    (∀ (is : List Instruction) (before after : Bytes),
      decodeMany (before ++ is.flatMap encode ++ after) is.length before.length =
        .ok (is, (before ++ is.flatMap encode).length)) ∧
    (∀ (bytes : Bytes) (n offset : Nat) (is : List Instruction) (stop : Nat),
      decodeMany bytes n offset = .ok (is, stop) →
        is.length = n ∧ stop = offset + (is.flatMap encode).length ∧
          is.flatMap encode = (bytes.drop offset).take (stop - offset)) ∧
    ∀ is js : List Instruction, is.flatMap encode = js.flatMap encode → is = js := by
  refine ⟨fun is before after => ?_, fun bytes n offset is stop ok => ?_,
    fun _ _ => flatMap_encode_injective⟩
  · refine decodeMany_eq_ok.mpr ⟨rfl, ?_, List.length_append⟩
    simp [Bytes.cursor]
  · obtain ⟨length, past⟩ := decodeMany_eq_ok.mp ok
    have ends : stop = offset + (is.flatMap encode).length := past.offset
    have read : bytes.drop offset = is.flatMap encode ++ bytes.drop stop := past.rest
    refine ⟨length, ends, ?_⟩
    rw [read, ends, Nat.add_sub_cancel_left, List.take_left]

def motley : List Instruction :=
  [.short (-2), .wide .constant 258, .call true 513 7, .jump (.branch .isNull) 67305985,
    .plain .halt]

theorem streams_uniquely_decodable_motley :
    decodeMany ([0x60] ++ motley.flatMap encode ++ [0x70, 1]) 5 1 = .ok (motley, 17) ∧
    motley.flatMap encode = (([0x60] ++ motley.flatMap encode ++ [0x70, 1]).drop 1).take 16 ∧
    motley.flatMap encode =
      [0x08, 0xfe, 0xff, 0x09, 2, 1, 0x70, 1, 2, 7, 0x63, 1, 2, 3, 4, 0xfe] := by
  have read := streams_uniquely_decodable.1 motley [0x60] [0x70, 1]
  exact ⟨read, (streams_uniquely_decodable.2.1 _ _ _ _ _ read).2.2, by decide⟩

end Instruction

end StackMachine
