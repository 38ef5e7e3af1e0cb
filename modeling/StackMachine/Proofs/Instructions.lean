import StackMachine.Proofs.Codec

/-! Instructions and their bytes: every opcode has a byte of its own, and the opcode says how long
the operand is. -/

namespace StackMachine

namespace Plain

theorem mem_all (op : Plain) : op ∈ all := by
  cases op with
  | push value =>
    cases value with
    | bool b => cases b <;> decide
    | _ => decide
  | binary op => cases op <;> decide
  | unary op => cases op <;> decide
  | compare c => cases c <;> decide
  | load slot => revert slot; decide
  | store slot => revert slot; decide
  | dup pair under => revert under; cases pair <;> decide
  | loadIndex strict => cases strict <;> decide
  | stepIndex direction => cases direction <;> decide
  | _ => decide

end Plain

namespace Wide

theorem mem_all (op : Wide) : op ∈ all := by
  cases op with
  | step direction checked => cases direction <;> cases checked <;> decide
  | switch strategy => cases strategy <;> decide
  | _ => decide

end Wide

namespace Jump

theorem mem_all (op : Jump) : op ∈ all := by
  cases op with
  | goto => decide
  | branch condition =>
    cases condition with
    | compare c => cases c <;> decide
    | _ => decide

end Jump

namespace Opcode

theorem mem_all (op : Opcode) : op ∈ all := by
  cases op with
  | plain op => simp [all, Plain.mem_all op]
  | short => simp [all]
  | wide op => simp [all, Wide.mem_all op]
  | call keep => cases keep <;> simp [all]
  | jump op => simp [all, Jump.mem_all op]

theorem decode_eq_ok {b : UInt8} {op : Opcode} : decode b = .ok op ↔ op.byte = b := by
  refine ⟨fun ok => ?_, fun same => ?_⟩
  · unfold decode at ok
    split at ok
    · cases ok
    · split at ok
      case h_1 found =>
        cases ok
        have test := List.find?_some found
        exact beq_iff_eq.mp test
      case h_2 => cases ok
  · have each : ∀ op ∈ all, (op.byte == 0) = false ∧ ofByte? op.byte = some op := by decide +kernel
    obtain ⟨legal, found⟩ := each op op.mem_all
    rw [← same, decode, legal, found]
    rfl

end Opcode

theorem Instruction.length_operandBytes (i : Instruction) :
    i.operandBytes.length = i.opcode.operandLength := by
  cases i <;> rfl

namespace Reader

theorem operand_codec (op : Opcode) :
    Codec (fun i : Instruction => i.opcode = op) Instruction.operandBytes id (fun _ => True)
      (operand op) := by
  cases op with
  | plain op =>
    have shape (i : Instruction) : i.opcode = .plain op → i = .plain op := by
      cases i <;> simp [Instruction.opcode]
    refine (Codec.ended (.plain op) (fun i => ⟨shape i, ?_⟩) rfl).congr (fun _ => Iff.rfl)
      (fun i same => ?_) (fun _ _ => rfl) fun _ _ => Iff.rfl
    · rintro rfl
      rfl
    · rw [shape i same, Instruction.operandBytes]
  | short =>
    have shape (i : Instruction) : i.opcode = .short → ∃ n, i = .short n := by
      cases i <;> simp [Instruction.opcode]
    refine uint16_codec.embed (fun n => .short n.toInt16) (fun i => ⟨fun same => ?_, ?_⟩)
      fun n _ => ⟨?_, rfl, Iff.rfl⟩
    · obtain ⟨n, rfl⟩ := shape i same
      exact ⟨n.toUInt16, trivial, by simp⟩
    · rintro ⟨n, _, rfl⟩
      rfl
    · simp [Instruction.operandBytes]
  | wide op =>
    have shape (i : Instruction) : i.opcode = .wide op → ∃ n, i = .wide op n := by
      cases i <;> simp [Instruction.opcode]
    refine uint16_codec.embed (Instruction.wide op) (fun i => ⟨fun same => ?_, ?_⟩) fun n _ =>
      ⟨rfl, rfl, Iff.rfl⟩
    · obtain ⟨n, rfl⟩ := shape i same
      exact ⟨n, trivial, rfl⟩
    · rintro ⟨n, _, rfl⟩
      rfl
  | call keep =>
    have shape (i : Instruction) : i.opcode = .call keep →
        ∃ function argc, i = .call keep function argc := by
      cases i <;> simp [Instruction.opcode]
    refine uint16_codec.bind (fun i => i.operandBytes.drop 2) (fun _ => True)
      (fun i function => ∃ argc, i = .call keep function argc) (fun i same => ?_) ?_
        fun function _ => ?_
    · obtain ⟨function, argc, rfl⟩ := shape i same
      exact ⟨function, trivial, argc, rfl⟩
    · rintro _ function _ ⟨argc, rfl⟩
      exact ⟨rfl, (and_self_iff).symm⟩
    · refine uint8_codec.embed (Instruction.call keep function) (fun i => ⟨?_, ?_⟩) fun argc _ =>
        ⟨rfl, rfl, Iff.rfl⟩
      · rintro ⟨_, argc, rfl⟩
        exact ⟨argc, trivial, rfl⟩
      · rintro ⟨argc, _, rfl⟩
        exact ⟨rfl, argc, rfl⟩
  | jump op =>
    have shape (i : Instruction) : i.opcode = .jump op → ∃ target, i = .jump op target := by
      cases i <;> simp [Instruction.opcode]
    refine uint32_codec.embed (Instruction.jump op) (fun i => ⟨fun same => ?_, ?_⟩) fun n _ =>
      ⟨rfl, rfl, Iff.rfl⟩
    · obtain ⟨n, rfl⟩ := shape i same
      exact ⟨n, trivial, rfl⟩
    · rintro ⟨n, _, rfl⟩
      rfl

theorem opcode_codec : Codec (fun _ => True) (fun op : Opcode => [op.byte]) id (fun _ => True)
    (do Opcode.decode (← uint8)) :=
  lookup_codec fun _ _ => Opcode.decode_eq_ok

theorem instruction_codec :
    Codec (fun _ => True) Instruction.encode id (fun _ => True) instruction := by
  unfold instruction
  rw [← bind_assoc]
  refine opcode_codec.bind Instruction.operandBytes (fun _ => True) (fun i op => i.opcode = op) ?_
    ?_ fun op _ => ?_
  · exact fun i _ => ⟨i.opcode, trivial, rfl⟩
  · rintro i _ _ rfl
    exact ⟨rfl, (and_self_iff).symm⟩
  · refine ((operand_codec op).guarded ?_ ?_).congr (fun i => ?_) (fun _ _ => rfl) (fun _ _ => rfl)
      fun _ _ => Iff.rfl
    · exact fun _ _ => nofun
    · rintro i rfl
      exact Nat.le_of_eq i.length_operandBytes.symm
    · rw [true_and]

end Reader

end StackMachine
