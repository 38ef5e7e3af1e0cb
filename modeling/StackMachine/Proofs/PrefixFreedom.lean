import StackMachine.Proofs.RoundTrip

/-! Payloads end where their grammar says. Every count is compared with the bytes that are left, but
only to refuse, and so bytes that follow do not change what a reader makes of those before. A
payload that is accepted is therefore refused with anything added to it, and with anything taken
away from its end. -/

namespace StackMachine

theorem Cursor.Past.extend {c c' : Cursor} {bytes : Bytes} (past : c.Past bytes c') (more : Bytes) :
    Past ⟨c.offset, c.rest ++ more⟩ bytes ⟨c'.offset, c'.rest ++ more⟩ where
  rest := by rw [past.rest, List.append_assoc]
  offset := past.offset

theorem Codec.reads_extended {σ α : Type} {form : σ → Prop} {write : σ → Bytes} {meaning : σ → α}
    {shallow : σ → Prop} {read : Reader α} (codec : Codec form write meaning shallow read) {a : α}
    {c c' : Cursor} {more : Bytes} (ok : read c = .ok (a, c'))
    (bound : (c.rest ++ more).length < UInt32.size) :
    read ⟨c.offset, c.rest ++ more⟩ = .ok (a, ⟨c'.offset, c'.rest ++ more⟩) := by
  obtain ⟨s, formed, simple, rfl, past⟩ := codec.accepts ok
  exact codec.reads formed (past.extend more) bound simple

namespace Bytes

theorem count_mod (n : Nat) : count (n % UInt32.size) = count n := by
  have byte {a b : Nat} (same : a % 256 = b % 256) : UInt8.ofNat a = UInt8.ofNat b := by
    apply UInt8.toNat_inj.mp
    simp only [UInt8.toNat_ofNat']
    exact same
  simp only [count, littleEndian, UInt32.size, List.cons.injEq, and_true]
  exact ⟨byte (by omega), byte (by omega), byte (by omega), byte (by omega)⟩

end Bytes

theorem Reader.header_of_long {payload : Bytes} (long : UInt32.size ≤ payload.length) :
    header ⟨4, (Image.sealed payload).drop 4⟩ =
      .error (.invalidLength (payload.length % UInt32.size) payload.length) := by
  have past : Cursor.Past ⟨4, (Image.sealed payload).drop 4⟩ (Image.fields payload) ⟨42, payload⟩ :=
    ⟨Image.drop_sealed payload, congrArg (4 + ·) (Image.length_fields payload).symm⟩
  obtain ⟨c₁, version, past⟩ := past.split
  obtain ⟨c₂, count, past⟩ := past.split
  have fits : payload.length % UInt32.size < UInt32.size := Nat.mod_lt _ (by decide)
  rw [← Bytes.count_mod] at count
  refine (bind_of_ok (uint16_eq_ok.mpr version)).trans ?_
  rw [if_neg (by simp)]
  refine (bind_of_ok (number_eq_ok.mpr ⟨Bytes.fits_four.mpr fits, count⟩)).trans ?_
  refine (bind_of_ok (take_eq_ok.mpr ⟨Digest.digest_length payload, past⟩)).trans ?_
  have other : (payload.length != payload.length % UInt32.size) = true := by
    rw [bne_iff_ne]
    omega
  refine (bind_of_ok (a := (⟨42, payload⟩ : Cursor)) rfl).trans ?_
  rw [if_pos other]
  exact bind_of_error rfl

namespace Module

variable {payload : Bytes} {m : Module Literal}

theorem length_lt_of_decode (accepted : decode (Image.sealed payload) = .ok m) :
    payload.length < UInt32.size := by
  obtain ⟨_, small, same⟩ := exists_sealed_of_decode accepted
  rwa [Image.sealed_injective same]

theorem decode_sealed_of_rest {offset : Nat} {rest : Bytes} (small : payload.length < UInt32.size)
    (read : Reader.module ⟨42, payload⟩ = .ok (m, ⟨offset, rest⟩)) (some : rest ≠ []) :
    decode (Image.sealed payload) = .error (.trailingBytes rest.length) := by
  rw [decode_sealed small, read]
  cases rest with
  | nil => contradiction
  | cons b rest => rfl

theorem decode_sealed_of_long (long : UInt32.size ≤ payload.length) :
    decode (Image.sealed payload) = .error
      (.invalidLength (payload.length % UInt32.size) payload.length) := by
  have magic : ((Image.sealed payload).take 4 != Image.magic) = false := by
    rw [Image.take_sealed, bne_self_eq_false]
  have stops : (Reader.header >>= fun _ => Reader.module) ⟨4, (Image.sealed payload).drop 4⟩ =
      .error (.invalidLength (payload.length % UInt32.size) payload.length) :=
    Reader.bind_of_error (Reader.header_of_long long)
  simp only [decode, magic, StateT.run, stops]
  rfl

theorem decode_sealed_append {more : Bytes} (accepted : decode (Image.sealed payload) = .ok m)
    (some : more ≠ []) (small : (payload ++ more).length < UInt32.size) :
    decode (Image.sealed (payload ++ more)) = .error (.trailingBytes more.length) := by
  obtain ⟨offset, read⟩ := exists_read_of_decode (length_lt_of_decode accepted) accepted
  exact decode_sealed_of_rest small (Reader.module_codec.reads_extended read small) some

/-- No payload is the beginning of another one. If a payload is accepted, then with more bytes after
it and a header to match it is refused for these bytes; and the payloads it begins with are all
refused. A header states a length in four bytes; one that does not fit them is refused for its
length. -/
theorem payload_prefix_free (accepted : decode (Image.sealed payload) = .ok m) :
    (∀ more, more ≠ [] → (payload ++ more).length < UInt32.size →
      decode (Image.sealed (payload ++ more)) = .error (.trailingBytes more.length)) ∧
    (∀ more, UInt32.size ≤ (payload ++ more).length → decode (Image.sealed (payload ++ more)) =
      .error (.invalidLength ((payload ++ more).length % UInt32.size) (payload ++ more).length)) ∧
    ∀ start, start <+: payload → start ≠ payload → ∀ m', decode (Image.sealed start) ≠ .ok m' := by
  refine ⟨fun more => decode_sealed_append accepted, fun more => decode_sealed_of_long, ?_⟩
  rintro start ⟨more, rfl⟩ shorter m' accepted'
  have some : more ≠ [] := by
    rintro rfl
    exact shorter (List.append_nil start).symm
  have refused := decode_sealed_append accepted' some (length_lt_of_decode accepted)
  rw [accepted] at refused
  cases refused

theorem payload_prefix_free_boxing :
    decode (Image.sealed (Image.payload Literal.encode (boxing 2))) = .ok (boxing 2) ∧
    decode (Image.sealed (Image.payload Literal.encode (boxing 2) ++ [0, 1])) =
      .error (.trailingBytes 2) ∧
    ∀ m', decode (Image.sealed (Image.payload Literal.encode (boxing 2)).dropLast) ≠ .ok m' := by
  have accepted : decode (Image.sealed (Image.payload Literal.encode (boxing 2))) =
      .ok (boxing 2) :=
    decode_encode_of_shallow (ordered_boxing 2) (by decide +kernel)
      ((shallow_boxing 2 64).mpr (by decide))
  obtain ⟨longer, _, shorter⟩ := payload_prefix_free accepted
  exact ⟨accepted, longer _ (by decide) (by decide +kernel),
    shorter _ (List.dropLast_prefix _) (by decide +kernel)⟩

end Module

end StackMachine
