import StackMachine.Proofs.Transcript

/-! Reading back what was written.

An image is a header and a payload, and the header is determined by the payload. So an image that is
accepted has exactly one transcript. A module is read back from its image unless one of its literals
is nested too deep; and writing down a module that was read gives the image back if and only if its
transcript was canonical. Of the digest nothing is used but its length. -/

namespace StackMachine

namespace Digest

theorem pieces_ne_nil {α : Type} (size fuel : Nat) (list : List α) :
    pieces size fuel list ≠ [] := by
  unfold pieces
  split
  · simp
  · split <;> simp

theorem joinAll_ne_nil (fuel : Nat) {nodes : List Node} (some : nodes ≠ []) :
    joinAll fuel nodes ≠ [] := by
  fun_induction joinAll fuel nodes with
  | case1 => exact some
  | case2 => exact some
  | case3 => exact some
  | case4 fuel nodes none one ih =>
    apply ih
    cases nodes with
    | nil => exact (none rfl).elim
    | cons first rest => cases rest <;> simp [joinPairs]

theorem digest_length (bytes : Bytes) : (digest bytes).length = 32 := by
  unfold digest
  dsimp only
  split
  case h_1 node _ _ =>
    have word (w : UInt32) : (wordBytes w).length = 4 := rfl
    simp [List.length_flatMap, word, List.map_const']
  case h_2 none =>
    refine (joinAll_ne_nil _ ?_ none).elim
    simpa using pieces_ne_nil 1024 bytes.length bytes

end Digest

namespace Reader

-- A whole image may be longer than any count in it, so the codecs, which bound the input, do not
-- apply to headers.
theorem uint16_eq_ok {c c' : Cursor} {n : UInt16} :
    uint16 c = .ok (n, c') ↔ c.Past (Bytes.uint16 n) c' := by
  refine ⟨fun ok => ?_, fun past => ?_⟩
  · obtain ⟨_, _, _, rfl, past⟩ := uint16_codec.accepts ok
    exact past
  · refine (bind_of_ok (number_eq_ok.mpr ⟨Bytes.fits_two.mpr n.toNat_lt, past⟩)).trans ?_
    rw [UInt16.ofNat_toNat]
    rfl

theorem check_eq_ok {α : Type} {wrong : Bool} {e : DecodeError} {next : Unit → Reader α}
    {c : Cursor} {p : α × Cursor} :
    (if wrong then throw e >>= next else next ()) c = .ok p ↔
      wrong = false ∧ next () c = .ok p := by
  cases wrong with
  | false => simp
  | true =>
    rw [if_pos rfl, bind_of_error rfl]
    simp

theorem header_eq_ok {c c' : Cursor} {d : Bytes} :
    header c = .ok (d, c') ↔ c'.rest.length < UInt32.size ∧ d = Digest.digest c'.rest ∧
      c.Past (Bytes.uint16 Image.version ++ (Bytes.count c'.rest.length ++ d)) c' := by
  refine ⟨fun ok => ?_, fun ⟨small, digest, past⟩ => ?_⟩
  · obtain ⟨version, c₁, ok₁, ok⟩ := bind_eq_ok ok
    obtain ⟨right, ok⟩ := check_eq_ok.mp ok
    obtain ⟨declared, c₂, ok₂, ok⟩ := bind_eq_ok ok
    obtain ⟨digest, c₃, ok₃, ok⟩ := bind_eq_ok ok
    obtain ⟨_, _, ok₄, ok⟩ := bind_eq_ok ok
    cases ok₄
    obtain ⟨length, ok⟩ := check_eq_ok.mp ok
    obtain ⟨checksum, ok⟩ := check_eq_ok.mp ok
    cases ok
    rw [bne_eq_false_iff_eq] at right length checksum
    subst right length
    obtain ⟨small, past₂⟩ := number_eq_ok.mp ok₂
    have past := (uint16_eq_ok.mp ok₁).append (past₂.append (take_eq_ok.mp ok₃).2)
    exact ⟨Bytes.fits_four.mp small, checksum.symm, past⟩
  · obtain ⟨c₁, version, past⟩ := past.split
    obtain ⟨c₂, count, past⟩ := past.split
    have taken : take 32 c₂ = .ok (d, c') :=
      take_eq_ok.mpr ⟨by rw [digest, Digest.digest_length], past⟩
    refine (bind_of_ok (uint16_eq_ok.mpr version)).trans (check_eq_ok.mpr ⟨by simp, ?_⟩)
    refine (bind_of_ok (number_eq_ok.mpr ⟨Bytes.fits_four.mpr small, count⟩)).trans ?_
    refine (bind_of_ok taken).trans ((bind_of_ok (a := c') rfl).trans ?_)
    refine check_eq_ok.mpr ⟨by simp, check_eq_ok.mpr ⟨by simp [digest], rfl⟩⟩

end Reader

namespace Image

def fields (payload : Bytes) : Bytes :=
  Bytes.uint16 version ++ (Bytes.count payload.length ++ Digest.digest payload)

theorem sealed_eq (payload : Bytes) : sealed payload = magic ++ (fields payload ++ payload) := by
  simp only [sealed, fields, List.append_assoc]

theorem length_fields (payload : Bytes) : (fields payload).length = 38 := by
  simp [fields, Bytes.uint16, Bytes.count, Bytes.littleEndian_length, Digest.digest_length]

theorem take_sealed (payload : Bytes) : (sealed payload).take 4 = magic := by
  rw [sealed_eq]
  exact List.take_left' rfl

theorem drop_sealed (payload : Bytes) : (sealed payload).drop 4 = fields payload ++ payload := by
  rw [sealed_eq]
  exact List.drop_left' rfl

theorem length_sealed (payload : Bytes) : (sealed payload).length = 42 + payload.length := by
  rw [sealed_eq, List.length_append, List.length_append, length_fields, ← Nat.add_assoc]
  rfl

theorem sealed_injective {p q : Bytes} (same : sealed p = sealed q) : p = q := by
  have rest : fields p ++ p = fields q ++ q := by rw [← drop_sealed, same, drop_sealed]
  exact List.append_inj_right rest (by rw [length_fields, length_fields])

end Image

namespace Literal

def boxed : Nat → Literal
  | 0 => .undefined
  | n + 1 => .list [boxed n]

theorem ordered_boxed (n : Nat) : (boxed n).Ordered := by
  induction n with
  | zero => exact .undefined
  | succ n ih => exact .list fun l member => List.mem_singleton.mp member ▸ ih

theorem height_boxed (n : Nat) : (boxed n).height = n := by
  induction n with
  | zero => simp [boxed, Datum.height]
  | succ n ih => simp [boxed, Datum.height, ih]

end Literal

namespace Module

theorem decode_sealed {payload : Bytes} (small : payload.length < UInt32.size) :
    decode (Image.sealed payload) = (do
      let (m, c) ← Reader.module ⟨42, payload⟩
      match c.rest with
      | [] => return m
      | rest => throw (.trailingBytes rest.length)) := by
  have magic : ((Image.sealed payload).take 4 != Image.magic) = false := by
    rw [Image.take_sealed, bne_self_eq_false]
  have header : Reader.header ⟨4, (Image.sealed payload).drop 4⟩ = .ok (Digest.digest payload,
      ⟨42, payload⟩) := by
    refine Reader.header_eq_ok.mpr ⟨small, rfl, Image.drop_sealed payload, ?_⟩
    exact congrArg (4 + ·) (Image.length_fields payload).symm
  have next : (Reader.header >>= fun _ => Reader.module) ⟨4, (Image.sealed payload).drop 4⟩ =
      Reader.module ⟨42, payload⟩ := Reader.bind_of_ok header
  simp only [decode, magic, StateT.run, next]
  rfl

theorem exists_sealed_of_decode {b : Bytes} {m : Module Literal} (accepted : decode b = .ok m) :
    ∃ payload, payload.length < UInt32.size ∧ b = Image.sealed payload := by
  simp only [decode] at accepted
  split at accepted
  · cases accepted
  case isFalse magic =>
    have magic : b.take 4 = Image.magic := by simpa using magic
    cases read : (Reader.header >>= fun _ => Reader.module) ⟨4, b.drop 4⟩ with
    | error e =>
      simp only [StateT.run, read] at accepted
      cases accepted
    | ok p =>
      obtain ⟨d, c, header, _⟩ := Reader.bind_eq_ok read
      obtain ⟨small, rfl, past⟩ := Reader.header_eq_ok.mp header
      have rest : b.drop 4 = Image.fields c.rest ++ c.rest := past.rest
      refine ⟨c.rest, small, ?_⟩
      rw [Image.sealed_eq, ← magic, ← rest, List.take_append_drop]

theorem exists_read_of_decode {payload : Bytes} {m : Module Literal}
    (small : payload.length < UInt32.size) (accepted : decode (Image.sealed payload) = .ok m) :
    ∃ offset, Reader.module ⟨42, payload⟩ = .ok (m, ⟨offset, []⟩) := by
  rw [decode_sealed small] at accepted
  cases read : Reader.module ⟨42, payload⟩ with
  | error e =>
    rw [read] at accepted
    cases accepted
  | ok found =>
    obtain ⟨_, offset, rest⟩ := found
    rw [read] at accepted
    cases rest with
    | nil =>
      cases accepted
      exact ⟨offset, rfl⟩
    | cons b rest => cases accepted

variable {t : Transcript}

theorem past_bytes (t : Transcript) : Cursor.Past ⟨42, t.bytes⟩ t.bytes ⟨42 + t.bytes.length, []⟩ :=
  ⟨(List.append_nil _).symm, rfl⟩

theorem decode_bytes (small : t.bytes.length < UInt32.size)
    (shallow : t.module.All fun s => s.height ≤ Reader.maxDepth) :
    decode (Image.sealed t.bytes) = .ok (t.module.map Spelling.literal) := by
  rw [decode_sealed small, Reader.module_codec.reads trivial (past_bytes t) small shallow]
  rfl

theorem decode_bytes_of_deep (small : t.bytes.length < UInt32.size)
    (deep : ¬ t.module.All fun s => s.height ≤ Reader.maxDepth) :
    ∃ offset, decode (Image.sealed t.bytes) = .error (.nestingTooDeep offset) := by
  obtain ⟨offset, error⟩ := Reader.module_codec.rejects trivial (past_bytes t) small deep
  refine ⟨offset, ?_⟩
  rw [decode_sealed small, error]
  rfl

theorem exists_transcript_of_decode {b : Bytes} {m : Module Literal} (accepted : decode b = .ok m) :
    ∃ t : Transcript, b = Image.sealed t.bytes ∧ t.bytes.length < UInt32.size ∧
      (t.module.All fun s => s.height ≤ Reader.maxDepth) ∧ t.module.map Spelling.literal = m := by
  obtain ⟨payload, small, rfl⟩ := exists_sealed_of_decode accepted
  obtain ⟨offset, read⟩ := exists_read_of_decode small accepted
  obtain ⟨t, _, shallow, means, past⟩ := Reader.module_codec.accepts read
  have same : payload = t.bytes := past.rest.trans (List.append_nil _)
  subst same
  exact ⟨t, rfl, small, shallow, means⟩

theorem transcript_unique {t' : Transcript} (small : t.bytes.length < UInt32.size)
    (shallow : t.module.All fun s => s.height ≤ Reader.maxDepth)
    (same : Image.sealed t.bytes = Image.sealed t'.bytes) : t' = t := by
  have same := Image.sealed_injective same
  have past : Cursor.Past ⟨42, t.bytes⟩ t'.bytes ⟨42 + t'.bytes.length, []⟩ :=
    ⟨by rw [same, List.append_nil], rfl⟩
  -- Spellings are compared by what is read, and so only those that are shallow; a deep one would be
  -- refused.
  have shallow' : t'.module.All fun s => s.height ≤ Reader.maxDepth := by
    by_cases shallow' : t'.module.All fun s => s.height ≤ Reader.maxDepth
    · exact shallow'
    · obtain ⟨offset, error⟩ := decode_bytes_of_deep (same ▸ small) shallow'
      rw [← same, decode_bytes small shallow] at error
      cases error
  exact Reader.module_codec.unique trivial trivial past (past_bytes t) small shallow' shallow

theorem encode_eq_sealed (m : Module Literal) :
    m.encode = Image.sealed (Transcript.ofModule m).bytes := by
  rw [encode, Transcript.bytes_ofModule]

theorem shallow_ofModule {m : Module Literal} :
    ((Transcript.ofModule m).module.All fun s => s.height ≤ Reader.maxDepth) ↔
      m.All fun l => l.height ≤ Reader.maxDepth := by
  rw [Transcript.ofModule, all_map]
  simp only [Spelling.height_ofLiteral]

theorem decode_encode_of_shallow {m : Module Literal} (ordered : m.All Literal.Ordered)
    (small : (Image.payload Literal.encode m).length < UInt32.size)
    (shallow : m.All fun l => l.height ≤ Reader.maxDepth) : decode m.encode = .ok m := by
  rw [← Transcript.bytes_ofModule] at small
  rw [encode_eq_sealed, decode_bytes small (shallow_ofModule.mpr shallow),
    Transcript.module_ofModule ordered]

/-- A module is read back from its image, unless a literal in it is nested too deep. -/
theorem decode_encode {m : Module Literal} (ordered : m.All Literal.Ordered)
    (small : (Image.payload Literal.encode m).length < UInt32.size) :
    (decode m.encode = .ok m ↔ m.All fun l => l.height ≤ Reader.maxDepth) ∧
      ((¬ m.All fun l => l.height ≤ Reader.maxDepth) →
        ∃ offset, decode m.encode = .error (.nestingTooDeep offset)) := by
  have deep (deep : ¬ m.All fun l => l.height ≤ Reader.maxDepth) :
      ∃ offset, decode m.encode = .error (.nestingTooDeep offset) := by
    rw [← Transcript.bytes_ofModule] at small
    rw [encode_eq_sealed]
    exact decode_bytes_of_deep small (deep ∘ shallow_ofModule.mp)
  refine ⟨⟨fun ok => ?_, decode_encode_of_shallow ordered small⟩, deep⟩
  by_cases shallow : m.All fun l => l.height ≤ Reader.maxDepth
  · exact shallow
  · obtain ⟨offset, error⟩ := deep shallow
    rw [ok] at error
    cases error

def boxing (n : Nat) : Module Literal where
  globals := #[("boxes", Literal.boxed n),
    ("map", .map [(.bool false, .undefined), (.int 1, .scalar (.text "one")),
      (.float ⟨0⟩, .list [])])]
  entry := some 0

theorem ordered_boxing (n : Nat) : (boxing n).All Literal.Ordered := by
  refine ⟨by simp [boxing], fun g member => ?_⟩
  rcases List.mem_cons.mp (Array.mem_toList_iff.mpr member) with rfl | member
  · exact Literal.ordered_boxed n
  · cases List.mem_singleton.mp member
    refine .map (by unfold Entries.Ascending; decide +kernel) fun e inside => ?_
    simp only [List.mem_cons, List.not_mem_nil, or_false] at inside
    rcases inside with rfl | rfl | rfl
    · exact .undefined
    · exact .scalar _
    · exact .list nofun

theorem shallow_boxing (n depth : Nat) :
    ((boxing n).All fun l => l.height ≤ depth) ↔ n ≤ depth ∧ 1 ≤ depth := by
  simp [boxing, All, Literal.height_boxed, Datum.height]

theorem decode_encode_boxing : decode (boxing 64).encode = .ok (boxing 64) ∧
    ∃ offset, decode (boxing 65).encode = .error (.nestingTooDeep offset) := by
  have fits := decode_encode (ordered_boxing 64) (by decide +kernel)
  have deep := decode_encode (ordered_boxing 65) (by decide +kernel)
  exact ⟨fits.1.mpr ((shallow_boxing 64 64).mpr (by decide)),
    deep.2 (by rw [shallow_boxing]; decide)⟩

/-- A module that was read has one transcript, and the writer gives that back if and only if it is
canonical. -/
theorem encode_of_decode {b : Bytes} {m : Module Literal} (accepted : decode b = .ok m) :
    decode m.encode = .ok m ∧ m.encode.length ≤ b.length ∧
      ∃ t : Transcript, (∀ t' : Transcript, b = Image.sealed t'.bytes ↔ t' = t) ∧
        (m.encode = b ↔ t.Canonical) := by
  obtain ⟨t, rfl, small, shallow, rfl⟩ := exists_transcript_of_decode accepted
  have ordered : (t.module.map Spelling.literal).All Literal.Ordered :=
    all_map.mpr (shallow.imp fun s _ => s.ordered_literal)
  have shorter := t.length_encode_module_le
  have unique (t' : Transcript) : Image.sealed t.bytes = Image.sealed t'.bytes ↔ t' = t :=
    ⟨transcript_unique small shallow, fun same => by rw [same]⟩
  refine ⟨?_, ?_, t, unique, ?_⟩
  · refine decode_encode_of_shallow ordered (Nat.lt_of_le_of_lt shorter small) (all_map.mpr ?_)
    exact shallow.imp fun s bound => Nat.le_trans s.height_literal_le bound
  · rw [encode, Image.length_sealed, Image.length_sealed]
    exact Nat.add_le_add_left shorter 42
  · rw [encode_eq_sealed, eq_comm, unique]
    refine ⟨fun same => ?_, Transcript.Canonical.ofModule_module⟩
    rw [← same]
    exact Transcript.canonical_ofModule ordered

/-- A transcript with nothing canonical in it: odd boolean bytes, an odd flag, and entries out of
order of which one overrides another. -/
def scrawled : Transcript where
  module := {
    globals := #[("odd", .leaf (.bool 2)),
      ("map", .map [(.int 1, .undefined), (.null, .list []), (.int 1, .leaf (.text "one"))])]
    entry := some 0 }
  flag := 7
  flagged := by decide

theorem encode_of_decode_scrawled :
    ∃ m, decode (Image.sealed scrawled.bytes) = .ok m ∧ decode m.encode = .ok m ∧
      m.encode ≠ Image.sealed scrawled.bytes := by
  have small : scrawled.bytes.length < UInt32.size := by
    simp [scrawled, Transcript.bytes, Transcript.entryBytes, Bytes.array, Image.global,
      Spelling.bytes, Leaf.bytes, Leaf.payload, Bytes.string, Bytes.uint16, Bytes.uint64,
      Bytes.count, Bytes.littleEndian_length]
    decide
  have shallow : scrawled.module.All fun s => s.height ≤ Reader.maxDepth := by
    simp [scrawled, All, Spelling.height, Reader.maxDepth]
  have accepted := decode_bytes small shallow
  obtain ⟨again, _, t, unique, canonical⟩ := encode_of_decode accepted
  have same : scrawled = t := (unique scrawled).mp rfl
  refine ⟨_, accepted, again, fun written => ?_⟩
  have odd := (canonical.mp written).2
  rw [← same] at odd
  revert odd
  decide

end Module

end StackMachine
