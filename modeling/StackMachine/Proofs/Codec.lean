import StackMachine.Image.Decode

/-! Readers against writers.

A reader may be lenient and make one value of several spellings. So a codec relates three things:
spellings, the bytes that `write` gives for each of them, and the value that `read` makes of it. A
spelling that is not `shallow` is refused for its nesting, and for nothing else. The main statements
build a codec for a sequence from codecs for its parts; the parts are free to be followed by any
bytes. -/

namespace StackMachine

namespace Cursor

/-- The next bytes at `c` are `bytes`, and `c'` stands just after them. -/
structure Past (c : Cursor) (bytes : Bytes) (c' : Cursor) : Prop where
  rest : c.rest = bytes ++ c'.rest
  offset : c'.offset = c.offset + bytes.length

namespace Past

variable {c c' d : Cursor} {a b : Bytes}

theorem ext_of (first : c.Past a c') (second : c.Past a d) : c' = d := by
  have offset : c'.offset = d.offset := first.offset.trans second.offset.symm
  have rest : c'.rest = d.rest := List.append_cancel_left (first.rest.symm.trans second.rest)
  cases c'
  cases d
  simp_all

theorem nil_iff : c.Past [] c' ↔ c' = c := by
  refine ⟨fun past => past.ext_of ⟨rfl, rfl⟩, fun same => ?_⟩
  rw [same]
  exact ⟨rfl, rfl⟩

theorem append (first : c.Past a d) (second : d.Past b c') : c.Past (a ++ b) c' where
  rest := by rw [first.rest, second.rest, List.append_assoc]
  offset := by rw [second.offset, first.offset, List.length_append, Nat.add_assoc]

theorem split (past : c.Past (a ++ b) c') : ∃ d, c.Past a d ∧ d.Past b c' := by
  refine ⟨⟨c.offset + a.length, b ++ c'.rest⟩, ⟨?_, rfl⟩, rfl, ?_⟩
  · rw [past.rest, List.append_assoc]
  · rw [past.offset, List.length_append, Nat.add_assoc]

theorem length (past : c.Past a c') : c.rest.length = a.length + c'.rest.length := by
  rw [past.rest, List.length_append]

theorem le (past : c.Past a c') : c'.rest.length ≤ c.rest.length := by
  rw [past.length]
  exact Nat.le_add_left ..

end Past

end Cursor

namespace Reader

variable {α β : Type} {x : Reader α} {f : α → Reader β} {c c' : Cursor} {a : α}

theorem bind_of_ok (ok : x c = .ok (a, c')) : (x >>= f) c = f a c' := by
  change (x c >>= fun p => f p.1 p.2) = _
  rw [ok]
  rfl

theorem bind_of_error {e : DecodeError} (error : x c = .error e) : (x >>= f) c = .error e := by
  change (x c >>= fun p => f p.1 p.2) = _
  rw [error]
  rfl

theorem bind_eq_ok {b : β} (ok : (x >>= f) c = .ok (b, c')) :
    ∃ a d, x c = .ok (a, d) ∧ f a d = .ok (b, c') := by
  cases first : x c with
  | error e =>
    rw [bind_of_error first] at ok
    cases ok
  | ok p =>
    rw [bind_of_ok first] at ok
    exact ⟨p.1, p.2, rfl, ok⟩

theorem take_eq_ok {n : Nat} {bytes : Bytes} :
    take n c = .ok (bytes, c') ↔ bytes.length = n ∧ c.Past bytes c' := by
  unfold take
  split
  case isTrue enough =>
    have bound := Bytes.hasAtLeast_iff.mp enough
    have past : c.Past (c.rest.take n) ⟨c.offset + n, c.rest.drop n⟩ :=
      ⟨(List.take_append_drop ..).symm, by rw [List.length_take_of_le bound]⟩
    refine ⟨fun ok => ?_, fun ⟨size, found⟩ => ?_⟩
    · cases ok
      exact ⟨List.length_take_of_le bound, past⟩
    · have same : c.rest.take n = bytes := by rw [found.rest, ← size, List.take_left]
      rw [same] at past ⊢
      rw [past.ext_of found]
  case isFalse short =>
    refine ⟨nofun, fun ⟨size, found⟩ => (short (Bytes.hasAtLeast_iff.mpr ?_)).elim⟩
    rw [found.length, size]
    exact Nat.le_add_right ..

end Reader

/-- `read` takes a shallow spelling off the front of the input, whatever follows it, and makes
`meaning` of it. It refuses one that is not shallow, accepts nothing but spellings, and no input
begins with two shallow ones. -/
structure Codec {σ α : Type} (form : σ → Prop) (write : σ → Bytes) (meaning : σ → α)
    (shallow : σ → Prop) (read : Reader α) : Prop where
  reads {s : σ} {c c' : Cursor} : form s → c.Past (write s) c' → c.rest.length < UInt32.size →
    shallow s → read c = .ok (meaning s, c')
  rejects {s : σ} {c c' : Cursor} : form s → c.Past (write s) c' → c.rest.length < UInt32.size →
    ¬ shallow s → ∃ offset, read c = .error (.nestingTooDeep offset)
  accepts {a : α} {c c' : Cursor} : read c = .ok (a, c') →
    ∃ s, form s ∧ shallow s ∧ meaning s = a ∧ c.Past (write s) c'
  unique {s t : σ} {c d e : Cursor} : form s → form t → c.Past (write s) d → c.Past (write t) e →
    c.rest.length < UInt32.size → shallow s → shallow t → s = t

namespace Codec

variable {σ τ α β : Type} {form : σ → Prop} {write : σ → Bytes} {meaning : σ → α}
  {shallow : σ → Prop}
  {read : Reader α}

theorem of_shallow (always : ∀ s, shallow s)
    (reads : ∀ {s c c'}, form s → c.Past (write s) c' → c.rest.length < UInt32.size →
      read c = .ok (meaning s, c'))
    (accepts : ∀ {a c c'}, read c = .ok (a, c') → ∃ s, form s ∧ meaning s = a ∧ c.Past (write s) c')
    (injective : ∀ {s t}, form s → form t → meaning s = meaning t → s = t) :
    Codec form write meaning shallow read where
  reads fits past bound _ := reads fits past bound
  rejects {s c c'} _ _ _ deep := (deep (always s)).elim
  accepts ok := by
    obtain ⟨s, fits, means, past⟩ := accepts ok
    exact ⟨s, fits, always s, means, past⟩
  unique {s t c d e} fits fits' past past' bound _ _ := by
    have same := (reads fits past bound).symm.trans (reads fits' past' bound)
    simp only [Except.ok.injEq, Prod.mk.injEq] at same
    exact injective fits fits' same.1

theorem ended {a : α} (s : σ) (only : ∀ t, form t ↔ t = s) (means : meaning s = a) :
    Codec form (fun _ => []) meaning (fun _ => True) (pure a) where
  reads {t c c'} fits past _ _ := by
    rw [(only t).mp fits, means, Cursor.Past.nil_iff.mp past]
    rfl
  rejects _ _ _ deep := (deep trivial).elim
  accepts ok := by
    cases ok
    exact ⟨s, (only s).mpr rfl, trivial, means, Cursor.Past.nil_iff.mpr rfl⟩
  unique fits fits' _ _ _ _ _ := ((only _).mp fits).trans ((only _).mp fits').symm

theorem refused {e : DecodeError} (none : ∀ s, ¬ form s) :
    Codec form write meaning shallow (throw e) where
  reads fits := (none _ fits).elim
  rejects fits := (none _ fits).elim
  accepts ok := nomatch ok
  unique fits := (none _ fits).elim

theorem congr {form' : σ → Prop} {write' : σ → Bytes} {meaning' : σ → α} {shallow' : σ → Prop}
    (codec : Codec form write meaning shallow read) (forms : ∀ s, form' s ↔ form s)
    (writes : ∀ s, form s → write' s = write s) (means : ∀ s, form s → meaning' s = meaning s)
    (shallows : ∀ s, form s → (shallow' s ↔ shallow s)) :
    Codec form' write' meaning' shallow' read where
  reads {s c c'} fits past bound easy := by
    have fits := (forms s).mp fits
    rw [writes s fits] at past
    rw [means s fits]
    exact codec.reads fits past bound ((shallows s fits).mp easy)
  rejects {s c c'} fits past bound deep := by
    have fits := (forms s).mp fits
    rw [writes s fits] at past
    exact codec.rejects fits past bound (deep ∘ (shallows s fits).mpr)
  accepts ok := by
    obtain ⟨s, fits, easy, means', past⟩ := codec.accepts ok
    refine ⟨s, (forms s).mpr fits, (shallows s fits).mpr easy, (means s fits).trans means', ?_⟩
    rw [writes s fits]
    exact past
  unique {s t c d e} fits fits' past past' bound easy easy' := by
    have fits := (forms s).mp fits
    have fits' := (forms t).mp fits'
    rw [writes s fits] at past
    rw [writes t fits'] at past'
    exact codec.unique fits fits' past past' bound ((shallows s fits).mp easy)
      ((shallows t fits').mp easy')

theorem bind {whole : τ → Prop} {writes : τ → Bytes} {means : τ → β} {easy : τ → Prop}
    {next : α → Reader β} (later : τ → Bytes) (easyLater : τ → Prop)
    (first : Codec form write meaning shallow read) (part : τ → σ → Prop)
    (parts : ∀ t, whole t → ∃ s, form s ∧ part t s)
    (join : ∀ t s, whole t → part t s → writes t = write s ++ later t ∧
      (easy t ↔ shallow s ∧ easyLater t))
    (second : ∀ s, form s → Codec (fun t => whole t ∧ part t s) later means easyLater
      (next (meaning s))) : Codec whole writes means easy (read >>= next) where
  reads {t c c'} fits past bound simple := by
    obtain ⟨s, formed, holds⟩ := parts t fits
    obtain ⟨writes', easy'⟩ := join t s fits holds
    rw [writes'] at past
    obtain ⟨d, before, after⟩ := past.split
    rw [Reader.bind_of_ok (first.reads formed before bound (easy'.mp simple).1)]
    exact (second s formed).reads ⟨fits, holds⟩ after (Nat.lt_of_le_of_lt before.le bound)
      (easy'.mp simple).2
  rejects {t c c'} fits past bound deep := by
    obtain ⟨s, formed, holds⟩ := parts t fits
    obtain ⟨writes', easy'⟩ := join t s fits holds
    rw [writes'] at past
    obtain ⟨d, before, after⟩ := past.split
    by_cases simple : shallow s
    · have deepLater : ¬ easyLater t := fun later => deep (easy'.mpr ⟨simple, later⟩)
      rw [Reader.bind_of_ok (first.reads formed before bound simple)]
      exact (second s formed).rejects ⟨fits, holds⟩ after
        (Nat.lt_of_le_of_lt before.le bound) deepLater
    · obtain ⟨offset, error⟩ := first.rejects formed before bound simple
      exact ⟨offset, Reader.bind_of_error error⟩
  accepts ok := by
    obtain ⟨a, d, before, after⟩ := Reader.bind_eq_ok ok
    obtain ⟨s, formed, simple, rfl, past⟩ := first.accepts before
    obtain ⟨t, ⟨fits, holds⟩, simple', means', past'⟩ := (second s formed).accepts after
    obtain ⟨writes', easy'⟩ := join t s fits holds
    refine ⟨t, fits, easy'.mpr ⟨simple, simple'⟩, means', ?_⟩
    rw [writes']
    exact past.append past'
  unique {t t' c e e'} fits fits' past past' bound simple simple' := by
    obtain ⟨s, formed, holds⟩ := parts t fits
    obtain ⟨s', formed', holds'⟩ := parts t' fits'
    obtain ⟨writes', easy'⟩ := join t s fits holds
    obtain ⟨writes'', easy''⟩ := join t' s' fits' holds'
    rw [writes'] at past
    rw [writes''] at past'
    obtain ⟨d, before, after⟩ := past.split
    obtain ⟨d', before', after'⟩ := past'.split
    have same := first.unique formed formed' before before' bound (easy'.mp simple).1
      (easy''.mp simple').1
    subst same
    have same := before.ext_of before'
    subst same
    exact (second s formed).unique ⟨fits, holds⟩ ⟨fits', holds'⟩ after after'
      (Nat.lt_of_le_of_lt before.le bound) (easy'.mp simple).2 (easy''.mp simple').2

theorem field {whole : τ → Prop} {later : τ → Bytes} {means : τ → β} {easyLater : τ → Prop}
    {next : α → Reader β} (first : Codec form write meaning shallow read) (part : τ → σ)
    (parts : ∀ t, whole t → form (part t))
    (second : ∀ s, form s → Codec (fun t => whole t ∧ part t = s) later means easyLater
      (next (meaning s))) :
    Codec whole (fun t => write (part t) ++ later t) means (fun t => shallow (part t) ∧ easyLater t)
      (read >>= next) := by
  refine first.bind later easyLater (fun t s => part t = s)
    (fun t fits => ⟨part t, parts t fits, rfl⟩) ?_ second
  rintro t _ _ rfl
  exact ⟨rfl, Iff.rfl⟩

theorem embed {whole : τ → Prop} {writes : τ → Bytes} {means : τ → β} {easy : τ → Prop} {f : α → β}
    (codec : Codec form write meaning shallow read) (into : σ → τ)
    (wholes : ∀ t, whole t ↔ ∃ s, form s ∧ into s = t)
    (same : ∀ s, form s → writes (into s) = write s ∧ means (into s) = f (meaning s) ∧
      (easy (into s) ↔ shallow s)) :
    Codec whole writes means easy (read >>= fun a => pure (f a)) := by
  refine codec.bind _ _ (fun t s => form s ∧ into s = t) ?_ ?_
    fun s formed => ended (into s) ?_ (same s formed).2.1
  · intro t fits
    obtain ⟨s, formed, into'⟩ := (wholes t).mp fits
    exact ⟨s, formed, formed, into'⟩
  · rintro _ s _ ⟨formed, rfl⟩
    obtain ⟨writes', _, easy'⟩ := same s formed
    exact ⟨by rw [writes', List.append_nil], by rw [easy', and_true]⟩
  · intro t
    refine ⟨fun ⟨_, _, into'⟩ => into'.symm, fun same => ?_⟩
    rw [same]
    exact ⟨(wholes _).mpr ⟨s, formed, rfl⟩, formed, rfl⟩

theorem guarded {n : Nat} {other : Reader α} (codec : Codec form write meaning shallow read)
    (fails : ∀ c p, other c ≠ .ok p) (long : ∀ s, form s → n ≤ (write s).length) :
    Codec form write meaning shallow
      (do if Bytes.hasAtLeast n (← get).rest then read else other) := by
  have unfolded (c : Cursor) :
      (do if Bytes.hasAtLeast n (← get).rest then read else other : Reader α) c =
        if n ≤ c.rest.length then read c else other c := by
    simp only [← Bytes.hasAtLeast_iff]
    change (if Bytes.hasAtLeast n c.rest then read else other) c = _
    split <;> rfl
  have enough {s : σ} {c c' : Cursor} (fits : form s) (past : c.Past (write s) c') :
      n ≤ c.rest.length := by
    rw [past.length]
    exact Nat.le_add_right_of_le (long s fits)
  refine ⟨fun fits past => ?_, fun fits past => ?_, fun ok => ?_, codec.unique⟩
  · rw [unfolded, if_pos (enough fits past)]
    exact codec.reads fits past
  · rw [unfolded, if_pos (enough fits past)]
    exact codec.rejects fits past
  · rw [unfolded] at ok
    split at ok
    · exact codec.accepts ok
    · exact (fails _ _ ok).elim

theorem many (item : Codec form write meaning shallow read) (n : Nat) (items : Array α) :
    Codec (fun l : List σ => l.length = n ∧ ∀ s ∈ l, form s) (fun l => l.flatMap write)
      (fun l => items ++ (l.map meaning).toArray) (fun l => ∀ s ∈ l, shallow s)
        (Reader.many read n items) := by
  -- The reader knows the length before the items, so the induction is on the length and not on the
  -- list.
  induction n generalizing items with
  | zero =>
    refine (ended [] ?_ ?_).congr (fun _ => Iff.rfl) ?_ (fun _ _ => rfl) ?_ <;> simp +contextual
  | succ n ih =>
    have later (s : σ) (formed : form s) :
        Codec (fun l : List σ => (l.length = n + 1 ∧ ∀ s ∈ l, form s) ∧ l.head? = some s)
          (fun l => l.tail.flatMap write) (fun l => items ++ (l.map meaning).toArray)
          (fun l => ∀ s ∈ l.tail, shallow s) (Reader.many read n (items.push (meaning s))) := by
      rw [← bind_pure (Reader.many read n _)]
      refine (ih (items.push (meaning s))).embed (f := id) (List.cons s) (fun l => ?_) fun l _ => ?_
      · cases l <;> simp_all
        grind
      · simp
    refine item.bind _ _ (fun l s => l.head? = some s) (fun l fits => ?_)
      (fun l s fits head => ?_) later
    · cases l <;> simp_all
    · cases l <;> simp_all

theorem bounded {small : σ → Prop}
    (codec : Codec (fun s => form s ∧ small s) write meaning shallow read)
    (fits : ∀ s, form s → (write s).length < UInt32.size → small s) :
    Codec form write meaning shallow read := by
  have short {s : σ} {c c' : Cursor} (formed : form s) (past : c.Past (write s) c')
      (bound : c.rest.length < UInt32.size) : form s ∧ small s := by
    refine ⟨formed, fits s formed (Nat.lt_of_le_of_lt ?_ bound)⟩
    rw [past.length]
    exact Nat.le_add_right ..
  refine ⟨fun formed past bound => ?_, fun formed past bound => ?_, fun ok => ?_, ?_⟩
  · exact codec.reads (short formed past bound) past bound
  · exact codec.rejects (short formed past bound) past bound
  · obtain ⟨s, ⟨formed, _⟩, rest⟩ := codec.accepts ok
    exact ⟨s, formed, rest⟩
  · intro s t c d e formed formed' past past' bound
    exact codec.unique (short formed past bound) (short formed' past' bound) past past' bound

end Codec

namespace Bytes

theorem littleEndian_length (width n : Nat) : (littleEndian width n).length = width := by
  induction width generalizing n with
  | zero => rfl
  | succ width ih => simp [littleEndian, ih]

theorem littleEndian_number (bytes : Bytes) : littleEndian bytes.length (number bytes) = bytes := by
  induction bytes with
  | nil => rfl
  | cons b rest ih =>
    have low := b.toNat_lt
    have first : UInt8.ofNat (b.toNat + 256 * number rest) = b := by
      apply UInt8.toNat_inj.mp
      simp only [UInt8.toNat_ofNat']
      omega
    have others : (b.toNat + 256 * number rest) / 256 = number rest := by omega
    rw [number, List.length_cons, littleEndian, first, others, ih]

def Fits (width n : Nat) : Prop :=
  number (littleEndian width n) = n

theorem fits_number (bytes : Bytes) : Fits bytes.length (number bytes) := by
  rw [Fits, littleEndian_number]

theorem fits_one {n : Nat} : Fits 1 n ↔ n < UInt8.size := by
  simp only [Fits, littleEndian, number, UInt8.toNat_ofNat', UInt8.size]
  omega

theorem fits_two {n : Nat} : Fits 2 n ↔ n < UInt16.size := by
  simp only [Fits, littleEndian, number, UInt8.toNat_ofNat', UInt16.size]
  omega

theorem fits_four {n : Nat} : Fits 4 n ↔ n < UInt32.size := by
  simp only [Fits, littleEndian, number, UInt8.toNat_ofNat', UInt32.size]
  omega

theorem fits_eight {n : Nat} : Fits 8 n ↔ n < UInt64.size := by
  simp only [Fits, littleEndian, number, UInt8.toNat_ofNat', UInt64.size]
  omega

end Bytes

namespace Reader

theorem number_eq_ok {width n : Nat} {c c' : Cursor} :
    number width c = .ok (n, c') ↔ Bytes.Fits width n ∧ c.Past (Bytes.littleEndian width n) c' := by
  refine ⟨fun ok => ?_, fun ⟨fits, past⟩ => ?_⟩
  · obtain ⟨bytes, d, taken, rest⟩ := bind_eq_ok ok
    obtain ⟨rfl, past⟩ := take_eq_ok.mp taken
    cases rest
    rw [Bytes.littleEndian_number]
    exact ⟨Bytes.fits_number bytes, past⟩
  · have taken := take_eq_ok.mpr ⟨Bytes.littleEndian_length width n, past⟩
    refine (bind_of_ok taken).trans ?_
    rw [fits]
    rfl

theorem number_codec (width : Nat) :
    Codec (Bytes.Fits width) (Bytes.littleEndian width) id (fun _ => True) (number width) := by
  refine Codec.of_shallow (fun _ => trivial) (fun fits past _ => ?_) (fun ok => ?_) fun _ _ same =>
    same
  · exact number_eq_ok.mpr ⟨fits, past⟩
  · obtain ⟨fits, past⟩ := number_eq_ok.mp ok
    exact ⟨_, fits, rfl, past⟩

theorem word_codec {ω : Type} {ofNat : Nat → ω} {toNat : ω → Nat} (width : Nat)
    (fits : ∀ w, Bytes.Fits width (toNat w)) (back : ∀ w, ofNat (toNat w) = w)
    (forth : ∀ n, Bytes.Fits width n → toNat (ofNat n) = n) :
    Codec (fun _ => True) (fun w => Bytes.littleEndian width (toNat w)) id (fun _ => True)
      (do return ofNat (← number width)) := by
  refine (number_codec width).embed ofNat (fun w => ?_) fun n small => ?_
  · exact ⟨fun _ => ⟨toNat w, fits w, back w⟩, fun _ => trivial⟩
  · exact ⟨by rw [forth n small], rfl, Iff.rfl⟩

theorem uint8_codec : Codec (fun _ => True) Bytes.uint8 id (fun _ => True) uint8 := by
  have codec := word_codec (ω := UInt8) 1 (fun w => Bytes.fits_one.mpr w.toNat_lt)
    (fun w => w.ofNat_toNat) fun _ small => UInt8.toNat_ofNat_of_lt (Bytes.fits_one.mp small)
  refine codec.congr (fun _ => Iff.rfl) (fun w _ => ?_) (fun _ _ => rfl) fun _ _ => Iff.rfl
  simp [Bytes.uint8, Bytes.littleEndian]

theorem uint16_codec : Codec (fun _ => True) Bytes.uint16 id (fun _ => True) uint16 :=
  word_codec 2 (fun w => Bytes.fits_two.mpr w.toNat_lt) (fun w => w.ofNat_toNat)
    fun _ small => UInt16.toNat_ofNat_of_lt (Bytes.fits_two.mp small)

theorem uint32_codec : Codec (fun _ => True) Bytes.uint32 id (fun _ => True) uint32 :=
  word_codec 4 (fun w => Bytes.fits_four.mpr w.toNat_lt) (fun w => w.ofNat_toNat)
    fun _ small => UInt32.toNat_ofNat_of_lt (Bytes.fits_four.mp small)

section

variable {σ τ α β : Type} {form : σ → Prop} {write : σ → Bytes} {meaning : σ → α}
  {shallow : σ → Prop}
  {read : Reader α}

-- The count is compared with what follows it, so what it counts has to be known before it is read.
theorem count_bind (next : Nat → Reader β) :
    (count >>= next) = (do
      let n ← number 4
      if Bytes.hasAtLeast n (← get).rest then next n
        else throw (.unexpectedEnd ((← offset) - 4))) := by
  funext c
  cases counted : number 4 c with
  | error e =>
    rw [bind_of_error counted]
    refine bind_of_error ?_
    simp only [count, counted]
    rfl
  | ok p =>
    obtain ⟨n, c'⟩ := p
    have before : c.offset = c'.offset - 4 := by
      rw [(number_eq_ok.mp counted).2.offset, Bytes.littleEndian_length, Nat.add_sub_cancel]
    have unfolded : count c =
        if Bytes.hasAtLeast n c'.rest then .ok (n, c') else .error (.unexpectedEnd c.offset) := by
      simp only [count, counted]
      rfl
    rw [bind_of_ok counted]
    change _ = (if Bytes.hasAtLeast n c'.rest then next n else _) c'
    split
    case isTrue enough =>
      rw [if_pos enough] at unfolded
      exact bind_of_ok unfolded
    case isFalse short =>
      rw [if_neg short, before] at unfolded
      exact bind_of_error unfolded

theorem counted_codec {whole : τ → Prop} {later : τ → Bytes} {means : τ → β} {easy : τ → Prop}
    {next : Nat → Reader β} (part : τ → Nat)
    (second : ∀ n, Codec (fun t => whole t ∧ part t = n) later means easy (next n))
    (long : ∀ t, whole t → part t ≤ (later t).length) :
    Codec whole (fun t => Bytes.count (part t) ++ later t) means easy (count >>= next) := by
  -- A count that four bytes cannot hold belongs to no input within the bound.
  have short : Codec (fun t => whole t ∧ part t < UInt32.size)
    (fun t => Bytes.count (part t) ++ later t) means easy (count >>= next) := by
    rw [count_bind]
    refine (number_codec 4).bind later easy (fun t n => part t = n) (fun t fits => ?_) ?_
      fun n small => ?_
    · exact ⟨part t, Bytes.fits_four.mpr fits.2, rfl⟩
    · rintro t _ _ rfl
      exact ⟨rfl, by rw [true_and]⟩
    · refine ((second n).guarded ?_ fun t fits => ?_).congr (fun t => ?_) (fun _ _ => rfl)
        (fun _ _ => rfl) fun _ _ => Iff.rfl
      · exact fun _ _ => nofun
      · rw [← fits.2]
        exact long t fits.1
      · have small := Bytes.fits_four.mp small
        grind
  refine short.bounded fun t fits small => ?_
  have enough := long t fits
  simp only [List.length_append] at small
  omega

theorem array_codec (item : Codec form write meaning shallow read)
    (long : ∀ s, form s → write s ≠ []) :
    Codec (fun items : Array σ => ∀ s ∈ items, form s) (Bytes.array write)
      (fun items => items.map meaning) (fun items => ∀ s ∈ items, shallow s) (array read) := by
  refine counted_codec (fun items : Array σ => items.size) (fun n => ?_) fun items fits => ?_
  · rw [← bind_pure (many read n _)]
    refine (item.many n #[]).embed (f := id) List.toArray (fun items => ?_) fun items _ => ?_
    · refine ⟨fun fits => ⟨items.toList, ?_⟩, ?_⟩
      · simpa [and_comm] using fits
      · rintro ⟨l, fits, rfl⟩
        simpa [and_comm] using fits
    · simp
  · have shorter (l : List σ) (fits : ∀ s ∈ l, form s) : l.length ≤ (l.flatMap write).length := by
      induction l with
      | nil => exact Nat.le_refl 0
      | cons s rest ih =>
        have first := List.length_pos_iff.mpr (long s (fits s List.mem_cons_self))
        have others := ih fun s member => fits s (List.mem_cons_of_mem _ member)
        simp only [List.length_cons, List.flatMap_cons, List.length_append]
        omega
    exact shorter items.toList fun s member => fits s (Array.mem_toList_iff.mp member)

theorem fromUTF8?_eq_some {bytes : ByteArray} {s : String} :
    String.fromUTF8? bytes = some s ↔ s.toByteArray = bytes := by
  unfold String.fromUTF8?
  split
  case isTrue valid =>
    rw [Option.some.injEq, ← String.toByteArray_inj, eq_comm]
    rfl
  case isFalse broken =>
    refine ⟨nofun, fun same => (broken ?_).elim⟩
    rw [← same]
    exact s.isValidUTF8

theorem string_codec : Codec (fun _ => True) Bytes.string id (fun _ => True) string := by
  refine counted_codec String.utf8ByteSize (fun n => ?_) fun s _ => Nat.le_refl _
  refine Codec.of_shallow (fun _ => trivial) (fun {s c c'} fits past _ => ?_)
    (fun {s c c'} ok => ?_) fun _ _ same => same
  · have taken : take n c = .ok (s.toUTF8.data.toList, c') := take_eq_ok.mpr ⟨fits.2, past⟩
    have read : String.fromUTF8? ⟨s.toUTF8.data.toList.toArray⟩ = some s :=
      fromUTF8?_eq_some.mpr rfl
    refine (bind_of_ok (a := c.offset) rfl).trans ((bind_of_ok taken).trans ?_)
    rw [read]
    rfl
  · obtain ⟨start, d, first, ok⟩ := bind_eq_ok ok
    cases first
    obtain ⟨bytes, d, taken, ok⟩ := bind_eq_ok ok
    obtain ⟨size, past⟩ := take_eq_ok.mp taken
    cases read : String.fromUTF8? ⟨bytes.toArray⟩ with
    | none =>
      rw [read] at ok
      cases ok
    | some t =>
      rw [read] at ok
      cases ok
      have written : s.toUTF8.data.toList = bytes := by
        rw [String.toUTF8_eq_toByteArray, fromUTF8?_eq_some.mp read]
      refine ⟨s, ⟨trivial, ?_⟩, rfl, ?_⟩
      · rw [← size, ← written]
        rfl
      · rw [written]
        exact past

theorem lookup_codec {byte : α → UInt8} {decode : UInt8 → Except DecodeError α}
    (inverse : ∀ b a, decode b = .ok a ↔ byte a = b) :
    Codec (fun _ => True) (fun a => [byte a]) id (fun _ => True) (do decode (← uint8)) := by
  have codec : Codec (fun _ => True) (fun a => Bytes.uint8 (byte a) ++ []) id (fun _ => True ∧ True)
      (do decode (← uint8)) := by
    refine uint8_codec.field byte (fun _ _ => trivial) fun b _ => ?_
    cases found : decode b with
    | ok a =>
      have same : (liftM (decode b) : Reader α) = pure a := by
        rw [found]
        rfl
      rw [id, same]
      refine Codec.ended a (fun t => ?_) rfl
      rw [← inverse, true_and, found, Except.ok.injEq, eq_comm]
    | error e =>
      have same : (liftM (decode b) : Reader α) = throw e := by
        rw [found]
        rfl
      rw [id, same]
      refine Codec.refused fun t fits => ?_
      rw [← inverse, found] at fits
      cases fits.2
  exact codec.congr (fun _ => Iff.rfl) (fun _ _ => rfl) (fun _ _ => rfl) fun _ _ =>
    (and_self_iff).symm

/-- The offset is there for error messages alone. -/
theorem offset_codec {next : Nat → Reader α}
    (codec : ∀ n, Codec form write meaning shallow (next n)) :
    Codec form write meaning shallow (offset >>= next) :=
  ⟨(codec _).reads, (codec _).rejects, (codec _).accepts, (codec 0).unique⟩

end

end Reader

end StackMachine
