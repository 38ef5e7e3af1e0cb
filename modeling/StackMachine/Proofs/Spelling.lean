import StackMachine.Proofs.Codec
import StackMachine.Proofs.Dictionary

/-! How literals are spelled.

A literal can be written in several ways: any byte but zero stands for `true`, and the entries of a
map may come in any order and override one another. A spelling keeps what the literal forgets. A
spelling is canonical if its boolean bytes are 0 or 1 and its map keys ascend; these are the
spellings of the writer. -/

namespace StackMachine

theorem map_eq_self {α : Type} {l : List α} {f : α → α} (fixed : ∀ a ∈ l, f a = a) :
    l.map f = l := by
  rw [List.map_congr_left fixed, List.map_id']

theorem length_flatMap_le {α β : Type} {l : List α} {f g : α → List β}
    (shorter : ∀ a ∈ l, (f a).length ≤ (g a).length) :
    (l.flatMap f).length ≤ (l.flatMap g).length := by
  induction l with
  | nil => exact Nat.le_refl _
  | cons a rest ih =>
    simp only [List.flatMap_cons, List.length_append]
    exact Nat.add_le_add (shorter a List.mem_cons_self)
      (ih fun b member => shorter b (List.mem_cons_of_mem _ member))

theorem foldr_max_le {α : Type} {l : List α} {f : α → Nat} {n : Nat} :
    (l.map fun a => f a + 1).foldr max 0 ≤ n ↔ ∀ a ∈ l, f a < n := by
  induction l with
  | nil => simp
  | cons a rest ih =>
    rw [List.map_cons, List.foldr_cons, Nat.max_le, ih, List.forall_mem_cons]
    exact Iff.rfl

namespace Datum

variable {β : Type}

theorem sizeOf_item {items : List (Datum β)} {d : Datum β} (member : d ∈ items) :
    sizeOf d < sizeOf (list items) := by
  have smaller := List.sizeOf_lt_of_mem member
  simp only [list.sizeOf_spec]
  omega

theorem sizeOf_value {entries : List (Scalar × Datum β)} {e : Scalar × Datum β}
    (member : e ∈ entries) : sizeOf e.2 < sizeOf (map entries) := by
  have smaller := List.sizeOf_lt_of_mem member
  have part : sizeOf e = 1 + sizeOf e.1 + sizeOf e.2 := rfl
  simp only [map.sizeOf_spec]
  omega

/-- How many levels lie below the root. A key lies one level below its map, as the value beside it
does. -/
def height : Datum β → Nat
  | undefined => 0
  | scalar _ => 0
  | list items => (items.map fun d => d.height + 1).foldr max 0
  | map entries => (entries.map fun e => e.2.height + 1).foldr max 0
  | back _ => 0
decreasing_by
  · exact sizeOf_item ‹_›
  · exact sizeOf_value ‹_›

theorem height_list_le {items : List (Datum β)} {n : Nat} :
    (list items).height ≤ n ↔ ∀ d ∈ items, d.height < n := by
  rw [height, foldr_max_le]

theorem height_map_le {entries : List (Scalar × Datum β)} {n : Nat} :
    (map entries).height ≤ n ↔ ∀ e ∈ entries, e.2.height < n := by
  rw [height, foldr_max_le]

end Datum

namespace Literal

theorem induct {P : Literal → Prop} (undefined : P .undefined) (scalar : ∀ v, P (.scalar v))
    (list : ∀ items, (∀ l ∈ items, P l) → P (.list items))
    (map : ∀ entries, (∀ e ∈ entries, P e.2) → P (.map entries)) : ∀ l, P l
  | .undefined => undefined
  | .scalar v => scalar v
  | .list items => list items fun l _ => induct undefined scalar list map l
  | .map entries => map entries fun e _ => induct undefined scalar list map e.2
decreasing_by
  · exact Datum.sizeOf_item ‹_›
  · exact Datum.sizeOf_value ‹_›

inductive Ordered : Literal → Prop
  | undefined : Ordered .undefined
  | scalar (value : Scalar) : Ordered (.scalar value)
  | list {items : List Literal} : (∀ l ∈ items, Ordered l) → Ordered (.list items)
  | map {entries : List (Scalar × Literal)} :
    Entries.Ascending entries → (∀ e ∈ entries, Ordered e.2) →
    Ordered (.map entries)

theorem encodeItems_eq (items : List Literal) : encodeItems items = items.flatMap encode := by
  induction items with
  | nil => rw [encodeItems, List.flatMap_nil]
  | cons item rest ih => rw [encodeItems, ih, List.flatMap_cons]

theorem encodeEntries_eq (entries : List (Scalar × Literal)) :
    encodeEntries entries = entries.flatMap fun e => e.1.encode ++ encode e.2 := by
  induction entries with
  | nil => rw [encodeEntries, List.flatMap_nil]
  | cons entry rest ih => rw [encodeEntries, ih, List.flatMap_cons]

end Literal

inductive Leaf where
  | null
  | bool (byte : UInt8)
  | int (n : Int64)
  | float (x : Double)
  | text (s : String)

inductive Spelling where
  | undefined
  | leaf (leaf : Leaf)
  | list (items : List Spelling)
  | map (entries : List (Leaf × Spelling))

namespace Leaf

def tag : Leaf → Tag
  | null => .null
  | bool _ => .bool
  | int _ => .int
  | float _ => .float
  | text _ => .text

def payload : Leaf → Bytes
  | null => []
  | bool byte => [byte]
  | int n => Bytes.uint64 n.toUInt64
  | float x => Bytes.uint64 x.bits
  | text s => Bytes.string s

def bytes (l : Leaf) : Bytes :=
  l.tag.byte :: l.payload

def scalar : Leaf → Scalar
  | null => .null
  | bool byte => .bool (byte != 0)
  | int n => .int n
  | float x => .float x
  | text s => .text s

def ofScalar : Scalar → Leaf
  | .null => null
  | .bool b => bool b.toUInt8
  | .int n => int n
  | .float x => float x
  | .text s => text s

def Canonical : Leaf → Prop
  | bool byte => byte = 0 ∨ byte = 1
  | _ => True

theorem scalar_ofScalar (s : Scalar) : (ofScalar s).scalar = s := by
  cases s with
  | bool b => cases b <;> rfl
  | _ => rfl

theorem bytes_ofScalar (s : Scalar) : (ofScalar s).bytes = s.encode := by
  cases s <;> rfl

theorem canonical_ofScalar (s : Scalar) : (ofScalar s).Canonical := by
  cases s with
  | bool b => cases b <;> simp only [ofScalar, Canonical] <;> decide
  | _ => trivial

theorem Canonical.ofScalar_scalar {l : Leaf} (canonical : l.Canonical) : ofScalar l.scalar = l := by
  cases l with
  | bool byte => rcases canonical with rfl | rfl <;> rfl
  | _ => rfl

theorem length_encode_scalar (l : Leaf) : l.scalar.encode.length = l.bytes.length := by
  cases l <;> rfl

end Leaf

namespace Spelling

def tag : Spelling → Tag
  | undefined => .undefined
  | leaf l => l.tag
  | list _ => .list
  | map _ => .map

theorem shape (s : Spelling) : match s.tag with
    | .undefined => s = undefined
    | .null => s = leaf .null
    | .int => ∃ n, s = leaf (.int n)
    | .float => ∃ x, s = leaf (.float x)
    | .bool => ∃ byte, s = leaf (.bool byte)
    | .text => ∃ t, s = leaf (.text t)
    | .list => ∃ items, s = list items
    | .map => ∃ entries, s = map entries := by
  cases s with
  | leaf l => cases l <;> simp [tag, Leaf.tag]
  | _ => simp [tag]

theorem sizeOf_item {items : List Spelling} {s : Spelling} (member : s ∈ items) :
    sizeOf s < sizeOf (list items) := by
  have smaller := List.sizeOf_lt_of_mem member
  simp only [list.sizeOf_spec]
  omega

theorem sizeOf_value {entries : List (Leaf × Spelling)} {e : Leaf × Spelling}
    (member : e ∈ entries) : sizeOf e.2 < sizeOf (map entries) := by
  have smaller := List.sizeOf_lt_of_mem member
  have part : sizeOf e = 1 + sizeOf e.1 + sizeOf e.2 := rfl
  simp only [map.sizeOf_spec]
  omega

@[induction_eliminator]
theorem induct {P : Spelling → Prop} (undefined : P undefined) (leaf : ∀ l, P (leaf l))
    (list : ∀ items, (∀ s ∈ items, P s) → P (list items))
    (map : ∀ entries, (∀ e ∈ entries, P e.2) → P (map entries)) : ∀ s, P s
  | .undefined => undefined
  | .leaf l => leaf l
  | .list items => list items fun s _ => induct undefined leaf list map s
  | .map entries => map entries fun e _ => induct undefined leaf list map e.2
decreasing_by
  · exact sizeOf_item ‹_›
  · exact sizeOf_value ‹_›

def bytes : Spelling → Bytes
  | undefined => [Tag.undefined.byte]
  | leaf l => l.bytes
  | list items => Tag.list.byte :: Bytes.count items.length ++ items.flatMap bytes
  | map entries =>
    Tag.map.byte :: Bytes.count entries.length ++ entries.flatMap fun e => e.1.bytes ++ e.2.bytes
decreasing_by
  · exact sizeOf_item ‹_›
  · exact sizeOf_value ‹_›

theorem bytes_eq (s : Spelling) : s.bytes = [s.tag.byte] ++ s.bytes.tail := by
  cases s <;> simp [bytes, tag, Leaf.bytes]

theorem bytes_ne_nil (s : Spelling) : s.bytes ≠ [] := by
  rw [bytes_eq]
  exact List.cons_ne_nil _ _

/-- What is read: of entries with the same key the last one stays. -/
def literal : Spelling → Literal
  | undefined => .undefined
  | leaf l => .scalar l.scalar
  | list items => .list (items.map literal)
  | map entries => .ofPairs (entries.map fun e => (e.1.scalar, e.2.literal))
decreasing_by
  · exact sizeOf_item ‹_›
  · exact sizeOf_value ‹_›

def height : Spelling → Nat
  | undefined => 0
  | leaf _ => 0
  | list items => (items.map fun s => s.height + 1).foldr max 0
  | map entries => (entries.map fun e => e.2.height + 1).foldr max 0
decreasing_by
  · exact sizeOf_item ‹_›
  · exact sizeOf_value ‹_›

theorem height_list_le {items : List Spelling} {n : Nat} :
    (list items).height ≤ n ↔ ∀ s ∈ items, s.height < n := by
  rw [height, foldr_max_le]

theorem height_map_le {entries : List (Leaf × Spelling)} {n : Nat} :
    (map entries).height ≤ n ↔ ∀ e ∈ entries, e.2.height < n := by
  rw [height, foldr_max_le]

def ofLiteral : Literal → Spelling
  | .undefined => undefined
  | .scalar value => leaf (.ofScalar value)
  | .list items => list (items.map ofLiteral)
  | .map entries => map (entries.map fun e => (.ofScalar e.1, ofLiteral e.2))
decreasing_by
  · exact Datum.sizeOf_item ‹_›
  · exact Datum.sizeOf_value ‹_›

inductive Canonical : Spelling → Prop
  | undefined : Canonical undefined
  | leaf {l : Leaf} : l.Canonical → Canonical (leaf l)
  | list {items : List Spelling} : (∀ s ∈ items, Canonical s) → Canonical (list items)
  | map {entries : List (Leaf × Spelling)} :
    (entries.map fun e => e.1.scalar).Pairwise (fun a b => a.order b = .lt) →
    (∀ e ∈ entries, e.1.Canonical) → (∀ e ∈ entries, Canonical e.2) → Canonical (map entries)

theorem bytes_ofLiteral (l : Literal) : (ofLiteral l).bytes = l.encode := by
  induction l using Literal.induct with
  | undefined => simp [ofLiteral, bytes, Literal.encode]
  | scalar v => simp [ofLiteral, bytes, Literal.encode, Leaf.bytes_ofScalar]
  | list items ih =>
    have same : items.map (fun l => (ofLiteral l).bytes) = items.map Literal.encode :=
      List.map_congr_left ih
    simp [ofLiteral, bytes, Literal.encode, Literal.encodeItems_eq, List.flatMap_def,
      Function.comp_def, same]
  | map entries ih =>
    have same : entries.map (fun e => (Leaf.ofScalar e.1).bytes ++ (ofLiteral e.2).bytes) =
        entries.map fun e => e.1.encode ++ Literal.encode e.2 :=
      List.map_congr_left fun e member => by rw [Leaf.bytes_ofScalar, ih e member]
    simp [ofLiteral, bytes, Literal.encode, Literal.encodeEntries_eq, List.flatMap_def,
      Function.comp_def, same]

theorem height_ofLiteral (l : Literal) : (ofLiteral l).height = l.height := by
  induction l using Literal.induct with
  | undefined => simp [ofLiteral, height, Datum.height]
  | scalar v => simp [ofLiteral, height, Datum.height]
  | list items ih =>
    have same : items.map (fun l => (ofLiteral l).height + 1) = items.map fun l => l.height + 1 :=
      List.map_congr_left fun l member => by rw [ih l member]
    simp [ofLiteral, height, Datum.height, Function.comp_def, same]
  | map entries ih =>
    have same : entries.map (fun e => (ofLiteral e.2).height + 1) =
        entries.map fun e => e.2.height + 1 :=
      List.map_congr_left fun e member => by rw [ih e member]
    simp [ofLiteral, height, Datum.height, Function.comp_def, same]

theorem literal_ofLiteral {l : Literal} (ordered : l.Ordered) : (ofLiteral l).literal = l := by
  induction ordered with
  | undefined => simp [ofLiteral, literal]
  | scalar v => simp [ofLiteral, literal, Leaf.scalar_ofScalar]
  | @list items _ ih =>
    have same : items.map (fun l => (ofLiteral l).literal) = items := map_eq_self ih
    simp [ofLiteral, literal, Function.comp_def, same]
  | @map entries ascending _ ih =>
    have same : entries.map (fun e => ((Leaf.ofScalar e.1).scalar, (ofLiteral e.2).literal)) =
        entries :=
      map_eq_self fun e member => by rw [Leaf.scalar_ofScalar, ih e member]
    simp [ofLiteral, literal, Function.comp_def, same, Datum.ofPairs,
      Dict.ofList_of_ascending ascending]

theorem canonical_ofLiteral {l : Literal} (ordered : l.Ordered) : (ofLiteral l).Canonical := by
  induction ordered with
  | undefined =>
    rw [ofLiteral]
    exact .undefined
  | scalar v =>
    rw [ofLiteral]
    exact .leaf (Leaf.canonical_ofScalar v)
  | list _ ih =>
    rw [ofLiteral]
    refine .list fun s member => ?_
    obtain ⟨l, inside, rfl⟩ := List.mem_map.mp member
    exact ih l inside
  | map ascending _ ih =>
    rw [ofLiteral]
    refine .map ?_ ?_ ?_
    · simpa [Leaf.scalar_ofScalar, List.pairwise_map, Entries.Ascending] using ascending
    · intro e member
      obtain ⟨e, inside, rfl⟩ := List.mem_map.mp member
      exact Leaf.canonical_ofScalar e.1
    · intro e member
      obtain ⟨e, inside, rfl⟩ := List.mem_map.mp member
      exact ih e inside

theorem Canonical.ofLiteral_literal {s : Spelling} (canonical : s.Canonical) :
    ofLiteral s.literal = s := by
  induction canonical with
  | undefined => simp [ofLiteral, literal]
  | leaf canonical => simp [ofLiteral, literal, canonical.ofScalar_scalar]
  | @list items _ ih =>
    have same : items.map (fun s => ofLiteral s.literal) = items := map_eq_self ih
    simp [ofLiteral, literal, Function.comp_def, same]
  | @map entries ascending keys _ ih =>
    have ascending : Entries.Ascending (entries.map fun e => (e.1.scalar, e.2.literal)) := by
      simpa [Entries.Ascending, List.pairwise_map] using ascending
    have same : entries.map (fun e => (Leaf.ofScalar e.1.scalar, ofLiteral e.2.literal)) =
        entries :=
      map_eq_self fun e member => by rw [(keys e member).ofScalar_scalar, ih e member]
    simp [ofLiteral, literal, Datum.ofPairs, Dict.ofList_of_ascending ascending, Function.comp_def,
      same]

theorem ordered_literal (s : Spelling) : s.literal.Ordered := by
  induction s with
  | undefined =>
    rw [literal]
    exact .undefined
  | leaf l =>
    rw [literal]
    exact .scalar _
  | list items ih =>
    rw [literal]
    refine .list fun l member => ?_
    obtain ⟨s, inside, rfl⟩ := List.mem_map.mp member
    exact ih s inside
  | map entries ih =>
    rw [literal]
    refine .map (Dict.ascending _) fun e member => ?_
    obtain ⟨e, inside, rfl⟩ := List.mem_map.mp (Dict.mem_of_mem_ofList member)
    exact ih e inside

theorem height_literal_le (s : Spelling) : s.literal.height ≤ s.height := by
  induction s with
  | undefined => simp [literal, Datum.height]
  | leaf l => simp [literal, Datum.height]
  | list items ih =>
    rw [literal, Datum.height_list_le]
    intro l member
    obtain ⟨s, inside, rfl⟩ := List.mem_map.mp member
    exact Nat.lt_of_le_of_lt (ih s inside) (height_list_le.mp (Nat.le_refl _) s inside)
  | map entries ih =>
    rw [literal, Datum.ofPairs, Datum.height_map_le]
    intro e member
    obtain ⟨e, inside, rfl⟩ := List.mem_map.mp (Dict.mem_of_mem_ofList member)
    exact Nat.lt_of_le_of_lt (ih e inside) (height_map_le.mp (Nat.le_refl _) e inside)

theorem length_encode_literal_le (s : Spelling) : s.literal.encode.length ≤ s.bytes.length := by
  induction s with
  | undefined => simp [literal, bytes, Literal.encode]
  | leaf l => simp [literal, bytes, Literal.encode, Leaf.length_encode_scalar]
  | list items ih =>
    have shorter := length_flatMap_le ih
    simp only [literal, bytes, Literal.encode, Literal.encodeItems_eq, Bytes.count,
      List.cons_append,
      List.length_cons, List.length_append, Bytes.littleEndian_length, List.flatMap_map]
    omega
  | map entries ih =>
    have fewer := Dict.length_flatMap_ofList_le (fun e => e.1.encode ++ Literal.encode e.2)
      (entries.map fun e => (e.1.scalar, e.2.literal))
    rw [List.flatMap_map] at fewer
    have shorter : (entries.flatMap fun e => e.1.scalar.encode ++ e.2.literal.encode).length ≤
        (entries.flatMap fun e => e.1.bytes ++ e.2.bytes).length := by
      refine length_flatMap_le fun e member => ?_
      simp only [List.length_append, Leaf.length_encode_scalar]
      exact Nat.add_le_add_left (ih e member) _
    have total := Nat.le_trans fewer shorter
    simp only [literal, bytes, Datum.ofPairs, Literal.encode, Literal.encodeEntries_eq, Bytes.count,
      List.cons_append, List.length_cons, List.length_append, Bytes.littleEndian_length]
    omega

end Spelling

namespace Tag

theorem decode_eq_ok {b : UInt8} {tag : Tag} : decode b = .ok tag ↔ tag.byte = b := by
  unfold decode
  refine ⟨fun ok => ?_, fun same => ?_⟩
  · split at ok
    case h_1 t found =>
      cases ok
      have test := List.find?_some found
      exact beq_iff_eq.mp test
    case h_2 => cases ok
  · subst same
    cases tag <;> rfl

end Tag

namespace Reader

theorem tag_codec : Codec (fun _ => True) (fun t : Tag => [t.byte]) id (fun _ => True)
    (do Tag.decode (← uint8)) :=
  lookup_codec fun _ _ => Tag.decode_eq_ok

theorem pair_codec {room : Nat} (value : Codec (fun _ => True) Spelling.bytes Spelling.literal
      (fun s => s.height < room) (literal room)) :
    Codec (fun _ => True) (fun e : Leaf × Spelling => e.1.bytes ++ e.2.bytes)
      (fun e => (e.1.scalar, e.2.literal)) (fun e => e.2.height < room)
      (do
        let start ← offset
        match ← literal room with
        | .scalar key => return (key, ← literal room)
        | _ => throw (.invalidKey start)) := by
  refine offset_codec fun start => ?_
  refine value.bind (fun e => e.2.bytes) (fun e => e.2.height < room)
    (fun e s => .leaf e.1 = s) ?_ ?_ fun s _ => ?_
  · exact fun e _ => ⟨.leaf e.1, trivial, rfl⟩
  · rintro e _ _ rfl
    rw [Spelling.bytes, Spelling.height]
    -- A key is flat, so it fits wherever the value beside it does.
    exact ⟨rfl, by omega⟩
  · cases s with
    | leaf l =>
      rw [Spelling.literal]
      refine value.embed (fun s => (l, s)) (fun e => ?_) fun s _ => ⟨rfl, rfl, Iff.rfl⟩
      simp [Prod.ext_iff, eq_comm]
    | undefined =>
      rw [Spelling.literal]
      exact Codec.refused nofun
    | list items =>
      rw [Spelling.literal]
      exact Codec.refused nofun
    | map entries =>
      rw [Spelling.literal]
      exact Codec.refused nofun

section

variable {σ α : Type} {form : σ → Prop} {write : σ → Bytes} {meaning : σ → α} {shallow : σ → Prop}
  {read : Reader α} {f : α → Literal} {tag : Tag} {room : Nat}

theorem after_tag (codec : Codec form write meaning shallow read) (into : σ → Spelling)
    (reaches : ∀ s, s.tag = tag → ∃ x, form x ∧ into x = s)
    (same : ∀ x, form x → (into x).tag = tag ∧ (into x).bytes.tail = write x ∧
      (into x).literal = f (meaning x) ∧ ((into x).height < room ↔ shallow x)) :
    Codec (fun s => True ∧ s.tag = tag) (fun s => s.bytes.tail) Spelling.literal
      (fun s => s.height < room) (read >>= fun a => pure (f a)) := by
  refine codec.embed into (fun s => ⟨fun fits => reaches s fits.2, ?_⟩) fun x fits =>
    (same x fits).2
  rintro ⟨x, fits, rfl⟩
  exact ⟨trivial, (same x fits).1⟩

theorem nothing_after_tag {l : Literal} (s : Spelling) (only : ∀ s', s'.tag = tag ↔ s' = s)
    (ends : s.bytes.tail = []) (means : s.literal = l) (flat : s.height < room) :
    Codec (fun s => True ∧ s.tag = tag) (fun s => s.bytes.tail) Spelling.literal
      (fun s => s.height < room) (pure l) := by
  refine (Codec.ended s (fun s' => ?_) means).congr (fun _ => Iff.rfl) ?_ (fun _ _ => rfl) ?_
  · rw [true_and, only]
  · rintro s' ⟨_, fits⟩
    rw [(only s').mp fits, ends]
  · rintro s' ⟨_, fits⟩
    rw [(only s').mp fits]
    exact iff_true_intro flat

end

theorem literal_codec (room : Nat) :
    Codec (fun _ => True) Spelling.bytes Spelling.literal (fun s => s.height < room)
      (literal room) := by
  -- The induction is on the levels that are left, as the reader counts them, and not on the
  -- spelling.
  induction room with
  | zero =>
    refine ⟨fun _ _ _ easy => ?_, fun {s c c'} _ _ _ _ => ⟨c.offset, rfl⟩, nofun,
      fun _ _ _ _ _ easy => ?_⟩
    · exact (Nat.not_lt_zero _ easy).elim
    · exact (Nat.not_lt_zero _ easy).elim
  | succ room ih =>
    unfold literal
    -- The byte and its look-up make one part of the spelling, the tag.
    rw [← bind_assoc]
    refine tag_codec.bind (fun s => s.bytes.tail) (fun s => s.height < room + 1)
      (fun s t => s.tag = t) ?_ ?_ fun t _ => ?_
    · exact fun s _ => ⟨s.tag, trivial, rfl⟩
    · rintro s _ _ rfl
      exact ⟨s.bytes_eq, by rw [true_and]⟩
    cases t with
    | undefined =>
      refine nothing_after_tag .undefined (fun s => ⟨fun tag => ?_, ?_⟩) ?_ ?_ ?_
      · simpa only [tag] using s.shape
      · rintro rfl
        rfl
      · rw [Spelling.bytes, List.tail_cons]
      · rw [Spelling.literal]
      · rw [Spelling.height]
        exact Nat.zero_lt_succ room
    | null =>
      refine nothing_after_tag (.leaf .null) (fun s => ⟨fun tag => ?_, ?_⟩) ?_ ?_ ?_
      · simpa only [tag] using s.shape
      · rintro rfl
        rfl
      · rw [Spelling.bytes, Leaf.bytes, List.tail_cons, Leaf.payload]
      · rw [Spelling.literal, Leaf.scalar]
      · rw [Spelling.height]
        exact Nat.zero_lt_succ room
    | int =>
      refine after_tag (number_codec 8) (fun n => .leaf (.int (UInt64.ofNat n).toInt64))
        (fun s tag => ?_) fun n fits => ⟨rfl, ?_⟩
      · obtain ⟨n, rfl⟩ := by simpa only [tag] using s.shape
        exact ⟨n.toUInt64.toNat, Bytes.fits_eight.mpr (UInt64.toNat_lt _), by simp⟩
      · have small := Nat.mod_eq_of_lt (Bytes.fits_eight.mp fits)
        simp [Spelling.bytes, Spelling.literal, Spelling.height, Leaf.bytes, Leaf.payload,
          Leaf.scalar, Bytes.uint64, small]
    | float =>
      refine after_tag (number_codec 8) (fun n => .leaf (.float ⟨.ofNat n⟩)) (fun s tag => ?_)
        fun n fits => ⟨rfl, ?_⟩
      · obtain ⟨x, rfl⟩ := by simpa only [tag] using s.shape
        exact ⟨x.bits.toNat, Bytes.fits_eight.mpr (UInt64.toNat_lt _), by simp⟩
      · have small := Nat.mod_eq_of_lt (Bytes.fits_eight.mp fits)
        simp [Spelling.bytes, Spelling.literal, Spelling.height, Leaf.bytes, Leaf.payload,
          Leaf.scalar, Bytes.uint64, small]
    | bool =>
      refine after_tag uint8_codec (fun byte => .leaf (.bool byte)) (fun s tag => ?_) fun byte _ =>
        ⟨rfl, ?_⟩
      · obtain ⟨byte, rfl⟩ := by simpa only [tag] using s.shape
        exact ⟨byte, trivial, rfl⟩
      · simp [Spelling.bytes, Spelling.literal, Spelling.height, Leaf.bytes, Leaf.payload,
          Leaf.scalar, Bytes.uint8]
    | text =>
      refine after_tag string_codec (fun text => .leaf (.text text)) (fun s tag => ?_) fun text _ =>
        ⟨rfl, ?_⟩
      · obtain ⟨text, rfl⟩ := by simpa only [tag] using s.shape
        exact ⟨text, trivial, rfl⟩
      · simp [Spelling.bytes, Spelling.literal, Spelling.height, Leaf.bytes, Leaf.payload,
          Leaf.scalar]
    | list =>
      refine after_tag (array_codec ih fun s _ => s.bytes_ne_nil) (fun items => .list items.toList)
        (fun s tag => ?_) fun items _ => ⟨rfl, ?_, ?_, ?_⟩
      · obtain ⟨items, rfl⟩ := by simpa only [tag] using s.shape
        exact ⟨items.toArray, fun _ _ => trivial, rfl⟩
      · simp [Spelling.bytes, Bytes.array]
      · simp [Spelling.literal]
      · rw [Nat.lt_succ_iff, Spelling.height_list_le]
        simp
    | map =>
      refine after_tag (array_codec (pair_codec ih) fun e _ => ?_)
        (fun entries => .map entries.toList) (fun s tag => ?_) fun entries _ => ⟨rfl, ?_, ?_, ?_⟩
      · simp [Leaf.bytes]
      · obtain ⟨entries, rfl⟩ := by simpa only [tag] using s.shape
        exact ⟨entries.toArray, fun _ _ => trivial, rfl⟩
      · simp [Spelling.bytes, Bytes.array]
      · simp [Spelling.literal]
      · rw [Nat.lt_succ_iff, Spelling.height_map_le]
        simp

end Reader

end StackMachine
