import StackMachine.Proofs.Loading
import StackMachine.Proofs.MapUnion

/-! Scalars as the keys of maps. Their order is total and tells any two of them apart: doubles stand
in it by sign and magnitude of their patterns, so that the two zeros and all patterns that are not
numbers are keys of their own. Therefore a map that is built by any edits has ascending keys, each
of them once, and a key finds what was last put under it. -/

namespace StackMachine

/-- The total order of patterns: the negative ones first, by falling magnitude, and then the others,
by rising magnitude. -/
inductive Double.Precedes (x y : Double) : Prop
  | signs (below : x.negative = true) (above : y.negative = false)
  | rising (first : x.negative = false) (second : y.negative = false)
    (less : x.magnitude < y.magnitude)
  | falling (first : x.negative = true) (second : y.negative = true)
    (greater : y.magnitude < x.magnitude)

theorem Double.totalPlace_lt_iff {x y : Double} : x.totalPlace < y.totalPlace ↔ x.Precedes y := by
  constructor
  · intro less
    cases first : x.negative <;> cases second : y.negative <;>
      simp only [totalPlace, first, second, if_true, Bool.false_eq_true, if_false] at less
    · exact .rising first second (by omega)
    · omega
    · exact .signs first second
    · exact .falling first second (by omega)
  · rintro (⟨first, second⟩ | ⟨first, second, less⟩ | ⟨first, second, greater⟩) <;>
      simp only [totalPlace, first, second, if_true, Bool.false_eq_true, if_false] <;> omega

namespace Scalar

variable {a b c : Scalar}

inductive Same : Scalar → Scalar → Prop
  | null : Same .null .null
  | bool {p q : Bool} (equal : p = q) : Same (.bool p) (.bool q)
  | int {n m : Int64} (equal : n = m) : Same (.int n) (.int m)
  | float {x y : Double} (bits : x.bits = y.bits) : Same (.float x) (.float y)
  | text {t u : String} (equal : t = u) : Same (.text t) (.text u)

theorem same_iff : a.Same b ↔ a = b := by
  constructor
  · intro same
    cases same with
    | null => rfl
    | bool equal => rw [equal]
    | int equal => rw [equal]
    | @float x y bits =>
      cases x
      cases y
      exact congrArg (fun bits => float ⟨bits⟩) bits
    | text equal => rw [equal]
  · rintro rfl
    cases a with
    | null => exact .null
    | bool => exact .bool rfl
    | int => exact .int rfl
    | float => exact .float rfl
    | text => exact .text rfl

theorem order_eq_iff : a.order b = .eq ↔ a = b :=
  Std.LawfulEqCmp.compare_eq_iff_eq

theorem order_trans {o : Ordering} (first : a.order b = o) (second : b.order c = o) :
    a.order c = o := by
  cases o with
  | lt => exact Std.TransCmp.lt_trans first second
  | eq => exact Std.TransCmp.eq_trans first second
  | gt => exact Std.TransCmp.gt_trans first second

theorem order_float {x y : Double} : (float x).order (.float y) = .lt ↔ x.Precedes y := by
  rw [← Double.totalPlace_lt_iff, ← Int.compare_eq_lt]
  simp [order, place]

end Scalar

/-- What can be done to a map: put a value under a key, fill the map anew with some pairs, or change
the value of a key where it stands. -/
inductive Edit (α : Type) where
  | insert (key : Scalar) (value : α)
  | refill (pairs : List (Scalar × α))
  | update (key : Scalar) (change : α → α)

namespace Edit

variable {α : Type}

def apply (entries : List (Scalar × α)) : Edit α → List (Scalar × α)
  | insert key value => Entries.insert key value entries
  | refill pairs => pairs.foldl (fun entries pair => Entries.insert pair.1 pair.2 entries) []
  | update key change =>
    ((Entries.find? key entries).map fun old => Entries.insert key (change old) entries).getD
      entries

/-- What a key finds after an edit, if it found `old` before. -/
def found (k : Scalar) (old : Option α) : Edit α → Option α
  | insert key value => if k = key then some value else old
  | refill pairs => (pairs.reverse.find? (·.1 = k)).map (·.2)
  | update key change => if k = key then old.map change else old

end Edit

namespace Entries

variable {α : Type} {entries pairs : List (Scalar × α)}

theorem Ascending.insertAll (ascending : Ascending entries) :
    Ascending (pairs.foldl (fun entries pair => Entries.insert pair.1 pair.2 entries) entries) := by
  induction pairs generalizing entries with
  | nil => exact ascending
  | cons pair pairs ih => exact ih ascending.insert

theorem Ascending.edit (ascending : Ascending entries) (e : Edit α) :
    Ascending (e.apply entries) := by
  cases e with
  | insert key value => exact ascending.insert
  | refill pairs => exact Ascending.insertAll List.Pairwise.nil
  | update key change =>
    rw [Edit.apply]
    cases find? key entries with
    | none => exact ascending
    | some old => exact ascending.insert

theorem Ascending.edits (ascending : Ascending entries) (edits : List (Edit α)) :
    Ascending (edits.foldl Edit.apply entries) := by
  induction edits generalizing entries with
  | nil => exact ascending
  | cons e edits ih => exact ih (ascending.edit e)

end Entries

namespace Dict

variable {α : Type} {d : Dict α}

def edit (d : Dict α) : Edit α → Dict α
  | .insert key value => d.insert key value
  | .refill pairs => .ofList pairs
  | .update key change => ((d.find? key).map fun old => d.insert key (change old)).getD d

def edited (edits : List (Edit α)) : Dict α :=
  edits.foldl edit empty

theorem insertAll_entries (pairs : List (Scalar × α)) (d : Dict α) :
    (d.insertAll pairs).entries = pairs.foldl
      (fun entries pair => Entries.insert pair.1 pair.2 entries) d.entries := by
  induction pairs generalizing d with
  | nil => rfl
  | cons pair pairs ih => exact ih (d.insert pair.1 pair.2)

theorem edit_entries (d : Dict α) (e : Edit α) : (d.edit e).entries = e.apply d.entries := by
  cases e with
  | insert key value => rfl
  | refill pairs => exact insertAll_entries pairs empty
  | update key change =>
    simp only [edit, Edit.apply, find?]
    cases Entries.find? key d.entries <;> rfl

theorem foldl_edit_entries (edits : List (Edit α)) (d : Dict α) :
    (edits.foldl edit d).entries = edits.foldl Edit.apply d.entries := by
  induction edits generalizing d with
  | nil => rfl
  | cons e edits ih =>
    rw [List.foldl_cons, List.foldl_cons, ih, edit_entries]

theorem find?_insertAll_last (pairs : List (Scalar × α)) (d : Dict α) (k : Scalar) :
    (d.insertAll pairs).find? k = ((pairs.reverse.find? (·.1 = k)).map (·.2)).or (d.find? k) := by
  induction pairs generalizing d with
  | nil => rfl
  | cons pair pairs ih =>
    have step : (d.insertAll (pair :: pairs)).find? k = _ := ih (d.insert pair.1 pair.2)
    rw [step, find?_insert, List.reverse_cons, List.find?_append]
    cases pairs.reverse.find? (·.1 = k) with
    | some last => rfl
    | none =>
      by_cases same : k = pair.1
      · simp [same]
      · simp [same, Ne.symm same]

theorem find?_edit (d : Dict α) (e : Edit α) (k : Scalar) :
    (d.edit e).find? k = e.found k (d.find? k) := by
  cases e with
  | insert key value => exact find?_insert key value k
  | refill pairs => exact (find?_insertAll_last pairs empty k).trans (Option.or_none)
  | update key change =>
    simp only [edit, Edit.found]
    cases old : d.find? key with
    | none =>
      by_cases same : k = key
      · simp [same, old]
      · simp [same]
    | some value =>
      rw [Option.map_some, Option.getD_some, find?_insert]
      by_cases same : k = key
      · simp [same, old]
      · simp [same]

theorem edited_append (edits : List (Edit α)) (e : Edit α) :
    edited (edits ++ [e]) = (edited edits).edit e := by
  simp [edited]

/-- Scalars are keys. Their order is total: it is reflexive, turns round with its operands and is
transitive, and it finds those equal that are of one kind and have the same payload; doubles are
ordered by sign and magnitude of their patterns. A key that is made a value is read back as itself.
So whatever edits build a map, its entries have strictly ascending keys and no key twice; each entry
is what its key finds, and an edit changes what a key finds as it should. In particular a key finds
what was put under it, and all others find what they did before. -/
theorem keys_exact :
    (∀ a : Scalar, a.order a = .eq) ∧
    (∀ a b : Scalar, b.order a = (a.order b).swap) ∧
    (∀ (a b c : Scalar) (o : Ordering), a.order b = o → b.order c = o → a.order c = o) ∧
    (∀ a b : Scalar, a.order b = .eq ↔ a.Same b) ∧
    (∀ x y : Double, (Scalar.float x).order (.float y) = .lt ↔ x.Precedes y) ∧
    (∀ (s : Store) (a : Scalar), ∃ b, (s.addScalar a).2.key (s.addScalar a).1 = .ok b ∧
      b.order a = .eq) ∧
    ∀ (α : Type) (edits : List (Edit α)),
      (edited edits).entries = edits.foldl Edit.apply [] ∧
      (edits.foldl Edit.apply []).Pairwise (fun e f => e.1.order f.1 = .lt) ∧
      ((edits.foldl Edit.apply []).map Prod.fst).Nodup ∧
      (∀ k v, (k, v) ∈ (edited edits).entries ↔ (edited edits).find? k = some v) ∧
      (∀ e k, (edited (edits ++ [e])).find? k = e.found k ((edited edits).find? k)) ∧
      ∀ key value, ((edited edits).insert key value).find? key = some value ∧
        ∀ k, k.order key ≠ .eq → ((edited edits).insert key value).find? k =
          (edited edits).find? k := by
  refine ⟨fun a => Std.ReflCmp.compare_self, fun a b => Std.OrientedCmp.eq_swap,
    fun a b c o => Scalar.order_trans,
    fun a b => Scalar.order_eq_iff.trans Scalar.same_iff.symm, fun x y =>
    Scalar.order_float, fun s a => ?_, fun α edits => ?_⟩
  · refine ⟨a, ?_, Std.ReflCmp.compare_self⟩
    simp only [Store.key, Store.addScalar_scalar? a (.refl _)]
  · have ascending : Entries.Ascending (edits.foldl Edit.apply []) :=
      Entries.Ascending.edits List.Pairwise.nil edits
    refine ⟨foldl_edit_entries edits empty, ascending, ascending.nodup_keys,
      fun k v => Entries.mem_iff_find? (edited edits).ascending, fun e k => ?_,
      fun key value => ⟨?_, fun k other => ?_⟩⟩
    · rw [edited_append, find?_edit]
    · rw [find?_insert, if_pos rfl]
    · rw [find?_insert, if_neg fun same => other (Scalar.order_eq_iff.mpr same)]

theorem keys_exact_apart :
    let zero : Scalar := .float ⟨0⟩
    let negative : Scalar := .float ⟨0x8000000000000000⟩
    let invalid : Scalar := .float ⟨0x7ff8000000000000⟩
    let edits : List (Edit Nat) :=
      [.insert invalid 1, .insert (.float ⟨0x3ff0000000000000⟩) 2, .insert (.int 1) 3,
      .insert zero 4, .insert negative 5, .update invalid (· + 10), .insert zero 6]
    (negative.order zero = .lt ∧ zero.order invalid = .lt ∧ negative.order invalid = .lt) ∧
      (edited edits).find? invalid = some 11 ∧
        (edited edits).entries.map Prod.snd = [3, 5, 6, 2, 11] ∧
      ((edited edits).insert invalid 7).find? zero = (edited edits).find? zero := by
  intro zero negative invalid edits
  obtain ⟨_, _, trans, _, _, _, maps⟩ := keys_exact
  obtain ⟨built, _, _, _, _, finds⟩ := maps Nat edits
  have below : negative.order zero = .lt := by decide
  have above : zero.order invalid = .lt := by decide
  refine ⟨⟨below, above, trans _ _ _ _ below above⟩, by decide +kernel, ?_, (finds invalid
    7).2 zero (by simp [above])⟩
  rw [built]
  decide +kernel

end Dict

end StackMachine
