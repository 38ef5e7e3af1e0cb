import Mathlib.Data.Finset.Card
import Mathlib.Data.Finset.Lattice.Basic
import StackMachine.Proofs.Mutation

/-! The sum of two maps. A dictionary is determined by what is found under its keys, and under a key
of a union one finds the value of the second dictionary, or else that of the first. So unions are
associative and idempotent, and the sums of maps in the store are too, whatever these maps share or
hold. -/

namespace StackMachine

theorem Scalar.order_irrefl {a : Scalar} (before : a.order a = .lt) : False := by
  have same : a.order a = .eq := Std.ReflCmp.compare_self
  rw [before] at same
  contradiction

namespace Entries

variable {α : Type} {key : Scalar} {value : α} {entries pairs : List (Scalar × α)}

theorem mem_iff_find? (ascending : Ascending entries) :
    (key, value) ∈ entries ↔ find? key entries = some value :=
  ⟨fun member => find?_of_mem ascending member, mem_of_find?⟩

theorem Ascending.nodup_keys (ascending : Ascending entries) : (entries.map Prod.fst).Nodup := by
  refine List.pairwise_map.mpr (ascending.imp fun {e f} before same => ?_)
  exact Scalar.order_irrefl (same ▸ before)

theorem find?_eq_none_of_lt (before : ∀ e ∈ entries, key.order e.1 = .lt) :
    find? key entries = none := by
  cases entries with
  | nil => rfl
  | cons first rest => simp only [find?, before first List.mem_cons_self]

theorem find?_cons {pair : Scalar × α} (ascending : Ascending (pair :: entries)) (k : Scalar) :
    find? k (pair :: entries) = if k = pair.1 then some pair.2 else find? k entries := by
  obtain ⟨first, others⟩ := List.pairwise_cons.mp ascending
  rw [find?]
  split
  next before =>
    have apart : k ≠ pair.1 := fun same => Scalar.order_irrefl (same ▸ before)
    rw [if_neg apart, find?_eq_none_of_lt fun e member => Std.TransCmp.lt_trans before
      (first e member)]
  next found => rw [if_pos (Std.LawfulEqCmp.eq_of_compare found)]
  next after =>
    have apart : k ≠ pair.1 := by
      rintro rfl
      exact Scalar.order_irrefl (Std.OrientedCmp.gt_iff_lt.mp after)
    rw [if_neg apart]

theorem ext_find? (first : Ascending entries) (second : Ascending pairs)
    (same : ∀ k, find? k entries = find? k pairs) : entries = pairs := by
  have members (e : Scalar × α) : e ∈ entries ↔ e ∈ pairs := by
    rw [mem_iff_find? first, mem_iff_find? second, same]
  have perm := (List.perm_ext_iff_of_nodup first.nodup_keys.of_map second.nodup_keys.of_map).mpr
    members
  refine perm.eq_of_pairwise (fun e f _ _ before after => ?_) first second
  exact (Scalar.order_irrefl (Std.TransCmp.lt_trans before after)).elim

end Entries

namespace Dict

variable {α : Type} {a b c d : Dict α} {k : Scalar}

def domain (d : Dict α) : Finset Scalar :=
  (d.entries.map Prod.fst).toFinset

def union (a b : Dict α) : Dict α :=
  a.insertAll b.entries

theorem ext_find? (same : ∀ k, a.find? k = b.find? k) : a = b := by
  cases a with
  | mk entries ascending =>
    cases b with
    | mk others ascending' =>
      obtain rfl : entries = others := Entries.ext_find? ascending ascending' same
      rfl

theorem mem_domain : k ∈ d.domain ↔ (d.find? k).isSome := by
  rw [domain, List.mem_toFinset, List.mem_map, Option.isSome_iff_exists]
  constructor
  · rintro ⟨e, member, rfl⟩
    exact ⟨e.2, Entries.find?_of_mem d.ascending member⟩
  · rintro ⟨value, found⟩
    exact ⟨(k, value), Entries.mem_of_find? found, rfl⟩

theorem card_domain (d : Dict α) : d.domain.card = d.size := by
  rw [domain, List.toFinset_card_of_nodup d.ascending.nodup_keys, List.length_map, size]

theorem find?_insert (key : Scalar) (value : α) (k : Scalar) :
    (d.insert key value).find? k = if k = key then some value else d.find? k :=
  Entries.find?_insert k

theorem find?_insertAll {pairs : List (Scalar × α)} (ascending : Entries.Ascending pairs)
    (d : Dict α) (k : Scalar) :
    (d.insertAll pairs).find? k = (Entries.find? k pairs).or (d.find? k) := by
  induction pairs generalizing d with
  | nil => rfl
  | cons pair rest ih =>
    obtain ⟨before, others⟩ := List.pairwise_cons.mp ascending
    have step : (d.insertAll (pair :: rest)).find? k =
        (Entries.find? k rest).or (if k = pair.1 then some pair.2 else d.find? k) := by
      rw [← find?_insert]
      exact ih others _
    rw [step, Entries.find?_cons ascending]
    by_cases same : k = pair.1
    · have missing : Entries.find? k rest = none :=
        Entries.find?_eq_none_of_lt fun e member => same ▸ before e member
      rw [if_pos same, if_pos same, missing, Option.none_or, Option.some_or]
    · rw [if_neg same, if_neg same]

theorem find?_union (a b : Dict α) (k : Scalar) :
    (a.union b).find? k = (b.find? k).or (a.find? k) :=
  find?_insertAll b.ascending a k

theorem union_assoc (a b c : Dict α) : (a.union b).union c = a.union (b.union c) := by
  apply ext_find?
  intro k
  simp only [find?_union, Option.or_assoc]

theorem union_self (a : Dict α) : a.union a = a := by
  apply ext_find?
  intro k
  rw [find?_union, Option.or_self]

theorem domain_union (a b : Dict α) : (a.union b).domain = a.domain ∪ b.domain := by
  ext k
  simp only [Finset.mem_union, mem_domain, find?_union, Option.isSome_or, Bool.or_eq_true]
  exact or_comm

theorem size_union (a b : Dict α) :
    (a.union b).size + (a.domain ∩ b.domain).card = a.size + b.size := by
  rw [← card_domain, ← card_domain a, ← card_domain b, domain_union,
    Finset.card_union_add_card_inter]

end Dict

namespace Store

variable {s t : Store} {a b c : MapRef}

/-- The new map `c` is the union of two maps, and whatever was there before is as it was. -/
structure Unites (s : Store) (a b c : MapRef) (t : Store) : Prop where
  new : ¬ s.Has (.map c)
  there : t.Has (.map c)
  kept : s.Extends t
  find : ∀ k, (t.map c).find? k = ((s.map b).find? k).or ((s.map a).find? k)
  ascending : (t.map c).entries.Pairwise fun e f => e.1.order f.1 = .lt
  size : (t.map c).size + ((s.map a).domain ∩ (s.map b).domain).card =
    (s.map a).size + (s.map b).size

theorem addMap_unites (s : Store) (a b : MapRef) :
    s.Unites a b ⟨s.maps.size⟩ (s.addMap ((s.map a).union (s.map b))).2 := by
  have holds : (s.addMap ((s.map a).union (s.map b))).2.map ⟨s.maps.size⟩ =
      (s.map a).union (s.map b) :=
    s.pushMap_map _
  refine ⟨s.not_has_pushMap, ?_, s.addMap_extends _, fun k => ?_, Dict.ascending _, ?_⟩
  · simp [Has, addMap, pushMap]
  · rw [holds, Dict.find?_union]
  · rw [holds, Dict.size_union]

theorem Unites.map_eq (unites : s.Unites a b c t) : t.map c = (s.map a).union (s.map b) := by
  apply Dict.ext_find?
  intro k
  rw [unites.find, Dict.find?_union]

end Store

namespace Op

open Store

variable {s : Store} {a b c : MapRef}

theorem add_maps_unites (s : Store) (a b : MapRef) :
    ∃ c t, add (.map a) (.map b) s = .ok (.map c) t ∧ s.Unites a b c t :=
  ⟨_, _, rfl, s.addMap_unites a b⟩

def bracketings (u v w : Value) : Op (Value × Value) := do
  let left ← add (← add u v) w
  let right ← add u (← add v w)
  return (left, right)

theorem bracketings_agree (hasA : s.Has (.map a)) (hasB : s.Has (.map b)) (hasC : s.Has (.map c)) :
    ∃ l r t, bracketings (.map a) (.map b) (.map c) s = .ok (.map l, .map r) t ∧
      (t.map l).entries = (t.map r).entries := by
  obtain ⟨ab, t₁, first, unites₁⟩ := add_maps_unites s a b
  obtain ⟨l, t₂, second, unites₂⟩ := add_maps_unites t₁ ab c
  obtain ⟨bc, t₃, third, unites₃⟩ := add_maps_unites t₂ b c
  obtain ⟨r, t₄, fourth, unites₄⟩ := add_maps_unites t₃ a bc
  refine ⟨l, r, t₄, ?_, ?_⟩
  · simp only [bracketings, bind, EStateM.bind, first, second, third, fourth]
    rfl
  · -- the sums before do not change what the later ones read
    have grown : s.Extends t₂ := unites₁.kept.trans unites₂.kept
    have readA : t₃.map a = s.map a := (grown.trans unites₃.kept).same (.map a) hasA
    have readB : t₂.map b = s.map b := grown.same (.map b) hasB
    have readC : t₂.map c = s.map c := grown.same (.map c) hasC
    have readC' : t₁.map c = s.map c := unites₁.kept.same (.map c) hasC
    have left : t₄.map l = ((s.map a).union (s.map b)).union (s.map c) := by
      have readL : t₄.map l = t₂.map l :=
        (unites₃.kept.trans unites₄.kept).same (.map l) unites₂.there
      rw [readL, unites₂.map_eq, unites₁.map_eq, readC']
    have right : t₄.map r = (s.map a).union ((s.map b).union (s.map c)) := by
      rw [unites₄.map_eq, unites₃.map_eq, readA, readB, readC]
    rw [left, right, Dict.union_assoc]

/-- The sum of two maps is their union. For any maps of the store, also if they are one map or hold
each other, the sum is a new map, in which the values of the second one win; its keys ascend, and it
has as many as the two have apart. No container that was there is changed. So sums of maps can be
bracketed either way, and a map added to itself has the entries that it had. -/
theorem add_maps_exact (s : Store) (a b c : MapRef) (hasA : s.Has (.map a)) (hasB : s.Has (.map b))
    (hasC : s.Has (.map c)) :
    (∃ u t, add (.map a) (.map b) s = .ok (.map u) t ∧ s.Unites a b u t) ∧
    (∃ l r t, bracketings (.map a) (.map b) (.map c) s = .ok (.map l, .map r) t ∧
      (t.map l).entries = (t.map r).entries) ∧
    ∃ u t, add (.map a) (.map a) s = .ok (.map u) t ∧ (t.map u).entries = (s.map a).entries := by
  refine ⟨add_maps_unites s a b, bracketings_agree hasA hasB hasC, ?_⟩
  obtain ⟨u, t, done, unites⟩ := add_maps_unites s a a
  exact ⟨u, t, done, by rw [unites.map_eq, Dict.union_self]⟩

end Op

/-- Two maps that hold each other under the same key. Each has another key: a number that equals the
first key, and a pattern that is no number. -/
def Store.crossed : Store where
  maps := #[.ofList [(.int 1, .map ⟨1⟩), (.float ⟨0x3ff0000000000000⟩, .null)],
    .ofList [(.float ⟨0x7ff8000000000000⟩, .bool true), (.int 1, .map ⟨0⟩)]]

theorem Op.add_maps_exact_crossed :
    Store.crossed.Has (.map ⟨0⟩) ∧ Store.crossed.Has (.map ⟨1⟩) ∧
      ∃ u t, add (.map ⟨0⟩) (.map ⟨1⟩) Store.crossed = .ok (.map u) t ∧
        (t.map u).find? (.int 1) = some (.map ⟨0⟩) ∧
        (t.map u).find? (.float ⟨0x3ff0000000000000⟩) = some .null ∧ (t.map u).size = 3 := by
  have first : Store.crossed.Has (.map ⟨0⟩) := Nat.zero_lt_two
  have second : Store.crossed.Has (.map ⟨1⟩) := Nat.one_lt_two
  obtain ⟨⟨u, t, done, unites⟩, _⟩ := add_maps_exact Store.crossed ⟨0⟩ ⟨1⟩ ⟨0⟩ first second first
  have size := unites.size
  refine ⟨first, second, u, t, done, ?_, ?_, ?_⟩
  · rw [unites.find]
    decide +kernel
  · rw [unites.find]
    decide +kernel
  · have common : ((Store.crossed.map ⟨0⟩).domain ∩ (Store.crossed.map ⟨1⟩).domain).card = 1 := by
      decide +kernel
    have sizes : (Store.crossed.map ⟨0⟩).size = 2 ∧ (Store.crossed.map ⟨1⟩).size = 2 := by
      decide +kernel
    omega

end StackMachine
