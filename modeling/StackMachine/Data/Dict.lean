import StackMachine.Data.Scalar

/-! Maps from scalars, kept as entries in ascending key order. The order is part of the type, so
every dictionary has at most one entry for a key. -/

namespace StackMachine

namespace Entries

variable {α : Type}

def insert (key : Scalar) (value : α) : List (Scalar × α) → List (Scalar × α)
  | [] => [(key, value)]
  | entry :: rest =>
    match key.order entry.1 with
    | .lt => (key, value) :: entry :: rest
    | .eq => (entry.1, value) :: rest
    | .gt => entry :: insert key value rest

def find? (key : Scalar) : List (Scalar × α) → Option α
  | [] => none
  | entry :: rest =>
    match key.order entry.1 with
    | .lt => none
    | .eq => some entry.2
    | .gt => find? key rest

def Ascending (entries : List (Scalar × α)) : Prop :=
  entries.Pairwise fun a b => a.1.order b.1 = .lt

theorem mem_insert {key : Scalar} {value : α} {entries : List (Scalar × α)} {entry : Scalar × α}
    (member : entry ∈ insert key value entries) :
    entry.1 = key ∨ ∃ old ∈ entries, old.1 = entry.1 := by
  fun_induction insert key value entries with
  | case1 => simp_all
  | case2 head rest before =>
    rcases List.mem_cons.mp member with rfl | old
    · exact .inl rfl
    · exact .inr ⟨entry, old, rfl⟩
  | case3 head rest equal =>
    rcases List.mem_cons.mp member with rfl | old
    · exact .inr ⟨head, List.mem_cons_self, rfl⟩
    · exact .inr ⟨entry, List.mem_cons_of_mem _ old, rfl⟩
  | case4 head rest after ih =>
    rcases List.mem_cons.mp member with rfl | old
    · exact .inr ⟨entry, List.mem_cons_self, rfl⟩
    · rcases ih old with same | ⟨found, inside, same⟩
      · exact .inl same
      · exact .inr ⟨found, List.mem_cons_of_mem _ inside, same⟩

theorem Ascending.insert {key : Scalar} {value : α} {entries : List (Scalar × α)}
    (ascending : Ascending entries) : Ascending (insert key value entries) := by
  unfold Ascending at *
  fun_induction Entries.insert key value entries with
  | case1 => simp
  | case2 head rest before =>
    refine List.pairwise_cons.mpr ⟨fun entry member => ?_, ascending⟩
    rcases List.mem_cons.mp member with rfl | later
    · exact before
    · exact Std.TransCmp.lt_trans before (List.rel_of_pairwise_cons ascending later)
  | case3 head rest equal =>
    exact List.pairwise_cons.mpr (List.pairwise_cons.mp ascending)
  | case4 head rest after ih =>
    obtain ⟨first, others⟩ := List.pairwise_cons.mp ascending
    refine List.pairwise_cons.mpr ⟨fun entry member => ?_, ih others⟩
    rcases mem_insert member with same | ⟨old, inside, same⟩
    · rw [same]
      exact Std.OrientedCmp.gt_iff_lt.mp after
    · rw [← same]
      exact first old inside

end Entries

structure Dict (α : Type) where
  entries : List (Scalar × α)
  ascending : Entries.Ascending entries

namespace Dict

variable {α : Type}

def empty : Dict α :=
  ⟨[], List.Pairwise.nil⟩

instance : Inhabited (Dict α) :=
  ⟨empty⟩

def size (d : Dict α) : Nat :=
  d.entries.length

def find? (d : Dict α) (key : Scalar) : Option α :=
  Entries.find? key d.entries

def insert (d : Dict α) (key : Scalar) (value : α) : Dict α :=
  ⟨Entries.insert key value d.entries, d.ascending.insert⟩

/-- Insert the pairs from left to right, so a later pair wins. -/
def insertAll (d : Dict α) (pairs : List (Scalar × α)) : Dict α :=
  pairs.foldl (fun d pair => d.insert pair.1 pair.2) d

def ofList (pairs : List (Scalar × α)) : Dict α :=
  empty.insertAll pairs

end Dict

end StackMachine
