import StackMachine.Data.Dict

/-! What a dictionary holds after pairs are put into it one by one: some of the pairs, and all of
them if their keys ascend. -/

namespace StackMachine

namespace Entries

variable {α : Type} {key : Scalar} {value : α} {entries pairs : List (Scalar × α)}

theorem insert_last (last : ∀ e ∈ entries, e.1.order key = .lt) :
    insert key value entries = entries ++ [(key, value)] := by
  induction entries with
  | nil => rfl
  | cons first rest ih =>
    have after : key.order first.1 = .gt :=
      Std.OrientedCmp.gt_iff_lt.mpr (last first List.mem_cons_self)
    have others := ih fun e member => last e (List.mem_cons_of_mem _ member)
    simp only [insert, after, others, List.cons_append]

theorem eq_or_mem_of_mem_insert {e : Scalar × α} (member : e ∈ insert key value entries) :
    e = (key, value) ∨ e ∈ entries := by
  fun_induction insert key value entries with
  | case1 => simpa using member
  | case2 first rest before => simpa using member
  | case3 first rest same =>
    rcases List.mem_cons.mp member with rfl | later
    · rw [Std.LawfulEqCmp.eq_of_compare same]
      exact .inl rfl
    · exact .inr (List.mem_cons_of_mem _ later)
  | case4 first rest after ih =>
    rcases List.mem_cons.mp member with rfl | later
    · exact .inr List.mem_cons_self
    · exact (ih later).imp_right (List.mem_cons_of_mem _)

theorem mem_of_find? (found : find? key entries = some value) : (key, value) ∈ entries := by
  fun_induction find? key entries with
  | case1 => contradiction
  | case2 => contradiction
  | case3 entry rest same =>
    obtain rfl := Option.some.inj found
    rw [Std.LawfulEqCmp.eq_of_compare same]
    exact List.mem_cons_self
  | case4 entry rest after ih => exact List.mem_cons_of_mem _ (ih found)

theorem find?_of_mem {e : Scalar × α} (ascending : Ascending entries) (member : e ∈ entries) :
    find? e.1 entries = some e.2 := by
  induction entries with
  | nil => contradiction
  | cons first rest ih =>
    obtain ⟨before, others⟩ := List.pairwise_cons.mp ascending
    rcases List.mem_cons.mp member with rfl | later
    · simp only [find?, Std.ReflCmp.compare_self]
    · have after : e.1.order first.1 = .gt := Std.OrientedCmp.gt_iff_lt.mpr (before e later)
      simp only [find?, after]
      exact ih others later

/-- What overrides an entry takes no more room than both of them. -/
theorem length_flatMap_insert_le {β : Type} (write : Scalar × α → List β) :
    ((insert key value entries).flatMap write).length ≤
      (write (key, value)).length + (entries.flatMap write).length := by
  fun_induction insert key value entries with
  | case1 => simp
  | case2 first rest before => simp
  | case3 first rest same =>
    rw [← Std.LawfulEqCmp.eq_of_compare same]
    simp only [List.flatMap_cons, List.length_append]
    omega
  | case4 first rest after ih =>
    simp only [List.flatMap_cons, List.length_append]
    omega

end Entries

namespace Dict

variable {α : Type}

theorem insertAll_append {d : Dict α} {pairs : List (Scalar × α)}
    (ascending : Entries.Ascending (d.entries ++ pairs)) :
    (d.insertAll pairs).entries = d.entries ++ pairs := by
  induction pairs generalizing d with
  | nil => simp [insertAll]
  | cons pair rest ih =>
    have last : (d.insert pair.1 pair.2).entries = d.entries ++ [pair] := by
      refine Entries.insert_last fun e member => ?_
      exact (List.pairwise_append.mp ascending).2.2 e member pair List.mem_cons_self
    have regrouped : d.entries ++ pair :: rest = (d.insert pair.1 pair.2).entries ++ rest := by
      rw [last, List.append_assoc, List.singleton_append]
    rw [regrouped] at ascending ⊢
    exact ih ascending

theorem ofList_of_ascending {pairs : List (Scalar × α)} (ascending : Entries.Ascending pairs) :
    (ofList pairs).entries = pairs :=
  insertAll_append (d := empty) ascending

theorem mem_of_mem_insertAll {d : Dict α} {pairs : List (Scalar × α)} {e : Scalar × α}
    (member : e ∈ (d.insertAll pairs).entries) : e ∈ d.entries ∨ e ∈ pairs := by
  induction pairs generalizing d with
  | nil => exact .inl member
  | cons pair rest ih =>
    rcases ih member with old | new
    · rcases Entries.eq_or_mem_of_mem_insert old with rfl | old
      · exact .inr List.mem_cons_self
      · exact .inl old
    · exact .inr (List.mem_cons_of_mem _ new)

theorem mem_of_mem_ofList {pairs : List (Scalar × α)} {e : Scalar × α}
    (member : e ∈ (ofList pairs).entries) : e ∈ pairs :=
  (mem_of_mem_insertAll member).resolve_left List.not_mem_nil

theorem length_flatMap_insertAll_le {β : Type} (write : Scalar × α → List β) (d : Dict α)
    (pairs : List (Scalar × α)) :
    ((d.insertAll pairs).entries.flatMap write).length ≤
      (d.entries.flatMap write).length + (pairs.flatMap write).length := by
  induction pairs generalizing d with
  | nil => exact Nat.le_add_right ..
  | cons pair rest ih =>
    have step : ((d.insert pair.1 pair.2).entries.flatMap write).length ≤
        (write pair).length + (d.entries.flatMap write).length :=
          Entries.length_flatMap_insert_le write
    have later : ((d.insertAll (pair :: rest)).entries.flatMap write).length ≤
        ((d.insert pair.1 pair.2).entries.flatMap write).length + (rest.flatMap write).length :=
          ih _
    simp only [List.flatMap_cons, List.length_append]
    omega

theorem length_flatMap_ofList_le {β : Type} (write : Scalar × α → List β)
    (pairs : List (Scalar × α)) :
    ((ofList pairs).entries.flatMap write).length ≤ (pairs.flatMap write).length :=
  Nat.le_trans (length_flatMap_insertAll_le write empty pairs) (Nat.le_of_eq (Nat.zero_add _))

end Dict

end StackMachine
