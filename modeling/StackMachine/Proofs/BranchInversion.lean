import StackMachine.Proofs.StackEffects

/-! Opposite conditional jumps. A conditional jump takes its operands off and goes by what a test
finds of them; the opposite jump makes the opposite test of the same operands. So both fail over the
same operands and leave the same memory, and one of them jumps. Only with relations of order it can
be that neither does, for a pair that is not ordered. -/

namespace StackMachine

namespace Comparison

def isOrder : Comparison → Bool
  | eq | ne => false
  | lt | le | gt | ge => true

def opposite : Comparison → Comparison
  | eq => ne
  | ne => eq
  | lt => ge
  | ge => lt
  | gt => le
  | le => gt

variable {c : Comparison} {s : Store} {v w : Value}

theorem isOrder_opposite (c : Comparison) : c.opposite.isOrder = c.isOrder := by
  cases c <;> rfl

theorem test_of_isOrder (order : c.isOrder = true) :
    c.test s v w = (s.compare v w).map c.admits := by
  cases c with
  | eq => contradiction
  | ne => contradiction
  | _ => rfl

theorem admits_opposite (c : Comparison) (result : Ordering) :
    c.opposite.admits (some result) = !c.admits (some result) := by
  cases c <;> cases result <;> rfl

theorem admits_none (order : c.isOrder = true) : c.admits none = false := by
  cases c with
  | ne => contradiction
  | _ => rfl

theorem test_opposite (ordered : ¬ (c.isOrder = true ∧ s.compare v w = .ok none)) :
    c.opposite.test s v w = (c.test s v w).map (!·) := by
  by_cases order : c.isOrder = true
  · rw [test_of_isOrder order, test_of_isOrder (c.isOrder_opposite.trans order)]
    cases compared : s.compare v w with
    | error e => rfl
    | ok result =>
      cases result with
      | none => exact absurd ⟨order, compared⟩ ordered
      | some result => exact congrArg Except.ok (c.admits_opposite result)
  · cases c with
    | eq => rfl
    | ne => exact congrArg Except.ok (Bool.not_not _).symm
    | _ => exact absurd rfl order

end Comparison

namespace Condition

/-- What the test finds of the top cell and the one below it; some tests look at the top cell
alone. -/
def verdict (s : Store) (below top : Value) : Condition → Except OpError Bool
  | isTrue => .ok (s.truthy top)
  | isFalse => .ok (!s.truthy top)
  | isNull => .ok top.isNull
  | isNonNull => .ok (!top.isNull)
  | compare c => c.test s below top
  | contains => s.contains below top
  | lacks => (s.contains below top).map (!·)

def Unordered (c : Condition) (s : Store) (below top : Value) : Prop :=
  ∃ order : Comparison, c = compare order ∧ order.isOrder = true ∧ s.compare below top = .ok none

variable {c : Condition} {s : Store} {below top : Value}

theorem negated_compare (c : Comparison) : (compare c).negated = compare c.opposite := by
  cases c <;> rfl

theorem negated_negated (c : Condition) : c.negated.negated = c := by
  cases c with
  | compare c => cases c <;> rfl
  | _ => rfl

theorem arity_negated (c : Condition) : c.negated.arity = c.arity := by
  cases c with
  | compare c => rw [negated_compare]; rfl
  | _ => rfl

theorem verdict_negated (ordered : ¬ c.Unordered s below top) :
    c.negated.verdict s below top = (c.verdict s below top).map (!·) := by
  cases c with
  | compare c =>
    rw [negated_compare]
    exact Comparison.test_opposite fun unordered => ordered ⟨c, rfl, unordered⟩
  | isFalse => exact congrArg Except.ok (Bool.not_not _).symm
  | isNonNull => exact congrArg Except.ok (Bool.not_not _).symm
  | lacks =>
    simp only [negated, verdict]
    cases s.contains below top with
    | error e => rfl
    | ok found => exact congrArg Except.ok (Bool.not_not _).symm
  | _ => rfl

theorem Unordered.negated (unordered : c.Unordered s below top) :
    c.negated.Unordered s below top := by
  obtain ⟨order, rfl, isOrder, incomparable⟩ := unordered
  exact ⟨order.opposite, negated_compare order, order.isOrder_opposite.trans isOrder, incomparable⟩

theorem Unordered.verdict_eq (unordered : c.Unordered s below top) :
    c.verdict s below top = .ok false := by
  obtain ⟨order, rfl, isOrder, incomparable⟩ := unordered
  rw [verdict, Comparison.test_of_isOrder isOrder, incomparable]
  exact congrArg Except.ok (Comparison.admits_none isOrder)

end Condition

namespace Activation

def operand (a : Activation) (n : Nat) : Value :=
  a.slots[a.frame.tos - 1 - n]?.getD .undefined

theorem operand_layout {l : Layout} {n : Nat} (s : Store) (inside : n < l.operands.length) :
    l.operands[n]? = some ((l.activation s).operand n) := by
  have place : l.frame.tos - 1 - n = l.frame.bottom + (l.operands.length - 1 - n) := by
    simp only [Layout.frame, Frame.bottom]
    omega
  have read : l.slots[l.frame.tos - 1 - n]? = l.operands[n]? := by
    rw [place, l.slots_operand (by omega), List.getElem?_reverse (by omega)]
    congr 1
    omega
  have there : l.operands[n]? = some l.operands[n] := List.getElem?_eq_getElem inside
  rw [operand]
  change _ = some (l.slots[l.frame.tos - 1 - n]?.getD .undefined)
  rw [read, there, Option.getD_some]

end Activation

namespace Exec

variable {α : Type} {l : Layout} {s : Store} {top below : Value}

theorem look_ok {view : Store → Except OpError α} {a : Activation} {v : α}
    (found : view a.store = .ok v) : look view a = .ok v a := by
  simp only [look, operate, Op.look, found]

theorem look_error {view : Store → Except OpError α} {a : Activation} {e : OpError}
    (failed : view a.store = .error e) : look view a = .error (.operation e) a := by
  simp only [look, operate, Op.look, failed]

theorem look_map {β : Type} (f : α → β) (view : Store → Except OpError α) (a : Activation) :
    (do return f (← look view)) a = look (fun s => (view s).map f) a := by
  simp only [look, operate, Op.look, bind, EStateM.bind]
  cases view a.store <;> rfl

theorem pop_top {next : Value → Exec α} (first : l.operands[0]? = some top) :
    (pop >>= next) (l.activation s) = next top ((l.after 1 []).activation s) := by
  obtain ⟨rest, operands⟩ : ∃ rest, l.operands = top :: rest := by
    rw [← List.head?_eq_getElem?, List.head?_eq_some_iff] at first
    exact first
  simp only [bind, EStateM.bind, pop_layout operands]

theorem pop_pair {next : Value → Value → Exec α} (first : l.operands[0]? = some top)
    (second : l.operands[1]? = some below) :
    (do let w ← pop; let v ← pop; next v w) (l.activation s) =
      next below top ((l.after 2 []).activation s) := by
  have later : (l.after 1 []).operands[0]? = some below := by
    simpa [Layout.after] using second
  rw [pop_top first, pop_top later, Layout.after_taken]

end Exec

namespace Condition

variable {c : Condition} {l : Layout} {s : Store} {below top : Value}

theorem holds_layout (first : l.operands[0]? = some top)
    (second : c.arity = 2 → l.operands[1]? = some below) :
    c.holds (l.activation s) = Exec.look (c.verdict · below top)
      ((l.after c.arity []).activation s) := by
  cases c with
  | compare c => exact Exec.pop_pair first (second rfl)
  | contains => exact Exec.pop_pair first (second rfl)
  | lacks => exact (Exec.pop_pair first (second rfl)).trans (Exec.look_map _ _ _)
  | _ => exact Exec.pop_top first

end Condition

namespace Jump

def decided (target : UInt32) (b : Activation) :
    Except OpError Bool → EStateM.Result RuntimeError Activation Flow
  | .ok true => .ok (.jump target.toNat) b
  | .ok false => .ok .next b
  | .error e => .error (.operation e) b

/-- A conditional jump that fits takes its operands off, whatever comes of it, and goes by the
verdict on them. -/
theorem execute_branch {c : Condition} {target : UInt32} {a : Activation} (placed : a.Placed)
    (fits : a.frame.fits (.jump (.branch c) target) = true) :
    ∃ b, ∀ c' : Condition, c'.arity = c.arity →
      (branch c').execute target a = decided target b
        (c'.verdict a.store (a.operand 1) (a.operand 0)) := by
  obtain ⟨l, laid⟩ := placed.exists_layout
  rw [laid] at fits
  have enough : c.arity ≤ l.operands.length := ((l.fits_iff _).mp fits).1
  refine ⟨(l.after c.arity []).activation a.store, fun c' arity => ?_⟩
  have some : 0 < c.arity := by cases c <;> exact Nat.succ_pos _
  -- The cell below the top one need not be an operand if the test takes only one.
  have tested := c'.holds_layout (l := l) (s :=
    a.store) (Activation.operand_layout a.store (by omega))
    fun both => Activation.operand_layout a.store (by omega)
  rw [← laid, arity] at tested
  simp only [execute, bind, EStateM.bind, tested]
  cases verdict : c'.verdict a.store (a.operand 1) (a.operand 0) with
  | error e =>
    rw [Exec.look_error verdict]
    rfl
  | ok found =>
    rw [Exec.look_ok verdict]
    cases found <;> rfl

end Jump

namespace Instruction

theorem exists_negated?_iff (i : Instruction) :
    (∃ j, i.negated? = some j) ↔ ∃ c target, i = .jump (.branch c) target := by
  constructor
  · rintro ⟨j, opposite⟩
    unfold negated? at opposite
    split at opposite
    next c target => exact ⟨c, target, rfl⟩
    next => contradiction
  · rintro ⟨c, target, rfl⟩
    exact ⟨_, rfl⟩

theorem negated?_negated? {i j : Instruction} (opposite : i.negated? = some j) :
    j.negated? = some i := by
  obtain ⟨c, target, rfl⟩ := i.exists_negated?_iff.mp ⟨j, opposite⟩
  obtain rfl := Option.some.inj opposite
  rw [negated?, c.negated_negated]

theorem fits_negated (c : Condition) (target : UInt32) (frame : Frame) :
    frame.fits (.jump (.branch c.negated) target) = frame.fits (.jump (.branch c) target) := by
  have pops : (jump (.branch c.negated) target).pops = (jump (.branch c) target).pops :=
    c.arity_negated
  rw [Frame.fits, pops]
  rfl

/-- Opposite jumps are defined for conditional jumps, and come in pairs. Wherever a conditional jump
fits, it and its opposite fail with the same error or leave the same memory, and just one of them
jumps; but if they test a relation of order on a pair that is not ordered, neither jumps. -/
theorem negation_exact :
    (∀ i : Instruction, (∃ j, i.negated? = some j) ↔ ∃ c target, i = .jump (.branch c) target) ∧
    (∀ i j : Instruction, i.negated? = some j → j.negated? = some i) ∧
    ∀ (p : Program) (code : Code Value) (c : Condition) (target : UInt32) (i j : Instruction)
      (a : Activation),
      i = .jump (.branch c) target → i.negated? = some j → a.Placed → a.frame.fits i = true →
      a.frame.fits j = true ∧
      ((∃ e b, i.execute p code a = .error (.operation e) b ∧
        j.execute p code a = .error (.operation e) b) ∨
        (¬ c.Unordered a.store (a.operand 1) (a.operand 0) ∧ ∃ b,
          (i.execute p code a = .ok (.jump target.toNat) b ∧ j.execute p code a = .ok .next b ∨
            i.execute p code a = .ok .next b ∧ j.execute p code a = .ok (.jump target.toNat) b)) ∨
        (c.Unordered a.store (a.operand 1) (a.operand 0) ∧ ∃ b,
          i.execute p code a = .ok .next b ∧ j.execute p code a = .ok .next b)) := by
  refine ⟨exists_negated?_iff, fun _ _ => negated?_negated?, ?_⟩
  rintro p code c target _ j a rfl opposite placed fits
  obtain rfl := Option.some.inj opposite
  refine ⟨(fits_negated c target a.frame).trans fits, ?_⟩
  obtain ⟨b, executes⟩ := Jump.execute_branch placed fits
  simp only [execute, executes c rfl, executes c.negated c.arity_negated]
  by_cases unordered : c.Unordered a.store (a.operand 1) (a.operand 0)
  · rw [unordered.verdict_eq, unordered.negated.verdict_eq]
    exact .inr (.inr ⟨unordered, b, rfl, rfl⟩)
  · rw [Condition.verdict_negated unordered]
    cases c.verdict a.store (a.operand 1) (a.operand 0) with
    | error e => exact .inl ⟨e, b, rfl, rfl⟩
    | ok found =>
      refine .inr (.inl ⟨unordered, b, ?_⟩)
      cases found with
      | true => exact .inl ⟨rfl, rfl⟩
      | false => exact .inr ⟨rfl, rfl⟩

end Instruction

def Activation.paired (below top : Value) : Activation where
  frame := { function := 0, base := 0, locals := 0, limit := 2, tos := 2, place := 1
             dest := .host }
  slots := #[below, top]
  store := {}

def Activation.drained : Activation where
  frame := { function := 0, base := 0, locals := 0, limit := 2, tos := 0, place := 1
             dest := .host }
  slots := #[.undefined, .undefined]
  store := {}

namespace Instruction

def ifLess : Instruction :=
  .jump (.branch (.compare .lt)) 7

def ifNotLess : Instruction :=
  .jump (.branch (.compare .ge)) 7

theorem negation_exact_paired :
    ifLess.negated? = some ifNotLess ∧
    (∃ b, ifLess.execute .relayed .relayed (.paired (.int 1) (.int 2)) = .ok (.jump 7) b ∧
      ifNotLess.execute .relayed .relayed (.paired (.int 1) (.int 2)) = .ok .next b) ∧
    (∃ b, ifLess.execute .relayed .relayed (.paired (.int 1) (.float ⟨0x7ff8000000000000⟩)) =
      .ok .next b ∧
      ifNotLess.execute .relayed .relayed (.paired (.int 1) (.float ⟨0x7ff8000000000000⟩)) =
        .ok .next b) ∧
    ∃ e b, ifLess.execute .relayed .relayed (.paired (.int 1) .null) = .error (.operation e) b ∧
      ifNotLess.execute .relayed .relayed (.paired (.int 1) .null) = .error (.operation e) b := by
  have placed (below top : Value) : (Activation.paired below top).Placed :=
    ⟨Nat.zero_le 2, Nat.le_refl 2, Nat.le_refl 2⟩
  have alternatives (below top : Value) :=
    (negation_exact.2.2 .relayed .relayed (.compare .lt) 7 ifLess ifNotLess
    (.paired below top) rfl rfl (placed below top) rfl).2
  have jumps : ifLess.execute .relayed .relayed (.paired (.int 1) (.int 2)) =
    .ok (.jump 7) .drained := rfl
  have misses : ifLess.execute .relayed .relayed (.paired (.int 1) (.float ⟨0x7ff8000000000000⟩)) =
      .ok .next .drained :=
    rfl
  have fails : ifLess.execute .relayed .relayed (.paired (.int 1) .null) =
      .error (.operation (.operands .compare .int .null)) .drained := rfl
  have unordered : (Condition.compare .lt).Unordered {} (.int 1) (.float ⟨0x7ff8000000000000⟩) :=
    ⟨.lt, rfl, rfl, rfl⟩
  refine ⟨rfl, ?_, ?_, ?_⟩
  · rcases alternatives (.int 1) (.int 2) with
      ⟨_, _, failed, _⟩ | ⟨_, b, both | ⟨missed, _⟩⟩ | ⟨_, _, missed, _⟩
    · exact absurd (jumps.symm.trans failed) (by simp)
    · exact ⟨b, both⟩
    · exact absurd (jumps.symm.trans missed) (by simp)
    · exact absurd (jumps.symm.trans missed) (by simp)
  · rcases alternatives (.int 1) (.float ⟨0x7ff8000000000000⟩) with
      ⟨_, _, failed, _⟩ | ⟨ordered, _⟩ | ⟨_, neither⟩
    · exact absurd (misses.symm.trans failed) (by simp)
    · exact absurd unordered ordered
    · exact neither
  · rcases alternatives (.int 1) .null with both | ⟨_, _, ⟨done, _⟩ | ⟨done, _⟩⟩ | ⟨_, _, done, _⟩
    · exact both
    · exact absurd (fails.symm.trans done) (by simp)
    · exact absurd (fails.symm.trans done) (by simp)
    · exact absurd (fails.symm.trans done) (by simp)

end Instruction

end StackMachine
