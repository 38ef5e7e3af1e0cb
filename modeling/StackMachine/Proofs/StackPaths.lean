import StackMachine.Data.Datum
import StackMachine.Proofs.Depths

/-! The depth analysis against all paths of control. A path may go round a loop as often as it
likes; the analysis works on each place once. Still it finds no fault exactly when every path is in
order: the depths it knows are depths of paths, and depths without a fault are those of all paths.
It follows that the deepest stack it finds without a limit is the least limit under which it finds
no fault. -/

namespace StackMachine

namespace Instruction

inductive Stops : Instruction → Prop
  | ret : Stops (.plain .ret)
  | leave : Stops (.plain .leave)
  | halt : Stops (.plain .halt)
  | unreachable : Stops (.plain .unreachable)
  | goto (target : UInt32) : Stops (.jump .goto target)
  | switch (strategy : Strategy) (table : UInt16) : Stops (.wide (.switch strategy) table)

theorem fallsThrough_iff {i : Instruction} : i.fallsThrough = true ↔ ¬ i.Stops := by
  refine ⟨fun falls stops => ?_, fun passed => ?_⟩
  · cases stops <;> simp [fallsThrough, Plain.fallsThrough] at falls
  · unfold fallsThrough
    split
    next op =>
      cases op with
      | ret => exact absurd .ret passed
      | leave => exact absurd .leave passed
      | halt => exact absurd .halt passed
      | unreachable => exact absurd .unreachable passed
      | _ => rfl
    next strategy table => exact absurd (.switch strategy table) passed
    next target => exact absurd (.goto target) passed
    · rfl

end Instruction

namespace Code

variable {κ : Type}

section Paths

/-- Where control can go from an instruction at `place`. A jump leads to its operand and a switch to
every target and the default of its table; what stops control does not lead to the next place. -/
inductive Edge (c : Code κ) (place : Nat) : Instruction → Nat → Prop
  | jump (op : Jump) (target : UInt32) : Edge c place (.jump op target) target.toNat
  | case {strategy : Strategy} {table : UInt16} {t : SwitchTable} {target : UInt32}
    (there : c.tables[table.toNat]? = some t) (member : target ∈ t.targets) :
    Edge c place (.wide (.switch strategy) table) target.toNat
  | default {strategy : Strategy} {table : UInt16} {t : SwitchTable}
    (there : c.tables[table.toNat]? = some t) :
    Edge c place (.wide (.switch strategy) table) t.default.toNat
  | next {i : Instruction} (passed : ¬ i.Stops) : Edge c place i (place + 1)

/-- A path of control leads from the first instruction to `place`, and the instructions on it change
the number of cells by `depth` in all. -/
inductive Path (c : Code κ) : Nat → Int → Prop
  | start : Path c 0 0
  | step {place next : Nat} {depth : Int} {i : Instruction} (before : Path c place depth)
    (here : c.instructions[place]? = some i) (edge : c.Edge place i next) :
    Path c next (depth + i.stackDelta)

structure Orderly (c : Code κ) (limit : Option Nat) : Prop where
  occupied : 0 < c.instructions.size
  agree : ∀ {place : Nat} {depth other : Int}, place < c.instructions.size →
    Path c place depth → Path c place other → depth = other
  supplied : ∀ {place : Nat} {depth : Int} {i : Instruction}, Path c place depth →
    c.instructions[place]? = some i → i.pops ≤ depth
  bounded : ∀ {place : Nat} {depth : Int} {i : Instruction}, Path c place depth →
    c.instructions[place]? = some i → ∀ max ∈ limit, depth + i.stackDelta ≤ max
  real : ∀ {place : Nat} {depth : Int} {i : Instruction}, Path c place depth →
    c.instructions[place]? = some i → i ≠ .plain .unreachable
  continued : ∀ {place : Nat} {depth : Int} {i : Instruction}, Path c place depth →
    c.instructions[place]? = some i → ¬ i.Stops → place + 1 ≠ c.instructions.size

variable {c : Code κ} {limit : Option Nat} {place next depth : Nat} {i : Instruction}

theorem depthAfter_eq (supplied : i.pops ≤ depth) :
    (depthAfter i depth : Int) = depth + i.stackDelta := by
  simp only [depthAfter, Instruction.stackDelta]
  omega

theorem mem_successors_iff (here : c.instructions[place]? = some i) :
    next ∈ c.successors place ↔ next < c.instructions.size ∧
      (next ∈ c.jumpTargets i ∨ i.fallsThrough = true ∧ next = place + 1) := by
  simp only [successors, here, List.mem_filter, List.mem_append, decide_eq_true_eq]
  cases i.fallsThrough <;> simp [and_comm]

theorem mem_jumpTargets_switch {strategy : Strategy} {table : UInt16} :
    next ∈ c.jumpTargets (.wide (.switch strategy) table) ↔
      ∃ t, c.tables[table.toNat]? = some t ∧
        ((∃ target ∈ t.targets, target.toNat = next) ∨ next = t.default.toNat) := by
  cases known : c.tables[table.toNat]? with
  | none => simp [jumpTargets, known]
  | some t => simp [jumpTargets, known]

theorem edge_iff :
    c.Edge place i next ↔ next ∈ c.jumpTargets i ∨ i.fallsThrough = true ∧ next = place + 1 := by
  rw [Instruction.fallsThrough_iff]
  constructor
  · intro edge
    cases edge with
    | jump op target => exact .inl (by simp [jumpTargets, Instruction.jumpTarget?])
    | case there member => exact .inl (mem_jumpTargets_switch.mpr ⟨_, there, .inl ⟨_, member, rfl⟩⟩)
    | default there => exact .inl (mem_jumpTargets_switch.mpr ⟨_, there, .inr rfl⟩)
    | next passed => exact .inr ⟨passed, rfl⟩
  · rintro (leads | ⟨passed, rfl⟩)
    · cases i with
      | jump op target =>
        obtain rfl : next = target.toNat := by
          simpa [jumpTargets, Instruction.jumpTarget?] using leads
        exact .jump op target
      | wide op operand =>
        cases op with
        | switch strategy =>
          rcases mem_jumpTargets_switch.mp leads with ⟨t, there, ⟨target, member, rfl⟩ | rfl⟩
          · exact .case there member
          · exact .default there
        | _ => simp [jumpTargets, Instruction.jumpTarget?] at leads
      | _ => simp [jumpTargets, Instruction.jumpTarget?] at leads
    · exact .next passed

theorem mem_successors_iff_edge (here : c.instructions[place]? = some i) :
    next ∈ c.successors place ↔ next < c.instructions.size ∧ c.Edge place i next := by
  rw [mem_successors_iff here, edge_iff]

theorem Path.successor (path : Path c place depth) (here : c.instructions[place]? = some i)
    (supplied : i.pops ≤ depth) (member : next ∈ c.successors place) :
    Path c next (depthAfter i depth) := by
  rw [depthAfter_eq supplied]
  exact path.step here ((mem_successors_iff_edge here).mp member).2

end Paths

section Complete

variable {c : Code κ} {limit : Option Nat}

theorem lt_of_instruction {place : Nat} {i : Instruction} (here : c.instructions[place]? = some i) :
    place < c.instructions.size :=
  (Array.getElem?_eq_some_iff.mp here).1

theorem Path.known (empty : (c.analyze limit).faults = #[]) {place : Nat} {depth : Int}
    (path : Path c place depth) (inside : place < c.instructions.size) :
    ∃ n : Nat, (c.analyze limit).depths.getD place none = some n ∧ depth = n := by
  obtain ⟨start, settled⟩ := analyze_settled empty
  induction path with
  | start => exact ⟨0, start, rfl⟩
  | @step place next depth i _ here edge ih =>
    obtain ⟨n, known, rfl⟩ := ih (lt_of_instruction here)
    obtain ⟨j, settled⟩ := settled known
    obtain rfl : i = j := Option.some.inj (here.symm.trans settled.here)
    refine ⟨depthAfter i n, settled.agreed next ?_, (depthAfter_eq settled.supplied).symm⟩
    exact (mem_successors_iff_edge here).mpr ⟨inside, edge⟩

theorem orderly_of_faultless (empty : (c.analyze limit).faults = #[]) : c.Orderly limit := by
  -- An instruction on a path is settled with the depth of the path.
  have met {place : Nat} {depth : Int} {i : Instruction} (path : Path c place depth)
      (here : c.instructions[place]? = some i) :
      ∃ n : Nat, depth = n ∧ Settled c limit (c.analyze limit).depths place n i := by
    obtain ⟨n, known, same⟩ := path.known empty (lt_of_instruction here)
    obtain ⟨j, settled⟩ := (analyze_settled empty).2 known
    obtain rfl : i = j := Option.some.inj (here.symm.trans settled.here)
    exact ⟨n, same, settled⟩
  constructor
  · exact Nat.pos_of_ne_zero fun vacant => faults_of_empty limit vacant empty
  · intro place depth other inside first second
    obtain ⟨n, known, rfl⟩ := first.known empty inside
    obtain ⟨m, known', rfl⟩ := second.known empty inside
    rw [Option.some.inj (known.symm.trans known')]
  · intro place depth i path here
    obtain ⟨n, rfl, settled⟩ := met path here
    exact Int.ofNat_le.mpr settled.supplied
  · intro place depth i path here max member
    obtain ⟨n, rfl, settled⟩ := met path here
    rw [← depthAfter_eq settled.supplied]
    exact Int.ofNat_le.mpr (settled.bounded max member)
  · intro place depth i path here
    obtain ⟨n, _, settled⟩ := met path here
    exact settled.real
  · intro place depth i path here
    obtain ⟨n, _, settled⟩ := met path here
    rw [← Instruction.fallsThrough_iff]
    exact settled.continued

end Complete

section Sound

variable {c : Code κ} {limit : Option Nat} {d : Depths} {place depth : Nat} {i : Instruction}

/-- Whatever the analysis knows comes from a path: each depth, and the greatest depth after an
instruction. -/
structure Depths.Traced (c : Code κ) (d : Depths) : Prop where
  path : ∀ {place depth : Nat}, d.depths.getD place none = some depth → Path c place depth
  deepest : d.deepest = 0 ∨ ∃ (place : Nat) (depth : Int) (i : Instruction), Path c place depth ∧
    c.instructions[place]? = some i ∧ (d.deepest : Int) = depth + i.stackDelta

namespace Depths

theorem meet_deepest (depth : Nat) (d : Depths) (place : Nat) :
    (d.meet depth place).deepest = d.deepest := by
  unfold meet
  split
  · rfl
  · split <;> rfl

theorem meetAll_deepest (depth : Nat) (places : List Nat) (d : Depths) :
    (places.foldl (meet depth) d).deepest = d.deepest := by
  induction places generalizing d with
  | nil => rfl
  | cons place rest ih => rw [List.foldl_cons, ih, meet_deepest]

theorem meet_depth {d : Depths} {depth place other found : Nat}
    (known : (d.meet depth place).depths.getD other none = some found) :
    d.depths.getD other none = some found ∨ other = place ∧ found = depth := by
  unfold meet at known
  split at known
  next unknown =>
    by_cases same : other = place
    · subst same
      have inside : other < d.depths.size := by simpa using lt_of_known known
      rw [getD_set_self inside] at known
      exact .inr ⟨rfl, (Option.some.inj known).symm⟩
    · rw [getD_set_other same] at known
      exact .inl known
  next seen _ =>
    split at known
    · exact .inl known
    · exact .inl known

theorem meetAll_depth {depth : Nat} {places : List Nat} {d : Depths} {other found : Nat}
    (known : (places.foldl (meet depth) d).depths.getD other none = some found) :
    d.depths.getD other none = some found ∨ other ∈ places ∧ found = depth := by
  induction places generalizing d with
  | nil => exact .inl known
  | cons place rest ih =>
    rcases ih known with before | ⟨member, same⟩
    · rcases meet_depth before with before | ⟨rfl, same⟩
      · exact .inl before
      · exact .inr ⟨List.mem_cons_self, same⟩
    · exact .inr ⟨List.mem_cons_of_mem _ member, same⟩

theorem meetAll_faults {depth : Nat} {places : List Nat} {d : Depths}
    (agree : ∀ place ∈ places, ∀ found, d.depths.getD place none = some found → found = depth) :
    (places.foldl (meet depth) d).faults = d.faults := by
  induction places generalizing d with
  | nil => rfl
  | cons place rest ih =>
    have first : (d.meet depth place).faults = d.faults := by
      unfold meet
      split
      · rfl
      next seen known => simp [agree place List.mem_cons_self seen known]
    rw [List.foldl_cons, ih, first]
    intro other member found known
    rcases meet_depth known with before | ⟨_, same⟩
    · exact agree other (List.mem_cons_of_mem _ member) found before
    · exact same

end Depths

theorem pass_traced (traced : d.Traced c) (path : Path c place depth)
    (here : c.instructions[place]? = some i) : (d.pass c limit place depth i).Traced c := by
  rcases pass_cases c limit place depth i d with ⟨_, cause, result⟩ | ⟨_, supplied, _, result⟩
  · rw [result]
    exact ⟨traced.path, traced.deepest⟩
  · rw [result]
    refine ⟨fun known => ?_, ?_⟩
    · rcases Depths.meetAll_depth known with before | ⟨member, rfl⟩
      · exact traced.path before
      · exact path.successor here supplied member
    · rw [Depths.meetAll_deepest]
      rcases Nat.le_total (depthAfter i depth) d.deepest with lower | higher
      · simpa only [Nat.max_eq_left lower] using traced.deepest
      · refine .inr ⟨place, depth, i, path, here, ?_⟩
        simpa only [Nat.max_eq_right higher] using depthAfter_eq supplied

theorem pass_faultless (orderly : c.Orderly limit) (traced : d.Traced c) (path : Path c place depth)
    (here : c.instructions[place]? = some i) :
    (d.pass c limit place depth i).faults = d.faults := by
  have supplied : i.pops ≤ depth := Int.ofNat_le.mp (orderly.supplied path here)
  have continued : (i.fallsThrough && place + 1 == c.instructions.size) = false := by
    simpa [Instruction.fallsThrough_iff] using orderly.continued path here
  rcases pass_cases c limit place depth i d with ⟨stuck, _⟩ | ⟨_, _, _, result⟩
  · rcases stuck with placeholder | short | ⟨max, member, exceeded⟩
    · exact absurd placeholder (orderly.real path here)
    · exact absurd short (Nat.not_lt.mpr supplied)
    · have bound := orderly.bounded path here max member
      rw [← depthAfter_eq supplied] at bound
      exact absurd exceeded (Nat.not_lt.mpr (Int.ofNat_le.mp bound))
  · rw [result, Depths.meetAll_faults]
    · simp [Depths.faultsPast, continued]
    · intro next member found known
      have both := orderly.agree (mem_successors_lt member) (traced.path known)
        (path.successor here supplied member)
      exact Int.ofNat_inj.mp both

theorem spread_keeps {P : Depths → Prop} (limit : Option Nat) (rounds : Nat)
    (fetch : ∀ d work, P d → P { d with work })
    (pass : ∀ d place depth i, P d → d.depths.getD place none = some depth →
      c.instructions[place]? = some i → P (d.pass c limit place depth i))
    (first : P d) : P (c.spread limit rounds d) := by
  induction rounds generalizing d with
  | zero => exact first
  | succ rounds ih =>
    unfold spread
    split
    · exact first
    next place work _ =>
      have rest := fetch d work first
      dsimp only
      split
      next depth i known here => exact ih (pass _ place depth i rest known here)
      · exact ih rest

theorem spread_traced (limit : Option Nat) (rounds : Nat) (traced : d.Traced c) :
    (c.spread limit rounds d).Traced c := by
  refine spread_keeps limit rounds (fun d work traced => ?_)
    (fun d place depth i traced known here => ?_) traced
  · exact ⟨traced.path, traced.deepest⟩
  · exact pass_traced traced (traced.path known) here

theorem spread_faultless (orderly : c.Orderly limit) (rounds : Nat) (traced : d.Traced c)
    (empty : d.faults = #[]) : (c.spread limit rounds d).faults = #[] := by
  refine (spread_keeps (P := fun d => d.Traced c ∧ d.faults = #[]) limit rounds
    (fun d work both => ?_) (fun d place depth i both known here => ?_) ⟨traced, empty⟩).2
  · exact ⟨⟨both.1.path, both.1.deepest⟩, both.2⟩
  · have path := both.1.path known
    exact ⟨pass_traced both.1 path here, (pass_faultless orderly both.1 path here).trans both.2⟩

theorem initial_traced (c : Code κ) : (Depths.initial c.instructions.size).Traced c := by
  refine ⟨fun {place depth} known => ?_, .inl rfl⟩
  by_cases first : place = 0
  · subst first
    have occupied : 0 < c.instructions.size := by simpa [Depths.initial] using lt_of_known known
    obtain rfl := Option.some.inj ((initial_known occupied).symm.trans known)
    exact .start
  · have nothing := (Depths.getD_set_other first).symm.trans known
    rw [unknown_at_first] at nothing
    contradiction

theorem faultless_of_orderly (orderly : c.Orderly limit) : (c.analyze limit).faults = #[] := by
  rw [analyze_eq_spread limit orderly.occupied]
  exact spread_faultless orderly _ (initial_traced c) rfl

end Sound

/-- The stack pass finds no fault in a code exactly if the code is not empty and all paths of
control are in order: those that lead to the same instruction agree on the depth, every instruction
on them is real, finds its cells and stays within the declared stack, and none of them runs off the
end. Control goes wherever an instruction can send it. Targets outside the code are not followed, so
nothing is asked of them. -/
theorem stackFaults_eq_nil_iff_orderly (c : Code κ) :
    c.stackFaults = [] ↔ c.Orderly (some c.stack.toNat) := by
  have listed : c.stackFaults = [] ↔ (c.analyze (some c.stack.toNat)).faults = #[] := by
    simp [stackFaults]
  exact listed.trans ⟨orderly_of_faultless, faultless_of_orderly⟩

section Limits

variable {c : Code κ} {d : Depths} {n : Nat}

theorem pass_deepest_le (limit : Option Nat) (place depth : Nat) (i : Instruction) (d : Depths) :
    d.deepest ≤ (d.pass c limit place depth i).deepest := by
  rcases pass_cases c limit place depth i d with ⟨_, cause, result⟩ | ⟨_, _, _, result⟩
  · rw [result]
    exact Nat.le_refl _
  · rw [result, Depths.meetAll_deepest]
    exact Nat.le_max_left _ _

theorem spread_deepest_le (limit : Option Nat) (rounds : Nat) (d : Depths) :
    d.deepest ≤ (c.spread limit rounds d).deepest := by
  refine spread_keeps (P := fun later => d.deepest ≤ later.deepest) limit rounds
    (fun later work least => least) (fun later place depth i least _ _ => ?_) (Nat.le_refl _)
  exact Nat.le_trans least (pass_deepest_le limit place depth i later)

theorem pass_unlimited {place depth : Nat} {i : Instruction}
    (roomy : (d.pass c none place depth i).deepest ≤ n) :
    d.pass c (some n) place depth i = d.pass c none place depth i := by
  rcases pass_cases c none place depth i d with ⟨stuck, _⟩ | ⟨real, supplied, _, result⟩
  · rcases stuck with placeholder | short | ⟨_, none, _⟩
    · simp [Depths.pass, placeholder]
    · simp [Depths.pass, short]
    · contradiction
  · rw [result, Depths.meetAll_deepest] at roomy
    rcases pass_cases c (some n) place depth i d with ⟨stuck, _⟩ | ⟨_, _, _, limited⟩
    · rcases stuck with placeholder | short | ⟨max, member, exceeded⟩
      · exact absurd placeholder real
      · exact absurd short (Nat.not_lt.mpr supplied)
      · obtain rfl : n = max := Option.some.inj member
        exact absurd (Nat.le_trans (Nat.le_max_right _ _) roomy) (Nat.not_le.mpr exceeded)
    · rw [result, limited]

theorem spread_unlimited {rounds : Nat} (roomy : (c.spread none rounds d).deepest ≤ n) :
    c.spread (some n) rounds d = c.spread none rounds d := by
  induction rounds generalizing d with
  | zero => rfl
  | succ rounds ih =>
    cases worklist : d.work with
    | nil => simp only [spread, worklist]
    | cons place work =>
      simp only [spread, worklist] at roomy ⊢
      split
      next depth i known here =>
        simp only [known, here] at roomy
        rw [pass_unlimited (Nat.le_trans (spread_deepest_le none rounds _) roomy)]
        exact ih roomy
      next unknown =>
        split at roomy
        next known here => exact absurd here (unknown _ _ known)
        · exact ih roomy

theorem analyze_unlimited (roomy : c.requiredStack ≤ n) : c.analyze (some n) = c.analyze none := by
  by_cases vacant : c.instructions.size = 0
  · simp [analyze, vacant]
  · have occupied := Nat.pos_of_ne_zero vacant
    rw [requiredStack, analyze_eq_spread none occupied] at roomy
    rw [analyze_eq_spread (some n) occupied, analyze_eq_spread none occupied]
    exact spread_unlimited roomy

theorem requiredStack_le (orderly : c.Orderly (some n)) : c.requiredStack ≤ n := by
  have traced := spread_traced none c.instructions.size (initial_traced c)
  rw [← analyze_eq_spread none orderly.occupied] at traced
  rcases traced.deepest with nothing | ⟨place, depth, i, path, here, attained⟩
  · rw [requiredStack, nothing]
    exact Nat.zero_le n
  · have bound := orderly.bounded path here n rfl
    rw [← attained] at bound
    exact Int.ofNat_le.mp bound

theorem spread_stack (stack : UInt16) (limit : Option Nat) (rounds : Nat) (d : Depths) :
    ({ c with stack } : Code κ).spread limit rounds d = c.spread limit rounds d := by
  induction rounds generalizing d with
  | zero => rfl
  | succ rounds ih =>
    simp only [spread, ih]
    rfl

theorem analyze_stack (c : Code κ) (stack : UInt16) (limit : Option Nat) :
    ({ c with stack } : Code κ).analyze limit = c.analyze limit := by
  simp only [analyze, spread_stack]

end Limits

/-- Where the analysis without a limit finds no fault, it finds none under a limit exactly if the
limit is no smaller than the required stack; so the stack pass accepts the code with just these
declared stacks. -/
theorem faultless_iff_requiredStack_le (c : Code κ) (faultless : (c.analyze none).faults = #[]) :
    (∀ n : Nat, (c.analyze (some n)).faults = #[] ↔ c.requiredStack ≤ n) ∧
      ∀ stack : UInt16, ({ c with stack } : Code κ).stackFaults = [] ↔
        c.requiredStack ≤ stack.toNat := by
  have limited (n : Nat) : (c.analyze (some n)).faults = #[] ↔ c.requiredStack ≤ n := by
    refine ⟨fun empty => requiredStack_le (orderly_of_faultless empty), fun roomy => ?_⟩
    rw [analyze_unlimited roomy]
    exact faultless
  refine ⟨limited, fun stack => ?_⟩
  rw [← limited, stackFaults, analyze_stack]
  simp

def counting (stack : UInt16) : Code Literal where
  instructions := #[.plain (.push .zero), .wide .store 0, .wide (.step .up true) 0, .wide .load 0,
    .short 10, .jump (.branch (.compare .lt)) 2, .plain .leave]
  locals := 1
  stack

theorem faultless_iff_requiredStack_le_counting :
    ((counting 0).analyze none).faults = #[] ∧ (counting 0).requiredStack = 2 ∧
      (counting 2).stackFaults = [] ∧ (counting 1).stackFaults ≠ [] := by
  have faultless : ((counting 0).analyze none).faults = #[] := by decide +kernel
  have required : (counting 0).requiredStack = 2 := by decide +kernel
  have accepted := (faultless_iff_requiredStack_le (counting 0) faultless).2
  rw [required] at accepted
  exact ⟨faultless, required, (accepted 2).mpr (by decide),
    fun empty => absurd ((accepted 1).mp empty) (by decide)⟩

end Code

end StackMachine
