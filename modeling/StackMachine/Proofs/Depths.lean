import StackMachine.Verify.Stack

/-! What the depth analysis promises. Every place that got a depth and has been worked on is
settled: its instruction finds its cells, stays within the limit, and all places that can follow
carry the depth it leaves. When the analysis ends without a fault no work is left, so the depths are
a certificate for every path. -/

namespace StackMachine.Code

variable {κ : Type}

def depthAfter (i : Instruction) (depth : Nat) : Nat :=
  depth - i.pops + i.pushes

/-- The instruction at `place` runs on `depth` cells, and `depths` agrees with it about what
follows. -/
structure Settled (c : Code κ) (limit : Option Nat) (depths : Array (Option Nat))
    (place depth : Nat) (i : Instruction) : Prop where
  here : c.instructions[place]? = some i
  real : i ≠ .plain .unreachable
  supplied : i.pops ≤ depth
  bounded : ∀ max ∈ limit, depthAfter i depth ≤ max
  continued : i.fallsThrough = true → place + 1 ≠ c.instructions.size
  agreed : ∀ next ∈ c.successors place, depths.getD next none = some (depthAfter i depth)

namespace Depths

/-- Places without a depth, and places still to be worked on; each round works on one. -/
def remaining (d : Depths) : Nat :=
  d.depths.count none + d.work.length

/-- `d` knows all that `d₀` knew, and whatever it knows besides is still to be worked on. -/
structure Extends (d₀ d : Depths) : Prop where
  size : d.depths.size = d₀.depths.size
  keeps : ∀ {place depth : Nat}, d₀.depths.getD place none = some depth →
    d.depths.getD place none = some depth
  works : ∀ {place : Nat}, place ∈ d₀.work → place ∈ d.work
  busy : ∀ {place : Nat}, place ∈ d.work → place ∈ d₀.work ∨
    ∃ depth, d.depths.getD place none = some depth
  fresh : ∀ {place depth : Nat}, d.depths.getD place none = some depth →
    d₀.depths.getD place none = some depth ∨ place ∈ d.work
  faultless : d.faults = #[] → d₀.faults = #[]
  remaining : d.remaining = d₀.remaining

namespace Extends

variable {d₀ d₁ d₂ : Depths}

theorem refl (d : Depths) : Extends d d where
  size := rfl
  keeps known := known
  works member := member
  busy member := .inl member
  fresh known := .inl known
  faultless empty := empty
  remaining := rfl

theorem trans (first : Extends d₀ d₁) (second : Extends d₁ d₂) : Extends d₀ d₂ where
  size := second.size.trans first.size
  keeps known := second.keeps (first.keeps known)
  works member := second.works (first.works member)
  busy member := by
    rcases second.busy member with before | known
    · rcases first.busy before with older | ⟨depth, known⟩
      · exact .inl older
      · exact .inr ⟨depth, second.keeps known⟩
    · exact .inr known
  fresh known := by
    rcases second.fresh known with before | added
    · rcases first.fresh before with older | added
      · exact .inl older
      · exact .inr (second.works added)
    · exact .inr added
  faultless empty := first.faultless (second.faultless empty)
  remaining := second.remaining.trans first.remaining

end Extends

theorem fault_extends (d : Depths) (place : Nat) (cause : InstructionFault) :
    Extends d (d.fault place cause) where
  size := rfl
  keeps known := known
  works member := member
  busy member := .inl member
  fresh known := .inl known
  faultless empty := by simp [fault] at empty
  remaining := rfl

theorem getD_set_self {depths : Array (Option Nat)} {place depth : Nat}
    (inside : place < depths.size) :
    (depths.setIfInBounds place (some depth)).getD place none = some depth := by
  simp [Array.getD_eq_getD_getElem?, inside]

theorem getD_set_other {depths : Array (Option Nat)} {place other depth : Nat}
    (different : other ≠ place) :
    (depths.setIfInBounds place (some depth)).getD other none = depths.getD other none := by
  simp [Array.getD_eq_getD_getElem?, different.symm]

theorem count_set {depths : Array (Option Nat)} {place : Nat} (depth : Nat)
    (inside : place < depths.size) (unknown : depths.getD place none = none) :
    (depths.setIfInBounds place (some depth)).count none + 1 = depths.count none := by
  have entry : depths[place] = none := by
    simpa [Array.getD_eq_getD_getElem?, inside] using unknown
  have member : none ∈ depths := entry ▸ Array.getElem_mem inside
  have positive : 0 < depths.count none := Array.count_pos_iff.mpr member
  rw [Array.setIfInBounds_def, dif_pos inside, Array.count_set, entry]
  simp
  omega

theorem meet_extends {d : Depths} {place : Nat} (depth : Nat) (inside : place < d.depths.size) :
    Extends d (d.meet depth place) := by
  unfold meet
  split
  next unknown =>
    refine ⟨by simp, ?_, fun member => List.mem_cons_of_mem _ member, ?_, ?_, fun empty => empty,
      ?_⟩
    · intro other known here
      have different : other ≠ place := by
        rintro rfl
        simp [unknown] at here
      exact (getD_set_other different).trans here
    · intro other member
      rcases List.mem_cons.mp member with rfl | member
      · exact .inr ⟨depth, getD_set_self inside⟩
      · exact .inl member
    · intro other known here
      by_cases same : other = place
      · exact .inr (same ▸ List.mem_cons_self)
      · exact .inl ((getD_set_other same).symm.trans here)
    · have counted := count_set depth inside unknown
      simp only [remaining, List.length_cons]
      omega
  next seen known =>
    split
    · exact Extends.refl d
    · exact fault_extends d place _

theorem meet_agreed {d : Depths} {depth place : Nat} (inside : place < d.depths.size)
    (empty : (d.meet depth place).faults = #[]) :
    (d.meet depth place).depths.getD place none = some depth := by
  unfold meet at *
  split at empty
  next unknown =>
    exact getD_set_self inside
  next seen known =>
    split at empty
    next same =>
      simp_all
    next =>
      simp [fault] at empty

theorem meetAll_extends (depth : Nat) (places : List Nat) (d : Depths)
    (inside : ∀ place ∈ places, place < d.depths.size) :
    Extends d (places.foldl (meet depth) d) := by
  induction places generalizing d with
  | nil => exact Extends.refl d
  | cons place rest ih =>
    have first := meet_extends depth (inside place List.mem_cons_self)
    refine first.trans (ih _ fun other member => ?_)
    rw [first.size]
    exact inside other (List.mem_cons_of_mem _ member)

theorem meetAll_agreed (depth : Nat) (places : List Nat) (d : Depths)
    (inside : ∀ place ∈ places, place < d.depths.size)
    (empty : (places.foldl (meet depth) d).faults = #[]) :
    ∀ place ∈ places, (places.foldl (meet depth) d).depths.getD place none = some depth := by
  induction places generalizing d with
  | nil => simp
  | cons place rest ih =>
    have first := meet_extends depth (inside place List.mem_cons_self)
    have others : ∀ other ∈ rest, other < (d.meet depth place).depths.size := by
      intro other member
      rw [first.size]
      exact inside other (List.mem_cons_of_mem _ member)
    have later := meetAll_extends depth rest (d.meet depth place) others
    intro other member
    rcases List.mem_cons.mp member with rfl | member
    · exact later.keeps (meet_agreed (inside other List.mem_cons_self) (later.faultless empty))
    · exact ih _ others empty other member

end Depths

theorem mem_successors_lt {c : Code κ} {place next : Nat} (member : next ∈ c.successors place) :
    next < c.instructions.size := by
  unfold successors at member
  split at member
  · simp at member
  · exact of_decide_eq_true (List.mem_filter.mp member).2

theorem lt_of_known {depths : Array (Option Nat)} {place depth : Nat}
    (known : depths.getD place none = some depth) : place < depths.size := by
  refine Nat.lt_of_not_le fun outside => ?_
  simp [Array.getD_eq_getD_getElem?, outside] at known

section Pass

variable {c : Code κ} {limit : Option Nat} {place depth : Nat} {i : Instruction} {d : Depths}

/-- The instruction does not run on `depth` cells: a path that comes to it ends. -/
def Stuck (limit : Option Nat) (depth : Nat) (i : Instruction) : Prop :=
  i = .plain .unreachable ∨ depth < i.pops ∨ ∃ max ∈ limit, max < depthAfter i depth

def Depths.faultsPast (c : Code κ) (place : Nat) (i : Instruction) (d : Depths) :
    Array FunctionFault :=
  if i.fallsThrough && place + 1 == c.instructions.size then d.faults.push (.instruction
    place .fallsOffEnd)
  else d.faults

/-- Either the path ends here at a fault, or the instruction is in order and its depth is passed
on. -/
theorem pass_cases (c : Code κ) (limit : Option Nat) (place depth : Nat) (i : Instruction)
    (d : Depths) :
    (Stuck limit depth i ∧ ∃ cause, d.pass c limit place depth i = d.fault place cause) ∨
    (i ≠ .plain .unreachable ∧ i.pops ≤ depth ∧ (∀ max ∈ limit, depthAfter i depth ≤ max) ∧
      d.pass c limit place depth i = (c.successors place).foldl (Depths.meet (depthAfter i depth))
        { d with
          faults := d.faultsPast c place i, deepest := max d.deepest (depthAfter i depth) }) := by
  simp only [Depths.pass]
  by_cases placeholder : i = .plain .unreachable
  · exact .inl ⟨.inl placeholder, _, if_pos (beq_iff_eq.mpr placeholder)⟩
  rw [if_neg (by simpa using placeholder)]
  by_cases short : depth < i.pops
  · exact .inl ⟨.inr (.inl short), _, if_pos short⟩
  rw [if_neg short]
  cases exceeded : limit.filter (· < depth - i.pops + i.pushes) with
  | some max =>
    obtain ⟨member, exceeds⟩ := Option.filter_eq_some_iff.mp exceeded
    exact .inl ⟨.inr (.inr ⟨max, member, of_decide_eq_true exceeds⟩), _, rfl⟩
  | none =>
    have bounded : ∀ max ∈ limit, depthAfter i depth ≤ max := by
      intro max member
      have kept := Option.filter_eq_none_iff.mp exceeded max member
      simpa [depthAfter] using kept
    refine .inr ⟨placeholder, Nat.le_of_not_lt short, bounded, ?_⟩
    dsimp only [Depths.faultsPast]
    by_cases last : (i.fallsThrough && place + 1 == c.instructions.size) = true
    · rw [if_pos last, if_pos last]
      rfl
    · rw [if_neg last, if_neg last]
      rfl

theorem past_extends (c : Code κ) (place : Nat) (i : Instruction) (d : Depths) :
    d.Extends
      { d with
        faults := d.faultsPast c place i, deepest := max d.deepest (depthAfter i depth) } where
  size := rfl
  keeps known := known
  works member := member
  busy member := .inl member
  fresh known := .inl known
  faultless empty := by
    unfold Depths.faultsPast at empty
    split at empty
    · simp at empty
    · exact empty
  remaining := rfl

theorem pass_extends (size : d.depths.size = c.instructions.size) :
    d.Extends (d.pass c limit place depth i) := by
  rcases pass_cases c limit place depth i d with ⟨_, cause, path⟩ | ⟨_, _, _, path⟩
  · rw [path]
    exact d.fault_extends place cause
  · rw [path]
    refine (past_extends c place i d).trans (Depths.meetAll_extends _ _ _ fun next member => ?_)
    rw [size]
    exact mem_successors_lt member

theorem pass_settled (size : d.depths.size = c.instructions.size)
    (here : c.instructions[place]? = some i) (empty : (d.pass c limit place depth i).faults = #[]) :
    Settled c limit (d.pass c limit place depth i).depths place depth i := by
  rcases pass_cases c limit place depth i d with ⟨_, cause, path⟩ | ⟨real, supplied, bounded, path⟩
  · simp [path, Depths.fault] at empty
  · rw [path] at empty ⊢
    have inside : ∀ next ∈ c.successors place, next < d.depths.size := by
      intro next member
      rw [size]
      exact mem_successors_lt member
    have later := Depths.meetAll_extends (depthAfter i depth) _
      { d with
        faults := d.faultsPast c place i, deepest := max d.deepest (depthAfter i depth) } inside
    refine ⟨here, real, supplied, bounded, fun falls last => ?_,
      Depths.meetAll_agreed _ _ _ inside empty⟩
    have unfinished := later.faultless empty
    simp [Depths.faultsPast, falls, last] at unfinished

end Pass

/-- What holds between two rounds. -/
structure Underway (c : Code κ) (limit : Option Nat) (d : Depths) : Prop where
  size : d.depths.size = c.instructions.size
  known : ∀ place ∈ d.work, ∃ depth, d.depths.getD place none = some depth
  settled : d.faults = #[] → ∀ {place depth : Nat}, d.depths.getD place none = some depth →
    place ∈ d.work ∨ ∃ i, Settled c limit d.depths place depth i

theorem Settled.extend {c : Code κ} {limit : Option Nat} {depths later : Array (Option Nat)}
    {place depth : Nat} {i : Instruction} (settled : Settled c limit depths place depth i)
    (keeps : ∀ {place depth : Nat}, depths.getD place none = some depth →
      later.getD place none = some depth) : Settled c limit later place depth i :=
  { settled with agreed := fun next member => keeps (settled.agreed next member) }

theorem Underway.round {c : Code κ} {limit : Option Nat} {d : Depths} {place depth : Nat}
    {work : List Nat} {i : Instruction} (underway : Underway c limit d)
    (worklist : d.work = place :: work) (entered : d.depths.getD place none = some depth)
    (here : c.instructions[place]? = some i) :
    Underway c limit ({ d with work }.pass c limit place depth i) := by
  have later : ({ d with work } : Depths).Extends ({ d with work }.pass c limit place depth i) :=
    pass_extends underway.size
  refine ⟨later.size.trans underway.size, fun other member => ?_, fun empty other found known => ?_⟩
  · rcases later.busy member with before | known
    · obtain ⟨found, known⟩ := underway.known other (worklist ▸ List.mem_cons_of_mem _ before)
      exact ⟨found, later.keeps known⟩
    · exact known
  · rcases later.fresh known with before | added
    · rcases underway.settled (later.faultless empty) before with waiting | ⟨i, settled⟩
      · rcases List.mem_cons.mp (worklist ▸ waiting) with rfl | waiting
        · obtain rfl : depth = found := Option.some.inj (entered.symm.trans before)
          exact .inr ⟨i, pass_settled underway.size here empty⟩
        · exact .inl (later.works waiting)
      · exact .inr ⟨i, settled.extend later.keeps⟩
    · exact .inl added

theorem spread_done {c : Code κ} {limit : Option Nat} {rounds : Nat} {d : Depths}
    (underway : Underway c limit d) (enough : d.remaining ≤ rounds) :
    Underway c limit (c.spread limit rounds d) ∧ (c.spread limit rounds d).work = [] ∧
      ∀ {place depth : Nat}, d.depths.getD place none = some depth →
        (c.spread limit rounds d).depths.getD place none = some depth := by
  induction rounds generalizing d with
  | zero =>
    have idle : d.work = [] :=
      List.eq_nil_of_length_eq_zero (by simp only [Depths.remaining] at enough; omega)
    exact ⟨underway, idle, fun known => known⟩
  | succ rounds ih =>
    unfold spread
    cases worklist : d.work with
    | nil => exact ⟨underway, worklist, fun known => known⟩
    | cons place work =>
      obtain ⟨depth, entered⟩ := underway.known place (worklist ▸ List.mem_cons_self)
      have inside : place < c.instructions.size := underway.size ▸ lt_of_known entered
      have here : c.instructions[place]? = some c.instructions[place] :=
        Array.getElem?_eq_getElem inside
      simp only [entered, here]
      have later : ({ d with work } : Depths).Extends
          ({ d with work }.pass c limit place depth c.instructions[place]) :=
            pass_extends underway.size
      have fewer : ({ d with work }.pass c limit place depth c.instructions[place]).remaining ≤
          rounds := by
        rw [later.remaining]
        simp only [Depths.remaining, worklist, List.length_cons] at enough ⊢
        omega
      obtain ⟨done, idle, keeps⟩ := ih (underway.round worklist entered here) fewer
      exact ⟨done, idle, fun known => keeps (later.keeps known)⟩

def Depths.initial (size : Nat) : Depths :=
  { depths := (Array.replicate size none).setIfInBounds 0 (some 0), work := [0], faults := #[]
    deepest := 0 }

theorem analyze_eq_spread {c : Code κ} (limit : Option Nat) (occupied : 0 < c.instructions.size) :
    c.analyze limit = c.spread limit c.instructions.size (.initial c.instructions.size) := by
  simp [analyze, Nat.ne_of_gt occupied, Depths.initial]

theorem unknown_at_first (size place : Nat) :
    (Array.replicate size (none : Option Nat)).getD place none = none := by
  simp only [Array.getD_eq_getD_getElem?, Array.getElem?_replicate]
  split <;> rfl

theorem initial_known {size : Nat} (occupied : 0 < size) :
    (Depths.initial size).depths.getD 0 none = some 0 :=
  Depths.getD_set_self (by simpa using occupied)

theorem initial_remaining {size : Nat} (occupied : 0 < size) :
    (Depths.initial size).remaining = size := by
  have counted := Depths.count_set 0 (by simpa using occupied) (unknown_at_first size 0)
  simp only [Array.count_replicate_self] at counted
  simp only [Depths.remaining, Depths.initial, List.length_singleton]
  exact counted

theorem initial_underway {c : Code κ} (limit : Option Nat) (occupied : 0 < c.instructions.size) :
    Underway c limit (.initial c.instructions.size) := by
  refine ⟨by simp [Depths.initial], fun place member => ?_, fun _ place depth known => ?_⟩
  · obtain rfl := List.mem_singleton.mp member
    exact ⟨0, initial_known occupied⟩
  · by_cases first : place = 0
    · exact .inl (List.mem_singleton.mpr first)
    · have nothing := (Depths.getD_set_other first).symm.trans known
      rw [unknown_at_first] at nothing
      contradiction

def depthAt? (c : Code κ) (place : Nat) : Option Nat :=
  (c.analyze (some c.stack.toNat)).depths.getD place none

/-- Depths found without a fault: the code starts with no cells, and every place that has a depth is
settled. -/
structure Certified (c : Code κ) : Prop where
  start : c.depthAt? 0 = some 0
  settled : ∀ {place depth : Nat}, c.depthAt? place = some depth →
    ∃ i, Settled c (some c.stack.toNat) (c.analyze (some c.stack.toNat)).depths place depth i

theorem faults_of_empty {c : Code κ} (limit : Option Nat) (vacant : c.instructions.size = 0) :
    (c.analyze limit).faults ≠ #[] := by
  simp [analyze, vacant]

theorem analyze_settled {c : Code κ} {limit : Option Nat} (empty : (c.analyze limit).faults = #[]) :
    (c.analyze limit).depths.getD 0 none = some 0 ∧
      ∀ {place depth : Nat}, (c.analyze limit).depths.getD place none = some depth →
        ∃ i, Settled c limit (c.analyze limit).depths place depth i := by
  have occupied : 0 < c.instructions.size :=
    Nat.pos_of_ne_zero fun vacant => faults_of_empty limit vacant empty
  obtain ⟨done, idle, keeps⟩ :=
    spread_done (initial_underway limit occupied) (Nat.le_of_eq (initial_remaining occupied))
  rw [← analyze_eq_spread limit occupied] at done idle keeps
  refine ⟨keeps (initial_known occupied), fun known => ?_⟩
  rcases done.settled empty known with waiting | settled
  · simp [idle] at waiting
  · exact settled

theorem certified_of_faultless {c : Code κ} (faultless : c.stackFaults = []) : Certified c := by
  have empty : (c.analyze (some c.stack.toNat)).faults = #[] := by
    simpa [stackFaults] using faultless
  obtain ⟨start, settled⟩ := analyze_settled empty
  exact ⟨start, settled⟩

end StackMachine.Code
