import Mathlib.Logic.Relation
import StackMachine.Proofs.StackPaths

/-! The search for the instructions that control can come to. It puts every place to work once, when
it meets it, and a place whose work is done has had all its successors met. So when no work is left
the search has met exactly the places to which a path of successors leads, and it warns of exactly
the others. -/

namespace StackMachine

namespace Code

variable {κ : Type} {c : Code κ}

def Leads (c : Code κ) : Nat → Nat → Prop :=
  Relation.ReflTransGen fun place next => next ∈ c.successors place

namespace Search

variable {s t u : Search} {place : Nat} {places : List Nat}

def Sees (s : Search) (place : Nat) : Prop :=
  s.seen[place]? = some true

/-- Places that have not been met, and places still to be worked on; each round works on one. -/
def remaining (s : Search) : Nat :=
  s.seen.count false + s.work.length

structure Meets (s : Search) (places : List Nat) (t : Search) : Prop where
  size : t.seen.size = s.seen.size
  sees : ∀ place, t.Sees place ↔ s.Sees place ∨ place ∈ places
  work : ∀ place, place ∈ t.work ↔ place ∈ s.work ∨ place ∈ places ∧ ¬ s.Sees place
  remaining : t.remaining = s.remaining

theorem Meets.none (s : Search) : s.Meets [] s := by
  constructor <;> simp

theorem Meets.trans {more : List Nat} (first : s.Meets places t) (second : t.Meets more u) :
    s.Meets (places ++ more) u where
  size := second.size.trans first.size
  sees place := by rw [second.sees, first.sees, List.mem_append, or_assoc]
  work place := by
    rw [second.work, first.work, first.sees, List.mem_append]
    by_cases known : s.Sees place <;> by_cases early : place ∈ places <;> simp [known, early]
  remaining := second.remaining.trans first.remaining

theorem meet_meets (inside : place < s.seen.size) : s.Meets [place] (s.meet place) := by
  have here : s.seen[place]? = some s.seen[place] := Array.getElem?_eq_getElem inside
  unfold meet
  rw [Array.getD_eq_getD_getElem?, here, Option.getD_some]
  cases met : s.seen[place] with
  | true =>
    have known : s.Sees place := by rw [Sees, here, met]
    refine ⟨rfl, fun other => ?_, fun other => ?_, rfl⟩ <;> by_cases same : other = place <;>
      simp [same, known]
  | false =>
    have new : ¬ s.Sees place := by simp [Sees, here, met]
    have counted : (s.seen.setIfInBounds place true).count false + 1 = s.seen.count false := by
      have positive : 0 < s.seen.count false :=
        Array.count_pos_iff.mpr (met ▸ Array.getElem_mem inside)
      rw [Array.setIfInBounds_def, dif_pos inside, Array.count_set, met]
      simp only [beq_self_eq_true, if_true, Bool.true_beq, Bool.false_eq_true, if_false]
      omega
    refine ⟨by simp, fun other => ?_, fun other => ?_, ?_⟩
    · by_cases same : other = place
      · subst same
        simp [Sees, inside]
      · simp [Sees, same, Ne.symm same]
    · by_cases same : other = place <;> simp [same, new]
    · simp only [remaining, List.length_cons, Bool.false_eq_true, if_false]
      omega

theorem meetAll_meets (inside : ∀ place ∈ places, place < s.seen.size) :
    s.Meets places (places.foldl meet s) := by
  induction places generalizing s with
  | nil => exact .none s
  | cons place rest ih =>
    have first := meet_meets (inside place List.mem_cons_self)
    refine first.trans (ih fun other member => ?_)
    rw [first.size]
    exact inside other (List.mem_cons_of_mem _ member)

/-- A path leads to whatever has been met, and what is not at work any more has had its successors
met. -/
structure Traced (c : Code κ) (s : Search) : Prop where
  size : s.seen.size = c.instructions.size
  path : ∀ place, s.Sees place → c.Leads 0 place
  listed : ∀ place ∈ s.work, s.Sees place
  closed : ∀ place, s.Sees place → place ∈ s.work ∨ ∀ next ∈ c.successors place, s.Sees next

def round (c : Code κ) (place : Nat) (work : List Nat) (s : Search) : Search :=
  (c.successors place).foldl meet { s with work }

theorem Traced.round (traced : s.Traced c) {work : List Nat} (fetched : s.work = place :: work) :
    (s.round c place work).Traced c ∧ (s.round c place work).remaining + 1 = s.remaining ∧
      ∀ other, s.Sees other → (s.round c place work).Sees other := by
  have here : s.Sees place := traced.listed place (fetched ▸ List.mem_cons_self)
  have meets : Meets { s with work } (c.successors place) (s.round c place work) :=
    meetAll_meets fun next member => by
    rw [traced.size]
    exact mem_successors_lt member
  refine ⟨⟨meets.size.trans traced.size, fun other sees => ?_, fun other member => ?_,
    fun other sees => ?_⟩, ?_, fun other sees => (meets.sees other).mpr (.inl sees)⟩
  · rcases (meets.sees other).mp sees with before | next
    · exact traced.path other before
    · exact (traced.path place here).tail next
  · refine (meets.sees other).mpr (((meets.work other).mp member).imp (fun listed => ?_) And.left)
    exact traced.listed other (fetched ▸ List.mem_cons_of_mem _ listed)
  · by_cases known : s.Sees other
    · rcases traced.closed other known with listed | closed
      · rw [fetched] at listed
        rcases List.mem_cons.mp listed with rfl | listed
        · exact .inr fun next member => (meets.sees next).mpr (.inr member)
        · exact .inl ((meets.work other).mpr (.inl listed))
      · exact .inr fun next member => (meets.sees next).mpr (.inl (closed next member))
    · have new := ((meets.sees other).mp sees).resolve_left known
      exact .inl ((meets.work other).mpr (.inr ⟨new, known⟩))
  · rw [meets.remaining, remaining, remaining, fetched, List.length_cons]
    rfl

theorem Traced.sees_of_leads (traced : s.Traced c) (idle : s.work = []) (first : s.Sees 0)
    (leads : c.Leads 0 place) : s.Sees place := by
  induction leads with
  | refl => exact first
  | tail _ next ih =>
    have closed := (traced.closed _ ih).resolve_left (by simp [idle])
    exact closed _ next

end Search

theorem search_traced {rounds : Nat} {s : Search} (traced : s.Traced c)
    (enough : s.remaining ≤ rounds) :
    (c.search rounds s).Traced c ∧ (c.search rounds s).work = [] ∧
      ∀ place, s.Sees place → (c.search rounds s).Sees place := by
  induction rounds generalizing s with
  | zero =>
    refine ⟨traced, List.eq_nil_of_length_eq_zero ?_, fun _ sees => sees⟩
    simp only [Search.remaining] at enough
    simp only [search]
    omega
  | succ rounds ih =>
    unfold search
    split
    next idle => exact ⟨traced, idle, fun _ sees => sees⟩
    next place work fetched =>
      obtain ⟨traced', fewer, keeps⟩ := traced.round fetched
      obtain ⟨final, idle, later⟩ := ih traced' (by omega)
      exact ⟨final, idle, fun other sees => later other (keeps other sees)⟩

namespace Search

def unseen (size : Nat) : Search where
  seen := Array.replicate size false
  work := []

theorem not_sees_unseen (size place : Nat) : ¬ (unseen size).Sees place := by
  simp [Sees, unseen, Array.getElem?_replicate]

theorem first_meets (occupied : 0 < c.instructions.size) :
    (unseen c.instructions.size).Meets [0] ((unseen c.instructions.size).meet 0) :=
  meet_meets (by simpa [unseen] using occupied)

theorem first_traced (occupied : 0 < c.instructions.size) :
    ((unseen c.instructions.size).meet 0).Traced c := by
  have meets := first_meets occupied
  have seen (place : Nat) : ((unseen c.instructions.size).meet 0).Sees place ↔ place = 0 := by
    simp [meets.sees, not_sees_unseen]
  have listed (place : Nat) : place ∈ ((unseen c.instructions.size).meet 0).work ↔ place = 0 := by
    have idle : (unseen c.instructions.size).work = [] := rfl
    simp [meets.work, idle, not_sees_unseen]
  refine ⟨by simpa [unseen] using meets.size, fun place sees => ?_, fun place member => ?_,
    fun place sees => ?_⟩
  · rw [(seen place).mp sees]
    exact .refl
  · exact (seen place).mpr ((listed place).mp member)
  · exact .inl ((listed place).mpr ((seen place).mp sees))

theorem first_remaining (occupied : 0 < c.instructions.size) :
    ((unseen c.instructions.size).meet 0).remaining = c.instructions.size := by
  rw [(first_meets occupied).remaining]
  simp [remaining, unseen]

end Search

section Exact

theorem reachable_traced (occupied : 0 < c.instructions.size) :
    ∃ s : Search, c.reachable = s.seen ∧ s.Traced c ∧ s.work = [] ∧ s.Sees 0 := by
  obtain ⟨traced, idle, keeps⟩ :=
    search_traced (Search.first_traced occupied) (Nat.le_of_eq (Search.first_remaining occupied))
  have first := ((Search.first_meets occupied).sees 0).mpr (.inr List.mem_cons_self)
  exact ⟨_, rfl, traced, idle, keeps 0 first⟩

theorem size_reachable (c : Code κ) : c.reachable.size = c.instructions.size := by
  by_cases vacant : c.instructions.size = 0
  · simp [reachable, vacant, search, Search.meet]
  · obtain ⟨s, found, traced, _⟩ := reachable_traced (Nat.pos_of_ne_zero vacant)
    rw [found, traced.size]

theorem reachable_iff (c : Code κ) (place : Nat) :
    c.reachable[place]? = some true ↔ place < c.instructions.size ∧ c.Leads 0 place := by
  by_cases vacant : c.instructions.size = 0
  · have nothing : c.reachable = #[] :=
      Array.eq_empty_of_size_eq_zero (c.size_reachable.trans vacant)
    simp [nothing, vacant]
  · obtain ⟨s, found, traced, idle, first⟩ := reachable_traced (Nat.pos_of_ne_zero vacant)
    rw [found]
    refine ⟨fun sees => ⟨?_, traced.path place sees⟩,
      fun ⟨_, leads⟩ => traced.sees_of_leads idle first leads⟩
    rw [← traced.size]
    exact (Array.getElem?_eq_some_iff.mp sees).1

theorem mem_deadFaults_iff (c : Code κ) (fault : FunctionFault) :
    fault ∈ c.deadFaults ↔
      ∃ place, fault = .instruction place .dead ∧ place < c.instructions.size ∧
        ¬ c.Leads 0 place := by
  simp only [deadFaults, List.mem_filterMap, List.mem_zipIdx_iff_getElem?, Array.getElem?_toList]
  refine ⟨?_, ?_⟩
  · rintro ⟨⟨seen, place⟩, found, warned⟩
    dsimp only at found warned
    have inside : place < c.instructions.size := by
      rw [← c.size_reachable]
      exact (Array.getElem?_eq_some_iff.mp found).1
    cases seen with
    | true => simp at warned
    | false =>
      refine ⟨place, (Option.some.inj warned).symm, inside, fun leads => ?_⟩
      rw [(c.reachable_iff place).mpr ⟨inside, leads⟩] at found
      contradiction
  · rintro ⟨place, rfl, inside, unreached⟩
    have there : c.reachable[place]? = some (c.reachable.getD place false) := by
      rw [← c.size_reachable] at inside
      simp [inside]
    refine ⟨(c.reachable.getD place false, place), there, ?_⟩
    cases seen : c.reachable.getD place false with
    | false => rfl
    | true =>
      rw [seen] at there
      exact absurd ((c.reachable_iff place).mp there).2 unreached

end Exact

section Likeness

variable {κ' : Type} {d : Code κ'}

/-- A code that has the same instructions and whose tables have no new cases leads nowhere new. -/
theorem Leads.widen {place next : Nat} (leads : d.Leads place next)
    (same : d.instructions = c.instructions)
    (fewer : ∀ i target, target ∈ d.jumpTargets i → target ∈ c.jumpTargets i) :
    c.Leads place next := by
  induction leads with
  | refl => exact .refl
  | @tail place next _ member ih =>
    refine ih.tail ?_
    cases here : d.instructions[place]? with
    | none => simp [successors, here] at member
    | some i =>
      obtain ⟨inside, goes⟩ := (mem_successors_iff here).mp member
      rw [same] at here inside
      exact (mem_successors_iff here).mpr ⟨inside, goes.imp_left (fewer i next)⟩

theorem search_congr (same : d.successors = c.successors) (rounds : Nat) (s : Search) :
    d.search rounds s = c.search rounds s := by
  induction rounds generalizing s with
  | zero => rfl
  | succ rounds ih => simp only [search, same, ih]

theorem deadFaults_congr (instructions : d.instructions = c.instructions)
    (tables : d.tables = c.tables) : d.deadFaults = c.deadFaults := by
  have same : d.successors = c.successors := by
    funext place
    simp only [successors, jumpTargets, instructions, tables]
  simp only [deadFaults, reachable, instructions, search_congr same]

end Likeness

end Code

theorem Function.mem_codeErrors_dead_iff {κ : Type} (f : Function κ) (error : VerifyError) :
    error ∈ f.codeErrors Code.deadFaults ↔ ∃ c, f.code? = some c ∧ ∃ place,
      error = .function f.qualifiedName (.instruction place .dead) ∧ place < c.instructions.size ∧
        ¬ c.Leads 0 place := by
  unfold Function.codeErrors
  split
  next native => simp [native]
  next c known =>
    simp only [known, Option.some.injEq, exists_eq_left', List.mem_map, Code.mem_deadFaults_iff]
    refine ⟨?_, ?_⟩
    · rintro ⟨fault, ⟨place, rfl, dead⟩, rfl⟩
      exact ⟨place, rfl, dead⟩
    · rintro ⟨place, rfl, dead⟩
      exact ⟨_, ⟨place, rfl, dead⟩, rfl⟩

theorem Module.mem_deadCode_iff {κ : Type} (m : Module κ) (error : VerifyError) :
    error ∈ m.deadCode ↔ ∃ f ∈ m.functions, ∃ c, f.code? = some c ∧ ∃ place,
      error = .function f.qualifiedName (.instruction place .dead) ∧ place < c.instructions.size ∧
        ¬ c.Leads 0 place := by
  simp only [deadCode, List.mem_flatMap, Array.mem_toList_iff, Function.mem_codeErrors_dead_iff]

end StackMachine
