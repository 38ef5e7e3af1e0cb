import StackMachine.Proofs.Duplication

/-! Access paths. A path is a row of indices and keys that leads from a value to what lies deep
inside of it. What one sees at the ends of all paths is the tree that the value unfolds to; where a
container contains itself the tree is infinite. Values that are alike unfold to the same tree. -/

namespace StackMachine

inductive Access where
  | item (index : Nat)
  | entry (key : Scalar)
deriving DecidableEq

/-- What a value shows before one looks inside of it. -/
inductive Face where
  | undefined
  | scalar (value : Scalar)
  | list (length : Nat)
  | map (keys : List Scalar)
deriving DecidableEq

namespace Store

variable {s t : Store} {v w x : Value} {R : Value → Value → Prop}

def child? (s : Store) : Value → Access → Option Value
  | .list ref, .item index => (s.list ref)[index]?
  | .map ref, .entry key => (s.map ref).find? key
  | _, _ => none

def follow (s : Store) (v : Value) : List Access → Option Value
  | [] => some v
  | a :: path => (s.child? v a).bind fun w => s.follow w path

def face (s : Store) : Value → Face
  | .undefined => .undefined
  | .null => .scalar .null
  | .bool b => .scalar (.bool b)
  | .int n => .scalar (.int n)
  | .float x => .scalar (.float x)
  | .text ref => .scalar (.text (s.text ref))
  | .list ref => .list (s.list ref).size
  | .map ref => .map ((s.map ref).entries.map Prod.fst)

/-- The tree that a value unfolds to: its nodes are the paths that lead somewhere, with the faces
found there. -/
def tree (s : Store) (v : Value) (path : List Access) : Option Face :=
  (s.follow v path).map s.face

section Steps

theorem inside_of_child? {a : Access} (step : s.child? v a = some w) : s.Inside v w := by
  unfold child? at step
  split at step
  · exact .item (Array.mem_of_getElem? step)
  · exact .entry (Entries.mem_of_find? step)
  · contradiction

theorem Same.child? (same : s.Same t v) (a : Access) : t.child? v a = s.child? v a := by
  cases v with
  | list ref =>
    replace same : t.list ref = s.list ref := same
    cases a <;> simp only [Store.child?, same]
  | map ref =>
    replace same : t.map ref = s.map ref := same
    cases a <;> simp only [Store.child?, same]
  | _ => rfl

theorem follow_concat (path : List Access) (a : Access) :
    s.follow v (path ++ [a]) = (s.follow v path).bind (s.child? · a) := by
  induction path generalizing v with
  | nil => simp [follow]
  | cons b path ih =>
    simp only [List.cons_append, follow, Option.bind_assoc]
    exact Option.bind_congr fun w _ => ih

theorem follow_last {path : List Access} (leads : s.follow v path = some w) :
    (path = [] ∧ w = v) ∨
      ∃ a x, path.getLast? = some a ∧ s.follow v path.dropLast = some x ∧
        s.child? x a = some w := by
  rcases path.eq_nil_or_concat with rfl | ⟨path, a, rfl⟩
  · exact .inl ⟨rfl, (Option.some.inj leads).symm⟩
  · rw [List.concat_eq_append, follow_concat] at leads
    obtain ⟨x, before, step⟩ := Option.bind_eq_some_iff.mp leads
    exact .inr ⟨a, x, by simp, by simpa using before, step⟩

end Steps

section Likeness

theorem forall₂_getElem? {l m : List Value} (related : List.Forall₂ R l m) (i : Nat) :
    Option.Rel R l[i]? m[i]? := by
  induction related generalizing i with
  | nil => exact .none
  | cons first _ ih =>
    cases i with
    | zero => exact .some first
    | succ i => exact ih i

theorem forall₂_find? {l m : List (Scalar × Value)} (key : Scalar)
    (related : List.Forall₂ (fun e f => f.1 = e.1 ∧ R e.2 f.2) l m) :
    Option.Rel R (Entries.find? key l) (Entries.find? key m) := by
  induction related with
  | nil => exact .none
  | cons first _ ih =>
    simp only [Entries.find?, first.1]
    split
    · exact .none
    · exact .some first.2
    · exact ih

theorem forall₂_keys {l m : List (Scalar × Value)}
    (related : List.Forall₂ (fun e f => f.1 = e.1 ∧ R e.2 f.2) l m) :
    m.map Prod.fst = l.map Prod.fst := by
  induction related with
  | nil => rfl
  | cons first _ ih => rw [List.map_cons, List.map_cons, first.1, ih]

theorem Matches.child? (matched : s.Matches t R v w) (a : Access) :
    Option.Rel R (s.child? v a) (t.child? w a) := by
  cases matched with
  | immediate plain =>
    cases v with
    | list ref => contradiction
    | map ref => contradiction
    | _ => exact .none
  | text _ => exact .none
  | list items =>
    cases a with
    | item index => simpa [Store.child?] using forall₂_getElem? items index
    | entry key => exact .none
  | map entries =>
    cases a with
    | item index => exact .none
    | entry key => exact forall₂_find? key entries

theorem Matches.face (matched : s.Matches t R v w) : t.face w = s.face v := by
  cases matched with
  | immediate plain =>
    cases v with
    | text ref => contradiction
    | list ref => contradiction
    | map ref => contradiction
    | _ => rfl
  | text same => simp only [Store.face, same]
  | list items =>
    have sizes := items.length_eq
    simp only [Array.length_toList] at sizes
    rw [Store.face, Store.face, sizes]
  | map entries =>
    rw [Store.face, Store.face, forall₂_keys entries]

theorem follow_related (matched : ∀ x y, R x y → s.Matches t R x y) (related : R v w)
    (path : List Access) : Option.Rel R (s.follow v path) (t.follow w path) := by
  induction path generalizing v w with
  | nil => exact .some related
  | cons a path ih =>
    have step := (matched v w related).child? a
    simp only [follow]
    generalize s.child? v a = one, t.child? w a = other at step ⊢
    cases step with
    | none => exact .none
    | some inner => exact ih inner

theorem tree_eq (matched : ∀ x y, R x y → s.Matches t R x y) (related : R v w) :
    t.tree w = s.tree v := by
  funext path
  have ends := follow_related matched related path
  simp only [tree]
  generalize s.follow v path = one, t.follow w path = other at ends ⊢
  cases ends with
  | none => rfl
  | some inner => exact congrArg some (matched _ _ inner).face

end Likeness

end Store

end StackMachine
