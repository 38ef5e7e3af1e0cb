import Mathlib.Data.List.Nodup
import StackMachine.Operator.Container
import StackMachine.Proofs.Replication

/-! How values are displayed. A value is written out along the paths that lead into it. Where a path
comes to a list or map that it has come by before, a mark stands for it; everything else is written
in full, as often as paths lead to it. A path that has not come by anything twice is no longer than
there are containers, so the writing comes to an end, and the bound of the unfolding never shows. -/

namespace StackMachine

namespace Datum

variable {β : Type} (mark : β → String)

theorem nestedItems_eq (items : List (Datum β)) :
    nestedItems mark items = items.map (nested mark) := by
  induction items with
  | nil => rfl
  | cons item rest ih => rw [nestedItems, ih, List.map_cons]

theorem nestedEntries_eq (entries : List (Scalar × Datum β)) :
    nestedEntries mark entries = entries.map fun e => e.1.quoted ++ ": " ++ nested mark e.2 := by
  induction entries with
  | nil => rfl
  | cons e rest ih => rw [nestedEntries, ih, List.map_cons]

end Datum

def Unfolding.written (tree : Unfolding) (path : List Access) : String :=
  if path = [] then tree.render Back.text else tree.nested Back.text

theorem Unfolding.written_concat (tree : Unfolding) (path : List Access) (a : Access) :
    tree.written (path ++ [a]) = tree.nested Back.text := by
  simp [written]

theorem Unfolding.written_eq_nested {tree : Unfolding} (compound : ∀ value, tree ≠ .scalar value)
    (path : List Access) : tree.written path = tree.nested Back.text := by
  have forms : tree.render Back.text = tree.nested Back.text := by
    cases tree with
    | scalar value => exact absurd rfl (compound value)
    | _ => rfl
  rw [written, forms, ite_self]

namespace Store

variable {s : Store} {root v w : Value} {path : List Access} {a : Access} {trail : List Container}
  {k : Container}
  {bound : Nat}

/-- On its way from the root, before it ends, the path comes by the value. -/
def Ancestor (s : Store) (root : Value) (path : List Access) (v : Value) : Prop :=
  ∃ before, before <+: path ∧ before ≠ path ∧ s.follow root before = some v

theorem not_ancestor_nil : ¬ s.Ancestor root [] v := by
  rintro ⟨before, isPrefix, differ, _⟩
  exact differ (List.prefix_nil.mp isPrefix)

theorem ancestor_concat :
    s.Ancestor root (path ++ [a]) v ↔ s.Ancestor root path v ∨ s.follow root path = some v := by
  constructor
  · rintro ⟨before, isPrefix, differ, leads⟩
    rcases List.prefix_concat_iff.mp isPrefix with whole | shorter
    · exact absurd whole differ
    · by_cases same : before = path
      · exact .inr (same ▸ leads)
      · exact .inl ⟨before, shorter, same, leads⟩
  · have longer (before : List Access) (isPrefix : before <+: path) : before ≠ path ++ [a] := by
      rintro rfl
      have short := isPrefix.length_le
      rw [List.length_append, List.length_singleton] at short
      omega
    rintro (⟨before, isPrefix, _, leads⟩ | leads)
    · exact ⟨before, isPrefix.trans (List.prefix_append _ _), longer _ isPrefix, leads⟩
    · exact ⟨path, List.prefix_append _ _, longer _ List.prefix_rfl, leads⟩

/-- What stands for the value at the end of a path from the root. Texts are in quotes unless they
are the root. A list or map that is an ancestor of itself on this path is only hinted at; any other
one is written in full, with what stands for the values that are one step further. -/
inductive Prints (s : Store) (root : Value) : List Access → Value → String → Prop
  | undefined {path : List Access} : Prints s root path .undefined "undefined"
  | scalar {path : List Access} {v : Value} {value : Scalar} (read : s.scalar? v = some value) :
    Prints s root path v (if path = [] then value.plain else value.quoted)
  | listAgain {path : List Access} {ref : ListRef} (again : s.Ancestor root path (.list ref)) :
    Prints s root path (.list ref) "[...]"
  | mapAgain {path : List Access} {ref : MapRef} (again : s.Ancestor root path (.map ref)) :
    Prints s root path (.map ref) "\x7b...\x7d"
  | list {path : List Access} {ref : ListRef} {text : Access → String}
    (new : ¬ s.Ancestor root path (.list ref))
    (inner : ∀ a v, s.child? (.list ref) a = some v → Prints s root (path ++ [a]) v (text a)) :
    Prints s root path (.list ref)
      ("[" ++ ", ".intercalate ((List.range (s.list ref).size).map fun i => text (.item i)) ++ "]")
  | map {path : List Access} {ref : MapRef} {text : Access → String}
    (new : ¬ s.Ancestor root path (.map ref))
    (inner : ∀ a v, s.child? (.map ref) a = some v → Prints s root (path ++ [a]) v (text a)) :
    Prints s root path (.map ref)
      ("\x7b" ++ ", ".intercalate ((s.map ref).entries.map fun e => e.1.quoted ++ ": " ++
        text (.entry e.1)) ++ "\x7d")

section Totality

/-- The unfolding has come to `v` along the path. The containers of the trail are the ancestors,
each of them once, and the bound makes up for them. -/
structure Descent (s : Store) (root : Value) (path : List Access) (v : Value)
    (trail : List Container) (bound : Nat) : Prop where
  leads : s.follow root path = some v
  ancestors : ∀ k : Container, k ∈ trail ↔ s.Ancestor root path k.value
  nodup : trail.Nodup
  has : ∀ k ∈ trail, s.Has k.value
  enough : s.containers < bound + trail.length

theorem descent_start (s : Store) (v : Value) : s.Descent v [] v [] (s.containers + 1) where
  leads := rfl
  ancestors k := by simp [not_ancestor_nil]
  nodup := .nil
  has := by simp
  enough := Nat.lt_succ_self _

theorem Descent.bound_ne_zero (descent : s.Descent root path v trail 0) : False := by
  have covered : trail.map Container.value ⊆ s.nodes := by
    intro v member
    obtain ⟨k, inside, rfl⟩ := List.mem_map.mp member
    exact mem_nodes_value (descent.has k inside)
  have different : (trail.map Container.value).Nodup :=
    descent.nodup.map fun k l => Container.value_injective
  have short := length_le_containers different covered
  rw [List.length_map] at short
  have enough := descent.enough
  omega

theorem Descent.step (descent : s.Descent root path k.value trail (bound + 1)) (new : k ∉ trail)
    (step : s.child? k.value a = some v) : s.Descent root (path ++ [a]) v (k :: trail) bound where
  leads := by rw [follow_concat, descent.leads, Option.bind_some, step]
  ancestors l := by
    have same : k.value = l.value ↔ l = k :=
      ⟨fun same => (Container.value_injective same).symm, fun same => same ▸ rfl⟩
    rw [List.mem_cons, ancestor_concat, ← descent.ancestors l, descent.leads, Option.some.injEq,
      same, or_comm]
  nodup := List.nodup_cons.mpr ⟨new, descent.nodup⟩
  has := List.forall_mem_cons.mpr ⟨(inside_of_child? step).has, descent.has⟩
  enough := by
    have enough := descent.enough
    rw [List.length_cons]
    omega

theorem unfoldWithin_scalar {value : Scalar} (read : s.scalar? v = some value) :
    s.unfoldWithin (bound + 1) trail v = .scalar value := by
  cases v <;> simp_all [scalar?, unfoldWithin]

theorem unfoldWithin_again (bound : Nat) (known : k ∈ trail) :
    ∃ depth, s.unfoldWithin (bound + 1) trail k.value = .back ⟨depth + 1, k⟩ := by
  have found : trail.idxOf? k ≠ none := fun missing => List.idxOf?_eq_none_iff.mp missing known
  obtain ⟨depth, placed⟩ := Option.ne_none_iff_exists'.mp found
  cases k <;> exact ⟨depth, by simp [Container.value, unfoldWithin, placed]⟩

def further (s : Store) (bound : Nat) (trail : List Container) (k : Container) (a : Access) :
    String :=
  (s.unfoldWithin bound (k :: trail) ((s.child? k.value a).getD .undefined)).nested Back.text

theorem further_eq (step : s.child? k.value a = some v) :
    s.further bound trail k a = (s.unfoldWithin bound (k :: trail) v).nested Back.text := by
  rw [further, step, Option.getD_some]

theorem unfoldWithin_list {ref : ListRef} (bound : Nat) (new : .list ref ∉ trail)
    (path : List Access) :
    (s.unfoldWithin (bound + 1) trail (.list ref)).written path =
      "[" ++ ", ".intercalate ((List.range (s.list ref).size).map fun i => s.further bound trail
        (.list ref) (.item i)) ++ "]" := by
  have opened : s.unfoldWithin (bound + 1) trail (.list ref) =
      .list ((s.list ref).toList.map (s.unfoldWithin bound (.list ref :: trail))) := by
    simp [unfoldWithin, List.idxOf?_eq_none_iff.mpr new]
  rw [opened, Unfolding.written_eq_nested (by simp), Datum.nested, Datum.nestedItems_eq,
    List.map_map]
  congr 3
  apply List.ext_getElem
  · simp
  · intro i _ inside
    have there : i < (s.list ref).size := by simpa using inside
    simp [further, Container.value, child?, there]

theorem unfoldWithin_map {ref : MapRef} (bound : Nat) (new : .map ref ∉ trail)
    (path : List Access) :
    (s.unfoldWithin (bound + 1) trail (.map ref)).written path =
      "\x7b" ++ ", ".intercalate ((s.map ref).entries.map fun e =>
        e.1.quoted ++ ": " ++ s.further bound trail (.map ref) (.entry e.1)) ++ "\x7d" := by
  have opened : s.unfoldWithin (bound + 1) trail (.map ref) =
      .map ((s.map ref).entries.map fun e =>
        (e.1, s.unfoldWithin bound (.map ref :: trail) e.2)) := by
    simp [unfoldWithin, List.idxOf?_eq_none_iff.mpr new]
  rw [opened, Unfolding.written_eq_nested (by simp), Datum.nested, Datum.nestedEntries_eq,
    List.map_map]
  congr 3
  apply List.map_congr_left
  intro e member
  have there : (s.map ref).find? e.1 = some e.2 := Entries.find?_of_mem (s.map ref).ascending member
  simp [further, Container.value, child?, there]

theorem prints_again (again : s.Ancestor root path k.value) (levels : Nat) :
    s.Prints root path k.value (Unfolding.written (.back ⟨levels, k⟩) path) := by
  rw [Unfolding.written_eq_nested (by simp)]
  cases k with
  | list ref => exact .listAgain again
  | map ref => exact .mapAgain again

theorem prints_new (new : ¬ s.Ancestor root path k.value) (fresh : k ∉ trail)
    (inner : ∀ a v, s.child? k.value a = some v →
      s.Prints root (path ++ [a]) v (s.further bound trail k a)) :
    s.Prints root path k.value ((s.unfoldWithin (bound + 1) trail k.value).written path) := by
  cases k with
  | list ref =>
    rw [Container.value, unfoldWithin_list bound fresh]
    exact .list new inner
  | map ref =>
    rw [Container.value, unfoldWithin_map bound fresh]
    exact .map new inner

theorem value_cases (s : Store) (v : Value) :
    v = .undefined ∨ (∃ value, s.scalar? v = some value) ∨ ∃ k : Container, v = k.value := by
  cases v with
  | undefined => exact .inl rfl
  | list ref => exact .inr (.inr ⟨.list ref, rfl⟩)
  | map ref => exact .inr (.inr ⟨.map ref, rfl⟩)
  | _ => exact .inr (.inl ⟨_, rfl⟩)

/-- The bound is never used up, so what the unfolding writes is what stands for the value. -/
theorem Descent.prints (descent : s.Descent root path v trail bound) :
    s.Prints root path v ((s.unfoldWithin bound trail v).written path) := by
  induction bound generalizing path v trail with
  | zero => exact descent.bound_ne_zero.elim
  | succ bound ih =>
    rcases s.value_cases v with rfl | ⟨value, read⟩ | ⟨k, rfl⟩
    · rw [Unfolding.written_eq_nested (by simp [unfoldWithin])]
      exact .undefined
    · rw [unfoldWithin_scalar read]
      exact .scalar read
    · by_cases known : k ∈ trail
      · obtain ⟨depth, mark⟩ := s.unfoldWithin_again bound known
        rw [mark]
        exact prints_again ((descent.ancestors k).mp known) _
      · refine prints_new (mt (descent.ancestors k).mpr known) known fun a v step => ?_
        rw [further_eq step, ← Unfolding.written_concat _ path a]
        exact ih (descent.step known step)

end Totality

theorem Prints.unique {one other : String} (first : s.Prints root path v one)
    (second : s.Prints root path v other) : one = other := by
  induction first generalizing other with
  | undefined =>
    cases second with
    | undefined => rfl
    | scalar read => contradiction
  | scalar read =>
    cases second with
    | scalar read' => rw [Option.some.inj (read.symm.trans read')]
    | _ => contradiction
  | listAgain again =>
    cases second with
    | listAgain => rfl
    | list new => exact absurd again new
    | scalar read => contradiction
  | mapAgain again =>
    cases second with
    | mapAgain => rfl
    | map new => exact absurd again new
    | scalar read => contradiction
  | @list path ref text new _ ih =>
    cases second with
    | @list _ _ text' _ inner =>
      have same : ∀ i ∈ List.range (s.list ref).size, text (.item i) = text' (.item i) := by
        intro i member
        have there : i < (s.list ref).size := List.mem_range.mp member
        have step : s.child? (.list ref) (.item i) = some (s.list ref)[i] :=
          Array.getElem?_eq_getElem there
        exact ih _ _ step (inner _ _ step)
      rw [List.map_congr_left same]
    | listAgain again => exact absurd again new
    | scalar read => contradiction
  | @map path ref text new _ ih =>
    cases second with
    | @map _ _ text' _ inner =>
      have same : ∀ e ∈ (s.map ref).entries,
          e.1.quoted ++ ": " ++ text (.entry e.1) = e.1.quoted ++ ": " ++ text' (.entry e.1) := by
        intro e member
        have step : s.child? (.map ref) (.entry e.1) = some e.2 :=
          Entries.find?_of_mem (s.map ref).ascending member
        rw [ih _ _ step (inner _ _ step)]
      rw [List.map_congr_left same]
    | mapAgain again => exact absurd again new
    | scalar read => contradiction

theorem prints_iff_display (s : Store) (v : Value) (text : String) :
    s.Prints v [] v text ↔ text = s.display v := by
  have prints : s.Prints v [] v (s.display v) := (s.descent_start v).prints
  exact ⟨fun other => other.unique prints, fun same => same ▸ prints⟩

theorem add_eq_newText (joins : v.tag = .text ∨ w.tag = .text) (s : Store) :
    Op.add v w s = Op.newText (s.display v ++ s.display w) s := by
  rcases joins with left | right
  · cases v with
    | text ref => rfl
    | _ => contradiction
  · cases w with
    | text ref => cases v <;> rfl
    | _ => contradiction

/-- Displays in arbitrary stores, with whatever cycles. Every value can be written out along its
paths, in one way, and that is its display. So a sum with a text on either side never fails: it is a
new text, the one display followed by the other, and nothing that was there is changed. -/
theorem display_exact (s : Store) :
    (∀ v text, s.Prints v [] v text ↔ text = s.display v) ∧
    ∀ v w, v.tag = .text ∨ w.tag = .text → ∃ ref t, Op.add v w s = .ok (.text ref) t ∧
      t.text ref = s.display v ++ s.display w ∧ ¬ s.Has (.text ref) ∧ s.Extends t := by
  refine ⟨s.prints_iff_display, fun v w joins => ?_⟩
  refine ⟨⟨s.texts.size⟩, (s.addText (s.display v ++ s.display w)).2, add_eq_newText joins s, ?_,
    s.not_has_pushText, s.addText_extends _⟩
  simp [addText, pushText, text]

def entwined : Store where
  texts := #["a\"b"]
  lists := #[#[.text ⟨0⟩, .map ⟨0⟩, .list ⟨1⟩, .list ⟨1⟩], #[.int 7]]
  maps := #[.ofList [(.text "me", .map ⟨0⟩), (.int 1, .list ⟨0⟩)]]

theorem display_exact_entwined :
    entwined.Prints (.list ⟨0⟩) [] (.list ⟨0⟩)
      "[\"a\\\"b\", \x7b1: [...], \"me\": \x7b...\x7d\x7d, [7], [7]]" ∧
      (Value.text ⟨0⟩).tag = .text ∧
      ∃ ref t, Op.add (.list ⟨1⟩) (.text ⟨0⟩) entwined = .ok (.text ref) t ∧
        t.text ref = "[7]a\"b" ∧ ¬ entwined.Has (.text ref) ∧ entwined.Extends t := by
  obtain ⟨displays, joins⟩ := display_exact entwined
  obtain ⟨ref, t, done, joined, new, kept⟩ := joins (.list ⟨1⟩) (.text ⟨0⟩) (.inr rfl)
  have shown : entwined.display (.list ⟨1⟩) ++ entwined.display (.text ⟨0⟩) = "[7]a\"b" := by
    decide +kernel
  refine ⟨(displays _ _).mpr ?_, rfl, ref, t, done, joined.trans shown, new, kept⟩
  decide +kernel

end Store

end StackMachine
