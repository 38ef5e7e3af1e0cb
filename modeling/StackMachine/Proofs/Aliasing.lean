import StackMachine.Proofs.Replication

/-! What two paths share after a deep copy. Paths to lists and maps lead to one container in the
copy exactly if they do in the original. A text is copied anew at each place that holds it, so two
paths lead to one text in the copy only if they come to the same place of the same list or map. -/

namespace StackMachine.Store

variable {s : Store} {v w : Value} {c : Copying} {p q : List Access}

/-- Both paths end at one place: with the same step, taken from the same list or map. -/
def SamePlace (s : Store) (v : Value) (p q : List Access) : Prop :=
  s.follow v p.dropLast = s.follow v q.dropLast ∧ p.getLast? = q.getLast?

theorem SamePlace.follow_eq (same : s.SamePlace v p q) : s.follow v p = s.follow v q := by
  obtain ⟨before, last⟩ := same
  rcases p.eq_nil_or_concat with rfl | ⟨p, a, rfl⟩ <;>
    rcases q.eq_nil_or_concat with rfl | ⟨q, b, rfl⟩
  · rfl
  · simp at last
  · simp at last
  · simp only [List.concat_eq_append, List.dropLast_concat, List.getLast?_concat,
      Option.some.injEq] at before last ⊢
    rw [follow_concat, follow_concat, before, last]

namespace Copies

theorem leads (copies : s.Copies v w c) {x : Value} (path : s.follow v p = some x) :
    ∃ y, c.store.follow w p = some y ∧ c.Copied s x y := by
  have ends := follow_related (fun x y copied => copies.matched copied) copies.copied p
  rw [path] at ends
  generalize c.store.follow w p = other at ends ⊢
  cases ends with
  | some copied => exact ⟨_, rfl, copied⟩

theorem leads_back (copies : s.Copies v w c) {y : Value} (path : c.store.follow w p = some y) :
    ∃ x, s.follow v p = some x ∧ c.Copied s x y := by
  have ends := follow_related (fun x y copied => copies.matched copied) copies.copied p
  rw [path] at ends
  generalize s.follow v p = other at ends ⊢
  cases ends with
  | some copied => exact ⟨_, rfl, copied⟩

theorem node_iff (copies : s.Copies v w c) {k l : Container} {x y : Value}
    (one : c.Copied s k.value x) (other : c.Copied s l.value y) : x = y ↔ k = l := by
  refine ⟨?_, ?_⟩
  · rintro rfl
    exact Container.value_injective (copies.valid.single other.known_of_value one.known_of_value)
  · rintro rfl
    exact Option.some.inj (one.known_of_value.symm.trans other.known_of_value)

theorem holder (copies : s.Copies v w c) {h x : Value} {a : Access}
    (path : c.store.follow w p = some h) (step : c.store.child? h a = some x) :
    ¬ s.Has h ∧ ∃ k : Container, s.follow v p = some k.value ∧ c.Copied s k.value h := by
  obtain ⟨g, back, copied⟩ := copies.leads_back path
  have container := (inside_of_child? step).isContainer
  refine ⟨(copied.isNew copies.valid).2 container, ?_⟩
  cases copied with
  | immediate plain => simp [container] at plain
  | text => contradiction
  | known known =>
    obtain ⟨k, rfl⟩ := Copying.eq_value_of_copy? known
    exact ⟨k, back, .known known⟩

theorem text_occurs (copies : s.Copies v w c) {b : TextRef}
    (path : c.store.follow w p = some (.text b)) :
    (p = [] ∧ Copying.Occurs { store := s } c [w] (.result 0) b) ∨
      ∃ (a : Access) (h : Value) (k : Container), p.getLast? = some a ∧
        c.store.follow w p.dropLast = some h ∧
        Copying.Occurs { store := s } c [w] (.inside h a) b ∧ s.follow v p.dropLast = some k.value ∧
        c.Copied s k.value h := by
  rcases follow_last path with ⟨rfl, rfl⟩ | ⟨a, h, last, before, step⟩
  · exact .inl ⟨rfl, .result rfl⟩
  · obtain ⟨new, k, back, copied⟩ := copies.holder before step
    exact .inr ⟨a, h, k, last, before, .inside new step, back, copied⟩

/-- Two paths lead to one text of the copy just if they come to the same place. -/
theorem text_iff (copies : s.Copies v w c) {a b : TextRef}
    (one : c.store.follow w p = some (.text a)) (other : c.store.follow w q = some (.text b)) :
    a = b ↔ s.SamePlace v p q := by
  refine ⟨?_, fun ⟨before, last⟩ => ?_⟩
  · rintro rfl
    rcases copies.text_occurs one with ⟨rfl, here⟩ | ⟨x, h, k, last, _, here, back, copied⟩ <;>
      rcases copies.text_occurs other with
        ⟨rfl, there⟩ | ⟨y, h', l, last', _, there, back', copied'⟩ <;>
      cases copies.traced.spread.single here there
    · exact ⟨rfl, rfl⟩
    · obtain rfl := (copies.node_iff copied copied').mp rfl
      exact ⟨back.trans back'.symm, last.trans last'.symm⟩
  · suffices same : c.store.follow w p = c.store.follow w q by
      rw [one, other] at same
      exact Value.text.inj (Option.some.inj same)
    rcases follow_last one with ⟨rfl, _⟩ | ⟨x, h, ends, path, step⟩
    · rw [List.getLast?_eq_none_iff.mp last.symm]
    · rcases follow_last other with ⟨rfl, _⟩ | ⟨y, h', ends', path', step'⟩
      · simp [ends] at last
      · obtain ⟨_, k, back, copied⟩ := copies.holder path step
        obtain ⟨_, l, back', copied'⟩ := copies.holder path' step'
        obtain rfl : k = l :=
          Container.value_injective (Option.some.inj (back.symm.trans (before.trans back')))
        obtain rfl : h = h' := (copies.node_iff copied copied').mpr rfl
        obtain rfl : x = y := Option.some.inj (ends.symm.trans (last.trans ends'))
        rw [one, other, ← step, ← step']

theorem container_iff (copies : s.Copies v w c) {x y x' y' : Value} (one : s.follow v p = some x)
    (other : s.follow v q = some y) (one' : c.store.follow w p = some x')
    (other' : c.store.follow w q = some y') (copied : c.Copied s x x') (copied' : c.Copied s y y')
    (container : x.tag.isContainer = true) (container' : y.tag.isContainer = true) :
    x' = y' ↔ x = y ∧ ∀ ref, x = .text ref → s.SamePlace v p q := by
  have node {x y : Value} (known : c.copy? x = some y) (ref : TextRef) : x ≠ .text ref ∧
      y ≠ .text ref := by
    cases x <;> simp_all [Copying.copy?] <;> grind
  cases copied with
  | immediate plain => simp [container] at plain
  | known known =>
    cases copied' with
    | immediate plain => simp [container'] at plain
    | text => simp [node known]
    | known known' =>
      obtain ⟨k, rfl⟩ := Copying.eq_value_of_copy? known
      obtain ⟨l, rfl⟩ := Copying.eq_value_of_copy? known'
      rw [copies.node_iff (.known known) (.known known')]
      refine ⟨?_, fun same => Container.value_injective same.1⟩
      rintro rfl
      exact ⟨rfl, fun ref same => absurd same (node known ref).1⟩
  | text =>
    cases copied' with
    | immediate plain => simp [container'] at plain
    | known known' => simp [Ne.symm (node known' _).1, Ne.symm (node known' _).2]
    | text =>
      rw [Value.text.injEq, copies.text_iff one' other']
      refine ⟨fun same => ⟨Option.some.inj ?_, fun _ _ => same⟩, fun both => both.2 _ rfl⟩
      rw [← one, ← other, same.follow_eq]

end Copies

theorem Touches.shows_iff {t : Store} {x y : Value} (touches : s.Touches x t)
    (changed : ¬ s.Same t x) : ¬ s.Same t y ↔ x = y := by
  refine ⟨fun shows => ?_, fun same => same ▸ changed⟩
  exact Classical.byContradiction fun apart => shows (touches.same y (Ne.symm apart))

/-- What two paths share after a deep copy. Let two paths lead from a value to containers. In the
copy they lead to the same container exactly if they do so in the original and, where that is a
text, come to it at the same place of the same list or map. So a change made at the end of one path
of the copy shows at the end of the other one exactly if it does so in the original, and, where it
is a text that is changed, both paths come to the same place. -/
theorem deepCopy_sharing (s : Store) (v : Value) (stored : s.Stored v) (p q : List Access)
    (x y : Value) (one : s.follow v p = some x) (other : s.follow v q = some y)
    (container : x.tag.isContainer = true) (container' : y.tag.isContainer = true) :
    let w := (s.deepCopy v).1
    let t := (s.deepCopy v).2
    ∃ x' y', t.follow w p = some x' ∧ t.follow w q = some y' ∧
      (x' = y' ↔ x = y ∧ ∀ ref, x = .text ref → s.SamePlace v p q) ∧
      ∀ t' s', t.Touches x' t' → ¬ t.Same t' x' → s.Touches x s' → ¬ s.Same s' x →
        (¬ t.Same t' y' ↔ ¬ s.Same s' y ∧ ∀ ref, x = .text ref → s.SamePlace v p q) := by
  obtain ⟨c, same, copies⟩ := deepCopy_copies stored
  obtain ⟨x', one', copied⟩ := copies.leads one
  obtain ⟨y', other', copied'⟩ := copies.leads other
  have shared := copies.container_iff one other one' other' copied copied' container container'
  rw [same] at one' other'
  refine ⟨x', y', one', other', shared, fun t' s' touches changed touches' changed' => ?_⟩
  rw [touches.shows_iff changed, touches'.shows_iff changed']
  exact shared

section Twins

def twins : Store where
  texts := #["a"]
  lists := #[#[.text ⟨0⟩, .text ⟨0⟩]]

theorem twins_stored : twins.Stored (.list ⟨0⟩) := by
  have closed {x y : Value} (inside : twins.Inside x y) : y = .text ⟨0⟩ := by
    cases inside with
    | @item ref _ member =>
      obtain ⟨index⟩ := ref
      cases index with
      | zero => simpa [twins, list] using member
      | succ index => simp [twins, list] at member
    | @entry ref _ member => simp [twins, map, Dict.empty] at member
  intro x reach
  cases reach with
  | here => exact Nat.zero_lt_one
  | inside _ inside =>
    rw [closed inside]
    exact Nat.zero_lt_one

theorem twins_deepCopy : twins.deepCopy (.list ⟨0⟩) =
    (.list ⟨1⟩,
      { texts := #["a", "a", "a"]
        lists := #[#[.text ⟨0⟩, .text ⟨0⟩], #[.text ⟨1⟩, .text ⟨2⟩]] }) := by
  have first : ({ store := twins } : Copying).lists[(⟨0⟩ : ListRef)]? = none :=
    Std.HashMap.getElem?_empty
  have opened : deepCopy twins (.list ⟨0⟩) =
      ((Copying.copyWithin (twins.containers + 1) (.list ⟨0⟩) { store := twins }).1,
        (Copying.copyWithin (twins.containers + 1) (.list ⟨0⟩) { store := twins }).2.store) := rfl
  rw [opened, Copying.copyWithin_list first]
  rfl

/-- Two paths that lead to one text lead to two texts in the copy, and what is added to one of them
does not show in the other. -/
theorem deepCopy_parts_texts :
    let t := (twins.deepCopy (.list ⟨0⟩)).2
    let w := (twins.deepCopy (.list ⟨0⟩)).1
    twins.follow (.list ⟨0⟩) [.item 0] = some (.text ⟨0⟩) ∧
      twins.follow (.list ⟨0⟩) [.item 1] = some (.text ⟨0⟩) ∧
    t.follow w [.item 0] = some (.text ⟨1⟩) ∧ t.follow w [.item 1] = some (.text ⟨2⟩) ∧
    (t.modifyText ⟨1⟩ (· ++ "x")).text ⟨1⟩ = "ax" ∧
      (t.modifyText ⟨1⟩ (· ++ "x")).text ⟨2⟩ = "a" := by
  rw [twins_deepCopy]
  decide

theorem deepCopy_sharing_twins :
    let w := (twins.deepCopy (.list ⟨0⟩)).1
    let t := (twins.deepCopy (.list ⟨0⟩)).2
    twins.Stored (.list ⟨0⟩) ∧ twins.follow (.list ⟨0⟩) [.item 0] = some (.text ⟨0⟩) ∧
    twins.follow (.list ⟨0⟩) [.item 1] = some (.text ⟨0⟩) ∧
    ∃ x' y', t.follow w [.item 0] = some x' ∧ t.follow w [.item 1] = some y' ∧
      (x' = y' ↔ Value.text ⟨0⟩ = .text ⟨0⟩ ∧
        ∀ ref, Value.text ⟨0⟩ = .text ref → twins.SamePlace (.list ⟨0⟩) [.item 0] [.item 1]) ∧
      ∀ t' s', t.Touches x' t' → ¬ t.Same t' x' → twins.Touches (.text ⟨0⟩) s' →
        ¬ twins.Same s' (.text ⟨0⟩) → (¬ t.Same t' y' ↔ ¬ twins.Same s' (.text ⟨0⟩) ∧
          ∀ ref, Value.text ⟨0⟩ = .text ref → twins.SamePlace (.list ⟨0⟩) [.item 0] [.item 1]) :=
  ⟨twins_stored, rfl, rfl,
    deepCopy_sharing twins (.list ⟨0⟩) twins_stored [.item 0] [.item 1] (.text ⟨0⟩) (.text ⟨0⟩)
      rfl rfl rfl rfl⟩

end Twins

end StackMachine.Store
