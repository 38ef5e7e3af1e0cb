import Mathlib.Data.List.Forall2
import Mathlib.Data.List.Perm.Subperm
import StackMachine.Proofs.Copying
import StackMachine.Proofs.Dictionary

/-! A deep copy is faithful. It has the contents of the original, however deep one looks, and it is
made of new containers alone. That the copying is bounded never shows: every level opens a container
that had no copy yet, and there are not more of them than the bound allows. -/

namespace StackMachine

section Rows

variable {α β : Type} {R : α → β → Prop} {l : List α} {m : List β}

theorem forall₂_mem (related : List.Forall₂ R l m) :
    List.Forall₂ (fun a b => a ∈ l ∧ b ∈ m ∧ R a b) l m := by
  induction related with
  | nil => exact .nil
  | cons first _ ih =>
    refine .cons ⟨List.mem_cons_self, List.mem_cons_self, first⟩ (ih.imp fun a b later => ?_)
    exact ⟨List.mem_cons_of_mem _ later.1, List.mem_cons_of_mem _ later.2.1, later.2.2⟩

theorem exists_of_mem_right (related : List.Forall₂ R l m) {b : β} (member : b ∈ m) :
    ∃ a ∈ l, R a b := by
  induction related with
  | nil => contradiction
  | cons first _ ih =>
    rcases List.mem_cons.mp member with rfl | later
    · exact ⟨_, List.mem_cons_self, first⟩
    · obtain ⟨a, there, holds⟩ := ih later
      exact ⟨a, List.mem_cons_of_mem _ there, holds⟩

end Rows

namespace Store

variable {s s' t t' : Store} {v w : Value} {R R' : Value → Value → Prop}

/-- The values agree as far as one can see without opening what is inside; that is related by `R`,
place by place. -/
inductive Matches (s t : Store) (R : Value → Value → Prop) : Value → Value → Prop
  | immediate {v : Value} (plain : v.tag.isContainer = false) : Matches s t R v v
  | text {a b : TextRef} (same : t.text b = s.text a) : Matches s t R (.text a) (.text b)
  | list {a b : ListRef} (items : List.Forall₂ R (s.list a).toList (t.list b).toList) :
    Matches s t R (.list a) (.list b)
  | map {a b : MapRef}
    (entries : List.Forall₂ (fun e f => f.1 = e.1 ∧ R e.2 f.2) (s.map a).entries
      (t.map b).entries) : Matches s t R (.map a) (.map b)

/-- `w` has in `t` the contents that `v` has in `s`, however deep one looks. Cycles are no
obstacle. -/
def Alike (s : Store) (v : Value) (t : Store) (w : Value) : Prop :=
  ∃ R : Value → Value → Prop, (∀ v w, R v w → s.Matches t R v w) ∧ R v w

theorem Matches.imp (matched : s.Matches t R v w) (imp : ∀ x y, R x y → R' x y) :
    s.Matches t R' v w := by
  cases matched with
  | immediate plain => exact .immediate plain
  | text same => exact .text same
  | list items => exact .list (items.imp imp)
  | map entries => exact .map (entries.imp fun e f both => ⟨both.1, imp _ _ both.2⟩)

theorem Matches.inside (matched : s.Matches t R v w) :
    s.Matches t (fun x y => s.Inside v x ∧ t.Inside w y ∧ R x y) v w := by
  cases matched with
  | immediate plain => exact .immediate plain
  | text same => exact .text same
  | list items =>
    refine .list ((forall₂_mem items).imp fun x y both => ?_)
    exact ⟨.item (Array.mem_toList_iff.mp both.1), .item (Array.mem_toList_iff.mp both.2.1),
      both.2.2⟩
  | map entries =>
    refine .map ((forall₂_mem entries).imp fun e f both => ?_)
    exact ⟨both.2.2.1, .entry both.1, .entry both.2.1, both.2.2.2⟩

theorem Matches.congr (matched : s.Matches t R v w) (left : s.Same s' v) (right : t.Same t' w) :
    s'.Matches t' R v w := by
  cases matched with
  | immediate plain => exact .immediate plain
  | text same => exact .text (Eq.trans right (Eq.trans same (Eq.symm left)))
  | list items =>
    refine .list ?_
    rwa [show s'.list _ = _ from left, show t'.list _ = _ from right]
  | map entries =>
    refine .map ?_
    rwa [show s'.map _ = _ from left, show t'.map _ = _ from right]

theorem Matches.partner (matched : s.Matches t R v w) {y : Value} (inside : t.Inside w y) :
    ∃ x, s.Inside v x ∧ R x y := by
  cases matched with
  | immediate plain => simp [inside.isContainer] at plain
  | text same => cases inside
  | list items =>
    cases inside with
    | item member =>
      obtain ⟨x, there, related⟩ := exists_of_mem_right items (Array.mem_toList_iff.mpr member)
      exact ⟨x, .item (Array.mem_toList_iff.mp there), related⟩
  | map entries =>
    cases inside with
    | entry member =>
      obtain ⟨e, there, _, related⟩ := exists_of_mem_right entries member
      exact ⟨e.2, .entry there, related⟩

theorem Matches.counterpart (matched : s.Matches t R v w) {x : Value} (inside : s.Inside v x) :
    ∃ y, t.Inside w y ∧ R x y := by
  cases matched with
  | immediate plain => simp [inside.isContainer] at plain
  | text same => cases inside
  | list items =>
    cases inside with
    | item member =>
      obtain ⟨y, there, related⟩ := exists_of_mem_right items.flip (Array.mem_toList_iff.mpr member)
      exact ⟨y, .item (Array.mem_toList_iff.mp there), related⟩
  | map entries =>
    cases inside with
    | entry member =>
      obtain ⟨f, there, _, related⟩ := exists_of_mem_right entries.flip member
      exact ⟨f.2, .entry there, related⟩

theorem Alike.congr (alike : s.Alike v t w) (left : ∀ x, s.Reach v x → s.Same s' x)
    (right : ∀ y, t.Reach w y → t.Same t' y) : s'.Alike v t' w := by
  obtain ⟨R, matched, related⟩ := alike
  refine ⟨fun x y => s.Reach v x ∧ t.Reach w y ∧ R x y, ?_, .here, .here, related⟩
  rintro x y ⟨path, path', related⟩
  refine ((matched x y related).inside.imp fun a b both => ?_).congr (left x path) (right y path')
  exact ⟨.inside path both.1, .inside path' both.2.1, both.2.2⟩

theorem length_le_containers {path : List Value} (nodup : path.Nodup) (covered : path ⊆ s.nodes) :
    path.length ≤ s.containers := by
  rw [← s.length_nodes]
  exact (List.subperm_of_subset nodup covered).length_le

end Store

namespace Copying

variable {s : Store} {c d e : Copying} {v w x : Value} {bound : Nat} {path : List Value}

def copy? (c : Copying) : Value → Option Value
  | .list ref => (c.lists[ref]?).map .list
  | .map ref => (c.maps[ref]?).map .map
  | _ => none

/-- `w` has been made to take the place of the value `v` of `s`. A list or map may still be
incomplete. -/
inductive Copied (s : Store) (c : Copying) : Value → Value → Prop
  | immediate {v : Value} (plain : v.tag.isContainer = false) : Copied s c v v
  | text {a b : TextRef} (new : ¬ s.Has (.text b)) (there : c.store.Has (.text b))
    (same : c.store.text b = s.text a) : Copied s c (.text a) (.text b)
  | known {v w : Value} (known : c.copy? v = some w) : Copied s c v w

/-- Copies are new containers, different ones for different originals, and the only new lists and
maps. -/
structure Valid (s : Store) (c : Copying) : Prop where
  grows : s.Extends c.store
  fresh : ∀ {v w}, c.copy? v = some w → ¬ s.Has w ∧ c.store.Has w
  single : ∀ {v v' w}, c.copy? v = some w → c.copy? v' = some w → v' = v
  owned : ∀ w, (∀ ref, w ≠ .text ref) → ¬ s.Has w → c.store.Has w → ∃ v, c.copy? v = some w

/-- What copying values of `s` comes to: there are more copies, and the ones that were begun are
complete. -/
structure Onto (s : Store) (c d : Copying) : Prop where
  valid : d.Valid s
  grows : c.store.Extends d.store
  keeps : ∀ {v w}, c.copy? v = some w → d.copy? v = some w
  settled : ∀ {v w}, d.copy? v = some w → c.copy? v = some w ∨ s.Matches d.store (d.Copied s) v w

theorem Copied.onto (copied : c.Copied s v w) (grows : c.store.Extends d.store)
    (keeps : ∀ {v w}, c.copy? v = some w → d.copy? v = some w) : d.Copied s v w := by
  cases copied with
  | immediate plain => exact .immediate plain
  | text new there same => exact .text new (grows.has _ there) (Eq.trans (grows.same _ there) same)
  | known known => exact .known (keeps known)

theorem Onto.refl (valid : c.Valid s) : Onto s c c :=
  ⟨valid, .refl _, fun known => known, fun known => .inl known⟩

theorem Onto.trans (first : Onto s c d) (second : Onto s d e) : Onto s c e := by
  refine ⟨second.valid, first.grows.trans second.grows,
    fun known => second.keeps (first.keeps known), fun known => ?_⟩
  rcases second.settled known with old | settled
  · refine (first.settled old).imp_right fun settled => ?_
    have there := (first.valid.fresh old).2
    exact (settled.imp fun x y copied => copied.onto second.grows second.keeps).congr (.refl s _)
      (second.grows.same _ there)
  · exact .inr settled

structure Opens (c : Copying) (v w : Value) (d : Copying) : Prop where
  new : ¬ c.store.Has w
  touches : c.store.Touches w d.store
  there : ∀ x, d.store.Has x ↔ x = w ∨ c.store.Has x
  copy : ∀ x, d.copy? x = if x = v then some w else c.copy? x

structure Closes (c : Copying) (w : Value) (d : Copying) : Prop where
  node : ∀ ref, w ≠ .text ref
  touches : c.store.Touches w d.store
  there : ∀ x, d.store.Has x → c.store.Has x
  copy : ∀ x, d.copy? x = c.copy? x

theorem openList_opens (c : Copying) (ref : ListRef) :
    c.Opens (.list ref) (.list (c.openList ref).1) (c.openList ref).2 where
  new := c.store.not_has_pushList
  touches := c.store.pushList_touches #[]
  there x := by
    cases x with
    | list other =>
      obtain ⟨i⟩ := other
      simp only [openList, Store.pushList, Store.Has, Array.size_push, Value.list.injEq,
        ListRef.mk.injEq]
      omega
    | _ => simp [openList, Store.pushList, Store.Has]
  copy x := by
    cases x with
    | list other =>
      by_cases same : other = ref
      · simp [openList, copy?, same]
      · simp [openList, copy?, same, Std.HashMap.getElem?_insert, Ne.symm same]
    | _ => simp [openList, copy?]

theorem openMap_opens (c : Copying) (ref : MapRef) :
    c.Opens (.map ref) (.map (c.openMap ref).1) (c.openMap ref).2 where
  new := c.store.not_has_pushMap
  touches := c.store.pushMap_touches .empty
  there x := by
    cases x with
    | map other =>
      obtain ⟨i⟩ := other
      simp only [openMap, Store.pushMap, Store.Has, Array.size_push, Value.map.injEq,
        MapRef.mk.injEq]
      omega
    | _ => simp [openMap, Store.pushMap, Store.Has]
  copy x := by
    cases x with
    | map other =>
      by_cases same : other = ref
      · simp [openMap, copy?, same]
      · simp [openMap, copy?, same, Std.HashMap.getElem?_insert, Ne.symm same]
    | _ => simp [openMap, copy?]

theorem closeList_closes (c : Copying) (copy : ListRef) (items : List Value) :
    c.Closes (.list copy) (c.closeList copy items) where
  node := nofun
  touches := c.store.modifyList_touches copy _
  there x := by cases x <;> simp [closeList, Store.modifyList, Store.Has]
  copy x := by cases x <;> rfl

theorem closeMap_closes (c : Copying) (copy : MapRef) (entries : List (Scalar × Value)) :
    c.Closes (.map copy) (c.closeMap copy entries) where
  node := nofun
  touches := c.store.modifyMap_touches copy _
  there x := by cases x <;> simp [closeMap, Store.modifyMap, Store.Has]
  copy x := by cases x <;> rfl

theorem Opens.grows (opens : c.Opens v w d) : c.store.Extends d.store :=
  (Store.Extends.refl _).touch opens.touches opens.new

theorem Opens.valid (opens : c.Opens v w d) (first : c.copy? v = none) (valid : c.Valid s) :
    d.Valid s := by
  have new : ¬ s.Has w := fun old => opens.new (valid.grows.has w old)
  -- A copy in `d` is the new one, or one of `c`.
  have origin {x y : Value} (known : d.copy? x = some y) : (x = v ∧ y = w) ∨ c.copy? x = some y :=
    by
    rw [opens.copy] at known
    split at known
    next same => exact .inl ⟨same, (Option.some.inj known).symm⟩
    next => exact .inr known
  have old {x : Value} (known : c.copy? x = some w) : False := opens.new (valid.fresh known).2
  refine ⟨valid.grows.trans opens.grows, fun known => ?_, fun one two => ?_,
    fun y node isNew there => ?_⟩
  · rcases origin known with ⟨_, rfl⟩ | known
    · exact ⟨new, (opens.there _).mpr (.inl rfl)⟩
    · exact ⟨(valid.fresh known).1, opens.grows.has _ (valid.fresh known).2⟩
  · rcases origin one with ⟨rfl, rfl⟩ | one <;> rcases origin two with ⟨rfl, same⟩ | two
    · rfl
    · exact (old two).elim
    · exact (old (same ▸ one)).elim
    · exact valid.single one two
  · rcases (opens.there y).mp there with rfl | there
    · exact ⟨v, by simp [opens.copy]⟩
    · obtain ⟨x, known⟩ := valid.owned y node isNew there
      have other : x ≠ v := fun same => by simp [same ▸ known] at first
      exact ⟨x, by simp [opens.copy, other, known]⟩

theorem Closes.copied (closes : c.Closes w d) {x y : Value} (copied : c.Copied s x y) :
    d.Copied s x y := by
  cases copied with
  | immediate plain => exact .immediate plain
  | @text a b new there same =>
    have kept : c.store.Same d.store (.text b) := closes.touches.same _ (closes.node b).symm
    exact .text new (closes.touches.has _ there) (Eq.trans kept same)
  | known known => exact .known ((closes.copy _).trans known)

theorem Closes.valid (closes : c.Closes w d) (grows : s.Extends d.store) (valid : c.Valid s) :
    d.Valid s := by
  refine ⟨grows, fun known => ?_, fun one two => ?_, fun y node new there => ?_⟩
  · rw [closes.copy] at known
    exact ⟨(valid.fresh known).1, closes.touches.has _ (valid.fresh known).2⟩
  · rw [closes.copy] at one two
    exact valid.single one two
  · simpa only [closes.copy] using valid.owned y node new (closes.there y there)

theorem Opens.close {f : Copying} (opens : c.Opens v w d) (first : c.copy? v = none)
    (valid : c.Valid s) (onto : Onto s d e) (closes : e.Closes w f)
    (matched : s.Matches f.store (e.Copied s) v w) : Onto s c f := by
  have grows : c.store.Extends f.store :=
    (opens.grows.trans onto.grows).touch closes.touches opens.new
  have mine : e.copy? v = some w := onto.keeps (by simp [opens.copy])
  refine ⟨closes.valid (valid.grows.trans grows) onto.valid, grows, fun {x y} known => ?_,
    fun {x y} known => ?_⟩
  · have other : x ≠ v := fun same => by simp [same ▸ known] at first
    rw [closes.copy]
    exact onto.keeps (by simp [opens.copy, other, known])
  · rw [closes.copy] at known
    by_cases same : x = v
    · subst same
      obtain rfl : w = y := Option.some.inj (mine.symm.trans known)
      exact .inr (matched.imp fun _ _ => closes.copied)
    · rcases onto.settled known with old | settled
      · exact .inl (by simpa [opens.copy, same] using old)
      · -- The copy of another container is not the one that is closed.
        have other : y ≠ w := fun shared => same (onto.valid.single mine (shared ▸ known))
        exact .inr ((settled.imp fun _ _ => closes.copied).congr (.refl s _)
          (closes.touches.same y other))

/-- The containers on the way down are different ones that have their copies, and the bound makes up
for them. -/
structure Ready (s : Store) (path : List Value) (bound : Nat) (c : Copying) : Prop where
  valid : c.Valid s
  nodup : path.Nodup
  opened : ∀ v ∈ path, s.Has v ∧ ∃ w, c.copy? v = some w
  enough : s.containers < bound + path.length

theorem path_length_le (nodup : path.Nodup)
    (opened : ∀ v ∈ path, s.Has v ∧ ∃ w, c.copy? v = some w) : path.length ≤ s.containers := by
  have covered : path ⊆ s.nodes := by
    intro v member
    obtain ⟨has, w, known⟩ := opened v member
    cases v with
    | list ref => exact Store.mem_nodes_list has
    | map ref => exact Store.mem_nodes_map has
    | _ => contradiction
  exact Store.length_le_containers nodup covered

theorem Ready.bound_ne_zero (ready : Ready s path 0 c) : False := by
  have short := path_length_le ready.nodup ready.opened
  have enough := ready.enough
  omega

theorem Ready.onto (ready : Ready s path bound c) (onto : Onto s c d) : Ready s path bound d := by
  refine ⟨onto.valid, ready.nodup, fun v member => ?_, ready.enough⟩
  obtain ⟨has, w, known⟩ := ready.opened v member
  exact ⟨has, w, onto.keeps known⟩

theorem Ready.opens (ready : Ready s path (bound + 1) c) (opens : c.Opens v w d)
    (first : c.copy? v = none) (has : s.Has v) : Ready s (v :: path) bound d := by
  have apart : v ∉ path := by
    intro member
    obtain ⟨_, _, known⟩ := ready.opened v member
    simp [first] at known
  refine ⟨opens.valid first ready.valid, List.nodup_cons.mpr ⟨apart, ready.nodup⟩,
    fun x member => ?_, ?_⟩
  · rcases List.mem_cons.mp member with rfl | member
    · exact ⟨has, w, by simp [opens.copy]⟩
    · obtain ⟨there, y, known⟩ := ready.opened x member
      have other : x ≠ v := fun same => by simp [same ▸ known] at first
      exact ⟨there, y, by simp [opens.copy, other, known]⟩
  · have enough := ready.enough
    simp only [List.length_cons]
    omega

theorem mapM_onto {α β : Type} {copy : α → StateM Copying β} (Rel : Copying → α → β → Prop)
    (items : List α) (later : ∀ {c d a b}, Onto s c d → Rel c a b → Rel d a b)
    (each : ∀ a ∈ items, ∀ c, Ready s path bound c → Onto s c (copy a c).2 ∧
      Rel (copy a c).2 a (copy a c).1)
    (c : Copying) (ready : Ready s path bound c) :
    Onto s c (items.mapM copy c).2 ∧
      List.Forall₂ (Rel (items.mapM copy c).2) items (items.mapM copy c).1 := by
  induction items generalizing c with
  | nil => exact ⟨.refl ready.valid, .nil⟩
  | cons item rest ih =>
    obtain ⟨onto, first⟩ := each item List.mem_cons_self c ready
    have others := ih (fun a member => each a (List.mem_cons_of_mem _ member)) (copy item c).2
      (ready.onto onto)
    rw [List.mapM_cons]
    exact ⟨onto.trans others.1, .cons (later others.1 first) others.2⟩

theorem copyText_onto (valid : c.Valid s) (ref : TextRef) (has : s.Has (.text ref)) :
    Onto s c (c.copyText ref).2 ∧ (c.copyText ref).2.Copied s (.text ref) (c.copyText ref).1 := by
  have grows : c.store.Extends (c.copyText ref).2.store := c.store.addText_extends _
  have new : ¬ s.Has (.text ⟨c.store.texts.size⟩) :=
    fun old => c.store.not_has_pushText (valid.grows.has _ old)
  have same (x : Value) : (c.copyText ref).2.copy? x = c.copy? x := by cases x <;> rfl
  refine ⟨⟨⟨valid.grows.trans grows, fun known => ?_, fun one two => ?_,
    fun y node isNew there => ?_⟩, grows, fun known => ?_, fun known => ?_⟩, ?_⟩
  · rw [same] at known
    exact ⟨(valid.fresh known).1, grows.has _ (valid.fresh known).2⟩
  · rw [same] at one two
    exact valid.single one two
  · have before : c.store.Has y := by
      cases y with
      | text ref => exact absurd rfl (node ref)
      | _ => exact there
    simpa only [same] using valid.owned y node isNew before
  · rwa [same]
  · rw [same] at known
    exact .inl known
  · have read : (c.copyText ref).2.store.text ⟨c.store.texts.size⟩ = c.store.text ref := by
      simp [copyText, Store.addText, Store.pushText, Store.text]
    exact .text new (by simp [copyText, Store.addText, Store.pushText, Store.Has])
      (Eq.trans read (valid.grows.same _ has))

theorem ascending_of_keys {R : Value → Value → Prop} {originals entries : List (Scalar × Value)}
    (related : List.Forall₂ (fun e f => f.1 = e.1 ∧ R e.2 f.2) originals entries)
    (ordered : Entries.Ascending originals) : Entries.Ascending entries := by
  induction related with
  | nil => exact .nil
  | @cons e f _ _ first rest ih =>
    obtain ⟨before, later⟩ := List.pairwise_cons.mp ordered
    refine List.pairwise_cons.mpr ⟨fun g member => ?_, ih later⟩
    obtain ⟨original, there, same, _⟩ := exists_of_mem_right rest member
    rw [same, first.1]
    exact before original there

/-- What is inside is related as soon as the levels below are done: a copy that is still open is
known already. -/
theorem copyWithin_onto (ready : Ready s path bound c) (stored : s.Stored v) :
    Onto s c (copyWithin bound v c).2 ∧
      (copyWithin bound v c).2.Copied s v (copyWithin bound v c).1 := by
  induction bound generalizing path c v with
  | zero => exact ready.bound_ne_zero.elim
  | succ bound ih =>
    have has : s.Has v := stored v .here
    have inner {x : Value} (inside : s.Inside v x) : s.Stored x :=
      fun y reach => stored y (Store.Reach.trans (.inside .here inside) reach)
    cases v with
    | text ref => exact copyText_onto ready.valid ref has
    | list ref =>
      cases known : c.lists[ref]? with
      | some copy =>
        have copied : c.copy? (.list ref) = some (.list copy) := by simp [copy?, known]
        rw [copyWithin_list_known known]
        exact ⟨.refl ready.valid, .known copied⟩
      | none =>
        have first : c.copy? (.list ref) = none := by simp [copy?, known]
        have opens := c.openList_opens ref
        have deeper := ready.opens opens first has
        have same : (c.openList ref).2.store.list ref = s.list ref :=
          deeper.valid.grows.same (.list ref) has
        have row : Onto s (c.openList ref).2 (copyItems bound c ref).2 ∧
            List.Forall₂ ((copyItems bound c ref).2.Copied s) (s.list ref).toList
              (copyItems bound c ref).1 := by
          unfold copyItems
          rw [same]
          refine mapM_onto (Copied s) _ (fun onto copied => copied.onto onto.grows onto.keeps)
            (fun x member d ready => ?_) _ deeper
          exact ih ready (inner (.item (Array.mem_toList_iff.mp member)))
        have closes := (copyItems bound c ref).2.closeList_closes (c.openList ref).1
          (copyItems bound c ref).1
        have mine : (copyItems bound c ref).2.copy? (.list ref) = some (.list (c.openList ref).1) :=
          row.1.keeps (by simp [opens.copy])
        rw [copyWithin_list known]
        refine ⟨opens.close first ready.valid row.1 closes (.list ?_),
          .known ((closes.copy _).trans mine)⟩
        simp only [closeList, Store.modifyList_list (row.1.valid.fresh mine).2]
        exact row.2
    | map ref =>
      cases known : c.maps[ref]? with
      | some copy =>
        have copied : c.copy? (.map ref) = some (.map copy) := by simp [copy?, known]
        rw [copyWithin_map_known known]
        exact ⟨.refl ready.valid, .known copied⟩
      | none =>
        have first : c.copy? (.map ref) = none := by simp [copy?, known]
        have opens := c.openMap_opens ref
        have deeper := ready.opens opens first has
        have same : (c.openMap ref).2.store.map ref = s.map ref :=
          deeper.valid.grows.same (.map ref) has
        have row : Onto s (c.openMap ref).2 (copyEntries bound c ref).2 ∧
            List.Forall₂ (fun e f => f.1 = e.1 ∧ (copyEntries bound c ref).2.Copied s e.2 f.2)
              (s.map ref).entries (copyEntries bound c ref).1 := by
          unfold copyEntries
          rw [same]
          refine mapM_onto (fun c (e f : Scalar × Value) => f.1 = e.1 ∧ c.Copied s e.2 f.2) _
            (fun onto both => ⟨both.1, both.2.onto onto.grows onto.keeps⟩)
              (fun e member d ready => ?_) _ deeper
          obtain ⟨onto, copied⟩ := ih ready (inner (.entry member))
          exact ⟨onto, rfl, copied⟩
        have closes := (copyEntries bound c ref).2.closeMap_closes (c.openMap ref).1
          (copyEntries bound c ref).1
        have mine : (copyEntries bound c ref).2.copy? (.map ref) = some (.map (c.openMap ref).1) :=
          row.1.keeps (by simp [opens.copy])
        rw [copyWithin_map known]
        refine ⟨opens.close first ready.valid row.1 closes (.map ?_),
          .known ((closes.copy _).trans mine)⟩
        simp only [closeMap, Store.modifyMap_map (row.1.valid.fresh mine).2,
          Dict.ofList_of_ascending (ascending_of_keys row.2 (s.map ref).ascending)]
        exact row.2
    | _ => exact ⟨.refl ready.valid, .immediate rfl⟩

theorem valid_start (s : Store) : Valid s { store := s } where
  grows := .refl s
  fresh {v _} known := by cases v <;> simp [copy?] at known
  single {v _ _} known := by cases v <;> simp [copy?] at known
  owned _ _ new there := absurd there new

theorem Copied.isNew (copied : c.Copied s v w) (valid : c.Valid s) :
    c.store.Has w ∧ (w.tag.isContainer = true → ¬ s.Has w) := by
  cases copied with
  | immediate plain =>
    exact ⟨Store.has_of_immediate plain _, fun container => by simp [container] at plain⟩
  | text new there same => exact ⟨there, fun _ => new⟩
  | known known => exact ⟨(valid.fresh known).2, fun _ => (valid.fresh known).1⟩

end Copying

namespace Store

variable {s t : Store} {v w : Value}

def Newer (s t : Store) (v : Value) : Prop :=
  t.Has v ∧ (v.tag.isContainer = true → ¬ s.Has v)

theorem deepCopy_copied (stored : s.Stored v) : ∃ c : Copying, c.store = (s.deepCopy v).2 ∧
    Copying.Onto s { store := s } c ∧ c.Copied s v (s.deepCopy v).1 := by
  have ready : Copying.Ready s [] (s.containers + 1) { store := s } :=
    ⟨Copying.valid_start s, .nil, by simp, Nat.lt_succ_self _⟩
  exact ⟨_, rfl, Copying.copyWithin_onto ready stored⟩

theorem onto_matches {c : Copying} (onto : Copying.Onto s { store := s } c)
    (copied : c.Copied s v w) : s.Matches c.store (c.Copied s) v w := by
  cases copied with
  | immediate plain => exact .immediate plain
  | text _ _ same => exact .text same
  | known known =>
    refine (onto.settled known).resolve_left fun before => ?_
    cases v <;> simp [Copying.copy?] at before

theorem deepCopy_alike (stored : s.Stored v) : s.Alike v (s.deepCopy v).2 (s.deepCopy v).1 := by
  obtain ⟨c, same, onto, copied⟩ := deepCopy_copied stored
  rw [← same]
  exact ⟨c.Copied s, fun _ _ copied => onto_matches onto copied, copied⟩

theorem deepCopy_newer (stored : s.Stored v) : s.Newer (s.deepCopy v).2 (s.deepCopy v).1 ∧
    ∀ x y, ¬ s.Has x → (s.deepCopy v).2.Inside x y → s.Newer (s.deepCopy v).2 y := by
  obtain ⟨c, same, onto, copied⟩ := deepCopy_copied stored
  rw [← same]
  refine ⟨copied.isNew onto.valid, fun x y new inside => ?_⟩
  have node (ref : TextRef) : x ≠ .text ref := by
    rintro rfl
    cases inside
  obtain ⟨original, known⟩ := onto.valid.owned x node new inside.has
  obtain ⟨_, _, copied⟩ := (onto_matches onto (.known known)).partner inside
  exact copied.isNew onto.valid

theorem deepCopy_reach (stored : s.Stored v) {x : Value}
    (reach : (s.deepCopy v).2.Reach (s.deepCopy v).1 x) : s.Newer (s.deepCopy v).2 x := by
  obtain ⟨new, inner⟩ := deepCopy_newer stored
  exact reach.closed (fun x y newer inside => inner x y (newer.2 inside.isContainer) inside) new

theorem deepCopy_stored (stored : s.Stored v) : (s.deepCopy v).2.Stored (s.deepCopy v).1 :=
  fun _ reach => (deepCopy_reach stored reach).1

theorem copyEach_alike {values : List Value} (stored : ∀ v ∈ values, s.Stored v) :
    List.Forall₂ (fun v w => s.Alike v (s.copyEach values).2 w) values (s.copyEach values).1 := by
  induction values generalizing s with
  | nil => exact .nil
  | cons v rest ih =>
    have first := stored v List.mem_cons_self
    have grows := s.deepCopy_extends v
    have later := (s.deepCopy v).2.copyEach_extends rest
    have others := ih fun x member => (stored x (List.mem_cons_of_mem _ member)).extends grows
    refine .cons ?_ ((forall₂_mem others).imp fun x y both => ?_)
    · exact (deepCopy_alike first).congr (fun x _ => .refl s x)
        fun y reach => later.same y (deepCopy_stored first y reach)
    · have before := stored x (List.mem_cons_of_mem _ both.1)
      refine both.2.2.congr (fun y reach => ?_) fun y _ => .refl _ y
      have back : s.Reach x y := reach.same fun z reach => grows.same z (before z reach)
      exact (grows.same y (before y back)).symm

theorem copyAll_alike {values : Array Value} (stored : ∀ v ∈ values, s.Stored v) {i : Nat}
    (original : values[i]? = some v) (copy : (s.copyAll values).1[i]? = some w) :
    s.Alike v (s.copyAll values).2 w := by
  have row :=
    copyEach_alike (fun v (member : v ∈ values.toList) => stored v (Array.mem_toList_iff.mp member))
  rw [copyAll_eq] at copy ⊢
  have left : values.toList[i]? = some v := by simpa using original
  have right : (s.copyEach values.toList).1[i]? = some w := by simpa using copy
  obtain ⟨inside, rfl⟩ := List.getElem?_eq_some_iff.mp left
  obtain ⟨inside', rfl⟩ := List.getElem?_eq_some_iff.mp right
  exact row.get inside inside'

theorem deepCopy_reach_later (stored : s.Stored v) (later : (s.deepCopy v).2.Extends t) {x : Value}
    (reach : t.Reach (s.deepCopy v).1 x) : s.Newer (s.deepCopy v).2 x :=
  deepCopy_reach stored (reach.same fun y reach => later.same y (deepCopy_stored stored y reach))

theorem Newer.widen {u : Store} (newer : t.Newer u v) (grows : s.Extends t) : s.Newer u v :=
  ⟨newer.1, fun container old => newer.2 container (grows.has v old)⟩

theorem copyEach_newer {values : List Value} (stored : ∀ v ∈ values, s.Stored v) {w x : Value}
    (member : w ∈ (s.copyEach values).1) (reach : (s.copyEach values).2.Reach w x) :
    s.Newer (s.copyEach values).2 x := by
  induction values generalizing s with
  | nil => contradiction
  | cons v rest ih =>
    have grows := s.deepCopy_extends v
    have later := (s.deepCopy v).2.copyEach_extends rest
    rcases List.mem_cons.mp member with rfl | member
    · have first := deepCopy_reach_later (stored v List.mem_cons_self) later reach
      exact ⟨later.has x first.1, first.2⟩
    · have others := ih (fun v member => (stored v (List.mem_cons_of_mem _ member)).extends grows)
        member reach
      exact others.widen grows

/-- No two of them share a container: the later one is new where the earlier one is there
already. -/
theorem copyEach_apart {values : List Value} (stored : ∀ v ∈ values, s.Stored v) :
    (s.copyEach values).1.Pairwise fun v w => ∀ x, x.tag.isContainer = true →
      (s.copyEach values).2.Reach v x → ¬ (s.copyEach values).2.Reach w x := by
  induction values generalizing s with
  | nil => exact .nil
  | cons v rest ih =>
    have grows := s.deepCopy_extends v
    have later := (s.deepCopy v).2.copyEach_extends rest
    have others (w : Value) (member : w ∈ rest) : (s.deepCopy v).2.Stored w :=
      (stored w (List.mem_cons_of_mem _ member)).extends grows
    refine .cons (fun w member x container reach shared => ?_) (ih others)
    have first := deepCopy_reach_later (stored v List.mem_cons_self) later reach
    exact (copyEach_newer others member shared).2 container first.1

theorem copyAll_newer {values : Array Value} (stored : ∀ v ∈ values, s.Stored v) {w x : Value}
    (member : w ∈ (s.copyAll values).1) (reach : (s.copyAll values).2.Reach w x) :
    s.Newer (s.copyAll values).2 x := by
  rw [copyAll_eq] at member reach ⊢
  refine copyEach_newer (fun v listed => stored v (Array.mem_toList_iff.mp listed)) ?_ reach
  exact List.mem_toArray.mp member

theorem copyAll_apart {values : Array Value} (stored : ∀ v ∈ values, s.Stored v) {i j : Nat}
    {x : Value} (before : i < j) (first : (s.copyAll values).1[i]? = some v)
    (second : (s.copyAll values).1[j]? = some w) (container : x.tag.isContainer = true)
    (reach : (s.copyAll values).2.Reach v x) : ¬ (s.copyAll values).2.Reach w x := by
  rw [copyAll_eq] at first second reach ⊢
  have row := copyEach_apart fun v (listed : v ∈ values.toList) =>
    stored v (Array.mem_toList_iff.mp listed)
  rw [List.getElem?_toArray] at first second
  obtain ⟨inside, rfl⟩ := List.getElem?_eq_some_iff.mp first
  obtain ⟨inside', rfl⟩ := List.getElem?_eq_some_iff.mp second
  exact List.pairwise_iff_getElem.mp row i j inside inside' before x container reach

end Store

end StackMachine
