import Mathlib.Data.Set.Function
import StackMachine.Proofs.AccessPaths

/-! A deep copy is complete and detached. Without any bound on its depth the copying comes to an
end, it copies no list or map that cannot be reached, and each of those that can be reached exactly
once. Texts are another matter: every place that holds a text gets a text of its own. -/

namespace StackMachine

def Container.value : Container → Value
  | .list ref => .list ref
  | .map ref => .map ref

theorem Container.value_injective {k l : Container} (same : k.value = l.value) : k = l := by
  cases k <;> cases l <;> simp_all [value]

namespace Store

variable {s t : Store}

theorem mem_nodes_value {k : Container} (there : s.Has k.value) : k.value ∈ s.nodes := by
  cases k with
  | list ref => exact mem_nodes_list there
  | map ref => exact mem_nodes_map there

theorem texts_le (kept : ∀ v, s.Has v → t.Has v) : s.texts.size ≤ t.texts.size := by
  refine Nat.le_of_not_lt fun fewer => ?_
  exact Nat.lt_irrefl _ (kept (.text ⟨t.texts.size⟩) fewer)

end Store

namespace Copying

variable {s : Store} {c d e f : Copying} {v w x : Value} {vs ws : List Value} {bound : Nat}
  {path : List Value}

/-- The values on the left are copied one after the other, to any depth, with the ones on the right
as their copies. A list or map is opened, what is inside is copied, and then its copy is closed. -/
inductive Makes : Copying → List Value → List Value → Copying → Prop
  | nil (c : Copying) : Makes c [] [] c
  | cons {c d e : Copying} {v w : Value} {vs ws : List Value} (first : Makes c [v] [w] d)
    (rest : Makes d vs ws e) : Makes c (v :: vs) (w :: ws) e
  | immediate (c : Copying) {v : Value} (plain : v.tag.isContainer = false) : Makes c [v] [v] c
  | text (c : Copying) (ref : TextRef) : Makes c [.text ref] [(c.copyText ref).1] (c.copyText ref).2
  | known {c : Copying} {v w : Value} (known : c.copy? v = some w) : Makes c [v] [w] c
  | list {c d : Copying} {ref : ListRef} {items : List Value} (first : c.copy? (.list ref) = none)
    (row : Makes (c.openList ref).2 ((c.openList ref).2.store.list ref).toList items d) :
    Makes c [.list ref] [.list (c.openList ref).1] (d.closeList (c.openList ref).1 items)
  | map {c d : Copying} {ref : MapRef} {entries : List (Scalar × Value)}
    (first : c.copy? (.map ref) = none)
    (keys : entries.map Prod.fst = ((c.openMap ref).2.store.map ref).entries.map Prod.fst)
    (row : Makes (c.openMap ref).2 (((c.openMap ref).2.store.map ref).entries.map Prod.snd)
      (entries.map Prod.snd) d) :
    Makes c [.map ref] [.map (c.openMap ref).1] (d.closeMap (c.openMap ref).1 entries)

section Texts

/-- Where a new text can stand: among the results, or at a place inside of a new list or map. -/
inductive Spot where
  | result (index : Nat)
  | inside (holder : Value) (place : Access)

def Spot.shift : Spot → Spot
  | result index => result (index + 1)
  | inside holder place => inside holder place

/-- The text stands there once the copying from `c` to `d` has given the results `ws`. -/
inductive Occurs (c d : Copying) (ws : List Value) : Spot → TextRef → Prop
  | result {i : Nat} {ref : TextRef} (here : ws[i]? = some (.text ref)) :
    Occurs c d ws (.result i) ref
  | inside {holder : Value} {a : Access} {ref : TextRef} (new : ¬ c.store.Has holder)
    (here : d.store.child? holder a = some (.text ref)) : Occurs c d ws (.inside holder a) ref

/-- The texts that stand anywhere are new, and none of them stands at two places. -/
structure Spread (c d : Copying) (ws : List Value) : Prop where
  range : ∀ {spot ref}, Occurs c d ws spot ref → c.store.texts.size ≤ ref.index ∧
    ref.index < d.store.texts.size
  single : ∀ {spot other ref}, Occurs c d ws spot ref → Occurs c d ws other ref → spot = other

theorem spread_still (plain : ∀ w ∈ ws, ∀ ref, w ≠ .text ref) : Spread c c ws := by
  have never {spot : Spot} {ref : TextRef} (occurs : Occurs c c ws spot ref) : False := by
    cases occurs with
    | result here => exact plain _ (List.mem_of_getElem? here) ref rfl
    | inside new here => exact new (Store.inside_of_child? here).has
  exact ⟨fun occurs => (never occurs).elim, fun occurs => (never occurs).elim⟩

theorem spread_text (c : Copying) (ref : TextRef) :
    Spread c (c.copyText ref).2 [(c.copyText ref).1] := by
  have only {spot : Spot} {new : TextRef}
    (occurs : Occurs c (c.copyText ref).2 [(c.copyText ref).1] spot new) :
      spot = .result 0 ∧ new = ⟨c.store.texts.size⟩ := by
    cases occurs with
    | @result i _ here =>
      obtain ⟨inside, same⟩ := List.getElem?_eq_some_iff.mp here
      obtain rfl : i = 0 := Nat.lt_one_iff.mp inside
      exact ⟨rfl, (Value.text.inj same).symm⟩
    | @inside holder a _ missing here =>
      have before : c.store.child? holder a = some (.text new) := by
        cases holder <;> exact here
      exact absurd (Store.inside_of_child? before).has missing
  refine ⟨fun occurs => ?_, fun one two => (only one).1.trans (only two).1.symm⟩
  obtain ⟨_, rfl⟩ := only occurs
  simp [copyText, Store.addText, Store.pushText]

theorem Spread.cons (first : Spread c d [w]) (rest : Spread d e ws)
    (before : c.store.Extends d.store) (after : d.store.Extends e.store) :
    Spread c e (w :: ws) := by
  -- A text stands where the first copy put it, or else where a later one did.
  have split {spot : Spot} {ref : TextRef} (occurs : Occurs c e (w :: ws) spot ref) :
      (Occurs c d [w] spot ref ∧ ref.index < d.store.texts.size) ∨
        ∃ later : Spot, Occurs d e ws later ref ∧ d.store.texts.size ≤ ref.index ∧
          spot = later.shift := by
    cases occurs with
    | @result i _ here =>
      cases i with
      | zero =>
        have there : Occurs c d [w] (.result 0) ref := .result here
        exact .inl ⟨there, (first.range there).2⟩
      | succ i => exact .inr ⟨.result i, .result here, (rest.range (.result here)).1, rfl⟩
    | @inside holder a _ new here =>
      by_cases old : d.store.Has holder
      · have there : Occurs c d [w] (.inside holder a) ref :=
          .inside new (((after.same holder old).child? a).symm.trans here)
        exact .inl ⟨there, (first.range there).2⟩
      · exact .inr ⟨.inside holder a, .inside old here, (rest.range (.inside old here)).1, rfl⟩
  have early := Store.texts_le before.has
  have late := Store.texts_le after.has
  refine ⟨fun occurs => ?_, fun one two => ?_⟩
  · rcases split occurs with ⟨there, _⟩ | ⟨_, there, _, _⟩
    · have range := first.range there
      omega
    · have range := rest.range there
      omega
  · rcases split one with ⟨there, _⟩ | ⟨_, there, _, rfl⟩ <;>
      rcases split two with ⟨here, _⟩ | ⟨_, here, _, rfl⟩
    · exact first.single there here
    · omega
    · omega
    · rw [rest.single there here]

theorem Spread.close (opens : c.Opens v w d) (spread : Spread d e ws) (closes : e.Closes w f)
    (places : List Access)
    (contents : ∀ a x, f.store.child? w a = some x → ∃ i : Nat, places[i]? = some a ∧
      ws[i]? = some x) : Spread c f [w] := by
  have moved {spot : Spot} {ref : TextRef} (occurs : Occurs c f [w] spot ref) :
      ∃ inner, Occurs d e ws inner ref ∧
        ((∃ holder a, spot = .inside holder a ∧ inner = .inside holder a ∧ holder ≠ w) ∨
          ∃ (i : Nat) (a : Access), spot = .inside w a ∧ inner = .result i ∧
            places[i]? = some a) := by
    cases occurs with
    | @result i _ here =>
      obtain ⟨_, same⟩ := List.getElem?_eq_some_iff.mp here
      exact absurd (by simpa using same) (closes.node ref)
    | @inside holder a _ new here =>
      by_cases same : holder = w
      · subst same
        obtain ⟨i, placed, result⟩ := contents a _ here
        exact ⟨.result i, .result result, .inr ⟨i, a, rfl, rfl, placed⟩⟩
      · have missing : ¬ d.store.Has holder :=
          fun has => ((opens.there holder).mp has).elim same new
        have there : e.store.child? holder a = some (.text ref) :=
          ((closes.touches.same holder same).child? a).symm.trans here
        exact ⟨.inside holder a, .inside missing there, .inl ⟨holder, a, rfl, rfl, same⟩⟩
  have early := Store.texts_le opens.grows.has
  have late := Store.texts_le closes.touches.has
  refine ⟨fun occurs => ?_, fun one two => ?_⟩
  · obtain ⟨_, there, _⟩ := moved occurs
    have range := spread.range there
    omega
  · obtain ⟨_, there, source⟩ := moved one
    obtain ⟨_, here, from'⟩ := moved two
    have same := spread.single there here
    rcases source with ⟨holder, a, rfl, rfl, _⟩ | ⟨i, a, rfl, rfl, placed⟩ <;>
      rcases from' with ⟨holder', b, rfl, rfl, _⟩ | ⟨j, b, rfl, rfl, placed'⟩
    · exact same
    · cases same
    · cases same
    · cases same
      rw [Option.some.inj (placed.symm.trans placed')]

end Texts

/-- What is known of copies made from `c` to `d`: how they come about, that only lists and maps
inside of the originals are copied, and that no text is shared. -/
structure Traced (s : Store) (c : Copying) (vs ws : List Value) (d : Copying) : Prop where
  makes : Makes c vs ws d
  reached : ∀ {x y}, d.copy? x = some y → c.copy? x = some y ∨ ∃ v ∈ vs, s.Reach v x
  spread : Spread c d ws

theorem traced_immediate (s : Store) (c : Copying) (plain : v.tag.isContainer = false) :
    Traced s c [v] [v] c := by
  refine ⟨.immediate c plain, fun known => .inl known, spread_still fun w member ref same => ?_⟩
  rw [← List.mem_singleton.mp member, same] at plain
  contradiction

theorem Traced.nil (s : Store) (c : Copying) : Traced s c [] [] c :=
  ⟨.nil c, fun known => .inl known, spread_still (by simp)⟩

theorem Traced.cons (first : Traced s c [v] [w] d) (rest : Traced s d vs ws e)
    (before : c.store.Extends d.store) (after : d.store.Extends e.store) :
    Traced s c (v :: vs) (w :: ws) e := by
  refine ⟨.cons first.makes rest.makes, fun known => ?_, first.spread.cons rest.spread before after⟩
  rcases rest.reached known with earlier | ⟨x, member, reach⟩
  · rcases first.reached earlier with earlier | ⟨x, member, reach⟩
    · exact .inl earlier
    · exact .inr ⟨x, List.mem_cons.mpr (.inl (List.mem_singleton.mp member)), reach⟩
  · exact .inr ⟨x, List.mem_cons_of_mem _ member, reach⟩

theorem mapM_traced {α β : Type} {copy : α → StateM Copying β} (original : α → Value)
    (result : β → Value) (items : List α)
    (each : ∀ a ∈ items, ∀ c, Ready s path bound c → Onto s c (copy a c).2 ∧
      Traced s c [original a] [result (copy a c).1] (copy a c).2)
    (c : Copying) (ready : Ready s path bound c) :
    Onto s c (items.mapM copy c).2 ∧
      Traced s c (items.map original) ((items.mapM copy c).1.map result) (items.mapM copy c).2 := by
  induction items generalizing c with
  | nil => exact ⟨.refl ready.valid, .nil s c⟩
  | cons item rest ih =>
    obtain ⟨onto, first⟩ := each item List.mem_cons_self c ready
    obtain ⟨further, others⟩ :=
      ih (fun a member => each a (List.mem_cons_of_mem _ member)) (copy item c).2 (ready.onto onto)
    rw [List.mapM_cons]
    exact ⟨onto.trans further, first.cons others onto.grows further.grows⟩

theorem Opens.reached (opens : c.Opens v w d) (closes : e.Closes w f)
    (row : ∀ {x y}, e.copy? x = some y → d.copy? x = some y ∨ ∃ v ∈ vs, s.Reach v x)
    (inner : ∀ x ∈ vs, s.Inside v x) {x y : Value} (known : f.copy? x = some y) :
    c.copy? x = some y ∨ ∃ root ∈ [v], s.Reach root x := by
  rw [closes.copy] at known
  rcases row known with earlier | ⟨root, member, reach⟩
  · rw [opens.copy] at earlier
    split at earlier
    next same => exact .inr ⟨v, List.mem_singleton_self v, same ▸ .here⟩
    next => exact .inl earlier
  · exact .inr ⟨v, List.mem_singleton_self v,
      Store.Reach.trans (.inside .here (inner root member)) reach⟩

theorem mapM_copyEntry_keys (entries : List (Scalar × Value)) (c : Copying) :
    (entries.mapM (copyEntry bound) c).1.map Prod.fst = entries.map Prod.fst := by
  induction entries generalizing c with
  | nil => rfl
  | cons e rest ih =>
    rw [List.mapM_cons]
    exact congrArg (e.1 :: ·) (ih _)

theorem closeList_contents {copy : ListRef} {items : List Value} (there : e.store.Has (.list copy))
    (a : Access) (x : Value)
    (step : (e.closeList copy items).store.child? (.list copy) a = some x) :
    ∃ i : Nat, ((List.range items.length).map Access.item)[i]? = some a ∧ items[i]? = some x := by
  cases a with
  | entry key => contradiction
  | item i =>
    have read : (e.closeList copy items).store.list copy = items.toArray :=
      Store.modifyList_list there _
    simp only [Store.child?, read, List.getElem?_toArray] at step
    have inside : i < items.length := (List.getElem?_eq_some_iff.mp step).1
    exact ⟨i, by simp [inside], step⟩

theorem closeMap_contents {copy : MapRef} {entries : List (Scalar × Value)}
    (there : e.store.Has (.map copy)) (a : Access) (x : Value)
    (step : (e.closeMap copy entries).store.child? (.map copy) a = some x) :
    ∃ i : Nat, (entries.map fun entry => Access.entry entry.1)[i]? = some a ∧
      (entries.map Prod.snd)[i]? = some x := by
  cases a with
  | item i => contradiction
  | entry key =>
    have read : (e.closeMap copy entries).store.map copy = .ofList entries :=
      Store.modifyMap_map there _
    simp only [Store.child?, read] at step
    obtain ⟨i, found⟩ :=
      List.mem_iff_getElem?.mp (Dict.mem_of_mem_ofList (Entries.mem_of_find? step))
    exact ⟨i, by simp [found], by simp [found]⟩

/-- The recursion is the one without a bound: each level opens a container that had no copy yet. -/
theorem copyWithin_traced (ready : Ready s path bound c) (stored : s.Stored v) :
    Traced s c [v] [(copyWithin bound v c).1] (copyWithin bound v c).2 := by
  induction bound generalizing path c v with
  | zero => exact ready.bound_ne_zero.elim
  | succ bound ih =>
    have has : s.Has v := stored v .here
    have inner {x : Value} (inside : s.Inside v x) : s.Stored x :=
      fun y reach => stored y (Store.Reach.trans (.inside .here inside) reach)
    cases v with
    | text ref =>
      refine ⟨.text c ref, fun {x y} known => .inl ?_, spread_text c ref⟩
      cases x <;> exact known
    | list ref =>
      cases known : c.lists[ref]? with
      | some copy =>
        have copied : c.copy? (.list ref) = some (.list copy) := by simp [copy?, known]
        rw [copyWithin_list_known known]
        exact ⟨.known copied, fun known => .inl known, spread_still (by simp)⟩
      | none =>
        have first : c.copy? (.list ref) = none := by simp [copy?, known]
        have opens := c.openList_opens ref
        have deeper := ready.opens opens first has
        have same : (c.openList ref).2.store.list ref = s.list ref :=
          deeper.valid.grows.same (.list ref) has
        have member {x : Value} (member : x ∈ ((c.openList ref).2.store.list ref).toList) :
            s.Inside (.list ref) x :=
          .item (Array.mem_toList_iff.mp (same ▸ member))
        obtain ⟨onto, row⟩ : Onto s (c.openList ref).2 (copyItems bound c ref).2 ∧
            Traced s (c.openList ref).2 ((c.openList ref).2.store.list ref).toList
              (copyItems bound c ref).1 (copyItems bound c ref).2 := by
          have row := mapM_traced id id _ (fun x there d ready =>
            ⟨(copyWithin_onto ready (inner (member there))).1, ih ready (inner (member there))⟩) _
              deeper
          rwa [List.map_id, List.map_id] at row
        have closes := (copyItems bound c ref).2.closeList_closes (c.openList ref).1
          (copyItems bound c ref).1
        have mine : (copyItems bound c ref).2.copy? (.list ref) = some (.list (c.openList ref).1) :=
          onto.keeps (by simp [opens.copy])
        rw [copyWithin_list known]
        exact ⟨.list first row.makes, opens.reached closes row.reached fun x there => member there,
          row.spread.close opens closes _ (closeList_contents (onto.valid.fresh mine).2)⟩
    | map ref =>
      cases known : c.maps[ref]? with
      | some copy =>
        have copied : c.copy? (.map ref) = some (.map copy) := by simp [copy?, known]
        rw [copyWithin_map_known known]
        exact ⟨.known copied, fun known => .inl known, spread_still (by simp)⟩
      | none =>
        have first : c.copy? (.map ref) = none := by simp [copy?, known]
        have opens := c.openMap_opens ref
        have deeper := ready.opens opens first has
        have same : (c.openMap ref).2.store.map ref = s.map ref :=
          deeper.valid.grows.same (.map ref) has
        have member {e : Scalar × Value} (member : e ∈ ((c.openMap ref).2.store.map ref).entries) :
            s.Inside (.map ref) e.2 := .entry (same ▸ member)
        obtain ⟨onto, row⟩ : Onto s (c.openMap ref).2 (copyEntries bound c ref).2 ∧
            Traced s (c.openMap ref).2 (((c.openMap ref).2.store.map ref).entries.map Prod.snd)
              ((copyEntries bound c ref).1.map Prod.snd) (copyEntries bound c ref).2 :=
          mapM_traced Prod.snd Prod.snd _ (fun e there d ready =>
            ⟨(copyWithin_onto ready (inner (member there))).1, ih ready (inner (member there))⟩) _
              deeper
        have closes := (copyEntries bound c ref).2.closeMap_closes (c.openMap ref).1
          (copyEntries bound c ref).1
        have mine : (copyEntries bound c ref).2.copy? (.map ref) = some (.map (c.openMap ref).1) :=
          onto.keeps (by simp [opens.copy])
        have inside (x : Value)
          (there : x ∈ ((c.openMap ref).2.store.map ref).entries.map Prod.snd) :
            s.Inside (.map ref) x := by
          obtain ⟨e, listed, rfl⟩ := List.mem_map.mp there
          exact member listed
        rw [copyWithin_map known]
        exact ⟨.map first (mapM_copyEntry_keys _ _) row.makes,
          opens.reached closes row.reached inside,
          row.spread.close opens closes _ (closeMap_contents (onto.valid.fresh mine).2)⟩
    | _ => exact traced_immediate s c rfl

def partner (c : Copying) : Container → Container
  | .list ref => .list (c.lists.getD ref ref)
  | .map ref => .map (c.maps.getD ref ref)

theorem partner_tag (c : Copying) (k : Container) : (c.partner k).value.tag = k.value.tag := by
  cases k <;> rfl

theorem partner_value {k : Container} (known : c.copy? k.value = some w) :
    (c.partner k).value = w := by
  cases k with
  | list ref =>
    obtain ⟨copy, found, rfl⟩ := Option.map_eq_some_iff.mp known
    simp [partner, Container.value, Std.HashMap.getD_eq_getD_getElem?, found]
  | map ref =>
    obtain ⟨copy, found, rfl⟩ := Option.map_eq_some_iff.mp known
    simp [partner, Container.value, Std.HashMap.getD_eq_getD_getElem?, found]

theorem eq_value_of_copy? (known : c.copy? v = some w) : ∃ k : Container, k.value = v := by
  cases v with
  | list ref => exact ⟨.list ref, rfl⟩
  | map ref => exact ⟨.map ref, rfl⟩
  | _ => contradiction

theorem Copied.known_of_value {k : Container} (copied : c.Copied s k.value w) :
    c.copy? k.value = some w := by
  generalize origin : k.value = v at copied
  cases copied with
  | immediate plain =>
    rw [← origin] at plain
    cases k <;> contradiction
  | text => cases k <;> contradiction
  | known known => exact known

end Copying

namespace Store

variable {s : Store} {v : Value}

structure Copies (s : Store) (v w : Value) (c : Copying) :
    Prop extends Copying.Onto s { store := s } c where
  copied : c.Copied s v w
  traced : Copying.Traced s { store := s } [v] [w] c

theorem deepCopy_copies (stored : s.Stored v) :
    ∃ c : Copying, c.store = (s.deepCopy v).2 ∧ s.Copies v (s.deepCopy v).1 c := by
  have ready : Copying.Ready s [] (s.containers + 1) { store := s } :=
    ⟨Copying.valid_start s, .nil, by simp, Nat.lt_succ_self _⟩
  obtain ⟨onto, copied⟩ := Copying.copyWithin_onto ready stored
  exact ⟨_, rfl, onto, copied, Copying.copyWithin_traced ready stored⟩

variable {w : Value} {c : Copying}

theorem Copies.matched (copies : s.Copies v w c) {x y : Value} (copied : c.Copied s x y) :
    s.Matches c.store (c.Copied s) x y :=
  onto_matches copies.toOnto copied

theorem Copies.reached (copies : s.Copies v w c) {x : Value} (reach : s.Reach v x) :
    ∃ y, c.Copied s x y := by
  induction reach with
  | here => exact ⟨w, copies.copied⟩
  | inside _ inside ih =>
    obtain ⟨y, copied⟩ := ih
    obtain ⟨z, _, inner⟩ := (copies.matched copied).counterpart inside
    exact ⟨z, inner⟩

theorem Copies.bijOn (copies : s.Copies v w c) :
    Set.BijOn c.partner {k | s.Reach v k.value} {k | c.store.Has k.value ∧ ¬ s.Has k.value} := by
  have known {k : Container} (reach : s.Reach v k.value) :
      c.copy? k.value = some (c.partner k).value := by
    obtain ⟨y, copied⟩ := copies.reached reach
    rw [Copying.partner_value copied.known_of_value]
    exact copied.known_of_value
  refine ⟨fun k reach => ?_, fun k reach l reach' same => ?_, fun k new => ?_⟩
  · exact ⟨(copies.valid.fresh (known reach)).2, (copies.valid.fresh (known reach)).1⟩
  · exact Container.value_injective (copies.valid.single (known reach') (same ▸ known reach))
  · have node (ref : TextRef) : k.value ≠ .text ref := by cases k <;> simp [Container.value]
    obtain ⟨x, copied⟩ := copies.valid.owned k.value node new.2 new.1
    obtain ⟨l, rfl⟩ := Copying.eq_value_of_copy? copied
    refine ⟨l, ?_, Container.value_injective (Copying.partner_value copied)⟩
    rcases copies.traced.reached copied with before | ⟨root, member, reach⟩
    · cases l <;> simp [Copying.copy?, Container.value] at before
    · rwa [List.mem_singleton.mp member] at reach

/-- Deep copies are complete and detached. Copying a value comes to an end, whatever cycles it has;
the containers that were there keep their contents; the copy leads to no container but new ones; it
unfolds to the same tree as the original, tags, scalars, texts, orders and keys included; and the
new lists and maps correspond one to one to the lists and maps that the original leads to. -/
theorem deepCopy_faithful (s : Store) (v : Value) (stored : s.Stored v) :
    let w := (s.deepCopy v).1
    let t := (s.deepCopy v).2
    (∃ c : Copying, Copying.Makes { store := s } [v] [w] c ∧ c.store = t) ∧
    s.Extends t ∧
    (∀ x, t.Reach w x → x.tag.isContainer = true → t.Has x ∧ ¬ s.Has x) ∧
    t.tree w = s.tree v ∧
    ∃ partner : Container → Container, (∀ k, (partner k).value.tag = k.value.tag) ∧
      Set.BijOn partner {k | s.Reach v k.value} {k | t.Has k.value ∧ ¬ s.Has k.value} := by
  obtain ⟨c, same, copies⟩ := deepCopy_copies stored
  refine ⟨⟨c, copies.traced.makes, same⟩, s.deepCopy_extends v, fun x reach container => ?_, ?_,
    c.partner, c.partner_tag, ?_⟩
  · have newer := deepCopy_reach stored reach
    exact ⟨newer.1, newer.2 container⟩
  · rw [← same]
    exact tree_eq (fun x y copied => copies.matched copied) copies.copied
  · rw [← same]
    exact copies.bijOn

section Knot

def knotted : Store where
  texts := #["a"]
  lists := #[#[.text ⟨0⟩, .text ⟨0⟩, .map ⟨0⟩]]
  maps := #[.ofList [(.null, .list ⟨0⟩)]]

theorem knotted_stored : knotted.Stored (.list ⟨0⟩) := by
  have closed (x y : Value) (inside : knotted.Inside x y) : knotted.Has y := by
    cases inside with
    | @item ref _ member =>
      obtain ⟨index⟩ := ref
      cases index with
      | zero =>
        have either : y = .text ⟨0⟩ ∨ y = .map ⟨0⟩ := by simpa [knotted, list] using member
        rcases either with rfl | rfl <;> exact Nat.zero_lt_one
      | succ index => simp [knotted, list] at member
    | @entry ref e member =>
      obtain ⟨index⟩ := ref
      cases index with
      | zero =>
        have entry : e = (.null, .list ⟨0⟩) := List.mem_singleton.mp member
        rw [entry]
        exact Nat.zero_lt_one
      | succ index => simp [knotted, map, Dict.empty] at member
  intro x reach
  cases reach with
  | here => exact Nat.zero_lt_one
  | inside _ inside => exact closed _ _ inside

theorem deepCopy_faithful_knotted :
    let w := (knotted.deepCopy (.list ⟨0⟩)).1
    let t := (knotted.deepCopy (.list ⟨0⟩)).2
    knotted.Stored (.list ⟨0⟩) ∧
    (∃ c : Copying, Copying.Makes { store := knotted } [.list ⟨0⟩] [w] c ∧ c.store = t) ∧
    knotted.Extends t ∧
    (∀ x, t.Reach w x → x.tag.isContainer = true → t.Has x ∧ ¬ knotted.Has x) ∧
    t.tree w = knotted.tree (.list ⟨0⟩) ∧
    ∃ partner : Container → Container, (∀ k, (partner k).value.tag = k.value.tag) ∧
      Set.BijOn partner {k | knotted.Reach (.list ⟨0⟩) k.value}
        {k | t.Has k.value ∧ ¬ knotted.Has k.value} :=
  ⟨knotted_stored, deepCopy_faithful knotted (.list ⟨0⟩) knotted_stored⟩

end Knot

end Store

end StackMachine
