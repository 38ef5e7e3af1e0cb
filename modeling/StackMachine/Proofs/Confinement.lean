import StackMachine.Machine.Step
import StackMachine.Proofs.Territory

/-! Instructions keep to a realm: if the slots are filled as they should be, then all that an
instruction reads, writes and leaves behind is inside, and what lies outside is not changed.
Literals may lie outside, since an instruction takes nothing from them but deep copies. -/

namespace StackMachine

section Sustains

variable {ε σ α β : Type} {inv : σ → Prop} {good : α → Prop}

inductive Sustained (inv : σ → Prop) (good : α → Prop) : EStateM.Result ε σ α → Prop
  | ok {a : α} {s : σ} (holds : inv s) (fine : good a) : Sustained inv good (.ok a s)
  | error {e : ε} {s : σ} (holds : inv s) : Sustained inv good (.error e s)

/-- Begun in a state of the kind `inv`, the action ends in one, also if it fails; its result is
`good`. -/
def Sustains (inv : σ → Prop) (act : EStateM ε σ α) (good : α → Prop) : Prop :=
  ∀ s, inv s → Sustained inv good (act s)

theorem sustains_pure {a : α} (fine : good a) : Sustains inv (pure a : EStateM ε σ α) good :=
  fun _ holds => .ok holds fine

theorem sustains_throw (e : ε) : Sustains inv (throw e : EStateM ε σ α) good :=
  fun _ holds => .error holds

theorem Sustains.bind {act : EStateM ε σ α} {next : α → EStateM ε σ β} {good' : β → Prop}
    (first : Sustains inv act good) (second : ∀ a, good a → Sustains inv (next a) good') :
    Sustains inv (act >>= next) good' := by
  intro s holds
  have outcome := first s holds
  simp only [Bind.bind, EStateM.bind]
  generalize act s = result at outcome ⊢
  cases outcome with
  | ok holds fine => exact second _ fine _ holds
  | error holds => exact .error holds

end Sustains

namespace Value

variable {v w : Value}

def Immediate (result : Except OpError Value) : Prop :=
  ∀ v, result = .ok v → v.tag.isContainer = false ∧ v.isUndefined = false

theorem immediate_ok (plain : v.tag.isContainer = false) (defined : v.isUndefined = false) :
    Immediate (.ok v) := by
  rintro _ ⟨⟩
  exact ⟨plain, defined⟩

theorem immediate_error (e : OpError) : Immediate (.error e) :=
  nofun

theorem onNumbers_immediate {op : BinaryOp} {onInts : Int64 → Int64 → Int64}
    {onDoubles : Double → Double → Double} : Immediate (onNumbers op onInts onDoubles v w) := by
  unfold onNumbers
  split
  · exact immediate_ok rfl rfl
  · split
    · exact immediate_ok rfl rfl
    · exact immediate_error _

theorem div_immediate : Immediate (div v w) := by
  unfold div
  split
  · exact immediate_error _
  · split
    · split
      · exact immediate_ok rfl rfl
      · exact immediate_ok rfl rfl
    · exact onNumbers_immediate

theorem rem_immediate : Immediate (rem v w) := by
  unfold rem
  split
  · exact immediate_error _
  · exact onNumbers_immediate

theorem binary_immediate (op : BinaryOp) : Immediate (binary op v w) := by
  cases op with
  | add => exact onNumbers_immediate
  | sub => exact onNumbers_immediate
  | mul => exact onNumbers_immediate
  | div => exact div_immediate
  | rem => exact rem_immediate
  | bitAnd =>
    simp only [binary, bitAnd]
    split
    · exact immediate_ok rfl rfl
    · exact immediate_ok rfl rfl
    · exact immediate_error _
  | bitOr =>
    simp only [binary, bitOr]
    split
    · exact immediate_ok rfl rfl
    · exact immediate_ok rfl rfl
    · exact immediate_error _
  | bitXor =>
    simp only [binary, bitXor]
    split
    · exact immediate_ok rfl rfl
    · exact immediate_error _
  | shiftLeft =>
    simp only [binary, shiftLeft]
    split
    · exact immediate_ok rfl rfl
    · exact immediate_error _
  | shiftRight =>
    simp only [binary, shiftRight]
    split
    · exact immediate_ok rfl rfl
    · exact immediate_error _

theorem neg_immediate (v : Value) : Immediate v.neg := by
  unfold neg
  split
  · exact immediate_ok rfl rfl
  · exact immediate_ok rfl rfl
  · exact immediate_error _

theorem plus_immediate (v : Value) : Immediate v.plus := by
  unfold plus
  split
  · exact immediate_ok rfl rfl
  · exact immediate_ok rfl rfl
  · exact immediate_error _

theorem bitNot_immediate (v : Value) : Immediate v.bitNot := by
  unfold bitNot
  split
  · exact immediate_ok rfl rfl
  · exact immediate_error _

theorem step_immediate (v : Value) (delta : Int64) : Immediate (v.step delta) := by
  unfold step
  split
  · exact immediate_ok rfl rfl
  · exact immediate_ok rfl rfl
  · exact immediate_error _

end Value

namespace Realm

variable {R : Realm} {s : Store} {value : Value}

theorem inside_setIfInBounds (R : Realm) {value : Value} {values : Array Value}
    (fine : R.inside value) (others : ∀ v ∈ values, R.inside v) (place : Nat) :
    ∀ v ∈ values.setIfInBounds place value, R.inside v := by
  intro v member
  rcases Array.mem_or_eq_of_mem_setIfInBounds member with old | rfl
  · exact others v old
  · exact fine

theorem Holds.setItem (holds : R.Holds s) {ref : ListRef} (mine : R.inside (.list ref))
    (place : Nat) (fine : R.inside value) :
    R.Holds (s.modifyList ref (·.setIfInBounds place value)) :=
  holds.modifyList mine (R.inside_setIfInBounds fine
    (fun _ member => holds.closed _ _ mine (.item member)) place)

theorem Holds.setEntry (holds : R.Holds s) {ref : MapRef} (mine : R.inside (.map ref))
    (key : Scalar) (fine : R.inside value) : R.Holds (s.modifyMap ref (·.insert key value)) := by
  refine holds.modifyMap mine fun e member => ?_
  rcases Entries.eq_or_mem_of_mem_insert member with rfl | old
  · exact fine
  · exact holds.closed _ _ mine (.entry old)

end Realm

theorem Value.Immediate.inside {R : Realm} {result : Except OpError Value} {v : Value}
    (plain : Immediate result) (done : result = .ok v) : R.inside v :=
  R.immediate (plain v done).1 (plain v done).2

theorem position_lt {index : Int64} {length place : Nat}
    (found : position index length = .ok place) : place < length := by
  unfold position at found
  split at found
  next fits =>
    obtain rfl := Except.ok.inj found
    simp only [Bool.and_eq_true, decide_eq_true_eq] at fits
    exact fits.2
  · contradiction

namespace Op

variable {R : Realm} {v w container index value : Value}

theorem confined_ofExcept {result : Except OpError Value} (plain : Value.Immediate result) :
    Sustains R.Holds (ofExcept result) R.inside := by
  cases result with
  | ok v => exact sustains_pure (plain.inside rfl)
  | error e => exact sustains_throw e

theorem confined_look {α : Type} {view : Store → Except OpError α} {good : α → Prop}
    (fine : ∀ s a, view s = .ok a → good a) : Sustains R.Holds (look view) good := by
  intro s holds
  unfold look
  split
  next done => exact .ok holds (fine s _ done)
  next => exact .error holds

theorem confined_newText (x : String) : Sustains R.Holds (newText x) R.inside :=
  fun _ holds => .ok (holds.addText x).1 (holds.addText x).2

theorem confined_newList {items : Array Value} (fine : ∀ v ∈ items, R.inside v) :
    Sustains R.Holds (newList items) R.inside :=
  fun _ holds => .ok (holds.addList fine).1 (holds.addList fine).2

theorem confined_newMap {entries : Dict Value} (fine : ∀ e ∈ entries.entries, R.inside e.2) :
    Sustains R.Holds (newMap entries) R.inside :=
  fun _ holds => .ok (holds.addMap fine).1 (holds.addMap fine).2

theorem confined_add (left : R.inside v) (right : R.inside w) :
    Sustains R.Holds (add v w) R.inside := by
  intro s holds
  unfold add
  split
  · exact confined_newText _ s holds
  · exact confined_newText _ s holds
  · refine confined_newMap (fun e member => ?_) s holds
    rcases Dict.mem_of_mem_insertAll member with member | member
    · exact holds.closed _ _ left (.entry member)
    · exact holds.closed _ _ right (.entry member)
  · exact confined_ofExcept (Value.binary_immediate .add) s holds

theorem confined_binary (op : BinaryOp) (left : R.inside v) (right : R.inside w) :
    Sustains R.Holds (binary op v w) R.inside := by
  cases op with
  | add => exact confined_add left right
  | _ => exact confined_ofExcept (Value.binary_immediate _)

theorem confined_unary (op : UnaryOp) (v : Value) : Sustains R.Holds (unary op v) R.inside := by
  cases op with
  | neg => exact confined_ofExcept v.neg_immediate
  | plus => exact confined_ofExcept v.plus_immediate
  | bitNot => exact confined_ofExcept v.bitNot_immediate
  | not =>
    refine confined_look fun s result done => ?_
    split at done
    · contradiction
    · obtain rfl := Except.ok.inj done
      exact R.immediate rfl rfl

theorem confined_loadIndex (mine : R.inside container) (index : Value) :
    Sustains R.Holds (loadIndex container index) R.inside := by
  intro s holds
  unfold loadIndex
  split
  · dsimp only
    split
    next ref _ _ place found =>
      refine .ok holds (holds.closed _ _ mine (.item ?_))
      have bound := position_lt found
      rw [Array.getD_eq_getD_getElem?, Array.getElem?_eq_getElem bound]
      exact Array.getElem_mem bound
    next => exact .error holds
  · dsimp only
    split
    · exact confined_newText _ s holds
    · exact .error holds
  · split
    · split
      next found => exact .ok holds (holds.closed _ _ mine (.entry (Entries.mem_of_find? found)))
      next => exact .error holds
    · exact .error holds
  · exact .error holds

theorem confined_loadIndexOrNull (mine : R.inside container) (index : Value) :
    Sustains R.Holds (loadIndexOrNull container index) R.inside := by
  intro s holds
  have outcome := confined_loadIndex mine index s holds
  unfold loadIndexOrNull
  generalize loadIndex container index s = result at outcome ⊢
  cases outcome with
  | ok holds fine => exact .ok holds fine
  | @error e _ holds =>
    cases e with
    | outOfBounds => exact .ok holds (R.immediate rfl rfl)
    | undefinedKey => exact .ok holds (R.immediate rfl rfl)
    | _ => exact .error holds

theorem confined_storeIndex (mine : R.inside container) (index : Value) (fine : R.inside value) :
    Sustains R.Holds (storeIndex container index value) fun _ => True := by
  intro s holds
  unfold storeIndex
  split
  · split
    · exact .ok (holds.setItem mine _ fine) trivial
    · exact .error holds
  · split
    · exact .ok (holds.setEntry mine _ fine) trivial
    · exact .error holds
  · exact .error holds

theorem confined_stepIndex (mine : R.inside container) (index : Value) (delta : Int64) :
    Sustains R.Holds (stepIndex container index delta) fun _ => True := by
  intro s holds
  unfold stepIndex
  split
  · dsimp only
    split
    · split
      next done => exact .ok (holds.setItem mine _ ((Value.step_immediate _ _).inside done)) trivial
      next => exact .error holds
    · exact .error holds
  · split
    · split
      · split
        next done =>
          exact .ok (holds.setEntry mine _ ((Value.step_immediate _ _).inside done)) trivial
        next => exact .error holds
      · exact .error holds
    · exact .error holds
  · exact .error holds

theorem confined_append (mine : R.inside container) (fine : R.inside value) :
    Sustains R.Holds (append container value) fun _ => True := by
  intro s holds
  unfold append
  split
  · refine .ok (holds.modifyList mine fun v member => ?_) trivial
    rcases Array.mem_push.mp member with old | rfl
    · exact holds.closed _ _ mine (.item old)
    · exact fine
  · exact .ok (holds.modifyText mine _) trivial
  · exact .error holds

end Op

theorem mem_of_mem_extract {values : Array Value} {start stop : Nat} {v : Value}
    (member : v ∈ values.extract start stop) : v ∈ values := by
  obtain ⟨_, _, rfl⟩ := Array.mem_extract_iff_getElem.mp member
  exact Array.getElem_mem _

theorem mem_of_mem_blank {slots : Array Value} {start count : Nat} {v : Value}
    (member : v ∈ blank slots start count) : v ∈ slots ∨ v = .undefined := by
  induction count generalizing slots start with
  | zero => exact .inl member
  | succ count ih =>
    rcases ih member with old | rfl
    · exact Array.mem_or_eq_of_mem_setIfInBounds old
    · exact .inr rfl

theorem Thread.mem_of_mem_unwind {thread : Thread} {count : Nat} {v : Value}
    (member : v ∈ (thread.unwind count).slots) : v ∈ thread.slots := by
  unfold Thread.unwind at member
  dsimp only at member
  split at member
  · exact mem_of_mem_extract (Array.shrink_eq_take ▸ member)
  · exact member

theorem Thread.mem_enter {thread : Thread} {id : UInt16} {code : Code Value} {given : Array Value}
    {dest : Destination} {v : Value} (member : v ∈ (thread.enter id code given dest).slots) :
    v ∈ thread.slots ∨ v ∈ given ∨ v = .undefined := by
  simp only [Thread.enter, Array.mem_append, Array.mem_replicate] at member
  rcases member with (old | new) | free
  · exact .inl old
  · exact .inr (.inl new)
  · exact .inr (.inr free.2)

structure Realm.Covers (R : Realm) (fills : List Frame → Array Value → Prop) (callers : List Frame)
    (a : Activation) : Prop where
  holds : R.Holds a.store
  slots : fills (a.frame :: callers) a.slots

/-- A way to fill the slots of frames that suits the realm: what is pushed, assigned or given to a
new frame has to be inside, and what is popped is; a local that has been assigned is inside too. -/
structure Realm.Suits (R : Realm) (fills : List Frame → Array Value → Prop) : Prop where
  moved : ∀ {frame callers slots} (place : Nat), fills (frame :: callers) slots →
    fills ({ frame with place } :: callers) slots
  push : ∀ {callers v}, R.inside v → Sustains (R.Covers fills callers) (Exec.push v) fun _ => True
  pop : ∀ {callers}, Sustains (R.Covers fills callers) Exec.pop R.inside
  popMany : ∀ {callers} (n : Nat),
    Sustains (R.Covers fills callers) (Exec.popMany n) fun taken => ∀ v ∈ taken, R.inside v
  readLocal : ∀ {callers} (slot : UInt16),
    Sustains (R.Covers fills callers) (Exec.readLocal slot) fun v => v.isUndefined = false →
      R.inside v
  writeLocal : ∀ {callers v} (slot : UInt16), R.inside v →
    Sustains (R.Covers fills callers) (Exec.writeLocal slot v) fun _ => True
  cleared : fills [] #[]
  opened :
    ∀ {thread : Thread} (id : UInt16) {code : Code Value} {given : Array Value}
      (dest : Destination),
    fills thread.frames thread.slots → (∀ v ∈ given, R.inside v) → given.size ≤ code.locals.toNat →
    fills (thread.enter id code given dest).frames (thread.enter id code given dest).slots
  left : ∀ {frame callers slots}, fills (frame :: callers) slots →
    fills callers (slots.shrink frame.base)
  unwound : ∀ {thread : Thread} (count : Nat), fills thread.frames thread.slots →
    fills (thread.unwind count).frames (thread.unwind count).slots

namespace Exec

theorem mem_of_pairs {s : Store} {cells : List Value} {entries : List (Scalar × Value)}
    (done : pairs s cells = .ok entries) {e : Scalar × Value} (member : e ∈ entries) :
    e.2 ∈ cells := by
  fun_induction pairs s cells generalizing entries with
  | case1 key value rest ih =>
    cases named : s.key key with
    | error e => simp [named, bind, Except.bind] at done
    | ok k =>
      cases others : pairs s rest with
      | error e => simp [named, others, bind, Except.bind] at done
      | ok more =>
        obtain rfl : (k, value) :: more = entries := by
          simpa [named, others, bind, Except.bind, pure, Except.pure] using done
        rcases List.mem_cons.mp member with rfl | later
        · exact List.mem_cons_of_mem _ List.mem_cons_self
        · exact List.mem_cons_of_mem _ (List.mem_cons_of_mem _ (ih others later))
  | case2 =>
    obtain rfl := Except.ok.inj done
    contradiction

section Confined

variable {R : Realm} {fills : List Frame → Array Value → Prop} {callers : List Frame} {v : Value}

theorem confined_operate {α : Type} {op : Op α} {good : α → Prop}
    (sustains : Sustains R.Holds op good) :
    Sustains (R.Covers fills callers) (operate op) good := by
  rintro ⟨frame, slots, store⟩ covers
  have outcome := sustains store covers.holds
  simp only [operate]
  generalize op store = result at outcome ⊢
  cases outcome with
  | ok holds fine => exact .ok ⟨holds, covers.slots⟩ fine
  | error holds => exact .error ⟨holds, covers.slots⟩

theorem confined_look {α : Type} (view : Store → Except OpError α) :
    Sustains (R.Covers fills callers) (look view) fun _ => True :=
  confined_operate (Op.confined_look fun _ _ _ => trivial)

theorem confined_view {α : Type} (f : Store → α) :
    Sustains (R.Covers fills callers) (view f) fun _ => True :=
  fun _ covers => .ok covers trivial

theorem confined_deepCopy (within : R.inside v) :
    Sustains (R.Covers fills callers) (deepCopy v) R.inside :=
  fun _ covers => .ok ⟨(covers.holds.deepCopy within).1, covers.slots⟩
    (covers.holds.deepCopy within).2

theorem confined_deepCopy_lent (lent : R.Lends v) :
    Sustains (R.Covers fills callers) (deepCopy v) R.inside :=
  fun a covers => .ok ⟨(lent a.store covers.holds).1, covers.slots⟩ (lent a.store covers.holds).2

variable (suits : R.Suits fills)

include suits

theorem confined_jump (target : Nat) :
    Sustains (R.Covers fills callers) (jump target) fun _ => True :=
  fun _ covers => .ok ⟨covers.holds, suits.moved target covers.slots⟩ trivial

theorem confined_advance : Sustains (R.Covers fills callers) advance fun _ => True :=
  fun _ covers => .ok ⟨covers.holds, suits.moved _ covers.slots⟩ trivial

theorem confined_pushMany {values : Array Value} (within : ∀ v ∈ values, R.inside v) :
    Sustains (R.Covers fills callers) (pushMany values) fun _ => True := by
  unfold pushMany
  replace within : ∀ v ∈ values.toList, R.inside v := by simpa using within
  generalize values.toList = row at within ⊢
  induction row with
  | nil => exact sustains_pure trivial
  | cons v rest ih =>
    obtain ⟨first, others⟩ := List.forall_mem_cons.mp within
    exact (suits.push first).bind fun _ _ => ih others

theorem confined_initialized (slot : UInt16) :
    Sustains (R.Covers fills callers) (initialized slot) R.inside := by
  refine (suits.readLocal slot).bind fun v within => ?_
  split
  · have thrown : Sustains (R.Covers fills callers) (throw (.uninitialized slot.toNat) : Exec PUnit)
        fun _ => False :=
      sustains_throw _
    exact thrown.bind fun _ never => never.elim
  next defined => exact sustains_pure (within (Bool.eq_false_iff.mpr defined))

theorem confined_onTop {f : Value → Exec Value}
    (inner : ∀ v, R.inside v → Sustains (R.Covers fills callers) (f v) R.inside) :
    Sustains (R.Covers fills callers) (onTop f) fun _ => True :=
  suits.pop.bind fun v within => (inner v within).bind fun _ => suits.push

theorem confined_onPair {f : Value → Value → Exec Value}
    (inner : ∀ v w, R.inside v → R.inside w → Sustains (R.Covers fills callers) (f v w) R.inside) :
    Sustains (R.Covers fills callers) (onPair f) fun _ => True :=
  suits.pop.bind fun w right => suits.pop.bind fun v left => (inner v w left right).bind fun _ =>
    suits.push

theorem confined_load (slot : UInt16) :
    Sustains (R.Covers fills callers) (load slot) fun _ => True :=
  (confined_initialized suits slot).bind fun _ => suits.push

theorem confined_store (slot : UInt16) :
    Sustains (R.Covers fills callers) (store slot) fun _ => True :=
  suits.pop.bind fun _ => suits.writeLocal slot

theorem confined_dup (copied under : Nat) :
    Sustains (R.Covers fills callers) (dup copied under) fun _ => True := by
  refine (suits.popMany copied).bind fun values fine =>
    (suits.popMany under).bind fun others also => ?_
  refine (confined_pushMany suits fine).bind fun _ _ =>
    (confined_pushMany suits also).bind fun _ _ => ?_
  exact confined_pushMany suits fine

theorem confined_stepLocal (slot : UInt16) (delta : Int64) (checked : Bool) :
    Sustains (R.Covers fills callers) (stepLocal slot delta checked) fun _ => True := by
  have stepped (v : Value) :
      Sustains (R.Covers fills callers) (operate (Op.ofExcept (v.step delta)) >>= writeLocal slot)
        fun _ => True :=
    (confined_operate (Op.confined_ofExcept (v.step_immediate delta))).bind fun _ =>
      suits.writeLocal slot
  unfold stepLocal
  cases checked with
  | true => exact (confined_initialized suits slot).bind fun v _ => stepped v
  | false => exact (suits.readLocal slot).bind fun v _ => stepped v

theorem confined_newMap (count : Nat) :
    Sustains (R.Covers fills callers) (newMap count) fun _ => True := by
  refine (suits.popMany _).bind fun cells fine => ?_
  have paired : Sustains (R.Covers fills callers) (look (pairs · cells.toList))
      fun entries => ∀ e ∈ entries, R.inside e.2 := by
    refine confined_operate (Op.confined_look fun s entries done e member => fine e.2 ?_)
    exact Array.mem_toList_iff.mp (mem_of_pairs done member)
  refine paired.bind fun entries within => ?_
  refine Sustains.bind (confined_operate (Op.confined_newMap fun e member => ?_)) fun _ =>
    suits.push
  exact within e (Dict.mem_of_mem_ofList member)

end Confined

end Exec

open Exec

def Realm.Lets (R : Realm) (flow : Flow) : Prop :=
  ∀ v, flow = .ret v → R.inside v

/-- What a run takes from the literals of the program is inside. -/
structure Realm.Supplies (R : Realm) (p : Program) : Prop where
  constants : ∀ {id code}, p.code? id = some code → ∀ v ∈ code.constants, R.Lends v
  defaults : ∀ {id f}, p.function? id = some f → ∀ v ∈ f.defaults, R.Lends v
  globals : ∀ {name v}, p.global? name = some v → R.Lends v

variable {R : Realm} {fills : List Frame → Array Value → Prop} {callers : List Frame} {p : Program}

theorem confined_done {act : Exec Unit} {good : Unit → Prop}
    (sustains : Sustains (R.Covers fills callers) act good) :
    Sustains (R.Covers fills callers) (act >>= fun _ => pure Flow.next) R.Lets :=
  sustains.bind fun _ _ => sustains_pure nofun

theorem Code.constant_lent {code : Code Value} (constants : ∀ v ∈ code.constants, R.Lends v)
    (index : UInt16) : Sustains (R.Covers fills callers) (code.constant index) R.Lends := by
  unfold Code.constant
  split
  next found => exact sustains_pure (constants _ (Array.mem_of_getElem? found))
  next => exact sustains_throw _

theorem Program.readGlobal_confined (supplies : R.Supplies p) (name : Value) :
    Sustains (R.Covers fills callers) (p.readGlobal name) R.inside := by
  unfold Program.readGlobal
  split
  · refine (confined_view _).bind fun name _ => ?_
    split
    next found => exact confined_deepCopy_lent (supplies.globals found)
    next => exact sustains_throw _
  · exact sustains_throw _

section Instructions

variable (suits : R.Suits fills)

include suits

theorem Condition.holds_confined (c : Condition) :
    Sustains (R.Covers fills callers) c.holds fun _ => True := by
  cases c with
  | isTrue => exact suits.pop.bind fun _ _ => confined_view _
  | isFalse => exact suits.pop.bind fun _ _ => confined_view _
  | isNull => exact suits.pop.bind fun _ _ => sustains_pure trivial
  | isNonNull => exact suits.pop.bind fun _ _ => sustains_pure trivial
  | compare c => exact suits.pop.bind fun _ _ => suits.pop.bind fun _ _ => confined_look _
  | contains => exact suits.pop.bind fun _ _ => suits.pop.bind fun _ _ => confined_look _
  | lacks =>
    refine suits.pop.bind fun _ _ => suits.pop.bind fun _ _ => ?_
    exact (confined_look _).bind fun _ _ => sustains_pure trivial

theorem Plain.execute_confined (op : Plain) :
    Sustains (R.Covers fills callers) op.execute R.Lets := by
  cases op with
  | nop => exact sustains_pure nofun
  | push value =>
    exact confined_done (suits.push (R.immediate (by cases value <;> rfl) (by cases value <;> rfl)))
  | binary op =>
    exact confined_done (confined_onPair suits fun _ _ left right => confined_operate
      (Op.confined_binary op left right))
  | unary op =>
    exact confined_done (confined_onTop suits fun v _ => confined_operate (Op.confined_unary op v))
  | compare c =>
    refine confined_done (confined_onPair suits fun _ _ _ _ => ?_)
    exact (confined_look _).bind fun _ _ => sustains_pure (R.immediate rfl rfl)
  | load slot => exact confined_done (confined_load suits _)
  | store slot => exact confined_done (confined_store suits _)
  | pop => exact suits.pop.bind fun _ _ => sustains_pure nofun
  | popPair => exact suits.pop.bind fun _ _ => suits.pop.bind fun _ _ => sustains_pure nofun
  | dup pair under => exact confined_done (confined_dup suits _ _)
  | swap =>
    refine suits.pop.bind fun w upper => suits.pop.bind fun v lower => ?_
    exact (suits.push upper).bind fun _ _ => confined_done (suits.push lower)
  | loadIndex strict =>
    refine confined_done (confined_onPair suits fun container index mine _ => confined_operate ?_)
    cases strict with
    | true => exact Op.confined_loadIndex mine index
    | false => exact Op.confined_loadIndexOrNull mine index
  | storeIndex =>
    refine suits.pop.bind fun value fine => suits.pop.bind fun index _ => ?_
    refine suits.pop.bind fun container mine => ?_
    exact confined_done (confined_operate (Op.confined_storeIndex mine index fine))
  | stepIndex direction =>
    refine suits.pop.bind fun index _ => suits.pop.bind fun container mine => ?_
    exact confined_done (confined_operate (Op.confined_stepIndex mine index _))
  | contains =>
    refine confined_done (confined_onPair suits fun _ _ _ _ => ?_)
    exact (confined_look _).bind fun _ _ => sustains_pure (R.immediate rfl rfl)
  | length =>
    refine confined_done (confined_onTop suits fun _ _ => ?_)
    exact (confined_look _).bind fun _ _ => sustains_pure (R.immediate rfl rfl)
  | append =>
    refine suits.pop.bind fun value fine => suits.pop.bind fun container mine => ?_
    exact confined_done (confined_operate (Op.confined_append mine fine))
  | clone => exact confined_done (confined_onTop suits fun _ => confined_deepCopy)
  | ret =>
    refine suits.pop.bind fun v within => sustains_pure fun w same => ?_
    obtain rfl := Flow.ret.inj same
    exact within
  | leave =>
    refine sustains_pure fun w same => ?_
    obtain rfl := Flow.ret.inj same
    exact R.immediate rfl rfl
  | unreachable => exact sustains_throw _
  | halt => exact sustains_pure nofun

theorem Wide.execute_confined (supplies : R.Supplies p) {code : Code Value}
    (constants : ∀ v ∈ code.constants, R.Lends v) (operand : UInt16) (op : Wide) :
    Sustains (R.Covers fills callers) (op.execute p code operand) R.Lets := by
  cases op with
  | constant =>
    refine (code.constant_lent constants operand).bind fun v lent => ?_
    exact (confined_deepCopy_lent lent).bind fun _ within => confined_done (suits.push within)
  | global =>
    refine (code.constant_lent constants operand).bind fun name _ => ?_
    exact (p.readGlobal_confined supplies name).bind fun _ within =>
      confined_done (suits.push within)
  | load => exact confined_done (confined_load suits _)
  | store => exact confined_done (confined_store suits _)
  | step direction checked => exact confined_done (confined_stepLocal suits _ _ _)
  | newList =>
    refine (suits.popMany _).bind fun items fine => ?_
    exact (confined_operate (Op.confined_newList fine)).bind fun _ within =>
      confined_done (suits.push within)
  | newMap => exact confined_done (confined_newMap suits _)
  | switch strategy =>
    simp only [execute]
    split
    · exact sustains_throw _
    · exact suits.pop.bind fun _ _ => (confined_view _).bind fun _ _ => sustains_pure nofun

theorem Jump.execute_confined (target : UInt32) (op : Jump) :
    Sustains (R.Covers fills callers) (op.execute target) R.Lets := by
  cases op with
  | goto => exact sustains_pure nofun
  | branch condition =>
    refine (condition.holds_confined suits).bind fun holds _ => ?_
    split
    · exact sustains_pure nofun
    · exact sustains_pure nofun

theorem Instruction.perform_confined (supplies : R.Supplies p) {code : Code Value}
    (constants : ∀ v ∈ code.constants, R.Lends v) (i : Instruction) :
    Sustains (R.Covers fills callers) (i.perform p code) R.Lets := by
  refine (confined_advance suits).bind fun frame _ => ?_
  split
  · cases i with
    | plain op => exact op.execute_confined suits
    | short value => exact confined_done (suits.push (R.immediate rfl rfl))
    | wide op operand => exact op.execute_confined suits supplies constants operand
    | call keep function argc => exact sustains_pure nofun
    | jump op target => exact op.execute_confined suits target
  · exact sustains_throw _

end Instructions

namespace Territory

variable {T : Territory}

structure Excludes (T : Territory) (p : Program) : Prop where
  constants : ∀ {id code}, p.code? id = some code → ∀ v ∈ code.constants, T.Foreign v
  defaults : ∀ {id f}, p.function? id = some f → ∀ v ∈ f.defaults, T.Foreign v
  globals : ∀ {name v}, p.global? name = some v → T.Foreign v

theorem Excludes.supplies (excludes : T.Excludes p) : T.realm.Supplies p where
  constants found v member := (excludes.constants found v member).lends
  defaults found v member := (excludes.defaults found v member).lends
  globals found := (excludes.globals found).lends

/-- In a territory it is enough that all slots are inside, those that nobody has filled included. -/
theorem suits (T : Territory) : T.realm.Suits fun _ slots => ∀ v ∈ slots, T.inside v where
  moved _ within := within
  push {callers v} within := by
    intro a covers
    unfold push
    dsimp only
    split
    · exact .ok ⟨covers.holds, T.realm.inside_setIfInBounds within covers.slots _⟩ trivial
    · exact .error covers
  pop {callers} := by
    intro a covers
    unfold pop
    dsimp only
    split
    · split
      next v found =>
        refine .ok ⟨covers.holds, ?_⟩ (covers.slots v (Array.mem_of_getElem? found))
        exact T.realm.inside_setIfInBounds (T.immediate rfl) covers.slots _
      next => exact .error covers
    · exact .error covers
  popMany {callers} n := by
    intro a covers
    unfold popMany
    dsimp only
    split
    · refine .ok ⟨covers.holds, fun v member => ?_⟩ fun v member =>
        covers.slots v (mem_of_mem_extract member)
      rcases mem_of_mem_blank member with old | rfl
      · exact covers.slots v old
      · exact T.immediate rfl
    · exact .error covers
  readLocal {callers} slot := by
    intro a covers
    unfold readLocal
    dsimp only
    split
    · split
      next v found => exact .ok covers fun _ => covers.slots v (Array.mem_of_getElem? found)
      next => exact .error covers
    · exact .error covers
  writeLocal {callers v} slot within := by
    intro a covers
    unfold writeLocal
    dsimp only
    split
    · split
      · exact .ok ⟨covers.holds, T.realm.inside_setIfInBounds within covers.slots _⟩ trivial
      · exact .error covers
    · exact .error covers
  cleared := by simp
  opened {thread} id code given dest within fine _ v member := by
    rcases Thread.mem_enter member with old | new | rfl
    · exact within v old
    · exact fine v new
    · exact T.immediate rfl
  left within v member := within v (mem_of_mem_extract (Array.shrink_eq_take ▸ member))
  unwound _ within v member := within v (Thread.mem_of_mem_unwind member)

end Territory

end StackMachine
