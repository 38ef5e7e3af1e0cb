import StackMachine.Proofs.Layout
import StackMachine.Verify.Flow

/-! What an instruction does to its frame. An instruction that fits never looks outside its region:
if it succeeds it has exchanged the declared number of cells and touched at most the local it
writes, and if it fails it has only taken cells off. It faults only over an operand that names
something missing. -/

namespace StackMachine

namespace Exec

variable {α β : Type}

/-- What holds when a part of an instruction is over: `done` after a success, `failed` after a
failure. -/
def Ends (act : Exec α) (a : Activation) (done : α → Activation → Prop)
    (failed : RuntimeError → Activation → Prop) : Prop :=
  match act a with
  | .ok v b => done v b
  | .error e b => failed e b

section Ends

variable {act : Exec α} {next : α → Exec β} {a b : Activation} {done : α → Activation → Prop}
  {failed : RuntimeError → Activation → Prop}

theorem Ends.ok {v : α} (path : act a = .ok v b) (holds : done v b) : act.Ends a done failed := by
  simpa only [Ends, path] using holds

theorem Ends.error {e : RuntimeError} (path : act a = .error e b) (holds : failed e b) :
    act.Ends a done failed := by
  simpa only [Ends, path] using holds

theorem Ends.bind {done : β → Activation → Prop}
    (first : act.Ends a (fun v b => (next v).Ends b done failed) failed) :
    (act >>= next).Ends a done failed := by
  simp only [Ends, Bind.bind, EStateM.bind] at *
  cases path : act a <;> simp_all

theorem Ends.mono {done' : α → Activation → Prop} {failed' : RuntimeError → Activation → Prop}
    (ends : act.Ends a done failed) (onDone : ∀ v b, done v b → done' v b)
    (onFailed : ∀ e b, failed e b → failed' e b) : act.Ends a done' failed' := by
  unfold Ends at *
  cases path : act a <;> simp only [path] at ends ⊢
  · exact onDone _ _ ends
  · exact onFailed _ _ ends

end Ends

/-- Works on the store alone, and blames nobody but the operands for a failure. -/
def Quiet (act : Exec α) : Prop :=
  ∀ a : Activation, act.Ends a (fun _ b => ∃ s, b = { a with store := s })
    (fun e b => (∃ s, b = { a with store := s }) ∧ ∀ cause, e ≠ .fault cause)

theorem quiet_pure (v : α) : Quiet (pure v : Exec α) :=
  fun a => ⟨a.store, rfl⟩

theorem Quiet.bind {act : Exec α} {next : α → Exec β} (first : act.Quiet)
    (second : ∀ v, (next v).Quiet) : (act >>= next).Quiet := by
  intro a
  refine Ends.bind ((first a).mono ?_ fun e b failed => failed)
  rintro v b ⟨s, rfl⟩
  exact second v { a with store := s }

theorem quiet_operate (op : Op α) : (operate op).Quiet := by
  intro a
  unfold operate Ends
  cases path : op a.store with
  | ok v s => simp only [path]; exact ⟨s, rfl⟩
  | error cause s => simp only [path]; exact ⟨⟨s, rfl⟩, fun _ same => by cases same⟩

theorem quiet_look (view : Store → Except OpError α) : (look view).Quiet :=
  quiet_operate _

theorem quiet_view (f : Store → α) : (view f).Quiet :=
  fun a => ⟨a.store, rfl⟩

theorem quiet_deepCopy (v : Value) : (deepCopy v).Quiet :=
  fun a => ⟨(a.store.deepCopy v).2, rfl⟩

end Exec

namespace Instruction

def written? : Instruction → Option UInt16
  | plain (.store slot) => some (.ofNat slot)
  | wide .store slot => some slot
  | wide (.step _ _) slot => some slot
  | _ => none

def Leads (code : Code Value) (i : Instruction) : Flow → Prop
  | .next => i.fallsThrough = true
  | .jump target => target ∈ code.jumpTargets i
  | .call keep function argc => ∃ n : UInt8, i = call keep function n ∧ argc = n.toNat
  | .ret _ => i = plain .ret ∨ i = plain .leave
  | .halt => i = plain .halt

/-- What an instruction may fault over: an operand that names something missing, in a frame of
`locals` locals. -/
def Blames (code : Code Value) (locals : Nat) (i : Instruction) : Fault → Prop
  | .localOutOfRange n => ∃ slot, i.slot? = some slot ∧ slot.toNat = n ∧ locals ≤ n
  | .constantOutOfRange n =>
      ∃ op index, i = wide op index ∧ (op = .constant ∨ op = .global) ∧ index.toNat = n ∧
      code.constants.size ≤ n
  | .nameNotText found =>
      ∃ index v, i = wide .global index ∧ code.constants[index.toNat]? = some v ∧
      v.tag = found ∧ found ≠ .text
  | .tableOutOfRange n => ∃ strategy table, i = wide (.switch strategy) table ∧ table.toNat = n ∧
      code.tables.size ≤ n
  | .unreachable => i = plain .unreachable
  | _ => False

end Instruction

namespace Layout

def Exchanged (l : Layout) (i : Instruction) (b : Activation) : Prop :=
  ∃ put locals s, put.length = i.pushes ∧ locals.length = l.locals.length ∧
    (∀ n, (∀ slot, i.written? = some slot → slot.toNat ≠ n) → locals[n]? = l.locals[n]?) ∧
    b = { l.after i.pops put with locals }.activation s

def Reduced (l : Layout) (i : Instruction) (b : Activation) : Prop :=
  ∃ n s, n ≤ i.pops ∧ b = (l.after n []).activation s

theorem exchanged_of {l : Layout} {i : Instruction} {put : List Value} {s : Store}
    (count : put.length = i.pushes) : l.Exchanged i ((l.after i.pops put).activation s) :=
  ⟨put, l.locals, s, count, rfl, fun _ _ => rfl, rfl⟩

def Completed (l : Layout) (code : Code Value) (i : Instruction) (flow : Flow) (b : Activation) :
    Prop :=
  i.Leads code flow ∧ l.Exchanged i b

def Failed (l : Layout) (code : Code Value) (i : Instruction) (e : RuntimeError) (b : Activation) :
    Prop :=
  l.Reduced i b ∧ ∀ cause, e = .fault cause → i.Blames code l.locals.length cause

/-- The declared effect of an instruction that is no call. -/
def Effect (l : Layout) (code : Code Value) (i : Instruction) (act : Exec Flow) (s : Store) :
    Prop :=
  act.Ends (l.activation s) (l.Completed code i) (l.Failed code i)

end Layout

namespace Exec

variable {α β : Type} {l : Layout} {s : Store} {n : Nat} {done : β → Activation → Prop}
  {failed : RuntimeError → Activation → Prop}

theorem pop_bind {next : Value → Exec β} (enough : n < l.operands.length)
    (rest : ∀ v, (next v).Ends ((l.after (n + 1) []).activation s) done failed) :
    (pop >>= next).Ends ((l.after n []).activation s) done failed := by
  have some : 0 < (l.after n []).operands.length := by simp; omega
  obtain ⟨v, others, top⟩ := List.exists_cons_of_length_pos some
  refine Ends.bind (Ends.ok (pop_layout top) ?_)
  rw [Layout.after_taken]
  exact rest v

theorem popMany_bind {next : Array Value → Exec β} {m : Nat} (enough : n + m ≤ l.operands.length)
    (rest : ∀ values : Array Value, values.size = m →
      (next values).Ends ((l.after (n + m) []).activation s) done failed) :
    (popMany m >>= next).Ends ((l.after n []).activation s) done failed := by
  have some : m ≤ (l.after n []).operands.length := by simp; omega
  refine Ends.bind (Ends.ok (popMany_layout some) ?_)
  rw [Layout.after_taken]
  refine rest _ ?_
  simp
  omega

theorem Quiet.ends {act : Exec α} {next : α → Exec β} {l : Layout} (quiet : act.Quiet)
    (rest : ∀ v s, (next v).Ends (l.activation s) done failed)
    (fails : ∀ e s, (∀ cause, e ≠ .fault cause) → failed e (l.activation s)) :
    (act >>= next).Ends (l.activation s) done failed := by
  refine Ends.bind ((quiet (l.activation s)).mono ?_ ?_)
  · rintro v b ⟨s', rfl⟩
    exact rest v s'
  · rintro e b ⟨⟨s', rfl⟩, blameless⟩
    exact fails e s' blameless

theorem Quiet.last {done : α → Activation → Prop} {act : Exec α} (quiet : act.Quiet)
    (holds : ∀ v s, done v (l.activation s))
    (fails : ∀ e s, (∀ cause, e ≠ .fault cause) → failed e (l.activation s)) :
    act.Ends (l.activation s) done failed := by
  refine (quiet (l.activation s)).mono ?_ ?_
  · rintro v b ⟨s', rfl⟩
    exact holds v s'
  · rintro e b ⟨⟨s', rfl⟩, blameless⟩
    exact fails e s' blameless

theorem push_ends {done : Unit → Activation → Prop} {put : List Value} (v : Value)
    (room : put.length < n + l.free.length)
    (holds : done () ((l.after n (v :: put)).activation s)) :
    (push v).Ends ((l.after n put).activation s) done failed := by
  have some : 0 < (l.after n put).free.length := by simp; omega
  refine Ends.ok (push_layout v some) ?_
  rw [Layout.after_put]
  exact holds

theorem push_bind {next : Unit → Exec β} {put : List Value} (v : Value)
    (room : put.length < n + l.free.length)
    (rest : (next ()).Ends ((l.after n (v :: put)).activation s) done failed) :
    (push v >>= next).Ends ((l.after n put).activation s) done failed :=
  Ends.bind (push_ends v room rest)

theorem pushMany_ends {done : Unit → Activation → Prop} {put : List Value} (values : Array Value)
    (room : put.length + values.size ≤ n + l.free.length)
    (holds : done () ((l.after n (values.toList.reverse ++ put)).activation s)) :
    (pushMany values).Ends ((l.after n put).activation s) done failed := by
  have some : values.toList.length ≤ (l.after n put).free.length := by simp; omega
  refine Ends.ok (pushMany_layout values.toList some) ?_
  rw [Layout.after_put]
  exact holds

theorem onTop_bind {f : Value → Exec Value} {next : Unit → Exec β} (quiet : ∀ v, (f v).Quiet)
    (enough : 0 < l.operands.length)
    (rest : ∀ r s, (next ()).Ends ((l.after 1 [r]).activation s) done failed)
    (fails : ∀ e s, (∀ cause, e ≠ .fault cause) → failed e ((l.after 1 []).activation s)) :
    (onTop f >>= next).Ends ((l.after 0 []).activation s) done failed := by
  refine Ends.bind (pop_bind enough fun v => ?_)
  refine (quiet v).ends (fun r s => ?_) fails
  exact push_ends r (by simp only [List.length_nil]; omega) (rest r s)

theorem onPair_bind {f : Value → Value → Exec Value} {next : Unit → Exec β}
    (quiet : ∀ v w, (f v w).Quiet) (enough : 1 < l.operands.length)
    (rest : ∀ r s, (next ()).Ends ((l.after 2 [r]).activation s) done failed)
    (fails : ∀ e s, (∀ cause, e ≠ .fault cause) → failed e ((l.after 2 []).activation s)) :
    (onPair f >>= next).Ends ((l.after 0 []).activation s) done failed := by
  refine Ends.bind (pop_bind (by omega) fun w => pop_bind enough fun v => ?_)
  refine (quiet v w).ends (fun r s => ?_) fails
  exact push_ends r (by simp only [List.length_nil]; omega) (rest r s)

theorem readLocal_bind {next : Value → Exec β} (slot : UInt16)
    (rest : ∀ v, slot.toNat < l.locals.length → (next v).Ends (l.activation s) done failed)
    (fails : l.locals.length ≤ slot.toNat →
      failed (.fault (.localOutOfRange slot.toNat)) (l.activation s)) :
    (readLocal slot >>= next).Ends (l.activation s) done failed := by
  by_cases inside : slot.toNat < l.locals.length
  · exact Ends.bind (Ends.ok (readLocal_layout (List.getElem?_eq_getElem inside)) (rest _ inside))
  · have outside := Nat.le_of_not_lt inside
    exact Ends.bind (Ends.error (readLocal_outside outside) (fails outside))

theorem writeLocal_ends {done : Unit → Activation → Prop} (slot : UInt16) (v : Value)
    (holds : done () ({ l with locals := l.locals.set slot.toNat v }.activation s))
    (fails : l.locals.length ≤ slot.toNat →
      failed (.fault (.localOutOfRange slot.toNat)) (l.activation s)) :
    (writeLocal slot v).Ends (l.activation s) done failed := by
  by_cases inside : slot.toNat < l.locals.length
  · exact Ends.ok (writeLocal_layout v inside) holds
  · have outside := Nat.le_of_not_lt inside
    exact Ends.error (writeLocal_outside v outside) (fails outside)

theorem initialized_bind {next : Value → Exec β} (slot : UInt16)
    (rest : ∀ v, slot.toNat < l.locals.length → (next v).Ends (l.activation s) done failed)
    (fails : ∀ e, (∀ cause, e = .fault cause → cause = .localOutOfRange slot.toNat ∧
      l.locals.length ≤ slot.toNat) → failed e (l.activation s)) :
    (initialized slot >>= next).Ends (l.activation s) done failed := by
  refine Ends.bind (readLocal_bind slot (fun v inside => ?_) fun outside => fails _
    fun cause same => ?_)
  · by_cases unassigned : v.isUndefined = true
    · exact Ends.error (by simp only [unassigned]; rfl)
        (fails (.uninitialized slot.toNat) fun _ same => by cases same)
    · exact Ends.ok (by simp only [unassigned]; rfl) (rest v inside)
  · cases same
    exact ⟨rfl, outside⟩

end Exec

namespace Layout

variable {l : Layout} {code : Code Value} {i : Instruction} {act : Exec Flow} {s : Store}

theorem effect_of
    (ends : act.Ends ((l.after 0 []).activation s) (l.Completed code i) (l.Failed code i)) :
    l.Effect code i act s :=
  ends

theorem next_effect {put : List Value} (falls : i.fallsThrough = true)
    (count : put.length = i.pushes) :
    (return .next : Exec Flow).Ends ((l.after i.pops put).activation s) (l.Completed code i)
      (l.Failed code i) :=
  ⟨falls, exchanged_of count⟩

theorem written_effect {slot : UInt16} {v : Value} (falls : i.fallsThrough = true)
    (written : i.written? = some slot) (count : i.pushes = 0) :
    (return .next : Exec Flow).Ends
      ({ l.after i.pops [] with locals := l.locals.set slot.toNat v }.activation s)
      (l.Completed code i) (l.Failed code i) := by
  refine ⟨falls, [], l.locals.set slot.toNat v, s, count.symm, List.length_set, fun n other => ?_,
    rfl⟩
  exact List.getElem?_set_ne (other slot written)

theorem failed_effect {n : Nat} (some : n ≤ i.pops) (e : RuntimeError) (s : Store)
    (blameless : ∀ cause, e ≠ .fault cause) : l.Failed code i e ((l.after n []).activation s) :=
  ⟨⟨n, s, some, rfl⟩, fun cause same => absurd same (blameless cause)⟩

theorem blamed_effect {n : Nat} (some : n ≤ i.pops) {cause : Fault} (s : Store)
    (blame : i.Blames code l.locals.length cause) :
    l.Failed code i (.fault cause) ((l.after n []).activation s) :=
  ⟨⟨n, s, some, rfl⟩, by rintro _ ⟨⟩; exact blame⟩

end Layout

open Exec Layout

variable {l : Layout} {i : Instruction}

theorem Exec.load_effect {slot : UInt16} (code : Code Value) (s : Store)
    (falls : i.fallsThrough = true) (named : i.slot? = some slot) (pops : i.pops = 0)
    (pushes : i.pushes = 1) (room : 0 < l.free.length) :
    l.Effect code i (do Exec.load slot; return .next) s := by
  refine effect_of (Ends.bind (initialized_bind _ (fun v _ => push_ends v (by simpa using room) ?_)
    fun e missing => ?_))
  · rw [← pops]
    exact next_effect falls pushes.symm
  · refine ⟨⟨0, s, Nat.zero_le _, rfl⟩, fun cause same => ?_⟩
    obtain ⟨rfl, outside⟩ := missing cause same
    exact ⟨slot, named, rfl, outside⟩

theorem Exec.store_effect {slot : UInt16} (code : Code Value) (s : Store)
    (falls : i.fallsThrough = true) (named : i.slot? = some slot) (written : i.written? = some slot)
    (pops : i.pops = 1) (pushes : i.pushes = 0) (enough : 0 < l.operands.length) :
    l.Effect code i (do Exec.store slot; return .next) s := by
  refine effect_of
    (Ends.bind (pop_bind enough fun v => writeLocal_ends slot v ?_ fun outside => ?_))
  · rw [Nat.zero_add, ← pops]
    exact written_effect falls written pushes
  · exact blamed_effect (Nat.le_of_eq pops.symm) s ⟨slot, named, rfl, outside⟩

theorem Exec.stepLocal_effect {slot : UInt16} (code : Code Value) (s : Store) (delta : Int64)
    (checked : Bool) (falls : i.fallsThrough = true) (named : i.slot? = some slot)
    (written : i.written? = some slot) (pops : i.pops = 0) (pushes : i.pushes = 0) :
    l.Effect code i (do Exec.stepLocal slot delta checked; return .next) s := by
  have stepped : ∀ v : Value, (do
      let stepped ← operate (Op.ofExcept (v.step delta))
      writeLocal slot stepped : Exec Unit).Ends ((l.after 0 []).activation s)
      (fun _ b => (return .next : Exec Flow).Ends b (l.Completed code i) (l.Failed code i))
        (l.Failed code i) := by
    intro v
    refine (quiet_operate _).ends (fun r s => writeLocal_ends slot r ?_ fun outside => ?_) ?_
    · rw [← pops]
      exact written_effect falls written pushes
    · exact blamed_effect (Nat.zero_le _) s ⟨slot, named, rfl, outside⟩
    · exact failed_effect (Nat.zero_le _)
  apply effect_of
  cases checked with
  | true =>
    refine Ends.bind (initialized_bind slot (fun v _ => stepped v) fun e missing => ?_)
    refine ⟨⟨0, s, Nat.zero_le _, rfl⟩, fun cause same => ?_⟩
    obtain ⟨rfl, outside⟩ := missing cause same
    exact ⟨slot, named, rfl, outside⟩
  | false =>
    refine Ends.bind (readLocal_bind slot (fun v _ => stepped v) fun outside => ?_)
    exact blamed_effect (Nat.zero_le _) s ⟨slot, named, rfl, outside⟩

theorem Exec.dup_effect (code : Code Value) (s : Store) {copied under : Nat}
    (falls : i.fallsThrough = true) (pops : i.pops = copied + under)
    (pushes : i.pushes = 2 * copied + under) (enough : copied + under ≤ l.operands.length)
    (room : copied ≤ l.free.length) :
    l.Effect code i (do Exec.dup copied under; return .next) s := by
  refine effect_of (Ends.bind (popMany_bind (by omega) fun values sized => ?_))
  refine popMany_bind (by omega) fun others sized' => ?_
  refine Ends.bind (pushMany_ends values (by simp; omega) ?_)
  refine Ends.bind (pushMany_ends others (by simp; omega)
    (pushMany_ends values (by simp; omega) ?_))
  have count :
    (values.toList.reverse ++ (others.toList.reverse ++ (values.toList.reverse ++ []))).length =
      i.pushes := by
    simp [sized, sized', pushes]
    omega
  rw [Nat.zero_add, ← pops]
  exact next_effect falls count

theorem Plain.execute_effect {l : Layout} (code : Code Value) (op : Plain) (s : Store)
    (enough : op.pops ≤ l.operands.length) (room : op.pushes ≤ op.pops + l.free.length) :
    l.Effect code (.plain op) op.execute s := by
  cases op with
  | nop => exact effect_of (next_effect rfl rfl)
  | push value => exact effect_of (push_bind _ room (next_effect rfl rfl))
  | binary op =>
    exact effect_of (onPair_bind (fun v w => quiet_operate _) enough
      (fun r s => next_effect rfl rfl) (failed_effect (Nat.le_refl 2)))
  | unary op =>
    exact effect_of (onTop_bind (fun v => quiet_operate _) enough (fun r s => next_effect rfl rfl)
      (failed_effect (Nat.le_refl 1)))
  | compare c =>
    exact effect_of (onPair_bind (fun v w => (quiet_look _).bind fun _ => quiet_pure _) enough
      (fun r s => next_effect rfl rfl) (failed_effect (Nat.le_refl 2)))
  | load slot =>
    exact load_effect code s rfl rfl rfl rfl (by simp only [pops, pushes] at room; omega)
  | store slot => exact store_effect code s rfl rfl rfl rfl rfl enough
  | pop => exact effect_of (pop_bind enough fun v => next_effect rfl rfl)
  | popPair =>
    refine effect_of (pop_bind (Nat.lt_of_succ_lt enough) fun w => pop_bind enough fun v => ?_)
    exact next_effect rfl rfl
  | dup pair under =>
    exact dup_effect code s rfl rfl rfl enough (by simp only [pops, pushes] at room; omega)
  | swap =>
    refine effect_of (pop_bind (Nat.lt_of_succ_lt enough) fun w => pop_bind enough fun v => ?_)
    exact push_bind w (by simp only [List.length_nil]; omega)
      (push_bind v (by simp only [List.length_cons, List.length_nil]; omega) (next_effect rfl rfl))
  | loadIndex strict =>
    exact effect_of (onPair_bind (fun v w => quiet_operate _) enough
      (fun r s => next_effect rfl rfl) (failed_effect (Nat.le_refl 2)))
  | storeIndex =>
    simp only [pops] at enough
    refine effect_of (pop_bind (by omega) fun value => pop_bind (by omega) fun index => pop_bind
      enough fun v => ?_)
    exact (quiet_operate _).ends (fun r s => next_effect rfl rfl) (failed_effect (Nat.le_refl 3))
  | stepIndex direction =>
    refine effect_of (pop_bind (Nat.lt_of_succ_lt enough) fun index => pop_bind enough
      fun container => ?_)
    exact (quiet_operate _).ends (fun r s => next_effect rfl rfl) (failed_effect (Nat.le_refl 2))
  | contains =>
    exact effect_of (onPair_bind (fun v w => (quiet_look _).bind fun _ => quiet_pure _) enough
      (fun r s => next_effect rfl rfl) (failed_effect (Nat.le_refl 2)))
  | length =>
    exact effect_of (onTop_bind (fun v => (quiet_look _).bind fun _ => quiet_pure _) enough
      (fun r s => next_effect rfl rfl) (failed_effect (Nat.le_refl 1)))
  | append =>
    refine effect_of (pop_bind (Nat.lt_of_succ_lt enough) fun value => pop_bind enough
      fun container => ?_)
    exact (quiet_operate _).ends (fun r s => next_effect rfl rfl) (failed_effect (Nat.le_refl 2))
  | clone =>
    exact effect_of (onTop_bind quiet_deepCopy enough (fun r s => next_effect rfl rfl)
      (failed_effect (Nat.le_refl 1)))
  | ret => exact effect_of (pop_bind enough fun v => ⟨.inl rfl, exchanged_of rfl⟩)
  | leave => exact effect_of ⟨.inr rfl, exchanged_of rfl⟩
  | unreachable => exact blamed_effect (Nat.zero_le _) s rfl
  | halt => exact effect_of ⟨rfl, exchanged_of rfl⟩

theorem Condition.holds_ends (c : Condition) (s : Store) {done : Bool → Activation → Prop}
    {failed : RuntimeError → Activation → Prop} (enough : c.arity ≤ l.operands.length)
    (rest : ∀ b s, done b ((l.after c.arity []).activation s))
    (fails : ∀ e s, (∀ cause, e ≠ .fault cause) → failed e ((l.after c.arity []).activation s)) :
    c.holds.Ends ((l.after 0 []).activation s) done failed := by
  cases c with
  | isTrue => exact pop_bind enough fun v => rest _ s
  | isFalse => exact pop_bind enough fun v => rest _ s
  | isNull => exact pop_bind enough fun v => rest _ s
  | isNonNull => exact pop_bind enough fun v => rest _ s
  | compare c =>
    refine pop_bind (Nat.lt_of_succ_lt enough) fun w => pop_bind enough fun v => ?_
    exact (quiet_look _).last rest fails
  | contains =>
    refine pop_bind (Nat.lt_of_succ_lt enough) fun item => pop_bind enough fun container => ?_
    exact (quiet_look _).last rest fails
  | lacks =>
    refine pop_bind (Nat.lt_of_succ_lt enough) fun item => pop_bind enough fun container => ?_
    exact ((quiet_look _).bind fun _ => quiet_pure _).last rest fails

theorem Jump.execute_effect (code : Code Value) (op : Jump) (target : UInt32) (s : Store)
    (enough : op.pops ≤ l.operands.length) :
    l.Effect code (.jump op target) (op.execute target) s := by
  have leads : (Instruction.jump op target).Leads code (.jump target.toNat) := by
    simp [Instruction.Leads, Code.jumpTargets, Instruction.jumpTarget?]
  cases op with
  | goto => exact effect_of ⟨leads, exchanged_of rfl⟩
  | branch condition =>
    refine effect_of
      (Ends.bind (condition.holds_ends s enough (fun b s => ?_) (failed_effect (Nat.le_refl _))))
    cases b with
    | true => exact ⟨leads, exchanged_of rfl⟩
    | false => exact ⟨rfl, exchanged_of rfl⟩

theorem SwitchTable.linearTarget_mem (t : SwitchTable) (s : Store) (constants : Array Value)
    (selector : Value) :
    t.linearTarget s constants selector ∈ t.targets.toList ∨
      t.linearTarget s constants selector = t.default := by
  unfold linearTarget
  split
  · exact .inr rfl
  dsimp only
  split
  next key target hit =>
    exact .inl (List.of_mem_zip (List.mem_of_find?_eq_some hit)).2
  · exact .inr rfl

theorem SwitchTable.search_mem (t : SwitchTable) (s : Store) (constants : Array Value)
    (selector : Value) (fuel low high : Nat) :
    t.search s constants selector fuel low high ∈ t.targets.toList ∨
      t.search s constants selector fuel low high = t.default := by
  induction fuel generalizing low high with
  | zero => exact .inr rfl
  | succ fuel ih =>
    unfold search
    split
    · simp only
      split
      · exact .inr rfl
      · split
        · exact ih _ _
        · exact ih _ _
        · by_cases inside : low + (high - low) / 2 < t.targets.size
          · exact .inl (by simp [inside])
          · exact .inr (by simp [inside])
        · exact .inr rfl
    · exact .inr rfl

theorem Strategy.target_mem (strategy : Strategy) (t : SwitchTable) (constants : Array Value)
    (selector : Value) (s : Store) :
    strategy.target t constants selector s ∈ t.targets.toList ∨
      strategy.target t constants selector s = t.default := by
  cases strategy with
  | linear => exact t.linearTarget_mem s constants selector
  | binary =>
    simp only [target, SwitchTable.binaryTarget]
    split
    · exact .inr rfl
    · exact t.search_mem s constants selector _ _ _

theorem Code.constant_bind {β : Type} (code : Code Value) (index : UInt16) {next : Value → Exec β}
    {a : Activation} {done : β → Activation → Prop} {failed : RuntimeError → Activation → Prop}
    (rest : ∀ v, code.constants[index.toNat]? = some v → (next v).Ends a done failed)
    (fails : code.constants.size ≤ index.toNat →
      failed (.fault (.constantOutOfRange index.toNat)) a) :
    (code.constant index >>= next).Ends a done failed := by
  cases there : code.constants[index.toNat]? with
  | some v => exact Ends.bind (Ends.ok (by simp only [Code.constant, there]; rfl) (rest v there))
  | none =>
    refine Ends.bind (Ends.error (by simp only [Code.constant, there]; rfl) (fails ?_))
    simpa using there

theorem Program.readGlobal_effect (p : Program) (code : Code Value) (index : UInt16) (name : Value)
    (s : Store) (there : code.constants[index.toNat]? = some name) (room : 0 < l.free.length) :
    l.Effect code (.wide .global index) (do Exec.push (← p.readGlobal name); return .next) s := by
  have pushed : ∀ (v : Value) (s : Store), (do Exec.push v; return .next : Exec Flow).Ends
    ((l.after 0 []).activation s)
      (l.Completed code (.wide .global index)) (l.Failed code (.wide .global index)) :=
    fun v s => push_bind v (by simpa using room) (next_effect rfl rfl)
  cases name with
  | text ref =>
    refine effect_of
      (Ends.bind ((quiet_view _).ends (fun name s => ?_) (failed_effect (Nat.zero_le _))))
    cases p.global? name with
    | some v => exact (quiet_deepCopy v).last pushed (failed_effect (Nat.zero_le _))
    | none => exact failed_effect (Nat.zero_le _) _ s fun cause same => by cases same
  | _ =>
    exact effect_of
      (Ends.bind (blamed_effect (Nat.zero_le _) s ⟨index, _, rfl, there, rfl, by simp [Value.tag]⟩))

theorem Wide.execute_effect (p : Program) (code : Code Value) (op : Wide) (operand : UInt16)
    (s : Store) (enough : op.pops operand ≤ l.operands.length)
    (room : op.pushes ≤ op.pops operand + l.free.length) :
    l.Effect code (.wide op operand) (op.execute p code operand) s := by
  cases op with
  | constant =>
    refine effect_of (code.constant_bind operand (fun v there => ?_) fun outside => ?_)
    · exact (quiet_deepCopy v).ends (fun r s => push_bind r room (next_effect rfl rfl))
        (failed_effect (Nat.zero_le _))
    · exact blamed_effect (Nat.zero_le _) s ⟨.constant, operand, rfl, .inl rfl, rfl, outside⟩
  | global =>
    refine effect_of (code.constant_bind operand (fun v there => ?_) fun outside => ?_)
    · have some : 0 < l.free.length := by simp only [pops, pushes] at room; omega
      exact p.readGlobal_effect (l := l) code operand v s there some
    · exact blamed_effect (Nat.zero_le _) s ⟨.global, operand, rfl, .inr rfl, rfl, outside⟩
  | load => exact load_effect code s rfl rfl rfl rfl (by simp only [pops, pushes] at room; omega)
  | store => exact store_effect code s rfl rfl rfl rfl rfl enough
  | step direction checked => exact stepLocal_effect code s _ checked rfl rfl rfl rfl rfl
  | newList =>
    simp only [pops, pushes] at enough room
    refine effect_of (popMany_bind (by simpa using enough) fun items _ => ?_)
    rw [Nat.zero_add]
    exact (quiet_operate _).ends (fun r s => push_bind r room (next_effect rfl rfl))
      (failed_effect (Nat.le_refl _))
  | newMap =>
    simp only [pops, pushes] at enough room
    refine effect_of (Ends.bind (popMany_bind (by simpa using enough) fun cells _ => ?_))
    rw [Nat.zero_add]
    refine (quiet_look _).ends (fun entries s => ?_) (failed_effect (Nat.le_refl _))
    exact (quiet_operate _).ends (fun r s => push_ends r room (next_effect rfl rfl))
      (failed_effect (Nat.le_refl _))
  | switch strategy =>
    unfold Wide.execute
    cases there : code.tables[operand.toNat]? with
    | none =>
      exact effect_of (blamed_effect (Nat.zero_le _) s
        ⟨strategy, operand, rfl, rfl, by simpa using there⟩)
    | some table =>
      refine effect_of (pop_bind enough fun selector => ?_)
      refine Ends.bind (Ends.ok rfl ⟨?_, exchanged_of rfl⟩)
      simp only [Instruction.Leads, Code.jumpTargets, there]
      exact List.mem_append.mpr ((strategy.target_mem table code.constants selector s).imp
        (fun member => List.mem_map_of_mem member)
          fun same => by rw [same]; exact List.mem_singleton_self _)

theorem Instruction.execute_effect (p : Program) (code : Code Value) (s : Store)
    (noCall : ∀ keep function argc, i ≠ .call keep function argc) (fits : l.frame.fits i = true) :
    l.Effect code i (i.execute p code) s := by
  obtain ⟨enough, room⟩ := (l.fits_iff i).mp fits
  cases i with
  | plain op => exact op.execute_effect code s enough room
  | short value => exact effect_of (push_bind _ room (next_effect rfl rfl))
  | wide op operand => exact op.execute_effect p code operand s enough room
  | call keep function argc => exact absurd rfl (noCall keep function argc)
  | jump op target => exact op.execute_effect code target s enough

end StackMachine
