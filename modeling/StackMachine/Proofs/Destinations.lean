import StackMachine.Machine.Step

/-! Where the result of a frame goes is of no concern to the instructions of the frame: they do the
same, whatever the destination is, and leave it as it is. -/

namespace StackMachine

def Activation.toward (a : Activation) (dest : Destination) : Activation :=
  { a with frame := { a.frame with dest } }

namespace Exec

variable {α β : Type}

/-- Does the same whatever the destination of the frame is, and keeps it. -/
def Blind (act : Exec α) : Prop :=
  ∀ (a : Activation) (dest : Destination), act (a.toward dest) =
    match act a with
    | .ok v b => .ok v (b.toward dest)
    | .error e b => .error e (b.toward dest)

theorem blind_pure (v : α) : Blind (pure v : Exec α) :=
  fun _ _ => rfl

theorem blind_throw (e : RuntimeError) : Blind (throw e : Exec α) :=
  fun _ _ => rfl

theorem Blind.bind {act : Exec α} {next : α → Exec β} (first : act.Blind)
    (second : ∀ v, (next v).Blind) : (act >>= next).Blind := by
  intro a dest
  simp only [Bind.bind, EStateM.bind, first a dest]
  cases act a with
  | ok v b => exact second v b dest
  | error e b => rfl

theorem blind_operate (op : Op α) : (operate op).Blind := by
  intro a dest
  unfold operate Activation.toward
  dsimp only
  cases op a.store <;> rfl

theorem blind_look (view : Store → Except OpError α) : (look view).Blind :=
  blind_operate _

theorem blind_view (f : Store → α) : (view f).Blind :=
  fun _ _ => rfl

theorem blind_deepCopy (v : Value) : (deepCopy v).Blind :=
  fun _ _ => rfl

theorem blind_jump (target : Nat) : (jump target).Blind :=
  fun _ _ => rfl

theorem blind_push (v : Value) : (push v).Blind := by
  intro a dest
  unfold push Activation.toward
  dsimp only
  split <;> rfl

theorem blind_pop : pop.Blind := by
  intro a dest
  unfold pop Activation.toward Frame.bottom
  dsimp only
  split
  · split <;> rfl
  · rfl

theorem blind_popMany (n : Nat) : (popMany n).Blind := by
  intro a dest
  unfold popMany Activation.toward Frame.bottom
  dsimp only
  split <;> rfl

theorem blind_pushMany (values : Array Value) : (pushMany values).Blind := by
  unfold pushMany
  induction values.toList with
  | nil => exact blind_pure ()
  | cons v rest ih => exact (blind_push v).bind fun _ => ih

theorem blind_readLocal (slot : UInt16) : (readLocal slot).Blind := by
  intro a dest
  unfold readLocal Activation.toward
  dsimp only
  split
  · split <;> rfl
  · rfl

theorem blind_writeLocal (slot : UInt16) (v : Value) : (writeLocal slot v).Blind := by
  intro a dest
  unfold writeLocal Activation.toward
  dsimp only
  split
  · split <;> rfl
  · rfl

theorem blind_initialized (slot : UInt16) : (initialized slot).Blind := by
  refine (blind_readLocal slot).bind fun v => ?_
  split
  · exact (blind_throw _).bind fun _ => blind_pure v
  · exact blind_pure v

theorem blind_onTop {f : Value → Exec Value} (inner : ∀ v, (f v).Blind) : (onTop f).Blind :=
  blind_pop.bind fun v => (inner v).bind blind_push

theorem blind_onPair {f : Value → Value → Exec Value} (inner : ∀ v w, (f v w).Blind) :
    (onPair f).Blind :=
  blind_pop.bind fun w => blind_pop.bind fun v => (inner v w).bind blind_push

theorem blind_load (slot : UInt16) : (load slot).Blind :=
  (blind_initialized slot).bind blind_push

theorem blind_store (slot : UInt16) : (store slot).Blind :=
  blind_pop.bind (blind_writeLocal slot)

theorem blind_stepLocal (slot : UInt16) (delta : Int64) (checked : Bool) :
    (stepLocal slot delta checked).Blind := by
  have stepped (v : Value) : (operate (Op.ofExcept (v.step delta)) >>= writeLocal slot).Blind :=
    (blind_operate _).bind (blind_writeLocal slot)
  unfold stepLocal
  cases checked with
  | true => exact (blind_initialized slot).bind stepped
  | false => exact (blind_readLocal slot).bind stepped

end Exec

open Exec

theorem Condition.holds_blind (c : Condition) : c.holds.Blind := by
  cases c with
  | isTrue => exact blind_pop.bind fun v => blind_view _
  | isFalse => exact blind_pop.bind fun v => blind_view _
  | isNull => exact blind_pop.bind fun v => blind_pure _
  | isNonNull => exact blind_pop.bind fun v => blind_pure _
  | compare c => exact blind_pop.bind fun w => blind_pop.bind fun v => blind_look _
  | contains => exact blind_pop.bind fun item => blind_pop.bind fun container => blind_look _
  | lacks =>
    exact blind_pop.bind fun item => blind_pop.bind fun container => (blind_look _).bind fun _ =>
      blind_pure _

theorem Plain.execute_blind (op : Plain) : op.execute.Blind := by
  have done {act : Exec Unit} (blind : act.Blind) : (act >>= fun _ => pure Flow.next).Blind :=
    blind.bind fun _ => blind_pure _
  cases op with
  | nop => exact blind_pure _
  | push value => exact done (blind_push _)
  | binary op => exact done (blind_onPair fun v w => blind_operate _)
  | unary op => exact done (blind_onTop fun v => blind_operate _)
  | compare c => exact done (blind_onPair fun v w => (blind_look _).bind fun _ => blind_pure _)
  | load slot => exact done (blind_load _)
  | store slot => exact done (blind_store _)
  | pop => exact blind_pop.bind fun _ => blind_pure _
  | popPair => exact blind_pop.bind fun _ => blind_pop.bind fun _ => blind_pure _
  | dup pair under =>
    refine done ((blind_popMany _).bind fun values => (blind_popMany _).bind fun others => ?_)
    exact (blind_pushMany values).bind fun _ => (blind_pushMany others).bind fun _ =>
      blind_pushMany values
  | swap =>
    refine blind_pop.bind fun w => blind_pop.bind fun v => (blind_push w).bind fun _ => ?_
    exact done (blind_push v)
  | loadIndex strict => exact done (blind_onPair fun container index => blind_operate _)
  | storeIndex =>
    refine blind_pop.bind fun value => blind_pop.bind fun index => blind_pop.bind fun container =>
      ?_
    exact done (blind_operate _)
  | stepIndex direction =>
    exact blind_pop.bind fun index => blind_pop.bind fun container => done (blind_operate _)
  | contains =>
    exact done (blind_onPair fun container item => (blind_look _).bind fun _ => blind_pure _)
  | length => exact done (blind_onTop fun v => (blind_look _).bind fun _ => blind_pure _)
  | append =>
    exact blind_pop.bind fun value => blind_pop.bind fun container => done (blind_operate _)
  | clone => exact done (blind_onTop blind_deepCopy)
  | ret => exact blind_pop.bind fun v => blind_pure _
  | leave => exact blind_pure _
  | unreachable => exact blind_throw _
  | halt => exact blind_pure _

theorem Code.constant_blind (code : Code Value) (index : UInt16) : (code.constant index).Blind := by
  unfold Code.constant
  split
  · exact blind_pure _
  · exact blind_throw _

theorem Program.readGlobal_blind (p : Program) (name : Value) : (p.readGlobal name).Blind := by
  unfold Program.readGlobal
  split
  · refine (blind_view _).bind fun name => ?_
    split
    · exact blind_deepCopy _
    · exact blind_throw _
  · exact blind_throw _

theorem Wide.execute_blind (p : Program) (code : Code Value) (operand : UInt16) (op : Wide) :
    (op.execute p code operand).Blind := by
  have done {act : Exec Unit} (blind : act.Blind) : (act >>= fun _ => pure Flow.next).Blind :=
    blind.bind fun _ => blind_pure _
  cases op with
  | constant =>
    exact (code.constant_blind operand).bind fun v => (blind_deepCopy v).bind fun v =>
      done (blind_push v)
  | global =>
    exact (code.constant_blind operand).bind fun name => (p.readGlobal_blind name).bind fun v =>
      done (blind_push v)
  | load => exact done (blind_load _)
  | store => exact done (blind_store _)
  | step direction checked => exact done (blind_stepLocal _ _ _)
  | newList =>
    exact (blind_popMany _).bind fun items => (blind_operate _).bind fun v => done (blind_push v)
  | newMap =>
    refine done ((blind_popMany _).bind fun cells => (blind_look _).bind fun entries => ?_)
    exact (blind_operate _).bind blind_push
  | switch strategy =>
    simp only [execute]
    split
    · exact blind_throw _
    · exact blind_pop.bind fun selector => (blind_view _).bind fun target => blind_pure _

theorem Jump.execute_blind (target : UInt32) (op : Jump) : (op.execute target).Blind := by
  cases op with
  | goto => exact blind_pure _
  | branch condition =>
    refine condition.holds_blind.bind fun holds => ?_
    split
    · exact blind_pure _
    · exact blind_pure _

theorem Instruction.execute_blind (p : Program) (code : Code Value) (i : Instruction) :
    (i.execute p code).Blind := by
  cases i with
  | plain op => exact op.execute_blind
  | short value => exact (blind_push _).bind fun _ => blind_pure _
  | wide op operand => exact op.execute_blind p code operand
  | call keep function argc => exact blind_pure _
  | jump op target => exact op.execute_blind target

theorem Instruction.perform_blind (p : Program) (code : Code Value) (i : Instruction) :
    (i.perform p code).Blind := by
  intro a dest
  let onward : Activation := { a with frame := { a.frame with place := a.frame.place + 1 } }
  have plain : i.perform p code a =
      (if onward.frame.fits i then i.execute p code else Exec.fault (.doesNotFit i)) onward := rfl
  have turned : i.perform p code (a.toward dest) =
      (if onward.frame.fits i then i.execute p code else Exec.fault (.doesNotFit i))
        (onward.toward dest) := rfl
  rw [plain, turned]
  split
  · exact i.execute_blind p code onward dest
  · exact blind_throw _ onward dest

end StackMachine
