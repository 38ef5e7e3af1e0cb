import StackMachine.Native.Host
import StackMachine.Proofs.Poisoning

/-! How a fault comes to the host. From the moment it is on record, the call from the host ends in
finitely many steps, and bytecode that is still open only passes the fault on. So the host is told
of it, unless the outermost native that waits hides it: by a value, where the host called that
native itself, or by an error of another kind. -/

namespace StackMachine

namespace Machine

variable {p : Program} {limits : Limits} {machine before start other : Machine}

section Order

theorem Reaches.trans (first : Reaches p limits start machine)
    (second : Reaches p limits machine other) : Reaches p limits start other := by
  induction second with
  | start => exact first
  | step _ ih => exact ih.step

theorem Reaches.onward (reaches : Reaches p limits start machine) :
    machine = start ∨ Reaches p limits (start.next p limits) machine := by
  induction reaches with
  | start => exact .inl rfl
  | step _ ih =>
    rcases ih with rfl | later
    · exact .inr .start
    · exact .inr later.step

theorem Reaches.total (one : Reaches p limits start machine) (two : Reaches p limits start other) :
    Reaches p limits machine other ∨ Reaches p limits other machine := by
  induction one with
  | start => exact .inl two
  | step _ ih =>
    rcases ih with ahead | behind
    · rcases ahead.onward with rfl | later
      · exact .inr (.step .start)
      · exact .inl later
    · exact .inr behind.step

theorem next_finished {result : Except CallError Value} (finished : machine.result? = some result) :
    machine.next p limits = machine := by
  obtain ⟨answers, idle⟩ := result?_eq_some finished
  simp only [next, answers, answer, idle]

theorem Reaches.eq_of_finished {result : Except CallError Value}
    (finished : start.result? = some result) (reaches : Reaches p limits start machine) :
    machine = start := by
  induction reaches with
  | start => rfl
  | step _ ih => rw [ih, next_finished finished]

theorem Reaches.before_end {result : Except CallError Value}
    (reaches : Reaches p limits start machine) (ends : Reaches p limits start other)
    (finished : other.result? = some result) : Reaches p limits machine other := by
  rcases reaches.total ends with before | after
  · exact before
  · rw [after.eq_of_finished finished]
    exact .start

theorem Reaches.barred (reaches : Reaches p limits start machine) (first : start.Barred) :
    machine.Barred := by
  induction reaches with
  | start => exact first
  | step _ ih => exact next_barred ih

end Order

section Ending

def Ends (p : Program) (limits : Limits) (machine : Machine) : Prop :=
  ∃ last result, Reaches p limits machine last ∧ last.result? = some result

theorem Ends.of_next (ends : Ends p limits (machine.next p limits)) : Ends p limits machine := by
  obtain ⟨last, result, reaches, finished⟩ := ends
  exact ⟨last, result, (Reaches.step .start).trans reaches, finished⟩

/-- If the machine ends from every answer to the natives that wait, it ends from any state in which
they wait. -/
theorem ends_of_answers (recorded : machine.thread.fault ≠ none) (idle : machine.control ≠ .execute)
    (answered : ∀ thread world base result, thread.fault ≠ none →
      Ends p limits
      { thread, world, waiting := machine.waiting, base, control := .answer result }) :
    Ends p limits machine := by
  obtain ⟨error, known⟩ := Option.ne_none_iff_exists'.mp recorded
  obtain ⟨thread, world, waiting, base, control⟩ := machine
  cases control with
  | enter callee args =>
    obtain ⟨told, refused, _⟩ := next_refused p limits rfl known
    refine .of_next ?_
    rw [refused]
    exact answered _ _ _ _ recorded
  | execute => exact absurd rfl idle
  | settle outcome =>
    have still : (next p limits ⟨thread, world, waiting, base, .settle outcome⟩).thread.fault ≠
        none :=
      next_fault_ne recorded
    refine .of_next ?_
    cases outcome with
    | ok v => exact answered _ _ _ _ still
    | error failure => exact answered _ _ _ _ still
  | answer result => exact answered _ _ _ _ recorded

/-- With a fault on record every native that waits has its turn, asks for calls in vain and is
done. -/
theorem ends_of_fault (waiting : List Suspended) (machine : Machine)
    (waits : machine.waiting = waiting) (recorded : machine.thread.fault ≠ none)
    (idle : machine.control ≠ .execute) : Ends p limits machine := by
  induction waiting generalizing machine with
  | nil =>
    refine ends_of_answers recorded idle fun thread world base result _ => ?_
    rw [waits]
    exact ⟨_, result, .start, rfl⟩
  | cons native others ih =>
    refine ends_of_answers recorded idle fun thread world base result still => .of_next ?_
    simp only [waits, next, answer]
    -- The native is a tree of the calls that it can still ask for.
    generalize native.resume result world = step
    generalize native.base = base
    induction step generalizing thread base with
    | reply world reply =>
      obtain ⟨error, known⟩ := Option.ne_none_iff_exists'.mp still
      rw [proceed_reply known]
      exact ih _ rfl still (by simp)
    | call world callee args resume ih' =>
      refine ends_of_answers still (by simp [proceed]) fun thread world _ result still =>
        .of_next ?_
      exact ih' result world thread still base

end Ending

section Telling

/-- The outermost native that waits is done, and the host is not going to be told of the fault on
record. -/
def Hides (machine : Machine) : Prop :=
  ∃ outcome error, machine.Returns [] outcome ∧ machine.thread.fault = some error ∧
    outcome ≠ .error (.rethrown error) ∧ ∀ cause, outcome ≠ .error (.runtime (.fault cause))

inductive Stage (error : CallError) (machine : Machine) : Prop
  | inner (waits : machine.waiting ≠ []) (idle : machine.control ≠ .execute)
  | rethrows (bottom : machine.waiting = [])
    (settles : machine.control = .settle (.error (.rethrown error)))
  | raises (bottom : machine.waiting = []) {cause : Fault}
    (settles : machine.control = .settle (.error (.runtime (.fault cause))))
  | answers (bottom : machine.waiting = []) (answers : machine.control = .answer (.error error))
    (crashed : machine.thread.status = .crashed)

/-- The fault `error` is on record, and so far the host is going to be told of it. -/
structure Tells (error : CallError) (machine : Machine) : Prop where
  recorded : machine.thread.fault = some error
  genuine : error.isFault = true
  stage : machine.Stage error

/-- The fault `error` is on record, and the host's own call ends with something else. -/
structure Sinks (error : CallError) (machine : Machine) : Prop where
  recorded : machine.thread.fault = some error
  genuine : error.isFault = true
  bottom : machine.waiting = []
  unsaid : (∃ outcome, machine.control = .settle outcome ∧ outcome ≠ .error (.rethrown error) ∧
    ∀ cause, outcome ≠ .error (.runtime (.fault cause))) ∨
      ∃ result, machine.control = .answer result ∧
    result ≠ .error error

theorem settle_tells {cause : Fault}
    (settles : machine.control = .settle (.error (.runtime (.fault cause)))) :
    Tells (machine.report p (.runtime (.fault cause))) (machine.next p limits) := by
  obtain ⟨thread, world, waiting, base, control⟩ := machine
  obtain rfl : control = .settle (.error (.runtime (.fault cause))) := settles
  refine ⟨Thread.unwind_fault _ _, rfl, ?_⟩
  cases waiting with
  | nil => exact .answers rfl rfl (Thread.unwind_status _ _)
  | cons native others => exact .inner (by simp [next, settle]) (by simp [next, settle])

theorem next_tells {error : CallError} (clean : machine.thread.fault = none)
    (recorded : (machine.next p limits).thread.fault = some error) :
    Tells error (machine.next p limits) := by
  rcases next_fault p limits machine with same | ⟨cause, settles, replaced⟩
  · rw [same, clean] at recorded
    contradiction
  · obtain rfl := Option.some.inj (replaced.symm.trans recorded)
    exact settle_tells settles

/-- As long as nothing hides it, the fault on record, or one that takes its place, is on its way to
the host. -/
theorem Tells.next {error : CallError} (tells : Tells error machine) (honest : ¬ machine.Hides) :
    ∃ error, Tells error (machine.next p limits) := by
  obtain ⟨recorded, genuine, stage⟩ := tells
  cases stage with
  | rethrows bottom settles =>
    obtain ⟨thread, world, waiting, base, control⟩ := machine
    obtain rfl : control = .settle (.error (.rethrown error)) := settles
    exact ⟨error, (Thread.unwind_fault _ _).trans recorded, genuine,
      .answers bottom rfl (Thread.unwind_status _ _)⟩
  | raises _ settles => exact ⟨_, settle_tells settles⟩
  | answers bottom answers crashed =>
    have stays : machine.next p limits = machine := by
      simp only [Machine.next, answers, answer, bottom]
    rw [stays]
    exact ⟨error, recorded, genuine, .answers bottom answers crashed⟩
  | inner waits idle =>
    cases control : machine.control with
    | enter callee args =>
      obtain ⟨told, refused, _⟩ := next_refused p limits control recorded
      rw [refused]
      exact ⟨error, recorded, genuine, .inner waits (by simp)⟩
    | execute => exact absurd control idle
    | settle outcome =>
      rcases next_fault p limits machine with same | ⟨cause, settles, _⟩
      · refine ⟨error, same.trans recorded, genuine, ?_⟩
        simp only [Machine.next, control]
        cases outcome with
        | ok v => exact .inner waits (by simp [settle])
        | error failure => exact .inner waits (by simp [settle])
      · exact ⟨_, settle_tells settles⟩
    | answer result =>
      obtain ⟨native, others, waiting⟩ := List.exists_cons_of_ne_nil waits
      cases resumes : native.resume result machine.world with
      | call world callee args resume =>
        simp only [Machine.next, control, answer, waiting, resumes, proceed]
        exact ⟨error, recorded, genuine, .inner (by simp) (by simp)⟩
      | reply world reply =>
        have returns : machine.Returns others _ :=
          ⟨native, result, world, reply, error, waiting, control, recorded, resumes, rfl⟩
        obtain ⟨world, base, settled⟩ := next_returns p limits returns
        rw [settled]
        refine ⟨error, recorded, genuine, ?_⟩
        cases others with
        | cons => exact .inner (by simp) (by simp)
        | nil =>
          -- The host's own call is settled, by the fault or by a further one.
          by_cases passed : reply.verdict native.name native.landing error =
            .error (.rethrown error)
          · exact .rethrows rfl (by rw [passed])
          · obtain ⟨cause, raised⟩ : ∃ cause, reply.verdict native.name native.landing error =
                .error (.runtime (.fault cause)) :=
              Classical.byContradiction fun none =>
                honest ⟨_, error, returns, recorded, passed, not_exists.mp none⟩
            exact .raises rfl (by rw [raised])

theorem Sinks.next {error : CallError} (sinks : Sinks error machine) :
    Sinks error (machine.next p limits) := by
  obtain ⟨recorded, genuine, bottom,
    ⟨outcome, settles, other, unraised⟩ | ⟨result, answers, other⟩⟩ := sinks
  · have same : (machine.next p limits).thread.fault = machine.thread.fault := by
      refine (next_fault p limits machine).resolve_right ?_
      rintro ⟨cause, again, _⟩
      exact unraised cause (Control.settle.inj (settles.symm.trans again))
    refine ⟨same.trans recorded, genuine, ?_, .inr ?_⟩
    · simp only [Machine.next, settles]
      cases outcome <;> exact bottom
    · simp only [Machine.next, settles]
      cases outcome with
      | ok v => exact ⟨.ok v, rfl, by simp⟩
      | error failure =>
        refine ⟨_, rfl, fun told => ?_⟩
        replace told := Except.error.inj told
        cases failure with
        | rethrown told' => exact other (by rw [← told]; rfl)
        | runtime cause =>
          cases cause with
          | fault cause => exact unraised cause rfl
          | _ =>
            rw [← told] at genuine
            contradiction
  · have stays : machine.next p limits = machine := by
      simp only [Machine.next, answers, answer, bottom]
    rw [stays]
    exact ⟨recorded, genuine, bottom, .inr ⟨result, answers, other⟩⟩

theorem Hides.sinks {error : CallError} (hides : machine.Hides) (tells : Tells error machine) :
    Sinks error (machine.next p limits) := by
  obtain ⟨outcome, known, returns, recorded, other, unraised⟩ := hides
  obtain rfl : known = error := Option.some.inj (recorded.symm.trans tells.recorded)
  obtain ⟨world, base, settled⟩ := next_returns p limits returns
  rw [settled]
  exact ⟨recorded, tells.genuine, rfl, .inl ⟨outcome, rfl, other, unraised⟩⟩

/-- Where a call from the host stands: no fault is on record, or the host is going to be told of it,
or it was hidden. -/
theorem Reaches.phase (reaches : Reaches p limits start machine)
    (clean : start.thread.fault = none) :
    machine.thread.fault = none ∨ (∃ error, Tells error machine) ∨
      ∃ error cover, Reaches p limits start cover ∧ cover.Hides ∧ Sinks error machine := by
  induction reaches with
  | start => exact .inl clean
  | @step machine before ih =>
    rcases ih with none | ⟨error, tells⟩ | ⟨error, cover, reached, hides, sinks⟩
    · cases recorded : (machine.next p limits).thread.fault with
      | none => exact .inl rfl
      | some error => exact .inr (.inl ⟨error, next_tells none recorded⟩)
    · by_cases hides : machine.Hides
      · exact .inr (.inr ⟨error, machine, before, hides, hides.sinks tells⟩)
      · exact .inr (.inl (tells.next hides))
    · exact .inr (.inr ⟨error, cover, reached, hides, sinks.next⟩)

theorem Reaches.sinks {error : CallError} (reaches : Reaches p limits start machine)
    (first : Sinks error start) : Sinks error machine := by
  induction reaches with
  | start => exact first
  | step _ ih => exact ih.next

theorem Hides.sinks_end {cover : Machine} {result : Except CallError Value} (hides : cover.Hides)
    (reaches : Reaches p limits start cover) (clean : start.thread.fault = none)
    (ends : Reaches p limits start machine) (finished : machine.result? = some result) :
    ∃ error, Sinks error machine := by
  rcases reaches.phase clean with none | ⟨error, tells⟩ | ⟨error, _, _, _, sinks⟩
  · obtain ⟨_, error, _, recorded, _⟩ := hides
    simp [none] at recorded
  · have later : Reaches p limits (cover.next p limits) machine :=
      reaches.step.before_end ends finished
    exact ⟨error, later.sinks (hides.sinks tells)⟩
  · obtain ⟨_, _, ⟨_, _, _, _, _, waits, _⟩, _⟩ := hides
    simp [sinks.bottom] at waits

theorem Reaches.told_iff {error : CallError} {result : Except CallError Value}
    (ends : Reaches p limits start machine) (clean : start.thread.fault = none)
    (finished : machine.result? = some result) (recorded : machine.thread.fault = some error) :
    (result = .error error ∧ machine.thread.status = .crashed) ↔
      ∀ state, Reaches p limits start state → ¬ state.Hides := by
  obtain ⟨answers, idle⟩ := result?_eq_some finished
  constructor
  · rintro ⟨rfl, _⟩ state reaches hides
    obtain ⟨hidden, sinks⟩ := hides.sinks_end reaches clean ends finished
    obtain rfl : hidden = error := Option.some.inj (sinks.recorded.symm.trans recorded)
    rcases sinks.unsaid with ⟨_, settles, _⟩ | ⟨_, answers', other⟩
    · simp [answers] at settles
    · exact other (Control.answer.inj (answers'.symm.trans answers))
  · intro honest
    rcases ends.phase clean with none | ⟨told, tells⟩ | ⟨_, cover, reached, hides, _⟩
    · simp [none] at recorded
    · obtain rfl : told = error := Option.some.inj (tells.recorded.symm.trans recorded)
      cases tells.stage with
      | inner waits => exact absurd idle waits
      | rethrows _ settles => simp [answers] at settles
      | raises _ settles => simp [answers] at settles
      | answers _ answers' crashed =>
        exact ⟨Control.answer.inj (answers.symm.trans answers'), crashed⟩
    · exact absurd hides (honest cover reached)

end Telling

section Founding

/-- The host called bytecode. The outermost native that waits gives its result to bytecode, and with
a fault on record the host's own call can only fail. -/
structure Founded (machine : Machine) : Prop where
  inner : ∀ callee args, machine.control = .enter callee args → machine.waiting ≠ []
  landing : ∀ native, machine.waiting.getLast? = some native → native.landing ≠ .host
  fails : machine.thread.fault ≠ none → machine.waiting = [] →
    (∃ failure, machine.control = .settle (.error failure)) ∨
      (∃ error, machine.control = .answer (.error error)) ∧ machine.thread.status = .crashed

theorem Continues.founded (continues : Continues before machine)
    (clean : before.thread.fault = none)
    (landing : ∀ native, before.waiting.getLast? = some native → native.landing ≠ .host) :
    machine.Founded where
  inner := continues.busy.inner
  landing := by rwa [continues.waiting]
  fails recorded := absurd (continues.fault.trans clean) recorded

theorem proceed_founded {waiting : List Suspended} {dest : Destination} (thread : Thread)
    (base : Nat) (name : String) (step : NativeStep)
    (landing : ∀ native, waiting.getLast? = some native → native.landing ≠ .host)
    (sent : waiting = [] → dest ≠ .host) :
    Founded (proceed thread waiting base name dest step) := by
  cases step with
  | call world callee args resume =>
    refine ⟨by simp [proceed], fun native last => ?_, by simp [proceed]⟩
    cases waiting with
    | nil =>
      obtain rfl : { name, base, landing := dest, resume } = native := by simpa [proceed] using last
      exact sent rfl
    | cons outer others => exact landing native (by simpa [proceed] using last)
  | reply world reply =>
    cases recorded : thread.fault with
    | some error =>
      rw [proceed_reply recorded]
      refine ⟨by simp, landing, fun _ bottom => .inl ?_⟩
      cases reply with
      | value v => exact ⟨.rethrown error, by simp [Reply.verdict, sent bottom]⟩
      | failure f => exact ⟨f, rfl⟩
      | silent => exact ⟨_, rfl⟩
    | none =>
      cases reply with
      | value v =>
        have landed : Continues ⟨thread, world, waiting, base, .execute⟩
            (land ⟨thread, world, waiting, base, .execute⟩ v dest) :=
              land_continues recorded (.refl _)
        exact landed.founded recorded landing
      | failure f => exact ⟨by simp [proceed], landing, by simp [proceed, recorded]⟩
      | silent => exact ⟨by simp [proceed], landing, by simp [proceed, recorded]⟩

theorem Works.founded {dests : Destination → Prop} (works : Works p before dests machine)
    (clean : before.thread.fault = none)
    (landing : ∀ native, before.waiting.getLast? = some native → native.landing ≠ .host)
    (sent : before.waiting = [] → ∀ dest, dests dest → dest ≠ .host) : machine.Founded := by
  cases works with
  | continues continues => exact continues.founded clean landing
  | native _ _ _ goes => exact proceed_founded _ _ _ _ landing fun bottom => sent bottom _ goes

theorem Founded.next (founded : machine.Founded) (barred : machine.Barred) :
    (machine.next p limits).Founded := by
  obtain ⟨inner, landing, fails⟩ := founded
  cases control : machine.control with
  | enter callee args =>
    have waits := inner callee args control
    have enters := enter_enters p limits machine callee args
    simp only [Machine.next, control]
    generalize machine.enter p limits callee args = after at enters ⊢
    cases enters with
    | unknown => exact ⟨by simp, landing, fun _ bottom => absurd bottom waits⟩
    | refused => exact ⟨by simp, landing, fun _ bottom => absurd bottom waits⟩
    | halted => exact ⟨by simp, landing, fun _ bottom => absurd bottom waits⟩
    | begins _ clean works => exact works.founded clean landing fun bottom => absurd bottom waits
  | execute =>
    simp only [Machine.next, control]
    exact (execute_works machine).founded (barred.resolve_right (by simp [control])) landing
      fun _ _ inside => inside
  | settle outcome =>
    simp only [Machine.next, control]
    cases outcome with
    | ok v =>
      refine ⟨by simp [settle], landing, fun recorded bottom => ?_⟩
      rcases fails recorded bottom with ⟨_, settles⟩ | ⟨⟨_, answers⟩, _⟩
      · simp [control] at settles
      · simp [control] at answers
    | error failure =>
      exact ⟨by simp [settle], landing, fun _ _ => .inr ⟨⟨_, rfl⟩, Thread.unwind_status _ _⟩⟩
  | answer result =>
    cases waits : machine.waiting with
    | nil =>
      have stays : machine.next p limits = machine := by
        simp only [Machine.next, control, answer, waits]
      rw [stays]
      exact ⟨inner, landing, fails⟩
    | cons native others =>
      simp only [Machine.next, control, answer, waits]
      rw [waits] at landing
      refine proceed_founded _ _ _ _ (fun native last => ?_) fun bottom => ?_
      · exact landing native (by simp [List.getLast?_cons, last])
      · exact landing native (by simp [bottom])

theorem invoke_continues {id : UInt16} {code : Code Value} {args : Array Value} {dest : Destination}
    (body : p.code? id = some code) (keeps : Keeps before machine) :
    Continues before (machine.invoke p limits id args dest) := by
  obtain ⟨f, found, bytecode⟩ := Option.bind_eq_some_iff.mp body
  unfold invoke
  simp only [found]
  split
  · split
    next native => simp [Function.code?, native] at bytecode
    · exact callCode_continues keeps
  · exact fail_continues keeps

theorem founded_of_code {id : UInt16} {code : Code Value} {thread : Thread} {world : World}
    {callee : Callee} {args : Array Value} (clean : thread.fault = none)
    (resolves : callee.resolve p = .ok id) (body : p.code? id = some code) :
    Founded (next p limits { thread, world, control := .enter callee args }) := by
  simp only [next, enter, resolves, clean]
  exact (invoke_continues body (.refl _)).founded clean (by simp)

theorem Reaches.founded (reaches : Reaches p limits start machine) (first : start.Founded)
    (barred : start.Barred) : machine.Founded := by
  induction reaches with
  | start => exact first
  | step before ih => exact ih.next (before.barred barred)

end Founding

theorem Reaches.raises {cause : Fault} {thread : Thread} {world : World} {callee : Callee}
    {args : Array Value}
    (reaches : Reaches p limits { thread, world, control := .enter callee args } machine)
    (clean : thread.fault = none) (recorded : machine.thread.fault ≠ none)
    (settles : machine.control = .settle (.error (.runtime (.fault cause)))) :
    ∃ raising, Reaches p limits { thread, world, control := .enter callee args } raising ∧
      raising.Raises cause := by
  cases reaches with
  | start => contradiction
  | step before => exact ⟨_, before, raises_of_next (before.barred (.inl clean)) recorded settles⟩

theorem Reaches.latched {thread : Thread} {world : World} {callee : Callee} {args : Array Value}
    {first : CallError}
    (reaches : Reaches p limits { thread, world, control := .enter callee args } machine)
    (clean : thread.fault = none) (recorded : machine.thread.fault = some first)
    (onward : Reaches p limits machine other) :
    ∃ last, other.thread.fault = some last ∧ (last = first ∨ ∃ (raising : Machine) (cause : Fault),
      Reaches p limits { thread, world, control := .enter callee args } raising ∧
        raising.Raises cause) := by
  induction onward with
  | start => exact ⟨first, recorded, .inl rfl⟩
  | @step middle between ih =>
    obtain ⟨last, known, latched⟩ := ih
    rcases next_fault p limits middle with same | ⟨cause, settles, replaced⟩
    · exact ⟨last, same.trans known, latched⟩
    · obtain ⟨raising, reached, raises⟩ :=
        (reaches.trans between).raises clean (by simp [known]) settles
      exact ⟨_, replaced, .inr ⟨raising, cause, reached, raises⟩⟩

end Machine

/-- What becomes of a fault. Let a fault be recorded at any depth during a call from the host on a
thread without one, in any program and with any natives. Then the call ends, with a fault on record:
the first one, unless a native raised another. The host gets just that fault, and the thread is
crashed, if and only if no outermost native hides it: with a value, where the host called that
native, or with an error of another kind. Where the host called bytecode, it gets an error, and the
thread is crashed, in any case. -/
theorem Thread.fault_surfaces (p : Program) (limits : Limits) (thread : Thread)
    (clean : thread.fault = none) (world : World) (callee : Callee) (args : Array Value)
    (machine : Machine)
    (reaches : Machine.Reaches p limits { thread, world, control := .enter callee args } machine)
    (first : CallError) (recorded : machine.thread.fault = some first) :
    ∃ fuel outcome last, thread.call p limits fuel world callee args = some outcome ∧
      outcome.thread.fault = some last ∧
      (last = first ∨ ∃ (raising : Machine) (cause : Fault),
        Machine.Reaches p limits { thread, world, control := .enter callee args } raising ∧
          raising.Raises cause) ∧
      ((outcome.result = .error last ∧ outcome.thread.status = .crashed) ↔
        ∀ state, Machine.Reaches p limits { thread, world, control := .enter callee args } state →
          ¬ state.Hides) ∧
      ∀ id code, callee.resolve p = .ok id → p.code? id = some code →
        (∃ error, outcome.result = .error error) ∧ outcome.thread.status = .crashed := by
  have barred := reaches.barred (.inl clean)
  obtain ⟨final, result, onward, finished⟩ : Machine.Ends p limits machine :=
    Machine.ends_of_fault _ machine rfl (by simp [recorded]) (barred.control_ne recorded)
  obtain ⟨last, known, latched⟩ := reaches.latched clean recorded onward
  have ends := reaches.trans onward
  have told : Machine.run p limits 1 final =
      some { result, thread := final.thread, world := final.world } := by
    simp only [Machine.run, finished]
  obtain ⟨fuel, ended⟩ := ends.run_eq told
  refine ⟨fuel, _, last, ended, known, latched, ends.told_iff clean finished known,
    fun id code resolves body => ?_⟩
  obtain ⟨answers, idle⟩ := Machine.result?_eq_some finished
  rcases ends.onward with rfl | later
  · contradiction
  · have founded := later.founded (Machine.founded_of_code clean resolves body)
      (Machine.next_barred (.inl clean))
    rcases founded.fails (by simp [known]) idle with ⟨_, settles⟩ | ⟨⟨error, answers'⟩, crashed⟩
    · simp [answers] at settles
    · exact ⟨⟨error, Control.answer.inj (answers.symm.trans answers')⟩, crashed⟩

def Module.catching : Module Value where
  functions := #[
    { name := "bad", module := "m", minArgs := 0, maxArgs := 0, params := #[], defaults := #[]
      body := .bytecode
        { instructions := #[.plain .pop, .plain .leave], constants := #[], tables := #[]
          locals := 0, stack := 0 } },
    { name := "try", module := "host", minArgs := 1, maxArgs := 1, params := #["arg0"]
      defaults := #[]
      body := .native }]

namespace Module

theorem catching_function? (id : UInt16) :
    (Program.link .catching {} Registry.host).function? id =
      Module.catching.functions[id.toNat]? := by
  simp [Program.function?, Program.link, catching, Function.sortTables, Code.sortTables,
    Code.binaryTables]

theorem catching_native? :
    (Program.link .catching {} Registry.host).native? 1 = some (Native.attempt .name) := by
  simp [Program.native?, Program.link, catching, Function.isNative, Function.qualifiedName,
    Registry.host, Function.code?]

theorem catching_find? : (Program.link .catching {} Registry.host).find? "bad" = some 0 := by
  simp [Program.find?, Program.link, Program.nameTable, catching, Function.qualifiedName,
    Std.HashMap.getElem_insertIfNew]

end Module

def World.catching : World where
  store := { texts := #["bad"] }
  console := ""
  interrupted := false

namespace Machine

def catching : Machine where
  thread := {}
  world := .catching
  control := .enter (.id 1) #[.text ⟨0⟩]

theorem catching_asks :
    ∃ resume, next (Program.link .catching {} Registry.host) {} catching =
        { thread := { status := .calling }, world := .catching
          waiting := [{ name := "host.try", base := 0, landing := .host, resume }]
          control := .enter (.name "bad") #[] } ∧
      ∀ error world, ∃ after v, resume (.error error) world = .reply after (.value v) := by
  have known := Module.catching_function?
  have bound := Module.catching_native?
  generalize Program.link .catching {} Registry.host = p at known bound ⊢
  apply Exists.intro
  constructor
  · simp only [catching, next, enter, Callee.resolve, invoke, known, bound]
    rfl
  · exact fun error world => ⟨_, _, rfl⟩

theorem catching_hides :
    let p := Program.link .catching {} Registry.host
    ∃ machine v world, Reaches p {} catching machine ∧
      machine.thread = { status := .crashed
                         fault := some (.fault "m.bad" 0 (.doesNotFit (.plain .pop))) } ∧
      machine.next p {} = { thread := machine.thread, world, control := .settle (.ok v) } := by
  intro p
  obtain ⟨resume, asks, catches⟩ := catching_asks
  have known : ∀ id, p.function? id = _ := Module.catching_function?
  have named : p.find? "bad" = some 0 := Module.catching_find?
  replace asks : next p {} catching = _ := asks
  generalize p = p at known named asks ⊢
  let waiting : List Suspended := [{ name := "host.try", base := 0, landing := .host, resume }]
  let bad : Frame :=
    { function := 0, base := 0, locals := 0, limit := 0, tos := 0, place := 0, dest := .host }
  let fault : CallError := .fault "m.bad" 0 (.doesNotFit (.plain .pop))
  let entered : Machine :=
    { thread := { status := .calling, frames := [bad] }, world := .catching, waiting
      control := .execute }
  let failed : Machine :=
    { thread := { status := .running, frames := [{ bad with place := 1 }] }, world := .catching
      waiting, control := .settle (.error (.runtime (.fault (.doesNotFit (.plain .pop))))) }
  let told : Machine :=
    { thread := { status := .crashed, fault := some fault }, world := .catching, waiting
      control := .answer (.error fault) }
  have second : (next p {} catching).next p {} = entered := by
    rw [asks, next_name named]
    simp only [next, enter, Callee.resolve, invoke, known]
    rfl
  have third : entered.next p {} = failed := by
    simp only [next, execute, setStatus, Program.code?, entered, bad, known]
    rfl
  have fourth : failed.next p {} = told := by
    simp only [next, settle, recorded, report, Program.location, failed, bad, known]
    rfl
  have reaches : Reaches p {} catching told := by
    have run : Reaches p {} catching ((((catching.next p {}).next p {}).next p {}).next p {}) :=
      Reaches.start.step.step.step.step
    rwa [second, third, fourth] at run
  obtain ⟨after, v, replies⟩ := catches fault .catching
  refine ⟨told, v, after, reaches, rfl, ?_⟩
  simp only [next, answer, told, waiting, replies]
  rfl

end Machine

/-- A fault need not come to the host. The host calls a native that catches errors, with the name of
a function that takes an operand it does not have: a fault is recorded, and the call ends with a
value all the same. -/
theorem Thread.fault_hidden :
    let p := Program.link .catching {} Registry.host
    ∃ machine fuel outcome v, Machine.Reaches p {} .catching machine ∧
      machine.thread.fault = some (.fault "m.bad" 0 (.doesNotFit (.plain .pop))) ∧
      ({} : Thread).call p {} fuel .catching (.id 1) #[.text ⟨0⟩] = some outcome ∧
      outcome.result = .ok v ∧ outcome.thread.status = .halted ∧
      outcome.thread.fault = some (.fault "m.bad" 0 (.doesNotFit (.plain .pop))) := by
  intro p
  obtain ⟨machine, v, world, reaches, thread, settles⟩ := Machine.catching_hides
  have ended : Machine.run p {} 2 (machine.next p {}) = some
      { result := .ok v, thread := { machine.thread with status := .halted }, world } := by
    rw [settles, thread]
    rfl
  obtain ⟨fuel, ended⟩ := reaches.step.run_eq ended
  exact ⟨machine, fuel, _, v, reaches, by rw [thread], ended, rfl, rfl, by simp only [thread]⟩

theorem Thread.fault_surfaces_catching :
    let p := Program.link .catching {} Registry.host
    ∃ machine first, ({} : Thread).fault = none ∧ Machine.Reaches p {} .catching machine ∧
      machine.thread.fault = some first ∧
      ∃ fuel outcome last, ({} : Thread).call p {} fuel .catching (.id 1) #[.text ⟨0⟩] =
        some outcome ∧ outcome.thread.fault = some last ∧
        (last = first ∨ ∃ (raising : Machine) (cause : Fault),
          Machine.Reaches p {} .catching raising ∧ raising.Raises cause) ∧
        ((outcome.result = .error last ∧ outcome.thread.status = .crashed) ↔
          ∀ state, Machine.Reaches p {} .catching state → ¬ state.Hides) ∧
        ∀ id code, (Callee.id 1).resolve p = .ok id → p.code? id = some code →
          (∃ error, outcome.result = .error error) ∧ outcome.thread.status = .crashed := by
  intro p
  obtain ⟨machine, _, _, reaches, thread, _⟩ := Machine.catching_hides
  refine ⟨machine, _, rfl, reaches, by rw [thread], ?_⟩
  exact fault_surfaces p {} {} rfl .catching (.id 1) #[.text ⟨0⟩] machine reaches _ (by rw [thread])

end StackMachine
