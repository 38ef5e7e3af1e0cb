import StackMachine.Proofs.Acceptance
import StackMachine.Proofs.AccessPaths
import StackMachine.Proofs.LateBinding
import StackMachine.Proofs.Literals

/-! How a call binds its arguments. Bytecode finds them in its first locals and a native in its
buffer, and the two are given the same row of values: the arguments of the call, and then a copy of
the default of each one it leaves out. A copy is made of containers of its own. -/

namespace StackMachine

namespace Store

theorem copyEach_getElem? (s : Store) {values : List Value} {i : Nat} {v : Value}
    (there : values[i]? = some v) :
    ∃ t, s.Extends t ∧ (s.copyEach values).1[i]? = some (t.deepCopy v).1 := by
  induction values generalizing s i with
  | nil => simp at there
  | cons first rest ih =>
    cases i with
    | zero =>
      obtain rfl := Option.some.inj there
      exact ⟨s, .refl s, rfl⟩
    | succ i =>
      obtain ⟨t, grows, copy⟩ := ih (s.deepCopy first).2 there
      exact ⟨t, (s.deepCopy_extends first).trans grows, copy⟩

theorem copyAll_getElem? (s : Store) {values : Array Value} {i : Nat} {v : Value}
    (there : values[i]? = some v) :
    ∃ t, s.Extends t ∧ (s.copyAll values).1[i]? = some (t.deepCopy v).1 := by
  have listed : values.toList[i]? = some v := by simpa using there
  obtain ⟨t, grows, copy⟩ := s.copyEach_getElem? listed
  exact ⟨t, grows, by simpa [copyAll_eq] using copy⟩

/-- `w` unfolds in `t` to what `v` unfolds to in `s`, and every container that it leads to came
after `s`. -/
structure Duplicates (s : Store) (v : Value) (t : Store) (w : Value) : Prop where
  unfolds : t.tree w = s.tree v
  new : ∀ x, t.Reach w x → x.tag.isContainer = true → t.Has x ∧ ¬ s.Has x

theorem copyAll_duplicates {s : Store} {values : Array Value}
    (stored : ∀ v ∈ values, s.Stored v) {i : Nat} {v w : Value} (original : values[i]? = some v)
    (copy : (s.copyAll values).1[i]? = some w) : s.Duplicates v (s.copyAll values).2 w where
  unfolds := by
    obtain ⟨_, matched, related⟩ := copyAll_alike stored original copy
    exact tree_eq matched related
  new x reach container := by
    have newer := copyAll_newer stored (Array.mem_of_getElem? copy) reach
    exact ⟨newer.1, newer.2 container⟩

end Store

namespace Function

variable {g : Function Value} {args : Array Value}

theorem body_of_code?_some {code : Code Value} (known : g.code? = some code) :
    g.body = .bytecode code := by
  unfold code? at known
  split at known
  · contradiction
  next body => rw [body, Option.some.inj known]

theorem body_of_code?_none (native : g.code? = none) : g.body = .native := by
  unfold code? at native
  split at native
  next body => exact body
  · contradiction

/-- The row of values that a call of the function with these arguments is given when `s` is the
store: the arguments themselves, then copies of the defaults of the ones it leaves out. -/
structure Binds (g : Function Value) (s : Store) (args given : Array Value) : Prop where
  size : given.size = g.maxArgs.toNat
  supplied : ∀ i < args.size, given[i]? = args[i]?
  omitted : ∀ i, args.size ≤ i → i < g.maxArgs.toNat → ∃ default t,
    g.defaults[i - g.minArgs.toNat]? = some default ∧ s.Extends t ∧
      given[i]? = some (t.deepCopy default).1

/-- The values that stand for omitted arguments unfold in `t` like the defaults in `s`. They lead to
new containers only, and no two of them to the same one. -/
structure Fills (g : Function Value) (s : Store) (argc : Nat) (given : Array Value) (t : Store) :
    Prop where
  copies : ∀ i, argc ≤ i → i < g.maxArgs.toNat → ∃ default copy,
    g.defaults[i - g.minArgs.toNat]? = some default ∧ given[i]? = some copy ∧
      s.Duplicates default t copy
  apart : ∀ i j v w, argc ≤ i → i < j → given[i]? = some v → given[j]? = some w →
    ∀ x, x.tag.isContainer = true → t.Reach v x → ¬ t.Reach w x

section Complete

-- There is a default for each argument that may be left out, and the call leaves out only such.
variable (complete : g.defaults.size = g.maxArgs.toNat - g.minArgs.toNat)
  (least : g.minArgs.toNat ≤ args.size)
  (most : args.size ≤ g.maxArgs.toNat)

include complete least most

theorem omitted_size : (g.omitted args.size).size = g.maxArgs.toNat - args.size := by
  simp only [Function.omitted, Array.size_extract]
  omega

theorem omittedParams_eq : g.omittedParams args.size = g.omitted args.size := by
  rw [omittedParams, ← omitted_size complete least most]
  exact Array.extract_size

theorem exists_omitted {i : Nat} (outside : args.size ≤ i) (inside : i < g.maxArgs.toNat) :
    ∃ default, g.defaults[i - g.minArgs.toNat]? = some default ∧
      (g.omitted args.size)[i - args.size]? = some default := by
  have place : i - args.size < (g.omitted args.size).size := by
    rw [omitted_size complete least most]
    omega
  have there : (g.omitted args.size)[i - args.size]? = g.defaults[i - g.minArgs.toNat]? := by
    simp only [Function.omitted, Array.size_extract] at place ⊢
    rw [Array.getElem?_extract, if_pos (by omega)]
    congr 1
    omega
  rw [Array.getElem?_eq_getElem place] at there
  exact ⟨_, there.symm, Array.getElem?_eq_getElem place⟩

theorem binds (s : Store) : g.Binds s args (args ++ (s.copyAll (g.omitted args.size)).1) where
  size := by
    rw [Array.size_append, Store.copyAll_size, omitted_size complete least most]
    omega
  supplied i inside := Array.getElem?_append_left inside
  omitted i outside inside := by
    obtain ⟨default, there, place⟩ := exists_omitted complete least most outside inside
    obtain ⟨t, grows, copy⟩ := s.copyAll_getElem? place
    exact ⟨default, t, there, grows, by rw [Array.getElem?_append_right outside]; exact copy⟩

theorem fills {s : Store} (stored : ∀ v ∈ g.defaults, s.Stored v) :
    g.Fills s args.size (args ++ (s.copyAll (g.omitted args.size)).1)
      (s.copyAll (g.omitted args.size)).2 := by
  have stored : ∀ v ∈ g.omitted args.size, s.Stored v := fun v member =>
    stored v (mem_of_mem_extract member)
  refine ⟨fun i outside inside => ?_, fun i j v w outside before first second => ?_⟩
  · obtain ⟨default, there, place⟩ := exists_omitted complete least most outside inside
    have made : i - args.size < (s.copyAll (g.omitted args.size)).1.size := by
      rw [Store.copyAll_size]
      exact (Array.getElem?_eq_some_iff.mp place).1
    have copy := Array.getElem?_eq_getElem made
    rw [Array.getElem?_append_right outside]
    exact ⟨default, _, there, copy, Store.copyAll_duplicates stored place copy⟩
  · rw [Array.getElem?_append_right outside] at first
    rw [Array.getElem?_append_right (by omega)] at second
    intro x container reach
    exact Store.copyAll_apart stored (by omega) first second container reach

end Complete

end Function

theorem Thread.refusal?_eq (t : Thread) (limits : Limits) {f : Function Value} {code : Code Value}
    (roomy : f.maxArgs.toNat ≤ code.locals.toNat) :
    t.refusal? limits f code =
      if t.depth < limits.frames ∧ t.slots.size + code.frameSize ≤ limits.slots then none
      else some (.stackOverflow t.depth) := by
  simp only [refusal?, Nat.not_lt.mpr roomy, if_false]
  by_cases deep : limits.frames ≤ t.depth
  · simp [deep, Nat.not_lt.mpr deep]
  · have shallow := Nat.lt_of_not_le deep
    by_cases large : limits.slots < t.slots.size + code.frameSize
    · simp [deep, large, Nat.not_le.mpr large]
    · simp [deep, shallow, large, Nat.le_of_not_lt large]

namespace Machine

/-- A frame for the code has been opened above the slots of `before`. It starts with the values
given; its other locals are unassigned, its operand stack is empty, and its cells are free. -/
structure Opens (before after : Machine) (id : UInt16) (code : Code Value) (given : Array Value)
    (dest : Destination) : Prop where
  running : after.control = .execute
  framed : after.thread.frames =
    { function := id, base := before.thread.slots.size, locals := code.locals.toNat
      limit := before.thread.slots.size + code.frameSize
      tos := before.thread.slots.size + code.locals.toNat
      place := 0, dest } :: before.thread.frames
  size : after.thread.slots.size = before.thread.slots.size + code.frameSize
  below : ∀ i < before.thread.slots.size, after.thread.slots[i]? = before.thread.slots[i]?
  params : ∀ i < given.size, after.thread.slots[before.thread.slots.size + i]? = given[i]?
  unassigned : ∀ i, given.size ≤ i → i < code.frameSize →
    after.thread.slots[before.thread.slots.size + i]? = some .undefined

theorem enter_opens {before after : Machine} {id : UInt16} {code : Code Value} {given : Array Value}
    {dest : Destination} (few : given.size ≤ code.frameSize) (running : after.control = .execute)
    (entered : after.thread = before.thread.enter id code given dest) :
    before.Opens after id code given dest := by
  have slots : after.thread.slots =
      before.thread.slots ++ (given ++ Array.replicate (code.frameSize - given.size)
        .undefined) := by
    rw [entered, ← Array.append_assoc]
    rfl
  refine ⟨running, by rw [entered]; rfl, ?_, fun i inside => ?_, fun i inside => ?_,
    fun i outside inside => ?_⟩
  · simp only [slots, Array.size_append, Array.size_replicate]
    omega
  · rw [slots, Array.getElem?_append_left inside]
  · rw [slots, Array.getElem?_append_right (Nat.le_add_right _ _), Nat.add_sub_cancel_left,
      Array.getElem?_append_left inside]
  · rw [slots, Array.getElem?_append_right (Nat.le_add_right _ _), Nat.add_sub_cancel_left,
      Array.getElem?_append_right outside, Array.getElem?_replicate, if_pos (by omega)]

section Code

variable {limits : Limits} {machine : Machine} {id : UInt16} {g : Function Value}
  {code : Code Value}
  {args : Array Value} {dest : Destination}

theorem callCode_opens (complete : g.defaults.size = g.maxArgs.toNat - g.minArgs.toNat)
    (least : g.minArgs.toNat ≤ args.size) (most : args.size ≤ g.maxArgs.toNat)
    (roomy : g.maxArgs.toNat ≤ code.locals.toNat) (shallow : machine.thread.depth < limits.frames)
    (fits : machine.thread.slots.size + code.frameSize ≤ limits.slots) :
    let copies := machine.world.store.copyAll (g.omitted args.size)
    let after := machine.callCode limits id g code args dest
    machine.Opens after id code (args ++ copies.1) dest ∧
      after.world = { machine.world with store := copies.2 } := by
  intro copies after
  have admitted : machine.thread.refusal? limits g code = none := by
    rw [machine.thread.refusal?_eq limits roomy, if_pos ⟨shallow, fits⟩]
  have entered : after =
      { machine with
        thread := machine.thread.enter id code (args ++ copies.1) dest
        world := { machine.world with store := copies.2 }, control := .execute } := by
    simp only [after, callCode, admitted, Function.omittedParams_eq complete least most]
    rfl
  have size := (Function.binds complete least most machine.world.store).size
  refine ⟨enter_opens ?_ (by rw [entered]) (by rw [entered]), by rw [entered]⟩
  rw [size, Code.frameSize]
  omega

theorem callCode_refused (roomy : g.maxArgs.toNat ≤ code.locals.toNat)
    (refused : ¬ (machine.thread.depth < limits.frames ∧
      machine.thread.slots.size + code.frameSize ≤ limits.slots)) :
    machine.callCode limits id g code args dest =
      machine.fail (.stackOverflow machine.thread.depth) := by
  simp [callCode, machine.thread.refusal?_eq limits roomy, if_neg refused]

end Code

/-- The machine is about to call the function with these arguments: the host asks for the call, or a
native that waits for its result, or an instruction. `ready` is the machine once the arguments are
off the stack. -/
inductive Calls (p : Program) (machine : Machine) :
    Machine → UInt16 → Array Value → Destination → Prop
  | host {callee : Callee} {id : UInt16} {args : Array Value}
    (asks : machine.control = .enter callee args) (resolves : callee.resolve p = .ok id)
    (clean : machine.thread.fault = none) (idle : machine.waiting = []) :
    Calls p machine
      { machine with thread := { machine.thread.clear with status := .calling }, base := 0 }
      id args .host
  | native {callee : Callee} {id : UInt16} {args : Array Value}
    (asks : machine.control = .enter callee args) (resolves : callee.resolve p = .ok id)
    (clean : machine.thread.fault = none) (waits : machine.waiting ≠ [])
    (lively : machine.thread.status ≠ .halted) :
    Calls p machine
      { machine with
        thread := { machine.thread with status := .calling }, base := machine.thread.depth }
      id args .host
  | instruction {l popped : Layout} {callers : List Frame} {code : Code Value} {keep : Bool}
    {id : UInt16} {argc : UInt8} (running : machine.control = .execute)
    (framed : machine.thread.frames = l.frame :: callers) (slotted : machine.thread.slots = l.slots)
    (body : p.code? l.function = some code)
    (here : code.instructions[l.place]? = some (.call keep id argc))
    (enough : argc.toNat ≤ l.operands.length) (room : keep.toNat ≤ argc.toNat + l.free.length)
    (pops : popped = { l with place := l.place + 1 }.after argc.toNat []) :
    Calls p machine
      { machine with
        thread :=
          { machine.thread with
            status := .calling, slots := popped.slots, frames := popped.frame :: callers } }
      id (l.operands.take argc.toNat).reverse.toArray (if keep then .push else .discard)

theorem Calls.next_eq {p : Program} {machine ready : Machine} {id : UInt16} {args : Array Value}
    {dest : Destination} (calls : machine.Calls p ready id args dest) (limits : Limits) :
    machine.next p limits = ready.invoke p limits id args dest := by
  cases calls with
  | host asks resolves clean idle => simp [next, asks, enter, resolves, clean, idle]
  | native asks resolves clean waits lively =>
    simp [next, asks, enter, resolves, clean, waits, lively]
  | @instruction l _ _ code keep id _ running framed slotted body here enough room pops =>
    subst pops
    rw [next_eq_perform running framed body here,
      perform_call_eq framed slotted code keep id enough room]

section Invoke

variable {p : Program} {limits : Limits} {machine : Machine} {id : UInt16} {g : Function Value}
  {args : Array Value}
  {dest : Destination}

theorem invoke_arity (known : p.function? id = some g)
    (unfit : ¬ (g.minArgs.toNat ≤ args.size ∧ args.size ≤ g.maxArgs.toNat)) :
    machine.invoke p limits id args dest =
      machine.fail (.arity g.qualifiedName g.minArgs.toNat g.maxArgs.toNat args.size) := by
  have refused : g.accepts args.size = false := by simpa [Function.accepts] using unfit
  simp [invoke, known, refused]

variable (known : p.function? id = some g) (least : g.minArgs.toNat ≤ args.size)
  (most : args.size ≤ g.maxArgs.toNat)

include known least most

theorem invoke_code {code : Code Value} (body : g.code? = some code) :
    machine.invoke p limits id args dest = machine.callCode limits id g code args dest := by
  have accepts : g.accepts args.size = true := by simp [Function.accepts, least, most]
  simp [invoke, known, accepts, Function.body_of_code?_some body]

theorem invoke_native (body : g.code? = none) {native : Native}
    (bound : p.native? id = some native) :
    machine.invoke p limits id args dest = machine.callNative p id g native args dest := by
  have accepts : g.accepts args.size = true := by simp [Function.accepts, least, most]
  simp [invoke, known, accepts, Function.body_of_code?_none body, bound]

theorem invoke_unbound (body : g.code? = none) (unbound : p.native? id = none) :
    machine.invoke p limits id args dest = machine.fail (.undefinedFunction g.qualifiedName) := by
  have accepts : g.accepts args.size = true := by simp [Function.accepts, least, most]
  simp [invoke, known, accepts, Function.body_of_code?_none body, unbound]

end Invoke

end Machine

theorem Program.exists_linked {m : Module Literal} {id : UInt16} {f : Function Literal}
    (there : m.functions[id.toNat]? = some f) (s linking : Store) :
    ∃ g : Function Value, g.LinkedTo f ∧ g.qualifiedName = f.qualifiedName ∧
      (∃ t : Store, g.defaults = (t.loadAll f.defaults).1) ∧
      ∀ registry, (link (s.loadModule m).1 linking registry).function? id = some g := by
  obtain ⟨size, functions⟩ := s.loadModule_functions m
  have inside : id.toNat < (s.loadModule m).1.functions.size :=
    size ▸ (Array.getElem?_eq_some_iff.mp there).1
  obtain ⟨f', t, same, loaded⟩ := functions id.toNat _ (Array.getElem?_eq_getElem inside)
  obtain rfl : f' = f := Option.some.inj (same.symm.trans there)
  refine ⟨(t.loadFunction f').1.sortTables linking, f'.sortTables_linkedTo t linking, ?_, ⟨t, ?_⟩,
    fun registry => ?_⟩
  · obtain ⟨name, module, minArgs, maxArgs, params, defaults, body⟩ := f'
    cases body <;> rfl
  · obtain ⟨name, module, minArgs, maxArgs, params, defaults, body⟩ := f'
    cases body <;> rfl
  · rw [function?_link, Array.getElem?_eq_getElem inside, loaded]
    rfl

namespace Machine

theorem fail_inj {machine : Machine} {error error' : RuntimeError}
    (same : machine.fail error = machine.fail error') : error = error' := by
  simpa [fail] using congrArg control same

/-- What a call comes to that has neither too few nor too many arguments: bytecode starts, or the
limits refuse it; a native runs, or it is not bound. Bytecode and natives are given the same row of
values. -/
structure Receives (machine : Machine) (p : Program) (limits : Limits) (id : UInt16)
    (g : Function Value) (args : Array Value) (dest : Destination) (given : Array Value)
    (world : World) : Prop where
  started : ∀ code, g.code? = some code → machine.thread.depth < limits.frames →
    machine.thread.slots.size + code.frameSize ≤ limits.slots →
    machine.Opens (machine.invoke p limits id args dest) id code given dest ∧
      (machine.invoke p limits id args dest).world = world
  refused : ∀ code, g.code? = some code →
    ¬ (machine.thread.depth < limits.frames ∧
      machine.thread.slots.size + code.frameSize ≤ limits.slots) →
    machine.invoke p limits id args dest = machine.fail (.stackOverflow machine.thread.depth)
  native : ∀ native, g.code? = none → p.native? id = some native →
    ∃ call : NativeCall, call.args = given ∧ machine.invoke p limits id args dest =
      proceed machine.thread machine.waiting machine.base g.qualifiedName dest (native call world)
  unbound : g.code? = none → p.native? id = none →
    machine.invoke p limits id args dest = machine.fail (.undefinedFunction g.qualifiedName)

section Range

variable {p : Program} {limits : Limits} {machine : Machine} {id : UInt16} {g : Function Value}
  {args : Array Value}
  {dest : Destination}

theorem invoke_receives (known : p.function? id = some g)
    (complete : g.defaults.size = g.maxArgs.toNat - g.minArgs.toNat)
    (roomy : ∀ code, g.code? = some code → g.maxArgs.toNat ≤ code.locals.toNat)
    (least : g.minArgs.toNat ≤ args.size) (most : args.size ≤ g.maxArgs.toNat) :
    let copies := machine.world.store.copyAll (g.omitted args.size)
    machine.Receives p limits id g args dest (args ++ copies.1)
      { machine.world with store := copies.2 } where
  started code body shallow fits := by
    rw [invoke_code known least most body]
    exact callCode_opens complete least most (roomy code body) shallow fits
  refused code body refused := by
    rw [invoke_code known least most body]
    exact callCode_refused (roomy code body) refused
  native native body bound := by
    rw [invoke_native known least most body bound, callNative_eq]
    exact ⟨machine.nativeCall p id g args, rfl, rfl⟩
  unbound body unbound := invoke_unbound known least most body unbound

theorem Receives.not_arity {given : Array Value} {world : World}
    (receives : machine.Receives p limits id g args dest given world)
    (unbound : p.native? id = none) (name : String) (least most argc : Nat) :
    machine.invoke p limits id args dest ≠ machine.fail (.arity name least most argc) := by
  intro failed
  cases body : g.code? with
  | none =>
    have error := fail_inj ((receives.unbound body unbound).symm.trans failed)
    contradiction
  | some code =>
    by_cases admitted :
        machine.thread.depth < limits.frames ∧
          machine.thread.slots.size + code.frameSize ≤ limits.slots
    · have running := (receives.started code body admitted.1 admitted.2).1.running
      rw [failed] at running
      contradiction
    · have error := fail_inj ((receives.refused code body admitted).symm.trans failed)
      contradiction

end Range

end Machine

/-- Arguments are bound in one way. Take a function whose descriptor fits. Every call of it is
invoked with its arguments. If they are too few or too many then the call fails and nothing else
happens, whatever the natives are; and that is the only case in which it fails so. Otherwise there
is one row of values, the arguments and then copies of the defaults of the ones left out: bytecode
that the limits admit starts with it in its first locals, and a native that is bound is called with
it. Copying changes nothing that was there. As long as the literals of the module are intact, each
copy unfolds like its default and is made of new containers, and no two copies share one. -/
theorem Machine.invoke_binds (m : Module Literal) (s linking : Store) (limits : Limits)
    (id : UInt16) (f : Function Literal) (there : m.functions[id.toNat]? = some f)
    (faultless : f.descriptorFaults = []) (machine : Machine) (args : Array Value)
    (dest : Destination) :
    let linked := Program.link (s.loadModule m).1 linking
    let least := f.minArgs.toNat
    let most := f.maxArgs.toNat
    (∀ (registry : Registry) (caller : Machine),
      caller.Calls (linked registry) machine id args dest →
      caller.next (linked registry) limits =
        machine.invoke (linked registry) limits id args dest) ∧
    (¬ (least ≤ args.size ∧ args.size ≤ most) ↔ ∀ registry,
      machine.invoke (linked registry) limits id args dest =
        machine.fail (.arity f.qualifiedName least most args.size)) ∧
    ∃ g : Function Value, g.LinkedTo f ∧ g.qualifiedName = f.qualifiedName ∧
      (∃ t : Store, g.defaults = (t.loadAll f.defaults).1) ∧
      (∀ registry, (linked registry).function? id = some g) ∧
      (least ≤ args.size → args.size ≤ most →
        let before := machine.world.store
        let copies := before.copyAll (g.defaults.extract (args.size - least) g.defaults.size)
        let given := args ++ copies.1
        g.Binds before args given ∧ before.Extends copies.2 ∧
        ((s.loadModule m).1.Intact (s.loadModule m).2 before →
          g.Fills before args.size given copies.2) ∧
        ∀ registry, machine.Receives (linked registry) limits id g args dest given
          { machine.world with store := copies.2 }) := by
  intro linked least most
  obtain ⟨g, links, name, defaults, known⟩ := Program.exists_linked there s linking
  have described := Function.described_of_faultless faultless
  have minimum : least = g.minArgs.toNat := congrArg UInt8.toNat links.minArgs.symm
  have maximum : most = g.maxArgs.toNat := congrArg UInt8.toNat links.maxArgs.symm
  have complete : g.defaults.size = g.maxArgs.toNat - g.minArgs.toNat := by
    rw [links.defaults, described.defaults, links.minArgs, links.maxArgs]
  have roomy (code : Code Value) (body : g.code? = some code) :
      g.maxArgs.toNat ≤ code.locals.toNat := by
    rcases links.code with ⟨none, _⟩ | ⟨d, c, some, origin, codes⟩
    · simp [body] at none
    · obtain rfl : code = d := Option.some.inj (body.symm.trans some)
      rw [links.maxArgs, codes.locals]
      exact described.roomy c origin
  rw [minimum, maximum, ← name]
  refine ⟨fun registry caller calls => calls.next_eq limits,
    ⟨fun unfit registry => invoke_arity (known registry) unfit, fun failed fit => ?_⟩,
    g, links, rfl, defaults, known, fun least most => ⟨Function.binds complete least most _,
      Store.copyAll_extends _ _, fun intact => Function.fills complete least most fun v member =>
        intact.stored (Program.link_defaults (known fun _ => none) member),
      fun registry => invoke_receives (known registry) complete roomy least most⟩⟩
  have unbound : (linked fun _ => none).native? id = none := by
    refine Option.eq_none_iff_forall_ne_some.mpr fun native bound => ?_
    obtain ⟨_, found⟩ := Program.link_native? bound
    contradiction
  exact (invoke_receives (known _) complete roomy fit.1 fit.2).not_arity unbound _ _ _ _ (failed _)

def Function.defaulting : Function Literal where
  name := "pair"
  module := "sample"
  minArgs := 1
  maxArgs := 2
  params := #["first", "second"]
  defaults := #[.list [.scalar (.int 1)]]
  body := .bytecode
    { instructions := #[.plain .leave], constants := #[], tables := #[], locals := 3, stack := 1 }

/-- The call leaves the list out. It starts with a list of its own, in a world where that of the
module is there. -/
theorem Machine.invoke_binds_defaulting :
    let f := Function.defaulting
    let m : Module Literal := { functions := #[f] }
    let loaded := ({} : Store).loadModule m
    let linked := Program.link loaded.1 {}
    let machine : Machine :=
      { thread := {}, world := { (default : World) with store := loaded.2 }, control := .execute }
    (m.functions[0]? = some f ∧ f.descriptorFaults = [] ∧ loaded.1.Intact loaded.2 loaded.2) ∧
    (∀ registry, machine.invoke (linked registry) {} 0 #[] .host =
      machine.fail (.arity "sample.pair" 1 2 0)) ∧
    ∃ code given copy after, given.size = 2 ∧ given[0]? = some (.int 7) ∧ given[1]? = some copy ∧
      loaded.2.list ⟨0⟩ = #[.int 1] ∧ loaded.2.Duplicates (.list ⟨0⟩) after copy ∧
      ∀ registry,
        machine.Opens (machine.invoke (linked registry) {} 0 #[.int 7] .host) 0 code given .host ∧
        (machine.invoke (linked registry) {} 0 #[.int 7] .host).world.store = after := by
  intro f m loaded linked machine
  have there : m.functions[(0 : UInt16).toNat]? = some f := rfl
  have faultless : f.descriptorFaults = [] := by decide
  have intact : loaded.1.Intact loaded.2 loaded.2 := Module.loadModule_intact {} m (.refl _)
  have few := (invoke_binds m {} {} {} 0 f there faultless machine #[] .host).2.1
  obtain ⟨_, _, g, links, _, _, known, receives⟩ :=
    invoke_binds m {} {} {} 0 f there faultless machine #[.int 7] .host
  have defaults : g.defaults = #[.list ⟨0⟩] := by
    obtain rfl :=
      Option.some.inj ((Program.function?_link _ _ _ 0).symm.trans (known fun _ => none))
    rfl
  have size : g.maxArgs.toNat = 2 := congrArg UInt8.toNat links.maxArgs
  obtain ⟨binds, _, fills, receives⟩ := receives (by decide) (by decide)
  obtain ⟨original, copy, same, second, duplicates⟩ :=
    (fills intact).copies 1 (by decide) (by rw [size]; decide)
  obtain rfl : .list ⟨0⟩ = original := by
    rw [defaults, links.minArgs] at same
    exact Option.some.inj same
  obtain ⟨none, some⟩ | ⟨d, c, body, origin, codes⟩ := links.code
  · contradiction
  · obtain rfl := Option.some.inj origin
    have frameSize : d.frameSize = 4 := by
      rw [Code.frameSize, codes.locals, codes.stack]
      rfl
    refine ⟨⟨there, faultless, intact⟩, few.mp (by decide), d, _, copy, _, binds.size.trans size,
      binds.supplied 0 (by decide), second, rfl, duplicates, fun registry => ?_⟩
    obtain ⟨opens, world⟩ := (receives registry).started d body (by decide)
      (by rw [frameSize]; decide)
    exact ⟨opens, congrArg World.store world⟩

end StackMachine
