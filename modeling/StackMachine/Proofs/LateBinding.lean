import StackMachine.Proofs.Copying
import StackMachine.Proofs.Outcomes

/-! Calling a function by name, through the native that does so, comes to the same as calling the
function itself. -/

namespace StackMachine

theorem World.copied_immediate (world : World) {f : Function Value} {argc : Nat}
    (immediate : ∀ v ∈ f.omitted argc, v.tag.isContainer = false) :
    world.copied f argc = world := by
  rw [copied, Store.copyAll_immediate immediate]

namespace Machine

variable {p : Program} {limits : Limits} {machine : Machine}

def perform (p : Program) (limits : Limits) (code : Code Value) (i : Instruction)
    (machine : Machine) : Machine :=
  (machine.setStatus .running).onFrame (i.perform p code) (follow p limits)

theorem next_eq_perform {frame : Frame} {callers : List Frame} {code : Code Value} {i : Instruction}
    (running : machine.control = .execute) (innermost : machine.thread.frames = frame :: callers)
    (body : p.code? frame.function = some code) (here : code.instructions[frame.place]? = some i) :
    machine.next p limits = machine.perform p limits code i := by
  simp only [next, running, execute, setStatus, innermost, body, here, perform]

theorem perform_call_eq {l : Layout} {callers : List Frame}
    (framed : machine.thread.frames = l.frame :: callers) (slotted : machine.thread.slots = l.slots)
    (code : Code Value) (keep : Bool) (id : UInt16) {argc : UInt8}
    (enough : argc.toNat ≤ l.operands.length) (room : keep.toNat ≤ argc.toNat + l.free.length) :
    let popped := { l with place := l.place + 1 }.after argc.toNat []
    machine.perform p limits code (.call keep id argc) =
      invoke p limits
        { machine with
          thread := { machine.thread with
            status := .calling, slots := popped.slots, frames := popped.frame :: callers } }
        id (l.operands.take argc.toNat).reverse.toArray (if keep then .push else .discard) := by
  intro popped
  have fits : { l with place := l.place + 1 }.frame.fits (.call keep id argc) = true :=
    (Layout.fits_iff _ _).mpr ⟨enough, room⟩
  have performed : (Instruction.call keep id argc).perform p code
    (l.activation machine.world.store) =
      .ok (.call keep id argc.toNat)
        ({ l with place := l.place + 1 }.activation machine.world.store) := by
    simp only [Instruction.perform, bind, EStateM.bind, Exec.advance_layout, fits, if_true]
    rfl
  have running : (machine.setStatus .running).thread.frames = l.frame :: callers := framed
  unfold perform
  rw [onFrame_ok _ running slotted performed]
  have taken :
    Exec.popMany argc.toNat ({ l with place := l.place + 1 }.activation machine.world.store) =
      .ok (l.operands.take argc.toNat).reverse.toArray (popped.activation machine.world.store) :=
    Exec.popMany_layout enough
  simp only [follow]
  exact onFrame_ok _ rfl rfl taken

/-- The innermost frame `l` has a name and `args` on its stack, above `rest`, ready to call the
native `f` of the number `id`, which calls functions by name. -/
structure CallsByName (p : Program) (l : Layout) (callers : List Frame) (id : UInt16)
    (f : Function Value) (name : String) (args rest : List Value) (machine : Machine) : Prop where
  running : machine.control = .execute
  framed : machine.thread.frames = l.frame :: callers
  slotted : machine.thread.slots = l.slots
  known : p.function? id = some f
  native : f.body = .native
  named : f.qualifiedName = "core.invoke"
  accepts : f.accepts (args.length + 1) = true
  operands : ∃ ref : TextRef, machine.world.store.texts[ref.index]? = some name ∧
    l.operands = args.reverse ++ .text ref :: rest

/-- The frame `l` at another place and with `args` alone on its stack, above `rest`, ready to call a
function itself. The copies that a call of `f` makes of its own defaults are there already. -/
def straight (machine : Machine) (l : Layout) (callers : List Frame) (f : Function Value)
    (args rest : List Value) (place : Nat) : Machine :=
  let l' : Layout :=
    { l with place, operands := args.reverse ++ rest, free := .undefined :: l.free }
  { machine with
    thread := { machine.thread with slots := l'.slots, frames := l'.frame :: callers }
    world := machine.world.copied f (args.length + 1) }

section Start

variable {l : Layout} {callers : List Frame} {id : UInt16} {f : Function Value} {name : String}
  {args rest : List Value}

def calling (l : Layout) (args rest : List Value) : Layout :=
  { l with
    place := l.place + 1, operands := rest
    free := List.replicate (args.length + 1) .undefined ++ l.free }

theorem invoke_eq {call : NativeCall} {ref : TextRef} {defaults : Array Value}
    (given : call.args = (.text ref :: args).toArray ++ defaults)
    (counts : call.argc = args.length + 1) (world : World) :
    Native.invoke call world = .call world (.name (world.store.text ref)) args.toArray
      NativeStep.relay := by
  have first : call.arg? 0 = some (.text ref) := by
    rw [NativeCall.arg?, given, Array.getElem?_append_left (by simp)]
    rfl
  have others : call.rest = args.toArray := by
    rw [NativeCall.rest, given, counts]
    apply Array.toList_inj.mp
    simp
  unfold Native.invoke
  rw [first, others]
  rfl

theorem CallsByName.perform_eq (calls : machine.CallsByName p l callers id f name args rest)
    (bound : p.native? id = some Native.invoke) (code : Code Value) (keep : Bool) {argc : UInt8}
    (counts : argc.toNat = args.length + 1) :
    machine.perform p limits code (.call keep id argc) =
      { thread := { machine.thread with
          status := .calling, slots := (calling l args rest).slots
          frames := (calling l args rest).frame :: callers }
        world := machine.world.copied f (args.length + 1)
        waiting :=
          { name := "core.invoke", base := machine.base
            landing := if keep then .push else .discard, resume := NativeStep.relay } ::
          machine.waiting
        base := machine.base
        control := .enter (.name name) args.toArray } := by
  obtain ⟨ref, refers, operands⟩ := calls.operands
  have count : (args.reverse ++ [Value.text ref]).length = argc.toNat := by simp [counts]
  have stacked : l.operands = (args.reverse ++ [Value.text ref]) ++ rest := by simp [operands]
  have enough : argc.toNat ≤ l.operands.length := by
    rw [stacked, List.length_append, count]
    exact Nat.le_add_right _ _
  have left : l.operands.drop (args.length + 1) = rest := by
    rw [stacked, List.drop_left' (count.trans counts)]
  have popped : { l with place := l.place + 1 }.after argc.toNat [] = calling l args rest := by
    simp only [Layout.after, left, calling, counts, List.nil_append, List.length_nil,
      List.drop_zero]
  have taken : (l.operands.take argc.toNat).reverse = .text ref :: args := by
    rw [stacked, List.take_left' count]
    simp
  have text : (machine.world.copied f (Value.text ref :: args).toArray.size).store.text ref =
      name := by
    obtain ⟨inside, _⟩ := Array.getElem?_eq_some_iff.mp refers
    have kept := machine.world.store.copyAll_extends
      (f.omitted (Value.text ref :: args).toArray.size)
    rw [World.copied, kept.text ref inside, Store.text, Array.getD_eq_getD_getElem?, refers]
    rfl
  have room : keep.toNat ≤ argc.toNat + l.free.length := Nat.le_trans keep.toNat_le (by omega)
  rw [perform_call_eq calls.framed calls.slotted code keep id enough room, popped, taken]
  have accepts : f.accepts (Value.text ref :: args).toArray.size = true := calls.accepts
  simp only [invoke, calls.known, accepts, if_true, calls.native, bound]
  rw [callNative_eq, invoke_eq rfl rfl]
  simp only [proceed, calls.named, text]
  rfl

theorem straight_perform_eq (machine : Machine) (l : Layout) (callers : List Frame)
    (f : Function Value) (args rest : List Value) (place : Nat) (code : Code Value) (keep : Bool)
    (g : UInt16) {argc : UInt8} (counts : argc.toNat = args.length) :
    (machine.straight l callers f args rest place).perform p limits code (.call keep g argc) =
      invoke p limits
        { thread := { machine.thread with
            status := .calling, slots := (calling l args rest).slots
            frames := { calling l args rest with place := place + 1 }.frame :: callers }
          world := machine.world.copied f (args.length + 1), waiting := machine.waiting
          base := machine.base, control := machine.control }
        g args.toArray (if keep then .push else .discard) := by
  let l' : Layout :=
    { l with place, operands := args.reverse ++ rest, free := .undefined :: l.free }
  have count : args.reverse.length = argc.toNat := by simp [counts]
  have enough : argc.toNat ≤ l'.operands.length := by
    simp only [l', List.length_append, count]
    exact Nat.le_add_right _ _
  have left : l'.operands.drop args.length = rest := List.drop_left' (count.trans counts)
  have taken : (l'.operands.take argc.toNat).reverse = args := by
    rw [List.take_left' count, List.reverse_reverse]
  have popped :
      { l' with place := l'.place + 1 }.after argc.toNat [] =
        { calling l args rest with place := place + 1 } := by
    simp only [Layout.after, left, calling, counts, List.nil_append, List.length_nil,
      List.drop_zero]
    simp only [l', List.replicate_succ', List.append_assoc, List.singleton_append]
  have framed : (machine.straight l callers f args rest place).thread.frames =
    l'.frame :: callers := rfl
  have slotted : (machine.straight l callers f args rest place).thread.slots = l'.slots := rfl
  have room : keep.toNat ≤ argc.toNat + l'.free.length := by
    refine Nat.le_trans keep.toNat_le ?_
    simp only [l', List.length_cons]
    omega
  rw [perform_call_eq framed slotted code keep g enough room, popped, taken]
  rfl

theorem Live.callers_ordered (live : Live p limits machine) (running : machine.control = .execute)
    (framed : machine.thread.frames = l.frame :: callers) :
    machine.base ≤ callers.length ∧ ∀ frame ∈ callers, frame.base ≤ l.below.length := by
  obtain ⟨l', callers', framed', _, within, _, outer⟩ :=
    (live.within.executing running).innermost (by simp)
  obtain ⟨same, rfl⟩ := List.cons.inj (framed'.symm.trans framed)
  have base : l'.below.length = l.below.length := congrArg Frame.base same
  refine ⟨within, fun frame member => ?_⟩
  have inside := outer.framed.inside frame member
  have cursor := outer.framed.cursor frame member
  rw [List.size_toArray, base] at inside
  omega

end Start

end Machine

/-- A call by name is the call itself. A frame calls `core.invoke` with a name and arguments; the
name belongs to the function `g`, and `core.invoke` is declared to take that many. Let the same
frame, at any place, call `g` with these arguments. If either call comes to an end then both do, and
they agree: the frame goes on with the same value, slots and world, or the call it belongs to ends
with the same value or an error of the same cause, whose trace is the same too if both places are on
one line. If they are not, nothing on the way may look at the trace.

The direct call is made where the defaults that `core.invoke` was called without have been copied
already; unless one of them is a container, this is the world as it was. -/
theorem Machine.late_call_agrees (m : Module Value) (s : Store) (limits : Limits) (late : Machine)
    (live : Live (Program.link m s Registry.core) limits late) (l : Layout) (callers : List Frame)
    (id g : UInt16) (f : Function Value) (name : String) (args rest : List Value)
    (calls : late.CallsByName (Program.link m s Registry.core) l callers id f name args rest)
    (found : (Program.link m s Registry.core).find? name = some g) (argc argc' : UInt8)
    (counts : argc.toNat = args.length + 1) (counts' : argc'.toNat = args.length) (keep : Bool)
    (place : Nat) (code : Code Value) :
    let p := Program.link m s Registry.core
    let direct := late.straight l callers f args rest place
    let lined := p.line l.function l.place = p.line l.function place
    let start := late.perform p limits code (.call keep id argc)
    let start' := direct.perform p limits code (.call keep g argc')
    let back := Back late.waiting late.thread.depth
    ((∀ v ∈ f.omitted (args.length + 1), v.tag.isContainer = false) → direct.world = late.world) ∧
    ((lined ∨ ¬ p.Shows g ∧ ∀ machine, Visits p limits back start' machine →
      ∀ id, machine.callee? p = some id → ¬ p.Shows id) →
    (∀ last, Comes p limits back start last →
      ∃ last', Comes p limits back start' last' ∧
        Agree lined (l.place + 1) (place + 1) last last') ∧
    (∀ last', Comes p limits back start' last' →
      ∃ last, Comes p limits back start last ∧
        Agree lined (l.place + 1) (place + 1) last last')) := by
  intro p direct lined start start' back
  refine ⟨World.copied_immediate late.world, fun quiet => ?_⟩
  obtain ⟨within, ordered⟩ := live.callers_ordered calls.running calls.framed
  let k : Fork :=
    { waiting := late.waiting, base := late.base, dest := if keep then .push else .discard
      name := "core.invoke"
      caller := calling l args rest, place := place + 1, callers, within, ordered
      awaited := by cases keep <;> simp
      room := by simp only [calling, List.length_append, List.length_replicate]; omega }
  have same : back = k.Over := by
    simp only [back, Thread.depth, calls.framed]
    rfl
  have clean := live.clean (Program.link_core m s) calls.running
  have host : p.native? id = some Native.invoke := by
    rw [Program.link_native?_eq calls.known]
    simp [Function.isNative, Function.code?, calls.native, calls.named, Registry.core]
  have asks : start =
      { thread := { status := .calling, slots := k.caller.slots, frames := k.late.frames
                    fault := none }
        world := late.world.copied f (args.length + 1), waiting := k.late.waiting, base := late.base
        control := .enter (.name name) args.toArray } := by
    rw [← clean]
    exact calls.perform_eq host code keep counts
  have calls' : start' = invoke p limits
      (k.direct.machine .calling k.caller.slots none (late.world.copied f (args.length + 1))
        late.control) g
      args.toArray k.direct.dest := by
    rw [← clean]
    exact straight_perform_eq late l callers f args rest place code keep g counts'
  rw [same] at quiet ⊢
  -- the native takes one step to ask for the call; from there on both calls go abreast
  have bound := Program.link_bound m s
  have first : k.Lined p ∨ ¬ p.Shows g := quiet.imp_right And.left
  have hushed : Hushed p limits k start' := quiet.imp_right And.right
  have abreast : Abreast p k (start.next p limits) start' := by
    rw [asks, next_name found, calls']
    exact invoke_abreast .root bound limits first args.toArray
  have inside : Within limits k.root (start.next p limits) := by
    rw [asks]
    exact next_within p (.enter .root) (by rintro ⟨_, _, answered⟩; contradiction)
  have unfinished : ¬ k.Over start := by
    rw [asks]
    exact not_back_of_longer (Nat.lt_succ_self _) _
  refine ⟨fun last comes => ?_, fun last' comes' => ?_⟩
  · obtain ⟨last₀, last', comes₀, comes', agree⟩ :=
      abreast.agreed_of_late inside bound hushed (comes.onward unfinished)
    obtain rfl := comes₀.unique (comes.onward unfinished)
    exact ⟨last', comes', agree⟩
  · obtain ⟨last, last₀, comes, comes₀, agree⟩ :=
      abreast.agreed_of_direct inside bound hushed comes'
    obtain rfl := comes₀.unique comes'
    exact ⟨last, comes.step unfinished, agree⟩

def Function.byName (arity : UInt8) : Function Value :=
  .native .null "invoke" "core" arity arity

def Function.traces : Function Value :=
  .native .null "stack_trace" "core" 0 0

def Code.naming : Code Value where
  instructions := #[.wide .load 0, .call true 0 1, .plain .pop, .call true 1 0, .plain .pop,
    .call true 3 0, .plain .ret]
  constants := #[]
  tables := #[]
  locals := 1
  stack := 1
  lines := #[{ start := 0, line := 1 }, { start := 3, line := 2 }, { start := 4, line := 1 }]

def Module.naming (arity : UInt8) : Module Value where
  functions := #[
    .byName arity,
    .traces,
    { name := "main", module := "sample", minArgs := 1, maxArgs := 1, params := #["name"]
      defaults := #[]
      body := .bytecode .naming },
    { name := "seven", module := "sample", minArgs := 0, maxArgs := 0, params := #[]
      defaults := #[]
      body := .bytecode
        { instructions := #[.short 7, .plain .ret], constants := #[], tables := #[], locals := 0
          stack := 1 } }]

def Layout.naming : Layout where
  function := 2
  place := 1
  dest := .host
  below := []
  locals := [.text ⟨0⟩]
  operands := [.text ⟨0⟩]
  free := []
  above := []

def Machine.naming (name : String) : Machine where
  thread := { status := .running, slots := Layout.naming.slots, frames := [Layout.naming.frame] }
  world := { store := { texts := #[name] }, console := "", interrupted := false }
  control := .execute

section Naming

variable (arity : UInt8)

theorem Module.naming_function? (id : UInt16) :
    (Program.link (.naming arity) {} Registry.core).function? id =
      (Module.naming arity).functions[id.toNat]? := by
  simp [Program.function?, Program.link, Module.naming, Code.naming, Function.byName,
    Function.traces, Function.native, Function.sortTables, Code.sortTables, Code.binaryTables]

theorem Module.naming_code? :
    (Program.link (.naming arity) {} Registry.core).code? 2 = some .naming := by
  rw [Program.code?, naming_function?]
  rfl

theorem Module.naming_native? :
    (Program.link (.naming arity) {} Registry.core).native? 0 = some Native.invoke ∧
      (Program.link (.naming arity) {} Registry.core).native? 1 = some Native.stackTrace := by
  simp [Program.native?, Program.link, Module.naming, Function.byName, Function.traces,
    Function.native, Function.isNative, Function.qualifiedName, Registry.core, Function.code?]

theorem Module.naming_find? :
    (Program.link (.naming arity) {} Registry.core).find? "core.stack_trace" = some 1 ∧
      (Program.link (.naming arity) {} Registry.core).find? "seven" = some 3 := by
  have names : (Program.link (.naming arity) {} Registry.core).names =
      ((((((((∅ : Std.HashMap String UInt16).insertIfNew "core.invoke" 0).insertIfNew
        "invoke" 0).insertIfNew "core.stack_trace" 1).insertIfNew "stack_trace" 1).insertIfNew
        "sample.main" 2).insertIfNew "main" 2).insertIfNew "sample.seven" 3).insertIfNew
        "seven" 3 := rfl
  simp only [Program.find?, names, Std.HashMap.getElem?_insertIfNew, Std.HashMap.mem_insertIfNew]
  simp

theorem Machine.naming_live (name : String) :
    Live (Program.link (.naming arity) {} Registry.core) {} (.naming name) := by
  have known := Module.naming_function? arity
  generalize Program.link (.naming arity) {} Registry.core = p at known ⊢
  let asking : Machine :=
    { Machine.naming name with thread := {}, control := .enter (.id 2) #[.text ⟨0⟩] }
  let entered : Machine :=
    { Machine.naming name with
      thread := { status := .calling, slots := #[.text ⟨0⟩, .undefined]
                  frames := [{ Layout.naming.frame with tos := 1, place := 0 }] } }
  have first : next p {} asking = entered := by
    simp only [asking, next, enter, Callee.resolve, invoke, known]
    rfl
  have second : next p {} entered = .naming name := by
    simp only [next, execute, setStatus, Program.code?, entered, known]
    rfl
  have start : Live p {} asking := .first _ _ _
  have live := start.step.step
  rwa [first, second] at live

theorem Machine.naming_calls (name : String) (accepts : (1 : UInt8) = arity) :
    (Machine.naming name).CallsByName (Program.link (.naming arity) {} Registry.core) .naming [] 0
      (.byName arity) name [] [] where
  running := rfl
  framed := rfl
  slotted := rfl
  known := by rw [Module.naming_function?]; rfl
  native := rfl
  named := rfl
  accepts := by subst accepts; rfl
  operands := ⟨⟨0⟩, rfl, rfl⟩

theorem Machine.naming_direct (name : String) :
    let p := Program.link (.naming arity) {} Registry.core
    let direct := (Machine.naming name).straight .naming [] (.byName arity) [] [] 5
    Comes p {} (Back [] 1) (direct.next p {})
      { thread :=
          { status := .returning, slots := #[.text ⟨0⟩, .int 7]
            frames := [{ Layout.naming.frame with place := 6 }] }
        world := direct.world, control := .execute } := by
  intro p direct
  have known : ∀ id, p.function? id = _ := Module.naming_function? arity
  generalize p = p at known ⊢
  let seven : Frame :=
    { function := 3, base := 2, locals := 0, limit := 3, tos := 2, place := 0, dest := .push }
  let caller : Frame := { Layout.naming.frame with tos := 1, place := 6 }
  let called : Machine :=
    { direct with
      thread := { status := .calling, slots := #[.text ⟨0⟩, .undefined, .undefined]
                  frames := [seven, caller] } }
  let pushed : Machine :=
    { direct with
      thread := { status := .running, slots := #[.text ⟨0⟩, .undefined, .int 7]
                  frames := [{ seven with tos := 3, place := 1 }, caller] } }
  have first : direct.next p {} = called := by
    have body : p.code? 2 = some .naming := by simp only [Program.code?, known]; rfl
    have calls : direct.next p {} = direct.perform p {} .naming (.call true 3 0) :=
      next_eq_perform rfl rfl body rfl
    rw [calls, straight_perform_eq _ _ _ _ [] _ _ _ _ _ rfl]
    simp only [invoke, known]
    rfl
  have second : called.next p {} = pushed := by
    simp only [next, execute, setStatus, Program.code?, called, direct, straight, naming, seven,
      known]
    rfl
  have third : pushed.next p {} =
      { thread :=
          { status := .returning, slots := #[.text ⟨0⟩, .int 7]
            frames := [{ Layout.naming.frame with place := 6 }] }
        world := direct.world, control := .execute } := by
    simp only [next, execute, setStatus, Program.code?, pushed, direct, straight, naming, seven,
      known]
    rfl
  rw [first]
  refine .step (not_back_of_deeper rfl (Nat.succ_ne_self 1)) ?_
  rw [second]
  refine .step (not_back_of_deeper rfl (Nat.succ_ne_self 1)) ?_
  rw [third]
  exact comes_here ⟨rfl, .inl ⟨rfl, rfl⟩⟩

end Naming

theorem Machine.late_call_agrees_seven :
    let p := Program.link (.naming 1) {} Registry.core
    let late := Machine.naming "seven"
    let direct := late.straight .naming [] (.byName 1) [] [] 5
    Live p {} late ∧ late.CallsByName p .naming [] 0 (.byName 1) "seven" [] [] ∧
      p.find? "seven" = some 3 ∧
    ∃ last last', Comes p {} (Back [] 1) (late.next p {}) last ∧
      Comes p {} (Back [] 1) (direct.next p {}) last' ∧
      Agree (p.line 2 1 = p.line 2 5) 2 6 last last' ∧
        last'.thread.slots = #[.text ⟨0⟩, .int 7] := by
  intro p late direct
  have live : Live p {} late := naming_live 1 "seven"
  have calls : late.CallsByName p .naming [] 0 (.byName 1) "seven" [] [] :=
    naming_calls 1 "seven" rfl
  have found : p.find? "seven" = some 3 := (Module.naming_find? 1).2
  have body : p.code? 2 = some .naming := Module.naming_code? 1
  have lined : p.line 2 1 = p.line 2 5 := by simp only [Program.line, body]; rfl
  have comes' : Comes p {} (Back [] 1) (direct.next p {}) _ := naming_direct 1 "seven"
  have calls' : direct.next p {} = direct.perform p {} .naming (.call true 3 0) :=
    next_eq_perform rfl rfl body rfl
  have starts : late.next p {} = late.perform p {} .naming (.call true 0 1) :=
    next_eq_perform rfl rfl body rfl
  obtain ⟨_, agrees⟩ :=
    late_call_agrees (.naming 1) {} {} late live .naming [] 0 3 (.byName 1) "seven" [] [] calls
    found 1 0 rfl rfl true 5 .naming
  obtain ⟨last, comes, agree⟩ := (agrees (.inl lined)).2 _ (calls' ▸ comes')
  exact ⟨live, calls, found, last, _, starts ▸ comes, comes', agree, rfl⟩

def World.showing (world : World) (entry : TraceEntry) : World :=
  { world with
    store := { world.store with
      texts := world.store.texts.push entry.text
      lists := world.store.lists.push #[.text ⟨world.store.texts.size⟩] } }

theorem Machine.callNative_stackTrace (machine : Machine) (p : Program) (id : UInt16)
    {f : Function Value} (dest : Destination) {entry : TraceEntry} (bare : f.defaults = #[])
    (alone : machine.thread.trace p = [entry]) :
    machine.callNative p id f Native.stackTrace #[] dest =
      proceed machine.thread machine.waiting machine.base f.qualifiedName dest
        (.value (machine.world.showing entry) (.list ⟨machine.world.store.lists.size⟩)) := by
  have none : f.omitted (#[] : Array Value).size = #[] := by simp [Function.omitted, bare]
  rw [callNative_eq]
  simp only [nativeCall, none, World.copied, alone]
  rfl

theorem Machine.naming_shows (machine : Machine) (dest : Destination) {frame : Frame}
    (main : frame.function = 2) (framed : machine.thread.frames = [frame]) :
    machine.invoke (Program.link (.naming 1) {} Registry.core) {} 1 #[] dest =
      proceed machine.thread machine.waiting machine.base "core.stack_trace" dest
        (.value (machine.world.showing ⟨"main", "sample", lineAt Code.naming.lines frame.lastPlace⟩)
          (.list ⟨machine.world.store.lists.size⟩)) := by
  have known := Module.naming_function? 1
  have bound := (Module.naming_native? 1).2
  generalize Program.link (.naming 1) {} Registry.core = p at known bound ⊢
  have there : p.function? 1 = some .traces := by rw [known]; rfl
  have entry : p.traceEntry frame = ⟨"main", "sample", lineAt Code.naming.lines frame.lastPlace⟩ :=
    by
    simp only [Program.traceEntry, main, known]
    rfl
  have alone : machine.thread.trace p =
      [⟨"main", "sample", lineAt Code.naming.lines frame.lastPlace⟩] := by
    rw [Thread.trace, framed, List.map_singleton, entry]
  simp only [invoke, there, bound]
  exact callNative_stackTrace (f := .traces) machine p 1 dest rfl alone

theorem Machine.naming_shown :
    let p := Program.link (.naming 1) {} Registry.core
    let late := Machine.naming "core.stack_trace"
    let direct := late.straight .naming [] (.byName 1) [] [] 3
    let shown (status : Status) (place : Nat) (line : UInt32) : Machine :=
      { thread := { status, slots := #[.text ⟨0⟩, .list ⟨0⟩]
                    frames := [{ Layout.naming.frame with place }] }
        world := late.world.showing ⟨"main", "sample", some line⟩
        control := .execute }
    Comes p {} (Back [] 1) (late.next p {}) (shown .running 2 1) ∧
      Comes p {} (Back [] 1) (direct.next p {}) (shown .calling 4 2) := by
  intro p late direct shown
  have calls : late.CallsByName p .naming [] 0 (.byName 1) "core.stack_trace" [] [] :=
    naming_calls 1 _ rfl
  have named : p.find? "core.stack_trace" = some 1 := (Module.naming_find? 1).1
  have body : p.code? 2 = some .naming := Module.naming_code? 1
  have bound : p.native? 0 = some Native.invoke := (Module.naming_native? 1).1
  have shows (machine : Machine) (dest : Destination) {frame : Frame} (main : frame.function = 2)
      (framed : machine.thread.frames = [frame]) : machine.invoke p {} 1 #[] dest = _ :=
    naming_shows machine dest main framed
  generalize p = p at calls named body bound shows ⊢
  constructor
  · let ended : Machine :=
      { shown .calling 2 1 with
        thread := { status := .calling, slots := #[.text ⟨0⟩, .undefined]
                    frames := [{ Layout.naming.frame with tos := 1, place := 2 }] }
        waiting := [{ name := "core.invoke", base := 0, landing := .push
                      resume := NativeStep.relay }]
        base := 1
        control := .settle (.ok (.list ⟨0⟩)) }
    let asked : Machine :=
      { ended with world := late.world, base := 0, control := .enter (.id 1) #[] }
    have enters : asked.next p {} = invoke p {} { asked with base := 1 } 1 #[] .host := by
      simp only [asked, next, enter, Callee.resolve]
      rfl
    have settles : asked.next p {} = ended := by
      rw [enters, shows _ _ rfl rfl]
      rfl
    have starts : late.next p {} = late.perform p {} .naming (.call true 0 1) :=
      next_eq_perform rfl rfl body rfl
    rw [starts, calls.perform_eq bound _ _ rfl]
    refine .step (not_back_of_longer (Nat.lt_succ_self _) _) ?_
    rw [next_name named]
    change Comes p {} _ (asked.next p {}) _
    rw [settles]
    refine .step not_back_settle (.step (not_back_of_longer (Nat.lt_succ_self _) _) ?_)
    exact comes_here ⟨rfl, .inl ⟨rfl, rfl⟩⟩
  · have starts : direct.next p {} = direct.perform p {} .naming (.call true 1 0) :=
      next_eq_perform rfl rfl body rfl
    rw [starts, straight_perform_eq _ _ _ _ [] _ _ _ _ _ rfl]
    simp only [List.toArray]
    rw [shows _ _ rfl rfl]
    exact comes_here ⟨rfl, .inl ⟨rfl, rfl⟩⟩

theorem Machine.naming_refused (name : String) :
    let p := Program.link (.naming 2) {} Registry.core
    ∃ last trace, Comes p {} (Back [] 1) ((Machine.naming name).next p {}) last ∧
      last.control = .answer (.error (.crashed (.arity "core.invoke" 2 2 1) trace)) := by
  intro p
  have known : p.function? 0 = some (.byName 2) := by rw [Module.naming_function?]; rfl
  have body : p.code? 2 = some .naming := Module.naming_code? 2
  have starts : (naming name).next p {} = (naming name).perform p {} .naming (.call true 0 1) :=
    next_eq_perform rfl rfl body rfl
  have framed : (naming name).thread.frames = [Layout.naming.frame] := rfl
  have slotted : (naming name).thread.slots = Layout.naming.slots := rfl
  rw [starts, perform_call_eq framed slotted .naming true 0 (by decide) (by decide)]
  simp only [invoke, known]
  exact ⟨_, _, .step not_back_settle (comes_here ⟨rfl, .inr ⟨_, rfl⟩⟩), rfl⟩

/-- Where a call by name and the call itself differ. A native that is declared with another number
of parameters refuses the name; and a function that looks at the trace sees the line of its call. -/
theorem Machine.late_call_differs :
    (let p := Program.link (.naming 2) {} Registry.core
      let late := Machine.naming "seven"
      let direct := late.straight .naming [] (.byName 2) [] [] 5
      Live p {} late ∧ p.find? "seven" = some 3 ∧ direct.world = late.world ∧
      (∃ last trace, Comes p {} (Back [] 1) (late.next p {}) last ∧
        last.control = .answer (.error (.crashed (.arity "core.invoke" 2 2 1) trace))) ∧
      ∃ last', Comes p {} (Back [] 1) (direct.next p {}) last' ∧ last'.control = .execute ∧
        last'.thread.slots = #[.text ⟨0⟩, .int 7]) ∧
    (let p := Program.link (.naming 1) {} Registry.core
      let late := Machine.naming "core.stack_trace"
      let direct := late.straight .naming [] (.byName 1) [] [] 3
      Live p {} late ∧ late.CallsByName p .naming [] 0 (.byName 1) "core.stack_trace" [] [] ∧
      p.find? "core.stack_trace" = some 1 ∧ direct.world = late.world ∧
      ∃ last last', Comes p {} (Back [] 1) (late.next p {}) last ∧
        Comes p {} (Back [] 1) (direct.next p {}) last' ∧
        last.thread.slots = #[.text ⟨0⟩, .list ⟨0⟩] ∧ last.world.store.lists = #[#[.text ⟨1⟩]] ∧
        last.world.store.texts = #["core.stack_trace", "sample.main:1"] ∧
        last'.thread.slots = #[.text ⟨0⟩, .list ⟨0⟩] ∧ last'.world.store.lists = #[#[.text ⟨1⟩]] ∧
        last'.world.store.texts = #["core.stack_trace", "sample.main:2"]) := by
  refine ⟨⟨naming_live 2 _, (Module.naming_find? 2).2, rfl, naming_refused _, _, naming_direct 2 _,
    rfl, rfl⟩, ?_⟩
  obtain ⟨comes, comes'⟩ := naming_shown
  exact ⟨naming_live 1 _, naming_calls 1 _ rfl, (Module.naming_find? 1).1, rfl, _, _, comes, comes',
    rfl, rfl, rfl, rfl, rfl, rfl⟩

end StackMachine
