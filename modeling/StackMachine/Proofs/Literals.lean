import StackMachine.Proofs.ConfinedRuns

/-! Literals are immutable. A run under the core natives that begins with arguments apart from the
literals of the module keeps to a territory that the literals are outside of. So they keep their
contents, nothing that the run has at hand leads to them, and every value that stems from a literal
has the contents that the literal had at first. -/

namespace StackMachine

namespace Module

inductive IsLiteral (m : Module Value) : Value → Prop
  | constant {f : Function Value} {code : Code Value} {v : Value} (member : f ∈ m.functions)
    (body : f.code? = some code) (constant : v ∈ code.constants) : IsLiteral m v
  | default {f : Function Value} {v : Value} (member : f ∈ m.functions) (default : v ∈ f.defaults) :
    IsLiteral m v
  | global {e : String × Value} (member : e ∈ m.globals) : IsLiteral m e.2

/-- Every container that can be reached from a literal is in `s` as it is in `origin`. -/
def Intact (m : Module Value) (origin s : Store) : Prop :=
  ∀ literal v, m.IsLiteral literal → origin.Reach literal v → s.Has v ∧ origin.Same s v

/-- No container can be reached both from `v` and from a literal. -/
def Apart (m : Module Value) (s : Store) (v : Value) : Prop :=
  ∀ literal w, m.IsLiteral literal → w.tag.isContainer = true → s.Reach literal w → ¬ s.Reach v w

variable {m : Module Value} {origin s : Store} {literal v : Value}

theorem Intact.reach_back (intact : m.Intact origin s) (known : m.IsLiteral literal)
    (reach : s.Reach literal v) : origin.Reach literal v :=
  reach.same fun x reach => (intact literal x known reach).2

theorem Intact.same_back (intact : m.Intact origin s) (known : m.IsLiteral literal)
    (reach : s.Reach literal v) : s.Same origin v :=
  (intact literal v known (intact.reach_back known reach)).2.symm

theorem Intact.reach (intact : m.Intact origin s) (known : m.IsLiteral literal)
    (reach : origin.Reach literal v) : s.Reach literal v :=
  reach.same fun _ reach => intact.same_back known reach

theorem Intact.stored (intact : m.Intact origin s) (known : m.IsLiteral literal) :
    s.Stored literal :=
  fun v reach => (intact literal v known (intact.reach_back known reach)).1

end Module

section Loaded

def Function.Stored (f : Function Value) (s : Store) : Prop :=
  (∀ v ∈ f.defaults, s.Stored v) ∧ ∀ code, f.code? = some code → ∀ v ∈ code.constants, s.Stored v

namespace Store

theorem loadFunction_stored (s : Store) (f : Function Literal) :
    s.Extends (s.loadFunction f).2 ∧ (s.loadFunction f).1.Stored (s.loadFunction f).2 := by
  obtain ⟨name, module, minArgs, maxArgs, params, defaults, body⟩ := f
  have filled := s.loadAll_extends defaults
  have stored := s.loadAll_stored defaults
  cases body with
  | native => exact ⟨filled, stored, nofun⟩
  | bytecode code =>
    have grows := (s.loadAll defaults).2.loadAll_extends code.constants
    refine ⟨filled.trans grows, fun v member => (stored v member).extends grows,
      fun loaded same => ?_⟩
    obtain rfl := Option.some.inj same
    exact (s.loadAll defaults).2.loadAll_stored code.constants

theorem foldl_loaded {α β : Type} (load : Store → α → β × Store) (Fine : Store → β → Prop)
    (later : ∀ {s t b}, s.Extends t → Fine s b → Fine t b)
    (each : ∀ s a, s.Extends (load s a).2 ∧ Fine (load s a).2 (load s a).1) (items : List α)
    (s : Store) (done : Array β) (fine : ∀ b ∈ done, Fine s b) :
    s.Extends (items.foldl (fun r a => (r.1.push (load r.2 a).1, (load r.2 a).2)) (done, s)).2 ∧
      ∀ b ∈ (items.foldl (fun r a => (r.1.push (load r.2 a).1, (load r.2 a).2)) (done, s)).1,
        Fine (items.foldl (fun r a => (r.1.push (load r.2 a).1, (load r.2 a).2)) (done, s)).2
          b := by
  induction items generalizing s done with
  | nil => exact ⟨.refl s, fine⟩
  | cons item rest ih =>
    obtain ⟨grows, new⟩ := each s item
    obtain ⟨further, all⟩ := ih (load s item).2 (done.push (load s item).1) fun b member => by
      rcases Array.mem_push.mp member with old | rfl
      · exact later grows (fine b old)
      · exact new
    exact ⟨grows.trans further, all⟩

theorem loadFunctions_stored (s : Store) (fs : Array (Function Literal)) :
    s.Extends (s.loadFunctions fs).2 ∧
      ∀ f ∈ (s.loadFunctions fs).1, f.Stored (s.loadFunctions fs).2 := by
  unfold loadFunctions
  rw [← Array.foldl_toList]
  refine foldl_loaded loadFunction (fun s f => f.Stored s) (fun grows stored => ?_)
    loadFunction_stored fs.toList s #[] (by simp)
  exact ⟨fun v member => (stored.1 v member).extends grows,
    fun code body v member => (stored.2 code body v member).extends grows⟩

theorem loadGlobals_stored (s : Store) (globals : Array (String × Literal)) :
    s.Extends (s.loadGlobals globals).2 ∧
      ∀ e ∈ (s.loadGlobals globals).1, (s.loadGlobals globals).2.Stored e.2 := by
  unfold loadGlobals
  rw [← Array.foldl_toList]
  let load (s : Store) (e : String × Literal) : (String × Value) × Store :=
    ((e.1, (s.load e.2).1), (s.load e.2).2)
  have each (s : Store) (e : String × Literal) : s.Extends (load s e).2 ∧
      (load s e).2.Stored (load s e).1.2 :=
    ⟨build_extends s e.2, build_stored s nofun e.2⟩
  exact foldl_loaded load (fun s e => s.Stored e.2) (fun grows stored => stored.extends grows) each
    globals.toList s #[] (by simp)

end Store

theorem Module.loadModule_intact (s : Store) (m : Module Literal) {later : Store}
    (grows : (s.loadModule m).2.Extends later) :
    (s.loadModule m).1.Intact (s.loadModule m).2 later := by
  obtain ⟨_, functions⟩ := s.loadFunctions_stored m.functions
  obtain ⟨further, globals⟩ := (s.loadFunctions m.functions).2.loadGlobals_stored m.globals
  have stored (literal : Value) (known : (s.loadModule m).1.IsLiteral literal) :
      (s.loadModule m).2.Stored literal := by
    cases known with
    | constant member body constant =>
      exact ((functions _ member).2 _ body _ constant).extends further
    | default member default => exact ((functions _ member).1 _ default).extends further
    | global member => exact globals _ member
  intro literal v known reach
  have has := stored literal known v reach
  exact ⟨grows.has v has, grows.same v has⟩

end Loaded

namespace Program

variable {m : Module Value} {s : Store} {registry : Registry} {v : Value}

theorem link_function? {id : UInt16} {g : Function Value}
    (found : (link m s registry).function? id = some g) :
    ∃ f ∈ m.functions, g = f.sortTables s := by
  simp only [function?, link, Array.getElem?_map, Option.map_eq_some_iff] at found
  obtain ⟨f, there, same⟩ := found
  exact ⟨f, Array.mem_of_getElem? there, same.symm⟩

theorem link_defaults {id : UInt16} {g : Function Value}
    (found : (link m s registry).function? id = some g) (member : v ∈ g.defaults) :
    m.IsLiteral v := by
  obtain ⟨f, there, rfl⟩ := link_function? found
  refine .default there ?_
  unfold Function.sortTables at member
  split at member
  · exact member
  · exact member

theorem link_constants {id : UInt16} {code : Code Value}
    (found : (link m s registry).code? id = some code) (member : v ∈ code.constants) :
    m.IsLiteral v := by
  obtain ⟨g, known, body⟩ := Option.bind_eq_some_iff.mp found
  obtain ⟨f, there, rfl⟩ := link_function? known
  obtain ⟨name, module, minArgs, maxArgs, params, defaults, original⟩ := f
  cases original with
  | native => contradiction
  | bytecode original =>
    obtain rfl : original.sortTables s = code := Option.some.inj body
    exact .constant there rfl member

theorem mem_of_globalTable {globals : Array (String × Value)} {name : String}
    (found : (globalTable globals)[name]? = some v) : ∃ e ∈ globals, e.2 = v := by
  suffices ∀ (name : String) (v : Value), (globalTable globals)[name]? = some v →
    ∃ e ∈ globals, e.2 = v from
    this name v found
  refine Array.foldl_induction
    (fun _ (table : Std.HashMap String Value) => ∀ name v, table[name]? = some v →
      ∃ e ∈ globals, e.2 = v)
    (by simp) fun i table ih name v found => ?_
  replace found : (table.insert globals[i].1 globals[i].2)[name]? = some v := found
  rw [Std.HashMap.getElem?_insert] at found
  split at found
  · exact ⟨globals[i], Array.getElem_mem i.isLt, Option.some.inj found⟩
  · exact ih name v found

theorem link_globals {name : String} (found : (link m s registry).global? name = some v) :
    m.IsLiteral v := by
  obtain ⟨e, member, rfl⟩ := mem_of_globalTable found
  exact .global member

end Program

namespace Territory

/-- What a run that begins with these arguments may have to do with: containers that the arguments
lead to, and all those that are still to be made. -/
def around (s : Store) (args : Array Value) : Territory where
  origin := s
  inside v := v.tag.isContainer = false ∨ ¬ s.Has v ∨ ∃ arg ∈ args, s.Reach arg v
  immediate := .inl
  fresh new := .inr (.inl new)

theorem around_holds (s : Store) (args : Array Value) : (around s args).Holds s := by
  refine ⟨fun _ has => has, fun v w within inside => ?_, fun v _ => .refl s v⟩
  rcases within with plain | missing | ⟨arg, member, reach⟩
  · simp [inside.isContainer] at plain
  · exact absurd inside.has missing
  · exact .inr (.inr ⟨arg, member, .inside reach inside⟩)

variable {m : Module Value} {s origin : Store} {args : Array Value}

theorem around_foreign (intact : m.Intact origin s) (apart : ∀ arg ∈ args, m.Apart s arg)
    {literal : Value} (known : m.IsLiteral literal) : (around s args).Foreign literal := by
  intro w reach
  have has : s.Has w := intact.stored known w reach
  refine ⟨has, fun container within => ?_⟩
  rcases within with plain | missing | ⟨arg, member, shared⟩
  · simp [container] at plain
  · exact missing has
  · exact apart arg member literal w known container reach shared

theorem around_excludes (intact : m.Intact origin s) (apart : ∀ arg ∈ args, m.Apart s arg)
    (s' : Store) (registry : Registry) : (around s args).Excludes (Program.link m s' registry) where
  constants found _ member := around_foreign intact apart (Program.link_constants found member)
  defaults found _ member := around_foreign intact apart (Program.link_defaults found member)
  globals found := around_foreign intact apart (Program.link_globals found)

end Territory

def Exec.pushCopy (v : Value) : Exec Flow := do
  Exec.push (← Exec.deepCopy v)
  return .next

theorem Exec.pushCopy_ok {v : Value} {a b : Activation} {flow : Flow}
    (done : pushCopy v a = .ok flow b) :
    b.store = (a.store.deepCopy v).2 ∧ b.slots[a.frame.tos]? = some (a.store.deepCopy v).1 := by
  simp only [pushCopy, deepCopy, push, Bind.bind, EStateM.bind] at done
  split at done
  next room =>
    split at room
    next inside =>
      obtain ⟨_, rfl⟩ := EStateM.Result.ok.inj room
      obtain ⟨_, rfl⟩ := EStateM.Result.ok.inj done
      simp only [Bool.and_eq_true, decide_eq_true_eq] at inside
      exact ⟨rfl, by simp [inside.2]⟩
    next => contradiction
  next => contradiction

def Activation.onward (a : Activation) : Activation :=
  { a with frame := { a.frame with place := a.frame.place + 1 } }

namespace Instruction

variable {p : Program} {code : Code Value} {a b : Activation} {flow : Flow} {index : UInt16}
  {literal : Value}

theorem execute_of_perform {i : Instruction} (done : i.perform p code a = .ok flow b) :
    i.execute p code a.onward = .ok flow b := by
  have opened : i.perform p code a =
      (if a.onward.frame.fits i then i.execute p code else Exec.fault (.doesNotFit i)) a.onward :=
        rfl
  rw [opened] at done
  split at done
  · exact done
  · contradiction

theorem constant_ok (found : code.constants[index.toNat]? = some literal)
    (done : (wide .constant index).perform p code a = .ok flow b) :
    b.store = (a.store.deepCopy literal).2 ∧
      b.slots[a.frame.tos]? = some (a.store.deepCopy literal).1 := by
  have executed := execute_of_perform done
  simp only [execute, Wide.execute, Code.constant, found] at executed
  have pushed := Exec.pushCopy_ok (a := a.onward) executed
  exact pushed

theorem global_ok {ref : TextRef} (found : code.constants[index.toNat]? = some (.text ref))
    (named : p.global? (a.store.text ref) = some literal)
    (done : (wide .global index).perform p code a = .ok flow b) :
    b.store = (a.store.deepCopy literal).2 ∧
      b.slots[a.frame.tos]? = some (a.store.deepCopy literal).1 := by
  have executed := execute_of_perform done
  have named : p.global? (a.onward.store.text ref) = some literal := named
  simp only [execute, Wide.execute, Code.constant, found, Program.readGlobal, Exec.view, Bind.bind,
    EStateM.bind, pure, EStateM.pure, named] at executed
  have pushed := Exec.pushCopy_ok (a := a.onward) executed
  exact pushed

end Instruction

theorem Machine.callCode_entered {machine : Machine} {limits : Limits} {id : UInt16}
    {f : Function Value} {code : Code Value} {args : Array Value} {dest : Destination}
    (entered : (machine.callCode limits id f code args dest).control = .execute) :
    let copies := machine.world.store.copyAll (f.omittedParams args.size)
    (machine.callCode limits id f code args dest).world.store = copies.2 ∧
      (machine.callCode limits id f code args dest).thread =
        machine.thread.enter id code (args ++ copies.1) dest := by
  unfold callCode at entered ⊢
  split at entered
  · contradiction
  · exact ⟨rfl, rfl⟩

namespace Program

/-- The ways in which a run comes by a literal when `s` is the store: the literal is copied, which
makes `t` of the store, and its place is taken by the value `w`. -/
inductive Brings (p : Program) (s : Store) : Value → Store → Value → Prop
  /-- An instruction pushes a constant. -/
  | constant {id index : UInt16} {code : Code Value} {frame : Frame} {slots : Array Value}
    {flow : Flow} {b : Activation} {literal w : Value} (body : p.code? id = some code)
    (found : code.constants[index.toNat]? = some literal)
    (done : (Instruction.wide .constant index).perform p code ⟨frame, slots, s⟩ = .ok flow b)
    (pushed : b.slots[frame.tos]? = some w) : Brings p s literal b.store w
  /-- An instruction pushes the global that a constant names. -/
  | global {id index : UInt16} {code : Code Value} {frame : Frame} {slots : Array Value}
    {flow : Flow} {b : Activation} {ref : TextRef} {literal w : Value}
    (body : p.code? id = some code) (found : code.constants[index.toNat]? = some (.text ref))
    (named : p.global? (s.text ref) = some literal)
    (done : (Instruction.wide .global index).perform p code ⟨frame, slots, s⟩ = .ok flow b)
    (pushed : b.slots[frame.tos]? = some w) : Brings p s literal b.store w
  /-- A native is called without an argument that has a default. -/
  | argument {id : UInt16} {f : Function Value} {machine : Machine} {args : Array Value} {i : Nat}
    {literal w : Value} (known : p.function? id = some f) (here : machine.world.store = s)
    (omitted : (f.omitted args.size)[i]? = some literal)
    (filled : (machine.nativeCall p id f args).args[args.size + i]? = some w) :
    Brings p s literal (machine.world.copied f args.size).store w
  /-- Bytecode is called without an argument that has a default: a local of the new frame takes it.
  -/
  | default {id : UInt16} {f : Function Value} {code : Code Value} {limits : Limits}
    {machine : Machine} {args : Array Value} {dest : Destination} {i : Nat} {literal w : Value}
    (known : p.function? id = some f) (here : machine.world.store = s)
    (omitted : (f.omittedParams args.size)[i]? = some literal)
    (entered : (machine.callCode limits id f code args dest).control = .execute)
    (filled : (machine.callCode limits id f code args dest).thread.slots[
      machine.thread.slots.size + args.size + i]? = some w) :
    Brings p s literal (machine.callCode limits id f code args dest).world.store w

variable {m : Module Value} {s s' origin t : Store} {registry : Registry} {literal w : Value}

theorem Brings.alike (brings : (link m s' registry).Brings s literal t w)
    (intact : m.Intact origin s) : origin.Alike literal t w := by
  have copied {t : Store} {w : Value} (known : m.IsLiteral literal) (alike : s.Alike literal t w) :
      origin.Alike literal t w :=
    alike.congr (fun x reach => intact.same_back known reach) fun y _ => .refl t y
  cases brings with
  | constant body found done pushed =>
    have known := link_constants body (Array.mem_of_getElem? found)
    obtain ⟨same, top⟩ := Instruction.constant_ok found done
    obtain rfl := Option.some.inj (top.symm.trans pushed)
    rw [same]
    exact copied known (Store.deepCopy_alike (intact.stored known))
  | global body found named done pushed =>
    have known := link_globals named
    obtain ⟨same, top⟩ := Instruction.global_ok found named done
    obtain rfl := Option.some.inj (top.symm.trans pushed)
    rw [same]
    exact copied known (Store.deepCopy_alike (intact.stored known))
  | @argument id f machine args i _ _ known here omitted filled =>
    subst here
    have literals (v : Value) (member : v ∈ f.omitted args.size) : m.IsLiteral v :=
      link_defaults known (mem_of_mem_extract member)
    have made : (machine.world.store.copyAll (f.omitted args.size)).1[i]? = some w := by
      simpa [Machine.nativeCall, Array.getElem?_append] using filled
    exact copied (literals _ (Array.mem_of_getElem? omitted))
      (Store.copyAll_alike (fun v member => intact.stored (literals v member)) omitted made)
  | @default id f code limits machine args dest i _ _ known here omitted entered filled =>
    subst here
    have literals (v : Value) (member : v ∈ f.omittedParams args.size) : m.IsLiteral v :=
      link_defaults known (mem_of_mem_extract (mem_of_mem_extract member))
    obtain ⟨store, thread⟩ := Machine.callCode_entered entered
    have inside : i < (machine.world.store.copyAll (f.omittedParams args.size)).1.size := by
      rw [Store.copyAll_size]
      exact (Array.getElem?_eq_some_iff.mp omitted).1
    have made : (machine.world.store.copyAll (f.omittedParams args.size)).1[i]? = some w := by
      rw [thread, Nat.add_assoc, Thread.enter_given (by rw [Array.size_append]; omega),
        Array.getElem?_append_right (Nat.le_add_right _ _), Nat.add_sub_cancel_left] at filled
      exact filled
    rw [store]
    exact copied (literals _ (Array.mem_of_getElem? omitted))
      (Store.copyAll_alike (fun v member => intact.stored (literals v member)) omitted made)

end Program

namespace Machine

def AtHand (machine : Machine) (v : Value) : Prop :=
  v ∈ machine.thread.slots ∨ Hands machine.control v

variable {m : Module Value} {origin s : Store} {args : Array Value} {machine : Machine}

theorem Confined.intact {store : Store} (confined : machine.Confined (.around store args))
    (intact : m.Intact origin store) (apart : ∀ arg ∈ args, m.Apart store arg) :
    m.Intact origin machine.world.store := by
  intro literal v known reach
  have foreign := Territory.around_foreign intact apart known
  obtain ⟨has, same⟩ := intact literal v known reach
  exact ⟨confined.holds.has v has,
    same.trans (foreign.same confined.holds (intact.reach known reach))⟩

theorem Confined.apart {store : Store} (confined : machine.Confined (.around store args))
    (intact : m.Intact origin store) (apart : ∀ arg ∈ args, m.Apart store arg) {v : Value}
    (atHand : machine.AtHand v) : m.Apart machine.world.store v := by
  intro literal w known container reach shared
  have foreign := Territory.around_foreign intact apart known
  have back : store.Reach literal w := reach.same fun x reach => foreign.same confined.holds reach
  have within : (Territory.around store args).inside v :=
    atHand.elim (confined.slots v) (confined.hands v)
  exact (foreign w back).2 container (confined.holds.reach within shared)

/-- Literals are immutable. Take a module linked with the core natives, and any state that a call
reaches if its arguments share no container with the constants, defaults and globals of the module.
The containers that the literals lead to have their original contents; none of them can be reached
from a slot, an argument or a result; and whenever a constant is pushed, a global is pushed or a
default is filled in, the value has the contents that the literal has originally. -/
theorem literals_immutable (m : Module Value) (s origin : Store) (limits : Limits) (thread : Thread)
    (world : World) (callee : Callee) (args : Array Value) (idle : thread.slots = #[])
    (intact : m.Intact origin world.store) (apart : ∀ arg ∈ args, m.Apart world.store arg)
    (machine : Machine)
    (reaches : Reaches (.link m s Registry.core) limits
      { thread, world, control := .enter callee args } machine) :
    m.Intact origin machine.world.store ∧
    (∀ v, machine.AtHand v → m.Apart machine.world.store v) ∧
    ∀ literal t v, (Program.link m s Registry.core).Brings machine.world.store literal t v →
      origin.Alike literal t v := by
  have first : Confined (.around world.store args)
      { thread, world, control := .enter callee args } := by
    refine ⟨⟨Territory.around_holds _ _, by simp [idle]⟩, fun v hands => ?_⟩
    cases hands with
    | argument member => exact .inr (.inr ⟨v, member, .here⟩)
  have excludes := Territory.around_excludes intact apart s Registry.core
  have confined := (reaches.confined (Program.link_core m s) excludes ⟨by simp, .inr rfl⟩ first).2
  have still := confined.intact intact apart
  exact ⟨still, fun v atHand => confined.apart intact apart atHand,
    fun literal t v brings => brings.alike still⟩

end Machine

def Module.scribbling {κ : Type} (literal : κ) : Module κ where
  functions := #[
    { name := "scribble", module := "sample", minArgs := 1, maxArgs := 1, params := #["x"]
      defaults := #[]
      body := .bytecode
        { instructions := #[.wide .constant 0, .wide .load 0, .plain .append, .wide .constant 0,
            .plain .ret]
          constants := #[literal], locals := 1, stack := 2 } }]

theorem Module.scribbling_function? (id : UInt16) :
    (Program.link (.scribbling (.text ⟨0⟩)) {} Registry.core).function? id =
      (Module.scribbling (Value.text ⟨0⟩)).functions[id.toNat]? := by
  simp [Program.function?, Program.link, scribbling, Function.sortTables, Code.sortTables,
    Code.binaryTables]

def World.scribbling : World where
  store := { texts := #["a"], lists := #[#[.int 1]] }
  console := ""
  interrupted := false

namespace Machine

def scribbling : Machine where
  thread := {}
  world := .scribbling
  control := .enter (.id 0) #[.list ⟨0⟩]

def scribblingAt (status : Status) (slots : Array Value) (tos place : Nat) (texts : Array String) :
    Machine where
  thread :=
    { status, slots
      frames := [{ function := 0, base := 0, locals := 1, limit := 3, tos, place, dest := .host }] }
  world := { store := { texts, lists := #[#[.int 1]] }, console := "", interrupted := false }
  control := .execute

def scribbled : Machine :=
  scribblingAt .running #[.list ⟨0⟩, .undefined, .undefined] 1 3 #["a", "a[1]"]

theorem scribbling_runs :
    Reaches (.link (.scribbling (.text ⟨0⟩)) {} Registry.core) {} scribbling scribbled := by
  have known := Module.scribbling_function?
  generalize Program.link (.scribbling (.text ⟨0⟩)) {} Registry.core = p at known ⊢
  have enters : scribbling.next p {} =
      scribblingAt .calling #[.list ⟨0⟩, .undefined, .undefined] 1 0 #["a"] := by
    simp only [scribbling, next, enter, Callee.resolve, invoke, known]
    rfl
  have copies : (scribblingAt .calling #[.list ⟨0⟩, .undefined, .undefined] 1 0 #["a"]).next p {} =
      scribblingAt .running #[.list ⟨0⟩, .text ⟨1⟩, .undefined] 2 1 #["a", "a"] := by
    simp only [scribblingAt, next, execute, setStatus, Program.code?, known]
    rfl
  have loads : (scribblingAt .running #[.list ⟨0⟩, .text ⟨1⟩, .undefined] 2 1 #["a", "a"]).next p
    {} = scribblingAt .running #[.list ⟨0⟩, .text ⟨1⟩, .list ⟨0⟩] 3 2 #["a", "a"] := by
    simp only [scribblingAt, next, execute, setStatus, Program.code?, known]
    rfl
  have appends : (scribblingAt .running #[.list ⟨0⟩, .text ⟨1⟩, .list ⟨0⟩] 3 2 #["a", "a"]).next p
      {} = scribbled := by
    simp only [scribblingAt, next, execute, setStatus, Program.code?, known]
    rfl
  have run : Reaches p {} scribbling ((((scribbling.next p {}).next p {}).next p {}).next p {}) :=
    Reaches.start.step.step.step.step
  rwa [enters, copies, loads, appends] at run

theorem scribbling_apart :
    (Module.scribbling (Value.text ⟨0⟩)).Apart World.scribbling.store (.list ⟨0⟩) := by
  intro literal w known container reach shared
  obtain rfl : literal = .text ⟨0⟩ := by
    cases known with
    | constant member body constant =>
      obtain rfl := List.mem_singleton.mp (Array.mem_toList_iff.mpr member)
      obtain rfl := Option.some.inj body
      exact List.mem_singleton.mp (Array.mem_toList_iff.mpr constant)
    | default member default =>
      obtain rfl := List.mem_singleton.mp (Array.mem_toList_iff.mpr member)
      exact absurd default (Array.not_mem_empty _)
    | global member => exact absurd member (Array.not_mem_empty _)
  obtain rfl | ⟨_, inside, _⟩ := reach.first
  · obtain same | ⟨x, inside, path⟩ := shared.first
    · contradiction
    · cases inside with
      | item member =>
        obtain rfl := List.mem_singleton.mp (Array.mem_toList_iff.mpr member)
        obtain same | ⟨_, inside, _⟩ := path.first
        · contradiction
        · cases inside
  · cases inside

/-- Four steps into the call, the copy of the literal is changed and the literal is not. -/
theorem literals_immutable_scribbling :
    let m := Module.scribbling (Value.text ⟨0⟩)
    let origin : Store := { texts := #["a"] }
    m.Intact origin World.scribbling.store ∧
      (∀ arg ∈ #[Value.list ⟨0⟩], m.Apart World.scribbling.store arg) ∧
    Reaches (.link m {} Registry.core) {} scribbling scribbled ∧
      scribbled.world.store.text ⟨1⟩ = "a[1]" ∧
    m.Intact origin scribbled.world.store ∧
      (∀ v, scribbled.AtHand v → m.Apart scribbled.world.store v) ∧
    ∀ literal t v, (Program.link m {} Registry.core).Brings scribbled.world.store literal t v →
      origin.Alike literal t v := by
  intro m origin
  have intact : m.Intact origin World.scribbling.store :=
    Module.loadModule_intact {} (.scribbling (.scalar (.text "a")))
      (origin.addList_extends #[.int 1])
  have apart : ∀ arg ∈ #[Value.list ⟨0⟩], m.Apart World.scribbling.store arg := by
    intro arg member
    obtain rfl := List.mem_singleton.mp (Array.mem_toList_iff.mpr member)
    exact scribbling_apart
  refine ⟨intact, apart, scribbling_runs, rfl, ?_⟩
  exact literals_immutable m {} origin {} {} .scribbling (.id 0) #[.list ⟨0⟩] rfl intact apart
    scribbled scribbling_runs

end Machine

end StackMachine
