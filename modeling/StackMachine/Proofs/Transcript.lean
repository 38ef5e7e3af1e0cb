import StackMachine.Proofs.Instructions
import StackMachine.Proofs.Spelling

/-! How modules are spelled.

A transcript is a module with spellings in place of literals, together with the byte that flags its
entry. Every reader of a part of a module undoes the writer of that part, and so the reader of
modules accepts exactly the transcripts whose literals are not nested too deep. -/

namespace StackMachine

section

variable {κ κ' κ'' : Type}

namespace Code

def map (f : κ → κ') (c : Code κ) : Code κ' :=
  { instructions := c.instructions, constants := c.constants.map f, tables := c.tables
    locals := c.locals, stack := c.stack, lines := c.lines }

def All (P : κ → Prop) (c : Code κ) : Prop :=
  ∀ l ∈ c.constants, P l

end Code

namespace Body

def map (f : κ → κ') : Body κ → Body κ'
  | native => native
  | bytecode c => bytecode (c.map f)

def kind : Body κ → UInt8
  | native => 0
  | bytecode _ => 1

def All (P : κ → Prop) : Body κ → Prop
  | native => True
  | bytecode c => c.All P

end Body

namespace Function

def map (g : κ → κ') (f : Function κ) : Function κ' :=
  { name := f.name, module := f.module, minArgs := f.minArgs, maxArgs := f.maxArgs
    params := f.params
    defaults := f.defaults.map g, body := f.body.map g }

def All (P : κ → Prop) (f : Function κ) : Prop :=
  (∀ l ∈ f.defaults, P l) ∧ f.body.All P

end Function

namespace Module

def map (f : κ → κ') (m : Module κ) : Module κ' :=
  { functions := m.functions.map (·.map f), globals := m.globals.map fun g => (g.1, f g.2)
    entry := m.entry }

def All (P : κ → Prop) (m : Module κ) : Prop :=
  (∀ f ∈ m.functions, f.All P) ∧ ∀ g ∈ m.globals, P g.2

variable {m : Module κ} {P Q : κ → Prop}

theorem All.imp (all : m.All P) (implies : ∀ l, P l → Q l) : m.All Q := by
  refine ⟨fun f member => ?_, fun g member => implies _ (all.2 g member)⟩
  obtain ⟨defaults, body⟩ := all.1 f member
  refine ⟨fun l inside => implies _ (defaults l inside), ?_⟩
  cases found : f.body with
  | native => trivial
  | bytecode c =>
    rw [found] at body
    exact fun l inside => implies _ (body l inside)

theorem all_map {f : κ → κ'} {P : κ' → Prop} : (m.map f).All P ↔ m.All fun l => P (f l) := by
  have body (b : Body κ) : (b.map f).All P ↔ b.All fun l => P (f l) := by
    cases b <;> simp [Body.map, Body.All, Code.map, Code.All]
  have globals : (∀ g ∈ (m.map f).globals, P g.2) ↔ ∀ g ∈ m.globals, P (f g.2) := by
    rw [map]
    exact Array.forall_mem_map
  rw [All, globals]
  simp [All, map, Function.All, Function.map, body]

theorem map_map (f : κ → κ') (g : κ' → κ'') (m : Module κ) :
    (m.map f).map g = m.map fun l => g (f l) := by
  have body (b : Body κ) : (b.map f).map g = b.map fun l => g (f l) := by
    cases b <;> simp [Body.map, Code.map]
  simp [map, Function.map, body]

theorem map_eq_self {f : κ → κ} (fixed : m.All fun l => f l = l) : m.map f = m := by
  have constants (literals : Array κ) (fixed : ∀ l ∈ literals, f l = l) :
      literals.map f = literals :=
    Array.map_congr_left fixed |>.trans literals.map_id'
  have functions : m.functions.map (·.map f) = m.functions := by
    refine (Array.map_congr_left fun g member => ?_).trans m.functions.map_id'
    obtain ⟨defaults, body⟩ := fixed.1 g member
    have same : g.body.map f = g.body := by
      cases found : g.body with
      | native => rfl
      | bytecode c =>
        rw [found] at body
        rw [Body.map, Code.map, constants c.constants body]
    rw [Function.map, constants g.defaults defaults, same]
  have globals : m.globals.map (fun g => (g.1, f g.2)) = m.globals := by
    refine (Array.map_congr_left fun g member => ?_).trans m.globals.map_id'
    rw [fixed.2 g member]
  rw [map, functions, globals]

end Module

namespace Image

theorem function_map (f : κ → κ') (literal : κ' → Bytes) (g : Function κ) :
    function literal (g.map f) = function (fun l => literal (f l)) g := by
  have body (b : Body κ) : body literal (b.map f) = body (fun l => literal (f l)) b := by
    cases b <;> simp [Image.body, Body.map, code, Code.map, Bytes.array, List.flatMap_map]
  simp [function, Function.map, body, Bytes.array, List.flatMap_map]

theorem payload_map (f : κ → κ') (literal : κ' → Bytes) (m : Module κ) :
    payload literal (m.map f) = payload (fun l => literal (f l)) m := by
  simp only [payload, Module.map, Bytes.array, Array.size_map, Array.toList_map, List.flatMap_map,
    function_map]
  rfl

theorem length_array_le {α : Type} {short long : α → Bytes}
    (shorter : ∀ a, (short a).length ≤ (long a).length) (items : Array α) :
    (Bytes.array short items).length ≤ (Bytes.array long items).length := by
  simp only [Bytes.array, List.length_append]
  exact Nat.add_le_add_left (length_flatMap_le fun a _ => shorter a) _

theorem length_function_le {short long : κ → Bytes}
    (shorter : ∀ l, (short l).length ≤ (long l).length) (f : Function κ) :
    (function short f).length ≤ (function long f).length := by
  have body : (body short f.body).length ≤ (body long f.body).length := by
    cases f.body with
    | native => exact Nat.le_refl _
    | bytecode c =>
      have constants := length_array_le shorter c.constants
      simp only [Image.body, code, List.length_append, List.length_cons]
      omega
  have defaults := length_array_le shorter f.defaults
  simp only [function, List.length_append]
  omega

theorem length_payload_le {short long : κ → Bytes}
    (shorter : ∀ l, (short l).length ≤ (long l).length) (m : Module κ) :
    (payload short m).length ≤ (payload long m).length := by
  have functions := length_array_le (length_function_le shorter) m.functions
  have globals : (Bytes.array (global short) m.globals).length ≤
      (Bytes.array (global long) m.globals).length := by
    refine length_array_le (fun g => ?_) m.globals
    simp only [global, List.length_append]
    exact Nat.add_le_add_left (shorter g.2) _
  simp only [payload, List.length_append]
  omega

end Image

end

namespace Reader

theorem value_codec :
    Codec (fun _ => True) Spelling.bytes Spelling.literal (fun s => s.height ≤ maxDepth) value :=
  (literal_codec (maxDepth + 1)).congr (fun _ => Iff.rfl) (fun _ _ => rfl) (fun _ _ => rfl)
    fun _ _ => Nat.lt_succ_iff.symm

theorem table_codec : Codec (fun _ => True) Image.table id (fun _ => True) table := by
  have codec : Codec (fun _ => True) _ id _ table :=
    (array_codec uint16_codec fun _ _ => List.cons_ne_nil _ _).field SwitchTable.keys
      (fun _ _ _ _ => trivial) fun keys _ =>
    (array_codec uint32_codec fun _ _ => List.cons_ne_nil _ _).field SwitchTable.targets
      (fun _ _ _ _ => trivial) fun targets _ =>
    uint32_codec.field SwitchTable.default (fun _ _ => trivial) fun other _ =>
    Codec.ended ⟨keys, targets, other⟩ (fun ⟨_, _, _⟩ => by simp [and_assoc]) (by simp)
  refine codec.congr (fun _ => Iff.rfl) (fun t _ => ?_) (fun _ _ => rfl) fun t _ => ?_
  · simp [Image.table]
  · simp

theorem lineEntry_codec : Codec (fun _ => True) Image.lineEntry id (fun _ => True) lineEntry := by
  have codec : Codec (fun _ => True) _ id _ lineEntry :=
    uint32_codec.field LineEntry.start (fun _ _ => trivial) fun start _ =>
    uint32_codec.field LineEntry.line (fun _ _ => trivial) fun line _ =>
    Codec.ended ⟨start, line⟩ (fun ⟨_, _⟩ => by simp) rfl
  refine codec.congr (fun _ => Iff.rfl) (fun e _ => ?_) (fun _ _ => rfl) fun e _ => ?_
  · simp [Image.lineEntry]
  · simp

theorem code_codec : Codec (fun _ => True) (Image.code Spelling.bytes) (Code.map Spelling.literal)
    (Code.All fun s => s.height ≤ maxDepth) code := by
  have codec : Codec (fun _ => True) _ (Code.map Spelling.literal) _ code :=
    uint16_codec.field Code.locals (fun _ _ => trivial) fun locals _ =>
    uint16_codec.field Code.stack (fun _ _ => trivial) fun stack _ =>
    (array_codec value_codec fun s _ => s.bytes_ne_nil).field Code.constants
      (fun _ _ _ _ => trivial) fun constants _ =>
    (array_codec instruction_codec fun _ _ => List.cons_ne_nil _ _).field Code.instructions
      (fun _ _ _ _ => trivial) fun instructions _ =>
    (array_codec table_codec fun _ _ => List.cons_ne_nil _ _).field Code.tables
      (fun _ _ _ _ => trivial) fun tables _ =>
    (array_codec lineEntry_codec fun _ _ => List.cons_ne_nil _ _).field Code.lines
      (fun _ _ _ _ => trivial) fun lines _ =>
    Codec.ended { instructions, constants, tables, locals, stack, lines }
      (fun ⟨_, _, _, _, _, _⟩ => by simp; grind) (by simp [Code.map])
  refine codec.congr (fun _ => Iff.rfl) (fun c _ => ?_) (fun _ _ => rfl) fun c _ => ?_
  · simp [Image.code]
  · simp [Code.All]

theorem body_codec : Codec (fun _ => True) (Image.body Spelling.bytes) (Body.map Spelling.literal)
    (Body.All fun s => s.height ≤ maxDepth) body := by
  refine uint8_codec.bind (fun b => (Image.body Spelling.bytes b).tail)
    (Body.All fun s => s.height ≤ maxDepth)
    (fun b kind => b.kind = kind) (fun b _ => ⟨b.kind, trivial, rfl⟩) ?_ fun kind _ => ?_
  · rintro b _ _ rfl
    refine ⟨?_, by rw [true_and]⟩
    cases b <;> rfl
  by_cases native : kind = 0
  · subst native
    refine (Codec.ended Body.native (fun b => ?_) rfl).congr (fun _ => Iff.rfl) ?_
      (fun _ _ => rfl) ?_
    · cases b <;> simp [Body.kind]
    · rintro ⟨⟩ ⟨_, kind⟩
      · rfl
      · cases kind
    · rintro ⟨⟩ ⟨_, kind⟩
      · rfl
      · cases kind
  by_cases bytecode : kind = 1
  · subst bytecode
    refine code_codec.embed .bytecode (fun b => ?_) fun c _ => ⟨rfl, rfl, Iff.rfl⟩
    cases b <;> simp [Body.kind]
  · rw [id, if_neg (by simpa using native), if_neg (by simpa using bytecode)]
    refine Codec.refused ?_
    rintro ⟨⟩ ⟨_, rfl⟩
    · exact native rfl
    · exact bytecode rfl

theorem function_codec :
    Codec (fun _ => True) (Image.function Spelling.bytes) (Function.map Spelling.literal)
    (Function.All fun s => s.height ≤ maxDepth) function := by
  have codec : Codec (fun _ => True) _ (Function.map Spelling.literal) _ function :=
    string_codec.field Function.name (fun _ _ => trivial) fun name _ =>
    string_codec.field Function.module (fun _ _ => trivial) fun module _ =>
    uint8_codec.field Function.minArgs (fun _ _ => trivial) fun minArgs _ =>
    uint8_codec.field Function.maxArgs (fun _ _ => trivial) fun maxArgs _ =>
    (array_codec string_codec fun _ _ => List.cons_ne_nil _ _).field Function.params
      (fun _ _ _ _ => trivial) fun params _ =>
    (array_codec value_codec fun s _ => s.bytes_ne_nil).field Function.defaults
      (fun _ _ _ _ => trivial) fun defaults _ =>
    body_codec.field Function.body (fun _ _ => trivial) fun body _ =>
    Codec.ended { name, module, minArgs, maxArgs, params, defaults, body }
      (fun ⟨_, _, _, _, _, _, _⟩ => by simp [and_assoc]) (by simp [Function.map])
  refine codec.congr (fun _ => Iff.rfl) (fun f _ => ?_) (fun _ _ => rfl) fun f _ => ?_
  · simp [Image.function]
  · simp [Function.All]

theorem global_codec :
    Codec (fun _ => True) (Image.global Spelling.bytes) (fun g => (g.1, g.2.literal))
    (fun g => g.2.height ≤ maxDepth) global := by
  have codec : Codec (fun _ => True) _ (fun g : String × Spelling => (g.1, g.2.literal)) _ global :=
    string_codec.field Prod.fst (fun _ _ => trivial) fun name _ =>
    value_codec.field Prod.snd (fun _ _ => trivial) fun value _ =>
    Codec.ended (name, value) (fun ⟨_, _⟩ => by simp) rfl
  refine codec.congr (fun _ => Iff.rfl) (fun g _ => ?_) (fun _ _ => rfl) fun g _ => ?_
  · simp [Image.global]
  · simp

end Reader

/-- A module as it is written. Any byte but zero flags an entry. -/
structure Transcript where
  module : Module Spelling
  flag : UInt8
  flagged : flag = 0 ↔ module.entry = none

namespace Transcript

def entryBytes (flag : UInt8) (entry : Option UInt16) : Bytes :=
  flag :: entry.elim [] Bytes.uint16

def bytes (t : Transcript) : Bytes :=
  Bytes.array (Image.function Spelling.bytes) t.module.functions ++
    Bytes.array (Image.global Spelling.bytes) t.module.globals ++ entryBytes t.flag t.module.entry

end Transcript

namespace Reader

theorem entry_codec : Codec (fun e : UInt8 × Option UInt16 => e.1 = 0 ↔ e.2 = none)
    (fun e => Transcript.entryBytes e.1 e.2) Prod.snd (fun _ => True) entry := by
  refine uint8_codec.bind (fun e => e.2.elim [] Bytes.uint16) (fun _ => True)
    (fun e flag => e.1 = flag) (fun e _ => ⟨e.1, trivial, rfl⟩) ?_ fun flag _ => ?_
  · rintro e _ _ rfl
    exact ⟨rfl, (and_self_iff).symm⟩
  by_cases zero : flag = 0
  · subst zero
    refine (Codec.ended (0, none) ?_ rfl).congr (fun _ => Iff.rfl) ?_ (fun _ _ => rfl) fun _ _ =>
      Iff.rfl
    · rintro ⟨flag, entry⟩
      simp only [Prod.mk.injEq]
      grind
    · rintro ⟨flag, entry⟩ ⟨flagged, rfl⟩
      have absent : entry = none := flagged.mp rfl
      rw [absent]
      rfl
  · rw [id, if_neg (by simpa using zero)]
    refine uint16_codec.embed (fun id => (flag, some id)) (fun e => ⟨?_, ?_⟩) fun id _ =>
      ⟨rfl, rfl, Iff.rfl⟩
    · rintro ⟨flagged, rfl⟩
      obtain ⟨id, some⟩ := Option.ne_none_iff_exists'.mp (zero ∘ flagged.mpr)
      exact ⟨id, trivial, Prod.ext rfl some.symm⟩
    · rintro ⟨id, _, rfl⟩
      exact ⟨by simp [zero], rfl⟩

theorem module_codec :
    Codec (fun _ => True) Transcript.bytes (fun t => t.module.map Spelling.literal)
    (fun t => t.module.All fun s => s.height ≤ maxDepth) module := by
  have codec : Codec (fun _ => True) _ (fun t : Transcript => t.module.map Spelling.literal) _
      module :=
    (array_codec function_codec fun _ _ => List.cons_ne_nil _ _).field
      (fun t : Transcript => t.module.functions) (fun _ _ _ _ => trivial) fun functions _ =>
    (array_codec global_codec fun _ _ => List.cons_ne_nil _ _).field
      (fun t : Transcript => t.module.globals) (fun _ _ _ _ => trivial) fun globals _ =>
    entry_codec.field (fun t : Transcript => (t.flag, t.module.entry)) (fun t _ => t.flagged)
      fun entry flagged =>
    Codec.ended ⟨{ functions, globals, entry := entry.2 }, entry.1, flagged⟩
      (fun ⟨⟨_, _, _⟩, _, _⟩ => by simp only [Transcript.mk.injEq, Module.mk.injEq]; grind)
        (by simp [Module.map])
  refine codec.congr (fun _ => Iff.rfl) (fun t _ => ?_) (fun _ _ => rfl) fun t _ => ?_
  · simp [Transcript.bytes]
  · simp [Module.All]

end Reader

namespace Transcript

def Canonical (t : Transcript) : Prop :=
  t.module.All Spelling.Canonical ∧ (t.flag = 0 ∨ t.flag = 1)

def ofModule (m : Module Literal) : Transcript where
  module := m.map Spelling.ofLiteral
  flag := if m.entry.isSome then 1 else 0
  flagged := by cases entry : m.entry <;> simp [Module.map, entry]

theorem bytes_ofModule (m : Module Literal) :
    (ofModule m).bytes = Image.payload Literal.encode m := by
  have written : Image.payload Literal.encode m =
      Image.payload Spelling.bytes (m.map Spelling.ofLiteral) := by
    simp only [Image.payload_map, Spelling.bytes_ofLiteral]
  have entry : entryBytes (if m.entry.isSome then 1 else 0) m.entry = Image.entry m.entry := by
    cases m.entry <;> rfl
  rw [written]
  exact congrArg (_ ++ ·) entry

theorem length_bytes (t : Transcript) :
    t.bytes.length = (Image.payload Spelling.bytes t.module).length := by
  have entry : (entryBytes t.flag t.module.entry).length = (Image.entry t.module.entry).length := by
    cases t.module.entry <;> rfl
  simp only [bytes, Image.payload, List.length_append, entry]

theorem length_encode_module_le (t : Transcript) :
    (Image.payload Literal.encode (t.module.map Spelling.literal)).length ≤ t.bytes.length := by
  rw [Image.payload_map, length_bytes]
  exact Image.length_payload_le Spelling.length_encode_literal_le t.module

theorem module_ofModule {m : Module Literal} (ordered : m.All Literal.Ordered) :
    (ofModule m).module.map Spelling.literal = m := by
  rw [ofModule, Module.map_map]
  exact Module.map_eq_self (ordered.imp fun l => Spelling.literal_ofLiteral)

theorem canonical_ofModule {m : Module Literal} (ordered : m.All Literal.Ordered) :
    (ofModule m).Canonical := by
  refine ⟨Module.all_map.mpr (ordered.imp fun l => Spelling.canonical_ofLiteral), ?_⟩
  rw [ofModule]
  split <;> simp

theorem Canonical.ofModule_module {t : Transcript} (canonical : t.Canonical) :
    ofModule (t.module.map Spelling.literal) = t := by
  obtain ⟨module, flag, flagged⟩ := t
  obtain ⟨literals, small⟩ := canonical
  have same : (module.map Spelling.literal).map Spelling.ofLiteral = module := by
    rw [Module.map_map]
    exact Module.map_eq_self (literals.imp fun s => Spelling.Canonical.ofLiteral_literal)
  have flag' : (if module.entry.isSome then 1 else 0) = flag := by
    cases entry : module.entry with
    | none => exact (flagged.mpr entry).symm
    | some id =>
      have nonzero : flag ≠ 0 := by simp [flagged, entry]
      exact (small.resolve_left nonzero).symm
  simp only [ofModule, same, Transcript.mk.injEq, true_and]
  exact flag'

end Transcript

end StackMachine
