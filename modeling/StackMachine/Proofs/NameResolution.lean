import StackMachine.Proofs.Linking

/-! Names of functions. A module searches its functions in order for a plain or qualified name;
linking enters both names of every function into one table, where the first entry stays. Both find
the first function that has the name, however plain and qualified names collide. -/

namespace StackMachine

namespace Function

variable {κ : Type}

def HasName (f : Function κ) (name : String) : Prop :=
  f.name = name ∨ f.qualifiedName = name

def hasName (name : String) (f : Function κ) : Bool :=
  f.name == name || f.qualifiedName == name

theorem hasName_iff {f : Function κ} {name : String} : f.hasName name = true ↔ f.HasName name := by
  simp [hasName, HasName]

end Function

namespace Module

variable {κ : Type} {m : Module κ} {name : String} {id : UInt16}

def NamedAt (m : Module κ) (name : String) (place : Nat) : Prop :=
  ∃ f, m.functions[place]? = some f ∧ f.HasName name

def Resolves (m : Module κ) (name : String) (id : UInt16) : Prop :=
  m.NamedAt name id.toNat ∧ ∀ place < id.toNat, ¬ m.NamedAt name place

theorem find?_eq (m : Module κ) (name : String) : m.find? name =
    (m.functions.findIdx? (Function.hasName name)).bind fun n =>
      if n < UInt16.size then some (.ofNat n) else none := by
  have same : (fun f : Function κ => f.name == name || f.qualifiedName == name) =
    Function.hasName name := rfl
  rw [find?, same]
  cases m.functions.findIdx? (Function.hasName name) <;> rfl

theorem namedAt_iff {place : Nat} (inside : place < m.functions.size) :
    m.NamedAt name place ↔ m.functions[place].hasName name = true := by
  simp [NamedAt, Function.hasName_iff, inside]

theorem NamedAt.lt {place : Nat} (named : m.NamedAt name place) : place < m.functions.size := by
  obtain ⟨f, there, _⟩ := named
  exact (Array.getElem?_eq_some_iff.mp there).1

theorem findIdx?_hasName_iff {place : Nat} :
    m.functions.findIdx? (Function.hasName name) = some place ↔
    m.NamedAt name place ∧ ∀ earlier < place, ¬ m.NamedAt name earlier := by
  rw [Array.findIdx?_eq_some_iff_getElem]
  constructor
  · rintro ⟨inside, named, before⟩
    refine ⟨(namedAt_iff inside).mpr named, fun earlier less => ?_⟩
    rw [namedAt_iff (Nat.lt_trans less inside)]
    exact before earlier less
  · rintro ⟨named, before⟩
    refine ⟨named.lt, (namedAt_iff named.lt).mp named, fun earlier less => ?_⟩
    rw [← namedAt_iff (Nat.lt_trans less named.lt)]
    exact before earlier less

theorem find?_eq_some_iff : m.find? name = some id ↔ m.Resolves name id := by
  rw [find?_eq, Resolves, ← findIdx?_hasName_iff, Option.bind_eq_some_iff]
  constructor
  · rintro ⟨n, found, same⟩
    split at same
    next small =>
      have back : (UInt16.ofNat n).toNat = n := UInt16.toNat_ofNat_of_lt small
      rw [← Option.some.inj same, back]
      exact found
    next => contradiction
  · intro found
    exact ⟨id.toNat, found, by rw [if_pos id.toNat_lt, UInt16.ofNat_toNat]⟩

theorem find?_eq_map (few : m.functions.size ≤ maxFunctions) :
    m.find? name = (m.functions.findIdx? (Function.hasName name)).map UInt16.ofNat := by
  rw [find?_eq]
  cases found : m.functions.findIdx? (Function.hasName name) with
  | none => rfl
  | some n =>
    obtain ⟨inside, _⟩ := Array.findIdx?_eq_some_iff_getElem.mp found
    have small : n < UInt16.size := Nat.lt_trans (Nat.lt_of_lt_of_le inside few) (by decide)
    exact if_pos small

theorem find?_eq_none_iff (few : m.functions.size ≤ maxFunctions) :
    m.find? name = none ↔ ∀ f ∈ m.functions, ¬ f.HasName name := by
  rw [find?_eq_map few, Option.map_eq_none_iff, Array.findIdx?_eq_none_iff]
  simp only [← Function.hasName_iff, Bool.not_eq_true]

end Module

namespace Program

theorem getElem?_insertIfNew (names : Std.HashMap String UInt16) (key : String) (id : UInt16)
    (name : String) :
    (names.insertIfNew key id)[name]? = names[name]?.or (if key = name then some id else none) := by
  rw [Std.HashMap.getElem?_insertIfNew]
  by_cases same : key = name
  · subst same
    cases known : names[key]? with
    | none =>
      have new : key ∉ names := by simpa using known
      simp [new]
    | some found =>
      have old : key ∈ names := by
        rw [Std.HashMap.mem_iff_isSome_getElem?, known]
        rfl
      simp [old]
  · simp [same]

def enterNames (names : Std.HashMap String UInt16) (entry : Function Value × Nat) :
    Std.HashMap String UInt16 :=
  (names.insertIfNew entry.1.qualifiedName (.ofNat entry.2)).insertIfNew entry.1.name
    (.ofNat entry.2)

theorem nameTable_eq (functions : Array (Function Value)) :
    nameTable functions = functions.toList.zipIdx.foldl enterNames ∅ :=
  rfl

theorem getElem?_enterNames (names : Std.HashMap String UInt16) (f : Function Value) (index : Nat)
    (name : String) :
    (enterNames names (f, index))[name]? = names[name]?.or (if f.hasName name then
      some (.ofNat index) else none) := by
  rw [enterNames, getElem?_insertIfNew, getElem?_insertIfNew, Option.or_assoc]
  congr 1
  by_cases qualified : f.qualifiedName = name <;> by_cases plain : f.name = name <;>
    simp [Function.hasName, qualified, plain]

/-- What the table has under a name once some functions, counted from `start`, have been entered. -/
theorem getElem?_foldl_enterNames (fs : List (Function Value)) (start : Nat)
    (names : Std.HashMap String UInt16) (name : String) :
    ((fs.zipIdx start).foldl enterNames names)[name]? =
      names[name]?.or ((fs.findIdx? (Function.hasName name)).map fun n => .ofNat (start + n)) := by
  -- What is entered first stays, so the table so far comes before every function still to be
  -- entered.
  induction fs generalizing start names with
  | nil => simp
  | cons f fs ih =>
    rw [List.zipIdx_cons, List.foldl_cons, ih, getElem?_enterNames, Option.or_assoc,
      List.findIdx?_cons]
    congr 1
    cases f.hasName name with
    | true => simp
    | false => simp [Function.comp_def, Nat.add_assoc, Nat.add_comm 1]

theorem getElem?_nameTable (functions : Array (Function Value)) (name : String) :
    (nameTable functions)[name]? = (functions.findIdx? (Function.hasName name)).map
      UInt16.ofNat := by
  rw [nameTable_eq, getElem?_foldl_enterNames, ← List.findIdx?_toArray]
  simp

theorem find?_link {m : Module Value} (few : m.functions.size ≤ maxFunctions) (s : Store)
    (registry : Registry) (name : String) : (link m s registry).find? name = m.find? name := by
  rw [Module.find?_eq_map few]
  exact getElem?_nameTable m.functions name

end Program

namespace Store

theorem loadFunction_hasName (s : Store) (f : Function Literal) (name : String) :
    (s.loadFunction f).1.HasName name ↔ f.HasName name := by
  obtain ⟨plain, module, minArgs, maxArgs, params, defaults, body⟩ := f
  cases body <;> rfl

theorem loadModule_namedAt (s : Store) (m : Module Literal) (name : String) (place : Nat) :
    (s.loadModule m).1.NamedAt name place ↔ m.NamedAt name place := by
  obtain ⟨size, functions⟩ := s.loadModule_functions m
  constructor
  · rintro ⟨g, there, named⟩
    obtain ⟨f, s', same, rfl⟩ := functions place g there
    exact ⟨f, same, (s'.loadFunction_hasName f name).mp named⟩
  · intro found
    have inside : place < (s.loadModule m).1.functions.size := size ▸ found.lt
    obtain ⟨f, there, named⟩ := found
    have loaded := Array.getElem?_eq_getElem inside
    obtain ⟨f', s', same, stems⟩ := functions place _ loaded
    obtain rfl := Option.some.inj (same.symm.trans there)
    refine ⟨_, loaded, ?_⟩
    rw [stems]
    exact (s'.loadFunction_hasName f' name).mpr named

theorem find?_loadModule (s : Store) (m : Module Literal) (name : String) :
    (s.loadModule m).1.find? name = m.find? name := by
  apply Option.ext
  intro id
  simp only [Module.find?_eq_some_iff, Module.Resolves, loadModule_namedAt]

end Store

namespace Program

/-- A name means the same before and after linking. For every module within the limits, loaded into
any store and linked with any natives, module and program find the first function that has the name,
plain or qualified, and they find none only if there is none. -/
theorem names_agree (m : Module Value) (few : m.functions.size ≤ maxFunctions) (s : Store)
    (registry : Registry) (name : String) :
    (link m s registry).find? name = m.find? name ∧
    (∀ id, m.find? name = some id ↔ m.Resolves name id) ∧
    (m.find? name = none ↔ ∀ f ∈ m.functions, ¬ f.HasName name) ∧
    ∀ (rest : Module Literal) (before : Store), m = (before.loadModule rest).1 →
      rest.find? name = m.find? name := by
  refine ⟨find?_link few s registry name, fun id => Module.find?_eq_some_iff,
    Module.find?_eq_none_iff few, ?_⟩
  rintro rest before rfl
  exact (before.find?_loadModule rest name).symm

end Program

/-- Two functions have plain names with dots in them. The first comes before the function with that
qualified name, the second comes after it. -/
def Module.dotted : Module Value where
  functions := #[.native .null "b.c" "a" 0 0, .native .null "c" "b" 0 0, .native .null "e" "d" 0 0,
    .native .null "d.e" "f" 0 0]

theorem Program.names_agree_dotted :
    (link .dotted {} fun _ => none).find? "b.c" = some 0 ∧
      (link .dotted {} fun _ => none).find? "c" = some 1 ∧
    (link .dotted {} fun _ => none).find? "d.e" = some 2 ∧
      (link .dotted {} fun _ => none).find? "f.d.e" = some 3 ∧
    (link .dotted {} fun _ => none).find? "f" = none ∧ Module.dotted.Resolves "d.e" 2 := by
  have agree (name : String) := names_agree .dotted (by decide) {} (fun _ => none) name
  have found : Module.dotted.find? "b.c" = some 0 ∧ Module.dotted.find? "c" = some 1 ∧
      Module.dotted.find? "d.e" = some 2 ∧ Module.dotted.find? "f.d.e" = some 3 ∧
      Module.dotted.find? "f" = none := by decide +kernel
  simp only [(agree _).1]
  exact ⟨found.1, found.2.1, found.2.2.1, found.2.2.2.1, found.2.2.2.2,
    ((agree "d.e").2.1 2).mp found.2.2.1⟩

end StackMachine
