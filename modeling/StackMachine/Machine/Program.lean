import StackMachine.Data.Datum
import StackMachine.Machine.Native
import StackMachine.Machine.Switch
import StackMachine.Store.Load
import Std.Data.HashMap

/-! Loading a module into the store, and linking it: natives are bound by qualified name, names are
looked up once, and the tables of binary switches are sorted. -/

namespace StackMachine

namespace Store

def loadCode (s : Store) (c : Code Literal) : Code Value × Store :=
  let (constants, s) := s.loadAll c.constants
  ({ c with constants }, s)

def loadFunction (s : Store) (f : Function Literal) : Function Value × Store :=
  let (defaults, s) := s.loadAll f.defaults
  match f.body with
  | .native => ({ f with defaults, body := .native }, s)
  | .bytecode code =>
    let (code, s) := s.loadCode code
    ({ f with defaults, body := .bytecode code }, s)

def loadFunctions (s : Store) (fs : Array (Function Literal)) : Array (Function Value) × Store :=
  fs.foldl (fun (loaded, s) f =>
    let (f, s) := s.loadFunction f
    (loaded.push f, s)) (#[], s)

def loadGlobals (s : Store) (globals : Array (String × Literal)) : Array (String × Value) × Store :=
  globals.foldl (fun (loaded, s) (name, literal) =>
    let (value, s) := s.load literal
    (loaded.push (name, value), s)) (#[], s)

def loadModule (s : Store) (m : Module Literal) : Module Value × Store :=
  let (functions, s) := s.loadFunctions m.functions
  let (globals, s) := s.loadGlobals m.globals
  ({ functions, globals, entry := m.entry }, s)

end Store

namespace Store

def equalAll (s : Store) (vs ws : Array Value) : Bool :=
  vs.size == ws.size && (vs.zip ws).all fun (v, w) => s.equal v w

def sameCode (s : Store) (c d : Code Value) : Bool :=
  c.instructions == d.instructions && s.equalAll c.constants d.constants && c.tables == d.tables &&
    c.locals == d.locals && c.stack == d.stack && c.lines == d.lines

def sameFunction (s : Store) (f g : Function Value) : Bool :=
  f.name == g.name && f.module == g.module && f.minArgs == g.minArgs && f.maxArgs == g.maxArgs &&
    f.params == g.params && s.equalAll f.defaults g.defaults &&
    match f.body, g.body with
    | .native, .native => true
    | .bytecode c, .bytecode d => s.sameCode c d
    | _, _ => false

end Store

namespace Code

/-- Sort the tables of the binary switches, once for each such switch. -/
def sortTables (c : Code Value) (s : Store) : Code Value :=
  { c with
    tables := c.binaryTables.foldl (fun tables i => tables.modify i (·.sorted s c.constants))
      c.tables }

end Code

namespace Function

def sortTables (f : Function Value) (s : Store) : Function Value :=
  match f.body with
  | .native => f
  | .bytecode code => { f with body := .bytecode (code.sortTables s) }

end Function

structure Program where
  functions : Array (Function Value)
  /-- Parallel to `functions`: the natives that have a host function. -/
  bound : Array (Option Native)
  globals : Std.HashMap String Value
  names : Std.HashMap String UInt16
  entry : Option UInt16

namespace Program

/-- The first function to claim a name keeps it; a function claims its qualified name before the
plain one. -/
def nameTable (functions : Array (Function Value)) : Std.HashMap String UInt16 :=
  functions.toList.zipIdx.foldl (fun names (f, index) =>
    let id := UInt16.ofNat index
    (names.insertIfNew f.qualifiedName id).insertIfNew f.name id) ∅

/-- The last global of a name counts. -/
def globalTable (globals : Array (String × Value)) : Std.HashMap String Value :=
  globals.foldl (fun table (name, value) => table.insert name value) ∅

def link (m : Module Value) (s : Store) (registry : Registry) : Program :=
  { functions := m.functions.map (·.sortTables s)
    bound := m.functions.map fun f => if f.isNative then registry f.qualifiedName else none
    globals := globalTable m.globals
    names := nameTable m.functions
    entry := m.entry }

def function? (p : Program) (id : UInt16) : Option (Function Value) :=
  p.functions[id.toNat]?

def code? (p : Program) (id : UInt16) : Option (Code Value) :=
  (p.function? id).bind (·.code?)

def native? (p : Program) (id : UInt16) : Option Native :=
  (p.bound[id.toNat]?).join

def find? (p : Program) (name : String) : Option UInt16 :=
  p.names[name]?

def global? (p : Program) (name : String) : Option Value :=
  p.globals[name]?

end Program

end StackMachine
