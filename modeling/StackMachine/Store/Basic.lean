import StackMachine.Data.Dict

/-! Values and the store of containers. A text, list or map value is a reference into the store;
copying the value shares the container. A reference outside the store reads as an empty container,
so every view is total. -/

namespace StackMachine

structure TextRef where
  index : Nat
deriving DecidableEq, Hashable, Inhabited

structure ListRef where
  index : Nat
deriving DecidableEq, Hashable, Inhabited

structure MapRef where
  index : Nat
deriving DecidableEq, Hashable, Inhabited

inductive Value where
  | undefined
  | null
  | bool (b : Bool)
  | int (n : Int64)
  | float (x : Double)
  | text (ref : TextRef)
  | list (ref : ListRef)
  | map (ref : MapRef)
deriving DecidableEq, Inhabited

/-- A list or map, the containers that can contain themselves. -/
inductive Container where
  | list (ref : ListRef)
  | map (ref : MapRef)
deriving DecidableEq, Inhabited

namespace Value

def tag : Value → Tag
  | undefined => .undefined
  | null => .null
  | bool _ => .bool
  | int _ => .int
  | float _ => .float
  | text _ => .text
  | list _ => .list
  | map _ => .map

def isUndefined (v : Value) : Bool :=
  v.tag == .undefined

def isNull (v : Value) : Bool :=
  v.tag == .null

def isScalar (v : Value) : Bool :=
  match v with
  | undefined | list _ | map _ => false
  | _ => true

def sameContainer (v w : Value) : Bool :=
  v.tag.isContainer && v == w

end Value

structure Store where
  texts : Array String := #[]
  lists : Array (Array Value) := #[]
  maps : Array (Dict Value) := #[]
deriving Inhabited

namespace Store

def text (s : Store) (ref : TextRef) : String :=
  s.texts.getD ref.index ""

def list (s : Store) (ref : ListRef) : Array Value :=
  s.lists.getD ref.index #[]

def map (s : Store) (ref : MapRef) : Dict Value :=
  s.maps.getD ref.index .empty

/-- How many lists and maps there are; no path through different containers is longer. -/
def containers (s : Store) : Nat :=
  s.lists.size + s.maps.size

def pushText (s : Store) (t : String) : TextRef × Store :=
  (⟨s.texts.size⟩, { s with texts := s.texts.push t })

def pushList (s : Store) (items : Array Value) : ListRef × Store :=
  (⟨s.lists.size⟩, { s with lists := s.lists.push items })

def pushMap (s : Store) (entries : Dict Value) : MapRef × Store :=
  (⟨s.maps.size⟩, { s with maps := s.maps.push entries })

def addText (s : Store) (t : String) : Value × Store :=
  let (ref, s) := s.pushText t
  (.text ref, s)

def addList (s : Store) (items : Array Value) : Value × Store :=
  let (ref, s) := s.pushList items
  (.list ref, s)

def addMap (s : Store) (entries : Dict Value) : Value × Store :=
  let (ref, s) := s.pushMap entries
  (.map ref, s)

def modifyText (s : Store) (ref : TextRef) (f : String → String) : Store :=
  { s with texts := s.texts.modify ref.index f }

def modifyList (s : Store) (ref : ListRef) (f : Array Value → Array Value) : Store :=
  { s with lists := s.lists.modify ref.index f }

def modifyMap (s : Store) (ref : MapRef) (f : Dict Value → Dict Value) : Store :=
  { s with maps := s.maps.modify ref.index f }

/-- The scalar a value holds at this moment; a text is read out of its buffer. -/
def scalar? (s : Store) : Value → Option Scalar
  | .null => some .null
  | .bool b => some (.bool b)
  | .int n => some (.int n)
  | .float x => some (.float x)
  | .text ref => some (.text (s.text ref))
  | .undefined | .list _ | .map _ => none

def addScalar (s : Store) : Scalar → Value × Store
  | .null => (.null, s)
  | .bool b => (.bool b, s)
  | .int n => (.int n, s)
  | .float x => (.float x, s)
  | .text t => s.addText t

/-- Empty containers, zeros, `null` and `undefined` count as false. -/
def truthy (s : Store) : Value → Bool
  | .undefined => false
  | .null => false
  | .bool b => b
  | .int n => n != 0
  | .float x => !x.isZero
  | .text ref => !(s.text ref).isEmpty
  | .list ref => !(s.list ref).isEmpty
  | .map ref => (s.map ref).size != 0

end Store

end StackMachine
