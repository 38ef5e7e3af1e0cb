import StackMachine.Data.Dict

/-! Data as trees. A literal of a module is a tree without back references; the unfolding of a
stored value has one wherever a container contains itself. -/

namespace StackMachine

/-- `β` is what may stand in place of a container that is already open. -/
inductive Datum (β : Type) where
  | undefined
  | scalar (value : Scalar)
  | list (items : List (Datum β))
  | map (entries : List (Scalar × Datum β))
  | back (mark : β)

abbrev Literal := Datum Empty

namespace Datum

variable {β : Type}

instance : Inhabited (Datum β) :=
  ⟨undefined⟩

/-- A map of the given pairs; a later pair wins. -/
def ofPairs (pairs : List (Scalar × Datum β)) : Datum β :=
  map (Dict.ofList pairs).entries

mutual

/-- The form inside a container, where texts stand in quotes. -/
def nested (mark : β → String) : Datum β → String
  | undefined => "undefined"
  | scalar value => value.quoted
  | list items => "[" ++ ", ".intercalate (nestedItems mark items) ++ "]"
  | map entries => "\x7b" ++ ", ".intercalate (nestedEntries mark entries) ++ "\x7d"
  | back b => mark b

def nestedItems (mark : β → String) : List (Datum β) → List String
  | [] => []
  | item :: rest => nested mark item :: nestedItems mark rest

def nestedEntries (mark : β → String) : List (Scalar × Datum β) → List String
  | [] => []
  | (key, item) :: rest => (key.quoted ++ ": " ++ nested mark item) :: nestedEntries mark rest

end

def render (mark : β → String) : Datum β → String
  | scalar value => value.plain
  | tree => tree.nested mark

end Datum

namespace Literal

def tag : Literal → Tag
  | .undefined => .undefined
  | .scalar value => value.tag
  | .list _ => .list
  | .map _ => .map

def isUndefined : Literal → Bool
  | .undefined => true
  | _ => false

def scalar? : Literal → Option Scalar
  | .scalar value => some value
  | _ => none

def text (literal : Literal) : String :=
  literal.render nofun

end Literal

end StackMachine
