/-! The kinds of values. -/

namespace StackMachine

inductive Tag where
  | undefined | null | int | float | bool | text | list | map
deriving DecidableEq, Repr, Inhabited

namespace Tag

def all : List Tag :=
  [undefined, null, int, float, bool, text, list, map]

def byte : Tag → UInt8
  | undefined => 0
  | null => 1
  | int => 2
  | float => 3
  | bool => 4
  | text => 5
  | list => 6
  | map => 7

def ofByte? (b : UInt8) : Option Tag :=
  all.find? (·.byte == b)

def name : Tag → String
  | undefined => "undefined"
  | null => "null"
  | int => "int"
  | float => "float"
  | bool => "boolean"
  | text => "string"
  | list => "list"
  | map => "map"

def isNumeric (t : Tag) : Bool :=
  t == int || t == float

/-- Kinds whose values are shared by reference. -/
def isContainer (t : Tag) : Bool :=
  t == text || t == list || t == map

end Tag

end StackMachine
