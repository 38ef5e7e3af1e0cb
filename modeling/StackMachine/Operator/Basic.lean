import StackMachine.Store.Basic

/-! The operators on values, and the causes for which they fail. -/

namespace StackMachine

inductive BinaryOp where
  | add | sub | mul | div | rem | bitAnd | bitOr | bitXor | shiftLeft | shiftRight
deriving DecidableEq, Repr, Inhabited

inductive UnaryOp where
  | neg | plus | bitNot | not
deriving DecidableEq, Repr, Inhabited

inductive Comparison where
  | eq | ne | lt | le | gt | ge
deriving DecidableEq, Repr, Inhabited

inductive Operation where
  | binary (op : BinaryOp)
  | unary (op : UnaryOp)
  | compare
  | contains
  | index
  | assign
  | stepIndex
  | append
  | length
  | stepUp
  | stepDown
  | key
deriving DecidableEq, Repr, Inhabited

namespace Operation

def label : Operation → String
  | binary .add => "+"
  | binary .sub => "-"
  | binary .mul => "*"
  | binary .div => "/"
  | binary .rem => "%"
  | binary .bitAnd => "&"
  | binary .bitOr => "|"
  | binary .bitXor => "^"
  | binary .shiftLeft => "<<"
  | binary .shiftRight => ">>"
  | unary .neg => "unary -"
  | unary .plus => "unary +"
  | unary .bitNot => "~"
  | unary .not => "!"
  | compare => "compare"
  | contains => "in"
  | index => "[]"
  | assign => "[]="
  | stepIndex => "[]++"
  | append => "append"
  | length => "len"
  | stepUp => "++"
  | stepDown => "--"
  | key => "map key"

end Operation

inductive OpError where
  | operands (op : Operation) (left right : Tag)
  | operand (op : Operation) (tag : Tag)
  | divisionByZero
  | outOfBounds (index : Int64) (length : Nat)
  | undefinedKey (key : Scalar)
deriving DecidableEq, Inhabited

namespace OpError

def message : OpError → String
  | operands op left right =>
    "unsupported operand types for " ++ op.label ++ ": " ++ left.name ++ " and " ++ right.name
  | operand op tag => "unsupported operand type for " ++ op.label ++ ": " ++ tag.name
  | divisionByZero => "division by zero"
  | outOfBounds index length =>
    "index " ++ toString index.toInt ++ " out of bounds (length " ++ toString length ++ ")"
  | undefinedKey key => "undefined key " ++ key.quoted

def mismatch (op : Operation) (v w : Value) : OpError :=
  operands op v.tag w.tag

def unfit (op : Operation) (v : Value) : OpError :=
  operand op v.tag

end OpError

/-- An operation on the store. The store also comes back from a failure. -/
abbrev Op := EStateM OpError Store

namespace Op

def ofExcept {α : Type} : Except OpError α → Op α
  | .ok a => pure a
  | .error e => throw e

def look {α : Type} (f : Store → Except OpError α) : Op α := fun s =>
  match f s with
  | .ok a => .ok a s
  | .error e => .error e s

end Op

end StackMachine
