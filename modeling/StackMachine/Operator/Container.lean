import StackMachine.Operator.Arithmetic
import StackMachine.Operator.Comparison
import StackMachine.Store.Unfold

/-! Operators that read, build or change containers. A change either fails and leaves the store as
it was, or touches the addressed container alone. -/

namespace StackMachine

def occursIn (needle : List Char) : List Char → Bool
  | [] => needle.isEmpty
  | c :: rest => needle.isPrefixOf (c :: rest) || occursIn needle rest

def position (index : Int64) (length : Nat) : Except OpError Nat :=
  if 0 ≤ index && index.toInt.toNat < length then .ok index.toInt.toNat
  else .error (.outOfBounds index length)

namespace Store

def key (s : Store) (v : Value) : Except OpError Scalar :=
  match s.scalar? v with
  | some key => .ok key
  | none => .error (.unfit .key v)

def length (s : Store) : Value → Except OpError Nat
  | .text ref => .ok (s.text ref).length
  | .list ref => .ok (s.list ref).size
  | .map ref => .ok (s.map ref).size
  | v => .error (.unfit .length v)

def contains (s : Store) : Value → Value → Except OpError Bool
  | .list ref, item => .ok ((s.list ref).any fun v => s.equal v item)
  | .map ref, item =>
    match s.scalar? item with
    | some key => .ok ((s.map ref).find? key).isSome
    | none => .ok false
  | .text ref, .text part => .ok (occursIn (s.text part).toList (s.text ref).toList)
  | v, item => .error (.mismatch .contains v item)

end Store

namespace Op

def newText (t : String) : Op Value := fun s =>
  let (value, s) := s.addText t
  .ok value s

def newList (items : Array Value) : Op Value := fun s =>
  let (value, s) := s.addList items
  .ok value s

def newMap (entries : Dict Value) : Op Value := fun s =>
  let (value, s) := s.addMap entries
  .ok value s

/-- A text on either side joins the two displays; two maps give their union, in which the right one
wins. -/
def add (v w : Value) : Op Value := fun s =>
  match v, w with
  | .text _, _ => newText (s.display v ++ s.display w) s
  | _, .text _ => newText (s.display v ++ s.display w) s
  | .map a, .map b => newMap ((s.map a).insertAll (s.map b).entries) s
  | v, w => ofExcept (Value.binary .add v w) s

def binary (op : BinaryOp) (v w : Value) : Op Value :=
  match op with
  | .add => add v w
  | op => ofExcept (Value.binary op v w)

def unary (op : UnaryOp) (v : Value) : Op Value :=
  match op with
  | .neg => ofExcept v.neg
  | .plus => ofExcept v.plus
  | .bitNot => ofExcept v.bitNot
  | .not =>
    look fun s => if v.isUndefined then .error (.unfit (.unary .not) v) else .ok (.bool !s.truthy v)

/-- The character of a text comes as a new text of its own. -/
def loadIndex (container index : Value) : Op Value := fun s =>
  match container, index with
  | .list ref, .int i =>
    let items := s.list ref
    match position i items.size with
    | .ok place => .ok (items.getD place .undefined) s
    | .error e => .error e s
  | .text ref, .int i =>
    let letters := (s.text ref).toList
    match position i letters.length with
    | .ok place => newText (String.ofList (letters.drop place |>.take 1)) s
    | .error e => .error e s
  | .map ref, index =>
    match s.key index with
    | .ok key =>
      match (s.map ref).find? key with
      | some value => .ok value s
      | none => .error (.undefinedKey key) s
    | .error e => .error e s
  | container, index => .error (.mismatch .index container index) s

def loadIndexOrNull (container index : Value) : Op Value := fun s =>
  match loadIndex container index s with
  | .error (.outOfBounds _ _) s => .ok .null s
  | .error (.undefinedKey _) s => .ok .null s
  | result => result

/-- Lists keep their length; maps take a new key. -/
def storeIndex (container index value : Value) : Op Unit := fun s =>
  match container, index with
  | .list ref, .int i =>
    match position i (s.list ref).size with
    | .ok place => .ok () (s.modifyList ref (·.setIfInBounds place value))
    | .error e => .error e s
  | .map ref, index =>
    match s.key index with
    | .ok key => .ok () (s.modifyMap ref (·.insert key value))
    | .error e => .error e s
  | container, index => .error (.mismatch .assign container index) s

def stepIndex (container index : Value) (delta : Int64) : Op Unit := fun s =>
  match container, index with
  | .list ref, .int i =>
    let items := s.list ref
    match position i items.size with
    | .ok place =>
      match (items.getD place .undefined).step delta with
      | .ok value => .ok () (s.modifyList ref (·.setIfInBounds place value))
      | .error e => .error e s
    | .error e => .error e s
  | .map ref, index =>
    match s.key index with
    | .ok key =>
      match (s.map ref).find? key with
      | some old =>
        match old.step delta with
        | .ok value => .ok () (s.modifyMap ref (·.insert key value))
        | .error e => .error e s
      | none => .error (.undefinedKey key) s
    | .error e => .error e s
  | container, index => .error (.mismatch .stepIndex container index) s

/-- A text takes the display of the value as it was before. -/
def append (container value : Value) : Op Unit := fun s =>
  match container with
  | .list ref => .ok () (s.modifyList ref (·.push value))
  | .text ref =>
    let tail := s.display value
    .ok () (s.modifyText ref (· ++ tail))
  | container => .error (.mismatch .append container value) s

end Op

end StackMachine
