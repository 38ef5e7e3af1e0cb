import StackMachine.Code.Module
import StackMachine.Operator.Comparison

/-! Switch tables. A linear switch takes the first case that compares equal to the selector. A
binary switch searches a table that was sorted when the program was linked; cases that an equal
earlier key hides are dropped before sorting. Both take the same case as long as equality is
transitive among the keys and the selector, which it is not where one double equals two different
integers. -/

namespace StackMachine

/-- One case: the index of its key among the constants, and where it leads. -/
abbrev SwitchCase := UInt16 × UInt32

namespace Store

def order? (s : Store) (v w : Value) : Option Ordering :=
  match s.compare v w with
  | .ok result => result
  | .error _ => none

end Store

namespace Sorting

variable {α : Type}

def scanUp (smaller : α → Bool) (items : Array α) : Nat → Nat → Nat
  | 0, i => i
  | fuel + 1, i =>
    match items[i]? with
    | some item => if smaller item then scanUp smaller items fuel (i + 1) else i
    | none => i

def scanDown (greater : α → Bool) (items : Array α) : Nat → Nat → Nat
  | 0, j => j
  | fuel + 1, j =>
    match items[j]? with
    | some item => if greater item then scanDown greater items fuel (j - 1) else j
    | none => j

/-- Swap pairs that stand on the wrong sides until the two scans meet; the answer is the last place
of the lower part. -/
def partition (smaller greater : α → Bool) : Nat → Nat → Nat → Array α → Nat × Array α
  | 0, _, j, items => (j, items)
  | fuel + 1, i, j, items =>
    let i := scanUp smaller items items.size i
    let j := scanDown greater items items.size j
    if j ≤ i then (j, items)
    else partition smaller greater fuel (i + 1) (j - 1) (items.swapIfInBounds i j)

/-- Sort around the middle item. A pair without an order counts as equal. -/
def quicksort (order : α → α → Ordering) : Nat → Array α → Array α
  | 0, items => items
  | fuel + 1, items =>
    match items[(items.size - 1) / 2]? with
    | none => items
    | some pivot =>
      if items.size < 2 then items
      else
        let (split, items) :=
          partition (order · pivot == .lt) (order · pivot == .gt) items.size 0
            (items.size - 1) items
        quicksort order fuel (items.extract 0 (split + 1)) ++
          quicksort order fuel (items.extract (split + 1) items.size)

def dropHidden (equal : α → α → Bool) (items : List α) : Array α :=
  items.foldl (fun kept item => if kept.any (equal · item) then kept else kept.push item) #[]

end Sorting

namespace SwitchTable

def cases (t : SwitchTable) : List SwitchCase :=
  t.keys.toList.zip t.targets.toList

/-- The table without hidden cases, by ascending key. A table with a key that is no constant stays
as it is. -/
def sorted (t : SwitchTable) (s : Store) (constants : Array Value) : SwitchTable :=
  let cases := t.cases
  if cases.any fun (key, _) => constants.size ≤ key.toNat then t
  else
    let value (c : SwitchCase) : Value := constants.getD c.1.toNat .undefined
    let kept := Sorting.dropHidden (fun a b => s.order? (value a) (value b) == some .eq) cases
    let sorted :=
      Sorting.quicksort (fun a b => (s.order? (value a) (value b)).getD .eq) kept.size kept
    { t with keys := sorted.map (·.1), targets := sorted.map (·.2) }

def linearTarget (t : SwitchTable) (s : Store) (constants : Array Value) (selector : Value) :
    UInt32 :=
  if !selector.isScalar then t.default
  else
    let hit := t.cases.find? fun (key, _) =>
      match constants[key.toNat]? with
      | some value => s.order? value selector == some .eq
      | none => false
    match hit with
    | some (_, target) => target
    | none => t.default

/-- Halve the range from `low` to `high`. A key that is missing, or has no order with the selector,
ends the search at the default. -/
def search (t : SwitchTable) (s : Store) (constants : Array Value) (selector : Value) :
    Nat → Nat → Nat → UInt32
  | 0, _, _ => t.default
  | fuel + 1, low, high =>
    if low < high then
      let middle := low + (high - low) / 2
      match t.keys[middle]?.bind fun key => constants[key.toNat]? with
      | none => t.default
      | some value =>
        match s.order? value selector with
        | some .lt => t.search s constants selector fuel (middle + 1) high
        | some .gt => t.search s constants selector fuel low middle
        | some .eq => t.targets.getD middle t.default
        | none => t.default
    else t.default

def binaryTarget (t : SwitchTable) (s : Store) (constants : Array Value) (selector : Value) :
    UInt32 :=
  let size := min t.keys.size t.targets.size
  if !selector.isScalar then t.default
  else t.search s constants selector (size + 1) 0 size

end SwitchTable

end StackMachine
