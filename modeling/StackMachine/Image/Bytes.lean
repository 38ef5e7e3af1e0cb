/-! Bytes of a module image: little-endian numbers, and a reader that knows how far it has come. -/

namespace StackMachine

abbrev Bytes := List UInt8

namespace Bytes

/-- The `width` low bytes of a number, the lowest first. -/
def littleEndian : Nat → Nat → Bytes
  | 0, _ => []
  | width + 1, n => .ofNat n :: littleEndian width (n / 256)

def number : Bytes → Nat
  | [] => 0
  | b :: rest => b.toNat + 256 * number rest

/-- Whether there are at least `n` bytes, found out without counting all of them. -/
def hasAtLeast : Nat → Bytes → Bool
  | 0, _ => true
  | _ + 1, [] => false
  | n + 1, _ :: rest => hasAtLeast n rest

theorem hasAtLeast_iff {n : Nat} {bytes : Bytes} :
    hasAtLeast n bytes = true ↔ n ≤ bytes.length := by
  induction bytes generalizing n with
  | nil => cases n <;> simp [hasAtLeast]
  | cons b rest ih => cases n <;> simp [hasAtLeast, ih]

end Bytes

/-- Why bytes are no module image. Offsets count from the start of the image. -/
inductive DecodeError where
  | badMagic
  | unsupportedVersion (version : Nat)
  | checksumMismatch
  | unexpectedEnd (offset : Nat)
  | invalidLength (declared actual : Nat)
  | illegalOpcode
  | reservedOpcode (byte : UInt8)
  | invalidTag (byte : UInt8)
  | invalidKind (byte : UInt8)
  | invalidUtf8 (offset : Nat)
  | invalidKey (offset : Nat)
  | nestingTooDeep (offset : Nat)
  | trailingBytes (count : Nat)
deriving DecidableEq, Repr, Inhabited

namespace DecodeError

def hex (b : UInt8) : String :=
  "0x" ++ String.ofList ([b.toNat / 16, b.toNat % 16].map Nat.digitChar)

def message : DecodeError → String
  | badMagic => "not a brisk module (bad magic)"
  | unsupportedVersion version => "unsupported module format version " ++ toString version
  | checksumMismatch => "module checksum mismatch"
  | unexpectedEnd offset => "unexpected end of input at byte " ++ toString offset
  | invalidLength declared actual =>
    "invalid payload length: header says " ++ toString declared ++ ", found " ++ toString actual
  | illegalOpcode => "illegal opcode 0x00"
  | reservedOpcode byte => "reserved opcode: " ++ hex byte
  | invalidTag byte => "invalid value tag: " ++ hex byte
  | invalidKind byte => "invalid function kind: " ++ hex byte
  | invalidUtf8 offset => "invalid UTF-8 in string at byte " ++ toString offset
  | invalidKey offset => "invalid map key at byte " ++ toString offset
  | nestingTooDeep offset => "constant nesting too deep at byte " ++ toString offset
  | trailingBytes count => toString count ++ " trailing bytes after module payload"

end DecodeError

structure Cursor where
  offset : Nat
  rest : Bytes

abbrev Reader := StateT Cursor (Except DecodeError)

namespace Reader

variable {α : Type}

def offset : Reader Nat := do
  return (← get).offset

def endOffset : Reader Nat := do
  let c ← get
  return c.offset + c.rest.length

def take (n : Nat) : Reader Bytes := fun c =>
  if Bytes.hasAtLeast n c.rest then .ok (c.rest.take n, ⟨c.offset + n, c.rest.drop n⟩)
  else .error (.unexpectedEnd c.offset)

def number (width : Nat) : Reader Nat := do
  return Bytes.number (← take width)

def uint8 : Reader UInt8 := do
  return .ofNat (← number 1)

def uint16 : Reader UInt16 := do
  return .ofNat (← number 2)

def uint32 : Reader UInt32 := do
  return .ofNat (← number 4)

/-- A count of items, each of which takes at least one byte: more of them than bytes left is an end
of input at the count itself. -/
def count : Reader Nat := fun c => do
  let (n, c') ← number 4 c
  if Bytes.hasAtLeast n c'.rest then .ok (n, c') else .error (.unexpectedEnd c.offset)

def many (item : Reader α) : Nat → Array α → Reader (Array α)
  | 0, items => pure items
  | n + 1, items => do
    let a ← item
    many item n (items.push a)

def array (item : Reader α) : Reader (Array α) := do
  many item (← count) #[]

def string : Reader String := do
  let n ← count
  let start ← offset
  let bytes ← take n
  match String.fromUTF8? ⟨bytes.toArray⟩ with
  | some s => return s
  | none => throw (.invalidUtf8 start)

end Reader

end StackMachine
