import StackMachine.Image.Encode

/-! Module images: how a module is read. Reading stops at the first thing that is wrong and says
where it stands. -/

namespace StackMachine

namespace Opcode

def decode (b : UInt8) : Except DecodeError Opcode :=
  if b == 0 then .error .illegalOpcode
  else
    match ofByte? b with
    | some op => .ok op
    | none => .error (.reservedOpcode b)

end Opcode

namespace Tag

def decode (b : UInt8) : Except DecodeError Tag :=
  match ofByte? b with
  | some tag => .ok tag
  | none => .error (.invalidTag b)

end Tag

namespace Reader

def operand : Opcode → Reader Instruction
  | .plain op => return .plain op
  | .short => return .short (← uint16).toInt16
  | .wide op => return .wide op (← uint16)
  | .call keep => return .call keep (← uint16) (← uint8)
  | .jump op => return .jump op (← uint32)

/-- An operand that is cut short ends at the end of the whole input. -/
def instruction : Reader Instruction := do
  let opcode ← Opcode.decode (← uint8)
  if Bytes.hasAtLeast opcode.operandLength (← get).rest then operand opcode
  else throw (.unexpectedEnd (← endOffset))

/-- `room` levels of nesting are left for this literal and those inside it. -/
def literal : Nat → Reader Literal
  | 0 => do throw (.nestingTooDeep (← offset))
  | room + 1 => do
    match ← Tag.decode (← uint8) with
    | .undefined => return .undefined
    | .null => return .scalar .null
    | .int => return .scalar (.int (UInt64.ofNat (← number 8)).toInt64)
    | .float => return .scalar (.float ⟨.ofNat (← number 8)⟩)
    | .bool => return .scalar (.bool ((← uint8) != 0))
    | .text => return .scalar (.text (← string))
    | .list => return .list (← array (literal room)).toList
    | .map =>
      let pairs ← array do
        let start ← offset
        match ← literal room with
        | .scalar key => return (key, ← literal room)
        | _ => throw (.invalidKey start)
      return .ofPairs pairs.toList

/-- How deep a literal may be nested: a container at level 64 must be empty. -/
def maxDepth : Nat := 64

def value : Reader Literal :=
  literal (maxDepth + 1)

def table : Reader SwitchTable :=
  return { keys := ← array uint16, targets := ← array uint32, default := ← uint32 }

def lineEntry : Reader LineEntry :=
  return { start := ← uint32, line := ← uint32 }

def code : Reader (Code Literal) := do
  let locals ← uint16
  let stack ← uint16
  let constants ← array value
  let instructions ← array instruction
  let tables ← array table
  let lines ← array lineEntry
  return { instructions, constants, tables, locals, stack, lines }

def body : Reader (Body Literal) := do
  let kind ← uint8
  if kind == 0 then return .native
  else if kind == 1 then return .bytecode (← code)
  else throw (.invalidKind kind)

def function : Reader (Function Literal) :=
  return {
    name := ← string
    module := ← string
    minArgs := ← uint8
    maxArgs := ← uint8
    params := ← array string
    defaults := ← array value
    body := ← body }

def global : Reader (String × Literal) :=
  return (← string, ← value)

def entry : Reader (Option UInt16) := do
  if (← uint8) == 0 then return none else return some (← uint16)

def module : Reader (Module Literal) :=
  return { functions := ← array function, globals := ← array global, entry := ← entry }

/-- The digest, once version and length are known to be right. -/
def header : Reader Bytes := do
  let version ← uint16
  if version != Image.version then throw (.unsupportedVersion version.toNat)
  let declared ← number 4
  let digest ← take 32
  let payload := (← get).rest
  if payload.length != declared then throw (.invalidLength declared payload.length)
  if Digest.digest payload != digest then throw .checksumMismatch
  return digest

end Reader

namespace Module

def decode (bytes : Bytes) : Except DecodeError (Module Literal) := do
  if bytes.take 4 != Image.magic then throw .badMagic
  let (m, c) ← (do let _ ← Reader.header; Reader.module).run ⟨4, bytes.drop 4⟩
  match c.rest with
  | [] => return m
  | rest => throw (.trailingBytes rest.length)

end Module

namespace Instruction

def decode (bytes : Bytes) (offset : Nat) : Except DecodeError (Instruction × Nat) := do
  let (i, c) ← Reader.instruction.run ⟨offset, bytes.drop offset⟩
  return (i, c.offset)

end Instruction

end StackMachine
