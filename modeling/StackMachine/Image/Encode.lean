import StackMachine.Code.Opcode
import StackMachine.Code.Module
import StackMachine.Data.Datum
import StackMachine.Image.Bytes
import StackMachine.Image.Digest

/-! Module images: how a module is written. The payload follows a header with its length and digest;
every list is preceded by a count of four bytes. -/

namespace StackMachine

namespace Bytes

def uint8 (n : UInt8) : Bytes :=
  [n]

def uint16 (n : UInt16) : Bytes :=
  littleEndian 2 n.toNat

def uint32 (n : UInt32) : Bytes :=
  littleEndian 4 n.toNat

def uint64 (n : UInt64) : Bytes :=
  littleEndian 8 n.toNat

def count (n : Nat) : Bytes :=
  littleEndian 4 n

def array {α : Type} (item : α → Bytes) (items : Array α) : Bytes :=
  count items.size ++ items.toList.flatMap item

def string (s : String) : Bytes :=
  count s.utf8ByteSize ++ s.toUTF8.data.toList

end Bytes

namespace Instruction

def operandBytes : Instruction → Bytes
  | plain _ => []
  | short value => Bytes.uint16 value.toUInt16
  | wide _ operand => Bytes.uint16 operand
  | call _ function argc => Bytes.uint16 function ++ Bytes.uint8 argc
  | jump _ target => Bytes.uint32 target

def encode (i : Instruction) : Bytes :=
  i.opcode.byte :: i.operandBytes

end Instruction

namespace Scalar

def payload : Scalar → Bytes
  | null => []
  | bool b => [b.toUInt8]
  | int n => Bytes.uint64 n.toUInt64
  | float x => Bytes.uint64 x.bits
  | text s => Bytes.string s

def encode (s : Scalar) : Bytes :=
  s.tag.byte :: s.payload

end Scalar

namespace Literal

mutual

def encode : Literal → Bytes
  | .undefined => [Tag.undefined.byte]
  | .scalar value => value.encode
  | .list items => Tag.list.byte :: Bytes.count items.length ++ encodeItems items
  | .map entries => Tag.map.byte :: Bytes.count entries.length ++ encodeEntries entries

def encodeItems : List Literal → Bytes
  | [] => []
  | item :: rest => encode item ++ encodeItems rest

def encodeEntries : List (Scalar × Literal) → Bytes
  | [] => []
  | (key, item) :: rest => key.encode ++ encode item ++ encodeEntries rest

end

end Literal

namespace Image

def table (t : SwitchTable) : Bytes :=
  Bytes.array Bytes.uint16 t.keys ++ Bytes.array Bytes.uint32 t.targets ++ Bytes.uint32 t.default

def lineEntry (e : LineEntry) : Bytes :=
  Bytes.uint32 e.start ++ Bytes.uint32 e.line

def entry : Option UInt16 → Bytes
  | none => [0]
  | some id => 1 :: Bytes.uint16 id

section

-- What holds literals is written alike, whatever they are, once it is known how to write one.
variable {κ : Type} (literal : κ → Bytes)

def code (c : Code κ) : Bytes :=
  Bytes.uint16 c.locals ++ Bytes.uint16 c.stack ++ Bytes.array literal c.constants ++
    Bytes.array Instruction.encode c.instructions ++ Bytes.array table c.tables ++
    Bytes.array lineEntry c.lines

def body : Body κ → Bytes
  | .native => [0]
  | .bytecode c => 1 :: code literal c

def function (f : Function κ) : Bytes :=
  Bytes.string f.name ++ Bytes.string f.module ++ Bytes.uint8 f.minArgs ++ Bytes.uint8 f.maxArgs ++
    Bytes.array Bytes.string f.params ++ Bytes.array literal f.defaults ++ body literal f.body

def global (g : String × κ) : Bytes :=
  Bytes.string g.1 ++ literal g.2

def payload (m : Module κ) : Bytes :=
  Bytes.array (function literal) m.functions ++ Bytes.array (global literal) m.globals ++
    entry m.entry

end

def magic : Bytes :=
  [0x42, 0x52, 0x53, 0x4b]

def version : UInt16 := 1

def sealed (payload : Bytes) : Bytes :=
  magic ++ Bytes.uint16 version ++ Bytes.count payload.length ++ Digest.digest payload ++ payload

end Image

namespace Module

def encode (m : Module Literal) : Bytes :=
  Image.sealed (Image.payload Literal.encode m)

end Module

end StackMachine
