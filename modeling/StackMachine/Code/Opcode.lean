import StackMachine.Code.Instruction

/-! The byte and the mnemonic of every opcode. -/

namespace StackMachine

namespace Plain

def byte : Plain → UInt8
  | nop => 0x01
  | push .null => 0x02
  | push (.bool true) => 0x03
  | push (.bool false) => 0x04
  | push .minusOne => 0x05
  | push .zero => 0x06
  | push .one => 0x07
  | binary .add => 0x10
  | binary .sub => 0x11
  | binary .mul => 0x12
  | binary .div => 0x13
  | binary .rem => 0x14
  | unary .neg => 0x15
  | unary .plus => 0x16
  | binary .bitAnd => 0x18
  | binary .bitOr => 0x19
  | binary .bitXor => 0x1a
  | binary .shiftLeft => 0x1b
  | binary .shiftRight => 0x1c
  | unary .bitNot => 0x1d
  | unary .not => 0x1e
  | compare .eq => 0x20
  | compare .ne => 0x21
  | compare .lt => 0x22
  | compare .le => 0x23
  | compare .gt => 0x24
  | compare .ge => 0x25
  | load 0 => 0x30
  | load 1 => 0x31
  | load 2 => 0x32
  | store 0 => 0x34
  | store 1 => 0x35
  | store 2 => 0x36
  | pop => 0x40
  | popPair => 0x41
  | dup false 0 => 0x42
  | dup false 1 => 0x43
  | dup false 2 => 0x44
  | dup true 0 => 0x45
  | dup true 1 => 0x46
  | dup true 2 => 0x47
  | swap => 0x48
  | loadIndex true => 0x52
  | loadIndex false => 0x53
  | storeIndex => 0x54
  | stepIndex .up => 0x55
  | stepIndex .down => 0x56
  | contains => 0x57
  | length => 0x58
  | append => 0x59
  | clone => 0x5a
  | ret => 0x72
  | leave => 0x73
  | unreachable => 0xfd
  | halt => 0xfe

def mnemonic : Plain → String
  | nop => "NOP"
  | push .null => "PUSH_NULL"
  | push (.bool true) => "PUSH_TRUE"
  | push (.bool false) => "PUSH_FALSE"
  | push .minusOne => "PUSH_M1"
  | push .zero => "PUSH_0"
  | push .one => "PUSH_1"
  | binary .add => "ADD"
  | binary .sub => "SUB"
  | binary .mul => "MUL"
  | binary .div => "DIV"
  | binary .rem => "REM"
  | unary .neg => "NEG"
  | unary .plus => "PLUS"
  | binary .bitAnd => "AND"
  | binary .bitOr => "OR"
  | binary .bitXor => "XOR"
  | binary .shiftLeft => "SHL"
  | binary .shiftRight => "SHR"
  | unary .bitNot => "BIT_NOT"
  | unary .not => "NOT"
  | compare .eq => "EQ"
  | compare .ne => "NE"
  | compare .lt => "LT"
  | compare .le => "LE"
  | compare .gt => "GT"
  | compare .ge => "GE"
  | load 0 => "LOAD_0"
  | load 1 => "LOAD_1"
  | load 2 => "LOAD_2"
  | store 0 => "STORE_0"
  | store 1 => "STORE_1"
  | store 2 => "STORE_2"
  | pop => "POP"
  | popPair => "POP2"
  | dup false 0 => "DUP"
  | dup false 1 => "DUP_X1"
  | dup false 2 => "DUP_X2"
  | dup true 0 => "DUP2"
  | dup true 1 => "DUP2_X1"
  | dup true 2 => "DUP2_X2"
  | swap => "SWAP"
  | loadIndex true => "LOAD_INDEX"
  | loadIndex false => "LOAD_INDEX_OR_NULL"
  | storeIndex => "STORE_INDEX"
  | stepIndex .up => "INC_INDEX"
  | stepIndex .down => "DEC_INDEX"
  | contains => "CONTAINS"
  | length => "LEN"
  | append => "APPEND"
  | clone => "CLONE"
  | ret => "RETURN"
  | leave => "LEAVE"
  | unreachable => "UNREACHABLE"
  | halt => "HALT"

def all : List Plain :=
  [nop, push .null, push (.bool true), push (.bool false), push .minusOne, push .zero, push .one,
    binary .add, binary .sub, binary .mul, binary .div, binary .rem, unary .neg, unary .plus,
    binary .bitAnd, binary .bitOr, binary .bitXor, binary .shiftLeft, binary .shiftRight,
    unary .bitNot, unary .not,
    compare .eq, compare .ne, compare .lt, compare .le, compare .gt, compare .ge,
    load 0, load 1, load 2, store 0, store 1, store 2,
    pop, popPair, dup false 0, dup false 1, dup false 2, dup true 0, dup true 1, dup true 2, swap,
    loadIndex true, loadIndex false, storeIndex, stepIndex .up, stepIndex .down, contains, length,
    append, clone, ret, leave, unreachable, halt]

end Plain

namespace Wide

def byte : Wide → UInt8
  | constant => 0x09
  | global => 0x0a
  | load => 0x33
  | store => 0x37
  | step .up true => 0x38
  | step .down true => 0x39
  | step .up false => 0x3a
  | step .down false => 0x3b
  | newList => 0x50
  | newMap => 0x51
  | switch .linear => 0x6d
  | switch .binary => 0x6e

def mnemonic : Wide → String
  | constant => "LDC"
  | global => "GET_CONST"
  | load => "LOAD"
  | store => "STORE"
  | step .up true => "INC"
  | step .down true => "DEC"
  | step .up false => "INC_QUICK"
  | step .down false => "DEC_QUICK"
  | newList => "NEW_LIST"
  | newMap => "NEW_MAP"
  | switch .linear => "LINEAR_SWITCH"
  | switch .binary => "BINARY_SWITCH"

def all : List Wide :=
  [constant, global, load, store, step .up true, step .down true, step .up false, step .down false,
    newList, newMap, switch .linear, switch .binary]

end Wide

namespace Condition

def byte : Condition → UInt8
  | isTrue => 0x61
  | isFalse => 0x62
  | isNull => 0x63
  | isNonNull => 0x64
  | compare .eq => 0x65
  | compare .ne => 0x66
  | compare .lt => 0x67
  | compare .ge => 0x68
  | compare .gt => 0x69
  | compare .le => 0x6a
  | contains => 0x6b
  | lacks => 0x6c

def mnemonic : Condition → String
  | isTrue => "IF_TRUE"
  | isFalse => "IF_FALSE"
  | isNull => "IF_NULL"
  | isNonNull => "IF_NONNULL"
  | compare .eq => "IF_EQ"
  | compare .ne => "IF_NE"
  | compare .lt => "IF_LT"
  | compare .ge => "IF_GE"
  | compare .gt => "IF_GT"
  | compare .le => "IF_LE"
  | contains => "IF_IN"
  | lacks => "IF_NOT_IN"

def all : List Condition :=
  [isTrue, isFalse, isNull, isNonNull, compare .eq, compare .ne, compare .lt, compare .ge,
    compare .gt, compare .le, contains, lacks]

end Condition

namespace Jump

def byte : Jump → UInt8
  | goto => 0x60
  | branch condition => condition.byte

def mnemonic : Jump → String
  | goto => "GOTO"
  | branch condition => condition.mnemonic

def all : List Jump :=
  goto :: Condition.all.map branch

end Jump

namespace Opcode

def byte : Opcode → UInt8
  | plain op => op.byte
  | short => 0x08
  | wide op => op.byte
  | call true => 0x70
  | call false => 0x71
  | jump op => op.byte

def mnemonic : Opcode → String
  | plain op => op.mnemonic
  | short => "PUSH_SHORT"
  | wide op => op.mnemonic
  | call true => "CALL"
  | call false => "CALL_POP"
  | jump op => op.mnemonic

def operandLength : Opcode → Nat
  | plain _ => 0
  | short => 2
  | wide _ => 2
  | call _ => 3
  | jump _ => 4

def all : List Opcode :=
  Plain.all.map plain ++ short :: Wide.all.map wide ++ call true :: call false :: Jump.all.map jump

def ofByte? (b : UInt8) : Option Opcode :=
  all.find? (·.byte == b)

def ofMnemonic? (name : String) : Option Opcode :=
  all.find? (·.mnemonic == name)

end Opcode

end StackMachine
