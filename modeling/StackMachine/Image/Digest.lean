/-! The BLAKE3 digest of a byte string, without a key. Chunks of 1024 bytes are the leaves of a
binary tree whose nodes are compressed pairwise, level by level. -/

namespace StackMachine.Digest

abbrev Words := Vector UInt32

def initial : Words 8 :=
  #v[0x6a09e667, 0xbb67ae85, 0x3c6ef372, 0xa54ff53a, 0x510e527f, 0x9b05688c, 0x1f83d9ab, 0x5be0cd19]

/-- The order in which a round takes the words of the round before. -/
def schedule : Vector (Fin 16) 16 :=
  #v[2, 6, 3, 10, 7, 0, 4, 13, 1, 11, 12, 5, 9, 14, 15, 8]

def chunkStart : UInt32 := 1
def chunkEnd : UInt32 := 2
def parentNode : UInt32 := 4
def rootNode : UInt32 := 8

def rotateRight (word count : UInt32) : UInt32 :=
  word >>> count ||| word <<< (32 - count)

def quarter (state : Words 16) (a b c d : Fin 16) (x y : UInt32) : Words 16 :=
  let wa := state[a] + state[b] + x
  let wd := rotateRight (state[d] ^^^ wa) 16
  let wc := state[c] + wd
  let wb := rotateRight (state[b] ^^^ wc) 12
  let wa := wa + wb + y
  let wd := rotateRight (wd ^^^ wa) 8
  let wc := wc + wd
  let wb := rotateRight (wb ^^^ wc) 7
  (((state.set a wa).set b wb).set c wc).set d wd

def round (state message : Words 16) : Words 16 :=
  let state := quarter state 0 4 8 12 message[0] message[1]
  let state := quarter state 1 5 9 13 message[2] message[3]
  let state := quarter state 2 6 10 14 message[4] message[5]
  let state := quarter state 3 7 11 15 message[6] message[7]
  let state := quarter state 0 5 10 15 message[8] message[9]
  let state := quarter state 1 6 11 12 message[10] message[11]
  let state := quarter state 2 7 8 13 message[12] message[13]
  quarter state 3 4 9 14 message[14] message[15]

def rounds : Nat → Words 16 → Words 16 → Words 16
  | 0, state, _ => state
  | n + 1, state, message =>
    rounds n (round state message) (schedule.map fun place => message[place])

/-- One compression, before it is cut down to a chaining value. -/
structure Node where
  chain : Words 8
  block : Words 16
  counter : UInt64
  length : UInt32
  flags : UInt32

namespace Node

def output (node : Node) : Words 8 :=
  let h := node.chain
  let state : Words 16 :=
    #v[h[0], h[1], h[2], h[3], h[4], h[5], h[6], h[7], initial[0], initial[1], initial[2],
      initial[3], node.counter.toUInt32, (node.counter >>> 32).toUInt32, node.length, node.flags]
  let state := rounds 7 state node.block
  Vector.ofFn fun i : Fin 8 => state[i.val] ^^^ state[i.val + 8]

def root (node : Node) : Words 8 :=
  output { node with flags := node.flags ||| rootNode }

def parent (left right : Node) : Node :=
  let block := left.output ++ right.output
  { chain := initial, block, counter := 0, length := 64, flags := parentNode }

end Node

/-- Cut a list into pieces of `size`, the last of them shorter; at least one piece. -/
def pieces {α : Type} (size : Nat) : Nat → List α → List (List α)
  | 0, list => [list]
  | fuel + 1, list =>
    match list.drop size with
    | [] => [list]
    | rest => list.take size :: pieces size fuel rest

def word (bytes : Array UInt8) (place : Nat) : UInt32 :=
  let byte (i : Nat) : UInt32 := (bytes.getD (4 * place + i) 0).toUInt32
  byte 0 ||| byte 1 <<< 8 ||| byte 2 <<< 16 ||| byte 3 <<< 24

def blockWords (bytes : List UInt8) : Words 16 :=
  let bytes := bytes.toArray
  Vector.ofFn fun i : Fin 16 => word bytes i

/-- Chain the blocks of a chunk; `flags` is set for the first block alone. -/
def chunkNode (counter : UInt64) (flags : UInt32) (chain : Words 8) : List (List UInt8) → Node
  | [] => { chain, block := blockWords [], counter, length := 0, flags := flags ||| chunkEnd }
  | [last] =>
    { chain, block := blockWords last, counter, length := .ofNat last.length
      flags := flags ||| chunkEnd }
  | block :: rest =>
    let node : Node :=
      { chain, block := blockWords block, counter, length := .ofNat block.length, flags }
    chunkNode counter 0 node.output rest

def leaf (bytes : List UInt8) (counter : Nat) : Node :=
  chunkNode (.ofNat counter) chunkStart initial (pieces 64 bytes.length bytes)

/-- Join neighbours; an odd node out moves up a level by itself. -/
def joinPairs : List Node → List Node
  | left :: right :: rest => left.parent right :: joinPairs rest
  | short => short

def joinAll : Nat → List Node → List Node
  | 0, nodes => nodes
  | _, [] => []
  | _, [node] => [node]
  | fuel + 1, nodes => joinAll fuel (joinPairs nodes)

def wordBytes (w : UInt32) : List UInt8 :=
  [w.toUInt8, (w >>> 8).toUInt8, (w >>> 16).toUInt8, (w >>> 24).toUInt8]

def digest (bytes : List UInt8) : List UInt8 :=
  let leaves := (pieces 1024 bytes.length bytes).mapIdx fun i piece => leaf piece i
  match joinAll leaves.length leaves with
  | node :: _ => node.root.toList.flatMap wordBytes
  | [] => []

end StackMachine.Digest
