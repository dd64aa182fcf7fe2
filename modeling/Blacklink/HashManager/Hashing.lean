import Blacklink.Hash.Load

/-!
# Hashing a file

Model of `fastHash`, `slowHash`, `doLoadTree` and of what `Hasher::run` does with one item of its
queue (`client/HashManager.cpp:86-121, 292-467, 544-626`). What the system gives is part of the
input. A file that is read in pieces goes into one tree, piece after piece. Pauses and the limit of
the speed are left out. Off Windows, `optSaveTree` and `isLink` are false.
-/

namespace Blacklink.HashManager

open Blacklink.Hash

/-- `FAST_HASH_BUF_SIZE`. -/
def fastHashBufSize : Nat := 16 * 1024 * 1024

/-- `SLOW_HASH_BUF_SIZE`. -/
def slowHashBufSize : Nat := 512 * 1024

/-- `MIN_BLOCK_SIZE`. -/
def minBlockSize : Nat := 65536

/-- `TigerTree::calcBlockSize`; its loop is the one of `load`. -/
def calcBlockSize (fileSize maxLevels : Nat) : Nat :=
  MerkleTree.doubleBlockSize fileSize (2 ^ (maxLevels - 1)) baseBlockSize

/-- `TigerTree::getMaxBlockSize`. -/
def getMaxBlockSize (fileSize : Nat) : Nat := max (calcBlockSize fileSize 10) minBlockSize

/-- `TigerTree::calcBlocks`. -/
def calcBlocks (fileSize blockSize : Nat) : Nat := max ((fileSize + blockSize - 1) / blockSize) 1

theorem getMaxBlockSize_eq (fileSize : Nat) :
    ∃ m, getMaxBlockSize fileSize = baseBlockSize * 2 ^ m := by
  have hbase : baseBlockSize = baseBlockSize * 2 ^ 0 := (Nat.mul_one baseBlockSize).symm
  obtain ⟨⟨m, hm⟩, -⟩ : (∃ m, MerkleTree.doubleBlockSize fileSize (2 ^ (10 - 1)) baseBlockSize =
      baseBlockSize * 2 ^ m) ∧
        _ := MerkleTree.doubleBlockSize_spec _ (Nat.two_pow_pos (10 - 1)) hbase
  have hmin : minBlockSize = baseBlockSize * 2 ^ 6 := by decide
  rw [getMaxBlockSize, calcBlockSize, hm, hmin]
  rcases Nat.le_total (baseBlockSize * 2 ^ m) (baseBlockSize * 2 ^ 6) with h | h
  · exact ⟨6, Nat.max_eq_right h⟩
  · exact ⟨m, Nat.max_eq_left h⟩

theorem getMaxBlockSize_pos (fileSize : Nat) : 0 < getMaxBlockSize fileSize :=
  Nat.lt_of_lt_of_le (by decide) (Nat.le_max_right _ _)

/-- A turn of a loop that reads: whether `stopFlag` and then `skipFile` are set, and how many bytes
there are for the read between them, when it does not fail. -/
structure Turn where
  stopFlag : Bool
  read : Option Nat
  skipFile : Bool

/-- What `fastHash` and `slowHash` return; an exception is an error. -/
inductive Result where
  | ok
  | error
  | fileSkipped
  | stopped
  deriving DecidableEq

/-- The tree and `fileSize` when `fastHash` or `slowHash` returns. -/
structure Hashing (V : Type) where
  result : Result
  tree : MerkleTree V
  fileSize : Nat

/-- What is read with an overlapped read. One that begins at the end of the file fails. -/
def overlappedRead (rest : List UInt8) (read : Option Nat) : Option (List UInt8) :=
  read.bind fun n =>
    let data := rest.take (min n fastHashBufSize)
    if data = [] then none else some data

section

variable {V : Type} (H : Hasher V)

/-- The loop of `slowHash`; `rest` is what has not been read. When there are no turns left, the read
fails. -/
def slowLoop (tree : MerkleTree V) (rest : List UInt8) (fileSize : Nat) : List Turn → Hashing V
  | [] => if fileSize = 0 then ⟨.ok, tree.finalize H, 0⟩ else ⟨.error, tree, fileSize⟩
  | t :: ts =>
    if fileSize = 0 then ⟨.ok, tree.finalize H, 0⟩
    else if t.stopFlag then ⟨.stopped, tree, fileSize⟩
    else
      match t.read with
      | none => ⟨.error, tree, fileSize⟩
      | some n =>
        let buf := rest.take (min n (min slowHashBufSize fileSize))
        if buf = [] then ⟨.ok, tree.finalize H, fileSize⟩
        else if t.skipFile then ⟨.fileSkipped, tree, fileSize⟩
        else slowLoop (tree.update H buf) (rest.drop buf.length) (fileSize - buf.length) ts

/-- `slowHash`. -/
def slowHash (opened : Bool) (content : List UInt8) (fileSize : Nat) (tree : MerkleTree V)
    (turns : List Turn) : Hashing V :=
  if opened then slowLoop H tree content fileSize turns else ⟨.error, tree, fileSize⟩

/-- The loop of `fastHash`: the next read is begun, and `hbuf` is hashed meanwhile. -/
def fastLoop (tree : MerkleTree V) (hbuf rest : List UInt8) (fileSize : Nat) :
    List Turn → Hashing V
  | [] =>
    if fileSize = 0 then ⟨.ok, (tree.update H hbuf).finalize H, 0⟩
    else ⟨.error, tree.update H hbuf, fileSize⟩
  | t :: ts =>
    if fileSize = 0 then ⟨.ok, (tree.update H hbuf).finalize H, 0⟩
    else if t.stopFlag then ⟨.stopped, tree, fileSize⟩
    else
      let tree := tree.update H hbuf
      match overlappedRead rest t.read with
      | none => ⟨.error, tree, fileSize⟩
      | some data =>
        let rbuf := data.take fileSize
        if t.skipFile then ⟨.fileSkipped, tree, fileSize⟩
        else fastLoop tree rbuf (rest.drop rbuf.length) (fileSize - rbuf.length) ts

/-- `fastHash`. -/
def fastHash (opened : Bool) (content : List UInt8) (fileSize : Nat) (tree : MerkleTree V)
    (turns : List Turn) : Hashing V :=
  if !opened then ⟨.error, tree, fileSize⟩
  else if fileSize = 0 then ⟨.ok, tree.finalize H, 0⟩
  else
    match turns with
    | [] => ⟨.error, tree, fileSize⟩
    | t :: ts =>
      match overlappedRead content t.read with
      | none => ⟨.error, tree, fileSize⟩
      | some data =>
        let hbuf := data.take fileSize
        fastLoop H tree hbuf (content.drop hbuf.length) (fileSize - hbuf.length) ts

end

/-- `FileAttributes`, as far as they are used. -/
structure FileAttributes where
  size : Nat
  isLink : Bool

/-- `TTHStreamHeader` with the leaves behind it; `valid` is what `validateCheckSum` returns. -/
structure TTHStream (V : Type) where
  valid : Bool
  fileSize : Nat
  timeStamp : Nat
  blockSize : Nat
  root : V
  leaves : List V

/-- An item of the queue, the settings and all that the system gives while it is hashed. -/
structure HashInput (V : Type) where
  fileSize : Nat
  content : List UInt8
  attributes : Option FileAttributes
  linkSize : Option Nat
  optSaveTree : Bool
  timeStamp : Nat
  stream : Option (TTHStream V)
  fastOpened : Bool
  fastTurns : List Turn
  slowOpened : Bool
  slowTurns : List Turn

/-- What comes out for an item: a report, or that it was skipped or that the thread stops. A tree is
reported with the number of bytes that have not been read. -/
inductive Report (V : Type) where
  | fileHashed (tree : MerkleTree V) (left : Nat)
  | hashingError
  | fileSkipped
  | stopped

/-- What comes out when `fastHash` or `slowHash` returns. -/
def Hashing.report {V : Type} (h : Hashing V) : Report V :=
  match h.result with
  | .ok => .fileHashed h.tree h.fileSize
  | .error => .hashingError
  | .fileSkipped => .fileSkipped
  | .stopped => .stopped

/-- `clear` and `setBlockSize`. -/
def clearTree {V : Type} (tree : MerkleTree V) (fileSize : Nat) : MerkleTree V :=
  { blocks := []
    leaves := []
    fileSize := 0
    blockSize := getMaxBlockSize fileSize
    root := tree.root
    blockSize_pos := getMaxBlockSize_pos fileSize }

namespace HashInput

variable {V : Type} (input : HashInput V)

/-- `size`: that of the opened file for a link that has none. -/
def size : Option Nat :=
  input.attributes.map fun attr =>
    if attr.isLink ∧ attr.size = 0 then input.linkSize.getD attr.size else attr.size

/-- The leaves that `doLoadTree` loads, unless it fails before. -/
def loadableLeaves : Option (TTHStream V × List V) :=
  input.stream.bind fun st =>
    let n := calcBlocks input.fileSize st.blockSize
    if 0 < input.fileSize ∧ input.optSaveTree ∧ input.timeStamp ≠ 0 ∧
        st.fileSize = input.fileSize ∧ st.valid ∧ st.timeStamp = input.timeStamp ∧
        n ≤ st.leaves.length then some (st, st.leaves.take n)
    else none

variable [DecidableEq V] (H : Hasher V)

/-- `doLoadTree`, with the tree it leaves. -/
def doLoadTree (tree : MerkleTree V) : Bool × MerkleTree V :=
  match input.loadableLeaves with
  | none => (false, tree)
  | some (st, leaves) =>
    let tree := MerkleTree.load H input.fileSize leaves
    (decide (st.blockSize = tree.blockSize ∧ tree.root = st.root), tree)

/-- What `run` does with the item; `tree` is the one of the item before. -/
def hash (tree : MerkleTree V) : Report V :=
  match input.size with
  | none => .hashingError
  | some size =>
    if size ≠ input.fileSize then .hashingError
    else
      let (loaded, tree) := input.doLoadTree H (clearTree tree size)
      if loaded then .fileHashed tree size
      else
        let fast : Hashing V :=
          if input.optSaveTree then
            fastHash H input.fastOpened input.content size tree input.fastTurns
          else ⟨.error, tree, size⟩
        if fast.result = .error then
          (slowHash H input.slowOpened input.content size fast.tree input.slowTurns).report
        else fast.report

end HashInput

end Blacklink.HashManager
