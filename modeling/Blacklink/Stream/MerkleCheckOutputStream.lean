import Blacklink.Hash.MerkleTree

/-!
# The verifying output stream

Model of `client/MerkleCheckOutputStream.h`. Bytes are staged into base blocks and hashed into
a second tree `cur`, which starts with the leaves before the start offset; after every write
its new leaves are compared with those of the expected tree `real`. An operation returns the
state it leaves behind and whether it returned (`true`) or threw the inconsistency exception
(`false`); what a throwing operation has done before the throw stays done.
-/

namespace Blacklink.Stream

open Blacklink.Hash

/-- `MerkleCheckOutputStream` without the stream below it. `buf` are the first `bufPos` bytes
of the staging buffer. -/
structure MerkleCheckOutputStream (V : Type) where
  real : MerkleTree V
  cur : MerkleTree V
  verified : Nat
  buf : List UInt8

namespace MerkleCheckOutputStream

variable {V : Type} (H : Hasher V)

/-- The constructor. A start behind the tree's leaves leaves `cur` without leaves. -/
def new (tree : MerkleTree V) (start : Nat) : MerkleCheckOutputStream V :=
  let nBlocks := start / tree.blockSize
  let cur : MerkleTree V :=
    { MerkleTree.new H tree.blockSize tree.blockSize_pos with fileSize := start }
  { real := tree
    cur := if nBlocks > tree.leaves.length then cur
      else { cur with leaves := tree.leaves.take nBlocks }
    verified := 0
    buf := [] }

/-- The first half of `commitBytes`: a started base block is filled up. The second component
is `pos`. -/
def fillBuffer (s : MerkleCheckOutputStream V) (b : List UInt8) :
    MerkleCheckOutputStream V × Nat :=
  if s.buf ≠ [] then
    let bytes := min (baseBlockSize - s.buf.length) b.length
    let buf := s.buf ++ b.take bytes
    if buf.length = baseBlockSize then
      ({ s with cur := s.cur.update H buf, buf := [] }, bytes)
    else ({ s with buf := buf }, bytes)
  else (s, 0)

/-- The second half of `commitBytes`: the whole base blocks of what is left are hashed, the
rest is staged. -/
def commitRest (s : MerkleCheckOutputStream V) (b : List UInt8) : MerkleCheckOutputStream V :=
  let part := b.length - b.length % baseBlockSize
  if part ≠ 0 then { s with cur := s.cur.update H (b.take part), buf := b.drop part }
  else { s with buf := b }

/-- `commitBytes`. -/
def commitBytes (s : MerkleCheckOutputStream V) (b : List UInt8) : MerkleCheckOutputStream V :=
  let (s', pos) := s.fillBuffer H b
  if pos < b.length then s'.commitRest H (b.drop pos) else s'

variable [DecidableEq V]

/-- The loop of `checkTrees`: the leaves from `verified` on are compared in order, and none is
when there are too many of them. -/
def checkLeaves (cur real : List V) (verified : Nat) : Nat × Bool :=
  if verified < cur.length then
    if cur.length > real.length ∨ cur[verified]? ≠ real[verified]? then (verified, false)
    else checkLeaves cur real (verified + 1)
  else (verified, true)
termination_by cur.length - verified

/-- `checkTrees`. -/
def checkTrees (s : MerkleCheckOutputStream V) : MerkleCheckOutputStream V × Bool :=
  let r := checkLeaves s.cur.leaves s.real.leaves s.verified
  ({ s with verified := r.1 }, r.2)

/-- `write`, up to the call of the stream below. -/
def write (s : MerkleCheckOutputStream V) (b : List UInt8) : MerkleCheckOutputStream V × Bool :=
  (s.commitBytes H b).checkTrees

/-- `flushBuffers`, up to the call of the stream below. -/
def flushBuffers (s : MerkleCheckOutputStream V) : MerkleCheckOutputStream V × Bool :=
  let cur := if s.buf ≠ [] then s.cur.update H s.buf else s.cur
  let s := { s with cur := cur.finalize H, buf := [] }
  if s.cur.leaves.length = s.real.leaves.length then (s, s.cur.root = s.real.root)
  else s.checkTrees

omit [DecidableEq V] in
/-- `verifiedBytes`. -/
def verifiedBytes (s : MerkleCheckOutputStream V) : Nat :=
  min s.real.fileSize (s.cur.blockSize * s.cur.leaves.length)

/-- A sequence of `write` calls, given up at the first that throws. -/
def writeAll (s : MerkleCheckOutputStream V) :
    List (List UInt8) → MerkleCheckOutputStream V × Bool
  | [] => (s, true)
  | b :: bs =>
    let r := s.write H b
    if r.2 then r.1.writeAll bs else r

/-- The whole life of a stream: the writes and the final flush. -/
def session (tree : MerkleTree V) (start : Nat) (bs : List (List UInt8)) :
    MerkleCheckOutputStream V × Bool :=
  let r := (new H tree start).writeAll H bs
  if r.2 then r.1.flushBuffers H else r

omit [DecidableEq V] in
/-- How many leading leaves the comparisons up to here stand for: those compared one by one,
or all when the leaves are as many as the tree's and the roots were compared. -/
def comparedLeaves (s : MerkleCheckOutputStream V) (flushed : Bool) : Nat :=
  if flushed ∧ s.cur.leaves.length = s.real.leaves.length then s.real.leaves.length
  else s.verified

end MerkleCheckOutputStream
end Blacklink.Stream
