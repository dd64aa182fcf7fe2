import Mathlib.Algebra.Group.Nat.Defs
import Mathlib.Data.List.Basic
import Mathlib.Data.Nat.Basic

/-!
# The Merkle tree of a file

Model of `client/MerkleTree.h`. The stack `blocks` is kept with its top (the vector's back)
first; `leaves` are in the vector's order. The hash function is a parameter: a digest of a byte
string, the bytes of a hash value and the value `MerkleValue()`. File and block sizes are
non-negative 64-bit numbers and are modelled as naturals.
-/

namespace Blacklink.Hash

/-- `Hasher` and `HashValue<Hasher>`. -/
structure Hasher (V : Type) where
  /-- `h.update(..)` over the bytes, then `h.finalize()`. -/
  digest : List UInt8 → V
  /-- `HashValue::data`. -/
  data : V → List UInt8
  /-- `MerkleValue()`. -/
  zero : V

/-- `BASE_BLOCK_SIZE`. -/
def baseBlockSize : Nat := 1024

/-- `MerkleTree`. Every constructor and `load` set a positive block size. -/
structure MerkleTree (V : Type) where
  blocks : List (V × Nat)
  leaves : List V
  fileSize : Nat
  blockSize : Nat
  root : V
  blockSize_pos : 0 < blockSize

namespace Hasher

variable {V : Type} (H : Hasher V)

/-- The hash of one base block, `update`'s `h`. -/
def hashBlock (data : List UInt8) : V := H.digest (0 :: data)

/-- `combine`. -/
def combine (a b : V) : V := H.digest (1 :: (H.data a ++ H.data b))

end Hasher

namespace MerkleTree

variable {V : Type} (H : Hasher V)

/-- `MerkleTree(int64_t blockSize)`. -/
def new (blockSize : Nat) (h : 0 < blockSize) : MerkleTree V :=
  ⟨[], [], 0, blockSize, H.zero, h⟩

/-- `reduceBlocks`: merge the two top entries while they have equal sizes; a merged entry of
`blockSize` bytes becomes a leaf. -/
def reduceBlocks (blockSize : Nat) (blocks : List (V × Nat)) (leaves : List V) :
    List (V × Nat) × List V :=
  match blocks with
  | b :: a :: rest =>
    if a.2 = b.2 then
      if a.2 * 2 = blockSize then
        reduceBlocks blockSize rest (leaves ++ [H.combine a.1 b.1])
      else reduceBlocks blockSize ((H.combine a.1 b.1, a.2 * 2) :: rest) leaves
    else (b :: a :: rest, leaves)
  | blocks => (blocks, leaves)
termination_by blocks.length
decreasing_by
  · exact Nat.lt_add_of_pos_right Nat.two_pos
  · exact Nat.lt_succ_self _

/-- The body of `update`'s loop for one base block. -/
def updateBlock (t : MerkleTree V) (data : List UInt8) : MerkleTree V :=
  if baseBlockSize < t.blockSize then
    let r := reduceBlocks H t.blockSize ((H.hashBlock data, baseBlockSize) :: t.blocks) t.leaves
    { t with blocks := r.1, leaves := r.2 }
  else { t with leaves := t.leaves ++ [H.hashBlock data] }

/-- The `do`-`while` loop of `update`; `data` is what lies from `i` on. -/
def updateLoop (t : MerkleTree V) (data : List UInt8) : MerkleTree V :=
  let n := min baseBlockSize data.length
  let t' := t.updateBlock H (data.take n)
  if n < data.length then updateLoop t' (data.drop n) else t'
termination_by data.length
decreasing_by
  simp only [baseBlockSize, List.length_drop] at *
  omega

/-- `update`, `client/MerkleTree.h:114-143`. -/
def update (t : MerkleTree V) (data : List UInt8) : MerkleTree V :=
  if data.length = 0 ∧ ¬(t.leaves = [] ∧ t.blocks = []) then t
  else { t.updateLoop H data with fileSize := t.fileSize + data.length }

/-- The inner loop of `getHash`: double `l` while `2 * l < length`. The block size, from which
it starts, is positive. -/
def splitPoint (l length : Nat) : Nat :=
  if 0 < l ∧ l * 2 < length then splitPoint (l * 2) length else l
termination_by length - l

/-- The split lies inside the range. -/
theorem splitPoint_lt {l length : Nat} (h : l < length) : splitPoint l length < length := by
  induction l using splitPoint.induct length with
  | case1 l hl ih =>
    rw [splitPoint, if_pos hl]
    exact ih hl.2
  | case2 l hl => rwa [splitPoint, if_neg hl]

theorem le_splitPoint (l length : Nat) : l ≤ splitPoint l length := by
  induction l using splitPoint.induct length with
  | case1 l hl ih =>
    rw [splitPoint, if_pos hl]
    omega
  | case2 l hl => rw [splitPoint, if_neg hl]

/-- `getHash`, `client/MerkleTree.h:266-295`. -/
def getHash (t : MerkleTree V) (start length : Nat) : V :=
  if length ≤ t.blockSize then t.leaves.getD (start / t.blockSize) H.zero
  else
    let l := splitPoint t.blockSize length
    H.combine (t.getHash start l) (t.getHash (start + l) (length - l))
termination_by length
decreasing_by
  · exact splitPoint_lt (by omega)
  · have := le_splitPoint t.blockSize length
    have := t.blockSize_pos
    omega

/-- `calcRoot`. -/
def calcRoot (t : MerkleTree V) : MerkleTree V := { t with root := t.getHash H 0 t.fileSize }

/-- The loop of `finalize`: fold the stack into its bottom entry. -/
def collapse : List (V × Nat) → List V
  | [] => []
  | [b] => [b.1]
  | b :: a :: rest => collapse ((H.combine a.1 b.1, a.2) :: rest)
termination_by blocks => blocks.length

/-- `finalize`, `client/MerkleTree.h:145-176`. -/
def finalize (t : MerkleTree V) : MerkleTree V :=
  let t := if t.leaves = [] ∧ t.blocks = [] then t.update H [] else t
  calcRoot H { t with leaves := t.leaves ++ collapse H t.blocks, blocks := [] }

end MerkleTree
end Blacklink.Hash
