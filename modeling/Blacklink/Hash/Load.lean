import Blacklink.Hash.TreeHash

/-!
# Trees of a file that is known by its root

Model of `MerkleTree::load` and of the loop of `DownloadManager::endData` that does the same with
leaves from a peer (`client/MerkleTree.h:60-75`, `client/DownloadManager.cpp:395-406`). A tree whose
root is the expected one determines the hash of every block of the file, and blocks with these
hashes make up a file with the expected root.
-/

namespace Blacklink.Hash

open Blacklink.Base

namespace MerkleTree

/-- The block size is doubled until the leaves are enough for the file. Without leaves the loop of
the source does not end. -/
def doubleBlockSize (fileSize count bl : Nat) : Nat :=
  if 0 < bl * count ∧ bl * count < fileSize then doubleBlockSize fileSize count (bl * 2) else bl
termination_by fileSize - bl * count
decreasing_by
  rw [Nat.mul_right_comm]
  omega

theorem doubleBlockSize_spec (fileSize : Nat) {count bl m : Nat} (hcount : 0 < count)
    (hbl : bl = baseBlockSize * 2 ^ m) :
    (∃ m, doubleBlockSize fileSize count bl = baseBlockSize * 2 ^ m) ∧
      fileSize ≤ doubleBlockSize fileSize count bl * count := by
  induction bl using doubleBlockSize.induct fileSize count generalizing m with
  | case1 bl h ih =>
    rw [doubleBlockSize, if_pos h]
    apply ih (m := m + 1)
    rw [hbl, Nat.pow_succ, Nat.mul_assoc]
  | case2 bl h =>
    rw [doubleBlockSize, if_neg h]
    have hpos : 0 < bl * count := by
      rw [hbl]
      exact Nat.mul_pos (Nat.mul_pos (by decide) (Nat.two_pow_pos m)) hcount
    exact ⟨⟨m, hbl⟩, by omega⟩

theorem doubleBlockSize_pos {fileSize count bl : Nat} (h : 0 < bl) :
    0 < doubleBlockSize fileSize count bl := by
  induction bl using doubleBlockSize.induct fileSize count with
  | case1 bl hc ih =>
    rw [doubleBlockSize, if_pos hc]
    exact ih (by omega)
  | case2 bl hc => rwa [doubleBlockSize, if_neg hc]

variable {V : Type} (H : Hasher V)

/-- `load`, from the leaves on. -/
def load (fileSize : Nat) (leaves : List V) : MerkleTree V :=
  calcRoot H
    { blocks := []
      leaves := leaves
      fileSize := fileSize
      blockSize := doubleBlockSize fileSize leaves.length baseBlockSize
      root := H.zero
      blockSize_pos := doubleBlockSize_pos baseBlockSize_pos }

/-- What `load` and the comparison of the root give: a tree of a file of `size` bytes whose root is
`tth`. There may be more leaves than blocks; the root does not depend on them. -/
structure IsTreeOf (tth : V) (size : Nat) (t : MerkleTree V) : Prop where
  blockSize : ∃ m, t.blockSize = baseBlockSize * 2 ^ m
  fileSize : t.fileSize = size
  enough : size ≤ t.blockSize * t.leaves.length
  root : t.root = t.getHash H 0 t.fileSize
  tth : t.root = tth

variable {H} {tth : V} {size : Nat}

theorem load_isTreeOf {leaves : List V} (hne : leaves ≠ []) (h : (load H size leaves).root = tth) :
    IsTreeOf H tth size (load H size leaves) := by
  obtain ⟨hpow, hle⟩ := doubleBlockSize_spec size (m := 0) (List.length_pos_iff.mpr hne)
    (Nat.mul_one baseBlockSize).symm
  exact ⟨hpow, rfl, hle, calcRoot_root_eq H _, h⟩

namespace IsTreeOf

variable {t t' : MerkleTree V}

/-- There is a leaf for every block. -/
theorem blocks_le (h : IsTreeOf H tth size t) :
    (size + t.blockSize - 1) / t.blockSize ≤ t.leaves.length := by
  have hpos := t.blockSize_pos
  apply Nat.le_of_lt_succ
  rw [Nat.div_lt_iff_lt_mul hpos, Nat.succ_mul, Nat.mul_comm]
  have := h.enough
  omega

/-- The root is the one over the leaves of the file's blocks. -/
theorem tth_eq (h : IsTreeOf H tth size t) (hpos : 0 < size) :
    tth = treeRoot H.combine H.zero
      (t.leaves.take ((size + t.blockSize - 1) / t.blockSize)) := by
  have hle := h.blocks_le
  have hroot := getHash_eq H t 0 size hpos (by omega)
  rw [Nat.zero_mul, List.drop_zero] at hroot
  rw [← h.tth, h.root, h.fileSize, hroot]

/-- Without collisions two trees of the file agree on its blocks. -/
theorem leaves_eq (h : IsTreeOf H tth size t) (h' : IsTreeOf H tth size t')
    (hinj : Function.Injective2 H.combine) (hpos : 0 < size) (hblock : t'.blockSize = t.blockSize) :
    t.leaves.take ((size + t.blockSize - 1) / t.blockSize) =
      t'.leaves.take ((size + t.blockSize - 1) / t.blockSize) := by
  have hle := h.blocks_le
  have hle' := h'.blocks_le
  have heq' := h'.tth_eq hpos
  rw [hblock] at hle' heq'
  apply treeRoot_injective H.zero hinj
  · rw [List.length_take, List.length_take]
    omega
  · rw [← h.tth_eq hpos, ← heq']

end IsTreeOf

/-- Bytes whose blocks all have the hash of their leaf in a tree of the file are the file: without
collisions it does not matter which tree a block was compared with. -/
theorem treeHash_eq_of_blocks {data : List UInt8} {b m : Nat} (hpos : 0 < size)
    (hlen : data.length = size) (hm : b = baseBlockSize * 2 ^ m)
    (hinj : Function.Injective2 H.combine)
    (h : ∀ k, b * k < size → ∃ t, IsTreeOf H tth size t ∧ t.blockSize = b ∧
      t.leaves[k]? = some (treeHash H ((data.drop (b * k)).take b))) : treeHash H data = tth := by
  have hb : 0 < b := by
    rw [hm]
    exact Nat.mul_pos baseBlockSize_pos (Nat.two_pow_pos m)
  obtain ⟨t, ht, hblock, -⟩ := h 0 (by omega)
  have hcount : (blockHashes H b data).length = (size + b - 1) / b := by
    have hge : 1 ≤ (size + b - 1) / b := by
      rw [Nat.le_div_iff_mul_le hb]
      omega
    rw [blockHashes, List.length_map, length_pieces hb, hlen]
    omega
  have hleaves : blockHashes H b data = t.leaves.take ((size + b - 1) / b) := by
    apply List.ext_getElem?
    intro k
    by_cases hk : k < (size + b - 1) / b
    · have hlt : b * k < size := by
        rw [Nat.lt_div_iff_mul_lt hb, Nat.mul_comm] at hk
        omega
      obtain ⟨t', ht', hblock', hleaf⟩ := h k hlt
      have hsame := ht.leaves_eq ht' hinj hpos (hblock'.trans hblock.symm)
      rw [hblock] at hsame
      rw [hsame, List.getElem?_take_of_lt hk, hleaf, blockHashes, List.getElem?_map,
        getElem?_pieces hb data k (hlen ▸ hlt)]
      rfl
    · rw [List.getElem?_eq_none (by omega), List.getElem?_eq_none]
      rw [List.length_take]
      omega
  rw [ht.tth_eq hpos, hblock, ← hleaves, hm, treeRoot_blockHashes]

end MerkleTree
end Blacklink.Hash
