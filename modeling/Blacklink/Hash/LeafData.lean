import Blacklink.Hash.Load

/-!
# A tree is restored from its leaves

Model of `getLeafData` and of `load` on the bytes it gives (`client/MerkleTree.h:60-76, 224-236`).
The block size is not among the bytes. `load` doubles it until the leaves are enough for the file,
and comes to the block size of the tree unless there is only one leaf.
-/

namespace Blacklink.Hash

open Blacklink.Base

namespace MerkleTree

variable {bytes : Nat}

/-- `getLeafData`. A hash value is the vector of its bytes. -/
def getLeafData (t : MerkleTree (Vector UInt8 bytes)) : List UInt8 := t.leaves.flatMap Vector.toList

/-- The loop of `load` that copies the leaves. -/
def readLeaves : Nat → List UInt8 → List (Vector UInt8 bytes)
  | 0, _ => []
  | hashCount + 1, data =>
    (Vector.ofFn fun i => data.getD i 0) :: readLeaves hashCount (data.drop bytes)

/-- `load`, from the bytes on. -/
def loadData (H : Hasher (Vector UInt8 bytes)) (fileSize : Nat) (data : List UInt8) :
    Option (MerkleTree (Vector UInt8 bytes)) :=
  if data.length % bytes ≠ 0 then none
  else some (load H fileSize (readLeaves (data.length / bytes) data))

/-! ### The leaves -/

theorem length_getLeafData (t : MerkleTree (Vector UInt8 bytes)) :
    t.getLeafData.length = bytes * t.leaves.length := by
  rw [getLeafData]
  induction t.leaves with
  | nil => rfl
  | cons leaf leaves ih =>
    rw [List.flatMap_cons, List.length_append, ih, Vector.length_toList, List.length_cons]
    ring

theorem readLeaves_flatMap (leaves : List (Vector UInt8 bytes)) :
    readLeaves leaves.length (leaves.flatMap Vector.toList) = leaves := by
  induction leaves with
  | nil => rfl
  | cons leaf leaves ih =>
    have hfirst : (Vector.ofFn fun i : Fin bytes =>
        (leaf.toList ++ leaves.flatMap Vector.toList).getD i 0) = leaf := by
      ext i hi
      rw [Vector.getElem_ofFn, List.getD_append _ _ _ _ (by rwa [Vector.length_toList]),
        List.getD_eq_getElem _ _ (by rwa [Vector.length_toList]), Vector.getElem_toList]
    rw [List.length_cons, List.flatMap_cons, readLeaves, hfirst,
      List.drop_left' Vector.length_toList, ih]

/-! ### The block size -/

/-- The loop ends at the first block size that is enough. -/
theorem doubleBlockSize_eq {fileSize count m : Nat} (hcount : 0 < count)
    (henough : fileSize ≤ baseBlockSize * 2 ^ m * count)
    (hless : ∀ k < m, baseBlockSize * 2 ^ k * count < fileSize) :
    doubleBlockSize fileSize count baseBlockSize = baseBlockSize * 2 ^ m := by
  have hfrom : ∀ d ≤ m, doubleBlockSize fileSize count (baseBlockSize * 2 ^ (m - d)) =
      baseBlockSize * 2 ^ m := by
    intro d hd
    induction d with
    | zero => rw [doubleBlockSize, if_neg (fun h => absurd h.2 (not_lt.mpr henough)), Nat.sub_zero]
    | succ d ih =>
      have hpos : 0 < baseBlockSize * 2 ^ (m - (d + 1)) * count :=
        Nat.mul_pos (Nat.mul_pos baseBlockSize_pos (Nat.two_pow_pos _)) hcount
      have hnext : baseBlockSize * 2 ^ (m - (d + 1)) * 2 = baseBlockSize * 2 ^ (m - d) := by
        rw [Nat.mul_assoc, ← Nat.pow_succ]
        congr 2
        omega
      rw [doubleBlockSize, if_pos ⟨hpos, hless _ (by omega)⟩, hnext]
      exact ih (by omega)
  have hall := hfrom m le_rfl
  rwa [Nat.sub_self, Nat.pow_zero, Nat.mul_one] at hall

/-- So many blocks are enough for the file, and one less is not. -/
private theorem blocks_spec (fileSize : Nat) {b : Nat} (hb : 0 < b) :
    fileSize ≤ b * ((fileSize + b - 1) / b) ∧
      (0 < (fileSize + b - 1) / b → b * ((fileSize + b - 1) / b - 1) < fileSize) := by
  have hupper := Nat.lt_mul_div_succ (fileSize + b - 1) hb
  have hlower := Nat.mul_div_le (fileSize + b - 1) b
  generalize (fileSize + b - 1) / b = count at hupper hlower
  rw [Nat.mul_succ] at hupper
  constructor
  · omega
  · intro hcount
    obtain ⟨n, rfl⟩ := Nat.exists_eq_succ_of_ne_zero hcount.ne'
    rw [Nat.mul_succ] at hlower
    rw [Nat.succ_sub_one]
    omega

/-- With a smaller block size the blocks of the file would be more than there are. -/
theorem doubleBlockSize_blocks {fileSize m : Nat}
    (htwo : 2 ≤ (fileSize + baseBlockSize * 2 ^ m - 1) / (baseBlockSize * 2 ^ m)) :
    doubleBlockSize fileSize
      ((fileSize + baseBlockSize * 2 ^ m - 1) / (baseBlockSize * 2 ^ m)) baseBlockSize =
        baseBlockSize * 2 ^ m := by
  obtain ⟨henough, hpred⟩ := blocks_spec fileSize
    (Nat.mul_pos baseBlockSize_pos (Nat.two_pow_pos m))
  generalize (fileSize + baseBlockSize * 2 ^ m - 1) / (baseBlockSize * 2 ^ m) = count
    at htwo henough hpred ⊢
  apply doubleBlockSize_eq (by omega) henough
  intro k hk
  have hhalf : baseBlockSize * 2 ^ k * 2 ≤ baseBlockSize * 2 ^ m := by
    rw [Nat.mul_assoc, ← Nat.pow_succ]
    exact Nat.mul_le_mul_left _ (Nat.pow_le_pow_right (by decide) hk)
  calc baseBlockSize * 2 ^ k * count
      ≤ baseBlockSize * 2 ^ k * (2 * (count - 1)) := Nat.mul_le_mul_left _ (by omega)
    _ = baseBlockSize * 2 ^ k * 2 * (count - 1) := (Nat.mul_assoc _ _ _).symm
    _ ≤ baseBlockSize * 2 ^ m * (count - 1) := Nat.mul_le_mul_right _ hhalf
    _ < fileSize := hpred (by omega)

/-! ### The tree -/

/-- A tree loaded from the leaves of a string has the root of the string, whatever its blocks. -/
theorem load_blockHashes {V : Type} (H : Hasher V) (m : Nat) (data : List UInt8) :
    (load H data.length (blockHashes H (baseBlockSize * 2 ^ m) data)).root = treeHash H data ∧
      (2 ≤ (blockHashes H (baseBlockSize * 2 ^ m) data).length →
        (load H data.length (blockHashes H (baseBlockSize * 2 ^ m) data)).blockSize =
          baseBlockSize * 2 ^ m) := by
  have hb : 0 < baseBlockSize * 2 ^ m := Nat.mul_pos baseBlockSize_pos (Nat.two_pow_pos m)
  have hlength : (blockHashes H (baseBlockSize * 2 ^ m) data).length =
      max 1 ((data.length + baseBlockSize * 2 ^ m - 1) / (baseBlockSize * 2 ^ m)) := by
    rw [blockHashes, List.length_map, length_pieces hb]
  generalize hleaves : blockHashes H (baseBlockSize * 2 ^ m) data = leaves at hlength ⊢
  have hroot : (load H data.length leaves).root =
      (load H data.length leaves).getHash H 0 data.length := calcRoot_root_eq H _
  have hsize : 2 ≤ leaves.length →
      (load H data.length leaves).blockSize = baseBlockSize * 2 ^ m := by
    intro htwo
    rw [hlength, le_max_iff, or_iff_right (by decide)] at htwo
    show doubleBlockSize data.length leaves.length baseBlockSize = _
    rw [hlength, Nat.max_eq_right (by omega)]
    exact doubleBlockSize_blocks htwo
  refine ⟨?_, hsize⟩
  rw [hroot, getHash_zero H _ _ ?_]
  · show treeRoot H.combine H.zero leaves = _
    rw [← hleaves, treeRoot_blockHashes]
  · show leaves.length = _
    by_cases htwo : 2 ≤ leaves.length
    · rw [hsize htwo, hlength]
    · -- all of the string is in the one block, also after `load`
      have hone : leaves.length = 1 := by omega
      have hpositive : 0 < leaves.length := by omega
      have henough := (doubleBlockSize_spec data.length (m := 0) hpositive
        (Nat.mul_one baseBlockSize).symm).2
      have hpos := (load H data.length leaves).blockSize_pos
      change _ ≤ (load H data.length leaves).blockSize * leaves.length at henough
      rw [hone, Nat.mul_one] at henough
      rw [hone, eq_comm, max_eq_left_iff, Nat.div_le_iff_le_mul hpos]
      omega

theorem hashPieces_blockSize {V : Type} (H : Hasher V) {blockSize : Nat} (h : 0 < blockSize)
    (ps : List (List UInt8)) : (hashPieces H blockSize h ps).blockSize = blockSize := by
  have hfeed : ∀ t : MerkleTree V,
      (ps.foldl (fun t p => t.update H p) t).blockSize = t.blockSize := by
    induction ps with
    | nil => exact fun _ => rfl
    | cons p ps ih => exact fun t => (ih _).trans (update_blockSize H t p)
  rw [hashPieces, (finalize_blockSize H _).1, hfeed]
  rfl

/-- The finished tree of a string, however it was fed, is restored from its leaf data and the
length of the string: the root, the leaves and, if there are two leaves, the block size. -/
theorem loadData_getLeafData [NeZero bytes] (H : Hasher (Vector UInt8 bytes)) (m : Nat)
    (h : 0 < baseBlockSize * 2 ^ m) (data : List UInt8) (ps : List (List UInt8))
    (hdata : ps.flatten = data) (ha : Aligned ps) (hfirst : StartsProperly ps) :
    ∃ t, loadData H data.length (hashPieces H (baseBlockSize * 2 ^ m) h ps).getLeafData = some t ∧
      t.root = (hashPieces H (baseBlockSize * 2 ^ m) h ps).root ∧
      t.leaves = (hashPieces H (baseBlockSize * 2 ^ m) h ps).leaves ∧
      (2 ≤ (hashPieces H (baseBlockSize * 2 ^ m) h ps).leaves.length →
        t.blockSize = (hashPieces H (baseBlockSize * 2 ^ m) h ps).blockSize) := by
  subst hdata
  obtain ⟨hleaves, hroot, -⟩ := hashPieces_eq H m h ps ha hfirst
  obtain ⟨hloaded, hsize⟩ := load_blockHashes H m ps.flatten
  have hread : readLeaves (blockHashes H (baseBlockSize * 2 ^ m) ps.flatten).length
      (hashPieces H (baseBlockSize * 2 ^ m) h ps).getLeafData =
        blockHashes H (baseBlockSize * 2 ^ m) ps.flatten := by
    rw [getLeafData, hleaves, readLeaves_flatMap]
  have hcount : (hashPieces H (baseBlockSize * 2 ^ m) h ps).getLeafData.length =
      bytes * (blockHashes H (baseBlockSize * 2 ^ m) ps.flatten).length := by
    rw [length_getLeafData, hleaves]
  refine ⟨load H ps.flatten.length (blockHashes H (baseBlockSize * 2 ^ m) ps.flatten),
    ?_, ?_, ?_, ?_⟩
  · rw [loadData, hcount, Nat.mul_mod_right, if_neg (not_not.mpr rfl),
      Nat.mul_div_cancel_left _ (NeZero.pos bytes), hread]
  · rw [hloaded, hroot]
  · exact hleaves.symm
  · intro htwo
    rw [hleaves] at htwo
    rw [hsize htwo, hashPieces_blockSize]

/-- A digest that is the first bytes of the message. -/
def firstBytes : Hasher (Vector UInt8 24) where
  digest msg := Vector.ofFn fun i => msg.getD i 0
  data := Vector.toList
  zero := Vector.replicate 24 0

/-- A base block and a byte more, with blocks of the base size. -/
theorem loadData_getLeafData_twoBlocks :
    ∃ t, loadData firstBytes 1025 (hashPieces firstBytes (baseBlockSize * 2 ^ 0) (by decide)
        [List.replicate baseBlockSize 0, [7]]).getLeafData = some t ∧
      t.root = (hashPieces firstBytes (baseBlockSize * 2 ^ 0) (by decide)
        [List.replicate baseBlockSize 0, [7]]).root := by
  have hdata : [List.replicate baseBlockSize (0 : UInt8), [7]].flatten.length = 1025 := by
    rw [List.flatten_cons, List.length_append, List.length_replicate]
    rfl
  have haligned : Aligned [List.replicate baseBlockSize (0 : UInt8), [7]] := by
    intro p hp
    rw [List.mem_singleton.mp hp, List.length_replicate]
  have hfirst : StartsProperly [List.replicate baseBlockSize (0 : UInt8), [7]] := by
    intro h
    rw [List.head?_cons, Option.some_inj, List.replicate_eq_nil_iff] at h
    exact absurd h (by decide)
  obtain ⟨t, ht, hroot, -⟩ :=
    loadData_getLeafData firstBytes 0 (by decide) _ _ rfl haligned hfirst
  rw [hdata] at ht
  exact ⟨t, ht, hroot⟩

end MerkleTree
end Blacklink.Hash
