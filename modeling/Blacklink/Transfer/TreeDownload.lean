import Mathlib.Order.Bounds.Basic
import Blacklink.Hash.Fed
import Blacklink.HashManager.Hashing

/-!
# Downloading a hash tree

Model of `TreeOutputStream` and of the tree branch of `DownloadManager::endData`
(`client/QueueManager.cpp:1756-1801`, `client/DownloadManager.cpp:395-421`). A peer sends the leaves
of a file's tree; the block size is guessed from how many came. The queue takes files up to 500 TiB,
so the 64-bit products of the loop do not overflow.
-/

namespace Blacklink.Transfer

open Blacklink.Base Blacklink.Hash Blacklink.HashManager

variable {V : Type}

/-! ### Reading the leaves -/

/-- `TigerTree::BYTES`. -/
def hashBytes : Nat := 24

/-- `TreeOutputStream`: the leaves of its tree and the start of the next one. -/
structure TreeOutputStream (V : Type) where
  leaves : List V
  buf : List UInt8
  buf_lt : buf.length < hashBytes

namespace TreeOutputStream

/-- The stream over a tree without leaves. -/
def new : TreeOutputStream V := ⟨[], [], by decide⟩

/-- The loop of `write`; `value` is `TTHValue(const uint8_t*)`. -/
def write (value : List UInt8 → V) (s : TreeOutputStream V) (b : List UInt8) :
    TreeOutputStream V :=
  if hb : b = [] then s
  else if hbuf : s.buf = [] ∧ hashBytes ≤ b.length then
    write value { s with leaves := s.leaves ++ [value (b.take hashBytes)] } (b.drop hashBytes)
  else
    let bytes := min (hashBytes - s.buf.length) b.length
    let buf := s.buf ++ b.take bytes
    if hfull : buf.length = hashBytes then
      write value ⟨s.leaves ++ [value buf], [], by decide⟩ (b.drop bytes)
    else
      have hlt : buf.length < hashBytes := by
        have := s.buf_lt
        simp only [buf, bytes, List.length_append, List.length_take] at hfull ⊢
        omega
      write value ⟨s.leaves, buf, hlt⟩ (b.drop bytes)
termination_by b.length
decreasing_by
  all_goals
    have hpos := List.length_pos_iff.mpr hb
    have := s.buf_lt
    simp only [List.length_drop, hashBytes] at *
    omega

variable (value : List UInt8 → V)

/-- The leaves of what was written, and the bytes that are left over. -/
structure Read (s : TreeOutputStream V) (all : List UInt8) : Prop where
  leaves : s.leaves = (fullPieces hashBytes all).map value
  buf : s.buf = remainder hashBytes all

variable {value}

/-- What one pass of the loop consumes makes up at most one leaf. -/
private theorem Read.step {s s' : TreeOutputStream V} {all b : List UInt8}
    (h : Read value s all) (leaf : List UInt8) (hb : s.buf ++ b = leaf ++ s'.buf)
    (hleaves : s'.leaves = s.leaves ++ (fullPieces hashBytes leaf).map value)
    (hlen : hashBytes ∣ leaf.length) : Read value s' (all ++ b) := by
  have hpos : 0 < hashBytes := by decide
  have hlt := s'.buf_lt
  constructor
  · rw [fullPieces_append hpos, List.map_append, ← h.leaves, ← h.buf, hb, hleaves,
      fullPieces_append_of_dvd hpos hlen, fullPieces_of_length_lt hlt, List.append_nil]
  · rw [remainder_append hpos, ← h.buf, hb, remainder_append_of_dvd hpos hlen,
      remainder_of_length_lt hlt]

private theorem fullPieces_leaf {leaf : List UInt8} (h : leaf.length = hashBytes) :
    fullPieces hashBytes leaf = [leaf] := by
  have hcons := fullPieces_cons (m := []) (by decide : 0 < hashBytes) h
  rwa [List.append_nil, fullPieces_of_length_lt (l := []) (by decide)] at hcons

private theorem new_read : Read value new [] := by
  have hlt : ([] : List UInt8).length < hashBytes := by decide
  constructor
  · rw [fullPieces_of_length_lt hlt]
    rfl
  · rw [remainder_of_length_lt hlt]
    rfl

/-- `write` reads on, however the leaves are cut into chunks. -/
theorem Read.write {s : TreeOutputStream V} {all : List UInt8} (h : Read value s all)
    (b : List UInt8) : Read value (s.write value b) (all ++ b) := by
  induction s, b using TreeOutputStream.write.induct value generalizing all with
  | case1 s => rwa [TreeOutputStream.write, dif_pos rfl, List.append_nil]
  | case2 s b hb hbuf ih =>
    have hlen : (b.take hashBytes).length = hashBytes := by
      rw [List.length_take]
      omega
    have hleaf : Read value
        { s with leaves := s.leaves ++ [value (b.take hashBytes)] } (all ++ b.take hashBytes) := by
      apply h.step (b.take hashBytes)
      · rw [hbuf.1, List.nil_append, List.append_nil]
      · rw [fullPieces_leaf hlen]
        rfl
      · rw [hlen]
    rw [TreeOutputStream.write, dif_neg hb, dif_pos hbuf]
    have hrest := ih hleaf
    rwa [List.append_assoc, List.take_append_drop] at hrest
  | case3 s b hb hbuf bytes buf hfull =>
    rename_i ih
    have hleaf : Read value
        ⟨s.leaves ++ [value buf], [], by decide⟩ (all ++ b.take bytes) := by
      apply h.step buf
      · rw [List.append_nil]
      · rw [fullPieces_leaf hfull]
        rfl
      · rw [hfull]
    rw [TreeOutputStream.write, dif_neg hb, dif_neg hbuf]
    have hrest := ih hleaf
    rw [List.append_assoc, List.take_append_drop] at hrest
    exact (dif_pos hfull).symm ▸ hrest
  | case4 s b hb hbuf bytes buf hfull hlt =>
    rename_i ih
    have hleaf : Read value ⟨s.leaves, buf, hlt⟩ (all ++ b.take bytes) := by
      apply h.step []
      · rfl
      · rw [fullPieces_of_length_lt (by decide), List.map_nil, List.append_nil]
      · exact Nat.dvd_zero _
    rw [TreeOutputStream.write, dif_neg hb, dif_neg hbuf]
    have hrest := ih hleaf
    rw [List.append_assoc, List.take_append_drop] at hrest
    exact (dif_neg hfull).symm ▸ hrest

/-- The leaves depend on the bytes only; what does not make up a leaf is dropped. -/
theorem leaves_foldl_write (chunks : List (List UInt8)) :
    (chunks.foldl (TreeOutputStream.write value) new).leaves =
      (fullPieces hashBytes chunks.flatten).map value := by
  suffices ∀ (s : TreeOutputStream V) (all : List UInt8), Read value s all →
      Read value (chunks.foldl (TreeOutputStream.write value) s) (all ++ chunks.flatten) from
    (this new [] new_read).leaves
  induction chunks with
  | nil =>
    intro s all h
    rwa [List.flatten_nil, List.append_nil]
  | cons b chunks ih =>
    intro s all h
    rw [List.flatten_cons, ← List.append_assoc]
    exact ih _ _ (h.write b)

end TreeOutputStream

/-! ### The block size -/

/-- The loop of `endData`; `none` is a loop that takes more than `fuel` rounds. Without leaves the
product stays 0, whatever the block size is shifted to. -/
def blockSizeLoop (fileSize count : Nat) : Nat → Nat → Option Nat
  | 0, _ => none
  | fuel + 1, bl =>
    if bl * count < fileSize then blockSizeLoop fileSize count fuel (bl <<< 1) else some bl

/-- The doublings of the base block after which `count` leaves are enough for the file. -/
def enough (fileSize count : Nat) : Set Nat :=
  {k | fileSize ≤ baseBlockSize * 2 ^ k * count}

variable {fileSize count : Nat}

private theorem shift_pow (k : Nat) :
    (baseBlockSize * 2 ^ k) <<< 1 = baseBlockSize * 2 ^ (k + 1) := by
  rw [Nat.shiftLeft_eq, Nat.pow_one, Nat.pow_succ, Nat.mul_assoc]

/-- If the loop ends, it ends at the first size that is enough. -/
theorem blockSizeLoop_isLeast {fuel bl : Nat}
    (h : blockSizeLoop fileSize count fuel baseBlockSize = some bl) :
    ∃ k, IsLeast (enough fileSize count) k ∧ bl = baseBlockSize * 2 ^ k := by
  suffices ∀ k, (∀ i ∈ enough fileSize count, k ≤ i) →
      blockSizeLoop fileSize count fuel (baseBlockSize * 2 ^ k) = some bl →
      ∃ k, IsLeast (enough fileSize count) k ∧ bl = baseBlockSize * 2 ^ k by
    exact this 0 (fun i _ => Nat.zero_le i) (by rwa [Nat.pow_zero, Nat.mul_one])
  clear h
  induction fuel with
  | zero =>
    intro k _ h
    cases h
  | succ fuel ih =>
    intro k hk h
    rw [blockSizeLoop] at h
    split at h
    · next hlt =>
      rw [shift_pow] at h
      apply ih (k + 1) _ h
      intro i hi
      apply Nat.lt_of_le_of_ne (hk i hi)
      rintro rfl
      exact absurd hi (Nat.not_le.mpr hlt)
    · next hge => exact ⟨k, ⟨Nat.not_lt.mp hge, hk⟩, (Option.some.inj h).symm⟩

/-- If some size is enough, the loop ends. -/
theorem blockSizeLoop_eq {k : Nat} (h : IsLeast (enough fileSize count) k) :
    blockSizeLoop fileSize count (k + 1) baseBlockSize = some (baseBlockSize * 2 ^ k) := by
  suffices ∀ j i, i + j = k →
      blockSizeLoop fileSize count (j + 1) (baseBlockSize * 2 ^ i) =
        some (baseBlockSize * 2 ^ k) by
    simpa using this k 0 (Nat.zero_add k)
  intro j
  induction j with
  | zero =>
    rintro i rfl
    have hge : ¬baseBlockSize * 2 ^ i * count < fileSize := Nat.not_lt.mpr h.1
    rw [blockSizeLoop, if_neg hge]
    rfl
  | succ j ih =>
    intro i hi
    have hlt : baseBlockSize * 2 ^ i * count < fileSize := by
      apply Nat.lt_of_not_le
      intro hle
      have := h.2 hle
      omega
    rw [blockSizeLoop, if_pos hlt, shift_pow]
    exact ih (i + 1) (by omega)

theorem blockSizeLoop_pos {fuel bl : Nat}
    (h : blockSizeLoop fileSize count fuel baseBlockSize = some bl) : 0 < bl := by
  obtain ⟨k, -, rfl⟩ := blockSizeLoop_isLeast h
  exact Nat.mul_pos baseBlockSize_pos (Nat.two_pow_pos k)

/-- Without leaves the loop ends for the empty file only. -/
theorem enough_zero (h : 0 < fileSize) : enough fileSize 0 = ∅ := by
  apply Set.eq_empty_of_forall_notMem
  intro k hk
  have hle : fileSize ≤ baseBlockSize * 2 ^ k * 0 := hk
  omega

/-! ### The end of the download -/

/-- How `endData` goes on with the tree. -/
inductive TreeEnd (V : Type) where
  /-- `STRING(INVALID_TREE)`. -/
  | failed (tree : MerkleTree V)
  /-- The tree that `putDownload` gets. -/
  | complete (tree : MerkleTree V)

variable (H : Hasher V) (value : List UInt8 → V) (tth : V)

/-- The tree of the download after `setBlockSize` and `calcRoot`. -/
def sizedTree (fileSize : Nat) (leaves : List V) (bl : Nat) (h : 0 < bl) : MerkleTree V :=
  MerkleTree.calcRoot H
    { blocks := []
      leaves := leaves
      fileSize := fileSize
      blockSize := bl
      root := H.zero
      blockSize_pos := h }

/-- The root is the one over the leaves of the file's blocks; leaves behind them are not read. -/
theorem sizedTree_root {leaves : List V} {bl : Nat} (hbl : 0 < bl)
    (h : fileSize ≤ bl * leaves.length) : (sizedTree H fileSize leaves bl hbl).root =
      treeRoot H.combine H.zero (leaves.take (calcBlocks fileSize bl)) := by
  show MerkleTree.getHash H ⟨[], leaves, fileSize, bl, H.zero, hbl⟩ 0 fileSize = _
  by_cases hpos : 0 < fileSize
  · have hone : 1 ≤ (fileSize + bl - 1) / bl := by
      rw [Nat.le_div_iff_mul_le hbl]
      omega
    have hle : (fileSize + bl - 1) / bl ≤ leaves.length := by
      rw [← Nat.lt_succ_iff, Nat.div_lt_iff_lt_mul hbl, Nat.succ_mul, Nat.mul_comm]
      omega
    have hroot := MerkleTree.getHash_eq H
      ⟨[], leaves, fileSize, bl, H.zero, hbl⟩ 0 fileSize hpos (by simpa using hle)
    rw [Nat.zero_mul, List.drop_zero] at hroot
    rw [hroot, calcBlocks, Nat.max_eq_left hone]
  · have hzero : fileSize = 0 := by omega
    have hblocks : calcBlocks 0 bl = 1 := by
      rw [calcBlocks, Nat.div_eq_of_lt (by omega)]
      rfl
    rw [hzero, hblocks, MerkleTree.getHash, if_pos (Nat.zero_le _), Nat.zero_div]
    cases leaves with
    | nil =>
      rw [List.take_nil, treeRoot]
      rfl
    | cons leaf leaves =>
      rw [List.take_succ_cons, List.take_zero, treeRoot_singleton]
      rfl

/-- `sizedTree` after `k` doublings. -/
def doubledTree (fileSize : Nat) (leaves : List V) (k : Nat) : MerkleTree V :=
  sizedTree H fileSize leaves (baseBlockSize * 2 ^ k)
    (Nat.mul_pos baseBlockSize_pos (Nat.two_pow_pos k))

variable [DecidableEq V]

/-- The comparison of the root in `endData`; a tree for another file loses its file size. -/
def checkRoot (tree : MerkleTree V) : TreeEnd V :=
  if tth = tree.root then .complete tree else .failed { tree with fileSize := 0 }

/-- The tree branch of `endData`, if the loop ends within `fuel` rounds. -/
def endData (fileSize : Nat) (leaves : List V) (fuel : Nat) : Option (TreeEnd V) :=
  match h : blockSizeLoop fileSize leaves.length fuel baseBlockSize with
  | none => none
  | some bl => some (checkRoot tth (sizedTree H fileSize leaves bl (blockSizeLoop_pos h)))

/-- A tree download whose data comes in `chunks`. -/
def downloadTree (fileSize : Nat) (chunks : List (List UInt8)) (fuel : Nat) :
    Option (TreeEnd V) :=
  endData H tth fileSize (chunks.foldl (TreeOutputStream.write value) .new).leaves fuel

variable {tth} in
theorem checkRoot_eq_complete {tree t : MerkleTree V} :
    checkRoot tth tree = .complete t ↔ tree = t ∧ tth = tree.root := by
  unfold checkRoot
  split
  · next h => simp [h]
  · next h => simp [h]

variable {H tth}

theorem endData_eq_some {leaves : List V} {fuel : Nat} {r : TreeEnd V}
    (h : endData H tth fileSize leaves fuel = some r) :
    ∃ k, IsLeast (enough fileSize leaves.length) k ∧
      r = checkRoot tth (doubledTree H fileSize leaves k) := by
  unfold endData at h
  split at h
  · cases h
  · next bl hbl =>
    obtain ⟨k, hk, rfl⟩ := blockSizeLoop_isLeast hbl
    exact ⟨k, hk, (Option.some.inj h).symm⟩

/-- Once some block size is enough, the download ends. -/
theorem endData_ends {leaves : List V} {k : Nat}
    (h : IsLeast (enough fileSize leaves.length) k) :
    endData H tth fileSize leaves (k + 1) =
      some (checkRoot tth (doubledTree H fileSize leaves k)) := by
  have heq := blockSizeLoop_eq h
  unfold endData
  split
  · next hnone =>
    rw [heq] at hnone
    cases hnone
  · next bl hbl =>
    rw [heq] at hbl
    cases hbl
    rfl

variable (H tth)

/-- The download ends, and a tree that is accepted has the root of the file and a leaf for each of
its blocks, and no other. -/
def SoundDownload (fileSize : Nat) (chunks : List (List UInt8)) : Prop :=
  ∃ fuel r, downloadTree H value tth fileSize chunks fuel = some r ∧
    ∀ t, r = .complete t → t.root = tth ∧ t.leaves.length = calcBlocks fileSize t.blockSize

/-- What is needed: some block size is enough for the leaves that came (there is a leaf, or the file
is empty), and at the first such size there are as many leaves as blocks, or the leaves of the
blocks have another root. -/
theorem soundDownload_iff (fileSize : Nat) (chunks : List (List UInt8)) :
    SoundDownload H value tth fileSize chunks ↔
      ∃ k, IsLeast (enough fileSize (chunks.flatten.length / hashBytes)) k ∧
        (chunks.flatten.length / hashBytes = calcBlocks fileSize (baseBlockSize * 2 ^ k) ∨
          treeRoot H.combine H.zero (((fullPieces hashBytes chunks.flatten).map value).take
            (calcBlocks fileSize (baseBlockSize * 2 ^ k))) ≠ tth) := by
  have hleaves : _ = (fullPieces hashBytes chunks.flatten).map value :=
    TreeOutputStream.leaves_foldl_write chunks
  have hcount : ((fullPieces hashBytes chunks.flatten).map value).length =
      chunks.flatten.length / hashBytes := by
    rw [List.length_map, length_fullPieces (by decide)]
  generalize (fullPieces hashBytes chunks.flatten).map value = leaves at hleaves hcount ⊢
  rw [← hcount]
  simp only [SoundDownload, downloadTree, hleaves]
  constructor
  · rintro ⟨fuel, r, hr, hsound⟩
    obtain ⟨k, hk, rfl⟩ := endData_eq_some hr
    refine ⟨k, hk, ?_⟩
    have hroot : (doubledTree H fileSize leaves k).root = _ := sizedTree_root H _ hk.1
    rw [← hroot]
    by_cases htth : tth = (doubledTree H fileSize leaves k).root
    · exact .inl (hsound _ (checkRoot_eq_complete.mpr ⟨rfl, htth⟩)).2
    · exact .inr (Ne.symm htth)
  · rintro ⟨k, hk, hfit⟩
    refine ⟨k + 1, _, endData_ends hk, ?_⟩
    intro t ht
    obtain ⟨rfl, htth⟩ := checkRoot_eq_complete.mp ht
    have hroot : (doubledTree H fileSize leaves k).root = _ := sizedTree_root H _ hk.1
    refine ⟨htth.symm, hfit.resolve_right ?_⟩
    rw [← hroot, not_not]
    exact htth.symm

/-- The loop does not end when a peer sends nothing for a file of 65537 bytes, and a fourth leaf is
accepted behind the three of a file of 196608 bytes. -/
theorem not_soundDownload :
    ¬SoundDownload Hasher.plain id [] 65537 [] ∧
      ¬SoundDownload Hasher.plain id
        (treeRoot Hasher.plain.combine [] (List.replicate 3 (List.replicate 24 0))) 196608
        [List.replicate 96 0] := by
  constructor
  · rintro ⟨fuel, r, hr, -⟩
    obtain ⟨k, hk, -⟩ := endData_eq_some hr
    exact absurd hk.1 (enough_zero (show 0 < 65537 by decide) ▸ Set.notMem_empty k)
  · rintro ⟨fuel, r, hr, hsound⟩
    rw [downloadTree, TreeOutputStream.leaves_foldl_write] at hr
    have hleaves : (fullPieces hashBytes [List.replicate 96 (0 : UInt8)].flatten).map id =
        List.replicate 4 (List.replicate 24 0) := by
      simp [fullPieces, hashBytes]
    rw [hleaves] at hr
    obtain ⟨k, hk, rfl⟩ := endData_eq_some hr
    have hk6 : k = 6 := by
      apply hk.unique
      constructor
      · show 196608 ≤ 1024 * 2 ^ 6 * 4
        decide
      · intro i hi
        by_contra hlt
        have hle : 2 ^ i ≤ 2 ^ 5 := Nat.pow_le_pow_right (by decide) (by omega)
        have : 196608 ≤ 1024 * 2 ^ i * 4 := hi
        omega
    subst hk6
    have hroot := sizedTree_root Hasher.plain (by decide) hk.1
    have h3 : calcBlocks 196608 (baseBlockSize * 2 ^ 6) = 3 := by decide
    rw [h3] at hroot
    have := (hsound _ (checkRoot_eq_complete.mpr ⟨rfl, hroot.symm⟩)).2
    exact absurd this (by decide)

end Blacklink.Transfer
