import Mathlib.Data.List.GetD
import Blacklink.Base.HashTree
import Blacklink.Hash.MerkleTree

/-!
# The streaming tree computes the reference tree hash

`treeHash` is the tree hash of a byte string: base blocks are hashed with prefix 0, pairs of
nodes with prefix 1, and an odd node is promoted. `MerkleTree::update` keeps the complete
subtrees of the current leaf on a stack (`Holds`), so that after `finalize` the leaves are the
tree hashes of the consecutive blocks and the root is the tree hash of the whole string.
-/

namespace Blacklink.Hash

open Blacklink.Base

variable {V : Type} (H : Hasher V)

/-- The reference tree hash over base blocks. -/
def treeHash (data : List UInt8) : V :=
  treeRoot H.combine H.zero ((pieces baseBlockSize data).map H.hashBlock)

/-- The tree hashes of the consecutive `blockSize`-byte blocks. -/
def blockHashes (blockSize : Nat) (data : List UInt8) : List V :=
  (pieces blockSize data).map (treeHash H)

theorem baseBlockSize_pos : 0 < baseBlockSize := by decide

/-- The blocks' tree hashes are the roots over groups of base block hashes. -/
theorem blockHashes_eq (m : Nat) (data : List UInt8) :
    blockHashes H (baseBlockSize * 2 ^ m) data =
      (pieces (2 ^ m) ((pieces baseBlockSize data).map H.hashBlock)).map
        (treeRoot H.combine H.zero) := by
  rw [pieces_map, pieces_pieces baseBlockSize_pos (Nat.two_pow_pos m), List.map_map,
    List.map_map]
  rfl

/-- The same for the full blocks. -/
theorem map_treeHash_fullPieces (m : Nat) (data : List UInt8) :
    (fullPieces (baseBlockSize * 2 ^ m) data).map (treeHash H) =
      (fullPieces (2 ^ m) ((fullPieces baseBlockSize data).map H.hashBlock)).map
        (treeRoot H.combine H.zero) := by
  have hpos := Nat.two_pow_pos m
  rw [fullPieces_map, fullPieces_fullPieces baseBlockSize_pos hpos, List.map_map, List.map_map]
  apply List.map_congr_left
  intro b hb
  have hlen := length_of_mem_fullPieces hb
  have hne : b ≠ [] := by
    rw [← List.length_pos_iff, hlen]
    exact Nat.mul_pos baseBlockSize_pos hpos
  rw [treeHash, pieces_eq_fullPieces baseBlockSize_pos (hlen ▸ Nat.dvd_mul_right _ _) hne]
  rfl

/-- The tree hash of the string from those of its blocks. -/
theorem treeRoot_blockHashes (m : Nat) (data : List UInt8) :
    treeRoot H.combine H.zero (blockHashes H (baseBlockSize * 2 ^ m) data) =
      treeHash H data := by
  rw [blockHashes_eq, treeRoot_map_pieces]
  rfl

namespace MerkleTree

/-! ### The stack -/

/-- Reducing the stack after a push: the stack describes the leaves pushed so far, or they
fill a block and have become a leaf. -/
theorem reduceBlocks_spec {m k : Nat} {s : List (V × Nat)} {hs g : List V} (leaves : List V)
    (h : SubtreeStack H.combine H.zero baseBlockSize s hs)
    (hm : ∀ b ∈ s, b.2 < baseBlockSize * 2 ^ m) (hk : k < m) (hg : g.length = 2 ^ k)
    (hle : ∀ b ∈ s, baseBlockSize * 2 ^ k ≤ b.2) :
    let r := reduceBlocks H (baseBlockSize * 2 ^ m)
      ((treeRoot H.combine H.zero g, baseBlockSize * 2 ^ k) :: s) leaves
    (r = ([], leaves ++ [treeRoot H.combine H.zero (hs ++ g)]) ∧ (hs ++ g).length = 2 ^ m) ∨
      (r.2 = leaves ∧ SubtreeStack H.combine H.zero baseBlockSize r.1 (hs ++ g) ∧
        ∀ b ∈ r.1, b.2 < baseBlockSize * 2 ^ m) := by
  induction h generalizing k g with
  | nil =>
    have hlt : baseBlockSize * 2 ^ k < baseBlockSize * 2 ^ m :=
      Nat.mul_lt_mul_of_pos_left (Nat.pow_lt_pow_right (by omega) hk) baseBlockSize_pos
    rw [reduceBlocks.eq_2 _ _ _ _ (by simp)]
    exact .inr ⟨rfl, .push .nil hg (by simp), by simpa using hlt⟩
  | @push s hs ga ka h hga hlt ih =>
    rw [reduceBlocks.eq_1]
    by_cases heq : baseBlockSize * 2 ^ ka = baseBlockSize * 2 ^ k
    · have hka : ka = k :=
        Nat.pow_right_injective (le_refl 2) (Nat.eq_of_mul_eq_mul_left baseBlockSize_pos heq)
      subst hka
      have hcomb := treeRoot_append H.combine H.zero hga
        (List.length_pos_iff.mp (hg ▸ Nat.two_pow_pos ka)) hg.le
      have hlen : (ga ++ g).length = 2 ^ (ka + 1) := by
        rw [List.length_append, hga, hg, Nat.pow_succ]
        omega
      have hms : ∀ b ∈ s, b.2 < baseBlockSize * 2 ^ m :=
        fun b hb => hm b (List.mem_cons_of_mem _ hb)
      rw [if_pos rfl, ← hcomb, Nat.mul_assoc, ← Nat.pow_succ, List.append_assoc]
      by_cases hfull : baseBlockSize * 2 ^ (ka + 1) = baseBlockSize * 2 ^ m
      · -- the merged subtree fills the block, so nothing lies below it on the stack
        have hroom := h.length_add_le hms hk hlt
        have hpow : 2 ^ (ka + 1) = 2 ^ m := Nat.eq_of_mul_eq_mul_left baseBlockSize_pos hfull
        have hnil : hs = [] := List.length_eq_zero_iff.mp (by omega)
        have hs' : s = [] := h.eq_nil_iff.mpr hnil
        subst hnil hs'
        rw [if_pos hfull, reduceBlocks.eq_2 _ _ _ _ (by simp)]
        exact .inl ⟨rfl, by rw [List.nil_append, hlen, hpow]⟩
      · have hk' : ka + 1 < m := by
          have hne : ka + 1 ≠ m := fun he => hfull (by rw [he])
          omega
        rw [if_neg hfull]
        exact ih hms hk' hlen (h.size_le hlt)
    · have hlt' : baseBlockSize * 2 ^ k < baseBlockSize * 2 ^ ka :=
        lt_of_le_of_ne (hle _ List.mem_cons_self) (Ne.symm heq)
      have hkm : baseBlockSize * 2 ^ k < baseBlockSize * 2 ^ m :=
        hlt'.trans (hm _ List.mem_cons_self)
      rw [if_neg heq]
      refine .inr ⟨rfl, .push (.push h hga hlt) hg ?_, ?_⟩
      · intro b hb
        rcases List.mem_cons.mp hb with rfl | hb
        · exact hlt'
        · exact hlt'.trans (hlt b hb)
      · intro b hb
        rcases List.mem_cons.mp hb with rfl | hb
        · exact hkm
        · exact hm b hb

/-- Folding the stack gives the root over everything on it. -/
theorem collapse_spec {k n : Nat} {s : List (V × Nat)} {hs g : List V}
    (h : SubtreeStack H.combine H.zero baseBlockSize s hs) (hne : g ≠ [])
    (hg : g.length ≤ 2 ^ k) (hle : ∀ b ∈ s, baseBlockSize * 2 ^ k ≤ b.2) :
    collapse H ((treeRoot H.combine H.zero g, n) :: s) =
      [treeRoot H.combine H.zero (hs ++ g)] := by
  induction h generalizing k n g with
  | nil => rw [collapse, List.nil_append]
  | @push s hs ga ka h hga hlt ih =>
    have hkk : 2 ^ k ≤ 2 ^ ka :=
      Nat.le_of_mul_le_mul_left (hle _ List.mem_cons_self) baseBlockSize_pos
    rw [collapse, ← treeRoot_append H.combine H.zero hga hne (hg.trans hkk),
      ih (k := ka + 1) (by simp [hne]) ?_ (h.size_le hlt), List.append_assoc]
    rw [List.length_append, hga, Nat.pow_succ]
    omega

/-! ### The state between updates -/

/-- The tree holds the base block hashes `hs` on top of the leaves `pre` it was given: full
groups are leaves, the rest is on the stack. -/
structure Holds (m : Nat) (pre : List V) (t : MerkleTree V) (hs : List V) : Prop where
  blockSize : t.blockSize = baseBlockSize * 2 ^ m
  below : ∀ b ∈ t.blocks, b.2 < baseBlockSize * 2 ^ m
  groups : ∃ (gs : List (List V)) (tail : List V), hs = gs.flatten ++ tail ∧
    (∀ g ∈ gs, g.length = 2 ^ m) ∧
    t.leaves = pre ++ gs.map (treeRoot H.combine H.zero) ∧
    SubtreeStack H.combine H.zero baseBlockSize t.blocks tail

variable {H} in
theorem Holds.eq_nil_iff {m : Nat} {pre hs : List V} {t : MerkleTree V}
    (h : Holds H m pre t hs) : t.leaves = [] ∧ t.blocks = [] ↔ pre = [] ∧ hs = [] := by
  obtain ⟨gs, tail, rfl, hgs, hleaves, hstack⟩ := h.groups
  rw [hleaves, hstack.eq_nil_iff, List.append_eq_nil_iff, List.map_eq_nil_iff,
    List.append_eq_nil_iff]
  have hflat : gs.flatten = [] ↔ gs = [] := by
    constructor
    · intro hnil
      cases gs with
      | nil => rfl
      | cons g gs =>
        rw [List.flatten_cons, List.append_eq_nil_iff] at hnil
        have hg := hgs g List.mem_cons_self
        rw [hnil.1, List.length_nil] at hg
        exact absurd hg (Nat.two_pow_pos m).ne
    · rintro rfl
      rfl
  rw [hflat, and_assoc]

variable {H} in
/-- One base block. -/
theorem Holds.updateBlock {m : Nat} {pre hs : List V} {t : MerkleTree V}
    (h : Holds H m pre t hs) (data : List UInt8) :
    Holds H m pre (t.updateBlock H data) (hs ++ [H.hashBlock data]) := by
  obtain ⟨gs, tail, rfl, hgs, hleaves, hstack⟩ := h.groups
  unfold MerkleTree.updateBlock
  split
  · next hlt =>
    rw [h.blockSize] at hlt
    have hm : 0 < m := by
      by_contra h0
      simp [show m = 0 by omega] at hlt
    have hle : ∀ b ∈ t.blocks, baseBlockSize * 2 ^ 0 ≤ b.2 := by
      intro b hb
      exact hstack.size_ge b hb
    have hred := reduceBlocks_spec H t.leaves (k := 0) (g := [H.hashBlock data])
      hstack h.below hm rfl hle
    simp only [treeRoot_singleton, Nat.pow_zero, Nat.mul_one, ← h.blockSize] at hred
    rcases hred with ⟨hr, hfull⟩ | ⟨hr2, hst, hbelow⟩
    · refine ⟨h.blockSize, by simp [hr], gs ++ [tail ++ [H.hashBlock data]], [], ?_, ?_, ?_, ?_⟩
      · simp
      · intro g hg
        rcases List.mem_append.mp hg with hg | hg
        · exact hgs g hg
        · rw [List.mem_singleton.mp hg, hfull]
      · simp only [hr]
        simp [hleaves]
      · rw [hr]
        exact .nil
    · refine ⟨h.blockSize, ?_, gs, tail ++ [H.hashBlock data], ?_, hgs, ?_, hst⟩
      · rw [← h.blockSize]
        exact hbelow
      · rw [List.append_assoc]
      · exact hr2.trans hleaves
  · next hlt =>
    -- a block size of one base block: every base block is a leaf and the stack stays empty
    rw [h.blockSize] at hlt
    have hm : m = 0 := by
      by_contra h0
      have := Nat.mul_lt_mul_of_pos_left (Nat.one_lt_two_pow h0) baseBlockSize_pos
      omega
    subst hm
    have htail : tail = [] := by
      have := hstack.length_lt h.below
      exact List.length_eq_zero_iff.mp (by omega)
    subst htail
    refine ⟨h.blockSize, h.below, gs ++ [[H.hashBlock data]], [], ?_, ?_, ?_, hstack⟩
    · simp
    · intro g hg
      rcases List.mem_append.mp hg with hg | hg
      · exact hgs g hg
      · rw [List.mem_singleton.mp hg]
        rfl
    · simp [hleaves]

/-- The loop hashes the base blocks in order. -/
theorem updateLoop_eq (t : MerkleTree V) (data : List UInt8) :
    t.updateLoop H data = (pieces baseBlockSize data).foldl (fun t d => t.updateBlock H d) t := by
  induction t, data using updateLoop.induct (H := H) with
  | case1 t data n t' h ih =>
    have hlt : baseBlockSize < data.length := by omega
    have hn : n = baseBlockSize := Nat.min_eq_left hlt.le
    rw [updateLoop, if_pos h, ih, pieces_of_lt baseBlockSize_pos hlt, List.foldl_cons]
    simp only [← hn]
    rfl
  | case2 t data n h =>
    have hle : data.length ≤ baseBlockSize := by omega
    rw [updateLoop, if_neg h, pieces_of_length_le hle, List.foldl_cons, List.foldl_nil,
      Nat.min_eq_right hle, List.take_length]

variable {H} in
/-- `update` on a non-empty piece, or on the first piece of an empty file. -/
theorem Holds.update {m : Nat} {pre hs : List V} {t : MerkleTree V} (h : Holds H m pre t hs)
    (data : List UInt8) (hd : data ≠ [] ∨ pre = [] ∧ hs = []) :
    Holds H m pre (t.update H data) (hs ++ (pieces baseBlockSize data).map H.hashBlock) := by
  have hloop : ∀ (ds : List (List UInt8)) (t : MerkleTree V) (hs : List V),
      Holds H m pre t hs →
      Holds H m pre (ds.foldl (fun t d => t.updateBlock H d) t) (hs ++ ds.map H.hashBlock) := by
    intro ds
    induction ds with
    | nil => simp
    | cons d ds ih =>
      intro t hs ht
      have hrec := ih _ _ (ht.updateBlock d)
      rwa [List.append_assoc, List.singleton_append] at hrec
  have hgo : ¬(data.length = 0 ∧ ¬(t.leaves = [] ∧ t.blocks = [])) := by
    rw [h.eq_nil_iff, List.length_eq_zero_iff]
    tauto
  rw [MerkleTree.update, if_neg hgo, updateLoop_eq]
  obtain ⟨hb, hbelow, hgroups⟩ := hloop (pieces baseBlockSize data) t hs h
  exact ⟨hb, hbelow, hgroups⟩

/-! ### The root -/

private theorem splitPoint_spec {b length : Nat} (hb : 0 < b) (h : b < length) :
    ∃ k, splitPoint b length = b * 2 ^ k ∧ length ≤ b * 2 ^ k * 2 := by
  induction b using splitPoint.induct length with
  | case1 b hl ih =>
    obtain ⟨k, hk, hle⟩ := ih (by omega) hl.2
    refine ⟨k + 1, ?_, ?_⟩
    · rw [splitPoint, if_pos hl, hk, Nat.pow_succ]
      ring
    · rw [Nat.pow_succ]
      calc length ≤ b * 2 * 2 ^ k * 2 := hle
        _ = b * (2 ^ k * 2) * 2 := by ring
  | case2 b hl =>
    refine ⟨0, ?_, ?_⟩
    · rw [splitPoint, if_neg hl, Nat.pow_zero, Nat.mul_one]
    · rw [Nat.pow_zero, Nat.mul_one]
      omega

/-- `getHash` over `n` leaves from leaf `i` on is the root over them: the split point is the
largest power of two below the number of leaves. -/
theorem getHash_eq (t : MerkleTree V) (i length : Nat) (hpos : 0 < length)
    (hle : i + (length + t.blockSize - 1) / t.blockSize ≤ t.leaves.length) :
    t.getHash H (i * t.blockSize) length = treeRoot H.combine H.zero
      ((t.leaves.drop i).take ((length + t.blockSize - 1) / t.blockSize)) := by
  have hb := t.blockSize_pos
  induction length using Nat.strong_induction_on generalizing i with
  | _ length ih =>
    rw [getHash]
    split
    · next hone =>
      have hn : (length + t.blockSize - 1) / t.blockSize = 1 :=
        Nat.div_eq_of_lt_le (by omega) (by omega)
      have hi : i < t.leaves.length := by omega
      rw [hn, Nat.mul_div_cancel i hb, List.getD_eq_getElem _ _ hi,
        List.drop_eq_getElem_cons hi, List.take_succ_cons, List.take_zero, treeRoot_singleton]
    · next hmore =>
      obtain ⟨k, hk, hle2⟩ := splitPoint_spec hb (not_le.mp hmore)
      have hlt := splitPoint_lt (not_le.mp hmore)
      have hk0 := Nat.two_pow_pos k
      rw [hk] at hlt
      have hl0 : 0 < t.blockSize * 2 ^ k := Nat.mul_pos hb hk0
      have hleft : (t.blockSize * 2 ^ k + t.blockSize - 1) / t.blockSize = 2 ^ k := by
        rw [show t.blockSize * 2 ^ k + t.blockSize - 1 =
          t.blockSize - 1 + t.blockSize * 2 ^ k by omega, Nat.add_mul_div_left _ _ hb,
          Nat.div_eq_of_lt (by omega), Nat.zero_add]
      have hsum : (length + t.blockSize - 1) / t.blockSize =
          2 ^ k + (length - t.blockSize * 2 ^ k + t.blockSize - 1) / t.blockSize := by
        rw [show length + t.blockSize - 1 =
          length - t.blockSize * 2 ^ k + t.blockSize - 1 + t.blockSize * 2 ^ k by omega,
          Nat.add_mul_div_left _ _ hb, Nat.add_comm]
      have hright : (length - t.blockSize * 2 ^ k + t.blockSize - 1) / t.blockSize ≤ 2 ^ k := by
        rw [← Nat.lt_succ_iff, Nat.div_lt_iff_lt_mul hb, Nat.succ_mul, Nat.mul_comm (2 ^ k)]
        omega
      have hright0 :
          0 < (length - t.blockSize * 2 ^ k + t.blockSize - 1) / t.blockSize := by
        rw [Nat.div_pos_iff]
        omega
      simp only [hk]
      rw [ih _ hlt i hl0 (by rw [hleft]; omega), hleft,
        show i * t.blockSize + t.blockSize * 2 ^ k = (i + 2 ^ k) * t.blockSize by ring,
        ih _ (by omega) (i + 2 ^ k) (by omega) (by omega), hsum, List.take_add, List.drop_drop]
      have hlen : ((t.leaves.drop i).take (2 ^ k)).length = 2 ^ k := by
        rw [List.length_take, List.length_drop]
        omega
      symm
      apply treeRoot_append H.combine H.zero hlen
      · rw [← List.length_pos_iff, List.length_take, List.length_drop]
        omega
      · rw [List.length_take]
        omega

/-- `getHash` reads the leaves and the block size only. -/
theorem getHash_congr {t : MerkleTree V} (t' : MerkleTree V) (hl : t.leaves = t'.leaves)
    (hb : t.blockSize = t'.blockSize) (start length : Nat) :
    t.getHash H start length = t'.getHash H start length := by
  induction length using Nat.strong_induction_on generalizing start with
  | _ length ih =>
    rw [getHash, getHash, hl, hb]
    split
    · rfl
    · next hmore =>
      have hlt := splitPoint_lt (not_le.mp hmore)
      have hle := le_splitPoint t'.blockSize length
      have hpos := t'.blockSize_pos
      simp only
      rw [ih _ hlt, ih _ (by omega)]

/-- With as many leaves as a file of `length` bytes has blocks, `getHash` over the file is the
root over the leaves. -/
theorem getHash_zero (t : MerkleTree V) (length : Nat)
    (h : t.leaves.length = max 1 ((length + t.blockSize - 1) / t.blockSize)) :
    t.getHash H 0 length = treeRoot H.combine H.zero t.leaves := by
  have hb := t.blockSize_pos
  by_cases hpos : 0 < length
  · have hn : 0 < (length + t.blockSize - 1) / t.blockSize := by
      rw [Nat.div_pos_iff]
      omega
    have hroot := getHash_eq H t 0 length hpos (by omega)
    rw [Nat.zero_mul] at hroot
    rw [hroot, List.drop_zero, List.take_of_length_le (by omega)]
  · rw [show length = 0 by omega] at h ⊢
    rw [Nat.div_eq_of_lt (by omega)] at h
    obtain ⟨a, ha⟩ := List.length_eq_one_iff.mp (show t.leaves.length = 1 by omega)
    rw [getHash, if_pos (Nat.zero_le _), ha, Nat.zero_div, treeRoot_singleton]
    rfl

variable {H} in
/-- The leaves so far are the roots of the full groups. -/
theorem Holds.leaves_eq {m : Nat} {pre hs : List V} {t : MerkleTree V}
    (h : Holds H m pre t hs) :
    t.leaves = pre ++ (fullPieces (2 ^ m) hs).map (treeRoot H.combine H.zero) := by
  obtain ⟨gs, tail, rfl, hgs, hleaves, hstack⟩ := h.groups
  rw [hleaves, fullPieces_flatten_append (Nat.two_pow_pos m) hgs (hstack.length_lt h.below)]

variable {H} in
/-- The leaves after `finalize`. -/
theorem Holds.finalize_leaves {m : Nat} {pre hs : List V} {t : MerkleTree V}
    (h : Holds H m pre t hs) (hne : hs ≠ []) :
    (t.finalize H).leaves =
      pre ++ (pieces (2 ^ m) hs).map (treeRoot H.combine H.zero) := by
  have hnot : ¬(t.leaves = [] ∧ t.blocks = []) := by
    rw [h.eq_nil_iff]
    tauto
  obtain ⟨gs, tail, rfl, hgs, hleaves, hstack⟩ := h.groups
  have hlt := hstack.length_lt h.below
  rw [finalize, if_neg hnot, pieces_flatten_append (Nat.two_pow_pos m) hgs hlt.le hne]
  change t.leaves ++ collapse H t.blocks = _
  rw [hleaves, List.append_assoc]
  congr 1
  cases hb : t.blocks with
  | nil =>
    rw [if_pos (hstack.eq_nil_iff.mp hb), collapse, List.append_nil]
  | cons b s =>
    have htail : tail ≠ [] := by
      rw [Ne, ← hstack.eq_nil_iff, hb]
      simp
    rw [if_neg htail, List.map_append, List.map_singleton]
    congr 1
    rw [hb] at hstack
    cases hstack with
    | @push s hs g k hs' hg hlt' =>
      exact collapse_spec H hs' (List.length_pos_iff.mp (hg ▸ Nat.two_pow_pos k)) hg.le
        fun b hb => (hlt' b hb).le

variable {H} in
/-- Nothing hashed: the given leaves, or the leaf of the empty string. -/
theorem Holds.finalize_leaves_nil {m : Nat} {pre : List V} {t : MerkleTree V}
    (h : Holds H m pre t []) :
    (t.finalize H).leaves = if pre = [] then blockHashes H (baseBlockSize * 2 ^ m) [] else pre := by
  split
  · next hpre =>
    subst hpre
    have hup := h.update [] (.inr ⟨rfl, rfl⟩)
    have hnot : ¬((t.update H []).leaves = [] ∧ (t.update H []).blocks = []) := by
      rw [hup.eq_nil_iff]
      simp [pieces_ne_nil]
    have hfin : t.finalize H = (t.update H []).finalize H := by
      rw [finalize, if_pos (h.eq_nil_iff.mpr ⟨rfl, rfl⟩), finalize, if_neg hnot]
    rw [hfin, hup.finalize_leaves (by simp [pieces_ne_nil]), List.nil_append, List.nil_append,
      ← blockHashes_eq]
  · next hpre =>
    have hnot : ¬(t.leaves = [] ∧ t.blocks = []) := by
      rw [h.eq_nil_iff]
      exact fun hnil => hpre hnil.1
    obtain ⟨gs, tail, hnil, -, -, hstack⟩ := h.groups
    have htail := (List.append_eq_nil_iff.mp hnil.symm).2
    have hblocks : t.blocks = [] := hstack.eq_nil_iff.mpr htail
    have hleaves := h.leaves_eq
    rw [fullPieces_of_length_lt (Nat.two_pow_pos m), List.map_nil, List.append_nil] at hleaves
    rw [finalize, if_neg hnot]
    change t.leaves ++ collapse H t.blocks = pre
    rw [hblocks, collapse, List.append_nil, hleaves]

@[simp] theorem update_fileSize (t : MerkleTree V) (data : List UInt8) :
    (t.update H data).fileSize = t.fileSize + data.length := by
  rw [update]
  split
  · next h => rw [h.1, Nat.add_zero]
  · rfl

@[simp] theorem updateBlock_blockSize (t : MerkleTree V) (data : List UInt8) :
    (t.updateBlock H data).blockSize = t.blockSize := by
  rw [updateBlock]
  split <;> rfl

@[simp] theorem update_blockSize (t : MerkleTree V) (data : List UInt8) :
    (t.update H data).blockSize = t.blockSize := by
  have hloop : ∀ (ds : List (List UInt8)) (t : MerkleTree V),
      (ds.foldl (fun t d => t.updateBlock H d) t).blockSize = t.blockSize := by
    intro ds
    induction ds with
    | nil => simp
    | cons d ds ih => simp [ih]
  rw [update]
  split
  · rfl
  · simp only [updateLoop_eq, hloop]

/-- `finalize` keeps the block size and, unless the tree is empty, the file size. -/
theorem finalize_blockSize (t : MerkleTree V) :
    (t.finalize H).blockSize = t.blockSize ∧ (t.finalize H).fileSize = t.fileSize := by
  rw [finalize]
  split <;> simp [calcRoot]

/-- The root after `calcRoot` is computed from the leaves it keeps. -/
theorem calcRoot_root_eq (t : MerkleTree V) :
    (t.calcRoot H).root = (t.calcRoot H).getHash H 0 (t.calcRoot H).fileSize := by
  have hcongr := getHash_congr H (t := t) (t.calcRoot H) rfl rfl 0 t.fileSize
  exact hcongr

/-- The root after `finalize` is computed from its leaves. -/
theorem finalize_root_eq (t : MerkleTree V) :
    (t.finalize H).root = (t.finalize H).getHash H 0 (t.finalize H).fileSize :=
  calcRoot_root_eq H _

/-- The root after `finalize`, when the leaves are as many as the file has blocks. -/
theorem finalize_root (t : MerkleTree V)
    (h : (t.finalize H).leaves.length =
      max 1 ((t.fileSize + t.blockSize - 1) / t.blockSize)) :
    (t.finalize H).root = treeRoot H.combine H.zero (t.finalize H).leaves := by
  obtain ⟨hb, hf⟩ := finalize_blockSize H t
  rw [← hb, ← hf] at h
  rw [finalize_root_eq, getHash_zero H _ _ h]

end MerkleTree

/-! ### Feeding a string in pieces -/

open MerkleTree

/-- Every piece but the last is a whole number of base blocks. -/
def Aligned (ps : List (List UInt8)) : Prop := ∀ p ∈ ps.dropLast, baseBlockSize ∣ p.length

/-- The first piece is not empty unless the whole string is. -/
def StartsProperly (ps : List (List UInt8)) : Prop := ps.head? = some [] → ps.flatten = []

/-- `update` with every piece, then `finalize`. -/
def hashPieces (blockSize : Nat) (h : 0 < blockSize) (ps : List (List UInt8)) : MerkleTree V :=
  (ps.foldl (fun t p => t.update H p) (new H blockSize h)).finalize H

theorem Aligned.head {p : List UInt8} {ps : List (List UInt8)} (h : Aligned (p :: ps))
    (hne : ps ≠ []) : baseBlockSize ∣ p.length :=
  h p (by rw [List.dropLast_cons_of_ne_nil hne]; exact List.mem_cons_self)

theorem Aligned.tail {p : List UInt8} {ps : List (List UInt8)} (h : Aligned (p :: ps)) :
    Aligned ps := by
  intro q hq
  cases ps with
  | nil => simp at hq
  | cons p' ps => exact h q (by simp [hq])

variable {H}

private theorem holds_new (m : Nat) (h : 0 < baseBlockSize * 2 ^ m) :
    Holds H m [] (new H (baseBlockSize * 2 ^ m) h) [] :=
  ⟨rfl, by simp [new], [], [], rfl, by simp, rfl, .nil⟩

private theorem map_hashBlock_ne_nil (data : List UInt8) :
    (pieces baseBlockSize data).map H.hashBlock ≠ [] := by
  simp [pieces_ne_nil]

private theorem update_nil {m : Nat} {pre hs : List V} {t : MerkleTree V}
    (h : Holds H m pre t hs) (hne : hs ≠ []) : t.update H [] = t := by
  have hnot : ¬(t.leaves = [] ∧ t.blocks = []) := by
    rw [h.eq_nil_iff]
    exact fun h => hne h.2
  rw [update, if_pos ⟨rfl, hnot⟩]

-- the pieces after the first bytes; `d` are the bytes fed so far
private theorem holds_feed {m : Nat} {t : MerkleTree V} {d : List UInt8}
    {ps : List (List UInt8)} (h : Holds H m [] t ((pieces baseBlockSize d).map H.hashBlock))
    (hd : d ≠ []) (hdvd : ps ≠ [] → baseBlockSize ∣ d.length) (ha : Aligned ps) :
    Holds H m [] (ps.foldl (fun t p => t.update H p) t)
      ((pieces baseBlockSize (d ++ ps.flatten)).map H.hashBlock) := by
  induction ps generalizing t d with
  | nil => simpa using h
  | cons p ps ih =>
    rw [List.foldl_cons, List.flatten_cons, ← List.append_assoc]
    by_cases hnil : p = []
    · subst hnil
      rw [update_nil h (map_hashBlock_ne_nil d), List.append_nil]
      exact ih h hd (fun _ => hdvd (by simp)) ha.tail
    · have hup := h.update p (.inl hnil)
      rw [← List.map_append,
        ← pieces_append_of_dvd baseBlockSize_pos (hdvd (by simp)) hd hnil] at hup
      refine ih hup (by simp [hd]) ?_ ha.tail
      intro hne
      rw [List.length_append]
      exact Nat.dvd_add (hdvd (by simp)) (ha.head hne)

private theorem holds_feed_empty {m : Nat} {t : MerkleTree V} {hs : List V}
    {ps : List (List UInt8)} (h : Holds H m [] t hs) (hne : hs ≠ []) (hps : ps.flatten = []) :
    ps.foldl (fun t p => t.update H p) t = t := by
  induction ps with
  | nil => rfl
  | cons p ps ih =>
    obtain ⟨rfl, hrest⟩ := List.append_eq_nil_iff.mp (List.flatten_cons ▸ hps)
    rw [List.foldl_cons, update_nil h hne, ih hrest]

private theorem foldl_update_fileSize (t : MerkleTree V) (ps : List (List UInt8)) :
    (ps.foldl (fun t p => t.update H p) t).fileSize = t.fileSize + ps.flatten.length := by
  induction ps generalizing t with
  | nil => simp
  | cons p ps ih =>
    rw [List.foldl_cons, ih, update_fileSize, List.flatten_cons, List.length_append,
      Nat.add_assoc]

private theorem hashPieces_holds {m : Nat} {h : 0 < baseBlockSize * 2 ^ m}
    {ps : List (List UInt8)} (ha : Aligned ps) (hfirst : StartsProperly ps) :
    ∃ t : MerkleTree V, hashPieces H (baseBlockSize * 2 ^ m) h ps = t.finalize H ∧
      t.fileSize = ps.flatten.length ∧
      Holds H m [] t ((pieces baseBlockSize ps.flatten).map H.hashBlock) := by
  have h0 := holds_new (H := H) m h
  cases ps with
  | nil =>
    -- `finalize` itself hashes the empty string
    have hup := h0.update [] (.inr ⟨rfl, rfl⟩)
    refine ⟨(new H (baseBlockSize * 2 ^ m) h).update H [], ?_, by simp [new], hup⟩
    have hnot : ¬(((new H (baseBlockSize * 2 ^ m) h).update H []).leaves = [] ∧
        ((new H (baseBlockSize * 2 ^ m) h).update H []).blocks = []) := by
      rw [hup.eq_nil_iff]
      simp [pieces_ne_nil]
    rw [hashPieces, List.foldl_nil, finalize, if_pos ⟨rfl, rfl⟩, finalize, if_neg hnot]
  | cons p ps =>
    have hp := h0.update p (.inr ⟨rfl, rfl⟩)
    rw [List.nil_append] at hp
    refine ⟨_, rfl, ?_, ?_⟩
    · rw [foldl_update_fileSize]
      simp [new]
    · rw [List.foldl_cons, List.flatten_cons]
      by_cases hnil : p = []
      · have hflat := hfirst (by rw [hnil, List.head?_cons])
        obtain ⟨-, hrest⟩ := List.append_eq_nil_iff.mp (List.flatten_cons ▸ hflat)
        rw [holds_feed_empty hp (map_hashBlock_ne_nil p) hrest, hrest, List.append_nil]
        exact hp
      · exact holds_feed hp hnil ha.head ha.tail

private theorem hashPieces_root {m : Nat} {h : 0 < baseBlockSize * 2 ^ m}
    {ps : List (List UInt8)} (ha : Aligned ps) (hfirst : StartsProperly ps) :
    (hashPieces H (baseBlockSize * 2 ^ m) h ps).leaves =
        blockHashes H (baseBlockSize * 2 ^ m) ps.flatten ∧
      (hashPieces H (baseBlockSize * 2 ^ m) h ps).root = treeHash H ps.flatten := by
  obtain ⟨t, ht, hsize, hold⟩ := hashPieces_holds (H := H) (h := h) ha hfirst
  have hleaves := hold.finalize_leaves (map_hashBlock_ne_nil ps.flatten)
  rw [List.nil_append, ← blockHashes_eq] at hleaves
  rw [ht]
  refine ⟨hleaves, ?_⟩
  rw [finalize_root, hleaves, treeRoot_blockHashes]
  rw [hleaves, blockHashes, List.length_map, length_pieces h, hsize, hold.blockSize]

/-- Feeding a string in aligned pieces: the leaves are the tree hashes of the blocks, the root
is the tree hash of the string, and any other cut and block size give the same root. -/
theorem hashPieces_eq (H : Hasher V) (m : Nat) (h : 0 < baseBlockSize * 2 ^ m)
    (ps : List (List UInt8)) (ha : Aligned ps) (hfirst : StartsProperly ps) :
    (hashPieces H (baseBlockSize * 2 ^ m) h ps).leaves =
        blockHashes H (baseBlockSize * 2 ^ m) ps.flatten ∧
      (hashPieces H (baseBlockSize * 2 ^ m) h ps).root = treeHash H ps.flatten ∧
      ∀ (m' : Nat) (h' : 0 < baseBlockSize * 2 ^ m') (ps' : List (List UInt8)), Aligned ps' →
        StartsProperly ps' → ps'.flatten = ps.flatten →
        (hashPieces H (baseBlockSize * 2 ^ m') h' ps').root =
          (hashPieces H (baseBlockSize * 2 ^ m) h ps).root := by
  obtain ⟨hleaves, hroot⟩ := hashPieces_root (H := H) (h := h) ha hfirst
  refine ⟨hleaves, hroot, ?_⟩
  intro m' h' ps' ha' hfirst' heq
  rw [hroot, (hashPieces_root (H := H) (h := h') ha' hfirst').2, heq]

/-- A base block and a short last one, under a block size of two base blocks. -/
theorem hashPieces_eq_short_last_piece :
    (hashPieces (⟨id, id, []⟩ : Hasher (List UInt8)) (baseBlockSize * 2 ^ 1) (by decide)
      [List.replicate baseBlockSize 0, [7]]).root =
        treeHash ⟨id, id, []⟩ [List.replicate baseBlockSize 0, [7]].flatten := by
  refine (hashPieces_eq _ 1 (by decide) _ ?_ ?_).2.1
  · intro p hp
    rw [List.mem_singleton.mp hp, List.length_replicate]
  · intro h
    rw [List.head?_cons, Option.some_inj, List.replicate_eq_nil_iff] at h
    exact absurd h (by decide)

/-- An empty first piece is hashed as a block of its own: the string `7`, fed as the empty
piece and then `7`, gets two leaves. -/
theorem leaves_empty_first_piece :
    ¬∀ (H : Hasher Unit) (m : Nat) (h : 0 < baseBlockSize * 2 ^ m) (ps : List (List UInt8)),
      Aligned ps → (hashPieces H (baseBlockSize * 2 ^ m) h ps).leaves =
        blockHashes H (baseBlockSize * 2 ^ m) ps.flatten := by
  intro hall
  have hpos : 0 < baseBlockSize * 2 ^ 0 := by decide
  let H : Hasher Unit := ⟨fun _ => (), fun _ => [], ()⟩
  have hfed := ((holds_new (H := H) 0 hpos).update [] (.inr ⟨rfl, rfl⟩)).update [7]
    (.inl (by simp))
  have hleaves := hfed.finalize_leaves (by simp [pieces_ne_nil])
  have hlen :=
    congrArg List.length (hleaves.symm.trans (hall H 0 hpos [[], [7]] (by simp [Aligned])))
  simp [blockHashes, length_pieces, baseBlockSize] at hlen

end Blacklink.Hash
