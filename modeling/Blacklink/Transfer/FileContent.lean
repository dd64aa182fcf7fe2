import Blacklink.Queue.AlignedSegments
import Blacklink.Stream.MerkleCheck
import Blacklink.Transfer.ItemFile

/-!
# Blocks of the temporary file

What writing a piece does to the parts of the file, and how the blocks a download has verified
are found again in the file.
-/

namespace Blacklink.Transfer

open Blacklink.Base Blacklink.Hash Blacklink.Queue Blacklink.Stream

namespace Content

/-- `w` is in the file from `start` on. -/
def Stored (c : Content) (start : Nat) (w : List UInt8) : Prop :=
  ∀ i b, w[i]? = some b → c (start + i) = b

theorem stored_nil (c : Content) (start : Nat) : c.Stored start [] := by
  intro i b h
  cases h

theorem store_of_lt {c : Content} {pos x : Nat} {bytes : List UInt8} (h : x < pos) :
    c.store pos bytes x = c x := by
  rw [store, if_neg (by omega)]

theorem store_of_le {c : Content} {pos x : Nat} {bytes : List UInt8}
    (h : pos + bytes.length ≤ x) : c.store pos bytes x = c x := by
  rw [store, if_pos (by omega), List.getElem?_eq_none (by omega)]
  rfl

/-- Appending to what is in the file. -/
theorem Stored.append {c : Content} {start : Nat} {old new : List UInt8}
    (h : c.Stored start old) (hpre : old <+: new) :
    (c.store (start + old.length) (new.drop old.length)).Stored start new := by
  obtain ⟨rest, rfl⟩ := hpre
  rw [List.drop_left]
  intro i b hb
  by_cases hi : i < old.length
  · rw [List.getElem?_append_left hi] at hb
    rw [store_of_lt (by omega)]
    exact h i b hb
  · rw [List.getElem?_append_right (by omega)] at hb
    rw [store, if_pos (by omega), show start + i - (start + old.length) = i - old.length by omega,
      hb]
    rfl

theorem Stored.congr {c c' : Content} {start : Nat} {w : List UInt8} (h : c.Stored start w)
    (heq : ∀ x, start ≤ x → x < start + w.length → c' x = c x) : c'.Stored start w := by
  intro i b hb
  have hi := (List.getElem?_eq_some_iff.mp hb).1
  rw [heq _ (by omega) (by omega)]
  exact h i b hb

theorem getElem?_bytes (c : Content) (size i : Nat) :
    (c.bytes size)[i]? = if i < size then some (c i) else none := by
  rw [bytes, List.getElem?_map]
  split
  · next h =>
    rw [List.getElem?_range h]
    rfl
  · next h =>
    rw [List.getElem?_eq_none (by rw [List.length_range]; omega)]
    rfl

private theorem getElem?_slice (c : Content) (size a len i : Nat) :
    (((c.bytes size).drop a).take len)[i]? =
      if i < len ∧ a + i < size then some (c (a + i)) else none := by
  by_cases hi : i < len
  · rw [List.getElem?_take_of_lt hi, List.getElem?_drop, getElem?_bytes]
    simp [hi]
  · rw [List.getElem?_take_eq_none (by omega), if_neg (by omega)]

/-- A part of the file that was not written to. -/
theorem slice_congr {c c' : Content} {size a len : Nat}
    (h : ∀ x, a ≤ x → x < a + len → x < size → c' x = c x) :
    ((c'.bytes size).drop a).take len = ((c.bytes size).drop a).take len := by
  apply List.ext_getElem?
  intro i
  rw [getElem?_slice, getElem?_slice]
  split
  · next hi => rw [h _ (by omega) (by omega) hi.2]
  · rfl

/-- A part of the file that was written. -/
theorem Stored.slice {c : Content} {start size j len : Nat} {w : List UInt8}
    (h : c.Stored start w) (hsize : start + w.length ≤ size)
    (hlen : j + len ≤ w.length ∨ start + w.length = size) :
    ((c.bytes size).drop (start + j)).take len = (w.drop j).take len := by
  apply List.ext_getElem?
  intro i
  rw [getElem?_slice]
  by_cases hi : i < len
  · rw [List.getElem?_take_of_lt hi, List.getElem?_drop]
    by_cases hw : j + i < w.length
    · have hb := List.getElem?_eq_getElem hw
      rw [if_pos (by omega), hb, Nat.add_assoc, h _ _ hb]
    · rw [if_neg (by omega), List.getElem?_eq_none (by omega)]
  · rw [List.getElem?_take_eq_none (by omega), if_neg (by omega)]

end Content

variable {V : Type} {H : Hasher V}

/-- A finished segment that has the first byte of a block has all of it. -/
theorem block_mem {d : Segment} {b : Nat} {size x : Int} {k : Nat}
    (hblocks : d.Blocks b size) (hmem : d.Mem (b * k : Nat)) (hx : (b * k : Nat) ≤ x)
    (hx' : x < (b * k : Nat) + b) (hsize : x < size) : d.Mem x := by
  rw [Segment.Mem] at hmem ⊢
  refine ⟨by omega, ?_⟩
  rcases hblocks.stop with ⟨j, hj⟩ | hstop
  · rw [hj] at hmem ⊢
    push_cast at hmem hx'
    have hkj : (k : Int) < j := by
      by_contra hle
      have := Int.mul_le_mul_of_nonneg_left (Int.not_lt.mp hle) (Int.natCast_nonneg b)
      omega
    have hnext := Int.mul_le_mul_of_nonneg_left (Int.add_one_le_of_lt hkj) (Int.natCast_nonneg b)
    rw [Int.mul_add, Int.mul_one] at hnext
    omega
  · rw [hstop]
    exact hsize

open MerkleCheckOutputStream in
/-- The blocks of a verified piece of the file have the hashes of their leaves. -/
theorem leaf_of_verified {t : MerkleTree V} {c : Content} {start size n k : Nat} {w : List UInt8}
    (hstored : c.Stored start w) (hsize : start + w.length ≤ size) (hn : n ≤ w.length)
    (hdvd : t.blockSize ∣ start) (hend : t.blockSize ∣ n ∨ start + n = size)
    (hblocks : BlocksMatch H t start (w.take n)) (hlast : LastBlockMatches H t start (w.take n))
    (hk : start ≤ t.blockSize * k) (hk' : t.blockSize * k < start + n) :
    t.leaves[k]? =
      some (treeHash H (((c.bytes size).drop (t.blockSize * k)).take t.blockSize)) := by
  have hb := t.blockSize_pos
  obtain ⟨a, rfl⟩ := hdvd
  obtain ⟨i, rfl⟩ : ∃ i, k = a + i := Nat.exists_eq_add_of_le (Nat.le_of_mul_le_mul_left hk hb)
  have hlen : (w.take n).length = n := by
    rw [List.length_take]
    omega
  rw [Nat.mul_add] at hk' ⊢
  have htake : c.Stored (t.blockSize * a) (w.take n) := by
    intro i b hi
    have hlt := (List.getElem?_eq_some_iff.mp hi).1
    rw [List.getElem?_take_of_lt (by omega)] at hi
    exact hstored i b hi
  by_cases hfull : t.blockSize * i + t.blockSize ≤ n
  · have hi : i < (w.take n).length / t.blockSize := by
      rw [hlen, Nat.lt_div_iff_mul_lt hb, Nat.mul_comm]
      omega
    have hleaf := hblocks i hi
    rw [Nat.mul_div_cancel_left a hb] at hleaf
    rw [hleaf, htake.slice (by omega) (.inl (by omega))]
  · -- the last block of the file
    have hi : n / t.blockSize = i := Nat.div_eq_of_lt_le
      (by rw [Nat.mul_comm]; omega) (by rw [Nat.succ_mul, Nat.mul_comm]; omega)
    have hdrop : remainder t.blockSize (w.take n) = (w.take n).drop (t.blockSize * i) := by
      rw [remainder, hlen, hi]
    have hne : remainder t.blockSize (w.take n) ≠ [] := by
      rw [hdrop, ← List.length_pos_iff, List.length_drop, hlen]
      omega
    have hshort : ¬t.blockSize ∣ n := by
      rintro ⟨j, rfl⟩
      rw [Nat.mul_div_cancel_left j hb] at hi
      rw [hi] at hk'
      omega
    have hstop := hend.resolve_left hshort
    have hrest : ((w.take n).drop (t.blockSize * i)).length ≤ t.blockSize := by
      rw [List.length_drop, hlen]
      omega
    have hleaf := hlast hne
    rw [Nat.mul_div_cancel_left a hb, hlen, hi, hdrop] at hleaf
    rw [hleaf, htake.slice (by omega) (.inr (by omega)), List.take_of_length_le hrest]

/-- Whole blocks have no short last block. -/
theorem lastBlock_of_dvd {t : MerkleTree V} {start n : Nat} {w : List UInt8}
    (hn : n ≤ w.length) (hdvd : t.blockSize ∣ n) :
    MerkleCheckOutputStream.LastBlockMatches H t start (w.take n) := by
  intro hrem
  refine absurd ?_ hrem
  rw [← List.length_eq_zero_iff, length_remainder, List.length_take, Nat.min_eq_left hn]
  exact Nat.mod_eq_zero_of_dvd hdvd

end Blacklink.Transfer
