import Blacklink.Transfer.Stack

/-!
# What is recorded of a failed download

A failed download is recorded as done up to its position rounded down to the tree block size.
The position counts bytes the outermost stream has taken; they may still be in the buffer when
the streams are destroyed. `failed_recorded_iff` says when the recorded bytes are in the file.
-/

namespace Blacklink.Transfer

open Blacklink.Hash Blacklink.Stream Blacklink.Stream.StoringStream

variable {φ V : Type} {F : Stream.Filter φ} {H : Hasher V}

/-- The first `n` bytes of `payload` are in the target file, and each lies in a block that has
the hash of its leaf. -/
def RecordedDone (H : Hasher V) (tree : Option (MerkleTree V)) (start : Nat)
    (payload : List UInt8) (n : Nat) (written : List UInt8) : Prop :=
  n ≤ written.length ∧ written.take n = payload.take n ∧
    ∀ t, tree = some t → t.blockSize ∣ n ∧
      MerkleCheckOutputStream.BlocksMatch H t start (payload.take n)

variable [DecidableEq V] {tree : Option (MerkleTree V)} {start size : Nat}

/-- The position of the download counts bytes of `d`, all kept and all compared. -/
structure Received (tree : Option (MerkleTree V)) (start : Nat) (d : Download F H)
    (bytes : List UInt8) : Prop where
  pos : d.pos ≤ bytes.length
  kept : bytes.take d.pos <+: kept d.file.stack
  blocks : ∀ t, tree = some t → MerkleCheckOutputStream.BlocksMatch H t start bytes

/-- Every complete block of the bytes taken is verified. -/
theorem blocks_of_taken {s : FileStack H} {bytes : List UInt8}
    (h : Taken tree start size s bytes) (htree : ∀ t, tree = some t → TreeFor t start) :
    ∀ t, tree = some t → MerkleCheckOutputStream.BlocksMatch H t start bytes := by
  intro t ht
  have hchecked := h.checked
  rw [ht] at hchecked
  exact hchecked.blocksMatch (htree t ht)

/-- A run that has not finished has received a prefix of the payload. -/
theorem receive_received {d d' : Download F H} {bytes : List UInt8}
    (htree : ∀ t, tree = some t → TreeFor t start) (h : Receiving tree start size d bytes)
    (bs : List (List UInt8))
    (hend : (Progress.running d).receive bs = .failed d' ∨
      (Progress.running d).receive bs = .running d') :
    d'.treeBlockSize = d.treeBlockSize ∧
      ∃ more, more <+: d.file.payload bs ∧ Received tree start d' (bytes ++ more) := by
  induction bs generalizing d bytes with
  | nil =>
    rcases hend with hend | hend
    · simp [Progress.receive] at hend
    · obtain rfl : d = d' := by simpa [Progress.receive] using hend
      refine ⟨rfl, [], List.nil_prefix, ?_⟩
      rw [List.append_nil]
      exact ⟨h.pos.le, h.taken.kept ▸ List.take_prefix _ _, blocks_of_taken h.taken htree⟩
  | cons b bs ih =>
    rw [Progress.receive] at hend
    by_cases htake : (Stream.feed d.file.stack (d.file.decode b).1).2 = true ∧
        (d.file.decode b).2 ≠ .error
    · obtain ⟨heq, htaken, hpos⟩ := h.onData_taken htake.1 htake.2
      have hpre := d.file.decode_payload b bs
      by_cases heof : (d.advance b).file.eof = true
      · rw [heq, if_pos heof, Download.endData] at hend
        split at hend
        · simp [Progress.receive] at hend
        · -- the flush of `endData` threw: the position is reset
          obtain rfl : _ = d' := by simpa [Progress.receive] using hend
          refine ⟨rfl, _, hpre, Nat.zero_le _, ?_, blocks_of_taken htaken htree⟩
          rw [List.take_zero]
          exact List.nil_prefix
      · rw [heq, if_neg heof] at hend
        have hmore : (d.file.decode b).2 = .more := by
          cases hst : (d.file.decode b).2 with
          | more => rfl
          | ended => exact absurd (h.eof_of_ended htake.1 hst) heof
          | error => exact absurd hst htake.2
        obtain ⟨hnext, hpayload⟩ := h.advance htake.1 hmore
        obtain ⟨hblock, more, hle, hrec⟩ := ih hnext hend
        refine ⟨hblock, (d.file.decode b).1.flatten ++ more, ?_, ?_⟩
        · rw [hpayload]
          exact (List.prefix_append_right_inj _).mpr hle
        · rwa [← List.append_assoc]
    · obtain ⟨heq, hkept⟩ := h.onData_thrown htake
      rw [heq] at hend
      obtain rfl : _ = d' := by simpa [Progress.receive] using hend
      refine ⟨rfl, [], List.nil_prefix, ?_⟩
      rw [List.append_nil]
      exact ⟨h.pos.le, (List.take_prefix _ _).trans hkept, blocks_of_taken h.taken htree⟩

/-! ### Destroying the streams -/

/-- The destructor writes what is still buffered, if that write succeeds. -/
theorem close_written (s : FileStack H) :
    written (close s) = if s.s.s.buf = [] then written s
      else if s.s.s.s.succeeds s.s.s.s.calls then kept s else written s := by
  change (BufferedOutputStream.flush s.s.s).1.s.data = _
  rw [BufferedOutputStream.flush]
  split
  · rfl
  · by_cases hok : s.s.s.s.succeeds s.s.s.s.calls = true
    · simp only [write, hok, if_true, Option.isSome_some]
      rfl
    · simp only [write, hok, Bool.false_eq_true, if_false, Option.isSome_none]
      rfl

omit [DecidableEq V] in
private theorem blocksMatch_take {t : MerkleTree V} {bytes : List UInt8}
    (h : MerkleCheckOutputStream.BlocksMatch H t start bytes) (n : Nat) :
    MerkleCheckOutputStream.BlocksMatch H t start (bytes.take n) := by
  intro i hi
  have hlen := Nat.mul_le_of_le_div _ _ _ (Nat.succ_le_of_lt hi)
  rw [List.length_take, Nat.succ_mul, Nat.mul_comm] at hlen
  have hblock : (bytes.take n).drop (t.blockSize * i) = (bytes.drop (t.blockSize * i)).take
      (n - t.blockSize * i) := List.drop_take
  rw [hblock, List.take_take, Nat.min_eq_left (by omega)]
  apply h
  exact hi.trans_le (Nat.div_le_div_right (by rw [List.length_take]; omega))

private theorem take_of_isPrefix {α : Type} {l m : List α} {n : Nat} (h : l <+: m)
    (hn : n ≤ l.length) : l.take n = m.take n := by
  obtain ⟨t, rfl⟩ := h
  rw [List.take_append_of_le_length hn]

theorem close_stack (f : DownloadFile F H) : (close f).stack = close f.stack := by
  cases f <;> rfl

theorem removeDownload_frame (d : Download F H) :
    d.removeDownload.pos = d.pos ∧ d.removeDownload.treeBlockSize = d.treeBlockSize ∧
      kept d.file.stack <+: kept d.removeDownload.file.stack := by
  rw [Download.removeDownload]
  split
  · exact ⟨rfl, rfl, d.file.flush_kept⟩
  · exact ⟨rfl, rfl, List.prefix_rfl⟩

/-- What an unfinished download records is in the file exactly when it is not buffered, or the last
write succeeds. -/
theorem recorded_iff {d : Download F H} {bytes all : List UInt8}
    (h : Received tree start d bytes) (hpre : bytes <+: all)
    (hbs : d.treeBlockSize = (tree.map MerkleTree.blockSize).getD baseBlockSize) :
    RecordedDone H tree start all d.removeDownload.downloaded
        (written d.removeDownload.resetDownloadFile.file.stack) ↔
      d.removeDownload.downloaded ≤ (written d.removeDownload.file.stack).length ∨
        d.removeDownload.file.stack.s.s.s.succeeds d.removeDownload.file.stack.s.s.s.calls =
          true := by
  obtain ⟨hpos, hblock, hflush⟩ := removeDownload_frame d
  have hclose : written d.removeDownload.resetDownloadFile.file.stack =
      written (close d.removeDownload.file.stack) := by
    rw [Download.resetDownloadFile, close_stack]
  have hn : d.removeDownload.downloaded ≤ d.pos := by
    rw [Download.downloaded, hpos]
    omega
  have hkept : bytes.take d.pos <+: kept d.removeDownload.file.stack := h.kept.trans hflush
  have hcounted : d.removeDownload.downloaded ≤ (bytes.take d.pos).length := by
    rw [List.length_take]
    have := h.pos
    omega
  have hlong := hcounted.trans hkept.length_le
  have hbytes : bytes.take d.removeDownload.downloaded =
      all.take d.removeDownload.downloaded := take_of_isPrefix hpre (hn.trans h.pos)
  have hmono := close_mono d.removeDownload.file.stack
  rw [hclose]
  constructor
  · rintro ⟨hle, -, -⟩
    rw [close_written] at hle
    split at hle
    · exact .inl hle
    · split at hle
      · next hok => exact .inr hok
      · exact .inl hle
  · intro hcond
    have hle : d.removeDownload.downloaded ≤
        (written (close d.removeDownload.file.stack)).length := by
      rcases hcond with hle | hok
      · exact hle.trans hmono.length_le
      · rw [close_written, if_pos hok]
        split
        · next hbuf =>
          have : written d.removeDownload.file.stack = kept d.removeDownload.file.stack := by
            change _ = _ ++ _
            rw [hbuf, List.append_nil]
            rfl
          rwa [this]
        · exact hlong
    refine ⟨hle, ?_, ?_⟩
    · -- both are the first bytes of what the streams have kept
      have hw : written (close d.removeDownload.file.stack) <+:
          kept d.removeDownload.file.stack := by
        rw [← close_kept]
        exact written_le _
      rw [take_of_isPrefix hw hle, ← take_of_isPrefix hkept hcounted, List.take_take,
        Nat.min_eq_left hn, hbytes]
    · intro t ht
      refine ⟨?_, ?_⟩
      · rw [Download.downloaded, hblock, hbs, ht]
        exact Nat.dvd_sub_mod _
      · rw [← hbytes]
        exact blocksMatch_take (h.blocks t ht) _

end Blacklink.Transfer
