import Blacklink.Hash.Load
import Blacklink.Transfer.Complete
import Blacklink.Transfer.Partial

/-!
# What a download with a tree leaves in the file

A download is followed chunk by chunk. As long as the file takes every write and no compressed
stream ends before its segment, `putDownload` records exactly bytes that are in the file and belong
to blocks with the hash of their leaf.
-/

namespace Blacklink.Transfer

open Blacklink.Base Blacklink.Hash Blacklink.Stream Blacklink.Stream.StoringStream

variable {φ V : Type} {F : Stream.Filter φ} {H : Hasher V} [DecidableEq V]

/-! ### Bounds the streams keep -/

/-- Every write to the file succeeds, no more than `size` bytes get past the limit, and `w` is in
the file. -/
structure Bounded (size : Nat) (w : List UInt8) (s : FileStack H) : Prop where
  reliable : ∀ n, s.s.s.s.succeeds n = true
  limit : (kept s).length + s.maxBytes ≤ size
  written : w <+: written s

private theorem writeLoop_succeeds (t : BufferedOutputStream TargetFile) (b : List UInt8) :
    (t.writeLoop b).1.s.succeeds = t.s.succeeds := by
  have hwrite : ∀ (f : TargetFile) (b : List UInt8), (write f b).1.succeeds = f.succeeds := by
    intro f b
    simp only [write]
    split <;> rfl
  induction t, b using BufferedOutputStream.writeLoop.induct with
  | case1 t => rw [BufferedOutputStream.writeLoop, if_pos rfl]
  | case2 t b hb hdirect =>
    rw [BufferedOutputStream.writeLoop, if_neg hb, if_pos hdirect]
    exact hwrite _ _
  | case3 t b hb hdirect n buf hfull r hret ih =>
    have heq : t.writeLoop b =
        BufferedOutputStream.writeLoop { t with s := r.1, buf := [] } (b.drop n) := by
      rw [BufferedOutputStream.writeLoop, if_neg hb, if_neg hdirect]
      exact (if_pos hfull).trans (if_pos hret)
    rw [heq, ih]
    exact hwrite _ _
  | case4 t b hb hdirect n buf hfull r hret =>
    have heq : t.writeLoop b = ({ t with s := r.1, buf := buf }, false) := by
      rw [BufferedOutputStream.writeLoop, if_neg hb, if_neg hdirect]
      exact (if_pos hfull).trans (if_neg hret)
    rw [heq]
    exact hwrite _ _
  | case5 t b hb hdirect n buf hfull =>
    have heq : t.writeLoop b = ({ t with buf := buf }, true) := by
      rw [BufferedOutputStream.writeLoop, if_neg hb, if_neg hdirect]
      exact if_neg hfull
    rw [heq]

private theorem flush_succeeds (t : BufferedOutputStream TargetFile) :
    t.flush.1.s.succeeds = t.s.succeeds := by
  rw [BufferedOutputStream.flush]
  split
  · rfl
  · simp only [write]
    split <;> rfl

/-- The verifying stream calls the buffer or leaves it as it is. -/
private theorem verified_write_succeeds (v : VerifiedStream H (BufferedOutputStream TargetFile))
    (b : List UInt8) : (write v b).1.s.s.succeeds = v.s.s.succeeds := by
  simp only [write]
  split
  · exact writeLoop_succeeds v.s b
  · split
    · exact writeLoop_succeeds v.s b
    · rfl

private theorem verified_flush_succeeds (v : VerifiedStream H (BufferedOutputStream TargetFile)) :
    (flushBuffers v).1.s.s.succeeds = v.s.s.succeeds := by
  simp only [flushBuffers]
  split
  · exact flush_succeeds v.s
  · split
    · exact flush_succeeds v.s
    · rfl

theorem bounded_stable (size : Nat) (w : List UInt8) : Stable (Bounded (H := H) size w) := by
  refine ⟨?_, ?_, ?_⟩
  · intro s b h
    refine ⟨?_, ?_, h.written.trans (write_written s b)⟩
    · intro n
      simp only [write]
      split
      · exact h.reliable n
      · exact (congrFun (verified_write_succeeds s.s b) n).trans (h.reliable n)
    · have hle := (write_le s b).length_le
      have hlimit := h.limit
      rw [List.length_append] at hle
      by_cases hb : s.maxBytes < b.length
      · have heq : write s b = (s, none) := if_pos hb
        rw [heq]
        exact hlimit
      · have heq : (write s b).1.maxBytes = s.maxBytes - b.length := by
          rw [show write s b = _ from if_neg hb]
        omega
  · intro s h
    refine ⟨?_, ?_, h.written.trans (flush_mono s)⟩
    · intro n
      exact (congrFun (verified_flush_succeeds s.s) n).trans (h.reliable n)
    · rw [flush_kept]
      exact h.limit
  · intro s h
    refine ⟨?_, ?_, h.written.trans (close_mono s)⟩
    · intro n
      exact (congrFun (flush_succeeds s.s.s) n).trans (h.reliable n)
    · rw [close_kept]
      exact h.limit

section Stable

variable {P : FileStack H → Prop} (hP : Stable P)
include hP

private theorem flush_file_stable {f : DownloadFile F H} (h : P f.stack) :
    P (flushBuffers f).1.stack := by
  cases f with
  | plain s => exact hP.flush s h
  | inflating t => exact FilteredOutputStream.flush_stable hP h

private theorem endData_stable {d : Download F H} (h : P d.file.stack) :
    P d.endData.download.file.stack := by
  rw [Download.endData]
  split
  · exact flush_file_stable hP h
  · exact flush_file_stable hP h

theorem onData_stable {d : Download F H} (hopen : d.file.Open) (h : P d.file.stack)
    (b : List UInt8) : P (d.onData b).download.file.stack := by
  have hwrite : P (write d.file b).1.stack := by
    rw [(d.file.write_spec b hopen).1]
    exact hP.feed h _
  rw [Download.onData]
  split
  · exact hwrite
  · simp only
    split
    · exact endData_stable hP hwrite
    · exact hwrite

theorem put_stable {d : Download F H} (h : P d.file.stack) :
    P d.removeDownload.resetDownloadFile.file.stack := by
  have hremove : P d.removeDownload.file.stack := by
    rw [Download.removeDownload]
    split
    · exact flush_file_stable hP h
    · exact h
  rw [Download.resetDownloadFile, close_stack]
  exact hP.close _ hremove

end Stable

/-! ### One chunk -/

/-- The compressed stream ends with the chunk, and there are fewer bytes than the segment has. -/
def Download.EndsShort (d : Download F H) (b : List UInt8) : Prop :=
  ∃ t qs, d.file = .inflating t ∧ (F.decode t.state b).2.1 = .ended ∧
    F.decodeFlush (F.decode t.state b).2.2 = some qs ∧
    d.pos + ((F.decode t.state b).1 ++ qs).flatten.length < d.size

/-- Where a download with the tree `t` is. A failed one counts bytes that were all compared, a
finished one has written its segment and every block was compared. -/
inductive Sound (t : MerkleTree V) (start size : Nat) : Progress F H → Prop
  | running {d : Download F H} {bytes : List UInt8} (h : Receiving (some t) start size d bytes) :
      Sound t start size (.running d)
  | failed {d : Download F H} {bytes : List UInt8} (h : Received (some t) start d bytes) :
      Sound t start size (.failed d)
  | finished {d : Download F H} (hsettled : Settled d.file)
      (haccepts : MerkleCheckOutputStream.Accepts H t start (kept d.file.stack))
      (hlen : (kept d.file.stack).length = size) : Sound t start size (.finished d)

/-- A download of the segment with its attributes. -/
structure Tracked (t : MerkleTree V) (start size : Nat) (p : Progress F H) : Prop where
  sound : Sound t start size p
  blockSize : p.download.treeBlockSize = t.blockSize
  length : p.download.size = size
  bounded : Bounded size [] p.download.file.stack

variable {t : MerkleTree V} {start size : Nat}

/-- A flush that returns has accepted the bytes taken. -/
theorem Taken.flush_accepts {s : FileStack H} {bytes : List UInt8}
    (h : Taken (some t) start size s bytes) (hret : (flushBuffers s).2 = true) :
    MerkleCheckOutputStream.Accepts H t start bytes := by
  rcases s with ⟨⟨check, s⟩, maxBytes⟩
  cases h.checked with
  | @present _ c m _ hm hsound =>
    apply (MerkleCheckOutputStream.flushBuffers_iff hm hsound).1.mp
    by_contra hno
    simp only [flushBuffers] at hret
    rw [if_neg hno] at hret
    cases hret

/-- The streams of a download that is over: all bytes are kept, and a flush that returns has
accepted them. -/
private theorem endData_sound {d : Download F H} {bytes : List UInt8}
    (htree : TreeFor t start) (hfile : ∀ f, d.file = .inflating f → f.flushed = false)
    (htaken : Taken (some t) start size d.file.stack bytes)
    (hplain : ∀ s, d.file = .plain s → s.maxBytes = 0)
    (hinflating : ∀ f qs, d.file = .inflating f → F.decodeFlush f.state = some qs →
      size ≤ bytes.length + qs.flatten.length) : Sound t start size d.endData := by
  rw [Download.endData]
  split
  · next hret =>
    have hsettled := ((endData_finished (d := d) [] hfile).mp
      (by rw [Download.endData, if_pos hret]; rfl)).2.2
    rcases d with ⟨file, dsize, treeBlockSize, pos, actual⟩
    cases file with
    | plain s =>
      have hkept : kept (flushBuffers s).1 = bytes := by
        rw [flush_kept]
        exact htaken.kept
      refine .finished hsettled ?_ ?_
      · change MerkleCheckOutputStream.Accepts H t start (kept (flushBuffers s).1)
        rw [hkept]
        exact htaken.flush_accepts hret
      · change (kept (flushBuffers s).1).length = size
        have hlimit := htaken.limit
        have hzero : s.maxBytes = 0 := hplain s rfl
        simp only [DownloadFile.stack, hzero, Nat.zero_add] at hlimit
        rw [hkept, hlimit]
    | inflating f =>
      obtain ⟨hiff, hkept⟩ := flush_inflating f (hfile f rfl)
      obtain ⟨qs, hqs, hfeed, hflush⟩ := hiff.mp hret
      have hall : Taken (some t) start size (feed f.f qs).1 (bytes ++ qs.flatten) :=
        htaken.feed hfeed
      have hkept : kept (flushBuffers f).1.f = bytes ++ qs.flatten := by
        rw [hkept qs hqs hfeed]
        exact congrArg (· ++ qs.flatten) htaken.kept
      refine .finished hsettled ?_ ?_
      · change MerkleCheckOutputStream.Accepts H t start (kept (flushBuffers f).1.f)
        rw [hkept]
        exact hall.flush_accepts hflush
      · change (kept (flushBuffers f).1.f).length = size
        have hlimit := hall.limit
        have hle := hinflating f qs rfl hqs
        rw [hkept, List.length_append]
        rw [List.length_append] at hlimit
        omega
  · -- the position is reset, so nothing is recorded
    refine .failed (⟨Nat.zero_le _, ?_, ?_⟩ : Received (some t) start _ bytes)
    · rw [List.take_zero]
      exact List.nil_prefix
    · exact blocks_of_taken htaken (by rintro t' ⟨⟩; exact htree)

private theorem onData_attributes (d : Download F H) (b : List UInt8) :
    (d.onData b).download.treeBlockSize = d.treeBlockSize ∧
      (d.onData b).download.size = d.size := by
  rw [Download.onData]
  split
  · exact ⟨rfl, rfl⟩
  · simp only
    split
    · rw [Download.endData]
      split <;> exact ⟨rfl, rfl⟩
    · exact ⟨rfl, rfl⟩

private theorem onData_sound (htree : TreeFor t start) {d : Download F H} {bytes : List UInt8}
    (h : Receiving (some t) start size d bytes) (hsize : d.size = size) {b : List UInt8}
    (hshort : ¬d.EndsShort b) : Sound t start size (d.onData b) := by
  by_cases htake : (Stream.feed d.file.stack (d.file.decode b).1).2 = true ∧
      (d.file.decode b).2 ≠ .error
  · obtain ⟨heq, htaken, hpos⟩ := h.onData_taken htake.1 htake.2
    rw [heq]
    split
    · next heof =>
      rcases d with ⟨file, dsize, treeBlockSize, pos, actual⟩
      cases file with
      | plain s =>
        have hzero : (write s b).1.maxBytes = 0 := by
          simpa [Download.advance, DownloadFile.eof, LimitedOutputStream.eof, write] using heof
        refine endData_sound htree ?_ htaken ?_ ?_
        · intro f hf
          cases hf
        · intro s' hs'
          cases hs'
          exact hzero
        · intro f qs hf
          cases hf
      | inflating f =>
        obtain ⟨-, hstate, hflushed, hmore⟩ := write_state h.stream htake.1 htake.2
        have hended : (F.decode f.state b).2.1 = .ended := by
          have hnot : (write f b).1.more = false := by
            simpa [Download.advance, DownloadFile.eof, FilteredOutputStream.eof, write] using heof
          rw [hmore] at hnot
          cases hst : (F.decode f.state b).2.1 with
          | more => simp [hst] at hnot
          | ended => rfl
          | error => exact absurd hst htake.2
        refine endData_sound htree ?_ htaken ?_ ?_
        · intro f' hf
          cases hf
          exact hflushed
        · intro s hs
          cases hs
        · intro f' qs hf hqs
          cases hf
          by_contra hlt
          apply hshort
          refine ⟨f, qs, rfl, hended, hstate ▸ hqs, ?_⟩
          have hcount : pos + (F.decode f.state b).1.flatten.length =
              (bytes ++ (F.decode f.state b).1.flatten).length := hpos
          have hdsize : dsize = size := hsize
          change ¬size ≤ (bytes ++ (F.decode f.state b).1.flatten).length + _ at hlt
          change pos + ((F.decode f.state b).1 ++ qs).flatten.length < dsize
          rw [List.flatten_append, List.length_append]
          omega
    · next heof =>
      have hmore : (d.file.decode b).2 = .more := by
        cases hst : (d.file.decode b).2 with
        | more => rfl
        | ended => exact absurd (h.eof_of_ended htake.1 hst) heof
        | error => exact absurd hst htake.2
      exact .running (h.advance htake.1 hmore).1
  · obtain ⟨heq, hkept⟩ := h.onData_thrown htake
    rw [heq]
    have hrec : Received (some t) start { d with file := (Stream.write d.file b).1 } bytes :=
      ⟨h.pos.le, (List.take_prefix _ _).trans hkept, blocks_of_taken h.taken
        (by rintro t' ⟨⟩; exact htree)⟩
    exact .failed hrec

/-- A chunk of data. What was in the file stays there. -/
theorem Tracked.onData (htree : TreeFor t start) {d : Download F H}
    (h : Tracked t start size (.running d)) {b : List UInt8} (hshort : ¬d.EndsShort b) :
    Tracked t start size (d.onData b) ∧
      written d.file.stack <+: written (d.onData b).download.file.stack := by
  have hsound := h.sound
  cases hsound with
  | running hrec =>
    obtain ⟨hblock, hsize⟩ := onData_attributes d b
    have hbounded : Bounded size (written d.file.stack) d.file.stack :=
      ⟨h.bounded.reliable, h.bounded.limit, List.prefix_rfl⟩
    refine ⟨⟨onData_sound htree hrec h.length hshort, hblock.trans h.blockSize,
      hsize.trans h.length, ?_⟩, ?_⟩
    · exact onData_stable (bounded_stable size []) hrec.stream h.bounded b
    · exact (onData_stable (bounded_stable size _) hrec.stream hbounded b).written

/-- A new download of a segment that has bytes. -/
theorem tracked_startData (bufSize : Nat) (z : Option φ) (htree : TreeFor t start)
    (hpos : 0 < size) :
    Tracked t start size
        (Download.new F H (fun _ => true) start size bufSize (some t) z).startData ∧
      written (Download.new F H (fun _ => true) start size bufSize (some t)
        z).startData.download.file.stack = [] := by
  have heq : (Download.new F H (fun _ => true) start size bufSize (some t) z).startData =
      .running (Download.new F H (fun _ => true) start size bufSize (some t) z) := by
    rw [Download.startData, if_neg]
    exact Nat.ne_of_lt hpos
  have hrec : Receiving (some t) start size
      (Download.new F H (fun _ => true) start size bufSize (some t) z) [] :=
    receiving_new size (fun _ => true) bufSize z (by rintro t' ⟨⟩; exact htree)
  rw [heq]
  refine ⟨⟨.running hrec, rfl, rfl, ?_⟩, ?_⟩
  · cases z with
    | none => exact ⟨fun _ => rfl, (Nat.zero_add size).le, List.nil_prefix⟩
    | some st => exact ⟨fun _ => rfl, (Nat.zero_add size).le, List.nil_prefix⟩
  · cases z <;> rfl

/-! ### Giving the download back -/

variable {p : Progress F H}

/-- A download writes no more than its segment. -/
theorem Tracked.length_written_le (h : Tracked t start size p) :
    (written p.download.file.stack).length ≤ size := by
  have hle := (StoringStream.written_le p.download.file.stack).length_le
  have hlimit := h.bounded.limit
  omega

/-- Destroying the streams keeps what was in the file, and the file gets no more than the
segment. -/
theorem Tracked.put (h : Tracked t start size p) :
    written p.download.file.stack <+:
        written p.download.removeDownload.resetDownloadFile.file.stack ∧
      (written p.download.removeDownload.resetDownloadFile.file.stack).length ≤ size := by
  have hbounded : Bounded size (written p.download.file.stack) p.download.file.stack :=
    ⟨h.bounded.reliable, h.bounded.limit, List.prefix_rfl⟩
  have hafter := put_stable (bounded_stable size _) hbounded
  refine ⟨hafter.written, ?_⟩
  have hle := (written_le p.download.removeDownload.resetDownloadFile.file.stack).length_le
  have hlimit := hafter.limit
  omega

omit [DecidableEq V] in
/-- A last block of the bytes that were accepted has the hash of its leaf: if the tree has leaves
behind the file they were compared one by one, otherwise the root decides. -/
private theorem lastBlock_of_accepts {tth : V} {fileSize : Nat} {d : List UInt8}
    (ht : MerkleTree.IsTreeOf H tth fileSize t) (hinj : Function.Injective2 H.combine)
    (htree : TreeFor t start) (hle : start + d.length ≤ fileSize)
    (h : MerkleCheckOutputStream.Accepts H t start d) :
    MerkleCheckOutputStream.LastBlockMatches H t start d := by
  intro hrem
  have hd : d ≠ [] := by
    rintro rfl
    exact hrem (by simp [remainder])
  have hpos : 0 < fileSize := by
    have := List.length_pos_iff.mpr hd
    omega
  have hb := t.blockSize_pos
  have hblocks := ht.blocks_le
  have hcount := MerkleCheckOutputStream.length_finalLeaves (H := H) htree.aligned htree.inside hd
  have hmono : (start + d.length + t.blockSize - 1) / t.blockSize ≤
      (fileSize + t.blockSize - 1) / t.blockSize := Nat.div_le_div_right (by omega)
  have hone : 1 ≤ (fileSize + t.blockSize - 1) / t.blockSize := by
    rw [Nat.le_div_iff_mul_le hb]
    omega
  refine MerkleCheckOutputStream.lastBlockMatches_of_accepts htree.aligned htree.inside h ?_ hrem
  by_cases heq : t.leaves.length = (fileSize + t.blockSize - 1) / t.blockSize
  · refine .inl ⟨hinj, ?_⟩
    have htth := ht.tth_eq hpos
    rw [List.take_of_length_le heq.le] at htth
    rw [ht.tth, htth]
  · exact .inr (by omega)

/-- A finished download has written its segment, and every block of it is verified. -/
theorem Tracked.put_finished {tth : V} {fileSize : Nat} {d : Download F H}
    (h : Tracked t start size (.finished d)) (ht : MerkleTree.IsTreeOf H tth fileSize t)
    (hinj : Function.Injective2 H.combine) (htree : TreeFor t start)
    (hle : start + size ≤ fileSize) :
    (written d.removeDownload.resetDownloadFile.file.stack).length = size ∧
      MerkleCheckOutputStream.BlocksMatch H t start
        (written d.removeDownload.resetDownloadFile.file.stack) ∧
      MerkleCheckOutputStream.LastBlockMatches H t start
        (written d.removeDownload.resetDownloadFile.file.stack) := by
  cases h.sound with
  | finished hsettled haccepts hlen =>
    rw [hsettled.put, hsettled.written]
    refine ⟨hlen, MerkleCheckOutputStream.blocksMatch_of_agree htree.inside haccepts.1, ?_⟩
    exact lastBlock_of_accepts ht hinj htree (by omega) haccepts

/-- What is recorded of an unfinished download is in the file and verified. -/
theorem Tracked.put_unfinished (h : Tracked t start size p) (hp : p.isFinished = false)
    (htree : TreeFor t start) :
    p.download.removeDownload.downloaded ≤
        (written p.download.removeDownload.resetDownloadFile.file.stack).length ∧
      t.blockSize ∣ p.download.removeDownload.downloaded ∧
      MerkleCheckOutputStream.BlocksMatch H t start
        ((written p.download.removeDownload.resetDownloadFile.file.stack).take
          p.download.removeDownload.downloaded) := by
  have hrec : ∃ bytes, Received (some t) start p.download bytes := by
    cases h.sound with
    | @running d bytes hrec =>
      refine ⟨bytes, hrec.pos.le, hrec.taken.kept ▸ List.take_prefix _ _, ?_⟩
      exact blocks_of_taken hrec.taken (by rintro t' ⟨⟩; exact htree)
    | failed hrec => exact ⟨_, hrec⟩
    | finished => cases hp
  obtain ⟨bytes, hrec⟩ := hrec
  have hreliable : Bounded size [] p.download.removeDownload.file.stack := by
    rw [Download.removeDownload]
    split
    · exact flush_file_stable (bounded_stable size []) h.bounded
    · exact h.bounded
  obtain ⟨hle, htake, hblocks⟩ := (recorded_iff hrec List.prefix_rfl h.blockSize).mpr
    (.inr (hreliable.reliable _))
  obtain ⟨hdvd, hmatch⟩ := hblocks t rfl
  exact ⟨hle, hdvd, by rw [htake]; exact hmatch⟩

end Blacklink.Transfer
