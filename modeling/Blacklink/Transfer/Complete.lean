import Blacklink.Transfer.Stack

/-!
# What the success path has written

A plain transfer ends when the limit is used up, a compressed one when the filter says so; the
number of bytes is not looked at again. `finished_size_iff` says exactly which transfers take
the success path with all bytes of the segment in the target file.
-/

namespace Blacklink.Transfer

open Blacklink.Hash Blacklink.Stream Blacklink.Stream.StoringStream

variable {φ V : Type} {F : Stream.Filter φ} {H : Hasher V} [DecidableEq V]
  {tree : Option (MerkleTree V)} {start size : Nat}

/-- The streams take the pieces and a flush after them without an exception. -/
def Accepts (s : FileStack H) (ps : List (List UInt8)) : Prop :=
  (feed s ps).2 = true ∧ (flushBuffers (feed s ps).1).2 = true

/-- The compressed chunks end the stream, `qs` is the filter's output on the final flush, and
the streams below the filter accept the decompressed bytes. -/
def Ends (F : Stream.Filter φ) (s : FileStack H) (st : φ) (bs qs : List (List UInt8)) : Prop :=
  (F.decodeAll st bs).2.1 = .ended ∧ F.decodeFlush (F.decodeAll st bs).2.2 = some qs ∧
    Accepts s ((F.decodeAll st bs).1 ++ qs)

theorem accepts_append (s : FileStack H) (ps qs : List (List UInt8)) :
    Accepts s (ps ++ qs) ↔ (feed s ps).2 = true ∧ Accepts (feed s ps).1 qs := by
  rw [Accepts, feed_append]
  by_cases h : (feed s ps).2 = true
  · rw [if_pos h]
    simp [h, Accepts]
  · rw [if_neg h]
    simp [h]

/-- One more chunk in front. -/
theorem ends_cons (s : FileStack H) (st : φ) (b : List UInt8) (bs qs : List (List UInt8)) :
    Ends F s st (b :: bs) qs ↔ (feed s (F.decode st b).1).2 = true ∧
      match (F.decode st b).2.1 with
      | .more => Ends F (feed s (F.decode st b).1).1 (F.decode st b).2.2 bs qs
      | .ended => F.decodeFlush (F.decode st b).2.2 = some qs ∧
          Accepts (feed s (F.decode st b).1).1 qs
      | .error => False := by
  rw [Ends, Filter.decodeAll]
  cases hst : (F.decode st b).2.1 with
  | more =>
    simp only [if_true, List.append_assoc, accepts_append, Ends]
    tauto
  | ended =>
    simp only [reduceCtorEq, if_false, hst, accepts_append]
    tauto
  | error => simp [hst]

/-! ### After the final flush -/

/-- Everything kept is in the file, and another flush would write nothing. -/
structure Settled (f : DownloadFile F H) : Prop where
  written : written f.stack = kept f.stack
  flushed : ∀ t, f = .inflating t → t.flushed = true

private theorem settled_flush {f : DownloadFile F H}
    (hf : ∀ t, f = .inflating t → t.flushed = false) (h : (flushBuffers f).2 = true) :
    Settled (flushBuffers f).1 := by
  cases f with
  | plain s =>
    refine ⟨?_, by simp [flushBuffers]⟩
    change StoringStream.written (flushBuffers s).1 = kept (flushBuffers s).1
    rw [flush_written s h, flush_kept]
  | inflating t =>
    have heq : flushBuffers t = FilteredOutputStream.flushLoop { t with flushed := true } := by
      simp [flushBuffers, hf t rfl]
    obtain ⟨-, hflushed, hiff, hstack⟩ :=
      FilteredOutputStream.flushLoop_effect (F := F) { t with flushed := true }
    have hret : (flushBuffers t).2 = true := h
    rw [heq] at hret
    obtain ⟨ps, hps, hfeed, hflush⟩ := hiff.mp hret
    constructor
    · change StoringStream.written (flushBuffers t).1.f = kept (flushBuffers t).1.f
      rw [heq, hstack ps hps hfeed, flush_written _ hflush, flush_kept]
    · intro t' ht'
      have hinj : (flushBuffers t).1 = t' := by
        have : DownloadFile.inflating (flushBuffers t).1 = .inflating t' := ht'
        simpa using this
      rw [← hinj, heq, hflushed]

/-- `putDownload` changes nothing in the file of a settled download. -/
theorem Settled.put {d : Download F H} (h : Settled d.file) :
    StoringStream.written d.removeDownload.resetDownloadFile.file.stack =
      StoringStream.written d.file.stack := by
  have hflush : StoringStream.written d.removeDownload.file.stack =
      StoringStream.written d.file.stack ∧
      StoringStream.written d.removeDownload.file.stack = kept d.removeDownload.file.stack := by
    rw [Download.removeDownload]
    split
    · rcases d with ⟨file, size, treeBlockSize, pos, actual⟩
      cases file with
      | plain s => exact flush_of_written s h.written
      | inflating t =>
        have heq : flushBuffers t = (t, true) := by
          simp only [flushBuffers]
          rw [if_pos (h.flushed t rfl)]
        change StoringStream.written (flushBuffers t).1.f = _ ∧
          StoringStream.written (flushBuffers t).1.f = kept (flushBuffers t).1.f
        rw [heq]
        exact ⟨rfl, h.written⟩
    · exact ⟨rfl, h.written⟩
  have hclose : StoringStream.written d.removeDownload.resetDownloadFile.file.stack =
      StoringStream.written (close d.removeDownload.file.stack) := by
    rw [Download.resetDownloadFile]
    cases d.removeDownload.file <;> rfl
  rw [hclose, close_of_written _ hflush.2, hflush.1]

/-- `endData` takes the success path exactly when the flush returns, and leaves a settled file. -/
theorem endData_finished {d d' : Download F H} (bs : List (List UInt8))
    (hf : ∀ t, d.file = .inflating t → t.flushed = false) :
    d.endData.receive bs = .finished d' ↔ (flushBuffers d.file).2 = true ∧
      d' = { d with file := (flushBuffers d.file).1 } ∧ Settled d'.file := by
  rw [Download.endData]
  by_cases hret : (flushBuffers d.file).2 = true
  · simp only [hret, if_true, Progress.receive, Progress.finished.injEq, true_and]
    constructor
    · rintro rfl
      exact ⟨rfl, settled_flush hf hret⟩
    · rintro ⟨rfl, -⟩
      rfl
  · simp [hret, Progress.receive]

/-! ### Plain transfers -/

/-- A plain transfer finishes when the limit is used up. -/
theorem receive_plain {d d' : Download F H} {s : FileStack H} {bytes : List UInt8}
    (hd : d.file = .plain s) (h : Receiving none start size d bytes) (bs : List (List UInt8))
    (hend : (Progress.running d).receive bs = .finished d') :
    Settled d'.file ∧ (kept d'.file.stack).length = size := by
  induction bs generalizing d s bytes with
  | nil => simp [Progress.receive] at hend
  | cons b bs ih =>
    rw [Progress.receive] at hend
    by_cases htake : (Stream.feed d.file.stack (d.file.decode b).1).2 = true ∧
        (d.file.decode b).2 ≠ .error
    · obtain ⟨heq, htaken, -⟩ := h.onData_taken htake.1 htake.2
      have hfile : (d.advance b).file = .plain (write s b).1 := by
        rw [Download.advance, hd]
        rfl
      by_cases heof : (d.advance b).file.eof = true
      · have hflushed : ∀ t, (d.advance b).file = .inflating t → t.flushed = false := by
          simp [hfile]
        rw [heq, if_pos heof, endData_finished bs hflushed] at hend
        obtain ⟨-, rfl, hsettled⟩ := hend
        refine ⟨hsettled, ?_⟩
        have hlimit := htaken.limit
        rw [← htaken.kept] at hlimit
        simp only [hfile] at heof hlimit ⊢
        have hzero : (write s b).1.maxBytes = 0 := by
          simpa [DownloadFile.eof, LimitedOutputStream.eof] using heof
        change (kept (flushBuffers (write s b).1).1).length = size
        rw [flush_kept]
        simp only [DownloadFile.stack, hzero, Nat.zero_add] at hlimit
        exact hlimit
      · rw [heq, if_neg heof] at hend
        have hmore : (d.file.decode b).2 = .more := by
          rw [hd]
          rfl
        exact ih hfile (h.advance htake.1 hmore).1 hend
    · rw [(h.onData_thrown htake).1] at hend
      simp [Progress.receive] at hend

/-! ### Compressed transfers -/

/-- The flush of a filter that has not been flushed. -/
theorem flush_inflating (t : FilteredOutputStream F (FileStack H))
    (hf : t.flushed = false) :
    ((flushBuffers t).2 = true ↔
        ∃ qs, F.decodeFlush t.state = some qs ∧ Accepts t.f qs) ∧
      ∀ qs, F.decodeFlush t.state = some qs → (feed t.f qs).2 = true →
        kept (flushBuffers t).1.f = kept t.f ++ qs.flatten := by
  have heq : flushBuffers t = FilteredOutputStream.flushLoop { t with flushed := true } := by
    simp [flushBuffers, hf]
  obtain ⟨-, -, hiff, hstack⟩ :=
    FilteredOutputStream.flushLoop_effect (F := F) { t with flushed := true }
  rw [heq]
  refine ⟨hiff, ?_⟩
  intro qs hqs hfeed
  rw [hstack qs hqs hfeed, flush_kept, (feed_kept _ _).2 hfeed]

omit [DecidableEq V] in
private theorem inflating_of_write {t : FilteredOutputStream F (FileStack H)} [DecidableEq V]
    {d : Download F H} (hd : d.file = .inflating t) (b : List UInt8) :
    (d.advance b).file = .inflating (write t b).1 := by
  rw [Download.advance, hd]
  rfl

/-- A chunk the stream below takes leaves the filter in the state it is in after the chunk. -/
theorem write_state {t : FilteredOutputStream F (FileStack H)} {b : List UInt8}
    (hopen : t.more = true ∧ t.flushed = false)
    (hfeed : (feed t.f (F.decode t.state b).1).2 = true)
    (hok : (F.decode t.state b).2.1 ≠ .error) :
    (write t b).1.f = (feed t.f (F.decode t.state b).1).1 ∧
      (write t b).1.state = (F.decode t.state b).2.2 ∧ (write t b).1.flushed = false ∧
      (write t b).1.more = ((F.decode t.state b).2.1 == .more) := by
  have heffect := FilteredOutputStream.writeLoop_effect t b 0 hopen.1
  have hw : write t b = t.writeLoop b 0 := by simp [write, hopen.2]
  have hsome : (t.writeLoop b 0).2.isSome = true := by
    rw [heffect.result, if_pos ⟨hfeed, hok⟩]
    rfl
  obtain ⟨hstate, hmore⟩ := heffect.state hsome
  rw [hw]
  exact ⟨heffect.below, hstate, by rw [heffect.flushed, hopen.2], hmore⟩

/-- A compressed transfer finishes exactly when the stream ends and is accepted, with whatever
number of bytes the filter has put out. -/
theorem receive_inflating {d : Download F H} {t : FilteredOutputStream F (FileStack H)}
    {bytes : List UInt8} (hd : d.file = .inflating t) (h : Receiving none start size d bytes)
    (bs : List (List UInt8)) :
    (∀ d', (Progress.running d).receive bs = .finished d' → Settled d'.file ∧
      ∃ qs, Ends F t.f t.state bs qs ∧
        kept d'.file.stack = bytes ++ ((F.decodeAll t.state bs).1 ++ qs).flatten) ∧
      ∀ qs, Ends F t.f t.state bs qs → ∃ d', (Progress.running d).receive bs = .finished d' := by
  induction bs generalizing d t bytes with
  | nil => simp [Progress.receive, Ends, Filter.decodeAll]
  | cons b bs ih =>
    have hopen : t.more = true ∧ t.flushed = false := by
      have := h.stream
      rwa [hd] at this
    have hdec : d.file.decode b = ((F.decode t.state b).1, (F.decode t.state b).2.1) := by
      rw [hd]
      rfl
    have hstack : d.file.stack = t.f := by
      rw [hd]
      rfl
    have hthrown := h.onData_thrown (b := b)
    have htaken := h.onData_taken (b := b)
    have hadvance := h.advance (b := b)
    simp only [hdec, hstack] at hthrown htaken hadvance
    simp only [ends_cons, Progress.receive]
    by_cases htake : (Stream.feed t.f (F.decode t.state b).1).2 = true ∧
        (F.decode t.state b).2.1 ≠ .error
    · obtain ⟨heq, htaken, -⟩ := htaken htake.1 htake.2
      have hfile := inflating_of_write hd b
      obtain ⟨hf, hstate, hflushed, hmore⟩ := write_state hopen htake.1 htake.2
      have heof : (d.advance b).file.eof = !((F.decode t.state b).2.1 == .more) := by
        rw [hfile, ← hmore]
        rfl
      rw [heq, heof, Filter.decodeAll]
      cases hst : (F.decode t.state b).2.1 with
      | more =>
        obtain ⟨ih1, ih2⟩ := ih hfile (hadvance htake.1 hst).1
        simp only [hf, hstate] at ih1 ih2
        simpa [htake.1, List.append_assoc] using And.intro ih1 ih2
      | ended =>
        have hflush := flush_inflating (write t b).1 hflushed
        rw [hf, hstate] at hflush
        have hend : ∀ d', (d.advance b).endData.receive bs = .finished d' ↔ _ := fun d' =>
          endData_finished bs (by simpa [hfile] using hflushed)
        have hif : (!(FilterStatus.ended == .more)) = true := rfl
        simp only [htake.1, true_and, reduceCtorEq, if_false, if_pos hif, hend, hfile]
        constructor
        · rintro d' ⟨hret, rfl, hsettled⟩
          obtain ⟨qs, hqs, hacc⟩ := hflush.1.mp hret
          refine ⟨hsettled, qs, ⟨hqs, hacc⟩, ?_⟩
          change kept (flushBuffers (write t b).1).1.f = _
          rw [hflush.2 qs hqs hacc.1, ← hf, List.flatten_append, ← List.append_assoc]
          rw [hfile] at htaken
          exact congrArg (· ++ qs.flatten) htaken.kept
        · rintro qs ⟨hqs, hacc⟩
          have hret := hflush.1.mpr ⟨qs, hqs, hacc⟩
          have hopened : ∀ u, DownloadFile.inflating (H := H) (write t b).1 = .inflating u →
              u.flushed = false := by simpa using hflushed
          exact ⟨_, hret, rfl, settled_flush hopened hret⟩
      | error => exact absurd hst htake.2
    · rw [(hthrown htake).1]
      simp only [Progress.receive, reduceCtorEq, false_implies, implies_true, true_and]
      rintro qs ⟨hfeed, hmatch⟩
      cases hst : (F.decode t.state b).2.1 with
      | more => exact absurd ⟨hfeed, by simp [hst]⟩ htake
      | ended => exact absurd ⟨hfeed, by simp [hst]⟩ htake
      | error => simp [hst] at hmatch

/-! ### The success path -/

/-- The streams below the filter when the transfer starts. -/
def newStack (H : Hasher V) (succeeds : Nat → Bool) (start size bufSize : Nat)
    (tree : Option (MerkleTree V)) : FileStack H :=
  ⟨⟨tree.map fun t => .new H t start, ⟨⟨succeeds, 0, []⟩, [], min size bufSize⟩⟩, size⟩

-- a segment without bytes is finished without data, and the limit lets nothing through
private theorem finished_empty {d d' : Download F H} (h : Receiving none start 0 d [])
    (bs : List (List UInt8)) (hend : d.endData.receive bs = .finished d') :
    Settled d'.file ∧ kept d'.file.stack = [] := by
  rcases d with ⟨file, size, treeBlockSize, pos, actual⟩
  cases file with
  | plain s =>
    obtain ⟨-, rfl, hsettled⟩ := (endData_finished bs (by simp)).mp hend
    refine ⟨hsettled, ?_⟩
    change kept (flushBuffers s).1 = []
    rw [flush_kept]
    exact h.taken.kept
  | inflating t =>
    have hf : t.flushed = false := h.stream.2
    obtain ⟨hret, rfl, hsettled⟩ := (endData_finished bs (by simpa using hf)).mp hend
    refine ⟨hsettled, ?_⟩
    obtain ⟨hiff, hkept⟩ := flush_inflating t hf
    obtain ⟨qs, hqs, hacc⟩ := hiff.mp hret
    change kept (flushBuffers t).1.f = []
    have htaken : Taken none start 0 (feed t.f qs).1 ([] ++ qs.flatten) := h.taken.feed hacc.1
    have hlimit := htaken.limit
    have hnil : kept t.f = [] := h.taken.kept
    rw [hkept qs hqs hacc.1, hnil]
    apply List.length_eq_zero_iff.mp
    omega

/-- A transfer that takes the success path has written every byte of the segment to the target
file exactly when it is a plain one, or a compressed one whose stream does not end after fewer
bytes than the segment has. -/
theorem finished_size_iff (F : Stream.Filter φ) (H : Hasher V) (succeeds : Nat → Bool)
    (start size bufSize : Nat) (tree : Option (MerkleTree V)) (z : Option φ)
    (bs : List (List UInt8)) :
    (∀ d, (Download.new F H succeeds start size bufSize tree z).startData.receive bs =
        .finished d →
      (written d.removeDownload.resetDownloadFile.file.stack).length = size) ↔
      ∀ st qs, z = some st → Ends F (newStack H succeeds start size bufSize tree) st bs qs →
        size ≤ ((F.decodeAll st bs).1 ++ qs).flatten.length := by
  have hnew : Receiving none start size
      (Download.new F H succeeds start size bufSize tree z) [] :=
    receiving_new_unchecked size succeeds bufSize z tree
  rcases Nat.eq_zero_or_pos size with rfl | hsize
  · -- `startData` ends the transfer at once
    simp only [Nat.zero_le, implies_true, iff_true]
    intro d hend
    obtain ⟨hsettled, hkept⟩ := finished_empty hnew bs hend
    rw [hsettled.put, hsettled.written, hkept]
    rfl
  · have hstart : (Download.new F H succeeds start size bufSize tree z).startData =
        .running (Download.new F H succeeds start size bufSize tree z) := by
      rw [Download.startData]
      exact if_neg hsize.ne
    rw [hstart]
    cases z with
    | none =>
      simp only [reduceCtorEq, false_implies, implies_true, iff_true]
      intro d hend
      obtain ⟨hsettled, hlen⟩ := receive_plain rfl hnew bs hend
      rw [hsettled.put, hsettled.written, hlen]
    | some st =>
      obtain ⟨hfin, hends⟩ := receive_inflating rfl hnew bs
      constructor
      · intro hall st' qs hz hend
        obtain rfl : st = st' := by simpa using hz
        obtain ⟨d, hd⟩ := hends qs hend
        obtain ⟨hsettled, qs', hend', hkept⟩ := hfin d hd
        obtain rfl : qs = qs' := by simpa using hend.2.1.symm.trans hend'.2.1
        have hlen := hall d hd
        rw [hsettled.put, hsettled.written, hkept] at hlen
        exact hlen.ge
      · intro hall d hd
        obtain ⟨hsettled, qs, hend, hkept⟩ := hfin d hd
        rw [hsettled.put, hsettled.written, hkept]
        apply Nat.le_antisymm
        · have hlimit := (hnew.taken.feed hend.2.2.1).limit
          exact (Nat.le_add_left _ _).trans hlimit.le
        · exact hall st qs rfl hend

/-- A compressed transfer can end the stream early: one byte is written of a segment of ten,
and the success path is taken. -/
theorem finished_short_stream :
    ¬∀ (F : Stream.Filter Unit) (H : Hasher Unit) (succeeds : Nat → Bool) (start size bufSize : Nat)
      (z : Option Unit) (bs : List (List UInt8)) (d : Download F H),
      (Download.new F H succeeds start size bufSize none z).startData.receive bs =
        .finished d →
      (written d.removeDownload.resetDownloadFile.file.stack).length = size := by
  intro hall
  let file : TargetFile := ⟨fun _ => true, 0, []⟩
  have hbuffer : BufferedOutputStream.writeLoop ⟨file, [], 1⟩ [7] =
      (⟨⟨fun _ => true, 1, [7]⟩, [], 1⟩, true) := by
    simp [BufferedOutputStream.writeLoop, write, file]
  have hrun : (Download.new Filter.wholeChunk ⟨fun _ => (), fun _ => [], ()⟩ file.succeeds 0 10 1
      none (some ())).startData.receive [[7]] =
      .finished ⟨.inflating ⟨⟨⟨none, ⟨⟨fun _ => true, 1, [7]⟩, [], 1⟩⟩, 9⟩, (), false, true⟩, 10,
        1024, 1, 1⟩ := by
    simp [Download.startData, Download.new, Progress.receive, Download.onData, Download.endData,
      write, flushBuffers, hbuffer, DownloadFile.eof, FilteredOutputStream.eof,
      FilteredOutputStream.writeLoop, FilteredOutputStream.flushLoop, Filter.wholeChunk, file,
      BufferedOutputStream.writeLoop, BufferedOutputStream.flush, baseBlockSize]
  have hlen := hall _ _ _ _ _ _ _ _ _ hrun
  simp [Download.removeDownload, Download.resetDownloadFile, close, flushBuffers,
    BufferedOutputStream.flush, DownloadFile.stack, written] at hlen

end Blacklink.Transfer
