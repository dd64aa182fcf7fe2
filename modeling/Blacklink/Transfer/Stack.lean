import Blacklink.Stream.Inflate
import Blacklink.Stream.MerkleCheck
import Blacklink.Transfer.Data

/-!
# The streams of a download while nothing has failed

`Taken` describes the streams below a filter after they have taken the bytes `d` without an
exception: all of them are kept, the limit is what remains of the segment, and the verifying
stream has compared every block they complete.
-/

namespace Blacklink.Transfer

open Blacklink.Hash Blacklink.Stream Blacklink.Stream.StoringStream

variable {V : Type} {H : Hasher V}

/-- A tree a segment at `start` can be verified with: `load` and the hash database give a block
size that is a power of two and leaves for the whole file, and segments start at blocks. -/
structure TreeFor (tree : MerkleTree V) (start : Nat) : Prop where
  blockSize : ∃ m, tree.blockSize = baseBlockSize * 2 ^ m
  aligned : tree.blockSize ∣ start
  inside : start / tree.blockSize ≤ tree.leaves.length

/-- The verifying stream has compared every block the bytes `d` complete. Without a tree nothing
is said of it. -/
inductive CheckSound (H : Hasher V) (start : Nat) :
    Option (MerkleTree V) → Option (MerkleCheckOutputStream V) → List UInt8 → Prop
  | absent (c : Option (MerkleCheckOutputStream V)) (d : List UInt8) : CheckSound H start none c d
  | present {t : MerkleTree V} {c : MerkleCheckOutputStream V} {m : Nat} {d : List UInt8}
      (hm : t.blockSize = baseBlockSize * 2 ^ m)
      (h : MerkleCheckOutputStream.Sound (H := H) t start m c d) :
      CheckSound H start (some t) (some c) d

variable [DecidableEq V]

theorem CheckSound.write {σ : Type} [OutputStream σ] {tree : Option (MerkleTree V)}
    {start n : Nat} {v : VerifiedStream H σ} {d b : List UInt8}
    (h : CheckSound H start tree v.check d) (hw : (write v b).2 = some n) :
    CheckSound H start tree (Stream.write v b).1.check (d ++ b) := by
  rcases v with ⟨check, s⟩
  cases h with
  | absent _ d => exact .absent _ _
  | @present t c m d hm h =>
    simp only [Stream.write] at hw ⊢
    split at hw
    · next hret =>
      rw [if_pos hret]
      exact .present hm ((MerkleCheckOutputStream.write_iff hm h b).2 hret).1
    · simp at hw

/-- The streams have taken `d` of a segment of `size` bytes at `start`. -/
structure Taken (tree : Option (MerkleTree V)) (start size : Nat) (s : FileStack H)
    (d : List UInt8) : Prop where
  kept : kept s = d
  limit : s.maxBytes + d.length = size
  checked : CheckSound H start tree s.s.check d

variable {tree : Option (MerkleTree V)} {start size : Nat}

/-- The streams `startData` builds have taken nothing. -/
theorem taken_new (size : Nat) (succeeds : Nat → Bool) (bufSize : Nat)
    (htree : ∀ t, tree = some t → TreeFor t start) :
    Taken tree start size (H := H)
      ⟨⟨tree.map fun t => .new H t start, ⟨⟨succeeds, 0, []⟩, [], bufSize⟩⟩, size⟩ [] := by
  refine ⟨rfl, by simp, ?_⟩
  cases tree with
  | none => exact .absent _ []
  | some t =>
    obtain ⟨m, hm⟩ := (htree t rfl).blockSize
    exact .present hm (MerkleCheckOutputStream.sound_new start hm)

/-- A write that returns has taken its bytes. -/
theorem Taken.write {s : FileStack H} {d b : List UInt8} {n : Nat}
    (h : Taken tree start size s d) (hw : (write s b).2 = some n) :
    n = b.length ∧ Taken tree start size (Stream.write s b).1 (d ++ b) := by
  obtain ⟨hn, hkept⟩ := write_some s b n hw
  have hlimit := h.limit
  have hle : ¬s.maxBytes < b.length := by
    intro hlt
    simp [Stream.write, hlt] at hw
  have heq : Stream.write s b =
      (⟨(Stream.write s.s b).1, s.maxBytes - b.length⟩, (Stream.write s.s b).2) := by
    rw [show Stream.write s b = _ from if_neg hle]
  refine ⟨hn, by rw [hkept, h.kept], ?_, ?_⟩
  · rw [heq, List.length_append]
    simp only
    omega
  · rw [heq] at hw ⊢
    exact h.checked.write hw

/-- Pieces that were all taken. -/
theorem Taken.feed {s : FileStack H} {d : List UInt8} {ps : List (List UInt8)}
    (h : Taken tree start size s d) (hw : (feed s ps).2 = true) :
    Taken tree start size (Stream.feed s ps).1 (d ++ ps.flatten) := by
  induction ps generalizing s d with
  | nil => simpa [Stream.feed] using h
  | cons p ps ih =>
    rw [Stream.feed] at hw ⊢
    split at hw
    · next hret =>
      obtain ⟨n, hn⟩ := Option.isSome_iff_exists.mp hret
      rw [if_pos hret, List.flatten_cons, ← List.append_assoc]
      exact ih (h.write hn).2 hw
    · simp at hw

omit [DecidableEq V] in
/-- Every complete block of the bytes taken has the hash of its leaf. -/
theorem CheckSound.blocksMatch {t : MerkleTree V} {c : Option (MerkleCheckOutputStream V)}
    {d : List UInt8} (h : CheckSound H start (some t) c d) (ht : TreeFor t start) :
    MerkleCheckOutputStream.BlocksMatch H t start d := by
  cases h with
  | present hm h => exact MerkleCheckOutputStream.blocksMatch_of_agree ht.inside h.agrees

/-! ### The outermost stream -/

variable {φ : Type} {F : Stream.Filter φ}

/-- A filter is still open: it has not ended and has not been flushed. -/
def DownloadFile.Open : DownloadFile F H → Prop
  | .plain _ => True
  | .inflating t => t.more = true ∧ t.flushed = false

/-- The bytes the outermost stream passes on for a chunk, and what it says of them. -/
def DownloadFile.decode : DownloadFile F H → List UInt8 → List (List UInt8) × FilterStatus
  | .plain _, b => ([b], .more)
  | .inflating t, b => ((F.decode t.state b).1, (F.decode t.state b).2.1)

/-- A call of `write` passes the decoded pieces on. It returns exactly when they are all taken
and the filter does not fail. -/
theorem DownloadFile.write_spec (f : DownloadFile F H) (b : List UInt8) (hopen : f.Open) :
    (Stream.write f b).1.stack = (Stream.feed f.stack (f.decode b).1).1 ∧
      (Stream.write f b).2 = if (Stream.feed f.stack (f.decode b).1).2 = true ∧
          (f.decode b).2 ≠ .error then
        some (f.decode b).1.flatten.length else none := by
  cases f with
  | plain s =>
    have hfeed : Stream.feed s [b] = ((Stream.write s b).1, (Stream.write s b).2.isSome) := by
      rw [Stream.feed]
      split
      · next hret => simp [Stream.feed, hret]
      · next hret => simp [Bool.eq_false_iff.mpr hret]
    simp only [decode, stack, hfeed]
    refine ⟨rfl, ?_⟩
    change (Stream.write s b).2 = _
    cases hw : (Stream.write s b).2 with
    | none => simp
    | some n => simp [(write_some s b n hw).1]
  | inflating t =>
    have heffect := FilteredOutputStream.writeLoop_effect t b 0 hopen.1
    have hw : Stream.write t b = t.writeLoop b 0 := by
      simp [Stream.write, hopen.2]
    simp only [decode, stack]
    refine ⟨?_, ?_⟩
    · change (Stream.write t b).1.f = _
      rw [hw, heffect.below]
    · change (Stream.write t b).2 = _
      rw [hw, heffect.result, Nat.zero_add]
      rfl

/-- The bytes the outermost stream passes on for a sequence of chunks. -/
def DownloadFile.payload : DownloadFile F H → List (List UInt8) → List UInt8
  | .plain _, bs => bs.flatten
  | .inflating t, bs => (F.decodeAll t.state bs).1.flatten

/-- While the stream is open, the chunks before and after a `write` that returned. -/
theorem DownloadFile.write_next (f : DownloadFile F H) (b : List UInt8) (hopen : f.Open)
    (hret : (Stream.write f b).2.isSome = true) (hmore : (f.decode b).2 = .more) :
    (Stream.write f b).1.Open ∧ ∀ bs, f.payload (b :: bs) =
      (f.decode b).1.flatten ++ (Stream.write f b).1.payload bs := by
  cases f with
  | plain s => exact ⟨trivial, by simp [payload, decode, Stream.write]⟩
  | inflating t =>
    have heffect := FilteredOutputStream.writeLoop_effect t b 0 hopen.1
    have hw : Stream.write t b = t.writeLoop b 0 := by
      simp [Stream.write, hopen.2]
    have hsome : (t.writeLoop b 0).2.isSome = true := hw ▸ hret
    obtain ⟨hstate, hm⟩ := heffect.state hsome
    simp only [decode] at hmore
    refine ⟨⟨?_, ?_⟩, ?_⟩
    · rw [hw, hm, hmore]
      rfl
    · rw [hw, heffect.flushed, hopen.2]
    · intro bs
      have hnext : (Stream.write t b).1.state = (F.decode t.state b).2.2 := by rw [hw, hstate]
      change (F.decodeAll t.state (b :: bs)).1.flatten =
        (F.decode t.state b).1.flatten ++ (F.decodeAll (Stream.write t b).1.state bs).1.flatten
      rw [hnext, Filter.decodeAll]
      simp only
      rw [if_pos hmore, List.flatten_append]

omit [DecidableEq V] in
/-- A piece put out before the stream ends or fails is part of the payload. -/
theorem DownloadFile.decode_payload (f : DownloadFile F H) (b : List UInt8)
    (bs : List (List UInt8)) : (f.decode b).1.flatten <+: f.payload (b :: bs) := by
  cases f with
  | plain s => exact ⟨bs.flatten, by simp [payload, decode]⟩
  | inflating t =>
    simp only [payload, decode, Filter.decodeAll]
    split
    · rw [List.flatten_append]
      exact List.prefix_append _ _
    · exact List.prefix_rfl

/-- Flushing loses nothing that was kept. -/
theorem DownloadFile.flush_kept (f : DownloadFile F H) :
    StoringStream.kept f.stack <+: StoringStream.kept (flushBuffers f).1.stack := by
  cases f with
  | plain s =>
    change _ <+: StoringStream.kept (flushBuffers s).1
    rewrite [StoringStream.flush_kept s]
    exact List.prefix_rfl
  | inflating t =>
    change _ <+: StoringStream.kept (flushBuffers t).1.f
    simp only [flushBuffers]
    split
    · exact List.prefix_rfl
    · exact (FilteredOutputStream.flushLoop_effect { t with flushed := true }).1

/-! ### Receiving -/

/-- A download that is receiving: its stream is open and everything counted is taken. -/
structure Receiving (tree : Option (MerkleTree V)) (start size : Nat) (d : Download F H)
    (bytes : List UInt8) : Prop where
  stream : d.file.Open
  taken : Taken tree start size d.file.stack bytes
  pos : d.pos = bytes.length

/-- The bytes a transfer carries: the chunks, or what the filter makes of them. -/
def payload (F : Stream.Filter φ) (z : Option φ) (bs : List (List UInt8)) : List UInt8 :=
  match z with
  | none => bs.flatten
  | some st => (F.decodeAll st bs).1.flatten

/-- A new download is receiving and has taken nothing. -/
theorem receiving_new (size : Nat) (succeeds : Nat → Bool) (bufSize : Nat) (z : Option φ)
    (htree : ∀ t, tree = some t → TreeFor t start) :
    Receiving tree start size (Download.new F H succeeds start size bufSize tree z) [] := by
  have htaken := taken_new (H := H) size succeeds (min size bufSize) htree
  cases z with
  | none => exact ⟨trivial, htaken, rfl⟩
  | some st => exact ⟨⟨rfl, rfl⟩, htaken, rfl⟩

/-- The same without the tree, whatever it is. -/
theorem receiving_new_unchecked (size : Nat) (succeeds : Nat → Bool) (bufSize : Nat)
    (z : Option φ) (tree : Option (MerkleTree V)) :
    Receiving none start size (Download.new F H succeeds start size bufSize tree z) [] := by
  cases z with
  | none => exact ⟨trivial, ⟨rfl, by simp [Download.new, DownloadFile.stack], .absent _ _⟩, rfl⟩
  | some st =>
    exact ⟨⟨rfl, rfl⟩, ⟨rfl, by simp [Download.new, DownloadFile.stack], .absent _ _⟩, rfl⟩

omit [DecidableEq V] in
theorem payload_new (succeeds : Nat → Bool) (bufSize : Nat) (z : Option φ)
    (bs : List (List UInt8)) :
    (Download.new F H succeeds start size bufSize tree z).file.payload bs = payload F z bs := by
  cases z <;> rfl

/-- The download after a chunk its stream has taken. -/
def Download.advance (d : Download F H) (b : List UInt8) : Download F H :=
  { d with
    file := (Stream.write d.file b).1
    pos := d.pos + (d.file.decode b).1.flatten.length
    actual := d.actual + b.length }

/-- A chunk that is taken. -/
theorem Receiving.onData_taken {d : Download F H} {bytes b : List UInt8}
    (h : Receiving tree start size d bytes)
    (hfeed : (Stream.feed d.file.stack (d.file.decode b).1).2 = true)
    (hok : (d.file.decode b).2 ≠ .error) :
    (d.onData b = if (d.advance b).file.eof then (d.advance b).endData
        else .running (d.advance b)) ∧
      Taken tree start size (d.advance b).file.stack (bytes ++ (d.file.decode b).1.flatten) ∧
      (d.advance b).pos = (bytes ++ (d.file.decode b).1.flatten).length := by
  obtain ⟨hstack, hres⟩ := d.file.write_spec b h.stream
  rw [if_pos ⟨hfeed, hok⟩] at hres
  refine ⟨?_, ?_, ?_⟩
  · rw [Download.onData, hres]
    rfl
  · rw [Download.advance, hstack]
    exact h.taken.feed hfeed
  · rw [Download.advance, List.length_append, h.pos]

/-- A chunk during which the stream throws. -/
theorem Receiving.onData_thrown {d : Download F H} {bytes b : List UInt8}
    (h : Receiving tree start size d bytes)
    (hthrow : ¬((Stream.feed d.file.stack (d.file.decode b).1).2 = true ∧
      (d.file.decode b).2 ≠ .error)) :
    d.onData b = .failed { d with file := (Stream.write d.file b).1 } ∧
      bytes <+: StoringStream.kept (Stream.write d.file b).1.stack := by
  obtain ⟨hstack, hres⟩ := d.file.write_spec b h.stream
  rw [if_neg hthrow] at hres
  refine ⟨?_, ?_⟩
  · rw [Download.onData, hres]
  · rw [hstack, ← h.taken.kept]
    exact (feed_kept _ _).1

/-- While the filter wants more, the download goes on receiving. -/
theorem Receiving.advance {d : Download F H} {bytes b : List UInt8}
    (h : Receiving tree start size d bytes)
    (hfeed : (Stream.feed d.file.stack (d.file.decode b).1).2 = true)
    (hmore : (d.file.decode b).2 = .more) :
    Receiving tree start size (d.advance b) (bytes ++ (d.file.decode b).1.flatten) ∧
      ∀ bs, d.file.payload (b :: bs) =
        (d.file.decode b).1.flatten ++ (d.advance b).file.payload bs := by
  have hok : (d.file.decode b).2 ≠ .error := by
    rw [hmore]
    simp
  obtain ⟨-, htaken, hpos⟩ := h.onData_taken hfeed hok
  have hret : (Stream.write d.file b).2.isSome = true := by
    rw [(d.file.write_spec b h.stream).2, if_pos ⟨hfeed, hok⟩]
    rfl
  obtain ⟨hopen, hpayload⟩ := d.file.write_next b h.stream hret hmore
  exact ⟨⟨hopen, htaken, hpos⟩, hpayload⟩

/-- A stream that has ended is at its end of file. -/
theorem Receiving.eof_of_ended {d : Download F H} {bytes b : List UInt8}
    (h : Receiving tree start size d bytes)
    (hfeed : (Stream.feed d.file.stack (d.file.decode b).1).2 = true)
    (hended : (d.file.decode b).2 = .ended) : (d.advance b).file.eof = true := by
  have hret : (Stream.write d.file b).2.isSome = true := by
    rw [(d.file.write_spec b h.stream).2, if_pos ⟨hfeed, by simp [hended]⟩]
    rfl
  rcases d with ⟨file, size, treeBlockSize, pos, actual⟩
  cases file with
  | plain s => simp [DownloadFile.decode] at hended
  | inflating t =>
    have heffect := FilteredOutputStream.writeLoop_effect t b 0 h.stream.1
    have hw : Stream.write t b = t.writeLoop b 0 := by
      have := h.stream.2
      simp only [Stream.write]
      rw [this]
      rfl
    have hsome : (t.writeLoop b 0).2.isSome = true := hw ▸ hret
    simp only [DownloadFile.decode] at hended
    change (!(Stream.write t b).1.more) = true
    rw [hw, (heffect.state hsome).2, hended]
    rfl

end Blacklink.Transfer
