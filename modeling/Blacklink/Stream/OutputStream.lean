import Blacklink.Stream.MerkleCheckOutputStream

/-!
# The output streams of a download

Model of the streams a download is written through: `SharedFileStream`
(`client/SharedFileStream.cpp:258-311`), `BufferedOutputStream` and `LimitedOutputStream`
(`client/Streams.h:156-264`), `MerkleCheckOutputStream` and `FilteredOutputStream`
(`client/FilteredFile.h:40-120`). Each is generic in the stream below it, like the C++ classes.
An operation returns the state it leaves behind, also when it throws; which write to the file
fails is up to the environment. The `force` argument of `flushBuffers` only tells the operating
system how to flush and is left out.
-/

namespace Blacklink.Stream

open Blacklink.Hash

/-- `OutputStream`. `write` returns the number of bytes, or `none` when it throws;
`flushBuffers` whether it returned; `close` is the destructor. -/
class OutputStream (σ : Type) where
  write : σ → List UInt8 → σ × Option Nat
  flushBuffers : σ → σ × Bool
  close : σ → σ

export OutputStream (write flushBuffers close)

/-- `SharedFileStream` on the target file, positioned at the start of the segment. `data` are
the bytes written so far from there on: a failed write does not move the position. The `n`-th
write call succeeds when `succeeds n`. -/
structure TargetFile where
  succeeds : Nat → Bool
  calls : Nat
  data : List UInt8

/-- `SharedFileStream::flushBuffers` swallows every exception. -/
instance : OutputStream TargetFile where
  write f b :=
    if f.succeeds f.calls then
      ({ f with calls := f.calls + 1, data := f.data ++ b }, some b.length)
    else ({ f with calls := f.calls + 1 }, none)
  flushBuffers f := (f, true)
  close f := f

/-! ### Buffering -/

/-- `BufferedOutputStream`. `buf` are the first `pos` bytes of the buffer. -/
structure BufferedOutputStream (σ : Type) where
  s : σ
  buf : List UInt8
  bufSize : Nat

namespace BufferedOutputStream

variable {σ : Type} [OutputStream σ]

/-- The loop of `write`. The position never exceeds `bufSize`, so the test for a full buffer
reads `bufSize ≤ pos`. A throw leaves the full buffer as it is. -/
def writeLoop (t : BufferedOutputStream σ) (b : List UInt8) : BufferedOutputStream σ × Bool :=
  if b = [] then (t, true)
  else if t.buf = [] ∧ b.length ≥ t.bufSize then
    let r := write t.s b
    ({ t with s := r.1 }, r.2.isSome)
  else
    let n := min (t.bufSize - t.buf.length) b.length
    let buf := t.buf ++ b.take n
    if buf.length ≥ t.bufSize then
      let r := write t.s buf
      if r.2.isSome then writeLoop { t with s := r.1, buf := [] } (b.drop n)
      else ({ t with s := r.1, buf := buf }, false)
    else ({ t with buf := buf }, true)
termination_by (b.length, t.buf.length)
decreasing_by
  rename_i hb hdirect _ _
  have hpos : 0 < b.length := List.length_pos_iff.mpr hb
  by_cases hn : min (t.bufSize - t.buf.length) b.length = 0
  · have hbuf : 0 < t.buf.length := by
      rw [List.length_pos_iff]
      intro h0
      rw [h0, List.length_nil] at hn
      exact hdirect ⟨h0, by omega⟩
    apply Prod.Lex.right'
    · rw [List.length_drop]
      omega
    · exact hbuf
  · apply Prod.Lex.left
    rw [List.length_drop]
    omega

/-- `flushBuffers`. The stream below is flushed too, which cannot fail here. -/
def flush (t : BufferedOutputStream σ) : BufferedOutputStream σ × Bool :=
  if t.buf = [] then
    let f := flushBuffers t.s
    ({ t with s := f.1 }, f.2)
  else
    let r := write t.s t.buf
    if r.2.isSome then
      let f := flushBuffers r.1
      ({ t with s := f.1, buf := [] }, f.2)
    else ({ t with s := r.1 }, false)

/-- The destructor flushes and swallows the exception. -/
instance : OutputStream (BufferedOutputStream σ) where
  write t b :=
    let r := t.writeLoop b
    (r.1, if r.2 then some b.length else none)
  flushBuffers := flush
  close t :=
    let r := t.flush
    { r.1 with s := close r.1.s }

end BufferedOutputStream

/-! ### Verification and limit -/

/-- The verifying stream and the stream below it. It is only inserted when the download has a
tree; without one (`none`) the calls go straight through. -/
structure VerifiedStream {V : Type} (H : Hasher V) (σ : Type) where
  check : Option (MerkleCheckOutputStream V)
  s : σ

/-- `MerkleCheckOutputStream::write` and `flushBuffers`: the stream below is not called after
an exception. -/
instance {V σ : Type} (H : Hasher V) [DecidableEq V] [OutputStream σ] :
    OutputStream (VerifiedStream H σ) where
  write t b :=
    match t.check with
    | none =>
      let r := write t.s b
      ({ t with s := r.1 }, r.2)
    | some c =>
      let r := c.write H b
      if r.2 then
        let w := write t.s b
        ({ check := some r.1, s := w.1 }, w.2)
      else ({ t with check := some r.1 }, none)
  flushBuffers t :=
    match t.check with
    | none =>
      let r := flushBuffers t.s
      ({ t with s := r.1 }, r.2)
    | some c =>
      let r := c.flushBuffers H
      if r.2 then
        let f := flushBuffers t.s
        ({ check := some r.1, s := f.1 }, f.2)
      else ({ t with check := some r.1 }, false)
  close t := { t with s := close t.s }

/-- `LimitedOutputStream`. -/
structure LimitedOutputStream (σ : Type) where
  s : σ
  maxBytes : Nat

/-- The limit is charged before the stream below is called. -/
instance {σ : Type} [OutputStream σ] : OutputStream (LimitedOutputStream σ) where
  write t b :=
    if t.maxBytes < b.length then (t, none)
    else
      let r := write t.s b
      ({ s := r.1, maxBytes := t.maxBytes - b.length }, r.2)
  flushBuffers t :=
    let r := flushBuffers t.s
    ({ t with s := r.1 }, r.2)
  close t := { t with s := close t.s }

/-- `LimitedOutputStream::eof`. -/
def LimitedOutputStream.eof {σ : Type} (t : LimitedOutputStream σ) : Bool := t.maxBytes == 0

/-! ### Decompression -/

/-- What a call of the filter says: there is more to come, the compressed stream has ended, or
it threw. -/
inductive FilterStatus where
  | more
  | ended
  | error
  deriving DecidableEq

/-- The effect of one call of the filter. -/
structure FilterResult (φ : Type) where
  consumed : Nat
  out : List UInt8
  status : FilterStatus
  next : φ

/-- `UnZFilter`, as far as the stream relies on it. `inflate` returns `Z_OK` only when it has
made progress: it has taken input, or has put out some of the finitely many bytes it still
holds, which `rank` bounds. -/
structure Filter (φ : Type) where
  apply : φ → List UInt8 → FilterResult φ
  rank : φ → Nat
  progress : ∀ st inp, (apply st inp).status = .more →
    0 < (apply st inp).consumed ∧ inp ≠ [] ∨ rank (apply st inp).next < rank st ∧
      (apply st inp).consumed = 0

/-- `FilteredOutputStream<UnZFilter>`. -/
structure FilteredOutputStream {φ : Type} (F : Filter φ) (σ : Type) where
  f : σ
  state : φ
  more : Bool
  flushed : Bool

namespace FilteredOutputStream

variable {φ σ : Type} {F : Filter φ} [OutputStream σ]

/-- The loop of `write`; `written` is what the earlier rounds have written. -/
def writeLoop (t : FilteredOutputStream F σ) (b : List UInt8) (written : Nat) :
    FilteredOutputStream F σ × Option Nat :=
  if b = [] then (t, some written)
  else
    let r := F.apply t.state b
    if r.status = .error then ({ t with state := r.next }, none)
    else
      let w := if r.out = [] then (t.f, some 0) else write t.f r.out
      let t' : FilteredOutputStream F σ :=
        { t with f := w.1, state := r.next, more := r.status = .more }
      if w.2.isSome then
        if r.status = .more then writeLoop t' (b.drop r.consumed) (written + w.2.getD 0)
        else if b.drop r.consumed = [] then (t', some (written + w.2.getD 0))
        else (t', none)
      else (t', none)
termination_by (b.length, F.rank t.state)
decreasing_by
  rename_i hb _ _ hmore
  have hpos : 0 < b.length := List.length_pos_iff.mpr hb
  rcases F.progress t.state b hmore with ⟨hc, -⟩ | ⟨hr, hc⟩
  · apply Prod.Lex.left
    rw [List.length_drop]
    omega
  · rw [hc, List.drop_zero]
    exact Prod.Lex.right _ hr

/-- The loop of `flushBuffers`: the filter is called without input until it has no more, and
every output is written, also an empty one. -/
def flushLoop (t : FilteredOutputStream F σ) : FilteredOutputStream F σ × Bool :=
  let r := F.apply t.state []
  if r.status = .error then ({ t with state := r.next }, false)
  else
    let w := write t.f r.out
    let t' : FilteredOutputStream F σ :=
      { t with f := w.1, state := r.next, more := r.status = .more }
    if w.2.isSome then
      if r.status = .more then flushLoop t'
      else
        let f := flushBuffers t'.f
        ({ t' with f := f.1 }, f.2)
    else (t', false)
termination_by F.rank t.state
decreasing_by
  rename_i hmore
  rcases F.progress t.state [] hmore with ⟨-, hc⟩ | ⟨hr, -⟩
  · exact absurd rfl hc
  · exact hr

instance : OutputStream (FilteredOutputStream F σ) where
  write t b := if t.flushed then (t, none) else t.writeLoop b 0
  flushBuffers t := if t.flushed then (t, true) else flushLoop { t with flushed := true }
  close t := { t with f := close t.f }

/-- `FilteredOutputStream::eof`. -/
def eof (t : FilteredOutputStream F σ) : Bool := !t.more

end FilteredOutputStream

/-- The streams below a filter: the limit on the verification on the buffer on the file. -/
abbrev FileStack {V : Type} (H : Hasher V) :=
  LimitedOutputStream (VerifiedStream H (BufferedOutputStream TargetFile))

end Blacklink.Stream
