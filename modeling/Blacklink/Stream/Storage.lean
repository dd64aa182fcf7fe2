import Mathlib.Data.List.Infix
import Blacklink.Stream.OutputStream

/-!
# What the streams keep

`StoringStream` states what the streams below a filter have in common: bytes that were taken
are kept, in the target file or in the buffer, and neither a failed write nor a swallowed
exception loses them; a flush that returns has moved all of them to the file.
-/

namespace Blacklink.Stream

open Blacklink.Hash

/-- A stream that ends in a file: `written` is in the file, `kept` in the file or in a buffer. -/
class StoringStream (σ : Type) [OutputStream σ] where
  written : σ → List UInt8
  kept : σ → List UInt8
  written_le (s : σ) : written s <+: kept s
  write_some (s : σ) (b : List UInt8) (n : Nat) (h : (write s b).2 = some n) :
    n = b.length ∧ kept (write s b).1 = kept s ++ b
  write_kept (s : σ) (b : List UInt8) : kept s <+: kept (write s b).1
  write_le (s : σ) (b : List UInt8) : kept (write s b).1 <+: kept s ++ b
  write_written (s : σ) (b : List UInt8) : written s <+: written (write s b).1
  flush_kept (s : σ) : kept (flushBuffers s).1 = kept s
  flush_mono (s : σ) : written s <+: written (flushBuffers s).1
  flush_written (s : σ) (h : (flushBuffers s).2 = true) : written (flushBuffers s).1 = kept s
  close_kept (s : σ) : kept (close s) = kept s
  close_mono (s : σ) : written s <+: written (close s)

namespace StoringStream

variable {σ : Type} [OutputStream σ] [StoringStream σ]

/-- Nothing is left to write, so a further flush writes nothing. -/
theorem flush_of_written (s : σ) (h : written s = kept s) :
    written (flushBuffers s).1 = written s ∧
      written (flushBuffers s).1 = kept (flushBuffers s).1 := by
  have hle := written_le (flushBuffers s).1
  have hmono := flush_mono s
  rw [flush_kept] at hle ⊢
  rw [← h] at hle ⊢
  have heq : written (flushBuffers s).1 = written s := hle.eq_of_length_le hmono.length_le
  exact ⟨heq, heq⟩

theorem close_of_written (s : σ) (h : written s = kept s) :
    written (close s) = written s := by
  have hle := written_le (close s)
  rw [close_kept, ← h] at hle
  exact hle.eq_of_length_le (close_mono s).length_le

end StoringStream

/-! ### The buffer on the file -/

namespace BufferedOutputStream

abbrev FileBuffer := BufferedOutputStream TargetFile

private theorem write_file_isSome {f : TargetFile} {b : List UInt8}
    (h : (write f b).2.isSome = true) : (write f b).1.data = f.data ++ b := by
  simp only [write] at h ⊢
  split at h
  · next hs => simp [hs]
  · simp at h

private theorem write_file_mono (f : TargetFile) (b : List UInt8) :
    f.data <+: (write f b).1.data := by
  simp only [write]
  split
  · exact List.prefix_append _ _
  · exact List.prefix_rfl

private theorem write_file_none {f : TargetFile} {b : List UInt8}
    (h : ¬(write f b).2.isSome = true) : (write f b).1.data = f.data := by
  simp only [write] at h ⊢
  split at h
  · simp at h
  · next hs => simp [hs]

-- what the loop keeps: the bytes taken before, and all of `b` when it returns
private theorem writeLoop_kept (t : FileBuffer) (b : List UInt8) :
    t.s.data ++ t.buf <+: (t.writeLoop b).1.s.data ++ (t.writeLoop b).1.buf ∧
      ((t.writeLoop b).2 = true →
        (t.writeLoop b).1.s.data ++ (t.writeLoop b).1.buf = t.s.data ++ t.buf ++ b) ∧
      t.s.data <+: (t.writeLoop b).1.s.data := by
  induction t, b using writeLoop.induct with
  | case1 t =>
    rw [writeLoop]
    simp
  | case2 t b hb hdirect =>
    rw [writeLoop, if_neg hb, if_pos hdirect]
    have hmono := write_file_mono t.s b
    refine ⟨by simpa [hdirect.1] using hmono, ?_, hmono⟩
    intro hret
    simp [hdirect.1, write_file_isSome hret]
  | case3 t b hb hdirect n buf hfull r hret ih =>
    have heq : t.writeLoop b = writeLoop { t with s := r.1, buf := [] } (b.drop n) := by
      rw [writeLoop, if_neg hb, if_neg hdirect]
      exact (if_pos hfull).trans (if_pos hret)
    have hdata : r.1.data = t.s.data ++ buf := write_file_isSome hret
    simp only [hdata, List.append_nil] at ih
    obtain ⟨ih1, ih2, ih3⟩ := ih
    have hstep : t.s.data ++ t.buf <+: t.s.data ++ buf :=
      (List.prefix_append_right_inj _).mpr (List.prefix_append _ _)
    rw [heq]
    refine ⟨hstep.trans ih1, ?_, (List.prefix_append _ _).trans ih3⟩
    intro hall
    rw [ih2 hall, show buf = t.buf ++ b.take n from rfl]
    simp
  | case4 t b hb hdirect n buf hfull r hret =>
    have heq : t.writeLoop b = ({ t with s := r.1, buf := buf }, false) := by
      rw [writeLoop, if_neg hb, if_neg hdirect]
      exact (if_pos hfull).trans (if_neg hret)
    have hdata : r.1.data = t.s.data := write_file_none hret
    rw [heq]
    simp only [hdata, Bool.false_eq_true, false_implies, true_and]
    exact ⟨(List.prefix_append_right_inj _).mpr (List.prefix_append _ _), List.prefix_rfl⟩
  | case5 t b hb hdirect n buf hfull =>
    have heq : t.writeLoop b = ({ t with buf := buf }, true) := by
      rw [writeLoop, if_neg hb, if_neg hdirect]
      exact if_neg hfull
    have hn : b.take n = b := by
      apply List.take_of_length_le
      simp only [buf, n, List.length_append, List.length_take] at hfull
      omega
    rw [heq]
    refine ⟨(List.prefix_append_right_inj _).mpr (List.prefix_append _ _), ?_, List.prefix_rfl⟩
    intro _
    simp only [buf, hn, List.append_assoc]

-- the loop adds nothing but bytes of `b`
private theorem writeLoop_le (t : FileBuffer) (b : List UInt8) :
    (t.writeLoop b).1.s.data ++ (t.writeLoop b).1.buf <+: t.s.data ++ t.buf ++ b := by
  by_cases hret : (t.writeLoop b).2 = true
  · rw [(writeLoop_kept t b).2.1 hret]
  · induction t, b using writeLoop.induct with
    | case1 t =>
      rw [writeLoop] at hret
      simp at hret
    | case2 t b hb hdirect =>
      rw [writeLoop, if_neg hb, if_pos hdirect] at hret ⊢
      simp only at hret
      rw [write_file_none hret]
      exact List.prefix_append _ _
    | case3 t b hb hdirect n buf hfull r hok ih =>
      have heq : t.writeLoop b = writeLoop { t with s := r.1, buf := [] } (b.drop n) := by
        rw [writeLoop, if_neg hb, if_neg hdirect]
        exact (if_pos hfull).trans (if_pos hok)
      have hdata : r.1.data = t.s.data ++ buf := write_file_isSome hok
      rw [heq] at hret ⊢
      have hle := ih hret
      simp only [hdata, List.append_nil, buf, n] at hle
      simpa [List.append_assoc, n] using hle
    | case4 t b hb hdirect n buf hfull r hno =>
      have heq : t.writeLoop b = ({ t with s := r.1, buf := buf }, false) := by
        rw [writeLoop, if_neg hb, if_neg hdirect]
        exact (if_pos hfull).trans (if_neg hno)
      have hdata : r.1.data = t.s.data := write_file_none hno
      rw [heq, hdata, List.append_assoc]
      apply (List.prefix_append_right_inj _).mpr
      apply (List.prefix_append_right_inj _).mpr
      exact List.take_prefix _ _
    | case5 t b hb hdirect n buf hfull =>
      have heq : t.writeLoop b = ({ t with buf := buf }, true) := by
        rw [writeLoop, if_neg hb, if_neg hdirect]
        exact if_neg hfull
      rw [heq] at hret
      exact absurd rfl hret

private theorem flush_kept' (t : FileBuffer) :
    t.flush.1.s.data ++ t.flush.1.buf = t.s.data ++ t.buf ∧ t.s.data <+: t.flush.1.s.data ∧
      (t.flush.2 = true → t.flush.1.s.data = t.s.data ++ t.buf) := by
  rw [flush]
  split
  · next h =>
    simp only [flushBuffers, h, List.append_nil, implies_true, and_true, true_and]
    exact List.prefix_rfl
  · simp only
    split
    · next hret =>
      have hdata := write_file_isSome hret
      simp only [flushBuffers, hdata, List.append_nil, implies_true, and_true, true_and]
      exact List.prefix_append _ _
    · next hret =>
      have hdata := write_file_none hret
      simp only [hdata, Bool.false_eq_true, false_implies, and_true, true_and]
      exact List.prefix_rfl

instance : StoringStream FileBuffer where
  written t := t.s.data
  kept t := t.s.data ++ t.buf
  written_le t := List.prefix_append _ _
  write_some t b n h := by
    simp only [write] at h ⊢
    split at h
    · next hret => exact ⟨(Option.some_inj.mp h).symm, (writeLoop_kept t b).2.1 hret⟩
    · simp at h
  write_kept t b := (writeLoop_kept t b).1
  write_le t b := writeLoop_le t b
  write_written t b := (writeLoop_kept t b).2.2
  flush_kept t := (flush_kept' t).1
  flush_mono t := (flush_kept' t).2.1
  flush_written t h := (flush_kept' t).2.2 h
  close_kept t := (flush_kept' t).1
  close_mono t := (flush_kept' t).2.1

end BufferedOutputStream

/-! ### The streams above the buffer -/

section Above

variable {V σ : Type} {H : Hasher V} [DecidableEq V] [OutputStream σ] [StoringStream σ]

instance : StoringStream (VerifiedStream H σ) where
  written t := StoringStream.written t.s
  kept t := StoringStream.kept t.s
  written_le t := StoringStream.written_le t.s
  write_some t b n h := by
    simp only [write] at h ⊢
    split at h
    · exact StoringStream.write_some t.s b n h
    · split at h
      · next hret =>
        simp only [hret, if_true]
        exact StoringStream.write_some t.s b n h
      · simp at h
  write_kept t b := by
    simp only [write]
    split
    · exact StoringStream.write_kept t.s b
    · split
      · exact StoringStream.write_kept t.s b
      · exact List.prefix_rfl
  write_le t b := by
    simp only [write]
    split
    · exact StoringStream.write_le t.s b
    · split
      · exact StoringStream.write_le t.s b
      · exact List.prefix_append _ _
  write_written t b := by
    simp only [write]
    split
    · exact StoringStream.write_written t.s b
    · split
      · exact StoringStream.write_written t.s b
      · exact List.prefix_rfl
  flush_kept t := by
    simp only [flushBuffers]
    split
    · exact StoringStream.flush_kept t.s
    · split
      · exact StoringStream.flush_kept t.s
      · rfl
  flush_mono t := by
    simp only [flushBuffers]
    split
    · exact StoringStream.flush_mono t.s
    · split
      · exact StoringStream.flush_mono t.s
      · exact List.prefix_rfl
  flush_written t h := by
    simp only [flushBuffers] at h ⊢
    split at h
    · exact StoringStream.flush_written t.s h
    · split at h
      · next hret =>
        simp only [hret, if_true]
        exact StoringStream.flush_written t.s h
      · simp at h
  close_kept t := StoringStream.close_kept t.s
  close_mono t := StoringStream.close_mono t.s

instance : StoringStream (LimitedOutputStream σ) where
  written t := StoringStream.written t.s
  kept t := StoringStream.kept t.s
  written_le t := StoringStream.written_le t.s
  write_some t b n h := by
    simp only [write] at h ⊢
    split at h
    · simp at h
    · next hle =>
      rw [if_neg hle]
      exact StoringStream.write_some t.s b n h
  write_kept t b := by
    simp only [write]
    split
    · exact List.prefix_rfl
    · exact StoringStream.write_kept t.s b
  write_le t b := by
    simp only [write]
    split
    · exact List.prefix_append _ _
    · exact StoringStream.write_le t.s b
  write_written t b := by
    simp only [write]
    split
    · exact List.prefix_rfl
    · exact StoringStream.write_written t.s b
  flush_kept t := StoringStream.flush_kept t.s
  flush_mono t := StoringStream.flush_mono t.s
  flush_written t h := StoringStream.flush_written t.s h
  close_kept t := StoringStream.close_kept t.s
  close_mono t := StoringStream.close_mono t.s

end Above

end Blacklink.Stream
