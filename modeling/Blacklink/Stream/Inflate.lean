import Blacklink.Stream.Storage

/-!
# Decompression as a function of the compressed stream

`FilteredOutputStream::write` interleaves calls of the filter with writes to the stream below.
Seen apart, the filter turns the compressed chunks into a list of pieces and a status
(`decode`), and the pieces are written one after the other (`feed`) until one throws.
-/

namespace Blacklink.Stream

open StoringStream

/-- Write the pieces in order, up to the first that throws. -/
def feed {σ : Type} [OutputStream σ] (s : σ) : List (List UInt8) → σ × Bool
  | [] => (s, true)
  | p :: ps =>
    let r := write s p
    if r.2.isSome then feed r.1 ps else (r.1, false)

section Feed

variable {σ : Type} [OutputStream σ]

/-- A property of a stream that its operations keep, whether they return or throw. -/
structure Stable (P : σ → Prop) : Prop where
  write : ∀ s b, P s → P (write s b).1
  flush : ∀ s, P s → P (flushBuffers s).1
  close : ∀ s, P s → P (close s)

theorem Stable.feed {P : σ → Prop} (h : Stable P) {s : σ} (hs : P s) (ps : List (List UInt8)) :
    P (feed s ps).1 := by
  induction ps generalizing s with
  | nil => exact hs
  | cons p ps ih =>
    have hnext := h.write s p hs
    rw [Stream.feed]
    split
    · exact ih hnext
    · exact hnext

theorem feed_append (s : σ) (ps qs : List (List UInt8)) :
    feed s (ps ++ qs) = if (feed s ps).2 then feed (feed s ps).1 qs else feed s ps := by
  induction ps generalizing s with
  | nil => simp [feed]
  | cons p ps ih =>
    simp only [List.cons_append, feed]
    split
    · exact ih _
    · simp

variable [StoringStream σ]

/-- What was taken before stays; pieces that were all taken are kept in order. -/
theorem feed_kept (s : σ) (ps : List (List UInt8)) :
    kept s <+: kept (feed s ps).1 ∧
      ((feed s ps).2 = true → kept (feed s ps).1 = kept s ++ ps.flatten) := by
  induction ps generalizing s with
  | nil => simp [feed]
  | cons p ps ih =>
    obtain ⟨ih1, ih2⟩ := ih (write s p).1
    have hmono := write_kept s p
    rw [feed]
    split
    · next hret =>
      obtain ⟨n, hn⟩ := Option.isSome_iff_exists.mp hret
      refine ⟨hmono.trans ih1, ?_⟩
      intro hall
      rw [ih2 hall, (write_some s p n hn).2, List.flatten_cons, List.append_assoc]
    · exact ⟨hmono, by simp⟩

end Feed

namespace Filter

variable {φ : Type} (F : Filter φ)

/-- The filter on one chunk: the pieces it puts out, and whether it wants more, has ended with
the chunk, or has failed. Input after the end of the stream is a failure. -/
def decode (st : φ) (b : List UInt8) : List (List UInt8) × FilterStatus × φ :=
  if b = [] then ([], .more, st)
  else
    let r := F.apply st b
    let piece := if r.out = [] then [] else [r.out]
    if r.status = .error then ([], .error, r.next)
    else if r.status = .more then
      let d := decode r.next (b.drop r.consumed)
      (piece ++ d.1, d.2)
    else (piece, if b.drop r.consumed = [] then .ended else .error, r.next)
termination_by (b.length, F.rank st)
decreasing_by
  rename_i hb _ hmore
  have hpos : 0 < b.length := List.length_pos_iff.mpr hb
  rcases F.progress st b hmore with ⟨hc, -⟩ | ⟨hr, hc⟩
  · apply Prod.Lex.left
    rw [List.length_drop]
    omega
  · rw [hc, List.drop_zero]
    exact Prod.Lex.right _ hr

/-- The filter on a sequence of chunks, up to the end of the stream. -/
def decodeAll (st : φ) : List (List UInt8) → List (List UInt8) × FilterStatus × φ
  | [] => ([], .more, st)
  | b :: bs =>
    let d := F.decode st b
    if d.2.1 = .more then
      let e := decodeAll d.2.2 bs
      (d.1 ++ e.1, e.2)
    else d

/-- The pieces of the final flush; `none` when the filter throws. -/
def decodeFlush (st : φ) : Option (List (List UInt8)) :=
  let r := F.apply st []
  if r.status = .error then none
  else if r.status = .more then (decodeFlush r.next).map (r.out :: ·)
  else some [r.out]
termination_by F.rank st
decreasing_by
  rename_i hmore
  rcases F.progress st [] hmore with ⟨-, hc⟩ | ⟨hr, -⟩
  · exact absurd rfl hc
  · exact hr

/-- A filter that passes every chunk on and takes it for a whole stream. -/
def wholeChunk : Filter Unit where
  apply _ b := ⟨b.length, b, .ended, ()⟩
  rank _ := 0
  progress := by simp

end Filter

namespace FilteredOutputStream

variable {φ σ : Type} {F : Filter φ} [OutputStream σ]

private theorem flushLoop_stable {P : σ → Prop} (h : Stable P) {t : FilteredOutputStream F σ}
    (ht : P t.f) : P t.flushLoop.1.f := by
  induction t using flushLoop.induct with
  | case1 t r herr =>
    rw [flushLoop, if_pos herr]
    exact ht
  | case2 t r herr w t' hw hmore ih =>
    have heq : t.flushLoop = t'.flushLoop := by
      rw [flushLoop]
      exact (if_neg herr).trans ((if_pos hw).trans (if_pos hmore))
    rw [heq]
    exact ih (h.write t.f r.out ht)
  | case3 t r herr w hw hmore =>
    have heq : t.flushLoop = (⟨(flushBuffers w.1).1, r.next, r.status = .more, t.flushed⟩,
        (flushBuffers w.1).2) := by
      rw [flushLoop]
      exact (if_neg herr).trans ((if_pos hw).trans (if_neg hmore))
    rw [heq]
    exact h.flush _ (h.write t.f r.out ht)
  | case4 t r herr w hw =>
    have heq : t.flushLoop = (⟨w.1, r.next, r.status = .more, t.flushed⟩, false) := by
      rw [flushLoop]
      exact (if_neg herr).trans (if_neg hw)
    rw [heq]
    exact h.write t.f r.out ht

/-- The flush of a filter keeps what the flush and the writes below keep. -/
theorem flush_stable {P : σ → Prop} (h : Stable P) {t : FilteredOutputStream F σ} (ht : P t.f) :
    P (flushBuffers t).1.f := by
  simp only [flushBuffers]
  split
  · exact ht
  · exact flushLoop_stable (t := { t with flushed := true }) h ht

variable [StoringStream σ]

-- writing the piece of one round, if there is one
omit [StoringStream σ] in
private theorem feed_piece (s : σ) (out : List UInt8) :
    feed s (if out = [] then [] else [out]) =
      ((if out = [] then (s, some 0) else write s out).1,
        (if out = [] then (s, some 0) else write s out).2.isSome) := by
  by_cases h : out = []
  · simp [h, feed]
  · simp only [h, if_false, feed]
    split
    · next hr => simp [hr]
    · next hr => simp [Bool.eq_false_iff.mpr hr]

private theorem piece_length {s : σ} {out : List UInt8}
    (h : (if out = [] then (s, some 0) else write s out).2.isSome = true) :
    (if out = [] then (s, some 0) else write s out).2.getD 0 =
      (if out = [] then [] else [out]).flatten.length := by
  by_cases h0 : out = []
  · simp [h0]
  · simp only [h0, if_false] at h ⊢
    obtain ⟨k, hk⟩ := Option.isSome_iff_exists.mp h
    simpa [hk] using (write_some s out k hk).1

/-- What a `write` call does, told from the filter and the stream below. -/
structure WriteEffect (t : FilteredOutputStream F σ) (b : List UInt8) (n : Nat)
    (r : FilteredOutputStream F σ × Option Nat) : Prop where
  below : r.1.f = (feed t.f (F.decode t.state b).1).1
  flushed : r.1.flushed = t.flushed
  result : r.2 = if (feed t.f (F.decode t.state b).1).2 = true ∧
      (F.decode t.state b).2.1 ≠ .error then
    some (n + (F.decode t.state b).1.flatten.length) else none
  state : r.2.isSome = true → r.1.state = (F.decode t.state b).2.2 ∧
    r.1.more = ((F.decode t.state b).2.1 == .more)

/-- The loop of `write` is the filter on the chunk and the pieces on the stream below. -/
theorem writeLoop_effect (t : FilteredOutputStream F σ) (b : List UInt8) (n : Nat)
    (hopen : t.more = true) : WriteEffect t b n (t.writeLoop b n) := by
  induction t, b, n using writeLoop.induct with
  | case1 t n =>
    rw [writeLoop, if_pos rfl]
    constructor <;> simp [Filter.decode, feed, hopen]
  | case2 t b n hb r herr =>
    have heq : t.writeLoop b n = ({ t with state := r.next }, none) := by
      rw [writeLoop, if_neg hb]
      exact if_pos herr
    have hdec : F.decode t.state b = ([], .error, r.next) := by
      rw [Filter.decode, if_neg hb]
      exact if_pos herr
    rw [heq]
    constructor <;> simp [hdec, feed]
  | case3 t b n hb r herr w t' hw hmore ih =>
    have heq : t.writeLoop b n = t'.writeLoop (b.drop r.consumed) (n + w.2.getD 0) := by
      rw [writeLoop, if_neg hb]
      exact (if_neg herr).trans ((if_pos hw).trans (if_pos hmore))
    have hdec : F.decode t.state b = ((if r.out = [] then [] else [r.out]) ++
        (F.decode t'.state (b.drop r.consumed)).1, (F.decode t'.state (b.drop r.consumed)).2) := by
      rw [Filter.decode, if_neg hb]
      exact (if_neg herr).trans (if_pos hmore)
    have hfeed : feed t.f (F.decode t.state b).1 =
        feed t'.f (F.decode t'.state (b.drop r.consumed)).1 := by
      rw [hdec, feed_append, feed_piece]
      exact if_pos hw
    have hlen : w.2.getD 0 = (if r.out = [] then [] else [r.out]).flatten.length :=
      piece_length hw
    obtain ⟨h1, h2, h3, h4⟩ := ih (by simp [t', hmore])
    rw [heq]
    refine ⟨by rw [hfeed, h1], h2, ?_, ?_⟩
    · rw [h3, hfeed, hdec, hlen, List.flatten_append, List.length_append, Nat.add_assoc]
    · rw [hdec]
      exact h4
  | case4 t b n hb r herr w hw hmore hrest =>
    have heq : t.writeLoop b n = (⟨w.1, r.next, r.status = .more, t.flushed⟩,
        some (n + w.2.getD 0)) := by
      rw [writeLoop, if_neg hb]
      exact (if_neg herr).trans ((if_pos hw).trans ((if_neg hmore).trans (if_pos hrest)))
    have hdec : F.decode t.state b = (if r.out = [] then [] else [r.out], .ended, r.next) := by
      rw [Filter.decode, if_neg hb]
      refine ((if_neg herr).trans (if_neg hmore)).trans ?_
      rw [if_pos hrest]
    have hlen : w.2.getD 0 = (if r.out = [] then [] else [r.out]).flatten.length :=
      piece_length hw
    have hfeed : feed t.f (if r.out = [] then [] else [r.out]) = (w.1, w.2.isSome) :=
      feed_piece t.f r.out
    rw [heq]
    constructor
    · rw [hdec, hfeed]
    · rfl
    · simp [hdec, hfeed, hw, hlen]
    · simp [hdec, hmore]
  | case5 t b n hb r herr w hw hmore hrest =>
    have heq : t.writeLoop b n = (⟨w.1, r.next, r.status = .more, t.flushed⟩, none) := by
      rw [writeLoop, if_neg hb]
      exact (if_neg herr).trans ((if_pos hw).trans ((if_neg hmore).trans (if_neg hrest)))
    have hdec : F.decode t.state b = (if r.out = [] then [] else [r.out], .error, r.next) := by
      rw [Filter.decode, if_neg hb]
      refine ((if_neg herr).trans (if_neg hmore)).trans ?_
      rw [if_neg hrest]
    have hfeed : feed t.f (if r.out = [] then [] else [r.out]) = (w.1, w.2.isSome) :=
      feed_piece t.f r.out
    rw [heq]
    constructor
    · rw [hdec, hfeed]
    · rfl
    · simp [hdec]
    · simp
  | case6 t b n hb r herr w hw =>
    have heq : t.writeLoop b n = (⟨w.1, r.next, r.status = .more, t.flushed⟩, none) := by
      rw [writeLoop, if_neg hb]
      exact (if_neg herr).trans (if_neg hw)
    -- whatever the filter would put out next, the first piece is not taken
    have hhead : ∃ ps, (F.decode t.state b).1 = (if r.out = [] then [] else [r.out]) ++ ps := by
      rw [Filter.decode, if_neg hb]
      by_cases hmore : r.status = .more
      · exact ⟨_, congrArg Prod.fst ((if_neg herr).trans (if_pos hmore))⟩
      · exact ⟨[], by
          rw [List.append_nil]
          exact congrArg Prod.fst ((if_neg herr).trans (if_neg hmore))⟩
    obtain ⟨ps, hps⟩ := hhead
    have hfeed : feed t.f (F.decode t.state b).1 = (w.1, false) := by
      have hpiece : feed t.f (if r.out = [] then [] else [r.out]) = (w.1, w.2.isSome) :=
        feed_piece t.f r.out
      rw [hps, feed_append, hpiece, Bool.eq_false_iff.mpr hw]
      rfl
    rw [heq]
    constructor
    · rw [hfeed]
    · rfl
    · simp [hfeed]
    · simp

/-- The loop of `flushBuffers` is the filter without input, the pieces on the stream below and
its flush. -/
theorem flushLoop_effect (t : FilteredOutputStream F σ) :
    kept t.f <+: kept t.flushLoop.1.f ∧ t.flushLoop.1.flushed = t.flushed ∧
      (t.flushLoop.2 = true ↔ ∃ ps, F.decodeFlush t.state = some ps ∧ (feed t.f ps).2 = true ∧
        (flushBuffers (feed t.f ps).1).2 = true) ∧
      (∀ ps, F.decodeFlush t.state = some ps → (feed t.f ps).2 = true →
        t.flushLoop.1.f = (flushBuffers (feed t.f ps).1).1) := by
  induction t using flushLoop.induct with
  | case1 t r herr =>
    have heq : t.flushLoop = ({ t with state := r.next }, false) := by
      rw [flushLoop]
      exact if_pos herr
    have hdec : F.decodeFlush t.state = none := by
      rw [Filter.decodeFlush]
      exact if_pos herr
    rw [heq, hdec]
    simp
  | case2 t r herr w t' hw hmore ih =>
    have heq : t.flushLoop = t'.flushLoop := by
      rw [flushLoop]
      exact (if_neg herr).trans ((if_pos hw).trans (if_pos hmore))
    have hdec : F.decodeFlush t.state = (F.decodeFlush t'.state).map (r.out :: ·) := by
      rw [Filter.decodeFlush]
      exact (if_neg herr).trans (if_pos hmore)
    have hfeed : ∀ ps, feed t.f (r.out :: ps) = feed t'.f ps := by
      intro ps
      rw [feed]
      exact if_pos hw
    obtain ⟨h1, h2, h3, h4⟩ := ih
    rw [heq, hdec]
    refine ⟨(write_kept t.f r.out).trans h1, h2, ?_, ?_⟩
    · rw [h3]
      simp only [Option.map_eq_some_iff]
      constructor
      · rintro ⟨ps, hps, hok⟩
        exact ⟨r.out :: ps, ⟨ps, hps, rfl⟩, by rwa [hfeed]⟩
      · rintro ⟨_, ⟨ps, hps, rfl⟩, hok⟩
        exact ⟨ps, hps, by rwa [hfeed] at hok⟩
    · intro _ hall hok
      obtain ⟨ps, hps, rfl⟩ := Option.map_eq_some_iff.mp hall
      rw [hfeed] at hok ⊢
      exact h4 ps hps hok
  | case3 t r herr w hw hmore =>
    have heq : t.flushLoop = (⟨(flushBuffers w.1).1, r.next, r.status = .more, t.flushed⟩,
        (flushBuffers w.1).2) := by
      rw [flushLoop]
      exact (if_neg herr).trans ((if_pos hw).trans (if_neg hmore))
    have hdec : F.decodeFlush t.state = some [r.out] := by
      rw [Filter.decodeFlush]
      exact (if_neg herr).trans (if_neg hmore)
    have hfeed : feed t.f [r.out] = (w.1, true) := by
      rw [feed]
      exact if_pos hw
    rw [heq, hdec]
    refine ⟨?_, rfl, ?_, ?_⟩
    · have hflush := flush_kept w.1
      exact hflush ▸ write_kept t.f r.out
    · constructor
      · intro hok
        exact ⟨_, rfl, by rw [hfeed], by rw [hfeed]; exact hok⟩
      · rintro ⟨ps, hps, -, hok⟩
        rw [← Option.some_inj.mp hps, hfeed] at hok
        exact hok
    · intro ps hps _
      rw [← Option.some_inj.mp hps, hfeed]
  | case4 t r herr w hw =>
    have heq : t.flushLoop = (⟨w.1, r.next, r.status = .more, t.flushed⟩, false) := by
      rw [flushLoop]
      exact (if_neg herr).trans (if_neg hw)
    have hfeed : ∀ ps, feed t.f (r.out :: ps) = (w.1, false) := by
      intro ps
      rw [feed]
      exact if_neg hw
    have hhead : ∀ ps, F.decodeFlush t.state = some ps → ∃ qs, ps = r.out :: qs := by
      intro ps hps
      rw [Filter.decodeFlush] at hps
      by_cases hmore : r.status = .more
      · rw [show _ = _ from (if_neg herr).trans (if_pos hmore)] at hps
        obtain ⟨qs, -, rfl⟩ := Option.map_eq_some_iff.mp hps
        exact ⟨qs, rfl⟩
      · rw [show _ = _ from (if_neg herr).trans (if_neg hmore)] at hps
        exact ⟨[], (Option.some_inj.mp hps).symm⟩
    rw [heq]
    refine ⟨write_kept t.f r.out, rfl, ?_, ?_⟩
    · simp only [Bool.false_eq_true, false_iff]
      rintro ⟨ps, hps, hok, -⟩
      obtain ⟨qs, rfl⟩ := hhead ps hps
      simp [hfeed] at hok
    · intro ps hps hok
      obtain ⟨qs, rfl⟩ := hhead ps hps
      simp [hfeed] at hok

end FilteredOutputStream
end Blacklink.Stream
