import Mathlib
import Blacklink.Base.Intervals
import Blacklink.Base.Run
import Blacklink.Queue.QueueItem

/-!
# The set of finished segments

`QueueItem::addSegmentL` (`client/QueueItem.cpp:750-776`) inserts a segment into the ordered set
and merges neighbours in one pass. The pass is `Base.coalesce` on the segments' intervals, so
the set stays separated and covers exactly the bytes added since the last reset. The byte
counter is maintained apart from the set: it stays right except when the added segment is
already a member, which the set ignores and the counter does not.
-/

namespace Blacklink.Queue

open Blacklink.Base

/-! ### The ordered set -/

namespace Segment

theorem lt_iff (s t : Segment) :
    s.lt t = true ↔ s.start < t.start ∨ s.start = t.start ∧ s.size < t.size := by
  simp [lt]

/-- Two segments are ordered one way, the other way, or equal. -/
theorem lt_trichotomy (s t : Segment) : s.lt t = true ∨ s = t ∨ t.lt s = true := by
  rcases s with ⟨a, m⟩
  rcases t with ⟨b, n⟩
  simp only [lt_iff, Segment.mk.injEq]
  omega

theorem lt_trans' {s t u : Segment} (h : s.lt t = true) (h' : t.lt u = true) :
    s.lt u = true := by
  rw [lt_iff] at h h' ⊢
  omega

theorem lt_irrefl' (s : Segment) : s.lt s = false := by
  simp [lt]

theorem lt_asymm' {s t : Segment} (h : s.lt t = true) : t.lt s = false := by
  rw [lt_iff] at h
  rw [← Bool.not_eq_true, lt_iff]
  omega

/-- The order of the set refines the order of the starts. -/
theorem start_le_of_lt {s t : Segment} (h : s.lt t = true) : s.start ≤ t.start := by
  rw [lt_iff] at h
  omega

end Segment

namespace SegmentSet

/-- The invariant of `flat_set`: strictly increasing members. -/
def Sorted (l : SegmentSet) : Prop := l.Pairwise fun s t => s.lt t = true

/-- Bytes counted segment by segment. -/
def sizeSum (l : SegmentSet) : Int := total (l.map Segment.toInterval)

@[simp] theorem sizeSum_nil : sizeSum [] = 0 := rfl

@[simp] theorem sizeSum_cons (s : Segment) (l : SegmentSet) :
    sizeSum (s :: l) = s.size + sizeSum l := by
  simp [sizeSum, total, Segment.toInterval, Segment.getEnd]

@[simp] theorem sizeSum_append (l m : SegmentSet) :
    sizeSum (l ++ m) = sizeSum l + sizeSum m := by
  simp [sizeSum, total]

attribute [local simp] insert

/-- Insertion adds the segment and nothing else. -/
theorem mem_insert (seg t : Segment) (l : SegmentSet) :
    t ∈ insert seg l ↔ t = seg ∨ t ∈ l := by
  induction l with
  | nil => simp [insert]
  | cons u l ih =>
    rw [insert]
    split
    · simp
    · next hlt =>
      split
      · simp only [List.mem_cons, ih]
        tauto
      · next hgt =>
        have he : seg = u := by
          rcases Segment.lt_trichotomy seg u with h | h | h
          · exact absurd h hlt
          · exact h
          · exact absurd h hgt
        subst he
        simp

/-- The bytes of the set after an insertion. -/
theorem covers_insert (seg : Segment) (l : SegmentSet) (x : Int) :
    Covers ((insert seg l).map Segment.toInterval) x ↔
      seg.Mem x ∨ Covers (l.map Segment.toInterval) x := by
  simp only [Covers, List.mem_map]
  constructor
  · rintro ⟨_, ⟨t, ht, rfl⟩, hx⟩
    rcases (mem_insert seg t l).mp ht with rfl | ht
    · exact .inl hx
    · exact .inr ⟨_, ⟨t, ht, rfl⟩, hx⟩
  · rintro (hx | ⟨_, ⟨t, ht, rfl⟩, hx⟩)
    · exact ⟨_, ⟨seg, (mem_insert seg seg l).mpr (.inl rfl), rfl⟩, hx⟩
    · exact ⟨_, ⟨t, (mem_insert seg t l).mpr (.inr ht), rfl⟩, hx⟩

/-- Insertion keeps the set ordered. -/
theorem sorted_insert (seg : Segment) {l : SegmentSet} (h : Sorted l) :
    Sorted (insert seg l) := by
  induction l with
  | nil => simp [insert, Sorted]
  | cons u l ih =>
    obtain ⟨hu, hl⟩ := List.pairwise_cons.mp h
    rw [insert]
    split
    · next hlt =>
      refine List.pairwise_cons.mpr ⟨?_, h⟩
      intro t ht
      rcases List.mem_cons.mp ht with rfl | ht
      · exact hlt
      · exact Segment.lt_trans' hlt (hu t ht)
    · split
      · next hgt =>
        refine List.pairwise_cons.mpr ⟨?_, ih hl⟩
        intro t ht
        rcases (mem_insert seg t l).mp ht with rfl | ht
        · exact hgt
        · exact hu t ht
      · exact h

/-- A member inserted again is not counted again. -/
theorem sizeSum_insert (seg : Segment) {l : SegmentSet} (h : Sorted l) :
    sizeSum (insert seg l) = sizeSum l + if seg ∈ l then 0 else seg.size := by
  induction l with
  | nil => simp [insert]
  | cons u l ih =>
    obtain ⟨hu, hl⟩ := List.pairwise_cons.mp h
    rw [insert]
    split
    · next hlt =>
      have hn : seg ∉ u :: l := by
        intro hm
        rcases List.mem_cons.mp hm with rfl | hm
        · exact absurd hlt (by simp [Segment.lt_irrefl'])
        · exact absurd (Segment.lt_trans' hlt (hu seg hm)) (by simp [Segment.lt_irrefl'])
      rw [if_neg hn, sizeSum_cons]
      omega
    · next hlt =>
      split
      · next hgt =>
        have hne : seg ≠ u := by
          rintro rfl
          exact absurd hgt (by simp [Segment.lt_irrefl'])
        rw [sizeSum_cons, ih hl, sizeSum_cons]
        simp only [List.mem_cons, hne, false_or]
        omega
      · next hgt =>
        have he : seg = u := by
          rcases Segment.lt_trichotomy seg u with h | h | h
          · exact absurd h hlt
          · exact h
          · exact absurd h hgt
        simp [he]

private theorem insert_before {seg : Segment} {l : SegmentSet}
    (h : ∀ t ∈ l, seg.lt t = true) : insert seg l = seg :: l := by
  cases l with
  | nil => rfl
  | cons t l => rw [insert, if_pos (h t (by simp))]

private theorem insert_after {seg : Segment} {pre l : SegmentSet}
    (h : ∀ t ∈ pre, t.lt seg = true) : insert seg (pre ++ l) = pre ++ insert seg l := by
  induction pre with
  | nil => rfl
  | cons t pre ih =>
    have ht := h t (by simp)
    rw [List.cons_append, insert, if_neg (by simp [Segment.lt_asymm' ht]), if_pos ht,
      ih fun u hu => h u (List.mem_cons_of_mem _ hu), List.cons_append]

/-- The merged segment goes into the set where the first of the two it replaces stood. -/
theorem insert_merged {pre rest : SegmentSet} {prev cur : Segment}
    (h : Sorted (pre ++ prev :: cur :: rest)) :
    insert ⟨prev.start, max cur.getEnd prev.getEnd - prev.start⟩ (pre ++ rest) =
      pre ++ ⟨prev.start, max cur.getEnd prev.getEnd - prev.start⟩ :: rest := by
  obtain ⟨-, htail, hcross⟩ := List.pairwise_append.mp h
  obtain ⟨hprev, hcur⟩ := List.pairwise_cons.mp htail
  have hpc : prev.lt cur = true := hprev cur (by simp)
  rw [insert_after, insert_before]
  · intro t ht
    have hct : cur.lt t = true := (List.pairwise_cons.mp hcur).1 t ht
    simp only [Segment.lt_iff, Segment.getEnd] at hpc hct ⊢
    omega
  · intro t ht
    have htp : t.lt prev = true := hcross t ht prev (by simp)
    simp only [Segment.lt_iff, Segment.getEnd] at htp ⊢
    omega

end SegmentSet

/-! ### The consolidation pass -/

namespace QueueItem

variable {υ : Type}

attribute [local simp] consolidate

/-- On intervals the consolidation loop is the merge pass. -/
theorem map_consolidate (pre : SegmentSet) (prev : Segment) (doneSize : Int)
    (rest : SegmentSet) :
    (consolidate pre prev doneSize rest).1.map Segment.toInterval =
      pre.map Segment.toInterval ++
        coalesce prev.toInterval (rest.map Segment.toInterval) := by
  induction rest generalizing pre prev doneSize with
  | nil => simp [consolidate, coalesce]
  | cons cur rest ih =>
    rw [consolidate, List.map_cons, coalesce]
    split
    · next h =>
      have hc : cur.toInterval.1 ≤ prev.toInterval.2 := h
      rw [if_pos hc, ih]
      congr 2
      simp only [Segment.toInterval, Segment.getEnd, Prod.mk.injEq, true_and]
      omega
    · next h =>
      have hc : ¬cur.toInterval.1 ≤ prev.toInterval.2 := h
      rw [if_neg hc, ih, List.map_append, List.append_assoc]
      rfl

/-- The loop keeps the difference of the counter and the set's own byte sum. -/
theorem consolidate_size (pre : SegmentSet) (prev : Segment) (doneSize : Int)
    (rest : SegmentSet) :
    (consolidate pre prev doneSize rest).2 -
        SegmentSet.sizeSum (consolidate pre prev doneSize rest).1 =
      doneSize - SegmentSet.sizeSum (pre ++ prev :: rest) := by
  induction rest generalizing pre prev doneSize with
  | nil => simp [consolidate]
  | cons cur rest ih =>
    rw [consolidate]
    split
    · rw [ih]
      simp only [SegmentSet.sizeSum_append, SegmentSet.sizeSum_cons]
      omega
    · rw [ih]
      simp only [SegmentSet.sizeSum_append, SegmentSet.sizeSum_cons, SegmentSet.sizeSum_nil]
      omega

/-- `addSegmentL` in one piece: a set of one member is what the pass makes of it. -/
theorem addSegmentL_eq (q : QueueItem υ) (segment first : Segment) (rest : SegmentSet)
    (h : SegmentSet.insert segment q.doneSegments = first :: rest) :
    q.addSegmentL segment =
      { q with
        doneSegments := (consolidate [] first (q.doneSegmentsSize + segment.size) rest).1
        doneSegmentsSize :=
          (consolidate [] first (q.doneSegmentsSize + segment.size) rest).2 } := by
  unfold addSegmentL
  cases rest with
  | nil => simp [h, consolidate]
  | cons second rest => simp [h]

/-- The set's normal form: separated, non-empty members. -/
structure Consolidated (l : SegmentSet) : Prop where
  separated : Separated (l.map Segment.toInterval)
  proper : Proper (l.map Segment.toInterval)

/-- A member that ends with the file is the last one. -/
theorem Consolidated.eq_getLast {l : SegmentSet} {size : Int} (h : Consolidated l)
    (hin : ∀ t ∈ l, t.Inside size) {t last : Segment} (ht : t ∈ l) (hend : t.getEnd = size)
    (hlast : l.getLast? = some last) : t = last := by
  obtain ⟨pre, rfl⟩ := List.getLast?_eq_some_iff.mp hlast
  rcases List.mem_append.mp ht with ht | ht
  · have hsep := h.separated
    rw [List.map_append, Separated, List.pairwise_append] at hsep
    have hlt := hsep.2.2 t.toInterval (List.mem_map_of_mem ht) last.toInterval (by simp)
    have hlast' := hin last (by simp)
    simp only [Segment.toInterval] at hlt
    rw [Segment.Inside, Segment.getEnd] at hlast'
    omega
  · exact List.mem_singleton.mp ht

/-- A set in normal form is ordered. -/
theorem Consolidated.sorted {l : SegmentSet} (h : Consolidated l) : SegmentSet.Sorted l := by
  have hs := List.pairwise_map.mp (h.separated.startSorted h.proper)
  have hsep := List.pairwise_map.mp h.separated
  apply List.Pairwise.imp_of_mem _ hsep
  intro s t hs' _ hst
  have hp := h.proper s.toInterval (List.mem_map_of_mem hs')
  simp only [Segment.toInterval, Segment.getEnd] at hp hst
  rw [Segment.lt_iff]
  omega

private theorem startSorted_of_sorted {l : SegmentSet} (h : SegmentSet.Sorted l) :
    StartSorted (l.map Segment.toInterval) :=
  List.pairwise_map.mpr (h.imp Segment.start_le_of_lt)

private theorem insert_ne_nil (seg : Segment) (l : SegmentSet) :
    ∃ first rest, SegmentSet.insert seg l = first :: rest := by
  cases h : SegmentSet.insert seg l with
  | nil =>
    have hm := (SegmentSet.mem_insert seg seg l).mpr (.inl rfl)
    simp [h] at hm
  | cons first rest => exact ⟨first, rest, rfl⟩

private theorem proper_insert {seg : Segment} {l : SegmentSet} (h : Consolidated l)
    (hpos : 0 < seg.size) : Proper ((SegmentSet.insert seg l).map Segment.toInterval) := by
  intro i hi
  obtain ⟨t, ht, rfl⟩ := List.mem_map.mp hi
  rcases (SegmentSet.mem_insert seg t l).mp ht with rfl | ht
  · simp only [Segment.toInterval, Segment.getEnd]
    omega
  · exact h.proper _ (List.mem_map_of_mem ht)

/-- What adding a segment does to the set: the normal form is kept, the segment's bytes are
added, and the counter counts a segment that was a member already once too often. -/
theorem addSegmentL_spec (q : QueueItem υ) (segment : Segment)
    (h : Consolidated q.doneSegments) (hpos : 0 < segment.size) :
    Consolidated (q.addSegmentL segment).doneSegments ∧
      (∀ x, Covers ((q.addSegmentL segment).doneSegments.map Segment.toInterval) x ↔
        segment.Mem x ∨ Covers (q.doneSegments.map Segment.toInterval) x) ∧
      (q.addSegmentL segment).doneSegmentsSize -
          SegmentSet.sizeSum (q.addSegmentL segment).doneSegments =
        q.doneSegmentsSize - SegmentSet.sizeSum q.doneSegments +
          if segment ∈ q.doneSegments then segment.size else 0 := by
  obtain ⟨first, rest, hins⟩ := insert_ne_nil segment q.doneSegments
  have hsorted : SegmentSet.Sorted (first :: rest) :=
    hins ▸ SegmentSet.sorted_insert segment h.sorted
  have hstart := startSorted_of_sorted hsorted
  have hproper := proper_insert h hpos
  rw [hins] at hproper
  rw [addSegmentL_eq q segment first rest hins]
  have hmap := map_consolidate [] first (q.doneSegmentsSize + segment.size) rest
  rw [List.map_nil, List.nil_append] at hmap
  refine ⟨⟨?_, ?_⟩, ?_, ?_⟩
  · simpa only [hmap] using separated_coalesce hstart
  · simpa only [hmap] using proper_coalesce hproper
  · intro x
    simp only [hmap]
    rw [covers_coalesce _ _ hstart, ← covers_cons, ← List.map_cons, ← hins]
    exact SegmentSet.covers_insert segment q.doneSegments x
  · have hsum := consolidate_size [] first (q.doneSegmentsSize + segment.size) rest
    rw [List.nil_append, ← hins, SegmentSet.sizeSum_insert segment h.sorted] at hsum
    simp only [hsum]
    split <;> omega

/-- `addSegmentL` changes nothing but the set and its counter. -/
theorem addSegmentL_frame (q : QueueItem υ) (segment : Segment) :
    (q.addSegmentL segment).size = q.size ∧
      (q.addSegmentL segment).downloads = q.downloads ∧
      (q.addSegmentL segment).blockSize = q.blockSize := by
  obtain ⟨first, rest, h⟩ := insert_ne_nil segment q.doneSegments
  rw [addSegmentL_eq q segment first rest h]
  exact ⟨rfl, rfl, rfl⟩

private theorem consolidate_forall {P : Segment → Prop}
    (hmerge : ∀ prev cur : Segment, P prev → P cur →
      P ⟨prev.start, max cur.getEnd prev.getEnd - prev.start⟩)
    (pre : SegmentSet) (prev : Segment) (doneSize : Int) (rest : SegmentSet)
    (hpre : ∀ t ∈ pre, P t) (hprev : P prev) (hrest : ∀ t ∈ rest, P t) :
    ∀ t ∈ (consolidate pre prev doneSize rest).1, P t := by
  have hput : ∀ t ∈ pre ++ [prev], P t := by
    intro t ht
    rcases List.mem_append.mp ht with ht | ht
    · exact hpre t ht
    · rw [List.mem_singleton.mp ht]
      exact hprev
  induction rest generalizing pre prev doneSize with
  | nil => exact hput
  | cons cur rest ih =>
    have hcur := hrest cur List.mem_cons_self
    have htail : ∀ t ∈ rest, P t := fun t ht => hrest t (List.mem_cons_of_mem _ ht)
    rw [consolidate]
    split
    · have hbig := hmerge prev cur hprev hcur
      refine ih _ _ _ hpre hbig htail ?_
      intro t ht
      rcases List.mem_append.mp ht with ht | ht
      · exact hpre t ht
      · rw [List.mem_singleton.mp ht]
        exact hbig
    · refine ih _ _ _ hput hcur htail ?_
      intro t ht
      rcases List.mem_append.mp ht with ht | ht
      · exact hput t ht
      · rw [List.mem_singleton.mp ht]
        exact hcur

/-- What the segment and the members have in common, and merging keeps, the new members have. -/
theorem addSegmentL_forall {P : Segment → Prop}
    (hmerge : ∀ prev cur : Segment, P prev → P cur →
      P ⟨prev.start, max cur.getEnd prev.getEnd - prev.start⟩)
    (q : QueueItem υ) (segment : Segment) (h : ∀ t ∈ q.doneSegments, P t) (hseg : P segment) :
    ∀ t ∈ (q.addSegmentL segment).doneSegments, P t := by
  obtain ⟨first, rest, hins⟩ := insert_ne_nil segment q.doneSegments
  have hall : ∀ t ∈ first :: rest, P t := by
    intro t ht
    rw [← hins] at ht
    rcases (SegmentSet.mem_insert segment t q.doneSegments).mp ht with rfl | ht
    · exact hseg
    · exact h t ht
  rw [addSegmentL_eq q segment first rest hins]
  exact consolidate_forall hmerge [] first _ rest (by simp) (hall first List.mem_cons_self)
    fun t ht => hall t (List.mem_cons_of_mem _ ht)

/-- No member gets a negative size. -/
theorem addSegmentL_nonneg (q : QueueItem υ) (segment : Segment)
    (h : ∀ t ∈ q.doneSegments, 0 ≤ t.size) (hseg : 0 ≤ segment.size) :
    ∀ t ∈ (q.addSegmentL segment).doneSegments, 0 ≤ t.size := by
  apply addSegmentL_forall _ q segment h hseg
  intro prev cur hprev _
  change 0 ≤ max cur.getEnd prev.getEnd - prev.start
  rw [Segment.getEnd, Segment.getEnd]
  omega

/-! ### Runs of calls -/

/-- A call on the finished segments of a file of `size` bytes. -/
inductive DoneOp (size : Int) where
  | addSegment (seg : {s : Segment // s.Inside size})
  | resetDownloaded

/-- The item after the call. -/
def doneStep {size : Int} (q : QueueItem υ) : DoneOp size → QueueItem υ
  | .addSegment seg => q.addSegmentL seg
  | .resetDownloaded => q.resetDownloadedL

/-- The bytes added since the last reset. -/
noncomputable def addedBytes {size : Int} (ops : List (DoneOp size)) : Finset ℤ :=
  run (fun added op => match op with
    | .addSegment seg => added ∪ Finset.Ico seg.1.start seg.1.getEnd
    | .resetDownloaded => ∅) ∅ ops

/-- The set and its counter describe the bytes `added`, and so does `isFinished`. -/
structure Tracks (q : QueueItem υ) (added : Finset ℤ) : Prop where
  sorted : q.doneSegments.Pairwise fun s t => s.lt t = true
  apart : q.doneSegments.Pairwise fun s t => s.getEnd < t.start
  nonempty : ∀ s ∈ q.doneSegments, 0 < s.size
  union : ∀ x, (∃ s ∈ q.doneSegments, s.Mem x) ↔ x ∈ added
  doneSize : q.doneSegmentsSize = added.card
  finished : q.isFinished = true ↔ ∀ x, 0 ≤ x → x < q.size → x ∈ added

/-- The call does not add a segment that is a member already. -/
def AddsNew {size : Int} (q : QueueItem υ) : DoneOp size → Prop
  | .addSegment seg => seg.1 ∉ q.doneSegments
  | .resetDownloaded => True

private theorem addedBytes_concat {size : Int} (ops : List (DoneOp size)) (op : DoneOp size) :
    addedBytes (ops ++ [op]) = match op with
      | .addSegment seg => addedBytes ops ∪ Finset.Ico seg.1.start seg.1.getEnd
      | .resetDownloaded => ∅ := by
  rw [addedBytes, run_append]
  rfl

private theorem addedBytes_inside {size : Int} (ops : List (DoneOp size)) :
    ∀ x ∈ addedBytes ops, 0 ≤ x ∧ x < size := by
  induction ops using List.reverseRecOn with
  | nil => simp [addedBytes]
  | append_singleton ops op ih =>
    intro x hx
    rw [addedBytes_concat] at hx
    cases op with
    | addSegment seg =>
      obtain ⟨h0, -, hend⟩ := seg.2
      rcases Finset.mem_union.mp hx with hx | hx
      · exact ih x hx
      · rw [Finset.mem_Ico] at hx
        omega
    | resetDownloaded => simp at hx

private theorem run_size {size : Int} (q : QueueItem υ) (ops : List (DoneOp size)) :
    (run doneStep q ops).size = q.size := by
  refine run_invariant (fun q' : QueueItem υ => q'.size = q.size) ?_ rfl ops
  intro q' op h
  cases op with
  | addSegment seg => rw [doneStep, (addSegmentL_frame q' seg).1, h]
  | resetDownloaded => exact h

/-- The bytes of the members. -/
theorem covers_map {l : SegmentSet} {x : Int} :
    Covers (l.map Segment.toInterval) x ↔ ∃ s ∈ l, s.Mem x := by
  simp only [Covers, List.mem_map, exists_exists_and_eq_and]
  rfl

/-- A set in normal form is the whole file exactly when it covers every byte of it. -/
theorem isFinished_iff {q : QueueItem υ} (h : Consolidated q.doneSegments) (hpos : 0 < q.size)
    (hin : ∀ x, Covers (q.doneSegments.map Segment.toInterval) x → 0 ≤ x ∧ x < q.size) :
    q.isFinished = true ↔
      ∀ x, 0 ≤ x → x < q.size → Covers (q.doneSegments.map Segment.toInterval) x := by
  constructor
  · intro hf x h0 hx
    unfold isFinished at hf
    split at hf
    · next s hs =>
      simp only [Bool.and_eq_true, beq_iff_eq] at hf
      rw [hs, List.map_singleton, covers_cons]
      refine .inl ⟨?_, ?_⟩
      · simpa [Segment.toInterval, hf.1] using h0
      · simpa [Segment.toInterval, Segment.getEnd, hf.1, hf.2] using hx
    · simp at hf
  · intro hall
    have hone := h.separated.eq_singleton h.proper hpos fun x =>
      ⟨fun hx => hin x hx, fun hx => hall x hx.1 hx.2⟩
    obtain ⟨s, hs, hseg⟩ := List.map_eq_singleton_iff.mp hone
    simp only [Segment.toInterval, Segment.getEnd, Prod.mk.injEq] at hseg
    simp only [isFinished, hs, Bool.and_eq_true, beq_iff_eq]
    omega

private theorem Tracks.consolidated {q : QueueItem υ} {added : Finset ℤ} (h : Tracks q added) :
    Consolidated q.doneSegments := by
  refine ⟨List.pairwise_map.mpr h.apart, ?_⟩
  intro i hi
  obtain ⟨s, hs, rfl⟩ := List.mem_map.mp hi
  have hp := h.nonempty s hs
  simp only [Segment.toInterval, Segment.getEnd]
  omega

-- with the set in normal form only the counter can be wrong
private theorem tracks_iff {q : QueueItem υ} {added : Finset ℤ}
    (h : Consolidated q.doneSegments) (hpos : 0 < q.size)
    (hc : ∀ x, Covers (q.doneSegments.map Segment.toInterval) x ↔ x ∈ added)
    (hin : ∀ x ∈ added, 0 ≤ x ∧ x < q.size) :
    Tracks q added ↔ q.doneSegmentsSize = SegmentSet.sizeSum q.doneSegments := by
  have hcard : (added.card : ℤ) = SegmentSet.sizeSum q.doneSegments := by
    rw [SegmentSet.sizeSum, ← h.separated.card_points h.proper]
    congr 2
    ext x
    rw [mem_points, hc]
  constructor
  · intro ht
    rw [ht.doneSize, hcard]
  · intro hsize
    refine ⟨h.sorted, List.pairwise_map.mp h.separated, ?_, ?_, ?_, ?_⟩
    · intro s hs
      have hp := h.proper s.toInterval (List.mem_map_of_mem hs)
      simp only [Segment.toInterval, Segment.getEnd] at hp
      omega
    · intro x
      rw [← hc, covers_map]
    · rw [hsize, hcard]
    · rw [isFinished_iff h hpos fun x hx => hin x ((hc x).mp hx)]
      simp only [hc]

private theorem tracks_reset (q : QueueItem υ) (hpos : 0 < q.size) :
    Tracks q.resetDownloadedL ∅ := by
  rw [tracks_iff]
  · simp [resetDownloadedL]
  · exact ⟨by simp [resetDownloadedL, Separated], by simp [resetDownloadedL, Proper]⟩
  · exact hpos
  · simp [resetDownloadedL]
  · simp

private theorem tracks_add_iff {q : QueueItem υ} {added : Finset ℤ} {seg : Segment}
    (h : Tracks q added) (hpos : 0 < q.size) (hin : ∀ x ∈ added, 0 ≤ x ∧ x < q.size)
    (hseg : seg.Inside q.size) :
    Tracks (q.addSegmentL seg) (added ∪ Finset.Ico seg.start seg.getEnd) ↔
      seg ∉ q.doneSegments := by
  obtain ⟨h0, hsize, hend⟩ := hseg
  obtain ⟨hc, hcov, hcount⟩ := addSegmentL_spec q seg h.consolidated hsize
  have hframe : (q.addSegmentL seg).size = q.size := (addSegmentL_frame q seg).1
  have hbefore : q.doneSegmentsSize = SegmentSet.sizeSum q.doneSegments := by
    rw [← tracks_iff h.consolidated hpos _ hin]
    · exact h
    · intro x
      rw [covers_map, h.union]
  rw [tracks_iff hc (by rw [hframe]; exact hpos)]
  · split at hcount
    · next hm =>
      simp only [hm, not_true_eq_false, iff_false]
      omega
    · next hm =>
      simp only [hm, not_false_eq_true, iff_true]
      omega
  · intro x
    rw [hcov, covers_map, h.union, Finset.mem_union, Finset.mem_Ico, or_comm]
    rfl
  · intro x hx
    rw [hframe]
    rcases Finset.mem_union.mp hx with hx | hx
    · exact hin x hx
    · rw [Finset.mem_Ico] at hx
      omega

/-- The set, the counter and `isFinished` describe the bytes added since the last reset
throughout a run exactly when the file is not empty and no segment is added that the set
holds as a member at that moment. -/
theorem doneSegments_track_iff (q : QueueItem υ) (ops : List (DoneOp q.size)) :
    (∀ pre, pre <+: ops → Tracks (run doneStep q.resetDownloadedL pre) (addedBytes pre)) ↔
      0 < q.size ∧ Within AddsNew doneStep q.resetDownloadedL ops := by
  by_cases hpos : 0 < q.size
  · simp only [hpos, true_and]
    apply forall_prefix_iff_within
    · exact tracks_reset q hpos
    · intro pre op _ h
      have hq : (run doneStep q.resetDownloadedL pre).size = q.size := run_size _ pre
      rw [run_append, addedBytes_concat]
      cases op with
      | addSegment seg =>
        refine tracks_add_iff h (by rw [hq]; exact hpos) ?_ (by rw [hq]; exact seg.2)
        intro x hx
        rw [hq]
        exact addedBytes_inside pre x hx
      | resetDownloaded =>
        simp only [run_cons, run_nil, doneStep, AddsNew, iff_true]
        exact tracks_reset _ (by rw [hq]; exact hpos)
  · simp only [hpos, false_and, iff_false]
    intro h
    have hf := (h [] List.nil_prefix).finished
    simp only [run_nil, resetDownloadedL, isFinished, addedBytes] at hf
    exact absurd (hf.mpr fun x h0 hx => absurd (h0.trans_lt hx) hpos) (by simp)

/-- Without the condition the counter is wrong: the first four bytes of a ten-byte file, added
twice, are counted as eight. -/
theorem not_tracks_member_added_twice :
    ¬∀ (q : QueueItem Unit) (ops : List (DoneOp q.size)), 0 < q.size →
      Tracks (run doneStep q.resetDownloadedL ops) (addedBytes ops) := by
  intro h
  have ht := h ⟨10, false, true, 1024, 0, [], [], 0, 0, 0⟩
    [.addSegment ⟨⟨0, 4⟩, by decide⟩, .addSegment ⟨⟨0, 4⟩, by decide⟩] (by decide)
  exact absurd ht.doneSize (by decide)

end QueueItem
end Blacklink.Queue
