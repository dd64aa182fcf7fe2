import Blacklink.Queue.DoneSegments
import Blacklink.Queue.SegmentSearch

/-!
# What the two scans return

Without a partial source `QueueItem::getNextSegmentForward` and `getNextSegmentBackward`
(`client/QueueItem.cpp:414-545`) return the first candidate that is free, and nothing only after
every step of one block was taken. In single-chunk mode `getNextSegmentL` does not scan: the bounds
of the segment are those of the first gap, rounded to blocks (`client/QueueItem.cpp:573-605`).
-/

namespace Blacklink.Queue

open Blacklink.Base

namespace QueueItem

variable {υ : Type} {q : QueueItem υ} {p : SearchSizes}

/-- The finished segments are a consolidated set inside a file that is not finished. -/
structure Unfinished (q : QueueItem υ) : Prop where
  consolidated : Consolidated q.doneSegments
  inside : ∀ t ∈ q.doneSegments, t.Inside q.size
  unfinished : q.isFinished = false

/-- What may be requested next. -/
structure FreeSegment (q : QueueItem υ) (blockSize : Int) (s : Segment) : Prop where
  inside : s.Inside q.size
  running : ∀ r ∈ q.downloads, s.overlaps r.seg = false
  fresh : ∃ x, s.Mem x ∧ ∀ t ∈ q.doneSegments, ¬ t.Mem x
  large : blockSize < s.size → ∀ t ∈ q.doneSegments, s.overlaps t = false

/-- A block that need not be requested: it lies in a finished segment or overlaps a running one. -/
def Taken (q : QueueItem υ) (block : Segment) : Prop :=
  (∃ t ∈ q.doneSegments, t.start ≤ block.start ∧ block.getEnd ≤ t.getEnd) ∨
    ∃ r ∈ q.downloads, block.overlaps r.seg = true

/-- The one-block steps of the forward scan, as far as the file goes. -/
def forwardStep (q : QueueItem υ) (blockSize : Int) (k : Nat) : Segment :=
  let start := q.forwardStart + k * blockSize
  ⟨start, min q.size (start + blockSize) - start⟩

/-- The one-block steps of the backward scan. -/
def backwardStep (q : QueueItem υ) (blockSize : Int) (k : Nat) : Segment :=
  let stop := q.backwardStop blockSize - k * blockSize
  let start := max 0 (stop - blockSize)
  ⟨start, min stop q.size - start⟩

/-! ### Candidates -/

theorem blocked_eq_false_iff {blockSize curSize stop : Int} {block : Segment} :
    q.blocked blockSize curSize block stop = false ↔
      (∀ t ∈ q.doneSegments, if curSize ≤ blockSize then block.start < t.start ∨ t.getEnd < stop
        else block.overlaps t = false) ∧
      ∀ r ∈ q.downloads, block.overlaps r.seg = false := by
  rw [blocked, Bool.or_eq_false_iff, List.any_eq_false, List.any_eq_false]
  apply and_congr
  · refine forall₂_congr fun t _ => ?_
    split
    · simp only [Bool.and_eq_true, decide_eq_true_eq]
      omega
    · exact Bool.not_eq_true _ ▸ Iff.rfl
  · exact forall₂_congr fun r _ => Bool.not_eq_true _ ▸ Iff.rfl

private theorem taken_of_blocked {blockSize stop : Int} {block : Segment}
    (hstop : block.getEnd ≤ stop) (h : q.blocked blockSize blockSize block stop = true) :
    q.Taken block := by
  rw [blocked, Bool.or_eq_true, List.any_eq_true, List.any_eq_true] at h
  apply h.imp_left
  rintro ⟨t, ht, hin⟩
  rw [if_pos le_rfl, Bool.and_eq_true, decide_eq_true_eq, decide_eq_true_eq] at hin
  exact ⟨t, ht, hin.1, hstop.trans hin.2⟩

/-- A candidate is free if the scan does not look behind the end of a finished file. -/
private theorem freeSegment_of_candidate (h : Consolidated q.doneSegments)
    {block : Segment} {stop : Int} (hc : Candidate q p block stop) (hstart : 0 ≤ block.start)
    (hstop : stop ≤ q.size ∨ ∀ t ∈ q.doneSegments, t.getEnd < q.size) :
    q.FreeSegment p.blockSize block := by
  obtain ⟨curSize, hcur, hdvd, hle, hfree⟩ := hc.free
  obtain ⟨hdone, hrunning⟩ := blocked_eq_false_iff.mp hfree
  have hsize := hc.size
  have hend := hc.getEnd
  have hge := Int.le_of_dvd hcur hdvd
  refine ⟨⟨hstart, hsize, by omega⟩, hrunning, ?_, ?_⟩
  · by_contra hall
    push Not at hall
    have hlt : block.start < block.getEnd := by
      rw [Segment.getEnd]
      omega
    -- a block that is all done lies in one of the finished segments
    obtain ⟨i, hi, hlow, hhigh⟩ := h.separated.contains_of_covers h.proper hlt
      fun x hx hx' => covers_map.mpr (hall x ⟨hx, hx'⟩)
    obtain ⟨t, ht, rfl⟩ := List.mem_map.mp hi
    simp only [Segment.toInterval] at hlow hhigh
    have hnot := hdone t ht
    split at hnot
    · rcases hstop with hstop | hstop
      · omega
      · have := hstop t ht
        omega
    · simp only [Segment.overlaps, Bool.and_eq_false_iff, decide_eq_false_iff_not] at hnot
      omega
  · intro hlarge t ht
    have hnot := hdone t ht
    rw [Segment.getEnd] at hend
    rwa [if_neg (by omega)] at hnot

/-! ### The end of a scan -/

private theorem eq_of_dvd_of_le {b c : Int} (hc : 0 < c) (hdvd : b ∣ c) (hle : ¬ b < c) :
    c = b := by
  have := Int.le_of_dvd hc hdvd
  omega

/-- The forward loop comes to its end only if every step of one block is blocked. -/
theorem forwardLoop_exhausted (posArray : Option (List Int)) (start curSize : Int)
    (hcur : 0 < curSize) (hpos : posArray = none) (htarget : p.blockSize ∣ p.targetSize)
    (hdvd : p.blockSize ∣ curSize)
    (hzero : (q.forwardLoop p posArray start curSize hcur).1.size = 0) (k : Nat)
    (hk : start + k * p.blockSize < q.size) :
    q.blocked p.blockSize p.blockSize ⟨start + k * p.blockSize,
      min q.size (start + k * p.blockSize + p.blockSize) - (start + k * p.blockSize)⟩
      (min q.size (start + k * p.blockSize + p.blockSize)) = true := by
  induction posArray, start, curSize, hcur using forwardLoop.induct q p generalizing k with
  | case1 posArray start curSize hcur hlt stop block hblocked hmore ih =>
    rw [forwardLoop, if_pos hlt] at hzero
    simp only at hzero
    rw [if_pos hblocked, dif_pos hmore] at hzero
    exact ih hpos (Int.dvd_sub hdvd (Int.dvd_refl _)) hzero k hk
  | case2 posArray start curSize hcur hlt stop block hblocked hmore ih =>
    rw [forwardLoop, if_pos hlt] at hzero
    simp only at hzero
    rw [if_pos hblocked, dif_neg hmore] at hzero
    obtain rfl := eq_of_dvd_of_le hcur hdvd hmore
    cases k with
    | zero => simpa using hblocked
    | succ k =>
      have hsucc : start + ((k + 1 : Nat) : Int) * p.blockSize =
          start + p.blockSize + k * p.blockSize := by
        rw [Nat.cast_succ, add_mul, one_mul]
        omega
      have hnonneg : 0 ≤ (k : Int) * p.blockSize :=
        Int.mul_nonneg (Int.natCast_nonneg _) p.blockSize_pos.le
      have hstop : stop = start + p.blockSize := Int.min_eq_right (by omega)
      have hrest := ih hpos htarget hzero k (by omega)
      rwa [hstop, ← hsucc] at hrest
  | case3 start curSize hcur hlt stop block hfree =>
    rw [forwardLoop, if_pos hlt] at hzero
    simp only at hzero
    rw [if_neg hfree] at hzero
    simp only at hzero
    omega
  | case4 start curSize hcur hlt stop block hfree pos ih => exact absurd hpos (by simp)
  | case5 posArray start curSize hcur hge =>
    have hnonneg : 0 ≤ (k : Int) * p.blockSize :=
      Int.mul_nonneg (Int.natCast_nonneg _) p.blockSize_pos.le
    omega

/-- The backward loop likewise; it may begin behind the last byte, but less than a block. -/
theorem backwardLoop_exhausted (posArray : Option (List Int)) (stop curSize : Int)
    (hcur : 0 < curSize) (hpos : posArray = none) (hsize : 0 < q.size)
    (hend : stop < q.size + p.blockSize) (htarget : p.blockSize ∣ p.targetSize)
    (hdvd : p.blockSize ∣ curSize)
    (hzero : (q.backwardLoop p posArray stop curSize hcur).1.size = 0) (k : Nat)
    (hk : 0 < stop - k * p.blockSize) :
    q.blocked p.blockSize p.blockSize ⟨max 0 (stop - k * p.blockSize - p.blockSize),
      min (stop - k * p.blockSize) q.size - max 0 (stop - k * p.blockSize - p.blockSize)⟩
      (stop - k * p.blockSize) = true := by
  have hblock := p.blockSize_pos
  induction posArray, stop, curSize, hcur using backwardLoop.induct q p generalizing k with
  | case1 posArray stop curSize hcur hlt start block hblocked hmore ih =>
    rw [backwardLoop, if_pos hlt] at hzero
    simp only at hzero
    rw [if_pos hblocked, dif_pos hmore] at hzero
    exact ih hpos hend (Int.dvd_sub hdvd (Int.dvd_refl _)) hzero k hk
  | case2 posArray stop curSize hcur hlt start block hblocked hmore ih =>
    rw [backwardLoop, if_pos hlt] at hzero
    simp only at hzero
    rw [if_pos hblocked, dif_neg hmore] at hzero
    obtain rfl := eq_of_dvd_of_le hcur hdvd hmore
    cases k with
    | zero => simpa using hblocked
    | succ k =>
      have hsucc : stop - ((k + 1 : Nat) : Int) * p.blockSize =
          stop - p.blockSize - k * p.blockSize := by
        rw [Nat.cast_succ, add_mul, one_mul]
        omega
      have hnonneg : 0 ≤ (k : Int) * p.blockSize :=
        Int.mul_nonneg (Int.natCast_nonneg _) hblock.le
      have hstart : start = stop - p.blockSize := Int.max_eq_right (by omega)
      have hrest := ih hpos (by omega) htarget hzero k (by omega)
      rwa [hstart, ← hsucc] at hrest
  | case3 stop curSize hcur hlt start block hfree =>
    rw [backwardLoop, if_pos hlt] at hzero
    simp only at hzero
    rw [if_neg hfree] at hzero
    have hge := Int.le_of_dvd hcur hdvd
    simp only at hzero
    omega
  | case4 stop curSize hcur hlt start block hfree pos ih => exact absurd hpos (by simp)
  | case5 posArray stop curSize hcur hge =>
    have hnonneg : 0 ≤ (k : Int) * p.blockSize :=
      Int.mul_nonneg (Int.natCast_nonneg _) hblock.le
    omega

/-! ### Where the scans begin -/

private theorem forwardStart_bounds (h : q.Unfinished) (hsize : 0 < q.size) :
    0 ≤ q.forwardStart ∧ q.forwardStart ≤ q.size := by
  rw [forwardStart]
  split
  · next first hhead =>
    obtain ⟨hstart, hpos, hend⟩ := h.inside first (List.mem_of_head? hhead)
    rw [Segment.getEnd] at hend ⊢
    split <;> omega
  · omega

/-- The last finished segment of an unfinished file is not the whole file. -/
private theorem Unfinished.start_ne_zero (h : q.Unfinished) {last : Segment}
    (hlast : q.doneSegments.getLast? = some last) (hend : last.getEnd = q.size) :
    last.start ≠ 0 := by
  intro hzero
  obtain ⟨before, hbefore⟩ := List.getLast?_eq_some_iff.mp hlast
  cases before with
  | nil =>
    have hfinished := h.unfinished
    rw [List.nil_append] at hbefore
    rw [Segment.getEnd, hzero, Int.zero_add] at hend
    simp [isFinished, hbefore, hzero, hend] at hfinished
  | cons t before =>
    -- a segment before it would end before the beginning of the file
    have hsep := h.consolidated.separated
    rw [hbefore, List.cons_append, List.map_cons, Separated, List.pairwise_cons] at hsep
    have hlt := hsep.1 last.toInterval (by simp)
    obtain ⟨hstart, hpos, -⟩ := h.inside t (by simp [hbefore])
    simp only [Segment.toInterval, Segment.getEnd] at hlt
    omega

/-- The backward scan begins behind the end of the file only if nothing is done there. -/
private theorem backwardStop_bounds (h : q.Unfinished) {blockSize : Int}
    (hb : 0 < blockSize) :
    q.backwardStop blockSize < q.size + blockSize ∧
      (q.backwardStop blockSize ≤ q.size ∨ ∀ t ∈ q.doneSegments, t.getEnd < q.size) := by
  have hround := roundUp_lt q.size hb
  rw [backwardStop]
  cases hlast : q.doneSegments.getLast? with
  | none =>
    rw [List.getLast?_eq_none_iff] at hlast
    exact ⟨hround, .inr (by simp [hlast])⟩
  | some last =>
    obtain ⟨hstart, hpos, hinside⟩ := h.inside last (List.mem_of_getLast? hlast)
    simp only
    by_cases hend : last.getEnd = q.size
    · rw [if_pos hend, if_neg (h.start_ne_zero hlast hend)]
      rw [Segment.getEnd] at hinside
      omega
    · rw [if_neg hend]
      refine ⟨hround, .inr fun t ht => lt_of_le_of_ne (h.inside t ht).2.2 fun hcon => hend ?_⟩
      rw [← h.consolidated.eq_getLast h.inside ht hcon hlast]
      exact hcon

/-! ### The segments -/

private theorem getNextSegmentForward_free (h : q.Unfinished) (hsize : 0 < q.size)
    (htarget : p.blockSize ∣ p.targetSize) (hne : (q.getNextSegmentForward p none).1.size ≠ 0) :
    q.FreeSegment p.blockSize (q.getNextSegmentForward p none).1 := by
  have hfinds := forwardLoop_finds (q := q) (p := p) (P := fun x => 0 ≤ x ∧ x ≤ q.size) none
    (fun start curSize hstart hlt hcur _ => by omega) htarget q.forwardStart p.targetSize
    p.targetSize_pos htarget (forwardStart_bounds h hsize)
  rcases hfinds.1 with hzero | ⟨stop, hcand, hstart, hstop⟩
  · rw [getNextSegmentForward, hzero] at hne
    exact absurd rfl hne
  · exact freeSegment_of_candidate h.consolidated hcand hstart.1 (.inl hstop.2)

private theorem getNextSegmentBackward_free (h : q.Unfinished) (hsize : 0 < q.size)
    (htarget : p.blockSize ∣ p.targetSize) (hne : (q.getNextSegmentBackward p none).1.size ≠ 0) :
    q.FreeSegment p.blockSize (q.getNextSegmentBackward p none).1 := by
  obtain ⟨hbehind, hside⟩ := backwardStop_bounds h p.blockSize_pos
  have hstop : 0 ≤ q.backwardStop p.blockSize := by
    rcases backwardStop_cases q p.blockSize with ⟨t, ht, -, heq⟩ | heq
    · rw [heq]
      exact (h.inside t ht).1
    · have hpos := p.blockSize_pos
      rw [heq, roundUp]
      exact Int.mul_nonneg (Int.ediv_nonneg (by omega) hpos.le) hpos.le
  have hfinds := backwardLoop_finds (q := q) (p := p)
    (P := fun x => 0 ≤ x ∧ x < q.size + p.blockSize ∧
      (x ≤ q.size ∨ ∀ t ∈ q.doneSegments, t.getEnd < q.size)) none hsize
    (by
      rintro stop curSize ⟨hnonneg, hlt, hside⟩ hcur hdvd
      have hle := Int.le_of_dvd hcur hdvd
      exact ⟨by omega, by omega, .inl (by omega)⟩)
    (fun _ hP => hP.2.1) htarget _ _ p.targetSize_pos htarget ⟨hstop, hbehind, hside⟩
  rcases hfinds.1 with hzero | ⟨stop, hcand, hstart, hstop⟩
  · rw [getNextSegmentBackward, hzero] at hne
    exact absurd rfl hne
  · exact freeSegment_of_candidate h.consolidated hcand hstart.1 hstop.2.2

/-- Both scans return a free segment, or nothing when every step of one block is taken. -/
theorem getNextSegment_free_or_taken (h : q.Unfinished) (hsize : 0 < q.size)
    (htarget : p.blockSize ∣ p.targetSize) :
    (((q.getNextSegmentForward p none).1.size ≠ 0 →
        q.FreeSegment p.blockSize (q.getNextSegmentForward p none).1) ∧
      ((q.getNextSegmentForward p none).1.size = 0 →
        ∀ k : Nat, q.forwardStart + k * p.blockSize < q.size →
          q.Taken (q.forwardStep p.blockSize k))) ∧
    (((q.getNextSegmentBackward p none).1.size ≠ 0 →
        q.FreeSegment p.blockSize (q.getNextSegmentBackward p none).1) ∧
      ((q.getNextSegmentBackward p none).1.size = 0 →
        ∀ k : Nat, 0 < q.backwardStop p.blockSize - k * p.blockSize →
          q.Taken (q.backwardStep p.blockSize k))) := by
  refine ⟨⟨getNextSegmentForward_free h hsize htarget, ?_⟩,
    getNextSegmentBackward_free h hsize htarget, ?_⟩
  · intro hzero k hk
    refine taken_of_blocked ?_ (forwardLoop_exhausted none _ _ p.targetSize_pos rfl htarget htarget
      hzero k hk)
    simp only [forwardStep, Segment.getEnd]
    omega
  · intro hzero k hk
    have hend := (backwardStop_bounds h p.blockSize_pos).1
    refine taken_of_blocked ?_ (backwardLoop_exhausted none _ _ p.targetSize_pos rfl hsize hend
      htarget htarget hzero k hk)
    simp only [backwardStep, Segment.getEnd]
    omega

/-- A file of 1000 bytes with both ends done, and a segment in the middle running. -/
def scanItem : QueueItem Unit :=
  ⟨1000, true, true, 100, 2, [⟨⟨300, 200⟩, none⟩], [⟨0, 150⟩, ⟨900, 100⟩], 250, 0, 0⟩

theorem scanItem_unfinished : scanItem.Unfinished := by
  refine ⟨⟨?_, ?_⟩, by decide, by decide⟩
  · simp [scanItem, Separated, Segment.toInterval, Segment.getEnd]
  · simp [scanItem, Proper, Segment.toInterval, Segment.getEnd]

/-- Up to three blocks of 100 bytes. -/
def scanSizes : SearchSizes := ⟨100, 300, by decide, by decide⟩

theorem getNextSegment_free_or_taken_scanItem :
    scanItem.FreeSegment 100 (scanItem.getNextSegmentForward scanSizes none).1 := by
  have hsize : (scanItem.getNextSegmentForward scanSizes none).1.size ≠ 0 := by
    simp [getNextSegmentForward, forwardStart, forwardLoop, scanItem, scanSizes, blocked,
      Segment.getEnd, Segment.overlaps]
  exact (getNextSegment_free_or_taken (p := scanSizes) scanItem_unfinished (by decide)
    (by decide)).1.1 hsize

/-! ### A single segment -/

/-- The first byte that is not done. -/
structure FirstFree (q : QueueItem υ) (x : Int) : Prop where
  nonneg : 0 ≤ x
  lt : x < q.size
  free : ∀ t ∈ q.doneSegments, ¬ t.Mem x
  done : ∀ y, 0 ≤ y → y < x → ∃ t ∈ q.doneSegments, t.Mem y

/-- There is only one first byte. -/
theorem FirstFree.unique {x y : Int} (hx : q.FirstFree x) (hy : q.FirstFree y) : x = y := by
  rcases lt_trichotomy x y with hlt | heq | hlt
  · obtain ⟨t, ht, hmem⟩ := hy.done x hx.nonneg hlt
    exact absurd hmem (hx.free t ht)
  · exact heq
  · obtain ⟨t, ht, hmem⟩ := hx.done y hy.nonneg hlt
    exact absurd hmem (hy.free t ht)

/-- Rounding goes down unless the remainder is half a block or more. -/
theorem roundDown_le_iff {x blockSize : Int} (hb : 0 < blockSize) :
    roundDown x blockSize ≤ x ↔ x % blockSize + blockSize / 2 < blockSize := by
  have hmod := Int.emod_nonneg x (Int.ne_of_gt hb)
  have hlt := Int.emod_lt_of_pos x hb
  have hdiv := Int.mul_ediv_add_emod x blockSize
  have hsplit : (x + blockSize / 2) / blockSize =
      x / blockSize + (x % blockSize + blockSize / 2) / blockSize := by
    rw [add_comm (x / blockSize), ← Int.add_mul_ediv_left _ _ (Int.ne_of_gt hb)]
    congr 1
    omega
  rw [roundDown, hsplit, add_mul, mul_comm (x / blockSize)]
  constructor
  · intro hle
    by_contra hge
    have hone : 1 ≤ (x % blockSize + blockSize / 2) / blockSize :=
      Int.le_ediv_of_mul_le hb (by omega)
    have := Int.mul_le_mul_of_nonneg_right hone hb.le
    omega
  · intro hsmall
    rw [Int.ediv_eq_zero_of_lt (by omega) hsmall]
    omega

theorem le_roundUp (x : Int) {blockSize : Int} (hb : 0 < blockSize) : x ≤ roundUp x blockSize := by
  have hlt := Int.lt_ediv_add_one_mul_self (x + blockSize - 1) hb
  rw [add_mul, one_mul] at hlt
  rw [roundUp]
  omega

theorem roundDown_nonneg {x blockSize : Int} (hx : 0 ≤ x) (hb : 0 < blockSize) :
    0 ≤ roundDown x blockSize :=
  Int.mul_nonneg (Int.ediv_nonneg (by omega) hb.le) hb.le

/-- The first gap of an unfinished file begins with it, or behind a segment that does. -/
theorem firstFree_zero (h : q.Unfinished) (hsize : 0 < q.size)
    (hhead : ∀ first ∈ q.doneSegments.head?, first.start ≠ 0) : q.FirstFree 0 := by
  refine ⟨le_rfl, hsize, ?_, fun y hy hlt => absurd hlt (not_lt.mpr hy)⟩
  intro t ht hmem
  cases hdone : q.doneSegments with
  | nil => simp [hdone] at ht
  | cons first rest =>
    have hsorted := h.consolidated.sorted
    have hfirst := hhead first (by simp [hdone])
    have hin := (h.inside first (by simp [hdone])).1
    rw [hdone] at ht hsorted
    rw [Segment.Mem] at hmem
    rcases List.mem_cons.mp ht with rfl | ht
    · omega
    · have := Segment.start_le_of_lt ((List.pairwise_cons.mp hsorted).1 t ht)
      omega

theorem firstFree_getEnd (h : q.Unfinished) {first : Segment} {rest : List Segment}
    (hdone : q.doneSegments = first :: rest) (hzero : first.start = 0) :
    q.FirstFree first.getEnd := by
  obtain ⟨-, hpos, hinside⟩ := h.inside first (by simp [hdone])
  have hsep := h.consolidated.separated
  rw [hdone, List.map_cons, Separated, List.pairwise_cons] at hsep
  have hgap : ∀ t ∈ rest, first.getEnd < t.start := fun t ht =>
    hsep.1 t.toInterval (List.mem_map_of_mem ht)
  have hend : first.getEnd = first.size := by rw [Segment.getEnd, hzero, Int.zero_add]
  refine ⟨by omega, lt_of_le_of_ne hinside ?_, ?_, ?_⟩
  · intro hall
    cases rest with
    | nil =>
      have hfinished := h.unfinished
      rw [hend] at hall
      simp [isFinished, hdone, hzero, hall] at hfinished
    | cons t rest =>
      have hlt := hgap t (by simp)
      obtain ⟨-, hpos', hinside'⟩ := h.inside t (by simp [hdone])
      rw [Segment.getEnd] at hinside'
      omega
  · intro t ht hmem
    rw [hdone] at ht
    rcases List.mem_cons.mp ht with rfl | ht
    · exact absurd hmem.2 (lt_irrefl _)
    · exact absurd hmem.1 (not_le.mpr (hgap t ht))
  · exact fun y hy hlt => ⟨first, by simp [hdone], by rw [Segment.Mem]; omega⟩

/-- The segment begins with the first free byte or before it. -/
structure StartsFirst (q : QueueItem υ) (s : Segment) : Prop where
  inside : s.Inside q.size
  first : ∃ x, q.FirstFree x ∧ s.Mem x

/-- The single segment covers the first byte that is not done unless the end of the segment at the
beginning is in the second half of a block. -/
theorem getNextSegmentL_startsFirst_iff (h : q.Unfinished) (hwait : q.downloads = [])
    {gsp : GetSegmentParams} {partialSource : Option PartialSource} {rand : Nat}
    (hsingle : gsp.enableMultiChunk = false) :
    q.StartsFirst (q.getNextSegmentL gsp partialSource rand).1 ↔
      0 < q.size ∧ 0 < q.blockSize ∧ ∀ first ∈ q.doneSegments.head?, first.start = 0 →
        first.getEnd % q.blockSize + q.blockSize / 2 < q.blockSize := by
  by_cases hb : q.size = -1 ∨ q.blockSize = 0
  · rw [getNextSegmentL, dif_pos hb]
    apply iff_of_false
    · exact fun hs => absurd hs.inside.2.1 (by decide)
    · omega
  have hcode : (q.getNextSegmentL gsp partialSource rand).1 = q.getWholeSegment := by
    rw [getNextSegmentL, dif_neg hb, if_pos (by simp [hsingle]),
      if_neg (by simp [isWaiting, hwait])]
  rw [hcode]
  by_cases hsize : 0 < q.size
  swap
  · refine iff_of_false (fun hs => ?_) (fun hs => hsize hs.1)
    obtain ⟨x, hx, -⟩ := hs.first
    exact hsize (lt_of_le_of_lt hx.nonneg hx.lt)
  have hpos : (0 : Int) < q.blockSize := by omega
  rw [and_iff_right hsize, and_iff_right (by omega)]
  cases hdone : q.doneSegments with
  | nil =>
    have hfree := firstFree_zero h hsize (by simp [hdone])
    have hwhole : q.getWholeSegment = ⟨0, q.size⟩ := by simp [getWholeSegment, hdone]
    rw [hwhole]
    refine iff_of_true ⟨⟨le_rfl, hsize, ?_⟩, 0, hfree, ?_⟩ (by simp)
    · simp [Segment.getEnd]
    · simpa [Segment.Mem, Segment.getEnd] using hsize
  | cons first rest =>
    have hin := h.inside first (by simp [hdone])
    by_cases hstart : first.start = 0
    · have hfree := firstFree_getEnd h hdone hstart
      simp only [List.head?_cons, Option.mem_some_iff, forall_eq', hstart, true_imp_iff]
      rw [← roundDown_le_iff hpos]
      obtain ⟨stop, hwhole, hlt, hle⟩ : ∃ stop, q.getWholeSegment =
          ⟨roundDown first.getEnd q.blockSize, stop - roundDown first.getEnd q.blockSize⟩ ∧
          first.getEnd < stop ∧ stop ≤ q.size := by
        have hlt := hfree.lt
        cases rest with
        | nil => exact ⟨q.size, by simp [getWholeSegment, hdone, hstart], hlt, le_rfl⟩
        | cons second rest =>
          refine ⟨min q.size (roundUp second.start q.blockSize),
            by simp [getWholeSegment, hdone, hstart], ?_, min_le_left _ _⟩
          have hsep := h.consolidated.separated
          rw [hdone, List.map_cons, Separated, List.pairwise_cons] at hsep
          have hgap : first.getEnd < second.start := hsep.1 second.toInterval (by simp)
          have := le_roundUp second.start hpos
          omega
      rw [hwhole]
      constructor
      · rintro ⟨-, x, hx, hmem⟩
        rw [hx.unique hfree] at hmem
        exact hmem.1
      · intro hdown
        have hnonneg := roundDown_nonneg hfree.nonneg hpos
        refine ⟨⟨hnonneg, ?_, ?_⟩, _, hfree, hdown, ?_⟩
        · dsimp only
          omega
        · simp only [Segment.getEnd]
          omega
        · simp only [Segment.getEnd] at hlt ⊢
          omega
    · have hfree := firstFree_zero h hsize (by simpa [hdone] using hstart)
      have hfirst : 0 < first.start := lt_of_le_of_ne hin.1 (Ne.symm hstart)
      have hup := le_roundUp first.start hpos
      have hwhole : q.getWholeSegment = ⟨0, min q.size (roundUp first.start q.blockSize)⟩ := by
        simp [getWholeSegment, hdone, hfirst]
      rw [hwhole]
      refine iff_of_true ⟨⟨le_rfl, ?_, ?_⟩, 0, hfree, le_rfl, ?_⟩ (by simp [hstart])
      · dsimp only
        omega
      · simp only [Segment.getEnd]
        omega
      · simp only [Segment.getEnd]
        omega

/-- A file of one megabyte in blocks of 128 kB of which the first 64 kB are done. -/
def halfBlockItem : QueueItem Unit :=
  ⟨1048576, false, true, 131072, 1, [], [⟨0, 65536⟩], 65536, 0, 0⟩

theorem halfBlockItem_unfinished : halfBlockItem.Unfinished := by
  refine ⟨⟨?_, ?_⟩, by decide, by decide⟩
  · simp [halfBlockItem, Separated]
  · simp [halfBlockItem, Proper, Segment.toInterval, Segment.getEnd]

theorem getNextSegmentL_startsFirst_iff_halfBlockItem :
    halfBlockItem.StartsFirst (halfBlockItem.getNextSegmentL ⟨false, false, 0, 0⟩ none 0).1 ↔
      0 < halfBlockItem.size ∧ 0 < halfBlockItem.blockSize ∧
        ∀ first ∈ halfBlockItem.doneSegments.head?, first.start = 0 →
          first.getEnd % halfBlockItem.blockSize + halfBlockItem.blockSize / 2 <
            halfBlockItem.blockSize :=
  getNextSegmentL_startsFirst_iff halfBlockItem_unfinished rfl rfl

/-- The second half of the first block is left out. -/
theorem not_startsFirst_halfBlockItem : halfBlockItem.Unfinished ∧ halfBlockItem.downloads = [] ∧
    ¬ halfBlockItem.StartsFirst
      (halfBlockItem.getNextSegmentL ⟨false, false, 0, 0⟩ none 0).1 := by
  refine ⟨halfBlockItem_unfinished, rfl, fun hs => ?_⟩
  obtain ⟨x, hx, hmem⟩ := hs.first
  have hseg : (halfBlockItem.getNextSegmentL ⟨false, false, 0, 0⟩ none 0).1 =
      ⟨131072, 917504⟩ := by decide
  rw [hseg] at hmem
  obtain ⟨t, ht, hmem'⟩ := hx.done 65536 (by decide) (lt_of_lt_of_le (by decide) hmem.1)
  rw [List.mem_singleton.mp ht] at hmem'
  exact absurd hmem' (by decide)

end QueueItem
end Blacklink.Queue
