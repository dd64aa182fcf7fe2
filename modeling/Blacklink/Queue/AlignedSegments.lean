import Blacklink.Queue.DoneSegments
import Blacklink.Queue.SegmentSearch

/-!
# Segments of whole blocks

If the finished segments consist of whole blocks, so does every segment the search returns, and it
has no byte that is finished already. The search accepts a block that is only partly finished, but
then there is none.
-/

namespace Blacklink.Queue

/-- Whole blocks of a file; the last block may end with the file. -/
structure Segment.Blocks (s : Segment) (blockSize size : Int) : Prop where
  start : blockSize ∣ s.start
  stop : blockSize ∣ s.getEnd ∨ s.getEnd = size

namespace QueueItem

variable {υ : Type} {q : QueueItem υ} {p : SearchSizes}

/-- The finished segments consist of whole blocks of the file. -/
structure DoneBlocks (q : QueueItem υ) : Prop where
  consolidated : Consolidated q.doneSegments
  inside : ∀ t ∈ q.doneSegments, t.Inside q.size
  blocks : ∀ t ∈ q.doneSegments, t.Blocks q.blockSize q.size

/-- Whole blocks added to whole blocks. -/
theorem DoneBlocks.addSegmentL (h : DoneBlocks q) {seg : Segment} (hin : seg.Inside q.size)
    (hseg : seg.Blocks q.blockSize q.size) : DoneBlocks (q.addSegmentL seg) := by
  obtain ⟨hsize, -, hblock⟩ := addSegmentL_frame q seg
  have hall := addSegmentL_forall (P := fun t => t.Inside q.size ∧ t.Blocks q.blockSize q.size)
    (by
      rintro prev cur ⟨hin, hblocks⟩ ⟨hin', hblocks'⟩
      have hend : (⟨prev.start, max cur.getEnd prev.getEnd - prev.start⟩ : Segment).getEnd =
          max cur.getEnd prev.getEnd := by
        change prev.start + (max cur.getEnd prev.getEnd - prev.start) = _
        omega
      rw [Segment.Inside] at hin hin'
      refine ⟨⟨hin.1, ?_, ?_⟩, hblocks.start, ?_⟩
      · have hprev : prev.getEnd = prev.start + prev.size := rfl
        change 0 < max cur.getEnd prev.getEnd - prev.start
        omega
      · rw [hend]
        omega
      · rw [hend]
        rcases Int.le_total cur.getEnd prev.getEnd with hle | hle
        · rw [Int.max_eq_right hle]
          exact hblocks.stop
        · rw [Int.max_eq_left hle]
          exact hblocks'.stop)
    q seg (fun t ht => ⟨h.inside t ht, h.blocks t ht⟩) ⟨hin, hseg⟩
  refine ⟨(addSegmentL_spec q seg h.consolidated hin.2.1).1, ?_, ?_⟩
  · rw [hsize]
    exact fun t ht => (hall t ht).1
  · rw [hsize, hblock]
    exact fun t ht => (hall t ht).2

/-- A position the search visits: a block boundary, or the end of the file. Behind the end it only
gets when no finished segment ends there. -/
def Visited (q : QueueItem υ) (x : Int) : Prop :=
  0 ≤ x ∧ ((q.blockSize : Int) ∣ x ∨ x = q.size) ∧
    (x ≤ q.size ∨ ∀ t ∈ q.doneSegments, t.getEnd ≠ q.size)

private theorem nonpos_of_dvd {b d : Int} (hdvd : b ∣ d) (hlt : d < b) : d ≤ 0 := by
  by_contra hpos
  have := Int.le_of_dvd (by omega) hdvd
  omega

/-- The backward search begins at a block boundary. -/
private theorem backwardStop_visited (h : DoneBlocks q) (hsize : 0 < q.size)
    (hb : 0 < q.blockSize) (hback : q.shouldSearchBackward = true) :
    q.Visited (q.backwardStop q.blockSize) ∧ (q.blockSize : Int) ∣ q.backwardStop q.blockSize ∧
      q.backwardStop q.blockSize < q.size + q.blockSize := by
  have hround := roundUp_lt q.size (Int.natCast_pos.mpr hb)
  have hdvd : (q.blockSize : Int) ∣ roundUp q.size q.blockSize := Int.dvd_mul_left _ _
  have hnonneg : 0 ≤ roundUp q.size q.blockSize :=
    Int.mul_nonneg (Int.ediv_nonneg (by omega) (by omega)) (by omega)
  have hbehind : (∀ t ∈ q.doneSegments, t.getEnd ≠ q.size) →
      q.Visited (roundUp q.size q.blockSize) := fun hno => ⟨hnonneg, .inl hdvd, .inr hno⟩
  rw [shouldSearchBackward] at hback
  rw [backwardStop]
  cases hlast : q.doneSegments.getLast? with
  | none =>
    rw [List.getLast?_eq_none_iff] at hlast
    refine ⟨hbehind ?_, hdvd, hround⟩
    simp [hlast]
  | some l =>
    have hin := h.inside l (List.mem_of_getLast? hlast)
    rw [Segment.Inside, Segment.getEnd] at hin
    simp only
    by_cases hend : l.getEnd = q.size
    · have hstart : l.start ≠ 0 := by
        -- a last segment from the beginning is the whole file, and larger than 3% of it
        intro hzero
        rw [hlast] at hback
        cases hhead : q.doneSegments.head? with
        | none => simp [hhead] at hback
        | some f =>
          rw [Segment.getEnd] at hend
          simp only [hhead, Segment.getEnd, hend, Bool.and_eq_true, Bool.not_eq_true',
            Bool.and_eq_false_iff, beq_self_eq_true, decide_eq_false_iff_not, Bool.true_eq_false,
            false_or] at hback
          omega
      rw [if_pos hend, if_neg hstart]
      have hblocks := (h.blocks l (List.mem_of_getLast? hlast)).start
      exact ⟨⟨hin.1, .inl hblocks, .inl (by omega)⟩, hblocks, by omega⟩
    · rw [if_neg hend]
      refine ⟨hbehind ?_, hdvd, hround⟩
      intro t ht hcon
      rw [h.consolidated.eq_getLast h.inside ht hcon hlast] at hcon
      exact hend hcon

private theorem forwardStart_visited (h : DoneBlocks q) (hsize : 0 < q.size) :
    q.Visited q.forwardStart ∧ q.forwardStart ≤ q.size := by
  have hzero : q.Visited 0 := ⟨Int.le_refl _, .inl (Int.dvd_zero _), .inl (by omega)⟩
  rw [forwardStart]
  split
  · next f hhead =>
    have hmem := List.mem_of_head? hhead
    have hin := h.inside f hmem
    rw [Segment.Inside] at hin
    split
    · refine ⟨⟨?_, (h.blocks f hmem).stop, .inl hin.2.2⟩, hin.2.2⟩
      rw [Segment.getEnd]
      omega
    · exact ⟨hzero, by omega⟩
  · exact ⟨hzero, by omega⟩

/-- Both searches visit block boundaries only. -/
theorem search_visited (h : DoneBlocks q) (hsize : 0 < q.size) (hb : 0 < q.blockSize)
    (wantedSize : Int) (pos : Option (List Int)) :
    Finds q (q.searchSizes wantedSize hb) q.Visited pos
      (q.search (q.searchSizes wantedSize hb) pos) := by
  have htarget : (q.blockSize : Int) ∣ targetSize wantedSize q.blockSize := dvd_targetSize _ _
  rw [search]
  split
  · next hback =>
    obtain ⟨hvis, hdvd, hlt⟩ := backwardStop_visited h hsize hb hback
    have hfinds := backwardLoop_finds (q := q) (p := q.searchSizes wantedSize hb)
      (P := fun x => q.Visited x ∧ (q.blockSize : Int) ∣ x ∧ x < q.size + q.blockSize) pos hsize
      (by
        rintro stop curSize ⟨⟨hnonneg, -, hside⟩, hstop, hlt⟩ hcur hdvdc
        have hpos := Int.natCast_pos.mpr hb
        have hdvd' : (q.blockSize : Int) ∣ max 0 (stop - curSize) := by
          rcases Int.le_total 0 (stop - curSize) with hle | hle
          · rw [Int.max_eq_right hle]
            exact Int.dvd_sub hstop hdvdc
          · rw [Int.max_eq_left hle]
            exact Int.dvd_zero _
        have hle := Int.le_of_dvd hcur hdvdc
        change (q.blockSize : Int) ≤ curSize at hle
        exact ⟨⟨by omega, .inl hdvd', .inl (by omega)⟩, hdvd', by omega⟩)
      (fun _ hP => hP.2.2) htarget _ _ (targetSize_pos (Int.natCast_pos.mpr hb)) htarget
      ⟨hvis, hdvd, hlt⟩
    exact hfinds.mono fun _ hP => hP.1
  · obtain ⟨hvis, hle⟩ := forwardStart_visited h hsize
    have hfinds := forwardLoop_finds (q := q) (p := q.searchSizes wantedSize hb)
      (P := fun x => q.Visited x ∧ x ≤ q.size) pos
      (by
        rintro start curSize ⟨⟨hnonneg, hdvd, -⟩, -⟩ hlt hcur hdvdc
        have hstart := hdvd.resolve_right (by omega)
        refine ⟨⟨by omega, ?_, .inl (by omega)⟩, by omega⟩
        rcases Int.le_total q.size (start + curSize) with hle | hle
        · exact .inr (Int.min_eq_left hle)
        · rw [Int.min_eq_right hle]
          exact .inl (Int.dvd_add hstart hdvdc))
      htarget _ _ (targetSize_pos (Int.natCast_pos.mpr hb)) htarget ⟨hvis, hle⟩
    exact hfinds.mono fun _ hP => hP.1

/-- A candidate between block boundaries has no finished byte. -/
private theorem candidate_fresh (h : DoneBlocks q) (hb : p.blockSize = q.blockSize)
    {block : Segment} {stop : Int} (hc : Candidate q p block stop) (hstart : q.Visited block.start)
    (hstop : q.Visited stop) : ∀ t ∈ q.doneSegments, ∀ x, block.Mem x → ¬t.Mem x := by
  intro t ht x hx htx
  obtain ⟨curSize, hcur, hdvd, hle, hfree⟩ := hc.free
  have hend := hc.getEnd
  have hdvds : (q.blockSize : Int) ∣ block.start := by
    apply hstart.2.1.resolve_right
    have := hc.size
    rw [Segment.getEnd] at hend
    omega
  rw [Segment.Mem] at hx htx
  rw [blocked, Bool.or_eq_false_iff] at hfree
  have hnot := List.any_eq_false.mp hfree.1 t ht
  rw [hb] at hnot hdvd
  split at hnot
  · next hone =>
    -- one block: a finished segment that meets it takes all of it
    apply hnot
    have hblocks := h.blocks t ht
    have hfirst := nonpos_of_dvd (Int.dvd_sub hblocks.start hdvds) (by omega)
    rw [Bool.and_eq_true, decide_eq_true_eq, decide_eq_true_eq]
    refine ⟨by omega, ?_⟩
    rcases hblocks.stop with hstop' | hstop'
    · have := Int.le_of_dvd (by omega) (Int.dvd_sub hstop' hdvds)
      omega
    · rcases hstop.2.2 with hle' | hno
      · omega
      · exact absurd hstop' (hno t ht)
  · apply hnot
    rw [Segment.overlaps, Bool.and_eq_true, decide_eq_true_eq, decide_eq_true_eq]
    omega

private theorem boundary_min {b size x y : Int} (hx : b ∣ x ∨ x = size) (hy : b ∣ y ∨ y = size) :
    b ∣ min x y ∨ min x y = size := by
  rcases Int.le_total x y with hle | hle
  · rw [Int.min_eq_left hle]
    exact hx
  · rw [Int.min_eq_right hle]
    exact hy

private theorem boundary_max {b size x y : Int} (hx : b ∣ x ∨ x = size) (hy : b ∣ y ∨ y = size) :
    b ∣ max x y ∨ max x y = size := by
  rcases Int.le_total x y with hle | hle
  · rw [Int.max_eq_right hle]
    exact hy
  · rw [Int.max_eq_left hle]
    exact hx

/-- The segment returned consists of whole blocks none of which is finished. -/
theorem getNextSegmentL_aligned {gsp : GetSegmentParams} {partialSource : Option PartialSource}
    {rand : Nat} (hmulti : gsp.enableMultiChunk = true) (hsize : 0 < q.size)
    (hb : 0 < q.blockSize) (h : DoneBlocks q)
    (hparts : ∀ ps, partialSource = some ps → ps.Ordered)
    (hne : (q.getNextSegmentL gsp partialSource rand).1.size ≠ 0) :
    (q.getNextSegmentL gsp partialSource rand).1.Inside q.size ∧
      (q.getNextSegmentL gsp partialSource rand).1.Blocks q.blockSize q.size ∧
      ∀ t ∈ q.doneSegments, ∀ x, (q.getNextSegmentL gsp partialSource rand).1.Mem x →
        ¬t.Mem x := by
  have hpairs : ∀ ps, partialSource = some ps → Pairs (fun a b => a ≤ b ∧ b ≤ q.size ∧
      ((q.blockSize : Int) ∣ a ∨ a = q.size) ∧ ((q.blockSize : Int) ∣ b ∨ b = q.size))
      (q.posArray ps) := by
    intro ps hps
    rw [posArray]
    split
    · refine (hparts ps hps).map ?_
      intro a b hab
      have hmul : (a : Int) * q.blockSize ≤ b * q.blockSize :=
        Int.mul_le_mul_of_nonneg_right (Int.ofNat_le.mpr hab) (Int.natCast_nonneg _)
      exact ⟨by omega, by omega, boundary_min (.inr rfl) (.inl (Int.dvd_mul_left _ _)),
        boundary_min (.inr rfl) (.inl (Int.dvd_mul_left _ _))⟩
    · exact True.intro
  rcases getNextSegmentL_cases hmulti (by omega) hb (search_visited h hsize hb gsp.wantedSize)
      hpairs hne with
    ⟨stop, hcand, hstart, hstop⟩ |
      ⟨block, stop, a, b, hcand, hstart, hstop, ⟨hab, hbs, ha, hbb⟩, hcond, heq⟩
  · have hend := hcand.getEnd
    have hlt : (q.getNextSegmentL gsp partialSource rand).1.start < q.size := by
      have := hcand.size
      rw [Segment.getEnd] at hend
      omega
    refine ⟨⟨hstart.1, hcand.size, by omega⟩, ⟨hstart.2.1.resolve_right (by omega), ?_⟩,
      candidate_fresh h rfl hcand hstart hstop⟩
    rw [hend]
    exact boundary_min (.inr rfl) hstop.2.1
  · have htarget : 0 < targetSize gsp.wantedSize q.blockSize :=
      targetSize_pos (Int.natCast_pos.mpr hb)
    have hend := hcand.getEnd
    have hblock := hcand.size
    have hnonneg := hstart.1
    have hlt : block.start < stop := by
      rw [Segment.getEnd] at hend
      omega
    rw [heq] at hne ⊢
    simp only at hne
    have hdvd : (q.blockSize : Int) ∣ max block.start a :=
      (boundary_max hstart.2.1 ha).resolve_right (by omega)
    have hstopeq : (⟨max block.start a, min (min stop b - max block.start a)
        (targetSize gsp.wantedSize q.blockSize)⟩ : Segment).getEnd =
        min (min stop b) (max block.start a + targetSize gsp.wantedSize q.blockSize) := by
      rw [Segment.getEnd]
      simp only
      omega
    refine ⟨⟨?_, ?_, ?_⟩, ⟨hdvd, ?_⟩, ?_⟩
    · simp only
      omega
    · simp only
      omega
    · rw [hstopeq]
      omega
    · rw [hstopeq]
      exact boundary_min (boundary_min hstop.2.1 hbb) (.inl (Int.dvd_add hdvd (dvd_targetSize _ _)))
    · intro t ht x hx
      apply candidate_fresh h rfl hcand hstart hstop t ht x
      rw [Segment.Mem, hstopeq] at hx
      rw [Segment.Mem, hend]
      simp only at hx
      omega

end QueueItem
end Blacklink.Queue
