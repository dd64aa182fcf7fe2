import Mathlib.Algebra.Order.Group.Int
import Blacklink.Queue.NextSegment

/-!
# What the search for a segment finds

A search visits candidate blocks and returns one that is not skipped, or parts of such blocks.
The loop lemmas are stated for any property `P` of the positions a search visits, so that the
same induction serves for disjointness and for alignment.
-/

namespace Blacklink.Queue

/-- Consecutive pairs of a list are related. -/
def Pairs {α : Type} (R : α → α → Prop) : List α → Prop
  | a :: b :: rest => R a b ∧ Pairs R rest
  | _ => True

theorem Pairs.map {α β : Type} {R : α → α → Prop} {S : β → β → Prop} {f : α → β}
    (hf : ∀ a b, R a b → S (f a) (f b)) : ∀ {l : List α}, Pairs R l → Pairs S (l.map f)
  | a :: b :: _, h => ⟨hf a b h.1, h.2.map hf⟩
  | [_], _ => True.intro
  | [], _ => True.intro

theorem Pairs.mono {α : Type} {R S : α → α → Prop} (h : ∀ a b, R a b → S a b) {l : List α}
    (hl : Pairs R l) : Pairs S l := by
  have := hl.map (f := id) h
  rwa [List.map_id] at this

/-- The parts of a partial source are proper ranges of blocks. -/
def PartialSource.Ordered (ps : PartialSource) : Prop := Pairs (· ≤ ·) ps.parts

namespace QueueItem

variable {υ : Type} {q : QueueItem υ} {p : SearchSizes}

/-- A candidate block that the search does not skip; `stop` is the position the search looks
at, which may lie behind the end of the file. -/
structure Candidate (q : QueueItem υ) (p : SearchSizes) (block : Segment) (stop : Int) :
    Prop where
  size : 0 < block.size
  getEnd : block.getEnd = min q.size stop
  free : ∃ curSize, 0 < curSize ∧ p.blockSize ∣ curSize ∧ stop ≤ block.start + curSize ∧
    q.blocked p.blockSize curSize block stop = false

/-- A part of a partial source comes from a pair of positions. -/
theorem mem_neededIn {R : Int → Int → Prop} {start stop : Int} {s : Segment} :
    ∀ {pos : List Int}, Pairs R pos → s ∈ neededIn start stop pos →
      ∃ a b, R a b ∧ (a ≤ start ∧ start < b ∨ start ≤ a ∧ a < stop) ∧
        s = ⟨max start a, min stop b - max start a⟩
  | a :: b :: rest, h, hs => by
    rw [neededIn] at hs
    split at hs
    · next hcond =>
      rcases List.mem_cons.mp hs with rfl | hs
      · refine ⟨a, b, h.1, ?_, rfl⟩
        simpa using hcond
      · exact mem_neededIn h.2 hs
    · exact mem_neededIn h.2 hs
  | [_], _, hs => by simp [neededIn] at hs
  | [], _, hs => by simp [neededIn] at hs

/-- What a search returns: a candidate or nothing, and parts of candidates. -/
def Finds (q : QueueItem υ) (p : SearchSizes) (P : Int → Prop) (posArray : Option (List Int))
    (r : Segment × List Segment) : Prop :=
  (r.1 = ⟨0, 0⟩ ∨ ∃ stop, Candidate q p r.1 stop ∧ P r.1.start ∧ P stop) ∧
    ∀ s ∈ r.2, ∃ pos block stop, posArray = some pos ∧ Candidate q p block stop ∧
      P block.start ∧ P stop ∧ s ∈ neededIn block.start stop pos

theorem Finds.mono {P P' : Int → Prop} {posArray : Option (List Int)}
    {r : Segment × List Segment} (h : Finds q p P posArray r) (hP : ∀ x, P x → P' x) :
    Finds q p P' posArray r := by
  refine ⟨?_, ?_⟩
  · rcases h.1 with hzero | ⟨stop, hcand, hstart, hstop⟩
    · exact .inl hzero
    · exact .inr ⟨stop, hcand, hP _ hstart, hP _ hstop⟩
  · intro s hs
    obtain ⟨pos, block, stop, hpos, hcand, hstart, hstop, hmem⟩ := h.2 s hs
    exact ⟨pos, block, stop, hpos, hcand, hP _ hstart, hP _ hstop, hmem⟩

private theorem finds_nothing {P : Int → Prop} {posArray : Option (List Int)} :
    Finds q p P posArray (⟨0, 0⟩, []) :=
  ⟨.inl rfl, by simp⟩

private theorem finds_block {P : Int → Prop} {posArray : Option (List Int)} {block : Segment}
    {stop : Int} (h : Candidate q p block stop) (hstart : P block.start) (hstop : P stop) :
    Finds q p P posArray (block, []) :=
  ⟨.inr ⟨stop, h, hstart, hstop⟩, by simp⟩

private theorem finds_parts {P : Int → Prop} {pos : List Int} {block : Segment} {stop : Int}
    {r : Segment × List Segment} (h : Candidate q p block stop) (hstart : P block.start)
    (hstop : P stop) (hr : Finds q p P (some pos) r) :
    Finds q p P (some pos) (r.1, neededIn block.start stop pos ++ r.2) := by
  refine ⟨hr.1, ?_⟩
  intro s hs
  rcases List.mem_append.mp hs with hs | hs
  · exact ⟨pos, block, stop, rfl, h, hstart, hstop, hs⟩
  · exact hr.2 s hs

/-- The forward loop. -/
theorem forwardLoop_finds {P : Int → Prop} (posArray : Option (List Int))
    (hP : ∀ start curSize, P start → start < q.size → 0 < curSize → p.blockSize ∣ curSize →
      P (min q.size (start + curSize)))
    (htarget : p.blockSize ∣ p.targetSize) (start curSize : Int) (hcur : 0 < curSize)
    (hdvd : p.blockSize ∣ curSize) (hstart : P start) :
    Finds q p P posArray (q.forwardLoop p posArray start curSize hcur) := by
  have hcand : ∀ {start curSize : Int}, start < q.size → 0 < curSize → p.blockSize ∣ curSize →
      ¬q.blocked p.blockSize curSize ⟨start, min q.size (start + curSize) - start⟩
        (min q.size (start + curSize)) = true →
      Candidate q p ⟨start, min q.size (start + curSize) - start⟩
        (min q.size (start + curSize)) := by
    intro start curSize hlt hcur hdvd hfree
    refine ⟨?_, ?_, curSize, hcur, hdvd, ?_, by simpa using hfree⟩
    · change 0 < min q.size (start + curSize) - start
      omega
    · change start + (min q.size (start + curSize) - start) =
        min q.size (min q.size (start + curSize))
      omega
    · change min q.size (start + curSize) ≤ start + curSize
      omega
  induction posArray, start, curSize, hcur using forwardLoop.induct q p with
  | case1 posArray start curSize hcur hlt stop block hblocked hmore ih =>
    rw [forwardLoop, if_pos hlt]
    simp only
    rw [if_pos hblocked, dif_pos hmore]
    exact ih (Int.dvd_sub hdvd (Int.dvd_refl _)) hstart
  | case2 posArray start curSize hcur hlt stop block hblocked hmore ih =>
    rw [forwardLoop, if_pos hlt]
    simp only
    rw [if_pos hblocked, dif_neg hmore]
    exact ih htarget (hP start curSize hstart hlt hcur hdvd)
  | case3 start curSize hcur hlt stop block hfree =>
    rw [forwardLoop, if_pos hlt]
    simp only
    rw [if_neg hfree]
    exact finds_block (hcand hlt hcur hdvd hfree) hstart (hP start curSize hstart hlt hcur hdvd)
  | case4 start curSize hcur hlt stop block hfree pos ih =>
    rw [forwardLoop, if_pos hlt]
    simp only
    rw [if_neg hfree]
    exact finds_parts (hcand hlt hcur hdvd hfree) hstart (hP start curSize hstart hlt hcur hdvd)
      (ih htarget (hP start curSize hstart hlt hcur hdvd))
  | case5 posArray start curSize hcur hge =>
    rw [forwardLoop, if_neg hge]
    exact finds_nothing

/-- The backward loop. It visits no position a whole block behind the end. -/
theorem backwardLoop_finds {P : Int → Prop} (posArray : Option (List Int)) (hsize : 0 < q.size)
    (hP : ∀ stop curSize, P stop → 0 < curSize → p.blockSize ∣ curSize →
      P (max 0 (stop - curSize)))
    (hend : ∀ stop, P stop → stop < q.size + p.blockSize)
    (htarget : p.blockSize ∣ p.targetSize) (stop curSize : Int) (hcur : 0 < curSize)
    (hdvd : p.blockSize ∣ curSize) (hstop : P stop) :
    Finds q p P posArray (q.backwardLoop p posArray stop curSize hcur) := by
  have hcand : ∀ {stop curSize : Int}, 0 < stop → P stop → 0 < curSize → p.blockSize ∣ curSize →
      ¬q.blocked p.blockSize curSize ⟨max 0 (stop - curSize),
        min stop q.size - max 0 (stop - curSize)⟩ stop = true →
      Candidate q p ⟨max 0 (stop - curSize), min stop q.size - max 0 (stop - curSize)⟩ stop := by
    intro stop curSize hpos hstop hcur hdvd hfree
    have hle := Int.le_of_dvd hcur hdvd
    have hlt := hend stop hstop
    refine ⟨?_, ?_, curSize, hcur, hdvd, ?_, by simpa using hfree⟩
    · change 0 < min stop q.size - max 0 (stop - curSize)
      omega
    · change max 0 (stop - curSize) + (min stop q.size - max 0 (stop - curSize)) = min q.size stop
      omega
    · change stop ≤ max 0 (stop - curSize) + curSize
      omega
  induction posArray, stop, curSize, hcur using backwardLoop.induct q p with
  | case1 posArray stop curSize hcur hpos start block hblocked hmore ih =>
    rw [backwardLoop, if_pos hpos]
    simp only
    rw [if_pos hblocked, dif_pos hmore]
    exact ih (Int.dvd_sub hdvd (Int.dvd_refl _)) hstop
  | case2 posArray stop curSize hcur hpos start block hblocked hmore ih =>
    rw [backwardLoop, if_pos hpos]
    simp only
    rw [if_pos hblocked, dif_neg hmore]
    exact ih htarget (hP stop curSize hstop hcur hdvd)
  | case3 stop curSize hcur hpos start block hfree =>
    rw [backwardLoop, if_pos hpos]
    simp only
    rw [if_neg hfree]
    exact finds_block (hcand hpos hstop hcur hdvd hfree) (hP stop curSize hstop hcur hdvd) hstop
  | case4 stop curSize hcur hpos start block hfree pos ih =>
    rw [backwardLoop, if_pos hpos]
    simp only
    rw [if_neg hfree]
    exact finds_parts (hcand hpos hstop hcur hdvd hfree) (hP stop curSize hstop hcur hdvd) hstop
      (ih htarget (hP stop curSize hstop hcur hdvd))
  | case5 posArray stop curSize hcur hneg =>
    rw [backwardLoop, if_neg hneg]
    exact finds_nothing

/-! ### The segment `getNextSegmentL` returns -/

theorem dvd_targetSize (wantedSize blockSize : Int) :
    blockSize ∣ targetSize wantedSize blockSize := by
  rw [targetSize]
  split
  · exact Int.dvd_mul_left _ _
  · exact Int.dvd_refl _

/-- In multi-chunk mode the segment is a candidate, or a part of one that is cut to the target
size. -/
theorem getNextSegmentL_cases {P : Int → Prop} {R : Int → Int → Prop} {gsp : GetSegmentParams}
    {partialSource : Option PartialSource} {rand : Nat} (hmulti : gsp.enableMultiChunk = true)
    (hsize : q.size ≠ -1) (hb : 0 < q.blockSize)
    (hsearch : ∀ pos, Finds q (q.searchSizes gsp.wantedSize hb) P pos
      (q.search (q.searchSizes gsp.wantedSize hb) pos))
    (hparts : ∀ ps, partialSource = some ps → Pairs R (q.posArray ps))
    (hne : (q.getNextSegmentL gsp partialSource rand).1.size ≠ 0) :
    (∃ stop, Candidate q (q.searchSizes gsp.wantedSize hb)
        (q.getNextSegmentL gsp partialSource rand).1 stop ∧
      P (q.getNextSegmentL gsp partialSource rand).1.start ∧ P stop) ∨
    ∃ block stop a b, Candidate q (q.searchSizes gsp.wantedSize hb) block stop ∧
      P block.start ∧ P stop ∧ R a b ∧
      (a ≤ block.start ∧ block.start < b ∨ block.start ≤ a ∧ a < stop) ∧
      (q.getNextSegmentL gsp partialSource rand).1 =
        ⟨max block.start a, min (min stop b - max block.start a)
          (targetSize gsp.wantedSize q.blockSize)⟩ := by
  have hknown : ¬(q.size = -1 ∨ q.blockSize = 0) := by omega
  obtain ⟨hblock, hneeded⟩ := hsearch (partialSource.map q.posArray)
  rw [getNextSegmentL, dif_neg hknown, hmulti] at hne ⊢
  simp only [Bool.not_true, Bool.false_eq_true, if_false] at hne ⊢
  split at hne
  · simp at hne
  · next hlimit =>
    rw [if_neg hlimit]
    split at hne
    · next hfound =>
      rw [if_pos hfound]
      rcases hblock with hzero | hcand
      · rw [hzero] at hfound
        simp at hfound
      · exact .inl hcand
    · next hfound =>
      rw [if_neg hfound]
      split at hne
      · next selected hsel =>
        obtain ⟨pos, block, stop, hpos, hcand, hstart, hstop, hmem⟩ :=
          hneeded selected (List.mem_of_getElem? hsel)
        obtain ⟨ps, hps, rfl⟩ := Option.map_eq_some_iff.mp hpos
        obtain ⟨a, b, hR, hcond, rfl⟩ := mem_neededIn (hparts ps hps) hmem
        exact .inr ⟨block, stop, a, b, hcand, hstart, hstop, hR, hcond, rfl⟩
      · simp at hne

/-! ### Disjointness -/

theorem roundUp_lt (size : Int) {blockSize : Int} (h : 0 < blockSize) :
    roundUp size blockSize < size + blockSize := by
  have := Int.ediv_mul_le (size + blockSize - 1) (Int.ne_of_gt h)
  rw [roundUp]
  omega

/-- The backward search begins with the last finished segment, or behind the last block. -/
theorem backwardStop_cases (q : QueueItem υ) (blockSize : Int) :
    (∃ t ∈ q.doneSegments, t.getEnd = q.size ∧ q.backwardStop blockSize = t.start) ∨
      q.backwardStop blockSize = roundUp q.size blockSize := by
  rw [backwardStop]
  cases hlast : q.doneSegments.getLast? with
  | none => exact .inr rfl
  | some segEnd =>
    simp only
    by_cases hend : segEnd.getEnd = q.size
    · rw [if_pos hend]
      split
      · exact .inr rfl
      · exact .inl ⟨segEnd, List.mem_of_getLast? hlast, hend, rfl⟩
    · rw [if_neg hend]
      exact .inr rfl

private theorem search_finds (hsize : 0 < q.size) (hdone : ∀ t ∈ q.doneSegments, 0 ≤ t.size)
    (htarget : p.blockSize ∣ p.targetSize) (pos : Option (List Int)) :
    Finds q p (fun _ => True) pos (q.search p pos) := by
  have hpos := p.blockSize_pos
  rw [search]
  split
  · have hfinds := backwardLoop_finds (q := q) (p := p) (P := fun x => x < q.size + p.blockSize)
      pos hsize (fun _ _ _ _ _ => by omega) (fun _ h => h) htarget (q.backwardStop p.blockSize)
      p.targetSize p.targetSize_pos htarget (by
        rcases backwardStop_cases q p.blockSize with ⟨t, ht, hend, hstop⟩ | hstop
        · have hsz := hdone t ht
          rw [Segment.getEnd] at hend
          omega
        · rw [hstop]
          exact roundUp_lt q.size hpos)
    exact hfinds.mono fun _ _ => True.intro
  · exact forwardLoop_finds pos (fun _ _ _ _ _ _ => True.intro) htarget _ _ _ htarget True.intro

private theorem candidate_free {block seg : Segment} {stop : Int} (h : Candidate q p block stop)
    (hstart : block.start ≤ seg.start) (hend : seg.getEnd ≤ block.getEnd) :
    ∀ r ∈ q.downloads, ∀ x, seg.Mem x → ¬r.seg.Mem x := by
  intro r hr x hx hrx
  obtain ⟨curSize, -, -, -, hfree⟩ := h.free
  rw [blocked, Bool.or_eq_false_iff] at hfree
  have hover := List.any_eq_false.mp hfree.2 r hr
  apply hover
  rw [Segment.overlaps, Bool.and_eq_true, decide_eq_true_eq, decide_eq_true_eq]
  obtain ⟨hx, hx'⟩ := hx
  obtain ⟨hrx, hrx'⟩ := hrx
  omega

/-- The segment returned has bytes and none of them is in a running segment. -/
theorem getNextSegmentL_free {gsp : GetSegmentParams} {partialSource : Option PartialSource}
    {rand : Nat} (hmulti : gsp.enableMultiChunk = true) (hsize : 0 < q.size)
    (hb : 0 < q.blockSize) (hdone : ∀ t ∈ q.doneSegments, 0 ≤ t.size)
    (hparts : ∀ ps, partialSource = some ps → ps.Ordered)
    (hne : (q.getNextSegmentL gsp partialSource rand).1.size ≠ 0) :
    0 < (q.getNextSegmentL gsp partialSource rand).1.size ∧ ∀ r ∈ q.downloads, ∀ x,
      (q.getNextSegmentL gsp partialSource rand).1.Mem x → ¬r.seg.Mem x := by
  have hpairs : ∀ ps, partialSource = some ps →
      Pairs (fun a b => a ≤ b ∧ b ≤ q.size) (q.posArray ps) := by
    intro ps hps
    rw [posArray]
    split
    · refine (hparts ps hps).map ?_
      intro a b hab
      have hmul : (a : Int) * q.blockSize ≤ b * q.blockSize :=
        Int.mul_le_mul_of_nonneg_right (Int.ofNat_le.mpr hab) (Int.natCast_nonneg _)
      omega
    · exact True.intro
  rcases getNextSegmentL_cases hmulti (by omega) hb
      (search_finds hsize hdone (dvd_targetSize _ _)) hpairs hne with
    ⟨stop, hcand, -, -⟩ | ⟨block, stop, a, b, hcand, -, -, ⟨hab, hbs⟩, hcond, heq⟩
  · exact ⟨hcand.size, candidate_free hcand (Int.le_refl _) (Int.le_refl _)⟩
  · have htarget : 0 < targetSize gsp.wantedSize q.blockSize :=
      targetSize_pos (Int.natCast_pos.mpr hb)
    have hlt : block.start < stop := by
      have hblock := hcand.size
      have hend := hcand.getEnd
      rw [Segment.getEnd] at hend
      omega
    have hend := hcand.getEnd
    rw [heq] at hne ⊢
    refine ⟨?_, candidate_free hcand ?_ ?_⟩
    · simp only at hne ⊢
      omega
    · simp only
      omega
    · simp only [Segment.getEnd] at hend ⊢
      omega

end QueueItem
end Blacklink.Queue
