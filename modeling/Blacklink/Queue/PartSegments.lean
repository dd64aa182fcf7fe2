import Blacklink.Queue.FreeSegments
import Blacklink.Queue.Parts

/-!
# Segments of a partial source

With a partial source the scans of `client/QueueItem.cpp:414-545` collect what the free candidates
have in common with the ranges of the source, and `getNextSegmentL`
(`client/QueueItem.cpp:615-660`) takes one of these. The end of a range is not compared with its
beginning, and both are cut to the size of the file.
-/

namespace Blacklink.Queue

open Blacklink.Base

/-- A pair of positions that has something in common with a candidate. -/
def MeetsPart (start stop a b : Int) : Prop :=
  a ≤ start ∧ start < b ∨ start ≤ a ∧ a < stop

/-- The positions of a pair of block indexes. -/
def partPositions (size blockSize : Int) (i : Int × Int) : Int × Int :=
  (min size (i.1 * blockSize), min size (i.2 * blockSize))

/-- A range of a source has blocks, of which one is in the file, or begins where no scan comes. -/
def PartOk (size blockSize : Int) (i : Int × Int) : Prop :=
  i.1 * blockSize < size ∧ i.1 < i.2 ∨ size ≤ i.1 * blockSize ∧ blockSize ∣ size

namespace QueueItem

variable {υ : Type} {q : QueueItem υ} {p : SearchSizes}

/-- What may be requested from a partial source. -/
structure PartSegment (q : QueueItem υ) (parts : PartsInfo) (s : Segment) : Prop where
  inside : s.Inside q.size
  announced : ∃ i ∈ partRanges parts,
    i.1 * q.blockSize ≤ s.start ∧ s.getEnd ≤ i.2 * q.blockSize
  running : ∀ r ∈ q.downloads, s.overlaps r.seg = false

/-! ### The parts that are collected -/

/-- The positions of a list of parts in blocks of the item. -/
theorem posArray_eq (q : QueueItem υ) (parts : PartsInfo) :
    q.posArray ⟨q.blockSize, parts.map UInt16.toNat⟩ =
      parts.map fun (i : UInt16) => min q.size ((i.toNat : Int) * (q.blockSize : Int)) := by
  rw [posArray, if_pos rfl, List.map_map]
  rfl

/-- The positions of a list are the pairs of its ranges. -/
theorem posArray_ranges (q : QueueItem υ) (parts : PartsInfo) :
    Pairs (fun a b => ∃ i ∈ partRanges parts, (a, b) = partPositions q.size q.blockSize i)
      (parts.map fun (i : UInt16) => min q.size ((i.toNat : Int) * (q.blockSize : Int))) := by
  fun_induction partRanges parts with
  | case1 s e rest ih =>
    refine ⟨⟨_, List.mem_cons_self, rfl⟩, ?_⟩
    exact ih.mono fun a b ⟨i, hi, heq⟩ => ⟨i, List.mem_cons_of_mem _ hi, heq⟩
  | case2 parts hnone =>
    match parts with
    | [] => exact True.intro
    | [_] => exact True.intro
    | s :: e :: rest => exact absurd rfl (hnone s e rest)

/-- A range that meets a candidate is collected. -/
theorem mem_neededIn_of_meets {size blockSize start stop : Int} {parts : PartsInfo}
    {i : Int × Int} (hi : i ∈ partRanges parts)
    (hmeets : MeetsPart start stop (partPositions size blockSize i).1
      (partPositions size blockSize i).2) :
    ⟨max start (partPositions size blockSize i).1, min stop (partPositions size blockSize i).2 -
        max start (partPositions size blockSize i).1⟩ ∈
      neededIn start stop
        (parts.map fun (i : UInt16) => min size ((i.toNat : Int) * blockSize)) := by
  fun_induction partRanges parts with
  | case1 s e rest ih =>
    rw [List.map_cons, List.map_cons, neededIn]
    rcases List.mem_cons.mp hi with rfl | hi
    · rw [if_pos (by simpa [MeetsPart, partPositions] using hmeets)]
      exact List.mem_cons_self
    · split
      · exact List.mem_cons_of_mem _ (ih hi)
      · exact ih hi
  | case2 parts hnone => exact absurd hi (List.not_mem_nil)

/-- With a partial source no candidate is returned as a whole. -/
theorem forwardLoop_some (posArray : Option (List Int)) (start curSize : Int) (hcur : 0 < curSize)
    (hpos : posArray ≠ none) : (q.forwardLoop p posArray start curSize hcur).1 = ⟨0, 0⟩ := by
  fun_induction forwardLoop q p posArray start curSize hcur with
  | case1 posArray start curSize hcur hlt stop block hblocked hmore ih => exact ih hpos
  | case2 posArray start curSize hcur hlt stop block hblocked hmore ih => exact ih hpos
  | case3 start curSize hcur hlt stop block hfree => exact absurd rfl hpos
  | case4 start curSize hcur hlt stop block hfree pos r ih => exact ih hpos
  | case5 posArray start curSize hcur hge => rfl

theorem backwardLoop_some (posArray : Option (List Int)) (stop curSize : Int) (hcur : 0 < curSize)
    (hpos : posArray ≠ none) : (q.backwardLoop p posArray stop curSize hcur).1 = ⟨0, 0⟩ := by
  fun_induction backwardLoop q p posArray stop curSize hcur with
  | case1 posArray stop curSize hcur hlt start block hblocked hmore ih => exact ih hpos
  | case2 posArray stop curSize hcur hlt start block hblocked hmore ih => exact ih hpos
  | case3 stop curSize hcur hlt start block hfree => exact absurd rfl hpos
  | case4 stop curSize hcur hlt start block hfree pos r ih => exact ih hpos
  | case5 posArray stop curSize hcur hge => rfl

theorem search_some (pos : List Int) : (q.search p (some pos)).1 = ⟨0, 0⟩ := by
  rw [search]
  split
  · exact backwardLoop_some _ _ _ _ (Option.some_ne_none _)
  · exact forwardLoop_some _ _ _ _ (Option.some_ne_none _)

/-- With a partial source the result is nothing, or one of the parts cut to the target size. -/
theorem getNextSegmentL_part {gsp : GetSegmentParams} {ps : PartialSource} {rand : Nat}
    (hmulti : gsp.enableMultiChunk = true) (hsize : q.size ≠ -1) (hb : 0 < q.blockSize) :
    (q.getNextSegmentL gsp (some ps) rand).1 = ⟨-1, 0⟩ ∨
      ∃ selected ∈ (q.search (q.searchSizes gsp.wantedSize hb) (some (q.posArray ps))).2,
        (q.getNextSegmentL gsp (some ps) rand).1 =
          ⟨selected.start, min selected.size (targetSize gsp.wantedSize q.blockSize)⟩ := by
  rw [getNextSegmentL, dif_neg (by omega), hmulti]
  simp only [Bool.not_true, Bool.false_eq_true, if_false, Option.map_some]
  split
  · exact .inl rfl
  · rw [if_neg (by simp [search_some])]
    split
    · next selected hsel => exact .inr ⟨selected, List.mem_of_getElem? hsel, rfl⟩
    · exact .inl rfl

/-- Each of the parts may be selected when there is a free slot. -/
theorem exists_rand_getNextSegmentL (gsp : GetSegmentParams) {ps : PartialSource}
    (hmulti : gsp.enableMultiChunk = true) (hsize : q.size ≠ -1) (hb : 0 < q.blockSize)
    (hslots : q.downloads.length < q.maxSegments) (hbegin : gsp.dontBeginSegment = false)
    {selected : Segment}
    (hsel : selected ∈ (q.search (q.searchSizes gsp.wantedSize hb) (some (q.posArray ps))).2) :
    ∃ rand, (q.getNextSegmentL gsp (some ps) rand).1 =
      ⟨selected.start, min selected.size (targetSize gsp.wantedSize q.blockSize)⟩ := by
  obtain ⟨n, hn, hget⟩ := List.getElem_of_mem hsel
  refine ⟨n, ?_⟩
  rw [getNextSegmentL, dif_neg (by omega), hmulti]
  simp only [Bool.not_true, Bool.false_eq_true, if_false, Option.map_some, hbegin, false_and,
    or_false]
  rw [if_neg (by omega), if_neg (by simp [search_some]), Nat.mod_eq_of_lt hn,
    List.getElem?_eq_getElem hn, hget]
  rfl

/-! ### Ranges in order -/

/-- The positions a scan visits are less than a block behind the end, and not behind the end of a
file of whole blocks. -/
private theorem search_within (hsize : 0 < q.size) (hin : ∀ t ∈ q.doneSegments, t.Inside q.size)
    (htarget : p.blockSize ∣ p.targetSize) (pos : Option (List Int)) :
    Finds q p (fun x => 0 ≤ x ∧ (p.blockSize ∣ q.size → x ≤ q.size)) pos (q.search p pos) := by
  have hpos := p.blockSize_pos
  rw [search]
  split
  · have hfinds := backwardLoop_finds (q := q) (p := p) (P := fun x => (0 ≤ x ∧
      (p.blockSize ∣ q.size → x ≤ q.size)) ∧ x < q.size + p.blockSize) pos hsize
      (by
        rintro stop curSize ⟨⟨hnonneg, hle⟩, hlt⟩ hcur hdvd
        have hge := Int.le_of_dvd hcur hdvd
        exact ⟨⟨by omega, fun _ => by omega⟩, by omega⟩)
      (fun _ h => h.2) htarget (q.backwardStop p.blockSize) p.targetSize p.targetSize_pos htarget
      (by
        rcases backwardStop_cases q p.blockSize with ⟨t, ht, hend, hstop⟩ | hstop
        · obtain ⟨hstart, hsz, -⟩ := hin t ht
          rw [Segment.getEnd] at hend
          omega
        · have hup := le_roundUp q.size hpos
          have hlt := roundUp_lt q.size hpos
          rw [hstop]
          refine ⟨⟨by omega, fun hdvd => ?_⟩, hlt⟩
          have hdvd' : p.blockSize ∣ roundUp q.size p.blockSize - q.size :=
            Int.dvd_sub (Int.dvd_mul_left _ _) hdvd
          by_contra hgt
          have := Int.le_of_dvd (by omega) hdvd'
          omega)
    exact hfinds.mono fun _ h => h.1
  · have hfinds := forwardLoop_finds (q := q) (p := p) (P := fun x => 0 ≤ x ∧ x ≤ q.size) pos
      (fun start curSize hstart hlt hcur _ => by omega) htarget q.forwardStart p.targetSize
      p.targetSize_pos htarget (by
        rw [forwardStart]
        split
        · next first hhead =>
          obtain ⟨hstart, hsz, hend⟩ := hin first (List.mem_of_head? hhead)
          rw [Segment.getEnd] at hend ⊢
          split <;> omega
        · omega)
    exact hfinds.mono fun _ h => ⟨h.1, fun _ => h.2⟩

/-- What is collected of ranges in order may be requested. -/
theorem getNextSegmentL_partSegment {gsp : GetSegmentParams} {parts : PartsInfo}
    {psBlockSize : Int} {rand : Nat} (hmulti : gsp.enableMultiChunk = true) (hsize : 0 < q.size)
    (hb : 0 < q.blockSize) (hin : ∀ t ∈ q.doneSegments, t.Inside q.size)
    (hok : psBlockSize = q.blockSize → ∀ i ∈ partRanges parts, PartOk q.size q.blockSize i) :
    (q.getNextSegmentL gsp (some ⟨psBlockSize, parts.map UInt16.toNat⟩) rand).1 = ⟨-1, 0⟩ ∨
      q.PartSegment parts
        (q.getNextSegmentL gsp (some ⟨psBlockSize, parts.map UInt16.toNat⟩) rand).1 := by
  have hpos : (0 : Int) < q.blockSize := Int.natCast_pos.mpr hb
  have htarget : 0 < targetSize gsp.wantedSize q.blockSize := targetSize_pos hpos
  rcases getNextSegmentL_part hmulti (by omega) hb with hnone | ⟨selected, hsel, hres⟩
  · exact .inl hnone
  have hpairs : Pairs (fun a b => psBlockSize = q.blockSize ∧ ∃ i ∈ partRanges parts,
      (a, b) = partPositions q.size q.blockSize i)
      (q.posArray ⟨psBlockSize, parts.map UInt16.toNat⟩) := by
    rw [posArray]
    split
    · next heq =>
      rw [List.map_map]
      exact (posArray_ranges q parts).mono fun a b h => ⟨heq, h⟩
    · exact True.intro
  obtain ⟨pos, block, stop, hposeq, hcand, ⟨hstart, hwhole⟩, ⟨-, hwhole'⟩, hmem⟩ :=
    (search_within hsize hin (dvd_targetSize _ _) _).2 selected hsel
  obtain rfl := Option.some.inj hposeq
  obtain ⟨a, b, ⟨heq, i, hi, hab⟩, hmeets, rfl⟩ := mem_neededIn hpairs hmem
  obtain ⟨rfl, rfl⟩ := Prod.mk.inj hab
  have hsize' := hcand.size
  have hend := hcand.getEnd
  obtain ⟨curSize, -, -, -, hfree⟩ := hcand.free
  have hrunning := (blocked_eq_false_iff.mp hfree).2
  -- a range behind the end of a file of whole blocks meets no candidate
  have hproper : i.1 * q.blockSize < q.size ∧ i.1 < i.2 := by
    rcases hok heq i hi with hproper | ⟨hbehind, hdvd⟩
    · exact hproper
    · have hle := hwhole' hdvd
      rw [Segment.getEnd] at hend
      omega
  have hlt : i.1 * (q.blockSize : Int) < i.2 * q.blockSize :=
    Int.mul_lt_mul_of_pos_right hproper.2 hpos
  rw [hres]
  have hpart : 0 < min stop (min q.size (i.2 * q.blockSize)) -
      max block.start (min q.size (i.1 * q.blockSize)) := by
    rw [Segment.getEnd] at hend
    omega
  refine .inr ⟨⟨?_, ?_, ?_⟩, ⟨i, hi, ?_, ?_⟩, fun r hr => ?_⟩
  · dsimp only
    omega
  · dsimp only
    omega
  · simp only [Segment.getEnd]
    omega
  · dsimp only
    omega
  · simp only [Segment.getEnd]
    omega
  · have hnot := hrunning r hr
    simp only [Segment.overlaps, Bool.and_eq_false_iff, decide_eq_false_iff_not] at hnot ⊢
    rw [hend] at hnot
    simp only [Segment.getEnd] at hnot ⊢
    omega

/-! ### Other ranges -/

/-- The item with nothing done and nothing running. -/
private def untouched (size : Int) (blockSize : Nat) : QueueItem υ :=
  ⟨size, false, true, blockSize, 1, [], [], 0, 0, 0⟩

/-- The item with so much done at the beginning that the last part is wanted. -/
private def wantsEnd (size : Int) (blockSize : Nat) : QueueItem υ :=
  ⟨size, true, true, blockSize, 1, [], [⟨0, 1024 * 1204⟩], 1024 * 1204, 0, 0⟩

/-- If nothing is done and nothing runs, the candidates of the forward scan are the whole file. -/
private theorem forwardLoop_collects (hdone : q.doneSegments = []) (hwait : q.downloads = [])
    (pos : List Int) {x : Int} (hx : x < q.size) (start curSize : Int) (hcur : 0 < curSize)
    (hle : start ≤ x) :
    ∃ start' stop, start' ≤ x ∧ x < stop ∧ ∀ s ∈ neededIn start' stop pos,
      s ∈ (q.forwardLoop p (some pos) start curSize hcur).2 := by
  have hfree : ∀ blockSize curSize block stop, ¬ q.blocked blockSize curSize block stop = true := by
    simp [blocked, hdone, hwait]
  generalize hpos : some pos = posArray
  induction posArray, start, curSize, hcur using forwardLoop.induct q p with
  | case1 posArray start curSize hcur hlt stop block hblocked hmore ih =>
    exact absurd hblocked (hfree _ _ _ _)
  | case2 posArray start curSize hcur hlt stop block hblocked hmore ih =>
    exact absurd hblocked (hfree _ _ _ _)
  | case3 start curSize hcur hlt stop block hfree' => exact absurd hpos (Option.some_ne_none _)
  | case4 start curSize hcur hlt stop block hfree' pos' ih =>
    obtain rfl := Option.some.inj hpos
    rw [forwardLoop, if_pos hlt]
    simp only
    rw [if_neg hfree']
    by_cases hin : x < stop
    · exact ⟨start, stop, hle, hin, fun s hs => List.mem_append_left _ hs⟩
    · obtain ⟨start', stop', hle', hlt', hall⟩ := ih (not_lt.mp hin) rfl
      exact ⟨start', stop', hle', hlt', fun s hs => List.mem_append_right _ (hall s hs)⟩
  | case5 posArray start curSize hcur hge => omega

/-- A range that ends before it begins is collected as a segment that is not one. -/
private theorem forward_collects_reversed (hb : 0 < q.blockSize) (hdone : q.doneSegments = [])
    (hwait : q.downloads = []) (wantedSize : Int) {parts : PartsInfo} {i : Int × Int}
    (hi : i ∈ partRanges parts) (hnonneg : 0 ≤ i.1 * (q.blockSize : Int))
    (hlt : i.1 * (q.blockSize : Int) < q.size) (hrev : i.2 ≤ i.1) :
    ∃ selected ∈ (q.search (q.searchSizes wantedSize hb)
        (some (q.posArray ⟨q.blockSize, parts.map UInt16.toNat⟩))).2,
      0 ≤ selected.start ∧ selected.size ≤ 0 := by
  have hpos : (0 : Int) < q.blockSize := Int.natCast_pos.mpr hb
  have hle : i.2 * (q.blockSize : Int) ≤ i.1 * q.blockSize :=
    Int.mul_le_mul_of_nonneg_right hrev hpos.le
  have hforward : ¬ q.shouldSearchBackward = true := by simp [shouldSearchBackward, hdone]
  have hstart : q.forwardStart = 0 := by simp [forwardStart, hdone]
  rw [search, if_neg hforward, getNextSegmentForward, posArray_eq]
  obtain ⟨start, stop, hstart, hstop, hall⟩ := forwardLoop_collects
    (p := q.searchSizes wantedSize hb) hdone hwait
    (parts.map fun (i : UInt16) => min q.size ((i.toNat : Int) * (q.blockSize : Int))) hlt
    q.forwardStart _ (q.searchSizes wantedSize hb).targetSize_pos (by rwa [hstart])
  refine ⟨_, hall _ (mem_neededIn_of_meets hi (.inr ?_)), ?_, ?_⟩
  · simp only [partPositions]
    omega
  · simp only [partPositions]
    omega
  · simp only [partPositions]
    omega

/-- The first candidate of the backward scan, if it is free. -/
private theorem backwardLoop_collects (pos : List Int) {stop curSize : Int} (hcur : 0 < curSize)
    (hstop : 0 < stop) (hfree : ¬ q.blocked p.blockSize curSize
      ⟨max 0 (stop - curSize), min stop q.size - max 0 (stop - curSize)⟩ stop = true)
    {s : Segment} (hs : s ∈ neededIn (max 0 (stop - curSize)) stop pos) :
    s ∈ (q.backwardLoop p (some pos) stop curSize hcur).2 := by
  rw [backwardLoop, if_pos hstop]
  simp only
  rw [if_neg hfree]
  exact List.mem_append_left _ hs

/-- A range behind the last byte is collected as an empty segment there, if the last block is
short. -/
private theorem backward_collects_behind (hb : 0 < q.blockSize) (hsize : 0 < q.size)
    (hback : q.shouldSearchBackward = true) (hdone : ∀ t ∈ q.doneSegments, t.getEnd < q.size)
    (hwait : q.downloads = []) (wantedSize : Int) (hwanted : wantedSize ≤ q.blockSize)
    {parts : PartsInfo} {i : Int × Int} (hi : i ∈ partRanges parts)
    (hge : q.size ≤ i.1 * (q.blockSize : Int)) (hshort : ¬ (q.blockSize : Int) ∣ q.size) :
    ∃ selected ∈ (q.search (q.searchSizes wantedSize hb)
        (some (q.posArray ⟨q.blockSize, parts.map UInt16.toNat⟩))).2,
      0 ≤ selected.start ∧ selected.size ≤ 0 := by
  have hpos : (0 : Int) < q.blockSize := Int.natCast_pos.mpr hb
  have hround : q.size < roundUp q.size q.blockSize := by
    apply lt_of_le_of_ne (le_roundUp q.size hpos)
    intro heq
    exact hshort (heq ▸ Int.dvd_mul_left _ _)
  have hlt := roundUp_lt q.size hpos
  have hstop : q.backwardStop q.blockSize = roundUp q.size q.blockSize := by
    rcases backwardStop_cases q q.blockSize with ⟨t, ht, hend, -⟩ | hstop
    · have := hdone t ht
      omega
    · exact hstop
  have htarget : targetSize wantedSize q.blockSize = q.blockSize := by
    rw [targetSize, if_neg (by omega)]
  have hfree : ¬ q.blocked q.blockSize q.blockSize ⟨max 0 (roundUp q.size q.blockSize -
      q.blockSize), min (roundUp q.size q.blockSize) q.size -
        max 0 (roundUp q.size q.blockSize - q.blockSize)⟩ (roundUp q.size q.blockSize) = true := by
    rw [Bool.not_eq_true, blocked_eq_false_iff, hwait]
    refine ⟨fun t ht => ?_, by simp⟩
    have := hdone t ht
    rw [if_pos le_rfl]
    omega
  rw [search, if_pos hback, getNextSegmentBackward, posArray_eq]
  have hfirst : ¬ q.blocked q.blockSize (q.searchSizes wantedSize hb).targetSize
      ⟨max 0 (q.backwardStop q.blockSize - (q.searchSizes wantedSize hb).targetSize),
        min (q.backwardStop q.blockSize) q.size -
          max 0 (q.backwardStop q.blockSize - (q.searchSizes wantedSize hb).targetSize)⟩
      (q.backwardStop q.blockSize) = true := by
    rw [show (q.searchSizes wantedSize hb).targetSize = q.blockSize from htarget, hstop]
    exact hfree
  refine ⟨_, backwardLoop_collects (p := q.searchSizes wantedSize hb) _
    (q.searchSizes wantedSize hb).targetSize_pos (by omega) hfirst
    (mem_neededIn_of_meets hi (.inr ?_)), ?_, ?_⟩
  · have hcut : (q.searchSizes wantedSize hb).targetSize = q.blockSize := htarget
    simp only [partPositions]
    omega
  · simp only [partPositions]
    omega
  · simp only [partPositions]
    omega

/-- A range that does not have blocks of the file makes a result that is no segment, if the scan
comes to where it begins. -/
theorem exists_not_partSegment {size : Int} {blockSize : Nat} (hb : 0 < blockSize)
    (hsize : 1024 * 1204 < size) {parts : PartsInfo} {i : Int × Int} (hi : i ∈ partRanges parts)
    (hnonneg : 0 ≤ i.1) (hbad : ¬ PartOk size blockSize i) :
    ∃ q : QueueItem υ, q.size = size ∧ q.blockSize = blockSize ∧
      (∀ t ∈ q.doneSegments, t.Inside q.size) ∧ Consolidated q.doneSegments ∧
      ∃ rand, (q.getNextSegmentL ⟨true, false, 0, 0⟩
          (some ⟨blockSize, parts.map UInt16.toNat⟩) rand).1 ≠ ⟨-1, 0⟩ ∧
        ¬ q.PartSegment parts (q.getNextSegmentL ⟨true, false, 0, 0⟩
          (some ⟨blockSize, parts.map UInt16.toNat⟩) rand).1 := by
  have hpos : (0 : Int) < blockSize := Int.natCast_pos.mpr hb
  have hstart : 0 ≤ i.1 * (blockSize : Int) := Int.mul_nonneg hnonneg hpos.le
  -- an item for which a part without bytes is collected
  obtain ⟨q, hqs, hqb, hin, hcons, hslots, selected, hsel, hsel0, hempty⟩ :
      ∃ q : QueueItem υ, q.size = size ∧ q.blockSize = blockSize ∧
        (∀ t ∈ q.doneSegments, t.Inside q.size) ∧ Consolidated q.doneSegments ∧
        q.downloads.length < q.maxSegments ∧
        ∃ selected, (∀ hb' : 0 < q.blockSize, selected ∈ (q.search (q.searchSizes 0 hb')
          (some (q.posArray ⟨q.blockSize, parts.map UInt16.toNat⟩))).2) ∧
          0 ≤ selected.start ∧ selected.size ≤ 0 := by
    rw [PartOk, not_or] at hbad
    by_cases hlt : i.1 * (blockSize : Int) < size
    · obtain ⟨selected, hsel, h⟩ := forward_collects_reversed (q := (untouched size blockSize :
        QueueItem υ)) hb rfl rfl 0 hi hstart hlt (not_lt.mp fun h => hbad.1 ⟨hlt, h⟩)
      exact ⟨untouched size blockSize, rfl, rfl, by simp [untouched],
        ⟨by simp [untouched, Separated], by simp [untouched, Proper]⟩, Nat.one_pos, selected,
        fun _ => hsel, h⟩
    · have hdone : ∀ t ∈ (wantsEnd size blockSize : QueueItem υ).doneSegments, t.getEnd < size := by
        simpa [wantsEnd, Segment.getEnd] using hsize
      have hback : (wantsEnd size blockSize : QueueItem υ).shouldSearchBackward = true := by
        have hne : (1232896 : Int) ≠ size := by omega
        simp [shouldSearchBackward, wantsEnd, Segment.getEnd, hne]
      obtain ⟨selected, hsel, h⟩ := backward_collects_behind (q := (wantsEnd size blockSize :
        QueueItem υ)) hb (lt_trans (by decide) hsize) hback hdone rfl 0 hpos.le hi
        (not_lt.mp hlt) fun h => hbad.2 ⟨not_lt.mp hlt, h⟩
      refine ⟨wantsEnd size blockSize, rfl, rfl, ?_, ⟨by simp [wantsEnd, Separated],
        by simp [wantsEnd, Proper, Segment.toInterval, Segment.getEnd]⟩, Nat.one_pos, selected,
        fun _ => hsel, h⟩
      intro t ht
      obtain rfl := List.mem_singleton.mp ht
      exact ⟨le_rfl, by decide, (hdone _ ht).le⟩
  subst hqs hqb
  refine ⟨q, rfl, rfl, hin, hcons, ?_⟩
  obtain ⟨rand, hres⟩ := exists_rand_getNextSegmentL ⟨true, false, 0, 0⟩ rfl (by omega) hb
    hslots rfl (hsel hb)
  refine ⟨rand, ?_, fun h => ?_⟩
  · rw [hres, Ne, Segment.mk.injEq]
    omega
  · have := h.inside.2.1
    rw [hres] at this
    dsimp only at this
    omega

/-- The item that lacks the last byte of the first block. -/
private def lacksByte (size : Int) (blockSize : Nat) : QueueItem υ :=
  ⟨size, false, true, blockSize, 1, [], [⟨0, blockSize - 1⟩, ⟨blockSize, size - blockSize⟩],
    0, 0, 0⟩

/-- Without segments the source is not looked at, and the bounds may be rounded to the same
position. -/
theorem exists_single_not_partSegment {size : Int} {blockSize : Nat} (hb : 2 ≤ blockSize)
    (hsize : blockSize < size) (parts : PartsInfo) (partialSource : Option PartialSource) :
    ∃ q : QueueItem υ, q.size = size ∧ q.blockSize = blockSize ∧
      (∀ t ∈ q.doneSegments, t.Inside q.size) ∧ Consolidated q.doneSegments ∧
        (q.getNextSegmentL ⟨false, false, 0, 0⟩ partialSource 0).1 ≠ ⟨-1, 0⟩ ∧
        ¬ q.PartSegment parts (q.getNextSegmentL ⟨false, false, 0, 0⟩ partialSource 0).1 := by
  have hround : roundDown (blockSize - 1 : Int) blockSize = blockSize := by
    have hdiv : ((blockSize : Int) - 1 + blockSize / 2) / blockSize = 1 := by
      rw [Int.ediv_eq_iff_of_pos (by omega)]
      omega
    rw [roundDown, hdiv, one_mul]
  have hround' : roundUp (blockSize : Int) blockSize = blockSize := by
    have hdiv : ((blockSize : Int) + blockSize - 1) / blockSize = 1 := by
      rw [Int.ediv_eq_iff_of_pos (by omega)]
      omega
    rw [roundUp, hdiv, one_mul]
  have hres : ((lacksByte size blockSize : QueueItem υ).getNextSegmentL ⟨false, false, 0, 0⟩
      partialSource 0).1 = ⟨blockSize, 0⟩ := by
    have hknown : ¬ ((lacksByte size blockSize : QueueItem υ).size = -1 ∨
        (lacksByte size blockSize : QueueItem υ).blockSize = 0) := by
      simp only [lacksByte]
      omega
    have hcut : min size (blockSize : Int) = blockSize := min_eq_right hsize.le
    rw [getNextSegmentL, dif_neg hknown]
    simp [lacksByte, isWaiting, getWholeSegment, Segment.getEnd, hround, hround', hcut]
  refine ⟨lacksByte size blockSize, rfl, rfl, ?_, ⟨?_, ?_⟩, ?_, fun h => ?_⟩
  · intro t ht
    simp only [lacksByte, List.mem_cons, List.not_mem_nil, or_false] at ht
    rcases ht with rfl | rfl
    · simp only [Segment.Inside, Segment.getEnd, lacksByte]
      omega
    · simp only [Segment.Inside, Segment.getEnd, lacksByte]
      omega
  · simp [lacksByte, Separated, Segment.toInterval, Segment.getEnd]
  · simp only [Proper, lacksByte, List.map_cons, List.map_nil, Segment.toInterval, Segment.getEnd,
      List.mem_cons, List.not_mem_nil, or_false]
    rintro i (rfl | rfl)
    · dsimp only
      omega
    · dsimp only
      omega
  · rw [hres, Ne, Segment.mk.injEq]
    omega
  · have := h.inside.2.1
    rw [hres] at this
    exact absurd this (lt_irrefl _)

end QueueItem
end Blacklink.Queue
