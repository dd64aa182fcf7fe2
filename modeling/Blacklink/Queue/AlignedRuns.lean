import Blacklink.Queue.AlignedSegments
import Blacklink.Queue.ExclusiveSegments

/-!
# Alignment over a run

A download marks what it has got, and a tree may make the block size grow
(`client/QueueManager.cpp:1680-1750, 2237-2250`, `client/QueueItem.cpp:945-954`). As long as whole
blocks are marked and all that is done or handed out consists of whole blocks of the new size when
it grows, every segment the search returns consists of whole blocks.
-/

namespace Blacklink.Queue

open Blacklink.Base

namespace SharedItem

variable {υ : Type} [DecidableEq υ] {s : SharedItem υ}

/-- What `putDownload` marks. -/
def marked (seg : Segment) (finished : Bool) (bytes pos treeBlockSize : Nat) : Segment :=
  if finished then ⟨seg.start, if seg.size = -1 then bytes else seg.size⟩
  else ⟨seg.start, (pos - pos % treeBlockSize : Nat)⟩

omit [DecidableEq υ] in
/-- The lists of partial sources are ordered, the block size grows only if what is done and what
other users have consists of whole blocks of the new size, and whole blocks are marked. -/
def KeepsBlocks (s : SharedItem υ) : FetchEvent υ → Prop
  | .pick _ a => ∀ ps, a.partialSource = some ps → ps.Ordered
  | .lookupTree u tree _ => ∀ treeBlockSize, tree = some treeBlockSize →
      s.item.blockSize < treeBlockSize →
      (∀ t ∈ s.item.doneSegments, t.Blocks treeBlockSize s.item.size) ∧
      ∀ v, v ≠ u → ∀ type seg, (s.phase v).target = some (type, seg) → 0 < seg.size →
        seg.Blocks treeBlockSize s.item.size
  | .recompute _ _ source _ => ∀ ps, source = some (some ps) → ps.Ordered
  | .markDone u finished bytes pos treeBlockSize => ∀ seg, s.phase u = .running .file seg →
      finished = true ∨ 0 < (marked seg finished bytes pos treeBlockSize).size →
      (marked seg finished bytes pos treeBlockSize).Inside s.item.size ∧
        (marked seg finished bytes pos treeBlockSize).Blocks s.item.blockSize s.item.size
  | _ => True

omit [DecidableEq υ] in
/-- The invariant: what is done and what has been handed out consists of whole blocks. -/
structure Aligned (s : SharedItem υ) (size : Int) : Prop where
  size_eq : s.item.size = size
  blockSize : 0 < s.item.blockSize
  done : s.item.DoneBlocks
  held : ∀ u type seg, (s.phase u).target = some (type, seg) → 0 < seg.size →
    seg.Blocks s.item.blockSize size

variable {size : Int}

/-- A step of a user that leaves the block size. -/
private theorem Aligned.update (h : s.Aligned size) {u : υ} {item : QueueItem υ} {phase : Phase}
    (hitem : item.size = s.item.size ∧ item.blockSize = s.item.blockSize) (hdone : item.DoneBlocks)
    (hheld : ∀ type seg, phase.target = some (type, seg) → 0 < seg.size →
      seg.Blocks s.item.blockSize size) : (s.update u item phase).Aligned size := by
  refine ⟨hitem.1.trans h.size_eq, ?_, hdone, ?_⟩
  · change 0 < item.blockSize
    rw [hitem.2]
    exact h.blockSize
  · intro v type seg hv hpos
    change seg.Blocks item.blockSize size
    rw [hitem.2]
    change (Function.update s.phase u phase v).target = _ at hv
    by_cases hvu : v = u
    · rw [hvu, Function.update_self] at hv
      exact hheld type seg hv hpos
    · rw [Function.update_of_ne hvu] at hv
      exact h.held v type seg hv hpos

/-- The block size grows, and the user gives up its segment. -/
private theorem Aligned.grow (h : s.Aligned size) {u : υ} {item : QueueItem υ}
    {treeBlockSize : Nat} (hpos : 0 < treeBlockSize)
    (hitem : item.size = s.item.size ∧ item.blockSize = treeBlockSize)
    (hdone : item.doneSegments = s.item.doneSegments)
    (hblocks : ∀ t ∈ s.item.doneSegments, t.Blocks treeBlockSize s.item.size)
    (hheld : ∀ v, v ≠ u → ∀ type seg, (s.phase v).target = some (type, seg) → 0 < seg.size →
      seg.Blocks treeBlockSize s.item.size) : (s.update u item .released).Aligned size := by
  obtain ⟨hsize, hblock⟩ := hitem
  refine ⟨hsize.trans h.size_eq, hblock ▸ hpos, ⟨?_, ?_, ?_⟩, ?_⟩
  · change QueueItem.Consolidated item.doneSegments
    rw [hdone]
    exact h.done.consolidated
  · change ∀ t ∈ item.doneSegments, t.Inside item.size
    rw [hdone, hsize]
    exact h.done.inside
  · change ∀ t ∈ item.doneSegments, t.Blocks item.blockSize item.size
    rw [hdone, hsize, hblock]
    exact hblocks
  · intro v type seg hv hpos'
    change (Function.update s.phase u .released v).target = _ at hv
    change seg.Blocks item.blockSize size
    rw [hblock, ← h.size_eq]
    by_cases hvu : v = u
    · rw [hvu, Function.update_self] at hv
      cases hv
    · rw [Function.update_of_ne hvu] at hv
      exact hheld v hvu type seg hv hpos'

omit [DecidableEq υ] in
/-- The attributes that alignment is about are the same. -/
private theorem doneBlocks_congr {q q' : QueueItem υ} (h : q.DoneBlocks) (hsize : q'.size = q.size)
    (hblock : q'.blockSize = q.blockSize)
    (hdone : q'.doneSegments = q.doneSegments ∨ q'.doneSegments = []) : q'.DoneBlocks := by
  rcases hdone with hdone | hdone
  · refine ⟨?_, ?_, ?_⟩
    · rw [hdone]
      exact h.consolidated
    · rw [hdone, hsize]
      exact h.inside
    · rw [hdone, hsize, hblock]
      exact h.blocks
  · refine ⟨?_, ?_, ?_⟩ <;> rw [hdone]
    · exact ⟨by simp [Separated], by simp [Proper]⟩
    · simp
    · simp

omit [DecidableEq υ] in
private theorem getNextSegmentL_blocks (h : s.Aligned size) (hsize : 0 < size)
    (gsp : MultiChunkParams) {partialSource : Option PartialSource} {rand : Nat}
    (hparts : ∀ ps, partialSource = some ps → ps.Ordered)
    (hne : (s.item.getNextSegmentL gsp partialSource rand).1.size ≠ 0) :
    (s.item.getNextSegmentL gsp partialSource rand).1.Blocks s.item.blockSize size := by
  have hpos : 0 < s.item.size := by
    rw [h.size_eq]
    exact hsize
  rw [← h.size_eq]
  exact (QueueItem.getNextSegmentL_aligned gsp.2 hpos h.blockSize h.done hparts hne).2.1

/-! ### The steps -/

private theorem pick_aligned (h : s.Aligned size) (hsize : 0 < size) {u : υ} {a : PickParams}
    (hok : ∀ ps, a.partialSource = some ps → ps.Ordered) : (s.pick u a).Aligned size := by
  have hrefresh (q : QueueItem υ) (hq : q.size = s.item.size)
      (hb : q.blockSize = s.item.blockSize) (hd : q.doneSegments = s.item.doneSegments) :
      ((refresh q a).size = s.item.size ∧ (refresh q a).blockSize = s.item.blockSize) ∧
        (refresh q a).DoneBlocks := by
    rw [refresh]
    split
    · exact ⟨⟨hq, hb⟩, doneBlocks_congr h.done hq hb (.inr rfl)⟩
    · exact ⟨⟨hq, hb⟩, doneBlocks_congr h.done hq hb (.inl hd)⟩
  rw [pick]
  cases hoffered : offered s.item a with
  | none => exact h
  | some seg =>
    have hblocks : seg.Blocks s.item.blockSize size := by
      rw [offered] at hoffered
      split at hoffered
      · cases hoffered
      · simp only at hoffered
        split at hoffered
        · cases hoffered
        · next hne =>
          obtain rfl := Option.some_inj.mp hoffered
          exact getNextSegmentL_blocks h hsize a.gsp hok hne
    simp only
    split
    · obtain ⟨hsame, hdone⟩ := hrefresh s.item rfl rfl rfl
      split
      · refine h.update hsame hdone ?_
        rintro type seg' ⟨⟩ hpos
        exact absurd hpos (by decide)
      · refine h.update hsame hdone ?_
        rintro type seg' ⟨⟩
    · obtain ⟨hsame, hdone⟩ := hrefresh (s.item.addDownloadSegment seg) rfl rfl rfl
      split
      · refine h.update hsame hdone ?_
        rintro type seg' ⟨⟩ -
        exact hblocks
      · refine h.update ?_ (doneBlocks_congr hdone rfl rfl (.inl rfl)) ?_
        · exact hsame
        · rintro type seg' ⟨⟩

omit [DecidableEq υ] in
private theorem release_same (q : QueueItem υ) (seg : Segment) (segmentAdded : Bool) :
    ((release q seg segmentAdded).size = q.size ∧
      (release q seg segmentAdded).blockSize = q.blockSize) ∧
      (release q seg segmentAdded).doneSegments = q.doneSegments := by
  rw [release]
  split <;> exact ⟨⟨rfl, rfl⟩, rfl⟩

private theorem lookupTree_aligned (h : s.Aligned size) {u : υ} {seg : Segment}
    {segmentAdded wantTree : Bool} {tree : Option Nat}
    (hphase : s.phase u = .picked seg segmentAdded)
    (hok : s.KeepsBlocks (.lookupTree u tree wantTree)) :
    (s.lookupTree u seg segmentAdded tree wantTree).Aligned size := by
  have hseg : 0 < seg.size → seg.Blocks s.item.blockSize size :=
    h.held u .file seg (by rw [hphase]; rfl)
  unfold lookupTree
  split
  · refine h.update ⟨rfl, rfl⟩ h.done ?_
    rintro type seg' ⟨⟩
    exact hseg
  · cases tree with
    | none =>
      obtain ⟨hsame, hdone⟩ := release_same s.item seg segmentAdded
      refine h.update hsame (doneBlocks_congr h.done hsame.1 hsame.2 (.inl hdone)) ?_
      rintro type seg' ⟨⟩ hpos
      exact absurd hpos (by decide)
    | some treeBlockSize =>
      by_cases hgrow : s.item.blockSize < treeBlockSize
      · have hgrown : s.item.updateBlockSize treeBlockSize =
            ({ s.item with blockSize := treeBlockSize }, true) := if_pos hgrow
        obtain ⟨hdone, hheld⟩ := hok treeBlockSize rfl hgrow
        obtain ⟨hsame, hdone'⟩ := release_same { s.item with blockSize := treeBlockSize } seg
          segmentAdded
        simp only [hgrown, if_true]
        exact h.grow (Nat.zero_lt_of_lt hgrow) hsame hdone' hdone hheld
      · have hsame : s.item.updateBlockSize treeBlockSize = (s.item, false) := if_neg hgrow
        simp only [hsame, Bool.false_eq_true, if_false]
        refine h.update ⟨rfl, rfl⟩ (doneBlocks_congr h.done rfl rfl (.inl rfl)) ?_
        rintro type seg' ⟨⟩
        exact hseg

/-- What is marked is added to what is done, if there is any. -/
private theorem markDone_eq (s : SharedItem υ) (u : υ) (seg : Segment) (finished : Bool)
    (bytes pos treeBlockSize : Nat) :
    ∃ itemDone, (finished = true ∨ 0 < (marked seg finished bytes pos treeBlockSize).size) ∧
        s.markDone u .file seg finished bytes pos treeBlockSize =
          s.update u (s.item.addSegmentL (marked seg finished bytes pos treeBlockSize))
            (.ending .file seg itemDone) ∨
      s.markDone u .file seg finished bytes pos treeBlockSize =
        s.update u s.item (.ending .file seg itemDone) := by
  rw [markDone, marked]
  cases finished with
  | true => exact ⟨_, .inl ⟨.inl rfl, rfl⟩⟩
  | false =>
    refine ⟨false, ?_⟩
    simp only [Bool.false_eq_true, if_false, false_or]
    split
    · next hpos => exact .inl ⟨Int.natCast_pos.mpr hpos, rfl⟩
    · exact .inr rfl

private theorem markDone_aligned (h : s.Aligned size) {u : υ} {seg : Segment} {finished : Bool}
    {bytes pos treeBlockSize : Nat} (hphase : s.phase u = .running .file seg)
    (hok : s.KeepsBlocks (.markDone u finished bytes pos treeBlockSize)) :
    (s.markDone u .file seg finished bytes pos treeBlockSize).Aligned size := by
  have hheld : ∀ (itemDone : Bool) type seg',
      (Phase.ending .file seg itemDone).target = some (type, seg') → 0 < seg'.size →
        seg'.Blocks s.item.blockSize size := by
    rintro itemDone type seg' ⟨⟩
    exact h.held u .file seg (by rw [hphase]; rfl)
  obtain ⟨itemDone, ⟨hany, hmark⟩ | hmark⟩ := markDone_eq s u seg finished bytes pos treeBlockSize
  · obtain ⟨hin, hblocks⟩ := hok seg hphase hany
    obtain ⟨hsame, -, hblock⟩ := QueueItem.addSegmentL_frame s.item
      (marked seg finished bytes pos treeBlockSize)
    rw [hmark]
    exact h.update ⟨hsame, hblock⟩ (h.done.addSegmentL hin hblocks) (hheld itemDone)
  · rw [hmark]
    exact h.update ⟨rfl, rfl⟩ h.done (hheld itemDone)

/-- One step of a user keeps the alignment. -/
theorem step_aligned (h : s.Aligned size) (hsize : 0 < size) (e : FetchEvent υ)
    (hok : s.KeepsBlocks e) : (s.step e).Aligned size := by
  unfold step
  split
  · exact h
  cases e with
  | pick u a =>
    simp only
    split
    · exact pick_aligned h hsize hok
    · exact h
  | lookupTree u tree wantTree =>
    simp only
    split
    · next seg segmentAdded hphase => exact lookupTree_aligned h hphase hok
    · exact h
  | recompute u gsp source rand =>
    simp only
    split
    · refine h.update ⟨rfl, rfl⟩ (doneBlocks_congr h.done rfl rfl (.inl rfl)) ?_
      rintro type seg ⟨⟩ hpos
      cases source with
      | none => exact absurd hpos (lt_irrefl 0)
      | some partialSource =>
        exact getNextSegmentL_blocks h hsize gsp (fun ps hps => hok ps (by rw [hps]))
          (Int.ne_of_gt hpos)
    · exact h
  | record u =>
    simp only
    split
    · next type seg segmentAdded hphase =>
      have hseg : 0 < seg.size → seg.Blocks s.item.blockSize size :=
        h.held u type seg (by rw [hphase]; rfl)
      rw [record]
      split
      · refine h.update ⟨rfl, rfl⟩ h.done ?_
        rintro type seg' ⟨⟩
      · split
        · refine h.update ⟨rfl, rfl⟩ (doneBlocks_congr h.done rfl rfl (.inl rfl)) ?_
          rintro type' seg' ⟨⟩
          exact hseg
        · refine h.update ⟨rfl, rfl⟩ (doneBlocks_congr h.done rfl rfl (.inl rfl)) ?_
          rintro type' seg' ⟨⟩
          exact hseg
    · exact h
  | setSegment u =>
    simp only
    split
    · next type seg hphase =>
      refine h.update ⟨rfl, rfl⟩ h.done ?_
      rintro type' seg' ⟨⟩
      exact h.held u type seg (by rw [hphase]; rfl)
    · exact h
  | markDone u finished bytes pos treeBlockSize =>
    simp only
    split
    · next type seg hphase =>
      cases type with
      | file => exact markDone_aligned h hphase hok
      | tree =>
        refine h.update ⟨rfl, rfl⟩ h.done ?_
        rintro type' seg' ⟨⟩
        exact h.held u .tree seg (by rw [hphase]; rfl)
    · exact h
  | removeDownload u hasTree =>
    simp only
    split
    · next type seg itemDone hphase =>
      rw [removeDownload]
      split
      · have hidle : (s.update u s.item .idle).Aligned size :=
          h.update ⟨rfl, rfl⟩ h.done (by rintro type seg ⟨⟩)
        exact ⟨hidle.size_eq, hidle.blockSize, hidle.done, hidle.held⟩
      · refine h.update ?_ ?_ ?_
        · split <;> exact ⟨rfl, rfl⟩
        · split <;> exact doneBlocks_congr h.done rfl rfl (.inl rfl)
        · rintro type' seg' ⟨⟩
    · exact h

/-- In a run whose steps keep whole blocks every segment that the search returns consists of whole
blocks of the size the item has then. -/
theorem getNextSegmentL_aligned_of_within (q : QueueItem υ) (hasTTH : Bool) (hsize : 0 < q.size)
    (hblock : 0 < q.blockSize) (hdone : q.DoneBlocks) (es : List (FetchEvent υ))
    (h : Within KeepsBlocks step (initial q hasTTH) es) (pre : List (FetchEvent υ))
    (hpre : pre <+: es) (gsp : MultiChunkParams) (rand : Nat)
    (hne : ((run step (initial q hasTTH) pre).item.getNextSegmentL gsp none rand).1.size ≠ 0) :
    ((run step (initial q hasTTH) pre).item.getNextSegmentL gsp none rand).1.Blocks
      (run step (initial q hasTTH) pre).item.blockSize q.size := by
  obtain ⟨post, rfl⟩ := hpre
  have hw := ((within_append KeepsBlocks step (initial q hasTTH) pre post).mp h).1
  have hinv := hw.invariant (fun s => s.Aligned q.size)
    (fun _ e hs he => step_aligned hs hsize e he)
    ⟨rfl, hblock, doneBlocks_congr hdone rfl rfl (.inl rfl), by rintro u type seg ⟨⟩⟩
  exact getNextSegmentL_blocks hinv hsize gsp (by rintro ps ⟨⟩) hne

/-! ### A file of sixteen blocks -/

/-- Sixteen blocks of 64 kB of which nothing is done. -/
private def sixteenBlocks : QueueItem Nat := ⟨1048576, false, true, 65536, 2, [], [], 0, 0, 0⟩

private def wantBlock : PickParams :=
  ⟨⟨⟨true, false, 0, 0⟩, enableMultiChunk_mk⟩, none, 0, true, 0, 0, true, true⟩

private theorem pick_sixteenBlocks : (initial sixteenBlocks true).pick 0 wantBlock =
    (initial sixteenBlocks true).update 0 (sixteenBlocks.addDownloadSegment ⟨0, 65536⟩)
      (.picked ⟨0, 65536⟩ true) := by
  simp [initial, pick, offered, refresh, sixteenBlocks, wantBlock, QueueItem.isWaiting,
    QueueItem.getNextSegmentL, QueueItem.search, QueueItem.searchSizes, QueueItem.targetSize,
    QueueItem.shouldSearchBackward, QueueItem.getNextSegmentForward, QueueItem.forwardStart,
    QueueItem.forwardLoop, QueueItem.blocked, QueueItem.addDownloadSegment]

/-- The state behind the pick. -/
private def pickedFirst : SharedItem Nat :=
  (initial sixteenBlocks true).update 0 (sixteenBlocks.addDownloadSegment ⟨0, 65536⟩)
    (.picked ⟨0, 65536⟩ true)

/-- What follows when the download gets `tree` and ends at `pos`. -/
private def fetchFirst (tree : Option Nat) (finished : Bool) (pos treeBlockSize : Nat) :
    List (FetchEvent Nat) :=
  [.lookupTree 0 tree false, .record 0, .setSegment 0, .markDone 0 finished 0 pos treeBlockSize,
    .removeDownload 0 false]

private theorem run_pick (es : List (FetchEvent Nat)) :
    run step (initial sixteenBlocks true) (.pick 0 wantBlock :: es) = run step pickedFirst es := by
  rw [run_cons]
  congr 1
  exact pick_sixteenBlocks

/-- The second block comes after the first. -/
theorem getNextSegmentL_aligned_second_block :
    ((run step (initial sixteenBlocks true) (.pick 0 wantBlock ::
        fetchFirst (some 65536) true 0 65536)).item.getNextSegmentL wantBlock.gsp none 0).1.Blocks
      (run step (initial sixteenBlocks true) (.pick 0 wantBlock ::
        fetchFirst (some 65536) true 0 65536)).item.blockSize sixteenBlocks.size := by
  have hitem : (run step pickedFirst (fetchFirst (some 65536) true 0 65536)).item =
      { sixteenBlocks with doneSegments := [⟨0, 65536⟩], doneSegmentsSize := 65536 } := by
    rfl
  apply getNextSegmentL_aligned_of_within sixteenBlocks true (by decide) (by decide)
    ⟨⟨by simp [sixteenBlocks, Separated], by simp [sixteenBlocks, Proper]⟩,
      by simp [sixteenBlocks], by simp [sixteenBlocks]⟩ _ _ _ List.prefix_rfl
  · rw [run_pick, hitem]
    simp [sixteenBlocks, wantBlock, QueueItem.getNextSegmentL, QueueItem.search,
      QueueItem.searchSizes, QueueItem.targetSize, QueueItem.shouldSearchBackward,
      QueueItem.getNextSegmentForward, QueueItem.forwardStart, QueueItem.forwardLoop,
      QueueItem.blocked, Segment.getEnd]
  · refine (within_cons ..).mpr ⟨by rintro ps ⟨⟩, ?_⟩
    rw [show step (initial sixteenBlocks true) (.pick 0 wantBlock) = pickedFirst from
      pick_sixteenBlocks]
    refine ⟨?_, True.intro, True.intro, ?_, True.intro, True.intro⟩
    · rintro treeBlockSize ⟨⟩ hgrow
      exact absurd hgrow (by decide)
    · rintro seg hphase -
      obtain rfl : Segment.mk 0 65536 = seg := by
        have := Phase.running.inj hphase
        exact this.2
      exact ⟨by decide, ⟨by decide, .inl (by decide)⟩⟩

/-- A download without a tree marks what it got in multiples of 1024 bytes, and the next segment
begins there. -/
theorem not_aligned_without_tree :
    ¬ ∀ (q : QueueItem Nat) (es : List (FetchEvent Nat)) (gsp : MultiChunkParams) (rand : Nat),
      0 < q.size → 0 < q.blockSize → q.DoneBlocks →
      ((run step (initial q true) es).item.getNextSegmentL gsp none rand).1.size ≠ 0 →
      ((run step (initial q true) es).item.getNextSegmentL gsp none rand).1.Blocks
        (run step (initial q true) es).item.blockSize q.size := by
  intro h
  have hitem : (run step pickedFirst (fetchFirst none false 3000 1024)).item =
      { sixteenBlocks with doneSegments := [⟨0, 2048⟩], doneSegmentsSize := 2048 } := by
    rfl
  have hnext : ((run step (initial sixteenBlocks true) (.pick 0 wantBlock ::
      fetchFirst none false 3000 1024)).item.getNextSegmentL wantBlock.gsp none 0).1 =
      ⟨2048, 65536⟩ := by
    rw [run_pick, hitem]
    simp [sixteenBlocks, wantBlock, QueueItem.getNextSegmentL, QueueItem.search,
      QueueItem.searchSizes, QueueItem.targetSize, QueueItem.shouldSearchBackward,
      QueueItem.getNextSegmentForward, QueueItem.forwardStart, QueueItem.forwardLoop,
      QueueItem.blocked, Segment.getEnd]
  have hblocks := h sixteenBlocks _ wantBlock.gsp 0 (by decide) (by decide)
    ⟨⟨by simp [sixteenBlocks, Separated], by simp [sixteenBlocks, Proper]⟩,
      by simp [sixteenBlocks], by simp [sixteenBlocks]⟩ (by rw [hnext]; decide)
  rw [hnext, run_pick, hitem] at hblocks
  exact absurd hblocks.start (by decide)

end SharedItem
end Blacklink.Queue
