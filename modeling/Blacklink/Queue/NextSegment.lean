import Mathlib.Tactic.SplitIfs
import Blacklink.Queue.QueueItem

/-!
# The next segment to fetch

Model of `QueueItem::getNextSegmentForward`, `getNextSegmentBackward`, `shouldSearchBackward` and
`getNextSegmentL` (`client/QueueItem.cpp:414-712`). The wanted size is scaled by a floating-point
factor before it is rounded to blocks; `wantedSize` is the value after the scaling and the cut to
`maxChunkSize`, any integer. The random choice among the parts of a partial source is an argument.
-/

namespace Blacklink.Queue

/-- `Util::roundDown`, which rounds to the nearest multiple. -/
def roundDown (size blockSize : Int) : Int := (size + blockSize / 2) / blockSize * blockSize

/-- `Util::roundUp`. -/
def roundUp (size blockSize : Int) : Int := (size + blockSize - 1) / blockSize * blockSize

/-- `QueueItem::PartialSource`: `parts` are pairs of block indices. -/
structure PartialSource where
  blockSize : Int
  parts : List Nat
  deriving DecidableEq

/-- `QueueItem::GetSegmentParams`. -/
structure GetSegmentParams where
  enableMultiChunk : Bool
  dontBeginSegment : Bool
  dontBeginSegSpeed : Int
  wantedSize : Int
  deriving DecidableEq

/-- The errors of `getNextSegmentL`. -/
inductive SegmentError where
  | success
  | downloadSlotsTaken
  | noFreeBlock
  | noNeededPart
  deriving DecidableEq

/-- The block sizes of a search. -/
structure SearchSizes where
  blockSize : Int
  targetSize : Int
  blockSize_pos : 0 < blockSize
  targetSize_pos : 0 < targetSize

namespace QueueItem

variable {υ : Type}

/-- A candidate is skipped if it overlaps a running segment or a finished one; a candidate of one
block only if a finished segment takes it up to `stop`. -/
def blocked (q : QueueItem υ) (blockSize curSize : Int) (block : Segment) (stop : Int) : Bool :=
  (q.doneSegments.any fun i =>
    if curSize ≤ blockSize then i.start ≤ block.start && stop ≤ i.getEnd else block.overlaps i) ||
    q.downloads.any fun r => block.overlaps r.seg

/-- The parts of a partial source that meet a candidate. -/
def neededIn (start stop : Int) : List Int → List Segment
  | s :: e :: rest =>
    if (s ≤ start && start < e) || (start ≤ s && s < stop) then
      ⟨max start s, min stop e - max start s⟩ :: neededIn start stop rest
    else neededIn start stop rest
  | _ => []

/-- The loop of `getNextSegmentForward`. Without `posArray` it returns the first free candidate,
with it the parts of all of them. -/
def forwardLoop (q : QueueItem υ) (p : SearchSizes) (posArray : Option (List Int))
    (start curSize : Int) (_hcur : 0 < curSize) : Segment × List Segment :=
  if start < q.size then
    let stop := min q.size (start + curSize)
    let block : Segment := ⟨start, stop - start⟩
    if q.blocked p.blockSize curSize block stop then
      if hlt : p.blockSize < curSize then
        forwardLoop q p posArray start (curSize - p.blockSize) (by omega)
      else forwardLoop q p posArray stop p.targetSize p.targetSize_pos
    else
      match posArray with
      | none => (block, [])
      | some pos =>
        let r := forwardLoop q p (some pos) stop p.targetSize p.targetSize_pos
        (r.1, neededIn start stop pos ++ r.2)
  else (⟨0, 0⟩, [])
termination_by ((q.size - start).toNat, curSize.toNat)
decreasing_by
  all_goals have := p.blockSize_pos
  all_goals omega

/-- Where `getNextSegmentForward` begins. -/
def forwardStart (q : QueueItem υ) : Int :=
  match q.doneSegments.head? with
  | some segBegin => if segBegin.start = 0 then segBegin.getEnd else 0
  | none => 0

/-- `getNextSegmentForward`. -/
def getNextSegmentForward (q : QueueItem υ) (p : SearchSizes) (posArray : Option (List Int)) :
    Segment × List Segment :=
  q.forwardLoop p posArray q.forwardStart p.targetSize p.targetSize_pos

/-- The loop of `getNextSegmentBackward`. -/
def backwardLoop (q : QueueItem υ) (p : SearchSizes) (posArray : Option (List Int))
    (stop curSize : Int) (_hcur : 0 < curSize) : Segment × List Segment :=
  if 0 < stop then
    let start := max 0 (stop - curSize)
    let block : Segment := ⟨start, min stop q.size - start⟩
    if q.blocked p.blockSize curSize block stop then
      if hlt : p.blockSize < curSize then
        backwardLoop q p posArray stop (curSize - p.blockSize) (by omega)
      else backwardLoop q p posArray start p.targetSize p.targetSize_pos
    else
      match posArray with
      | none => (block, [])
      | some pos =>
        let r := backwardLoop q p (some pos) start p.targetSize p.targetSize_pos
        (r.1, neededIn start stop pos ++ r.2)
  else (⟨0, 0⟩, [])
termination_by (stop.toNat, curSize.toNat)
decreasing_by
  all_goals have := p.blockSize_pos
  all_goals omega

/-- Where `getNextSegmentBackward` begins. -/
def backwardStop (q : QueueItem υ) (blockSize : Int) : Int :=
  let stop := match q.doneSegments.getLast? with
    | some segEnd => if segEnd.getEnd = q.size then segEnd.start else 0
    | none => 0
  if stop = 0 then roundUp q.size blockSize else stop

/-- `getNextSegmentBackward`. -/
def getNextSegmentBackward (q : QueueItem υ) (p : SearchSizes) (posArray : Option (List Int)) :
    Segment × List Segment :=
  q.backwardLoop p posArray (q.backwardStop p.blockSize) p.targetSize p.targetSize_pos

/-- `shouldSearchBackward`. -/
def shouldSearchBackward (q : QueueItem υ) : Bool :=
  match q.doneSegments.head?, q.doneSegments.getLast? with
  | some segBegin, some segEnd =>
    q.wantEnd && segBegin.start == 0 && decide (1024 * 1204 ≤ segBegin.size) &&
      !(segEnd.getEnd == q.size && decide (q.size * 3 / 100 < segEnd.size))
  | _, _ => false

/-- The target size: a multiple of the block size, at least one block. -/
def targetSize (wantedSize blockSize : Int) : Int :=
  if wantedSize > blockSize then roundDown wantedSize blockSize else blockSize

theorem targetSize_pos {wantedSize blockSize : Int} (h : 0 < blockSize) :
    0 < targetSize wantedSize blockSize := by
  rw [targetSize]
  split
  · next hgt =>
    have hdiv : 1 ≤ (wantedSize + blockSize / 2) / blockSize := by
      apply Int.le_ediv_of_mul_le h
      omega
    exact Int.mul_pos (by omega) h
  · exact h

/-- The segment `getNextSegmentL` returns when only one segment may run. -/
def getWholeSegment (q : QueueItem υ) : Segment :=
  let r : Int × Int := match q.doneSegments with
    | [] => (0, q.size)
    | first :: rest =>
      if first.start > 0 then (0, roundUp first.start q.blockSize)
      else (roundDown first.getEnd q.blockSize,
        match rest with
        | [] => q.size
        | second :: _ => roundUp second.start q.blockSize)
  ⟨r.1, min q.size r.2 - r.1⟩

/-- The block indices of a partial source as file positions, if its block size is the item's. -/
def posArray (q : QueueItem υ) (ps : PartialSource) : List Int :=
  if ps.blockSize = (q.blockSize : Int) then
    ps.parts.map fun (i : Nat) => min q.size ((i : Int) * (q.blockSize : Int))
  else []

/-- The sizes `getNextSegmentL` searches with. -/
def searchSizes (q : QueueItem υ) (wantedSize : Int) (h : 0 < q.blockSize) : SearchSizes :=
  ⟨q.blockSize, targetSize wantedSize q.blockSize, Int.natCast_pos.mpr h,
    targetSize_pos (Int.natCast_pos.mpr h)⟩

/-- The search in either direction. -/
def search (q : QueueItem υ) (p : SearchSizes) (posArray : Option (List Int)) :
    Segment × List Segment :=
  if q.shouldSearchBackward then q.getNextSegmentBackward p posArray
  else q.getNextSegmentForward p posArray

/-- `getNextSegmentL`. -/
def getNextSegmentL (q : QueueItem υ) (gsp : GetSegmentParams)
    (partialSource : Option PartialSource) (rand : Nat) : Segment × SegmentError :=
  if h : q.size = -1 ∨ q.blockSize = 0 then (⟨0, -1⟩, .success)
  else if !gsp.enableMultiChunk then
    if !q.isWaiting then (⟨-1, 0⟩, .downloadSlotsTaken) else (q.getWholeSegment, .success)
  else if q.downloads.length ≥ q.maxSegments ∨
      gsp.dontBeginSegment ∧ gsp.dontBeginSegSpeed * 1024 < q.averageSpeed then
    (⟨-1, 0⟩, .noFreeBlock)
  else
    let p := q.searchSizes gsp.wantedSize (by omega)
    let r := q.search p (partialSource.map q.posArray)
    if r.1.size ≠ 0 then (r.1, .success)
    else
      match r.2[rand % r.2.length]? with
      | some selected => (⟨selected.start, min selected.size p.targetSize⟩, .success)
      | none => (⟨-1, 0⟩, .noNeededPart)

end QueueItem
end Blacklink.Queue
