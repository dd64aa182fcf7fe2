import Mathlib.Data.Int.Order.Basic
import Mathlib.Data.List.Basic

/-!
# Segments and the queue item

Data model of `client/Segment.h:25-64` and of the part of `client/QueueItem.h` that keeps track
of a file's bytes: the consolidated set of finished segments with its byte counter, and the
list of running segments. 64-bit byte positions are integers; a queued size is at most
`FILE_SIZE_LIMIT`, so no sum formed here leaves the 64-bit range. The `overlapped` flag of a
segment is left out: the block of `getNextSegmentL` that sets it is compiled out.
-/

namespace Blacklink.Queue

/-- `Segment`: `size` bytes from `start`. -/
structure Segment where
  start : Int
  size : Int
  deriving DecidableEq

namespace Segment

/-- The default constructor, `Segment() : start(0), size(-1)`; size `-1` means "to the end". -/
def unset : Segment := ⟨0, -1⟩

/-- `getEnd`: the first position after the segment. -/
def getEnd (s : Segment) : Int := s.start + s.size

/-- `overlaps`. -/
def overlaps (s rhs : Segment) : Bool := s.start < rhs.getEnd && rhs.start < s.getEnd

/-- `operator<`: by start, then by size. -/
def lt (s rhs : Segment) : Bool :=
  s.start < rhs.start || (s.start == rhs.start && s.size < rhs.size)

/-- The segment as a half-open interval of positions. -/
def toInterval (s : Segment) : Int × Int := (s.start, s.getEnd)

/-- The position `x` is one of the segment's bytes. -/
def Mem (s : Segment) (x : Int) : Prop := s.start ≤ x ∧ x < s.getEnd

/-- A non-empty segment inside `[0, size)`. -/
def Inside (s : Segment) (size : Int) : Prop := 0 ≤ s.start ∧ 0 < s.size ∧ s.getEnd ≤ size

instance (s : Segment) (x : Int) : Decidable (s.Mem x) := inferInstanceAs (Decidable (_ ∧ _))

instance (s : Segment) (size : Int) : Decidable (s.Inside size) :=
  inferInstanceAs (Decidable (_ ∧ _))

end Segment

/-- `SegmentSet`, a `boost::container::flat_set<Segment>`: its members in increasing order. -/
abbrev SegmentSet := List Segment

/-- `flat_set::insert`: a segment that compares equal to a member is not inserted again. -/
def SegmentSet.insert (seg : Segment) : SegmentSet → SegmentSet
  | [] => [seg]
  | t :: ts =>
    if seg.lt t then seg :: t :: ts
    else if t.lt seg then t :: SegmentSet.insert seg ts
    else t :: ts

/-- `QueueItem::RunningSegment`. `d` is the download once it exists; a user has at most one
download of an item at a time, so the user stands for the pointer. -/
structure RunningSegment (υ : Type) where
  seg : Segment
  d : Option υ
  deriving DecidableEq

/-- The attributes of a `QueueItem` that decide which bytes are fetched.
`wantEnd` is `FLAG_WANT_END`, `allowSegments` is `XFLAG_ALLOW_SEGMENTS`. -/
structure QueueItem (υ : Type) where
  size : Int
  wantEnd : Bool
  allowSegments : Bool
  blockSize : Nat
  maxSegments : Nat
  downloads : List (RunningSegment υ)
  doneSegments : SegmentSet
  doneSegmentsSize : Int
  downloadedBytes : Int
  averageSpeed : Int
  deriving DecidableEq

namespace QueueItem

variable {υ : Type}

/-- `resetDownloadedL`, `client/QueueItem.cpp:291-295`. -/
def resetDownloadedL (q : QueueItem υ) : QueueItem υ :=
  { q with doneSegments := [], doneSegmentsSize := 0, downloadedBytes := 0 }

/-- `isFinished`, `client/QueueItem.cpp:297-303`. -/
def isFinished (q : QueueItem υ) : Bool :=
  match q.doneSegments with
  | [s] => s.start == 0 && s.size == q.size
  | _ => false

/-- The consolidation loop of `addSegmentL`. `pre` are the members before `prev`, the last
argument those from `current` on. Merging erases `prev` and `current` and inserts `big`, which
takes the place of `prev` in the order (`SegmentSet.insert_merged`); the loop goes on with the
member after `big`. The counter loses the two sizes and gains the merged one. -/
def consolidate (pre : SegmentSet) (prev : Segment) (doneSize : Int) :
    SegmentSet → SegmentSet × Int
  | [] => (pre ++ [prev], doneSize)
  | cur :: rest =>
    if prev.getEnd ≥ cur.start then
      let bigEnd := max cur.getEnd prev.getEnd
      let big : Segment := ⟨prev.start, bigEnd - prev.start⟩
      let removedSize := prev.size + cur.size
      consolidate pre big (doneSize - removedSize + big.size) rest
    else consolidate (pre ++ [prev]) cur doneSize rest

/-- `addSegmentL`, `client/QueueItem.cpp:750-776`. -/
def addSegmentL (q : QueueItem υ) (segment : Segment) : QueueItem υ :=
  let done := SegmentSet.insert segment q.doneSegments
  let doneSize := q.doneSegmentsSize + segment.size
  match done with
  | first :: second :: rest =>
    let r := consolidate [] first doneSize (second :: rest)
    { q with doneSegments := r.1, doneSegmentsSize := r.2 }
  | _ => { q with doneSegments := done, doneSegmentsSize := doneSize }

/-- `isWaiting`: no segment is running. -/
def isWaiting (q : QueueItem υ) : Bool := q.downloads.isEmpty

/-- `addDownload(const Segment&)`: reserve a segment before its download exists. -/
def addDownloadSegment (q : QueueItem υ) (seg : Segment) : QueueItem υ :=
  { q with downloads := q.downloads ++ [⟨seg, none⟩] }

/-- `addDownload(const DownloadPtr&)`: `seg` is what `download->getSegment()` returns now. -/
def addDownload (q : QueueItem υ) (d : υ) (seg : Segment) : QueueItem υ :=
  { q with downloads := q.downloads ++ [⟨seg, some d⟩] }

/-- The first running segment equal to `seg` gets its download. -/
def setFirst (seg : Segment) (d : υ) : List (RunningSegment υ) → List (RunningSegment υ)
  | [] => []
  | r :: rs => if r.seg = seg then { r with d := some d } :: rs else r :: setFirst seg d rs

/-- `setDownloadForSegment`, `client/QueueItem.cpp:372-385`. -/
def setDownloadForSegment (q : QueueItem υ) (seg : Segment) (d : υ) : QueueItem υ :=
  { q with downloads := setFirst seg d q.downloads }

/-- `removeDownload(const Segment&)`: erase the first entry for the segment. -/
def removeDownloadSegment (q : QueueItem υ) (seg : Segment) : QueueItem υ :=
  { q with downloads := q.downloads.eraseP fun r => r.seg = seg }

/-- `removeDownload(const UserPtr&)`: erase the first entry whose download is the user's. -/
def removeDownloadUser [DecidableEq υ] (q : QueueItem υ) (user : υ) : QueueItem υ :=
  { q with downloads := q.downloads.eraseP fun r => r.d = some user }

/-- `updateBlockSize`, `client/QueueItem.cpp:945-954`: the block size only grows. -/
def updateBlockSize (q : QueueItem υ) (treeBlockSize : Nat) : QueueItem υ × Bool :=
  if treeBlockSize > q.blockSize then ({ q with blockSize := treeBlockSize }, true)
  else (q, false)

end QueueItem
end Blacklink.Queue
