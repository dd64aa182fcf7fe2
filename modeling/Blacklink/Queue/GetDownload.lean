import Mathlib.Logic.Function.Basic
import Blacklink.Queue.SegmentSearch

/-!
# Handing out segments

Model of `QueueManager::getDownload`, of the part of `UserQueue::getNextL` that concerns the item
and of the steps of `putDownload` that touch its segments (`client/QueueManager.cpp:473-554,
1585-1754, 2087-2207`) for a file of known size in multi-chunk mode. Each user runs its own call;
every block that is under a lock is one event, so the calls of several users interleave between
them. What the settings, the database and the peer decide is part of the event. Where another item
of the user is chosen there is no event on this one.
-/

namespace Blacklink.Queue

/-- The type of a `Download`: `TYPE_FILE` or `TYPE_TREE`. -/
inductive TransferType where
  | file
  | tree
  deriving DecidableEq

/-- Where a user is between `getDownload` and the end of `putDownload`: no call, a segment picked,
the segment given up after the block size has grown, the segment settled, the download in the
item's list, the download returned, the bytes marked by `putDownload`. -/
inductive Phase where
  | idle
  | picked (seg : Segment) (segmentAdded : Bool)
  | released
  | chosen (type : TransferType) (seg : Segment) (segmentAdded : Bool)
  | recorded (type : TransferType) (seg : Segment)
  | running (type : TransferType) (seg : Segment)
  | ending (type : TransferType) (seg : Segment) (itemDone : Bool)
  deriving DecidableEq

/-- The segment parameters in multi-chunk mode. -/
abbrev MultiChunkParams := { gsp : GetSegmentParams // gsp.enableMultiChunk = true }

theorem enableMultiChunk_mk :
    (⟨true, false, 0, 0⟩ : GetSegmentParams).enableMultiChunk = true := rfl

/-- What decides the first block of `getDownload`. `positions` and `speed` are the sums of the
running downloads, `startDownload` that slots are not checked or that there is one. -/
structure PickParams where
  gsp : MultiChunkParams
  partialSource : Option PartialSource
  rand : Nat
  hasFreeSlots : Bool
  positions : Int
  speed : Int
  tempExists : Bool
  startDownload : Bool

/-- The steps of the calls. -/
inductive FetchEvent (υ : Type) where
  | pick (u : υ) (a : PickParams)
  | lookupTree (u : υ) (tree : Option Nat) (wantTree : Bool)
  | recompute (u : υ) (gsp : MultiChunkParams) (source : Option (Option PartialSource)) (rand : Nat)
  | record (u : υ)
  | setSegment (u : υ)
  | markDone (u : υ) (finished : Bool) (bytes pos treeBlockSize : Nat)
  | removeDownload (u : υ) (hasTree : Bool)

/-- A queue item and the calls of its users. -/
structure SharedItem (υ : Type) where
  item : QueueItem υ
  hasTTH : Bool
  queued : Bool
  phase : υ → Phase

namespace SharedItem

variable {υ : Type} [DecidableEq υ]

/-- The item and the user's phase change. -/
def update (s : SharedItem υ) (u : υ) (item : QueueItem υ) (phase : Phase) : SharedItem υ :=
  { s with item := item, phase := Function.update s.phase u phase }

/-- The segment `getNextL` finds in the item. An item that is not waiting needs
`XFLAG_ALLOW_SEGMENTS`. -/
def offered (q : QueueItem υ) (a : PickParams) : Option Segment :=
  if (q.isWaiting && !a.hasFreeSlots) || (!q.isWaiting && !q.allowSegments) then none
  else
    let seg := (q.getNextSegmentL a.gsp a.partialSource a.rand).1
    if seg.size = 0 then none else some seg

/-- The item after `updateDownloadedBytesAndSpeed`, reset if the temporary file is gone. -/
def refresh (q : QueueItem υ) (a : PickParams) : QueueItem υ :=
  let q := { q with downloadedBytes := q.doneSegmentsSize + a.positions, averageSpeed := a.speed }
  if 0 < q.downloadedBytes ∧ a.tempExists = false then q.resetDownloadedL else q

/-- The first block of `getDownload`: the segment is reserved, and given up without a slot. -/
def pick (s : SharedItem υ) (u : υ) (a : PickParams) : SharedItem υ :=
  match offered s.item a with
  | none => s
  | some seg =>
    if seg.size = -1 then
      if a.startDownload then s.update u (refresh s.item a) (.picked .unset false)
      else s.update u (refresh s.item a) .idle
    else
      let item := refresh (s.item.addDownloadSegment seg) a
      if a.startDownload then s.update u item (.picked seg true)
      else s.update u (item.removeDownloadSegment seg) .idle

/-- The segment is given up if it was reserved. -/
def release (q : QueueItem υ) (seg : Segment) (segmentAdded : Bool) : QueueItem υ :=
  if segmentAdded then q.removeDownloadSegment seg else q

/-- The branches on the tree up to the re-computation. `wantTree` is that the peer can send a tree
and the file is large enough to have one. -/
def lookupTree (s : SharedItem υ) (u : υ) (seg : Segment) (segmentAdded : Bool)
    (tree : Option Nat) (wantTree : Bool) : SharedItem υ :=
  if !s.hasTTH then s.update u s.item (.chosen .file seg segmentAdded)
  else
    match tree with
    | some treeBlockSize =>
      let r := s.item.updateBlockSize treeBlockSize
      if r.2 then s.update u (release r.1 seg segmentAdded) .released
      else s.update u { r.1 with allowSegments := true } (.chosen .file seg segmentAdded)
    | none =>
      s.update u (release s.item seg segmentAdded)
        (.chosen (if wantTree then .tree else .file) .unset false)

/-- The re-computation. The user may no longer be a source. -/
def recompute (s : SharedItem υ) (u : υ) (gsp : MultiChunkParams)
    (source : Option (Option PartialSource)) (rand : Nat) : SharedItem υ :=
  let seg := match source with
    | some partialSource => (s.item.getNextSegmentL gsp partialSource rand).1
    | none => ⟨-1, 0⟩
  s.update u { s.item with allowSegments := true } (.chosen .file seg false)

/-- The download is put into the list. It has its default segment until `setSegment`. -/
def record (s : SharedItem υ) (u : υ) (type : TransferType) (seg : Segment)
    (segmentAdded : Bool) : SharedItem υ :=
  if seg.size = 0 then s.update u s.item .idle
  else if segmentAdded then
    s.update u (s.item.setDownloadForSegment seg u) (.recorded type seg)
  else s.update u (s.item.addDownload u .unset) (.recorded type seg)

/-- `putDownload` up to `addSegment`. A download of unknown size has got it from the peer. -/
def markDone (s : SharedItem υ) (u : υ) (type : TransferType) (seg : Segment)
    (finished : Bool) (bytes pos treeBlockSize : Nat) : SharedItem υ :=
  match type with
  | .tree => s.update u s.item (.ending .tree seg false)
  | .file =>
    if finished then
      let item := s.item.addSegmentL ⟨seg.start, if seg.size = -1 then bytes else seg.size⟩
      s.update u item (.ending .file seg item.isFinished)
    else
      let downloaded := pos - pos % treeBlockSize
      let item := if 0 < downloaded then s.item.addSegmentL ⟨seg.start, downloaded⟩ else s.item
      s.update u item (.ending .file seg false)

/-- The rest of `putDownload`. A finished item leaves the queue. -/
def removeDownload (s : SharedItem υ) (u : υ) (type : TransferType) (itemDone hasTree : Bool) :
    SharedItem υ :=
  if itemDone then { s.update u s.item .idle with queued := false }
  else
    let item := s.item.removeDownloadUser u
    s.update u (if type = .tree ∧ hasTree then { item with allowSegments := true } else item) .idle

/-- One step of a user. It happens only in its phase, and while the item is in the queue. -/
def step (s : SharedItem υ) (e : FetchEvent υ) : SharedItem υ :=
  if !s.queued then s
  else
    match e with
    | .pick u a =>
      match s.phase u with
      | .idle => s.pick u a
      | _ => s
    | .lookupTree u tree wantTree =>
      match s.phase u with
      | .picked seg segmentAdded => s.lookupTree u seg segmentAdded tree wantTree
      | _ => s
    | .recompute u gsp source rand =>
      match s.phase u with
      | .released => s.recompute u gsp source rand
      | _ => s
    | .record u =>
      match s.phase u with
      | .chosen type seg segmentAdded => s.record u type seg segmentAdded
      | _ => s
    | .setSegment u =>
      match s.phase u with
      | .recorded type seg => s.update u s.item (.running type seg)
      | _ => s
    | .markDone u finished bytes pos treeBlockSize =>
      match s.phase u with
      | .running type seg => s.markDone u type seg finished bytes pos treeBlockSize
      | _ => s
    | .removeDownload u hasTree =>
      match s.phase u with
      | .ending type _ itemDone => s.removeDownload u type itemDone hasTree
      | _ => s

omit [DecidableEq υ] in
/-- An item that nobody fetches yet. -/
def initial (q : QueueItem υ) (hasTTH : Bool) : SharedItem υ where
  item := { q with downloads := [] }
  hasTTH := hasTTH
  queued := true
  phase := fun _ => .idle

end SharedItem
end Blacklink.Queue
