import Blacklink.Hash.Load
import Blacklink.Queue.GetDownload
import Blacklink.Stream.Storage
import Blacklink.Transfer.Data

/-!
# A queue item and its temporary file

The calls of `Queue.GetDownload` together with the data path of `Transfer.Data`: the tree a download
gets from the database, the trees peers send (`client/DownloadManager.cpp:395-421`,
`client/QueueManager.cpp:2090-2113`), `startData`, the chunks of data, and `putDownload`, which
destroys the streams and records the bytes. Every file download of the item writes to the one
temporary file. Its writes succeed, and nobody else writes to it.
-/

namespace Blacklink.Transfer

open Blacklink.Hash Blacklink.Queue Blacklink.Stream Blacklink.Stream.StoringStream

/-- The bytes of a file by position. -/
abbrev Content := Nat → UInt8

namespace Content

/-- Write `bytes` from the position `pos` on. -/
def store (c : Content) (pos : Nat) (bytes : List UInt8) : Content := fun x =>
  if pos ≤ x then (bytes[x - pos]?).getD (c x) else c x

/-- The first `size` bytes. -/
def bytes (c : Content) (size : Nat) : List UInt8 := (List.range size).map c

end Content

/-- The steps of the calls, with the bytes of the peers. `startData` carries the start and the
number of bytes of the peer's `SND`, and the filter state of a compressed transfer. -/
inductive FileEvent (υ φ V : Type) where
  | addTree (tree : MerkleTree V)
  | pick (u : υ) (a : PickParams)
  | lookupTree (u : υ) (wantTree : Bool)
  | recompute (u : υ) (gsp : MultiChunkParams) (source : Option (Option PartialSource)) (rand : Nat)
  | record (u : υ)
  | setSegment (u : υ)
  | receiveTree (u : υ) (leaves : List V) (stored : Bool)
  | startData (u : υ) (start bytes : Int) (bufSize : Nat) (z : Option φ)
  | data (u : υ) (b : List UInt8)
  | putDownload (u : υ)
  | removeDownload (u : υ) (hasTree : Bool)

/-- The item, the tree the database has for its TTH, the tree of each user's download, the state of
its transfer and the temporary file. -/
structure ItemFile {φ V : Type} (F : Stream.Filter φ) (H : Hasher V) (υ : Type) where
  shared : SharedItem υ
  db : Option (MerkleTree V)
  tree : υ → Option (MerkleTree V)
  progress : υ → Option (Progress F H)
  content : Content

namespace ItemFile

variable {φ V υ : Type} {F : Stream.Filter φ} {H : Hasher V} [DecidableEq V] [DecidableEq υ]

/-- `QueueManager::FILE_SIZE_LIMIT`. -/
def fileSizeLimit : Int := 500 * 2 ^ 40

/-- `endData` and `putDownload` of a tree. The leaves are the peer's bytes cut into hash values; a
tree with another root is dropped, and one with a single leaf is not kept. `stored` is that the
database does not prefer a tree it has. Without leaves `endData` does not return. -/
def receiveTree (tth : V) (s : ItemFile F H υ) (u : υ) (leaves : List V) (stored : Bool) :
    ItemFile F H υ :=
  if leaves = [] then s
  else
    let tree := MerkleTree.load H s.shared.item.size.toNat leaves
    { s with
      shared := s.shared.step (.markDone u false 0 0 baseBlockSize)
      db := if tree.root = tth ∧ 2 ≤ leaves.length ∧ stored then some tree else s.db }

/-- `startData`. What was not requested is refused, an unknown size is taken from the peer. -/
def startData (s : ItemFile F H υ) (u : υ) (seg : Segment) (start bytes : Int) (bufSize : Nat)
    (z : Option φ) : ItemFile F H υ :=
  let accepted : Bool :=
    if seg.size = -1 then 0 ≤ bytes ∧ bytes ≤ fileSizeLimit
    else seg.size = bytes ∧ seg.start = start
  if s.shared.queued && accepted then
    let tree := (s.tree u).filter fun t => t.fileSize ≠ 0
    let d := Download.new F H (fun _ => true) seg.start.toNat bytes.toNat bufSize tree z
    { s with progress := Function.update s.progress u (some d.startData) }
  else s

/-- The file after a download has gone from `d` to `d'`. -/
def written (c : Content) (seg : Segment) (d d' : Download F H) : Content :=
  let old := StoringStream.written d.file.stack
  c.store (seg.start.toNat + old.length) ((StoringStream.written d'.file.stack).drop old.length)

/-- `onData`. -/
def onData (s : ItemFile F H υ) (u : υ) (seg : Segment) (d : Download F H) (b : List UInt8) :
    ItemFile F H υ :=
  let p := d.onData b
  { s with
    progress := Function.update s.progress u (some p)
    content := written s.content seg d p.download }

/-- `removeDownload` of the manager and `putDownload` up to `addSegment`. -/
def putDownload (s : ItemFile F H υ) (u : υ) (seg : Segment) : ItemFile F H υ :=
  match s.progress u with
  | none => { s with shared := s.shared.step (.markDone u false 0 0 baseBlockSize) }
  | some p =>
    let d := p.download.removeDownload.resetDownloadFile
    { s with
      shared := s.shared.step (.markDone u p.isFinished d.size d.pos d.treeBlockSize)
      progress := Function.update s.progress u none
      content := written s.content seg p.download d }

/-- One step. -/
def step (tth : V) (s : ItemFile F H υ) : FileEvent υ φ V → ItemFile F H υ
  | .addTree tree => { s with db := some tree }
  | .pick u a => { s with shared := s.shared.step (.pick u a) }
  | .lookupTree u wantTree =>
    match s.shared.phase u with
    | .picked _ _ =>
      { s with
        shared := s.shared.step (.lookupTree u (s.db.map MerkleTree.blockSize) wantTree)
        tree := Function.update s.tree u s.db }
    | _ => s
  | .recompute u gsp source rand =>
    { s with shared := s.shared.step (.recompute u gsp source rand) }
  | .record u => { s with shared := s.shared.step (.record u) }
  | .setSegment u => { s with shared := s.shared.step (.setSegment u) }
  | .receiveTree u leaves stored =>
    match s.shared.phase u with
    | .running .tree _ => s.receiveTree tth u leaves stored
    | _ => s
  | .startData u start bytes bufSize z =>
    match s.shared.phase u, s.progress u with
    | .running .file seg, none => s.startData u seg start bytes bufSize z
    | _, _ => s
  | .data u b =>
    match s.shared.phase u, s.progress u with
    | .running .file seg, some (.running d) => s.onData u seg d b
    | _, _ => s
  | .putDownload u =>
    match s.shared.phase u with
    | .running _ seg => s.putDownload u seg
    | _ => s
  | .removeDownload u hasTree => { s with shared := s.shared.step (.removeDownload u hasTree) }

omit [DecidableEq V] [DecidableEq υ] in
/-- An item of which nothing is fetched yet. -/
def initial (F : Stream.Filter φ) (H : Hasher V) (q : QueueItem υ) (db : Option (MerkleTree V))
    (content : Content) : ItemFile F H υ where
  shared := .initial q true
  db := db
  tree := fun _ => none
  progress := fun _ => none
  content := content

omit [DecidableEq V] [DecidableEq υ] in
/-- The item is reported finished: `putDownload` has found it finished and moves the file, or has
removed it from the queue. -/
def Reported (s : ItemFile F H υ) : Prop :=
  s.shared.queued = false ∨ ∃ u type seg, s.shared.phase u = .ending type seg true

end ItemFile
end Blacklink.Transfer
