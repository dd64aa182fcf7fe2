import Blacklink.Stream.OutputStream

/-!
# Receiving the data of a file download

Model of `DownloadManager::startData`, `onData`, `endData`, `failDownload` and `removeDownload`
(`client/DownloadManager.cpp:260-518`) and of the part of `QueueManager::putDownload` that
destroys the stream and decides how much of the segment is done
(`client/QueueManager.cpp:2007-2240`), for a download of type `TYPE_FILE`. Opening the target
file has succeeded. Speeds, reason texts and listeners are left out: no byte depends on them.
-/

namespace Blacklink.Transfer

open Blacklink.Hash Blacklink.Stream

variable {φ V : Type}

/-- What `getDownloadFile()` is after `startData`: with `ZL1` a filter stands on the streams. -/
inductive DownloadFile (F : Stream.Filter φ) (H : Hasher V) where
  | plain (s : FileStack H)
  | inflating (t : FilteredOutputStream F (FileStack H))

namespace DownloadFile

variable {F : Stream.Filter φ} {H : Hasher V}

/-- The streams from the limit down. -/
def stack : DownloadFile F H → FileStack H
  | .plain s => s
  | .inflating t => t.f

/-- `eof()` of the outermost stream. -/
def eof : DownloadFile F H → Bool
  | .plain s => s.eof
  | .inflating t => t.eof

instance [DecidableEq V] : OutputStream (DownloadFile F H) where
  write
    | .plain s, b =>
      let r := write s b
      (.plain r.1, r.2)
    | .inflating t, b =>
      let r := write t b
      (.inflating r.1, r.2)
  flushBuffers
    | .plain s =>
      let r := flushBuffers s
      (.plain r.1, r.2)
    | .inflating t =>
      let r := flushBuffers t
      (.inflating r.1, r.2)
  close
    | .plain s => .plain (close s)
    | .inflating t => .inflating (close t)

end DownloadFile

/-- The attributes of a `Download` that the data path uses. `treeBlockSize` is
`getTigerTree().getBlockSize()`. -/
structure Download (F : Stream.Filter φ) (H : Hasher V) where
  file : DownloadFile F H
  size : Nat
  treeBlockSize : Nat
  pos : Nat
  actual : Nat

/-- A download that is receiving data, one whose failure path is taken, or one whose success
path is taken. -/
inductive Progress (F : Stream.Filter φ) (H : Hasher V) where
  | running (d : Download F H)
  | failed (d : Download F H)
  | finished (d : Download F H)

namespace Progress

variable {F : Stream.Filter φ} {H : Hasher V}

/-- The download itself. -/
def download : Progress F H → Download F H
  | .running d => d
  | .failed d => d
  | .finished d => d

/-- The success path is taken. -/
def isFinished : Progress F H → Bool
  | .finished _ => true
  | _ => false

end Progress

namespace Download

variable {F : Stream.Filter φ} {H : Hasher V} [DecidableEq V]

/-- `endData` for a file: an exception of the flush resets the position. -/
def endData (d : Download F H) : Progress F H :=
  let r := flushBuffers d.file
  if r.2 then .finished { d with file := r.1 }
  else .failed { d with file := r.1, pos := 0, actual := 0 }

/-- `onData`. -/
def onData (d : Download F H) (data : List UInt8) : Progress F H :=
  let r := write d.file data
  match r.2 with
  | none => .failed { d with file := r.1 }
  | some n =>
    let d' := { d with file := r.1, pos := d.pos + n, actual := d.actual + data.length }
    if d'.file.eof then d'.endData else .running d'

omit [DecidableEq V] in
/-- The streams `startData` builds for a segment of `size` bytes at `start`. The tree is the
download's if its file size is not zero, the filter state that of a compressed transfer. -/
def new (F : Stream.Filter φ) (H : Hasher V) (succeeds : Nat → Bool) (start size bufSize : Nat)
    (tree : Option (MerkleTree V)) (z : Option φ) : Download F H :=
  let buffered : BufferedOutputStream TargetFile := ⟨⟨succeeds, 0, []⟩, [], min size bufSize⟩
  let verified : VerifiedStream H (BufferedOutputStream TargetFile) :=
    ⟨tree.map fun t => .new H t start, buffered⟩
  let limited : FileStack H := ⟨verified, size⟩
  { file := match z with
      | none => .plain limited
      | some st => .inflating ⟨limited, st, true, false⟩
    size := size
    treeBlockSize := (tree.map MerkleTree.blockSize).getD baseBlockSize
    pos := 0
    actual := 0 }

/-- `startData`, from the streams on: a segment without bytes is finished at once. -/
def startData (d : Download F H) : Progress F H :=
  if d.pos = d.size then d.endData else .running d

/-- The stream part of `removeDownload`, which swallows the exception of the flush. -/
def removeDownload (d : Download F H) : Download F H :=
  if 0 < d.actual then { d with file := (flushBuffers d.file).1 } else d

/-- `resetDownloadFile`, the first thing `putDownload` does: the streams are destroyed. -/
def resetDownloadFile (d : Download F H) : Download F H := { d with file := close d.file }

omit [DecidableEq V] in
/-- What `putDownload` records of an unfinished segment: the position rounded down to the tree
block size. -/
def downloaded (d : Download F H) : Nat := d.pos - d.pos % d.treeBlockSize

end Download

/-- The chunks of data, until the download fails or finishes. -/
def Progress.receive {F : Stream.Filter φ} {H : Hasher V} [DecidableEq V] :
    Progress F H → List (List UInt8) → Progress F H
  | .running d, b :: bs => (d.onData b).receive bs
  | p, _ => p

end Blacklink.Transfer
