import Mathlib.Data.BitVec
import Mathlib.Data.Finset.Basic
import Blacklink.Base.RoseTree
import Blacklink.Share.HashBloom
import Blacklink.Text.Numbers

/-!
# Directories of a file list

Model of `DirectoryListing::File` and `DirectoryListing::Directory`
(`client/DirectoryListing.h:45-245`, `client/DirectoryListing.cpp:916-954, 998-1037, 1217-1229`).
A directory is a node of a tree and has no pointer to its parent: what goes from a directory to its
parents is done on the way back from it. The counts, of which there are never 2^64, are integers;
`totalSize` wraps around, where C++ leaves the result open. Paths of files, user data of windows and
media information other than the bitrate are left out.
-/

namespace Blacklink.Listing

open Blacklink.Base
open Blacklink.Share (TTHValue)

/-- The flags of files and directories. -/
inductive Flag where
  | queued | shared | downloaded | canceled
  | hasQueued | hasShared | hasDownloaded | hasCanceled | hasOther
  | found | hasFound | dirTimestamp | dclstSelf
  deriving DecidableEq

/-- `MaskType`. -/
abbrev Flags := Finset Flag

/-- `FILE_STATUS_FLAGS`. -/
def fileStatusFlags : Flags := {.queued, .shared, .downloaded, .canceled}

/-- `DIR_STATUS_FLAGS`. -/
def dirStatusFlags : Flags := {.hasQueued, .hasShared, .hasDownloaded, .hasCanceled, .hasOther}

/-- `FLAG_FOUND | FLAG_HAS_FOUND`. -/
def foundFlags : Flags := {.found, .hasFound}

/-- `DirectoryListing::File`. `bitrate` is 0 when there is no media information. -/
structure File where
  name : List UInt8
  size : Int
  tth : TTHValue
  uploadCount : BitVec 32
  ts : Int
  bitrate : Nat
  flags : Flags
  deriving DecidableEq

/-- The sums that a directory keeps. -/
@[ext]
structure Totals where
  totalFileCount : Int
  totalDirCount : Int
  totalSize : BitVec 64
  totalUploadCount : BitVec 32
  deriving DecidableEq

namespace Totals

instance : Zero Totals := ⟨⟨0, 0, 0, 0⟩⟩

instance : Add Totals :=
  ⟨fun x y => ⟨x.totalFileCount + y.totalFileCount, x.totalDirCount + y.totalDirCount,
    x.totalSize + y.totalSize, x.totalUploadCount + y.totalUploadCount⟩⟩

instance : Neg Totals :=
  ⟨fun x => ⟨-x.totalFileCount, -x.totalDirCount, -x.totalSize, -x.totalUploadCount⟩⟩

instance : Sub Totals :=
  ⟨fun x y => ⟨x.totalFileCount - y.totalFileCount, x.totalDirCount - y.totalDirCount,
    x.totalSize - y.totalSize, x.totalUploadCount - y.totalUploadCount⟩⟩

theorem add_def (x y : Totals) :
    x + y = ⟨x.totalFileCount + y.totalFileCount, x.totalDirCount + y.totalDirCount,
      x.totalSize + y.totalSize, x.totalUploadCount + y.totalUploadCount⟩ := rfl

theorem zero_def : (0 : Totals) = ⟨0, 0, 0, 0⟩ := rfl

/-- The sums are added and subtracted one by one. -/
instance : AddCommGroup Totals where
  add_assoc x y z := by ext1 <;> exact add_assoc _ _ _
  zero_add x := by ext1 <;> exact zero_add _
  add_zero x := by ext1 <;> exact add_zero _
  add_comm x y := by ext1 <;> exact add_comm _ _
  neg_add_cancel x := by ext1 <;> exact neg_add_cancel _
  sub_eq_add_neg x y := by ext1 <;> exact sub_eq_add_neg _ _
  nsmul := nsmulRec
  zsmul := zsmulRec

end Totals

/-- What a file adds to the sums. -/
def File.totals (f : File) : Totals := ⟨1, 0, BitVec.ofInt 64 f.size, f.uploadCount⟩

/-- What a directory adds to the sums for itself. -/
def oneDir : Totals := ⟨0, 1, 0, 0⟩

/-- `DirectoryListing::Directory` without its directories. `adls` is there in an `AdlDirectory`. -/
structure DirInfo where
  name : List UInt8
  complete : Bool
  adls : Bool
  flags : Flags
  files : List File
  totals : Totals
  maxTS : Int
  minBitrate : Nat
  maxBitrate : Nat
  deriving DecidableEq

/-- `DirectoryListing::Directory`. -/
abbrev Directory := RoseTree DirInfo

/-- `Directory()`. -/
def DirInfo.new (name : List UInt8) (complete : Bool) : DirInfo :=
  ⟨name, complete, false, ∅, [], 0, 0, 0xffff, 0⟩

namespace DirInfo

/-- The dates and bitrates when there is one more. -/
def widen (d : DirInfo) (ts : Int) (minBitrate maxBitrate : Nat) : DirInfo :=
  { d with
    maxTS := if ts > d.maxTS then ts else d.maxTS
    minBitrate := if minBitrate < d.minBitrate then minBitrate else d.minBitrate
    maxBitrate := if maxBitrate > d.maxBitrate then maxBitrate else d.maxBitrate }

/-- The dates and bitrates when there is one more file. -/
def widenFile (d : DirInfo) (f : File) : DirInfo :=
  d.widen f.ts (if f.bitrate ≠ 0 then f.bitrate else d.minBitrate)
    (if f.bitrate ≠ 0 then f.bitrate else d.maxBitrate)

/-- What is added to `totalSize` and `totalUploadCount` for a file. -/
def addSize (d : DirInfo) (f : File) : DirInfo :=
  { d with
    totals :=
      { d.totals with
        totalSize := d.totals.totalSize + BitVec.ofInt 64 f.size
        totalUploadCount := d.totals.totalUploadCount + f.uploadCount } }

/-- `addFile`. -/
def addFile (d : DirInfo) (f : File) : DirInfo :=
  (({ d with files := d.files ++ [f] }).addSize f).widenFile f

/-- The flag of a directory for a file in it. -/
def statusOf (f : File) : Flag :=
  if .shared ∈ f.flags then .hasShared
  else if .downloaded ∈ f.flags then .hasDownloaded
  else if .canceled ∈ f.flags then .hasCanceled
  else .hasOther

/-- `updateFiles`, with the flags it adds. -/
def updateFiles (d : DirInfo) : DirInfo × Flags :=
  (d.files.foldl (fun d f => (d.addSize f).widenFile f) d,
    d.files.foldl
      (fun flags f =>
        (if .queued ∈ f.flags then insert .hasQueued flags else flags) ∪ {statusOf f}) ∅)

/-- `updateSubDirs` with the directories, and the flags it adds. -/
def updateSubDirs (d : DirInfo) (dirs : List Directory) : DirInfo × Flags :=
  let dirs := (dirs.map RoseTree.value).filter fun dir => !dir.adls
  let d :=
    dirs.foldl
      (fun d dir =>
        { d.widen dir.maxTS dir.minBitrate dir.maxBitrate with
          totals := d.totals + dir.totals + oneDir }) d
  ({ d with
      totals :=
        { d.totals with totalFileCount := d.totals.totalFileCount + d.files.length } },
    dirs.foldl (fun flags dir => flags ∪ (dir.flags ∩ dirStatusFlags)) ∅)

/-- What `updateInfo` sets before the files and the directories are gone through. -/
def reset (d : DirInfo) : DirInfo :=
  { d with totals := 0, maxTS := 0, minBitrate := 0xffff, maxBitrate := 0 }

/-- One turn of the loop of `updateInfo`: the sums are made anew. The second part tells whether
the loop goes on with the parent. -/
def updateInfo (isRoot : Bool) (d : DirInfo) (dirs : List Directory) : DirInfo × Bool :=
  let u := d.reset.updateFiles
  let v := u.1.updateSubDirs dirs
  let flags := u.2 ∪ v.2
  (if isRoot then v.1 else { v.1 with flags },
    v.1.totals ≠ d.totals || v.1.maxTS ≠ d.maxTS || v.1.maxBitrate ≠ d.maxBitrate ||
      v.1.minBitrate ≠ d.minBitrate || d.flags ≠ flags)

/-- What an update of the sums, dates and bitrates keeps. -/
structure Keeps (d d' : DirInfo) : Prop where
  name : d'.name = d.name
  complete : d'.complete = d.complete
  adls : d'.adls = d.adls
  flags : d'.flags = d.flags
  files : d'.files = d.files

theorem Keeps.refl (d : DirInfo) : Keeps d d := ⟨rfl, rfl, rfl, rfl, rfl⟩

theorem Keeps.trans {d d' d'' : DirInfo} (h : Keeps d d') (h' : Keeps d' d'') : Keeps d d'' :=
  ⟨h'.name.trans h.name, h'.complete.trans h.complete, h'.adls.trans h.adls,
    h'.flags.trans h.flags, h'.files.trans h.files⟩

theorem keeps_foldl {α : Type} {step : DirInfo → α → DirInfo} (hstep : ∀ d a, Keeps d (step d a))
    (l : List α) (d : DirInfo) : Keeps d (l.foldl step d) := by
  induction l generalizing d with
  | nil => exact .refl d
  | cons a l ih => exact (hstep d a).trans (ih _)

theorem keeps_updateFiles (d : DirInfo) : Keeps d d.updateFiles.1 := by
  show Keeps d (d.files.foldl _ d)
  apply keeps_foldl
  intro d f
  exact ⟨rfl, rfl, rfl, rfl, rfl⟩

theorem keeps_updateSubDirs (d : DirInfo) (dirs : List Directory) :
    Keeps d (d.updateSubDirs dirs).1 := by
  refine @Keeps.trans _ (List.foldl _ d _) _ ?_ ⟨rfl, rfl, rfl, rfl, rfl⟩
  apply keeps_foldl
  intro d dir
  exact ⟨rfl, rfl, rfl, rfl, rfl⟩

theorem keeps_reset (d : DirInfo) (dirs : List Directory) :
    Keeps d (d.reset.updateFiles.1.updateSubDirs dirs).1 := by
  have hreset : Keeps d d.reset := ⟨rfl, rfl, rfl, rfl, rfl⟩
  exact (hreset.trans (keeps_updateFiles d.reset)).trans (keeps_updateSubDirs _ _)

/-- The flags of the root stay as they are. -/
theorem keeps_updateInfo_root (d : DirInfo) (dirs : List Directory) :
    Keeps d (d.updateInfo true dirs).1 := keeps_reset d dirs

/-- The flags of the others are those that the files and directories in them make. -/
theorem updateInfo_keeps (d : DirInfo) (dirs : List Directory) :
    Keeps { d with flags := d.reset.updateFiles.2 ∪ (d.reset.updateFiles.1.updateSubDirs dirs).2 }
      (d.updateInfo false dirs).1 :=
  ⟨(keeps_reset d dirs).name, (keeps_reset d dirs).complete, (keeps_reset d dirs).adls, rfl,
    (keeps_reset d dirs).files⟩

theorem files_updateInfo (isRoot : Bool) (d : DirInfo) (dirs : List Directory) :
    (d.updateInfo isRoot dirs).1.files = d.files := by
  cases isRoot with
  | true => exact (keeps_updateInfo_root d dirs).files
  | false => exact (updateInfo_keeps d dirs).files

theorem name_updateInfo (isRoot : Bool) (d : DirInfo) (dirs : List Directory) :
    (d.updateInfo isRoot dirs).1.name = d.name := by
  cases isRoot with
  | true => exact (keeps_updateInfo_root d dirs).name
  | false => exact (updateInfo_keeps d dirs).name

theorem complete_updateInfo (isRoot : Bool) (d : DirInfo) (dirs : List Directory) :
    (d.updateInfo isRoot dirs).1.complete = d.complete := by
  cases isRoot with
  | true => exact (keeps_updateInfo_root d dirs).complete
  | false => exact (updateInfo_keeps d dirs).complete

theorem adls_updateInfo (isRoot : Bool) (d : DirInfo) (dirs : List Directory) :
    (d.updateInfo isRoot dirs).1.adls = d.adls := by
  cases isRoot with
  | true => exact (keeps_updateInfo_root d dirs).adls
  | false => exact (updateInfo_keeps d dirs).adls

end DirInfo

end Blacklink.Listing
