import Blacklink.Share.Groups
import Blacklink.Share.HashBloom
import Blacklink.Share.Scan
import Blacklink.Share.Trees
import Blacklink.Text.Numbers
import Blacklink.Xml.SimpleXML

/-!
# File lists

Model of the text of a file list (`client/ShareManager.cpp:1841-1954, 1973-2030`) and of the digest
that tells whether it is to be written (`client/ShareManager.cpp:3270-3293`). The text is the one
before compression.
-/

namespace Blacklink.Share

open Blacklink.Text Blacklink.Xml

/-- What a list is written with besides the share: the settings, and the counters of uploads, which
are 0 when there is no database. -/
structure ListOptions where
  myCID : CID
  includeUploadCount : Bool
  includeTimestamp : Bool
  useMediaInfo : Bool
  uploadCount : TTHValue → Nat

/-- `MODE_FULL_LIST`, `MODE_PARTIAL_LIST` and `MODE_RECURSIVE_PARTIAL_LIST`. -/
inductive ListMode where
  | fullList
  | partialList
  | recursivePartialList
  deriving DecidableEq

/-- `MAX_PARTIAL_LIST_SIZE`. -/
def maxPartialListSize : Nat := 512 * 1024

/-- `toString` of a signed number. -/
def intToString (n : Int) : List UInt8 :=
  if n < 0 then 0x2d :: natToString n.natAbs else natToString n.natAbs

/-- The `indent`. -/
def tabs (indent : Nat) : List UInt8 := List.replicate indent 0x09

/-- The text of the media information of a file. -/
def mediaInfoText (info : MediaInfo) : List UInt8 :=
  (if info.bitrate ≠ 0 then ascii "\" BR=\"" ++ natToString info.bitrate else []) ++
    (if info.width ≠ 0 ∧ info.height ≠ 0 then
      ascii "\" WH=\"" ++ natToString info.width ++ ascii "x" ++ natToString info.height
    else []) ++
    (if info.audio ≠ [] then ascii "\" MA=\"" ++ escape true info.audio else []) ++
    (if info.video ≠ [] then ascii "\" MV=\"" ++ escape true info.video else [])

/-- The text of a file that has been hashed. -/
def fileText (opts : ListOptions) (indent : Nat) (f : SharedFile) (st : FileState TTHValue) :
    List UInt8 :=
  let uploadCount := opts.uploadCount st.tth
  tabs indent ++ ascii "<File Name=\"" ++ escape true f.name ++ ascii "\" Size=\"" ++
    intToString f.size ++ ascii "\" TTH=\"" ++ toBase32 st.tth.data.toList ++
    (if opts.includeUploadCount ∧ uploadCount ≠ 0 then
      ascii "\" HIT=\"" ++ natToString uploadCount
    else []) ++
    (if opts.includeTimestamp ∧ st.timeShared ≠ 0 then
      ascii "\" Shared=\"" ++ natToString st.timeShared
    else []) ++
    (if opts.useMediaInfo then (st.mediaInfo.map mediaInfoText).getD [] else []) ++
    ascii "\"/>\r\n"

/-- `writeXmlFilesL`. -/
def writeXmlFilesL (opts : ListOptions) (fileState : Nat → FileState TTHValue) (indent : Nat)
    (n : DirNode) : List UInt8 :=
  n.files.flatMap fun kf =>
    let st := fileState kf.2.id
    if st.hashFile then [] else fileText opts indent kf.2 st

mutual

/-- `writeXmlL`; `out` is what has been written before. -/
def writeXmlL (opts : ListOptions) (fileState : Nat → FileState TTHValue) (mode : ListMode) :
    Nat → SharedDir → List UInt8 → List UInt8
  | indent, .mk n dirs, out =>
    let out := out ++ tabs indent ++ ascii "<Directory Name=\"" ++ escape true n.name
    if mode = .fullList ∨ mode = .recursivePartialList ∧ out.length < maxPartialListSize then
      let out := writeXmlDirsL opts fileState mode (indent + 1) dirs (out ++ ascii "\">\r\n")
      out ++ writeXmlFilesL opts fileState (indent + 1) n ++ tabs indent ++
        ascii "</Directory>\r\n"
    else if dirs.isEmpty ∧ n.files = [] then out ++ ascii "\" />\r\n"
    else out ++ ascii "\" Incomplete=\"1\" />\r\n"

/-- The loop of `writeXmlL` over the subdirectories. -/
def writeXmlDirsL (opts : ListOptions) (fileState : Nat → FileState TTHValue) (mode : ListMode) :
    Nat → List SharedDir → List UInt8 → List UInt8
  | _, [], out => out
  | indent, d :: ds, out =>
    writeXmlDirsL opts fileState mode indent ds (writeXmlL opts fileState mode indent d out)

end

/-- `utf8Header`. -/
def utf8Header : List UInt8 :=
  ascii "<?xml version=\"1.0\" encoding=\"utf-8\" standalone=\"yes\"?>\r\n"

/-- The beginning of the list of a base directory. -/
def listHeader (opts : ListOptions) (base : List UInt8) : List UInt8 :=
  utf8Header ++ ascii "<FileListing Version=\"1\" CID=\"" ++ toBase32 opts.myCID ++
    ascii "\" Base=\"" ++ base ++ ascii "\" Generator=\"DC++ 0.785\">\r\n"

namespace ShareManager

variable (env : Env) (opts : ListOptions) (s : ShareManager TTHValue)

/-- The lower case paths `writeShareGroupXml` selects. -/
def selectedShares (sg : ShareGroup TTHValue) : List (List UInt8) :=
  sg.shares.map env.lowerName

/-- The shares `writeShareGroupXml` writes. The flag that is tested here is one of the item, which
is about scans, not the one of its directory. -/
def writtenShares (selected : List (List UInt8)) : List ShareListItem :=
  s.shares.filter fun i => !i.flags.removed && selected.contains (env.lowerName i.realPath)

/-- The text `writeShareGroupXml` writes of the selected shares. -/
def shareListText (selected : List (List UInt8)) : List UInt8 :=
  (writtenShares env s selected).foldl
    (fun out i => writeXmlL opts s.fileState .fullList 0 i.dir out) (listHeader opts (ascii "/")) ++
    ascii "</FileListing>"

/-- The text `writeShareGroupXml` would write for a group now. -/
def groupText (sg : ShareGroup TTHValue) : List UInt8 :=
  shareListText env opts s (selectedShares env sg)

/-- The bytes of a number with 64 bits, the low ones first. -/
def int64Bytes (n : Int) : List UInt8 :=
  (List.range 8).map fun i => ((n % 2 ^ 64).toNat / 256 ^ i).toUInt8

/-- What `updateShareGroupHashL` hashes for a group. -/
def groupMessage (sg : ShareGroup TTHValue) : List UInt8 :=
  sg.shares.flatMap fun item =>
    match s.shares.find? fun i =>
        !i.removed && env.lowerName i.realPath = env.lowerName item with
    | none => []
    | some i => env.lowerName item ++ int64Bytes i.version ++ env.lowerName i.dir.node.name

end ShareManager

/-! ### What a list does not tell -/

/-- The states of a file look the same in a list. -/
def FileState.SameListed (a b : FileState TTHValue) : Prop :=
  a.tth = b.tth ∧ a.hashFile = b.hashFile ∧ a.timeShared = b.timeShared ∧ a.mediaInfo = b.mediaInfo

variable {opts : ListOptions} {fileState fileState' : Nat → FileState TTHValue}

theorem writeXmlFilesL_congr {n : DirNode}
    (h : ∀ kf ∈ n.files, (fileState kf.2.id).SameListed (fileState' kf.2.id)) (indent : Nat) :
    writeXmlFilesL opts fileState indent n = writeXmlFilesL opts fileState' indent n := by
  apply List.flatMap_congr
  intro kf hkf
  obtain ⟨htth, hhash, htime, hmedia⟩ := h kf hkf
  unfold fileText
  dsimp only
  rw [htth, hhash, htime, hmedia]

/-- The text of a tree is the same when the states of its files look the same. -/
theorem writeXmlL_congr {d : SharedDir}
    (h : d.All fun n => ∀ kf ∈ n.files, (fileState kf.2.id).SameListed (fileState' kf.2.id))
    (mode : ListMode) (indent : Nat) (out : List UInt8) :
    writeXmlL opts fileState mode indent d out = writeXmlL opts fileState' mode indent d out := by
  induction d generalizing indent out with
  | mk n ds ih =>
    rw [SharedDir.all_mk] at h
    have hdirs : ∀ (cs : List SharedDir), (∀ c ∈ cs, c ∈ ds) → ∀ indent out,
        writeXmlDirsL opts fileState mode indent cs out =
          writeXmlDirsL opts fileState' mode indent cs out := by
      intro cs
      induction cs with
      | nil => exact fun _ _ _ => rfl
      | cons c cs ihcs =>
        intro hsub indent out
        rw [List.forall_mem_cons] at hsub
        rw [writeXmlDirsL, writeXmlDirsL, ih c hsub.1 (h.2 c hsub.1), ihcs hsub.2]
    rw [writeXmlL, writeXmlL, hdirs ds (fun _ hc => hc), writeXmlFilesL_congr h.1]

/-- The text of a group is the same when the shares are and the states of their files look the
same. -/
theorem ShareManager.groupText_congr {env : Env} {s s' : ShareManager TTHValue}
    (hshares : s'.shares = s.shares)
    (hstates : ∀ i ∈ s.shares, i.dir.All fun n =>
      ∀ kf ∈ n.files, (s'.fileState kf.2.id).SameListed (s.fileState kf.2.id))
    (sg : ShareGroup TTHValue) : groupText env opts s' sg = groupText env opts s sg := by
  unfold groupText shareListText writtenShares
  rw [hshares]
  congr 1
  apply List.foldl_ext
  intro out i hi
  exact writeXmlL_congr (hstates i (List.mem_filter.mp hi).1) .fullList 0 out

end Blacklink.Share
