import Mathlib.Data.List.Basic
import Blacklink.Hash.MerkleTree

/-!
# The records of the hash database

Model of the record format of `client/HashDatabaseLMDB.cpp:131-175` and of what the operations of
`HashDatabaseConnection` read from a record and store in its place (`347-703`). A record has two
bytes of flags, eight bytes of file size and a sequence of typed items. Numbers are stored in the
byte order of the host, which is little-endian on every platform the database is built for.
-/

namespace Blacklink.HashDb

open Blacklink.Hash

/-- The bytes of a value, a key or a buffer. -/
abbrev Bytes := List UInt8

/-- `TTH_SIZE`. -/
def tthSize : Nat := 24

/-- `BASE_ITEM_SIZE`. -/
def baseItemSize : Nat := 10

/-- `TTHValue`, the keys of the database and the leaves of the trees. -/
abbrev TTHValue := { data : Bytes // data.length = tthSize }

theorem length_zeros : (List.replicate 24 0 : Bytes).length = tthSize := rfl

/-- `ITEM_TIGER_TREE`. -/
def itemTigerTree : UInt8 := 1

/-- `ITEM_LOCAL_PATH`. -/
def itemLocalPath : UInt8 := 2

/-- `ITEM_UPLOAD_COUNT`. -/
def itemUploadCount : UInt8 := 3

/-- `loadUnaligned16`, `loadUnaligned32` and `loadUnaligned64`: all bytes of `mem`. -/
def loadUnaligned : Bytes → Nat
  | [] => 0
  | b :: mem => b.toNat + 256 * loadUnaligned mem

/-- `storeUnaligned16`, `storeUnaligned32` and `storeUnaligned64`: the low bytes of `val`. -/
def storeUnaligned : Nat → Nat → Bytes
  | 0, _ => []
  | size + 1, val => UInt8.ofNat (val % 256) :: storeUnaligned size (val / 256)

/-! ### Items -/

/-- What `ItemParser::getItem` finds: the type, the bytes before the data and the data. -/
structure Item where
  type : UInt8
  header : Bytes
  data : Bytes
  deriving DecidableEq

/-- The item as it stands in the record. -/
def Item.bytes (item : Item) : Bytes := item.header ++ item.data

/-- The end of `getItem`: the data must be there. -/
def takeItem (type : UInt8) (header : Bytes) (itemSize : Nat) (rest : Bytes) :
    Option (Item × Bytes) :=
  if rest.length < itemSize then none
  else some (⟨type, header, rest.take itemSize⟩, rest.drop itemSize)

/-- `ItemParser::getItem`, on the bytes from `ptr` on. -/
def getItem : Bytes → Option (Item × Bytes)
  | type :: lo :: hi :: rest =>
    if type &&& 0x80 ≠ 0 then
      takeItem (type &&& 0x7F) [type, lo, hi] (loadUnaligned [lo, hi]) rest
    else takeItem type [type, lo] lo.toNat (hi :: rest)
  | [type, size] =>
    if type &&& 0x80 ≠ 0 then none else takeItem type [type, size] size.toNat []
  | _ => none

/-- The items a loop over `getItem` sees; every item takes two bytes at least. -/
def itemsLoop : Nat → Bytes → List Item
  | 0, _ => []
  | fuel + 1, data =>
    match getItem data with
    | none => []
    | some (item, rest) => item :: itemsLoop fuel rest

/-- All items that `ItemParser(data, dataSize)` gives. -/
def items (data : Bytes) : List Item := itemsLoop data.length data

/-- What `putItem` stores before the data. The size of a long item is cut to 16 bits. -/
def itemHeader (type : UInt8) (dataSize : Nat) : Bytes :=
  if 255 < dataSize then (type ||| 0x80) :: storeUnaligned 2 dataSize
  else [type, UInt8.ofNat dataSize]

/-- `putItem`. -/
def putItem (type : UInt8) (data : Bytes) : Bytes := itemHeader type data.length ++ data

/-! ### Records -/

/-- The flags of a record. -/
def flagsOf (val : Bytes) : UInt32 := UInt32.ofNat (loadUnaligned (val.take 2))

/-- The file size of a record. -/
def fileSizeOf (val : Bytes) : Nat := loadUnaligned ((val.drop 2).take 8)

/-- The items of a record. -/
def itemsOf (val : Bytes) : List Item := items (val.drop baseItemSize)

/-- What `mdb_get` found, when it is no error and has the size of a record with `minSize` bytes. -/
def recordOf (minSize : Nat) : Except Int Bytes → Option Bytes
  | .ok val => if minSize ≤ val.length then some val else none
  | .error _ => none

/-- The count in an item, of 2 or 4 bytes. -/
def readUploadCount (uploadCount : UInt32) (item : Item) : UInt32 :=
  if item.data.length = 2 ∨ item.data.length = 4 then UInt32.ofNat (loadUnaligned item.data)
  else uploadCount

/-- What `getFileInfo` gives back. -/
structure FileInfo where
  flags : UInt32
  fileSize : Nat
  path : Bytes
  treeSize : Nat
  uploadCount : UInt32
  deriving DecidableEq

/-- The body of the loop of `getFileInfo`. -/
def FileInfo.read (info : FileInfo) (item : Item) : FileInfo :=
  if item.type = itemTigerTree then { info with treeSize := item.data.length }
  else if item.type = itemLocalPath then { info with path := item.data }
  else if item.type = itemUploadCount then
    { info with uploadCount := readUploadCount info.uploadCount item }
  else info

/-- `getFileInfo` on the record. -/
def fileInfoOf (val : Bytes) : FileInfo :=
  (itemsOf val).foldl FileInfo.read ⟨flagsOf val, fileSizeOf val, [], 0, 0⟩

/-- The first item with a tree. -/
def treeItem (items : List Item) : Option Item := items.find? (·.type = itemTigerTree)

/-- What `getTigerTree` finds in a record. -/
inductive TreeData where
  | missing
  | invalid
  | found (data : Bytes)
  deriving DecidableEq

/-- `getTigerTree` on the record. -/
def tigerTreeOf (val : Bytes) : TreeData :=
  match treeItem (itemsOf val) with
  | none => .missing
  | some item =>
    if item.data.length < tthSize * 2 ∨ item.data.length % tthSize ≠ 0 then .invalid
    else .found item.data

/-- `buf.resize(bufSize)`, then the stores from its start on. -/
def fillBuf (buf : Bytes) (bufSize : Nat) (data : Bytes) : Bytes :=
  data ++ (buf.take bufSize ++ List.replicate (bufSize - buf.length) 0).drop data.length

/-- The size of the buffer, what is stored in it and how much of it becomes the value. -/
structure Stored where
  bufSize : Nat
  data : Bytes
  outSize : Nat
  deriving DecidableEq

/-- The arguments of `putFileInfo` besides the key. -/
structure FileUpdate where
  flags : UInt32
  fileSize : UInt64
  path : Option Bytes
  incUploadCount : Bool
  deriving DecidableEq

/-- The upload count of a record, as `putFileInfo` reads it. -/
def uploadCountOf (items : List Item) : UInt32 :=
  items.foldl
    (fun count item => if item.type = itemUploadCount then readUploadCount count item else count) 0

/-- The item `putFileInfo` stores for an upload count. -/
def putUploadCount (count : UInt32) : Bytes :=
  putItem itemUploadCount (storeUnaligned (if count < 0x10000 then 2 else 4) count.toNat)

/-- The record `putFileInfo` stores over the record `prev`; `none` when nothing is to be
updated. -/
def putFileInfoData (prev : Option Bytes) (u : FileUpdate) : Option Stored :=
  let setFlags := (prev.map flagsOf).getD 0
  let items := (prev.map itemsOf).getD []
  let prevSize := (prev.map List.length).getD 0
  let updateFlags := setFlags ||| u.flags ≠ setFlags
  let updatePath :=
    u.path.isSome && !items.any fun item => item.type = itemLocalPath ∧ u.path = some item.data
  if ¬ updateFlags ∧ updatePath = false ∧ u.incUploadCount = false then none
  else
    let path := u.path.getD []
    let uploadCount := uploadCountOf items + 1
    let kept := items.filter fun item =>
      ¬ ((item.type = itemLocalPath ∧ updatePath = true) ∨
        (item.type = itemUploadCount ∧ u.incUploadCount = true))
    let data := storeUnaligned 2 (setFlags ||| u.flags).toNat ++
      storeUnaligned 8 u.fileSize.toNat ++ kept.flatMap Item.bytes ++
      (if updatePath then putItem itemLocalPath path else []) ++
      (if u.incUploadCount then putUploadCount uploadCount else [])
    some
      { bufSize := (if prevSize = 0 then baseItemSize else prevSize) +
          (if updatePath then path.length + 2 + (if 255 < path.length then 1 else 0) else 0) +
          (if u.incUploadCount then (if uploadCount < 0x10000 then 4 else 6) else 0)
        data := data
        outSize := data.length }

/-- The record `putTigerTree` stores over the record `prev`; `none` when it has the tree. -/
def putTigerTreeData (prev : Option Bytes) (tree : MerkleTree TTHValue) : Option Stored :=
  let setFlags := (prev.map flagsOf).getD 0
  let items := (prev.map itemsOf).getD []
  let newTreeSize := tree.leaves.length * tthSize
  let prevTree := treeItem items
  if prevTree.map (·.data.length) = some newTreeSize ∧
      prev.map fileSizeOf = some (tree.fileSize % 2 ^ 64) then none
  else
    let prevTreeSize := (prevTree.map (·.bytes.length)).getD 0
    let outSize :=
      (match prev with | some val => val.length - prevTreeSize | none => baseItemSize) +
      newTreeSize + 2 + (if 255 < newTreeSize then 1 else 0)
    some
      { bufSize := outSize
        data := storeUnaligned 2 setFlags.toNat ++ storeUnaligned 8 tree.fileSize ++
          itemHeader itemTigerTree newTreeSize ++ tree.leaves.flatMap Subtype.val ++
          (items.filter (·.type ≠ itemTigerTree)).flatMap Item.bytes
        outSize := outSize }

/-- What `removeTigerTree` does with a record. -/
inductive Removal where
  | nothing
  | delete (bufSize : Nat) (data : Bytes)
  | store (stored : Stored)
  deriving DecidableEq

/-- `removeTigerTree` on the record. -/
def removeTigerTreeData (prev : Option Bytes) : Removal :=
  match prev with
  | none => .nothing
  | some val =>
    match treeItem (itemsOf val) with
    | none => .nothing
    | some item =>
      let bufSize := val.length - item.bytes.length
      let data := val.take baseItemSize ++
        ((itemsOf val).filter (·.type ≠ itemTigerTree)).flatMap Item.bytes
      if data.length = baseItemSize ∧ flagsOf val = 0 then .delete bufSize data
      else .store ⟨bufSize, data, data.length⟩

end Blacklink.HashDb
