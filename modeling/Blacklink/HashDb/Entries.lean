import Mathlib.Data.List.Basic
import Mathlib.Data.UInt
import Blacklink.HashDb.Connection

/-!
# What a record says

A record written by `putFileInfo`, `putTigerTree` and `removeTigerTree` holds an entry: flags, a
file size and at most one item of each kind, in any order. The operations do to the entry what
`Entry.update` says, as long as the paths and trees are shorter than 65536 bytes; the size of a
longer item is cut to 16 bits.
-/

namespace Blacklink.HashDb

open Blacklink.Hash

/-! ### Numbers -/

theorem length_storeUnaligned (size val : Nat) : (storeUnaligned size val).length = size := by
  induction size generalizing val with
  | zero => rfl
  | succ size ih => rw [storeUnaligned, List.length_cons, ih]

theorem loadUnaligned_storeUnaligned (size val : Nat) :
    loadUnaligned (storeUnaligned size val) = val % 256 ^ size := by
  induction size generalizing val with
  | zero => simp [storeUnaligned, loadUnaligned, Nat.mod_one]
  | succ size ih =>
    rw [storeUnaligned, loadUnaligned, ih, pow_succ', Nat.mod_mul]
    simp

theorem storeUnaligned_mod (size val : Nat) :
    storeUnaligned size (val % 256 ^ size) = storeUnaligned size val := by
  induction size generalizing val with
  | zero => rfl
  | succ size ih =>
    have hlow : val % 256 ^ (size + 1) % 256 = val % 256 :=
      Nat.mod_mod_of_dvd val (dvd_pow_self 256 (Nat.succ_ne_zero size))
    have hhigh : val % 256 ^ (size + 1) / 256 = val / 256 % 256 ^ size := by
      rw [pow_succ', Nat.mod_mul_right_div_self]
    rw [storeUnaligned, storeUnaligned, hlow, hhigh, ih]

/-! ### Items -/

/-- The kinds of items a record has. -/
def itemTypes : List UInt8 := [itemTigerTree, itemLocalPath, itemUploadCount]

/-- An item as `putItem` stores it. -/
def storedItem (item : UInt8 × Bytes) : Item :=
  ⟨item.1, itemHeader item.1 item.2.length, item.2⟩

theorem bytes_storedItem (item : UInt8 × Bytes) :
    (storedItem item).bytes = putItem item.1 item.2 := rfl

private theorem getItem_short {type size : UInt8} (htype : type &&& 0x80 = 0) (rest : Bytes) :
    getItem (type :: size :: rest) = takeItem type [type, size] size.toNat rest := by
  cases rest with
  | nil => rw [getItem, if_neg (not_not.mpr htype)]
  | cons hi rest => rw [getItem, if_neg (not_not.mpr htype)]

private theorem takeItem_append (type : UInt8) (header data rest : Bytes) :
    takeItem type header data.length (data ++ rest) = some (⟨type, header, data⟩, rest) := by
  rw [takeItem, if_neg (by simp), List.take_left', List.drop_left'] <;> rfl

/-- The size of an item of less than 65536 bytes is found again, whatever follows it. -/
theorem getItem_putItem {type : UInt8} (htype : type ∈ itemTypes) {data : Bytes}
    (hdata : data.length < 65536) (rest : Bytes) :
    getItem (putItem type data ++ rest) = some (storedItem (type, data), rest) := by
  have hhigh : type &&& 0x80 = 0 ∧ (type ||| 0x80) &&& 0x80 ≠ 0 ∧
      (type ||| 0x80) &&& 0x7F = type := by
    have hall : (itemTypes.all fun type => decide (type &&& 0x80 = 0 ∧
        (type ||| 0x80) &&& 0x80 ≠ 0 ∧ (type ||| 0x80) &&& 0x7F = type)) = true := rfl
    exact of_decide_eq_true (List.all_eq_true.mp hall type htype)
  rw [putItem, List.append_assoc, storedItem]
  by_cases hlong : 255 < data.length
  · have hheader : itemHeader type data.length =
        [type ||| 0x80, UInt8.ofNat (data.length % 256),
          UInt8.ofNat (data.length / 256 % 256)] := by
      rw [itemHeader, if_pos hlong]
      rfl
    have hsize : loadUnaligned [UInt8.ofNat (data.length % 256),
        UInt8.ofNat (data.length / 256 % 256)] = data.length :=
      (loadUnaligned_storeUnaligned 2 data.length).trans (Nat.mod_eq_of_lt hdata)
    simp only [hheader, List.cons_append, List.nil_append]
    rw [getItem, if_pos hhigh.2.1, hhigh.2.2, hsize, takeItem_append]
  · have hheader : itemHeader type data.length = [type, UInt8.ofNat data.length] := by
      rw [itemHeader, if_neg hlong]
    have hsize : (UInt8.ofNat data.length).toNat = data.length := by
      rw [UInt8.toNat_ofNat', Nat.mod_eq_of_lt (by omega)]
    simp only [hheader, List.cons_append, List.nil_append]
    rw [getItem_short hhigh.1, hsize, takeItem_append]

/-- The bytes of a sequence of items. -/
def itemBytes (its : List (UInt8 × Bytes)) : Bytes := its.flatMap fun item => putItem item.1 item.2

theorem itemBytes_cons (item : UInt8 × Bytes) (its : List (UInt8 × Bytes)) :
    itemBytes (item :: its) = putItem item.1 item.2 ++ itemBytes its := rfl

/-- The items have kinds that are known and are not too long. -/
def Plain (its : List (UInt8 × Bytes)) : Prop :=
  ∀ item ∈ its, item.1 ∈ itemTypes ∧ item.2.length < 65536

private theorem itemsLoop_itemBytes {its : List (UInt8 × Bytes)} (h : Plain its) {fuel : Nat}
    (hfuel : its.length ≤ fuel) : itemsLoop fuel (itemBytes its) = its.map storedItem := by
  induction its generalizing fuel with
  | nil => cases fuel <;> rfl
  | cons item its ih =>
    have hitem := h item (List.mem_cons_self ..)
    cases fuel with
    | zero => simp at hfuel
    | succ fuel =>
      rw [itemBytes_cons, itemsLoop, getItem_putItem hitem.1 hitem.2]
      rw [List.length_cons, Nat.add_le_add_iff_right] at hfuel
      simp only [List.map_cons]
      rw [ih (fun it hit => h it (List.mem_cons_of_mem _ hit)) hfuel]

private theorem length_le_itemBytes (its : List (UInt8 × Bytes)) :
    its.length ≤ (itemBytes its).length := by
  induction its with
  | nil => simp
  | cons item its ih =>
    have hpos : 0 < (putItem item.1 item.2).length := by
      rw [putItem, itemHeader]
      split <;> simp
    rw [itemBytes_cons, List.length_cons, List.length_append]
    omega

/-- The parser gives back the items that were stored. -/
theorem items_itemBytes {its : List (UInt8 × Bytes)} (h : Plain its) :
    items (itemBytes its) = its.map storedItem :=
  itemsLoop_itemBytes h (length_le_itemBytes its)

/-! ### Records -/

/-- A record with the given flags, file size and items. -/
def encode (flags : UInt32) (fileSize : Nat) (its : List (UInt8 × Bytes)) : Bytes :=
  storeUnaligned 2 flags.toNat ++ storeUnaligned 8 fileSize ++ itemBytes its

section Encode

variable (flags : UInt32) (fileSize : Nat) (its : List (UInt8 × Bytes))

private theorem length_encode_head :
    (storeUnaligned 2 flags.toNat ++ storeUnaligned 8 fileSize).length = baseItemSize := by
  rw [List.length_append, length_storeUnaligned, length_storeUnaligned]
  rfl

theorem length_encode :
    (encode flags fileSize its).length = baseItemSize + (itemBytes its).length := by
  rw [encode, List.length_append, length_encode_head]

theorem flagsOf_encode : flagsOf (encode flags fileSize its) = flags &&& 0xFFFF := by
  rw [flagsOf, encode, List.append_assoc, List.take_left' (length_storeUnaligned 2 _),
    loadUnaligned_storeUnaligned]
  apply UInt32.toNat.inj
  have hand : flags.toNat &&& 65535 = flags.toNat % 2 ^ 16 := Nat.and_two_pow_sub_one_eq_mod _ 16
  rw [UInt32.toNat_and, UInt32.toNat_ofNat', Nat.mod_eq_of_lt (by omega)]
  exact hand.symm

theorem fileSizeOf_encode : fileSizeOf (encode flags fileSize its) = fileSize % 2 ^ 64 := by
  rw [fileSizeOf, encode, List.append_assoc, List.drop_left' (length_storeUnaligned 2 _),
    List.take_left' (length_storeUnaligned 8 _), loadUnaligned_storeUnaligned]
  rfl

theorem encode_flags : encode (flags &&& 0xFFFF) fileSize its = encode flags fileSize its := by
  have hand : (flags &&& 0xFFFF).toNat = flags.toNat % 256 ^ 2 := by
    rw [UInt32.toNat_and]
    exact Nat.and_two_pow_sub_one_eq_mod _ 16
  rw [encode, hand, storeUnaligned_mod, encode]

theorem encode_fileSize : encode flags (fileSize % 2 ^ 64) its = encode flags fileSize its := by
  have hmod : fileSize % 2 ^ 64 = fileSize % 256 ^ 8 := rfl
  rw [encode, hmod, storeUnaligned_mod, encode]

variable {its}

theorem itemsOf_encode (h : Plain its) :
    itemsOf (encode flags fileSize its) = its.map storedItem := by
  rw [itemsOf, encode, List.drop_left' (length_encode_head flags fileSize), items_itemBytes h]

theorem take_encode :
    (encode flags fileSize its).take baseItemSize =
      storeUnaligned 2 flags.toNat ++ storeUnaligned 8 fileSize := by
  rw [encode, List.take_left' (length_encode_head flags fileSize)]

end Encode

/-! ### Entries -/

/-- What is known of a file: `none` for what the record does not have an item for. -/
structure Entry where
  flags : UInt32
  fileSize : Nat
  path : Option Bytes
  uploadCount : Option UInt32
  tree : Option (List TTHValue)
  deriving DecidableEq

namespace Entry

/-- The data of an item with an upload count. -/
def countBytes (count : UInt32) : Bytes :=
  storeUnaligned (if count < 0x10000 then 2 else 4) count.toNat

/-- An entry without anything. -/
def empty : Entry := ⟨0, 0, none, none, none⟩

/-- The data of the item of a kind. -/
def item (e : Entry) (type : UInt8) : Option Bytes :=
  if type = itemTigerTree then e.tree.map fun leaves => leaves.flatMap Subtype.val
  else if type = itemLocalPath then e.path
  else if type = itemUploadCount then e.uploadCount.map countBytes
  else none

/-- The fields fit in a record. -/
structure Valid (e : Entry) : Prop where
  flags : e.flags &&& 0xFFFF = e.flags
  fileSize : e.fileSize % 2 ^ 64 = e.fileSize
  path : ∀ path, e.path = some path → path.length < 65536
  tree : ∀ leaves, e.tree = some leaves → 2 ≤ leaves.length ∧ leaves.length * tthSize < 65536

/-- The items are those of the entry, in some order. -/
def HasItems (e : Entry) (its : List (UInt8 × Bytes)) : Prop :=
  ∀ type, its.filter (fun item => item.1 = type) = (e.item type).toList.map fun data => (type, data)

theorem length_leaves (leaves : List TTHValue) :
    (leaves.flatMap Subtype.val).length = leaves.length * tthSize := by
  induction leaves with
  | nil => simp
  | cons leaf leaves ih =>
    rw [List.flatMap_cons, List.length_append, ih, leaf.2, List.length_cons, Nat.succ_mul,
      Nat.add_comm]

theorem HasItems.mem {e : Entry} {its : List (UInt8 × Bytes)} (h : e.HasItems its) {type : UInt8}
    {data : Bytes} (hmem : (type, data) ∈ its) : e.item type = some data := by
  have hfilter : (type, data) ∈ its.filter fun item => item.1 = type := by simp [hmem]
  rw [h type] at hfilter
  simpa using hfilter

theorem HasItems.plain {e : Entry} {its : List (UInt8 × Bytes)} (h : e.HasItems its)
    (hvalid : e.Valid) : Plain its := by
  rintro ⟨type, data⟩ hmem
  have hitem := h.mem hmem
  rw [item] at hitem
  split_ifs at hitem with htree hpath hcount
  · obtain ⟨leaves, hleaves, rfl⟩ := Option.map_eq_some_iff.mp hitem
    refine ⟨by simp [itemTypes, htree], ?_⟩
    rw [length_leaves]
    exact (hvalid.tree leaves hleaves).2
  · exact ⟨by simp [itemTypes, hpath], hvalid.path data hitem⟩
  · obtain ⟨count, -, rfl⟩ := Option.map_eq_some_iff.mp hitem
    refine ⟨by simp [itemTypes, hcount], ?_⟩
    rw [countBytes, length_storeUnaligned]
    split <;> omega

/-- The record holds the entry. -/
def Holds (e : Entry) (val : Bytes) : Prop :=
  e.Valid ∧ ∃ its, e.HasItems its ∧ val = encode e.flags e.fileSize its

/-- What `getFileInfo` gives for an entry. -/
def info (e : Entry) : FileInfo :=
  ⟨e.flags, e.fileSize, e.path.getD [], (e.tree.map fun leaves => leaves.length * tthSize).getD 0,
    e.uploadCount.getD 0⟩

/-! ### Reading an entry -/

private theorem item_tree (e : Entry) :
    e.item itemTigerTree = e.tree.map fun leaves => leaves.flatMap Subtype.val := if_pos rfl

private theorem item_path (e : Entry) : e.item itemLocalPath = e.path := by
  rw [item, if_neg (by decide), if_pos rfl]

private theorem item_count (e : Entry) :
    e.item itemUploadCount = e.uploadCount.map countBytes := by
  rw [item, if_neg (by decide), if_neg (by decide), if_pos rfl]

private theorem item_congr {e e' : Entry} {type : UInt8}
    (htree : type = itemTigerTree → e.tree = e'.tree)
    (hpath : type = itemLocalPath → e.path = e'.path)
    (hcount : type = itemUploadCount → e.uploadCount = e'.uploadCount) :
    e.item type = e'.item type := by
  rw [item, item]
  split_ifs with h1 h2 h3
  · rw [htree h1]
  · exact hpath h2
  · rw [hcount h3]
  · rfl

variable {e : Entry} {its : List (UInt8 × Bytes)}

/-- The items of a kind that the parser gives. -/
private theorem HasItems.filter_stored (h : e.HasItems its) (type : UInt8) :
    (its.map storedItem).filter (fun item => item.type = type) =
      (e.item type).toList.map fun data => storedItem (type, data) := by
  rw [List.filter_map]
  have hcomp : ((fun item : Item => decide (item.type = type)) ∘ storedItem) =
      fun item => decide (item.1 = type) := rfl
  rw [hcomp, h type, List.map_map]
  rfl

private theorem HasItems.treeItem (h : e.HasItems its) :
    treeItem (its.map storedItem) =
      (e.item itemTigerTree).map fun data => storedItem (itemTigerTree, data) := by
  rw [HashDb.treeItem, ← List.head?_filter, h.filter_stored]
  cases e.item itemTigerTree <;> rfl

private theorem readUploadCount_eq {item : Item} {count : UInt32} (h : item.data = countBytes count)
    (init : UInt32) : readUploadCount init item = count := by
  rw [readUploadCount, h, countBytes, if_pos]
  · rw [loadUnaligned_storeUnaligned]
    apply UInt32.toNat.inj
    have hlt := count.toNat_lt
    rw [UInt32.toNat_ofNat']
    split
    · next hsmall =>
      have hsmall' : count.toNat < 65536 := hsmall
      omega
    · omega
  · rw [length_storeUnaligned]
    split
    · exact .inl rfl
    · exact .inr rfl

private theorem HasItems.uploadCountOf (h : e.HasItems its) :
    uploadCountOf (its.map storedItem) = e.uploadCount.getD 0 := by
  have hfold : HashDb.uploadCountOf (its.map storedItem) =
      ((its.map storedItem).filter fun item => item.type = itemUploadCount).foldl
        readUploadCount 0 := by
    rw [HashDb.uploadCountOf, List.foldl_filter]
    simp
  rw [hfold, h.filter_stored, item_count]
  cases e.uploadCount with
  | none => rfl
  | some count => exact readUploadCount_eq rfl 0

/-- `getFileInfo` keeps for each kind the last item. -/
private theorem foldl_read (l : List Item) (info : FileInfo) :
    l.foldl FileInfo.read info =
      { info with
        path := (l.filter fun item => item.type = itemLocalPath).foldl (fun _ item => item.data)
          info.path
        treeSize := (l.filter fun item => item.type = itemTigerTree).foldl
          (fun _ item => item.data.length) info.treeSize
        uploadCount := (l.filter fun item => item.type = itemUploadCount).foldl readUploadCount
          info.uploadCount } := by
  induction l generalizing info with
  | nil => rfl
  | cons item l ih =>
    rw [List.foldl_cons, ih, FileInfo.read]
    by_cases htree : item.type = itemTigerTree
    · simp [htree, itemTigerTree, itemLocalPath, itemUploadCount]
    · by_cases hpath : item.type = itemLocalPath
      · simp [hpath, itemTigerTree, itemLocalPath, itemUploadCount]
      · by_cases hcount : item.type = itemUploadCount
        · simp [hcount, itemTigerTree, itemLocalPath, itemUploadCount]
        · simp [htree, hpath, hcount]

/-- `getFileInfo` finds the entry. -/
theorem Holds.fileInfoOf {val : Bytes} (h : e.Holds val) : fileInfoOf val = e.info := by
  obtain ⟨hvalid, its, hits, rfl⟩ := h
  rw [HashDb.fileInfoOf, flagsOf_encode, fileSizeOf_encode, itemsOf_encode _ _ (hits.plain hvalid),
    foldl_read, hits.filter_stored, hits.filter_stored, hits.filter_stored, item_tree, item_path,
    item_count, hvalid.flags, hvalid.fileSize, info]
  have hpath : ((e.path.toList.map fun data => storedItem (itemLocalPath, data)).foldl
      (fun _ item => item.data) []) = e.path.getD [] := by
    cases e.path <;> rfl
  have htree : ((((e.tree.map fun leaves => leaves.flatMap Subtype.val).toList.map
      fun data => storedItem (itemTigerTree, data)).foldl (fun _ item => item.data.length) 0) =
      (e.tree.map fun leaves => leaves.length * tthSize).getD 0) := by
    cases e.tree with
    | none => rfl
    | some leaves => exact length_leaves leaves
  have hcount : (((e.uploadCount.map countBytes).toList.map
      fun data => storedItem (itemUploadCount, data)).foldl readUploadCount 0) =
      e.uploadCount.getD 0 := by
    cases e.uploadCount with
    | none => rfl
    | some count => exact readUploadCount_eq rfl 0
  rw [hpath, htree, hcount]

/-- `getTigerTree` finds the tree of the entry. -/
theorem Holds.tigerTreeOf {val : Bytes} (h : e.Holds val) :
    tigerTreeOf val =
      match e.tree with
      | none => .missing
      | some leaves => .found (leaves.flatMap Subtype.val) := by
  obtain ⟨hvalid, its, hits, rfl⟩ := h
  rw [HashDb.tigerTreeOf, itemsOf_encode _ _ (hits.plain hvalid), hits.treeItem, item_tree]
  cases htree : e.tree with
  | none => rfl
  | some leaves =>
    have hleaves := (hvalid.tree leaves htree).1
    have hlength : (leaves.flatMap Subtype.val).length = leaves.length * tthSize :=
      length_leaves leaves
    simp only [Option.map_some, storedItem]
    rw [if_neg]
    rw [hlength]
    simp only [tthSize, not_or, not_lt, not_not]
    omega

theorem Holds.fileSizeOf {val : Bytes} (h : e.Holds val) : fileSizeOf val = e.fileSize := by
  obtain ⟨hvalid, its, -, rfl⟩ := h
  rw [fileSizeOf_encode, hvalid.fileSize]

theorem Holds.baseItemSize_le {val : Bytes} (h : e.Holds val) : baseItemSize ≤ val.length := by
  obtain ⟨-, its, -, rfl⟩ := h
  rw [length_encode]
  exact Nat.le_add_right _ _

/-! ### Updating an entry -/

/-- What `putFileInfo` does to an entry. The file size is stored with an update only. -/
def putFileInfo (e : Option Entry) (u : FileUpdate) : Option Entry :=
  let prev := e.getD empty
  let updatePath := u.path.isSome ∧ prev.path ≠ u.path
  if prev.flags ||| u.flags = prev.flags ∧ ¬ updatePath ∧ u.incUploadCount = false then e
  else
    some
      { flags := (prev.flags ||| u.flags) &&& 0xFFFF
        fileSize := u.fileSize.toNat
        path := if u.path.isSome then u.path else prev.path
        uploadCount :=
          if u.incUploadCount then some (prev.uploadCount.getD 0 + 1) else prev.uploadCount
        tree := prev.tree }

/-- What `putTigerTree` does to an entry. A tree of the same file size with as many leaves is the
one that is there. -/
def putTigerTree (e : Option Entry) (tree : MerkleTree TTHValue) : Option Entry :=
  let prev := e.getD empty
  if e.isSome ∧ prev.tree.map List.length = some tree.leaves.length ∧
      prev.fileSize = tree.fileSize % 2 ^ 64 then e
  else some { prev with fileSize := tree.fileSize % 2 ^ 64, tree := some tree.leaves }

/-- What `removeTigerTree` does to an entry. Nothing stays of an entry without flags, path and
count. -/
def removeTigerTree (e : Option Entry) : Option Entry :=
  match e with
  | none => none
  | some e =>
    if e.tree = none then some e
    else if e.flags = 0 ∧ e.path = none ∧ e.uploadCount = none then none
    else some { e with tree := none }

/-- What an operation does to the entry of its key. -/
def update (e : Option Entry) : Op → Option Entry
  | .putFileInfo _ u => putFileInfo e u
  | .putTigerTree tree => if tree.leaves.length < 2 then e else putTigerTree e tree
  | .removeTigerTree _ => removeTigerTree e
  | _ => e

/-- The arguments of an operation are short enough for an item. -/
def Small : Op → Prop
  | .putFileInfo _ u => ∀ path, u.path = some path → path.length < 65536
  | .putTigerTree tree => tree.leaves.length * tthSize < 65536
  | _ => True

/-- The record of a key holds the entry, and there is no record where there is no entry. -/
def Represents : Option Entry → Option Bytes → Prop
  | none, none => True
  | some e, some val => e.Holds val
  | _, _ => False

/-- What an update finds before it: `prev` is the record, `its` are its items. -/
private structure Found (e : Entry) (prev : Option Bytes) (its : List (UInt8 × Bytes)) : Prop where
  valid : e.Valid
  items : e.HasItems its
  flagsOf : (prev.map flagsOf).getD 0 = e.flags
  itemsOf : (prev.map itemsOf).getD [] = its.map storedItem

private theorem valid_empty : empty.Valid :=
  ⟨by decide, by decide, by simp [empty], by simp [empty]⟩

private theorem item_empty (type : UInt8) : empty.item type = none := by
  rw [item]
  split_ifs <;> rfl

private theorem Holds.found {val : Bytes} (h : e.Holds val) :
    ∃ its, Found e (some val) its ∧ val = encode e.flags e.fileSize its := by
  obtain ⟨hvalid, its, hits, rfl⟩ := h
  refine ⟨its, ⟨hvalid, hits, ?_, ?_⟩, rfl⟩
  · simp [flagsOf_encode, hvalid.flags]
  · simp [itemsOf_encode _ _ (hits.plain hvalid)]

private theorem found_empty : Found empty none [] :=
  ⟨valid_empty, fun type => by simp [item_empty], rfl, rfl⟩

/-- The bytes of the items that are kept. -/
private theorem flatMap_filter_stored (its : List (UInt8 × Bytes)) (p : UInt8 → Bool) :
    ((its.map storedItem).filter fun item => p item.type).flatMap Item.bytes =
      itemBytes (its.filter fun item => p item.1) := by
  rw [List.filter_map, List.flatMap_map, itemBytes]
  rfl

private theorem value_data (bufSize : Nat) (data buf : Bytes) :
    Stored.value ⟨bufSize, data, data.length⟩ buf = data := by
  rw [Stored.value, fillBuf, List.take_left' rfl]

private theorem itemBytes_append (its its' : List (UInt8 × Bytes)) :
    itemBytes (its ++ its') = itemBytes its ++ itemBytes its' := List.flatMap_append

/-- The path is stored anew when it is not the one that is there. -/
private theorem Found.updatePath {prev : Option Bytes} (h : Found e prev its)
    (path : Option Bytes) :
    (path.isSome && !(its.map storedItem).any fun item =>
      item.type = itemLocalPath ∧ path = some item.data) = true ↔
      path.isSome ∧ e.path ≠ path := by
  have hany : ((its.map storedItem).any fun item =>
      item.type = itemLocalPath ∧ path = some item.data) =
      ((its.map storedItem).filter fun item => item.type = itemLocalPath).any
        fun item => path = some item.data := by
    rw [List.any_filter]
    simp
  rw [hany, h.items.filter_stored, item_path]
  cases he : e.path with
  | none => cases path <;> simp
  | some old =>
    cases path with
    | none => simp
    | some new =>
      simp [storedItem]
      exact ⟨fun hne heq => hne heq.symm, fun hne heq => hne heq.symm⟩

/-- The items of a kind among those that are kept. -/
private theorem filter_kept (its : List (UInt8 × Bytes)) (p : UInt8 → Bool) (type : UInt8) :
    ((its.filter fun item => p item.1).filter fun item => item.1 = type) =
      if p type then its.filter fun item => item.1 = type else [] := by
  rw [List.filter_filter]
  have hcongr : (its.filter fun item => decide (item.1 = type) && p item.1) =
      its.filter fun item => decide (item.1 = type) && p type := by
    apply List.filter_congr
    rintro ⟨t, data⟩ _
    by_cases ht : t = type
    · rw [ht]
    · simp [ht]
  rw [hcongr]
  cases p type <;> simp

/-- The kinds of items that an update of the path and the count replaces. -/
private def kept (updatePath inc : Bool) (type : UInt8) : Bool :=
  ¬ ((type = itemLocalPath ∧ updatePath = true) ∨ (type = itemUploadCount ∧ inc = true))

/-- The items after an update of the path and the count. -/
private def putItems (its : List (UInt8 × Bytes)) (updatePath inc : Bool) (path : Bytes)
    (count : UInt32) : List (UInt8 × Bytes) :=
  (its.filter fun item => kept updatePath inc item.1) ++
    (if updatePath then [(itemLocalPath, path)] else []) ++
    (if inc then [(itemUploadCount, countBytes count)] else [])

private theorem filter_putItems (its : List (UInt8 × Bytes)) (updatePath inc : Bool) (path : Bytes)
    (count : UInt32) (type : UInt8) :
    (putItems its updatePath inc path count).filter (fun item => item.1 = type) =
      if type = itemLocalPath ∧ updatePath = true then [(itemLocalPath, path)]
      else if type = itemUploadCount ∧ inc = true then [(itemUploadCount, countBytes count)]
      else its.filter fun item => item.1 = type := by
  rw [putItems, List.filter_append, List.filter_append, filter_kept, kept]
  by_cases hpath : type = itemLocalPath
  · subst hpath
    cases updatePath <;> cases inc <;> simp [itemLocalPath, itemUploadCount]
  · by_cases hcount : type = itemUploadCount
    · subst hcount
      cases updatePath <;> cases inc <;> simp [itemLocalPath, itemUploadCount]
    · have hpath' : itemLocalPath ≠ type := Ne.symm hpath
      have hcount' : itemUploadCount ≠ type := Ne.symm hcount
      cases updatePath <;> cases inc <;> simp [hpath, hcount, hpath', hcount']

/-- What `putFileInfo` stores. -/
private theorem Found.putFileInfoData {prev : Option Bytes} (h : Found e prev its)
    (u : FileUpdate) :
    (e.flags ||| u.flags = e.flags ∧ ¬ (u.path.isSome ∧ e.path ≠ u.path) ∧
        u.incUploadCount = false → putFileInfoData prev u = none) ∧
      (¬ (e.flags ||| u.flags = e.flags ∧ ¬ (u.path.isSome ∧ e.path ≠ u.path) ∧
        u.incUploadCount = false) → ∃ stored, putFileInfoData prev u = some stored ∧
          ∀ buf, stored.value buf = encode (e.flags ||| u.flags) u.fileSize.toNat
            (putItems its (decide (u.path.isSome ∧ e.path ≠ u.path)) u.incUploadCount
              (u.path.getD []) (e.uploadCount.getD 0 + 1))) := by
  have hpath : (u.path.isSome && !(its.map storedItem).any fun item =>
      item.type = itemLocalPath ∧ u.path = some item.data) =
      decide (u.path.isSome ∧ e.path ≠ u.path) := by
    rw [Bool.eq_iff_iff, h.updatePath u.path, decide_eq_true_iff]
  have hdata : ∀ updatePath inc : Bool, ∀ count : UInt32,
      storeUnaligned 2 (e.flags ||| u.flags).toNat ++ storeUnaligned 8 u.fileSize.toNat ++
        ((its.map storedItem).filter fun item =>
          decide ¬ ((item.type = itemLocalPath ∧ updatePath = true) ∨
            (item.type = itemUploadCount ∧ inc = true))).flatMap Item.bytes ++
        (if updatePath = true then putItem itemLocalPath (u.path.getD []) else []) ++
        (if inc = true then putUploadCount count else []) =
      encode (e.flags ||| u.flags) u.fileSize.toNat
        (putItems its updatePath inc (u.path.getD []) count) := by
    intro updatePath inc count
    have hfilter := flatMap_filter_stored its (kept updatePath inc)
    rw [encode, putItems, itemBytes_append, itemBytes_append, ← hfilter]
    cases updatePath <;> cases inc <;>
      simp [itemBytes, kept, putUploadCount, countBytes]
  simp only [HashDb.putFileInfoData, h.flagsOf, h.itemsOf, hpath, h.items.uploadCountOf, hdata]
  constructor
  · rintro ⟨hflags, hnot, hinc⟩
    rw [if_pos ⟨not_not.mpr hflags, decide_eq_false hnot, hinc⟩]
  · intro hupdate
    rw [if_neg]
    · exact ⟨_, rfl, fun buf => value_data _ _ buf⟩
    · rintro ⟨hflags, hnot, hinc⟩
      exact hupdate ⟨not_not.mp hflags, of_decide_eq_false hnot, hinc⟩

/-- The entry after an update of `putFileInfo`. -/
private theorem Found.holds_putFileInfo {prev : Option Bytes} (h : Found e prev its)
    {u : FileUpdate}
    (hsmall : ∀ path, u.path = some path → path.length < 65536) :
    Holds
      { flags := (e.flags ||| u.flags) &&& 0xFFFF
        fileSize := u.fileSize.toNat
        path := if u.path.isSome then u.path else e.path
        uploadCount := if u.incUploadCount then some (e.uploadCount.getD 0 + 1) else e.uploadCount
        tree := e.tree }
      (encode (e.flags ||| u.flags) u.fileSize.toNat
        (putItems its (decide (u.path.isSome ∧ e.path ≠ u.path)) u.incUploadCount
          (u.path.getD []) (e.uploadCount.getD 0 + 1))) := by
  refine ⟨⟨?_, Nat.mod_eq_of_lt u.fileSize.toNat_lt, ?_, h.valid.tree⟩, _, ?_,
    (encode_flags _ _ _).symm⟩
  · rw [UInt32.and_assoc]
    rfl
  · intro path hpath
    split at hpath
    · exact hsmall path hpath
    · exact h.valid.path path hpath
  · intro type
    rw [filter_putItems]
    split
    · next hup =>
      obtain ⟨rfl, hup⟩ := hup
      obtain ⟨hsome, -⟩ := of_decide_eq_true hup
      obtain ⟨path, hpath⟩ := Option.isSome_iff_exists.mp hsome
      simp [item_path, hpath]
    · next hnot =>
      split
      · next hinc =>
        obtain ⟨rfl, hinc⟩ := hinc
        simp [item_count, hinc]
      · next hninc =>
        rw [h.items type]
        congr 2
        apply item_congr
        · exact fun _ => rfl
        · intro hpath
          dsimp only
          split
          · next hsome =>
            by_contra hne
            exact hnot ⟨hpath, decide_eq_true ⟨hsome, hne⟩⟩
          · rfl
        · intro hcount
          dsimp only
          rw [if_neg fun hinc => hninc ⟨hcount, hinc⟩]

theorem Represents.eq_none {val : Option Bytes} (h : Represents none val) : val = none := by
  cases val with
  | none => rfl
  | some val => exact absurd h (by simp [Represents])

theorem Represents.eq_some {val : Option Bytes} (h : Represents (some e) val) :
    ∃ v, val = some v ∧ e.Holds v := by
  cases val with
  | none => exact absurd h (by simp [Represents])
  | some val => exact ⟨val, rfl, h⟩

/-- An entry and the record of it, found by an update. -/
private theorem Represents.found {x : Option Entry} {val : Option Bytes} (h : Represents x val) :
    ∃ its, Found (x.getD empty) val its ∧
      (∀ v, val = some v → v = encode (x.getD empty).flags (x.getD empty).fileSize its) ∧
      (val = none → x.getD empty = empty ∧ its = []) := by
  cases x with
  | none =>
    rw [h.eq_none]
    exact ⟨[], found_empty, by simp⟩
  | some e =>
    obtain ⟨v, rfl, hv⟩ := h.eq_some
    obtain ⟨its, hfound, hval⟩ := hv.found
    exact ⟨its, hfound, by simp [hval], by simp⟩

private theorem Represents.isSome_eq {x : Option Entry} {val : Option Bytes}
    (h : Represents x val) : val.isSome = x.isSome := by
  cases x with
  | none =>
    rw [h.eq_none]
    rfl
  | some e =>
    obtain ⟨v, rfl, -⟩ := h.eq_some
    rfl

/-- What `mdb_get` gives for a record. -/
def lookup : Option Bytes → Except Int Bytes
  | some val => .ok val
  | none => .error mdbNotFound

/-- The record is long enough to be read. -/
theorem Represents.recordOf {x : Option Entry} {val : Option Bytes} (h : Represents x val) :
    recordOf baseItemSize (lookup val) = val := by
  cases x with
  | none =>
    rw [h.eq_none]
    rfl
  | some e =>
    obtain ⟨v, rfl, hv⟩ := h.eq_some
    rw [lookup, HashDb.recordOf, if_pos hv.baseItemSize_le]

/-- What an update leaves for the record of its key. -/
def after (val : Option Bytes) : Outcome → Option Bytes
  | .writes (.put val) => some val
  | .writes .del => none
  | _ => val

private theorem represents_putFileInfo {x : Option Entry} {val : Option Bytes}
    (h : Represents x val) {u : FileUpdate} (tth : TTHValue) (buf : Bytes)
    (hsmall : ∀ path, u.path = some path → path.length < 65536) {got : Except Int Bytes}
    (hgot : recordOf baseItemSize got = val) :
    Represents (putFileInfo x u) (after val ((Op.putFileInfo tth u).outcome buf got)) := by
  obtain ⟨its, hfound, -, -⟩ := h.found
  have hdata := hfound.putFileInfoData u
  rw [putFileInfo, Op.outcome, hgot]
  split
  · next hnothing =>
    rw [hdata.1 hnothing]
    exact h
  · next hupdate =>
    obtain ⟨stored, hstored, hvalue⟩ := hdata.2 hupdate
    rw [hstored]
    have hholds := hfound.holds_putFileInfo hsmall
    rw [← hvalue buf] at hholds
    exact hholds

/-- The items besides the tree. -/
private def otherItems (its : List (UInt8 × Bytes)) : List (UInt8 × Bytes) :=
  its.filter fun item => decide (item.1 ≠ itemTigerTree)

private theorem length_otherItems (h : e.HasItems its) :
    (itemBytes its).length = (itemBytes (otherItems its)).length +
      ((e.item itemTigerTree).map fun data => (putItem itemTigerTree data).length).getD 0 := by
  have hpartition : ∀ l : List (UInt8 × Bytes), (itemBytes l).length =
      (itemBytes (otherItems l)).length +
        (itemBytes (l.filter fun item => item.1 = itemTigerTree)).length := by
    intro l
    induction l with
    | nil => rfl
    | cons item l ih =>
      rw [otherItems] at ih ⊢
      rw [itemBytes_cons, List.length_append, ih, List.filter_cons, List.filter_cons]
      by_cases hitem : item.1 = itemTigerTree
      · simp [hitem, itemBytes_cons]
        omega
      · simp [hitem, itemBytes_cons]
        omega
  rw [hpartition its, h itemTigerTree]
  cases e.item itemTigerTree with
  | none => rfl
  | some data => simp [itemBytes]

private theorem length_itemHeader (type : UInt8) (size : Nat) :
    (itemHeader type size).length = 2 + if 255 < size then 1 else 0 := by
  rw [itemHeader]
  split <;> simp [length_storeUnaligned]

/-- The tree that is there has the size of the new one. -/
private theorem map_length_tree (h : e.HasItems its) (n : Nat) :
    (HashDb.treeItem (its.map storedItem)).map (·.data.length) = some (n * tthSize) ↔
      e.tree.map List.length = some n := by
  rw [h.treeItem, item_tree]
  cases e.tree with
  | none => simp
  | some leaves =>
    have hlength : (leaves.flatMap Subtype.val).length = leaves.length * tthSize :=
      length_leaves leaves
    simp only [Option.map_some, storedItem, hlength, Option.some.injEq]
    exact Nat.mul_left_inj (by decide)

/-- What `putTigerTree` stores. -/
private theorem Found.putTigerTreeData {prev : Option Bytes} (h : Found e prev its)
    (hprev : ∀ val, prev = some val → val = encode e.flags e.fileSize its)
    (hnone : prev = none → e = empty ∧ its = []) (tree : MerkleTree TTHValue) :
    (prev.isSome ∧ e.tree.map List.length = some tree.leaves.length ∧
        e.fileSize = tree.fileSize % 2 ^ 64 → putTigerTreeData prev tree = none) ∧
      (¬ (prev.isSome ∧ e.tree.map List.length = some tree.leaves.length ∧
        e.fileSize = tree.fileSize % 2 ^ 64) → ∃ stored, putTigerTreeData prev tree = some stored ∧
          ∀ buf, stored.value buf = encode e.flags tree.fileSize
            ((itemTigerTree, tree.leaves.flatMap Subtype.val) :: otherItems its)) := by
  have hsize : prev.map fileSizeOf = some (tree.fileSize % 2 ^ 64) ↔
      prev.isSome ∧ e.fileSize = tree.fileSize % 2 ^ 64 := by
    cases prev with
    | none => simp
    | some val =>
      rw [Option.map_some, hprev val rfl, fileSizeOf_encode, h.valid.fileSize]
      simp
  have hcond : (HashDb.treeItem (its.map storedItem)).map (·.data.length) =
        some (tree.leaves.length * tthSize) ∧
        prev.map HashDb.fileSizeOf = some (tree.fileSize % 2 ^ 64) ↔
      prev.isSome ∧ e.tree.map List.length = some tree.leaves.length ∧
        e.fileSize = tree.fileSize % 2 ^ 64 := by
    rw [map_length_tree h.items, hsize]
    tauto
  have hdata : storeUnaligned 2 e.flags.toNat ++ storeUnaligned 8 tree.fileSize ++
      itemHeader itemTigerTree (tree.leaves.length * tthSize) ++ tree.leaves.flatMap Subtype.val ++
      ((its.map storedItem).filter (fun item => decide (item.type ≠ itemTigerTree))).flatMap
        Item.bytes = encode e.flags tree.fileSize
          ((itemTigerTree, tree.leaves.flatMap Subtype.val) :: otherItems its) := by
    have hfilter := flatMap_filter_stored its fun type => decide (type ≠ itemTigerTree)
    rw [hfilter, encode, itemBytes_cons, putItem, length_leaves, otherItems]
    simp
  simp only [HashDb.putTigerTreeData, h.flagsOf, h.itemsOf, hdata]
  constructor
  · intro hsame
    rw [if_pos (hcond.mpr hsame)]
  · intro hnew
    rw [if_neg fun hc => hnew (hcond.mp hc)]
    refine ⟨_, rfl, fun buf => ?_⟩
    rw [Stored.value, fillBuf, List.take_left']
    rw [length_encode, itemBytes_cons, List.length_append, putItem, List.length_append,
      length_itemHeader, length_leaves]
    cases prev with
    | none =>
      obtain ⟨rfl, rfl⟩ := hnone rfl
      simp [otherItems, itemBytes]
      omega
    | some val =>
      have hlength := length_otherItems h.items
      rw [hprev val rfl]
      dsimp only
      rw [length_encode, hlength, h.items.treeItem]
      cases e.item itemTigerTree with
      | none =>
        simp
        omega
      | some data =>
        simp [bytes_storedItem]
        omega

/-- The items after a tree was put before the others. -/
private theorem filter_tree_otherItems (its : List (UInt8 × Bytes)) (data : Bytes) (type : UInt8) :
    ((itemTigerTree, data) :: otherItems its).filter (fun item => item.1 = type) =
      if type = itemTigerTree then [(itemTigerTree, data)]
      else its.filter fun item => item.1 = type := by
  have hkept := filter_kept its (fun type => decide (type ≠ itemTigerTree)) type
  rw [List.filter_cons, otherItems, hkept]
  by_cases htype : type = itemTigerTree
  · subst htype
    simp
  · have htype' : itemTigerTree ≠ type := Ne.symm htype
    simp [htype, htype']

/-- The entry after a tree was stored. -/
private theorem Found.holds_putTigerTree {prev : Option Bytes} (h : Found e prev its)
    {tree : MerkleTree TTHValue} (hleaves : 2 ≤ tree.leaves.length)
    (hsmall : tree.leaves.length * tthSize < 65536) :
    Holds { e with fileSize := tree.fileSize % 2 ^ 64, tree := some tree.leaves }
      (encode e.flags tree.fileSize
        ((itemTigerTree, tree.leaves.flatMap Subtype.val) :: otherItems its)) := by
  refine ⟨⟨h.valid.flags, Nat.mod_mod _ _, h.valid.path, ?_⟩, _, ?_, (encode_fileSize _ _ _).symm⟩
  · intro leaves heq
    cases heq
    exact ⟨hleaves, hsmall⟩
  · intro type
    rw [filter_tree_otherItems]
    split
    · next htype =>
      subst htype
      rw [item_tree]
      rfl
    · next htype =>
      rw [h.items type]
      congr 2
      exact item_congr (fun heq => absurd heq htype) (fun _ => rfl) (fun _ => rfl)

private theorem represents_putTigerTree {x : Option Entry} {val : Option Bytes}
    (h : Represents x val) {tree : MerkleTree TTHValue} (buf : Bytes)
    (hsmall : tree.leaves.length * tthSize < 65536) {got : Except Int Bytes}
    (hgot : recordOf baseItemSize got = val) :
    Represents (update x (.putTigerTree tree))
      (after val ((Op.putTigerTree tree).outcome buf got)) := by
  obtain ⟨its, hfound, hval, hnone⟩ := h.found
  rw [update, Op.outcome]
  by_cases hleaves : tree.leaves.length < 2
  · rw [if_pos hleaves, if_pos hleaves]
    exact h
  have hdata := hfound.putTigerTreeData hval hnone tree
  have hsome : val.isSome = x.isSome := h.isSome_eq
  rw [if_neg hleaves, if_neg hleaves, putTigerTree, hgot]
  rw [hsome] at hdata
  split
  · next hsame =>
    rw [hdata.1 hsame]
    exact h
  · next hnew =>
    obtain ⟨stored, hstored, hvalue⟩ := hdata.2 hnew
    rw [hstored]
    have hholds := hfound.holds_putTigerTree (not_lt.mp hleaves) hsmall
    rw [← hvalue buf] at hholds
    exact hholds

/-- The entry without its tree. -/
private theorem holds_otherItems (hvalid : e.Valid) (hits : e.HasItems its) :
    Holds { e with tree := none } (encode e.flags e.fileSize (otherItems its)) := by
  refine ⟨⟨hvalid.flags, hvalid.fileSize, hvalid.path, by simp⟩, _, ?_, rfl⟩
  intro type
  have hkept := filter_kept its (fun type => decide (type ≠ itemTigerTree)) type
  rw [otherItems, hkept]
  by_cases htype : type = itemTigerTree
  · subst htype
    simp [item_tree]
  · rw [if_pos (decide_eq_true htype), hits type]
    congr 2
    exact item_congr (fun heq => absurd heq htype) (fun _ => rfl) (fun _ => rfl)

/-- No item is left besides the tree when there is neither a path nor a count. -/
private theorem otherItems_eq_nil (hits : e.HasItems its) :
    otherItems its = [] ↔ e.path = none ∧ e.uploadCount = none := by
  constructor
  · intro hnil
    have hitem : ∀ type, type ≠ itemTigerTree → e.item type = none := by
      intro type htype
      have hkept := filter_kept its (fun type => decide (type ≠ itemTigerTree)) type
      rw [← otherItems, hnil, if_pos (decide_eq_true htype), hits type] at hkept
      cases hdata : e.item type with
      | none => rfl
      | some data => simp [hdata] at hkept
    have hpath := hitem itemLocalPath (by decide)
    have hcount := hitem itemUploadCount (by decide)
    rw [item_path] at hpath
    rw [item_count, Option.map_eq_none_iff] at hcount
    exact ⟨hpath, hcount⟩
  · rintro ⟨hpath, hcount⟩
    rw [otherItems, List.filter_eq_nil_iff]
    rintro ⟨type, data⟩ hmem
    have hitem := hits.mem hmem
    rw [item] at hitem
    split_ifs at hitem with htree h2 h3
    · simp [htree]
    · simp [hpath] at hitem
    · simp [hcount] at hitem

/-- What `removeTigerTree` does with the record of an entry that has a tree. -/
private theorem removeTigerTreeData_encode (hvalid : e.Valid) (hits : e.HasItems its)
    {leaves : List TTHValue} (htree : e.tree = some leaves) :
    removeTigerTreeData (some (encode e.flags e.fileSize its)) =
      if e.flags = 0 ∧ e.path = none ∧ e.uploadCount = none then
        .delete ((encode e.flags e.fileSize its).length -
          (putItem itemTigerTree (leaves.flatMap Subtype.val)).length)
          (encode e.flags e.fileSize (otherItems its))
      else
        .store ⟨(encode e.flags e.fileSize its).length -
          (putItem itemTigerTree (leaves.flatMap Subtype.val)).length,
          encode e.flags e.fileSize (otherItems its),
          (encode e.flags e.fileSize (otherItems its)).length⟩ := by
  have hitems := itemsOf_encode e.flags e.fileSize (hits.plain hvalid)
  have hfilter := flatMap_filter_stored its fun type => decide (type ≠ itemTigerTree)
  have hdata : (encode e.flags e.fileSize its).take baseItemSize ++
      ((its.map storedItem).filter fun item => decide (item.type ≠ itemTigerTree)).flatMap
        Item.bytes = encode e.flags e.fileSize (otherItems its) := by
    rw [take_encode, hfilter, encode, otherItems]
  have hempty : (encode e.flags e.fileSize (otherItems its)).length = baseItemSize ↔
      e.path = none ∧ e.uploadCount = none := by
    rw [length_encode, ← otherItems_eq_nil hits, Nat.add_eq_left, List.length_eq_zero_iff]
    constructor
    · intro hnil
      have hle := length_le_itemBytes (otherItems its)
      rw [hnil] at hle
      exact List.length_eq_zero_iff.mp (Nat.le_zero.mp hle)
    · intro hnil
      rw [hnil]
      rfl
  simp only [removeTigerTreeData, hitems, hits.treeItem, item_tree, htree, Option.map_some, hdata,
    hempty, flagsOf_encode, hvalid.flags, bytes_storedItem]
  exact if_congr and_comm rfl rfl

/-- A record with a tree is long enough for one. -/
private theorem length_encode_tree (hits : e.HasItems its) (hvalid : e.Valid)
    {leaves : List TTHValue} (htree : e.tree = some leaves) :
    baseItemSize + tthSize ≤ (encode e.flags e.fileSize its).length := by
  have hlength := length_otherItems hits
  have hleaves := (hvalid.tree leaves htree).1
  rw [item_tree, htree, Option.map_some, Option.map_some, Option.getD_some, putItem,
    List.length_append, length_leaves] at hlength
  rw [length_encode, hlength, tthSize] at *
  omega

private theorem represents_removeTigerTree {x : Option Entry} {val : Option Bytes}
    (h : Represents x val) (tth : TTHValue) (buf : Bytes) :
    Represents (removeTigerTree x)
      (after val ((Op.removeTigerTree tth).outcome buf (lookup val))) := by
  cases x with
  | none =>
    rw [h.eq_none]
    trivial
  | some e =>
    obtain ⟨v, rfl, hvalid, its, hits, rfl⟩ := h.eq_some
    rw [removeTigerTree, Op.outcome, lookup, HashDb.recordOf]
    cases htree : e.tree with
    | none =>
      have hnothing : removeTigerTreeData (some (encode e.flags e.fileSize its)) = .nothing := by
        simp only [removeTigerTreeData, itemsOf_encode _ _ (hits.plain hvalid), hits.treeItem,
          item_tree, htree, Option.map_none]
      have hboth : removeTigerTreeData (if baseItemSize + tthSize ≤
          (encode e.flags e.fileSize its).length then some (encode e.flags e.fileSize its)
          else none) = .nothing := by
        split
        · exact hnothing
        · rfl
      rw [hboth]
      exact h
    | some leaves =>
      rw [if_pos (length_encode_tree hits hvalid htree),
        removeTigerTreeData_encode hvalid hits htree]
      simp only [reduceCtorEq, if_false]
      split
      · trivial
      · dsimp only
        rw [value_data]
        exact holds_otherItems hvalid hits

/-- An update does to the record of its key what it does to the entry. -/
theorem represents_update {x : Option Entry} {val : Option Bytes} (h : Represents x val) {op : Op}
    (hsmall : Small op) (buf : Bytes) :
    Represents (update x op) (after val (op.outcome buf (lookup val))) := by
  have hrecord := h.recordOf
  cases op with
  | putFileInfo tth u => exact represents_putFileInfo h tth buf hsmall hrecord
  | putTigerTree tree => exact represents_putTigerTree h buf hsmall hrecord
  | removeTigerTree tth => exact represents_removeTigerTree h tth buf
  | getFileInfo tth => exact h
  | getTigerTree tth => exact h
  | getDBInfo flags => exact h

/-! ### What an update leaves alone -/

/-- The kinds of items an operation is about. -/
def touched : Op → List UInt8
  | .putFileInfo _ u =>
    (if u.path.isSome then [itemLocalPath] else []) ++
      (if u.incUploadCount then [itemUploadCount] else [])
  | .putTigerTree _ => [itemTigerTree]
  | .removeTigerTree _ => [itemTigerTree]
  | _ => []

/-- The items of a kind in a record. -/
def kindOf (val : Option Bytes) (type : UInt8) : List Bytes :=
  (((val.map itemsOf).getD []).filter fun item => item.type = type).map Item.data

theorem Represents.kindOf {x : Option Entry} {val : Option Bytes} (h : Represents x val)
    (type : UInt8) : kindOf val type = ((x.getD empty).item type).toList := by
  obtain ⟨its, hfound, -, -⟩ := h.found
  rw [Entry.kindOf, hfound.itemsOf, hfound.items.filter_stored, List.map_map]
  cases (x.getD empty).item type <;> rfl

/-- An update changes no item it is not about. -/
theorem item_update (x : Option Entry) {op : Op} {type : UInt8} (htype : type ∉ touched op) :
    ((update x op).getD empty).item type = (x.getD empty).item type := by
  cases op with
  | putFileInfo tth u =>
    rw [update, putFileInfo]
    split
    · rfl
    · rw [touched, List.mem_append, not_or] at htype
      apply item_congr
      · exact fun _ => rfl
      · intro hpath
        dsimp only [Option.getD_some]
        rw [if_neg]
        intro hsome
        exact htype.1 (by simp [hsome, hpath])
      · intro hcount
        dsimp only [Option.getD_some]
        rw [if_neg]
        intro hinc
        exact htype.2 (by simp [hinc, hcount])
  | putTigerTree tree =>
    rw [touched, List.mem_singleton] at htype
    rw [update, putTigerTree]
    split_ifs
    · rfl
    · rfl
    · exact item_congr (fun heq => absurd heq htype) (fun _ => rfl) (fun _ => rfl)
  | removeTigerTree tth =>
    rw [touched, List.mem_singleton] at htype
    cases x with
    | none => rfl
    | some e =>
      rw [update, removeTigerTree]
      split_ifs with htree hempty
      · rfl
      · obtain ⟨-, hpath, hcount⟩ := hempty
        apply item_congr
        · exact fun heq => absurd heq htype
        · exact fun _ => hpath.symm
        · exact fun _ => hcount.symm
      · exact item_congr (fun heq => absurd heq htype) (fun _ => rfl) (fun _ => rfl)
  | _ => rfl

end Entry

end Blacklink.HashDb
