import Mathlib.Algebra.Ring.Int.Defs
import Blacklink.Base.Program
import Blacklink.HashDb.Record

/-!
# The operations of a database connection

Model of `HashDatabaseConnection` (`client/HashDatabaseLMDB.cpp:182-703, 778-857`) and of the
functions of `HashDatabaseLMDB` it calls (`859-964`), as programs over atomic actions: one critical
section on `csSharedState`, one wait or notification, or one call of LMDB. `addTransaction` is one
action: its loop changes nothing while it waits for a resize, so the action is not enabled before
the state is one in which the loop ends.
-/

namespace Blacklink.HashDb

open Blacklink.Base Blacklink.Hash

/-- `sharedState`. -/
inductive SharedState where
  | normal
  | shutdown
  | resize
  | wantResize
  deriving DecidableEq

/-- `MDB_MAP_FULL`. -/
def mdbMapFull : Int := -30792

/-- `MDB_NOTFOUND`. -/
def mdbNotFound : Int := -30798

/-- What a write transaction does with a key: `mdb_put` of a value or `mdb_del`. -/
inductive Change where
  | put (val : Bytes)
  | del
  deriving DecidableEq

/-- The actions of the programs. -/
inductive Action where
  /-- `addTransaction`. -/
  | addTransaction
  /-- The critical section of `releaseTransaction`: `sharedState` and the new `numTxn`. -/
  | releaseTransaction
  /-- `txnRead != nullptr`. -/
  | hasTxnRead
  /-- `mdb_txn_begin` with `MDB_RDONLY`. -/
  | beginRead
  /-- `mdb_txn_renew(txnRead)`. -/
  | renewRead
  /-- `mdb_txn_abort(txnRead)` and `txnRead = nullptr`. -/
  | abortRead
  /-- `mdb_txn_reset(txnRead)`. -/
  | resetRead
  /-- `mdb_txn_begin` for writing. -/
  | beginWrite
  /-- `mdb_txn_abort(txnWrite)`. -/
  | abortWrite
  /-- `mdb_dbi_open` in the read transaction, or in the write transaction. -/
  | dbiOpen (write : Bool)
  /-- `mdb_get`: the error or the value. -/
  | get (key : TTHValue)
  /-- `mdb_put` or `mdb_del`. -/
  | change (key : TTHValue) (change : Change)
  /-- `mdb_txn_commit(txnWrite)`. -/
  | commit
  /-- `buf.resize` and the stores in `buf`; gives the contents of `buf`. -/
  | fillBuf (bufSize : Nat) (data : Bytes)
  /-- `mdb_cursor_open`. -/
  | cursorOpen
  /-- The loop over `mdb_cursor_get` up to the first error: the keys and values seen. -/
  | cursorWalk
  /-- `mdb_env_stat`: the error, or the numbers of entries and of pages. -/
  | envStat
  /-- `mdb_env_info`: the error, or `me_mapsize`. -/
  | envInfo
  /-- `mdb_env_set_mapsize`. -/
  | setMapsize (size : Nat)
  /-- The critical section of `HashDatabaseLMDB::resizeMap`: `sharedState` before and after it. -/
  | enterResize
  /-- `mayResize.wait()`. -/
  | waitMayResize
  /-- The critical section of `waitMayResize`: its result. -/
  | startResize
  /-- `mayResize.notify()`. -/
  | notifyMayResize
  /-- `resizeComplete.wait()`. -/
  | waitResizeComplete
  /-- The critical section of `waitResizeComplete`: its result. -/
  | notShutdown
  /-- `getSharedState`. -/
  | getSharedState
  /-- The critical section of `completeResize`. -/
  | completeResize
  /-- `resizeComplete.notify()`. -/
  | notifyResizeComplete

/-- What an action gives. -/
abbrev Action.Response : Action → Type
  | addTransaction => Bool
  | releaseTransaction => SharedState × Int
  | hasTxnRead => Bool
  | beginRead => Int
  | renewRead => Int
  | abortRead => Unit
  | resetRead => Unit
  | beginWrite => Int
  | abortWrite => Unit
  | dbiOpen _ => Int
  | get _ => Except Int Bytes
  | change _ _ => Int
  | commit => Int
  | fillBuf _ _ => Bytes
  | cursorOpen => Int
  | cursorWalk => List (Bytes × Bytes)
  | envStat => Except Int (Nat × Nat)
  | envInfo => Except Int Nat
  | setMapsize _ => Int
  | enterResize => SharedState × SharedState
  | waitMayResize => Unit
  | startResize => Bool
  | notifyMayResize => Unit
  | waitResizeComplete => Unit
  | notShutdown => Bool
  | getSharedState => SharedState
  | completeResize => Unit
  | notifyResizeComplete => Unit

/-- Code of a connection. -/
abbrev Code := Prog Action Action.Response

/-- One action. -/
def call (a : Action) : Code a.Response := Prog.perform a

/-- The rule for one action. -/
theorem meets_call {γ : Type} {C : Contract γ Action Action.Response} {g : γ} {a : Action}
    {post : γ → a.Response → Prop} (hneed : C.need g a)
    (hpost : ∀ r, C.may g a r → post (C.next g a r) r) : Meets C post g (call a) :=
  meets_perform.mpr ⟨hneed, hpost⟩

/-- The rule for an action that is followed by more. -/
theorem meets_call_bind {γ : Type} {C : Contract γ Action Action.Response} {g : γ} {a : Action}
    {α : Type} {f : a.Response → Code α} {post : γ → α → Prop} (hneed : C.need g a)
    (hf : ∀ r, C.may g a r → Meets C post (C.next g a r) (f r)) :
    Meets C post g (call a >>= f) :=
  meets_perform_bind hneed hf

/-! ### Transactions -/

/-- `HashDatabaseLMDB::releaseTransaction`. -/
def releaseTransaction : Code Unit := do
  let r ← call .releaseTransaction
  if r.1 = .wantResize then
    call .abortRead
    if r.2 = 0 then call .notifyMayResize else pure ()
  else pure ()

/-- The end of `createReadTxn`, once the transaction is begun or renewed. -/
def openReadDbi : Code Bool := do
  let error ← call (.dbiOpen false)
  if error ≠ 0 then
    releaseTransaction
    pure false
  else pure true

/-- `createReadTxn`. -/
def createReadTxn : Code Bool := do
  if (← call .addTransaction) = false then pure false
  else if (← call .hasTxnRead) = false then
    let error ← call .beginRead
    if error ≠ 0 then
      releaseTransaction
      pure false
    else openReadDbi
  else
    let error ← call .renewRead
    if error ≠ 0 then
      call .abortRead
      releaseTransaction
      pure false
    else openReadDbi

/-- `completeReadTxn`. -/
def completeReadTxn : Code Unit := do
  call .resetRead
  releaseTransaction

/-- `createWriteTxn`. -/
def createWriteTxn : Code Bool := do
  if (← call .addTransaction) = false then pure false
  else
    let error ← call .beginWrite
    if error ≠ 0 then
      releaseTransaction
      pure false
    else
      let error ← call (.dbiOpen true)
      if error ≠ 0 then
        releaseTransaction
        pure false
      else pure true

/-- `abortWriteTxn`. -/
def abortWriteTxn : Code Unit := do
  call .abortWrite
  releaseTransaction

/-! ### Resizing -/

/-- `HashDatabaseLMDB::waitResizeComplete`. -/
def waitResizeComplete : Code Bool := do
  call .waitResizeComplete
  call .notShutdown

/-- `HashDatabaseLMDB::waitMayResize`. -/
def waitMayResize : Code Bool := do
  call .waitMayResize
  call .startResize

/-- `HashDatabaseLMDB::resizeMap`. -/
def requestResize : Code Bool := do
  let r ← call .enterResize
  if r.1 = SharedState.resize ∨ r.1 = .wantResize then waitResizeComplete
  else if r.2 = .wantResize then waitMayResize
  else pure true

/-- `HashDatabaseLMDB::completeResize`. -/
def completeResize : Code Unit := do
  call .completeResize
  call .notifyResizeComplete

/-- `HashDatabaseConnection::resizeMap`. -/
def resizeMap : Code Bool := do
  if (← requestResize) = false then pure false
  else if (← call .getSharedState) = .normal then pure true
  else
    match ← call .envInfo with
    | .error _ =>
      completeResize
      pure false
    | .ok mapsize =>
      let error ← call (.setMapsize (mapsize * 2 % 2 ^ 64))
      completeResize
      pure (error = 0)

/-! ### Writing -/

/-- `writeData` and `deleteData`; `attempts` is how often the loop may still be entered. The two
differ in the call that makes the change. -/
def changeData (key : TTHValue) (change : Change) : Nat → Code Bool
  | 0 => pure false
  | attempts + 1 => do
    let error ← call (.change key change)
    if error = mdbMapFull then
      abortWriteTxn
      if (← resizeMap) = false then pure false
      else if (← createWriteTxn) = false then pure false
      else changeData key change attempts
    else if error ≠ 0 then
      abortWriteTxn
      pure false
    else
      let error ← call .commit
      if error = mdbMapFull then
        releaseTransaction
        if (← resizeMap) = false then pure false
        else if (← createWriteTxn) = false then pure false
        else changeData key change attempts
      else if error ≠ 0 then pure false
      else
        releaseTransaction
        pure true

/-- `writeData`. -/
def writeData (key : TTHValue) (val : Bytes) : Code Bool := changeData key (.put val) 2

/-- `deleteData`. -/
def deleteData (key : TTHValue) : Code Bool := changeData key .del 2

/-! ### Operations -/

/-- `DbInfo`. The two digests are given by the bytes they are taken of. -/
structure DbInfo where
  numPages : Nat
  numKeys : Nat
  mapSize : Int
  totalKeysSize : Int
  totalDataSize : Int
  totalTreesSize : Int
  keysHash : Option Bytes
  dataHash : Option Bytes
  deriving DecidableEq

/-- The flags of `getDBInfo`. -/
structure DbInfoFlags where
  details : Bool
  trees : Bool
  digest : Bool
  mapSize : Bool
  deriving DecidableEq

/-- What an operation gives back: `false`, or `true` and its results. -/
inductive Answer where
  | failed
  | done
  | fileInfo (info : FileInfo)
  | tree (fileSize : Nat) (data : Bytes)
  | dbInfo (info : DbInfo)
  deriving DecidableEq

/-- The result of an operation without results but success. -/
def Answer.ofBool (result : Bool) : Answer := if result then .done else .failed

/-- `getFileInfo`. -/
def getFileInfo (tth : TTHValue) : Code Answer := do
  if (← createReadTxn) = false then pure .failed
  else
    let val ← call (.get tth)
    match recordOf baseItemSize val with
    | none =>
      completeReadTxn
      pure .failed
    | some val =>
      completeReadTxn
      pure (.fileInfo (fileInfoOf val))

/-- `getTigerTree`. -/
def getTigerTree (tth : TTHValue) : Code Answer := do
  if (← createReadTxn) = false then pure .failed
  else
    let val ← call (.get tth)
    match recordOf baseItemSize val with
    | none =>
      completeReadTxn
      pure .failed
    | some val =>
      match tigerTreeOf val with
      | .missing =>
        completeReadTxn
        pure .failed
      | .invalid => pure .failed
      | .found data =>
        completeReadTxn
        pure (.tree (fileSizeOf val) data)

/-- Store what was computed in `buf` and write it. -/
def writeStored (key : TTHValue) (stored : Stored) : Code Answer := do
  let buf ← call (.fillBuf stored.bufSize stored.data)
  let result ← writeData key (List.take stored.outSize buf)
  pure (.ofBool result)

/-- `putFileInfo`. -/
def putFileInfo (tth : TTHValue) (u : FileUpdate) : Code Answer := do
  if (← createWriteTxn) = false then pure .failed
  else
    let val ← call (.get tth)
    match putFileInfoData (recordOf baseItemSize val) u with
    | none =>
      abortWriteTxn
      pure .done
    | some stored => writeStored tth stored

/-- `putTigerTree`. -/
def putTigerTree (tree : MerkleTree TTHValue) : Code Answer := do
  if tree.leaves.length < 2 then pure .failed
  else if (← createWriteTxn) = false then pure .failed
  else
    let val ← call (.get tree.root)
    match putTigerTreeData (recordOf baseItemSize val) tree with
    | none =>
      abortWriteTxn
      pure .done
    | some stored => writeStored tree.root stored

/-- `removeTigerTree`. -/
def removeTigerTree (tth : TTHValue) : Code Answer := do
  if (← createWriteTxn) = false then pure .failed
  else
    let val ← call (.get tth)
    match removeTigerTreeData (recordOf (baseItemSize + tthSize) val) with
    | .nothing =>
      abortWriteTxn
      pure .failed
    | .delete bufSize data =>
      let _ ← call (.fillBuf bufSize data)
      let result ← deleteData tth
      pure (.ofBool result)
    | .store stored => writeStored tth stored

/-- The sums and digests of `getDBInfo` over the entries of the database. -/
def addEntries (flags : DbInfoFlags) (entries : List (Bytes × Bytes)) (info : DbInfo) : DbInfo :=
  { info with
    totalKeysSize := (entries.map (·.1.length)).sum
    totalDataSize := (entries.map (·.2.length)).sum
    totalTreesSize :=
      if flags.trees then
        (entries.map fun e =>
          (((itemsOf e.2).filter (·.type = itemTigerTree)).map (·.data.length)).sum).sum
      else -1
    keysHash := if flags.digest then some (entries.flatMap (·.1)) else none
    dataHash := if flags.digest then some (entries.flatMap (·.2)) else none }

/-- `me_mapsize`, when it is asked for and `mdb_env_info` gives it. -/
def readMapSize (flags : DbInfoFlags) : Code Int := do
  if flags.mapSize then
    match ← call .envInfo with
    | .error _ => pure (-1)
    | .ok mapsize => pure (mapsize : Int)
  else pure (-1)

/-- `HashDatabaseConnection::getDBInfo`. -/
def getDBInfo (flags : DbInfoFlags) : Code Answer := do
  match ← call .envStat with
  | .error _ => pure .failed
  | .ok (numKeys, numPages) =>
    if flags.details = false then
      pure (.dbInfo ⟨numPages, numKeys, -1, -1, -1, -1, none, none⟩)
    else
      let mapSize ← readMapSize flags
      if (← createReadTxn) = false then pure .failed
      else
        let error ← call .cursorOpen
        if error ≠ 0 then pure .failed
        else
          let entries ← call .cursorWalk
          completeReadTxn
          pure (.dbInfo (addEntries flags entries
            ⟨numPages, numKeys, mapSize, -1, -1, -1, none, none⟩))

/-- The operations of a connection. -/
inductive Op where
  | getFileInfo (tth : TTHValue)
  | getTigerTree (tth : TTHValue)
  | putFileInfo (tth : TTHValue) (u : FileUpdate)
  | putTigerTree (tree : MerkleTree TTHValue)
  | removeTigerTree (tth : TTHValue)
  | getDBInfo (flags : DbInfoFlags)

/-- The code of an operation. -/
def Op.code : Op → Code Answer
  | getFileInfo tth => HashDb.getFileInfo tth
  | getTigerTree tth => HashDb.getTigerTree tth
  | putFileInfo tth u => HashDb.putFileInfo tth u
  | putTigerTree tree => HashDb.putTigerTree tree
  | removeTigerTree tth => HashDb.removeTigerTree tth
  | getDBInfo flags => HashDb.getDBInfo flags

/-! ### What an update does -/

/-- An update fails, finds nothing to update, or changes the record. -/
inductive Outcome where
  | fails
  | keeps
  | writes (change : Change)
  deriving DecidableEq

/-- The value that is written from `buf`. -/
def Stored.value (stored : Stored) (buf : Bytes) : Bytes :=
  (HashDb.fillBuf buf stored.bufSize stored.data).take stored.outSize

namespace Op

/-- The key of the record the operation updates. -/
def key : Op → Option TTHValue
  | putFileInfo tth _ => some tth
  | putTigerTree tree => some tree.root
  | removeTigerTree tth => some tth
  | _ => none

/-- What an update does when `mdb_get` gives `val`; `buf` is the buffer of the connection before. -/
def outcome (op : Op) (buf : Bytes) (val : Except Int Bytes) : Outcome :=
  match op with
  | putFileInfo _ u =>
    match putFileInfoData (recordOf baseItemSize val) u with
    | none => .keeps
    | some stored => .writes (.put (stored.value buf))
  | putTigerTree tree =>
    if tree.leaves.length < 2 then .fails
    else
      match putTigerTreeData (recordOf baseItemSize val) tree with
      | none => .keeps
      | some stored => .writes (.put (stored.value buf))
  | removeTigerTree _ =>
    match removeTigerTreeData (recordOf (baseItemSize + tthSize) val) with
    | .nothing => .fails
    | .delete _ _ => .writes .del
    | .store stored => .writes (.put (stored.value buf))
  | _ => .fails

end Op

end Blacklink.HashDb
