import Mathlib.Data.List.Basic
import Blacklink.Base.Run

/-!
# Upload connections and their slots

Model of the slot accounting of `UploadManager` (`client/UploadManager.cpp:390-537, 575-608,
698-917, 999-1016, 1045-1067`) and of the ways an upload connection is torn down
(`UserConnection::failed`, `protocolError`, `onDataLine` and `onFailed` in
`client/UserConnection.cpp:158-220, 745-750`, `ConnectionManager::failed` and `putConnection` in
`client/ConnectionManager.cpp:579-605, 1622-1687`). Connections are numbered as they are made.
What a request finds on the disk, in the share and in the settings is part of the event. The list
of finished uploads waiting for their next chunk is left out: the counters do not depend on it.
-/

namespace Blacklink.Upload

/-- `UserConnection::SlotTypes`. -/
inductive SlotType where
  | noSlot
  | stdSlot
  | resSlot
  | miniSlot
  | pfsSlot
  deriving DecidableEq

/-- The counters `g_running`, `extra` and `extraPartial`. -/
inductive Counter where
  | running
  | extra
  | extraPartial
  deriving DecidableEq

/-- The counter `processSlot` changes for a slot type. -/
def SlotType.counter : SlotType → Option Counter
  | .noSlot => none
  | .stdSlot => some .running
  | .resSlot => some .running
  | .miniSlot => some .extra
  | .pfsSlot => some .extraPartial

/-- The states of an upload connection. `handshake` are the states before `addConnection`. -/
inductive ConnState where
  | handshake
  | get
  | send
  | running
  | unconnected
  | unused
  deriving DecidableEq

/-- `UserConnection` on the upload side. `upload` names the `Upload` it points to. -/
structure UserConnection where
  state : ConnState
  associated : Bool
  slotType : SlotType
  upload : Option Nat
  deriving DecidableEq

/-- It has not been put back. -/
def UserConnection.live (c : UserConnection) : Bool := c.state ≠ .unused

/-- An entry of `uploads`: the `Upload` and the connection it was made for. -/
structure UploadEntry where
  id : Nat
  connection : Nat
  deriving DecidableEq

/-- What `prepareFile` finds out about a request. `available` is that there is a stream to send,
`hasUpload` that the user uploads already. -/
structure Request where
  available : Bool
  isMinislot : Bool
  isPartial : Bool
  supportsMinislots : Bool
  hasReserved : Bool
  isFavGrant : Bool
  isAutoSlot : Bool
  hasFreeSlot : Bool
  hasSlotByIP : Bool
  hasUpload : Bool
  optExtraSlots : Int
  optExtraPartialSlots : Int

/-- `UploadManager` and the connections. -/
structure UploadManager where
  counter : Counter → Int
  uploads : List UploadEntry
  connections : List UserConnection
  nextUpload : Nat

namespace UploadManager

/-- `processSlot`. -/
def processSlot (s : UploadManager) (slotType : SlotType) (delta : Int) : UploadManager :=
  { s with
    counter := fun k => if slotType.counter = some k then s.counter k + delta else s.counter k }

/-- `removeConnectionSlot`. -/
def removeConnectionSlot (s : UploadManager) (conn : UserConnection) :
    UploadManager × UserConnection :=
  (s.processSlot conn.slotType (-1), { conn with slotType := .noSlot })

/-- `removeUpload`: the entry is found by the pointer of the connection `c`. -/
def removeUpload (s : UploadManager) (c : Nat) (upload : Option Nat) : UploadManager :=
  match upload with
  | none => s
  | some u => { s with uploads := s.uploads.erase ⟨u, c⟩ }

/-- The part of `prepareFile` that decides on the slot; `none` when all slots are taken. -/
def chooseSlot (s : UploadManager) (r : Request) (slotType : SlotType) : Option SlotType :=
  let st := if slotType = .resSlot ∧ !r.hasReserved then .noSlot else slotType
  if (st ≠ .stdSlot ∧ st ≠ .resSlot) ∨ r.hasReserved then
    let isLeecher := if r.hasReserved || r.isFavGrant then false else r.hasUpload
    if !(r.hasReserved || r.isFavGrant || r.isAutoSlot || r.hasFreeSlot || r.hasSlotByIP) ||
        isLeecher then
      if r.isMinislot && r.supportsMinislots &&
          (st == .miniSlot || 0 < max (r.optExtraSlots - s.counter .extra) 0) then some .miniSlot
      else if r.isPartial &&
          (st == .pfsSlot || s.counter .extraPartial < r.optExtraPartialSlots) then some .pfsSlot
      else none
    else some (if r.hasReserved then .resSlot else .stdSlot)
  else some st

/-- `prepareFile` for a connection in `STATE_GET`. The last component is its result. -/
def prepareFile (s : UploadManager) (c : Nat) (conn : UserConnection) (r : Request) :
    UploadManager × UserConnection × Bool :=
  if !r.available then (s, conn, false)
  else
    match s.chooseSlot r conn.slotType with
    | none => (s, { conn with upload := none }, false)
    | some slotType =>
      let s' := { s with
        uploads := s.uploads ++ [⟨s.nextUpload, c⟩]
        nextUpload := s.nextUpload + 1 }
      let conn' := { conn with upload := some s.nextUpload }
      if conn.slotType ≠ slotType then
        ((s'.processSlot conn.slotType (-1)).processSlot slotType 1,
          { conn' with slotType := slotType }, true)
      else (s', conn', true)

/-- `processGET` and `processGetBlock` start to send at once, `processGet` waits for `$Send`. -/
def processGet (s : UploadManager) (c : Nat) (conn : UserConnection) (r : Request)
    (waitForSend : Bool) : UploadManager × UserConnection :=
  let p := s.prepareFile c conn r
  if p.2.2 then (p.1, { p.2.1 with state := if waitForSend then .send else .running })
  else (p.1, p.2.1)

/-- `transmitDone`. The pointer of the connection is kept. -/
def transmitDone (s : UploadManager) (c : Nat) (conn : UserConnection) :
    UploadManager × UserConnection :=
  (s.removeUpload c conn.upload, { conn with state := .get })

/-- `UploadManager::failed`. -/
def uploadFailed (s : UploadManager) (c : Nat) (conn : UserConnection) :
    UploadManager × UserConnection :=
  (s.removeUpload c conn.upload).removeConnectionSlot conn

/-- `ConnectionManager::putConnection`, the end of `ConnectionManager::failed`. -/
def putConnection (conn : UserConnection) : UserConnection :=
  { conn with state := .unused, upload := none }

/-- `UserConnection::onFailed` and `failed`. -/
def onFailed (s : UploadManager) (c : Nat) (conn : UserConnection) :
    UploadManager × UserConnection :=
  if conn.state = .unused then (s, conn)
  else
    let conn' := { conn with state := .unconnected }
    let p := if conn'.associated then s.uploadFailed c conn' else (s, conn')
    (p.1, putConnection p.2)

/-- `UploadManager::addConnection`, called by `addUploadConnection`. -/
def addConnection (s : UploadManager) (conn : UserConnection) (ipBlocked : Bool) :
    UploadManager × UserConnection :=
  let conn' := { conn with associated := true }
  if ipBlocked then s.removeConnectionSlot conn' else (s, { conn' with state := .get })

/-- What happens to a connection. `protocolError` is a fatal `STA` or an `$Error` other than file
not available, `invalidLine` a line that is no command, `close` a direct `putConnection`. -/
inductive ConnEvent where
  | addConnection (ipBlocked : Bool)
  | get (r : Request) (waitForSend : Bool)
  | send
  | transmitDone
  | socketError
  | protocolError
  | invalidLine
  | close

/-- A new connection, or an event on one. -/
inductive Event where
  | connect
  | on (c : Nat) (e : ConnEvent)

/-- An event on a connection; commands that its state does not expect are ignored. -/
def onEvent (s : UploadManager) (c : Nat) (conn : UserConnection) :
    ConnEvent → UploadManager × UserConnection
  | .addConnection ipBlocked =>
    if conn.state = .handshake ∧ !conn.associated then s.addConnection conn ipBlocked
    else (s, conn)
  | .get r waitForSend =>
    if conn.state = .get then s.processGet c conn r waitForSend else (s, conn)
  | .send => if conn.state = .send then (s, { conn with state := .running }) else (s, conn)
  | .transmitDone => if conn.state = .running then s.transmitDone c conn else (s, conn)
  | .socketError => s.onFailed c conn
  -- for an upload connection `protocolError` calls `ConnectionManager::failed` only
  | .protocolError => (s, putConnection conn)
  | .invalidLine => (s, putConnection conn)
  | .close => (s, putConnection conn)

/-- One event. -/
def step (s : UploadManager) : Event → UploadManager
  | .connect => { s with connections := s.connections ++ [⟨.handshake, false, .noSlot, none⟩] }
  | .on c e =>
    match s.connections[c]? with
    | none => s
    | some conn =>
      let p := s.onEvent c conn e
      { p.1 with connections := p.1.connections.set c p.2 }

/-- No connection yet. -/
def initial : UploadManager := ⟨fun _ => 0, [], [], 0⟩

end UploadManager
end Blacklink.Upload
