import Mathlib.Data.List.Basic
import Blacklink.Base.Run

/-!
# Download connections

Model of the life of a `Download` between `QueueManager::getDownload` and `putDownload`: the
states of a download connection and the paths of `DownloadManager` and `UserConnection` that give
the `Download` back (`client/DownloadManager.cpp:161-260, 340-518, 535-616`,
`client/UserConnection.cpp:158-172, 190-220, 310-345, 395-402, 514-545, 745-750`,
`client/ConnectionManager.cpp:488-514, 579-605, 893-905, 1259-1302, 1622-1687`). Which item
`getDownload` finds, what a peer sends and what the streams do with it is part of the event. A
call of `disconnect` only asks the socket to close: the connection goes on until `onFailed`, so
it leaves no trace in the state. Downloads are numbered as they are handed out.
-/

namespace Blacklink.Transfer

/-- The states of a download connection. `handshake` is a connection that was added but cannot be
used, `unconnected` one whose socket has failed. -/
inductive ConnState where
  | handshake
  | snd
  | running
  | idle
  | tryAgain
  | unconnected
  | unused
  deriving DecidableEq

/-- `UserConnection` on the download side. The pointer `download` is only cleared by
`putConnection`; in `dataMode` the socket does not look for lines. -/
structure DownloadConnection where
  user : Nat
  state : ConnState
  dataMode : Bool
  download : Option Nat
  deriving DecidableEq

/-- `QueueItem::RunningSegment` with its item: what `removeDownload(user)` looks at. -/
structure RunningSegment where
  user : Nat
  item : Nat
  download : Nat
  deriving DecidableEq

/-- The connections, `DownloadManager::downloads`, the running segments of all queue items and the
calls of `putDownload`. `given` is the user and the item of a download. -/
structure Transfers where
  connections : List DownloadConnection
  next : Nat
  given : Nat → Nat × Nat
  downloads : List Nat
  running : List RunningSegment
  puts : List Nat

/-- How the data of a transfer ends. `itemDone` is that `putDownload` removes the item from the
queue, `next` the item of the next download. -/
inductive EndResult where
  | badTree (itemDone : Bool) (next : Option Nat)
  | flushFailed (itemDone : Bool)
  | finished (itemDone userCheck : Bool) (next : Option Nat)

/-- What becomes of a `SND`: it is for something else, its size is wrong or the file cannot be
opened, data follows, or there is none. -/
inductive SndResult where
  | mismatch
  | rejected (itemDone : Bool)
  | started
  | empty (r : EndResult)

/-- What becomes of a chunk of data: more follows, a stream throws, or the stream has ended. -/
inductive DataResult where
  | more
  | thrown (itemDone : Bool)
  | ended (r : EndResult)

namespace Transfers

/-- `DownloadManager::removeDownload` and `QueueManager::putDownload`. Of an item that stays in the
queue the first running segment of the user is removed. -/
def putDownload (s : Transfers) (d : Nat) (itemDone : Bool) : Transfers :=
  { s with
    downloads := s.downloads.filter (· ≠ d)
    puts := s.puts ++ [d]
    running :=
      if itemDone then s.running.filter (·.item ≠ (s.given d).2)
      else s.running.eraseP fun r => r.user == (s.given d).1 && r.item == (s.given d).2 }

/-- `checkDownloads`. -/
def checkDownloads (s : Transfers) (conn : DownloadConnection) (next : Option Nat) :
    Transfers × DownloadConnection :=
  match next with
  | none => (s, { conn with state := .idle })
  | some item =>
    ({ s with
        next := s.next + 1
        given := fun d => if d = s.next then (conn.user, item) else s.given d
        downloads := s.downloads ++ [s.next]
        running := s.running ++ [⟨conn.user, item, s.next⟩] },
      { conn with state := .snd, download := some s.next })

/-- `failDownload`. -/
def failDownload (s : Transfers) (conn : DownloadConnection) (itemDone : Bool) : Transfers :=
  match conn.download with
  | none => s
  | some d => s.putDownload d itemDone

/-- `endData`. -/
def endData (s : Transfers) (conn : DownloadConnection) :
    EndResult → Transfers × DownloadConnection
  | .badTree itemDone next => (s.failDownload conn itemDone).checkDownloads conn next
  | .flushFailed itemDone => (s.failDownload conn itemDone, conn)
  | .finished itemDone userCheck next =>
    let s' := s.failDownload conn itemDone
    if userCheck then (s', conn) else s'.checkDownloads conn next

/-- `processSND` and `startData`. -/
def processSND (s : Transfers) (conn : DownloadConnection) :
    SndResult → Transfers × DownloadConnection
  | .mismatch => (s, conn)
  | .rejected itemDone => (s.failDownload conn itemDone, conn)
  | .started => (s, { conn with state := .running, dataMode := true })
  | .empty r => s.endData { conn with state := .running } r

/-- `onData`. Without a stream there is nothing to write to. -/
def onData (s : Transfers) (conn : DownloadConnection) :
    DataResult → Transfers × DownloadConnection
  | .more => (s, conn)
  | .thrown itemDone => (s.failDownload conn itemDone, conn)
  | .ended r =>
    let p := s.endData conn r
    (p.1, { p.2 with dataMode := false })

/-- `fileNotAvailable`. It expects that there is a download. -/
def fileNotAvailable (s : Transfers) (conn : DownloadConnection) (itemDone : Bool)
    (next : Option Nat) : Transfers × DownloadConnection :=
  match conn.download with
  | none => (s, conn)
  | some d => (s.putDownload d itemDone).checkDownloads conn next

/-- `noSlots`. -/
def noSlots (s : Transfers) (conn : DownloadConnection) (itemDone : Bool) :
    Transfers × DownloadConnection :=
  (s.failDownload conn itemDone, { conn with state := .tryAgain })

/-- `ConnectionManager::putConnection`. -/
def putConnection (conn : DownloadConnection) : DownloadConnection :=
  { conn with state := .unused, dataMode := false, download := none }

/-- What happens to a connection. The two ways a peer says that a file is not available or that
there are no slots differ in what they check; `protocolError` is a fatal status, `invalidLine` a
line that is no command, `close` a direct call of `putConnection`. -/
inductive ConnEvent where
  | checkDownloads (next : Option Nat)
  | snd (r : SndResult)
  | data (r : DataResult)
  | staFileNotAvailable (itemDone : Bool) (next : Option Nat)
  | staSlotsFull (itemDone : Bool)
  | errorFileNotAvailable (userGetIp itemDone : Bool) (next : Option Nat)
  | maxedOut (itemDone : Bool)
  | protocolError (itemDone : Bool)
  | invalidLine
  | close
  | socketError (itemDone : Bool)

/-- An event on a connection. -/
def onEvent (s : Transfers) (conn : DownloadConnection) :
    ConnEvent → Transfers × DownloadConnection
  | .checkDownloads next =>
    if conn.state = .idle ∨ conn.state = .tryAgain then s.checkDownloads conn next else (s, conn)
  | .snd r => if !conn.dataMode ∧ conn.state = .snd then s.processSND conn r else (s, conn)
  | .data r =>
    if conn.dataMode ∧ ∃ d ∈ conn.download, d ∈ s.downloads then s.onData conn r else (s, conn)
  | .staFileNotAvailable itemDone next =>
    if !conn.dataMode then s.fileNotAvailable conn itemDone next else (s, conn)
  | .staSlotsFull itemDone => if !conn.dataMode then s.noSlots conn itemDone else (s, conn)
  | .errorFileNotAvailable userGetIp itemDone next =>
    -- in another state the connection is closed
    if !conn.dataMode ∧ conn.state = .snd then
      if userGetIp then (s.failDownload conn itemDone, conn)
      else s.fileNotAvailable conn itemDone next
    else (s, conn)
  | .maxedOut itemDone =>
    if !conn.dataMode ∧ conn.state = .snd then s.noSlots conn itemDone else (s, conn)
  | .protocolError itemDone =>
    if !conn.dataMode then (s.failDownload conn itemDone, putConnection conn) else (s, conn)
  | .invalidLine => if !conn.dataMode then (s, putConnection conn) else (s, conn)
  | .close => (s, putConnection conn)
  | .socketError itemDone =>
    if conn.state = .unused then (s, conn)
    else (s.failDownload conn itemDone, putConnection conn)

/-- A connection is added, something happens to one, or a queue item or a source of it is
removed. -/
inductive Event where
  | addConnection (user : Nat) (usable : Bool) (next : Option Nat)
  | on (c : Nat) (e : ConnEvent)
  | removeItem (item : Nat)
  | removeSource (user item : Nat)

/-- One event. `addDownloadConnection` turns a second connection of a user away. -/
def step (s : Transfers) : Event → Transfers
  | .addConnection user usable next =>
    if ∀ conn ∈ s.connections, conn.user = user → conn.state = .unused then
      let conn : DownloadConnection := ⟨user, .handshake, false, none⟩
      let p := if usable then s.checkDownloads conn next else (s, conn)
      { p.1 with connections := p.1.connections ++ [p.2] }
    else s
  | .on c e =>
    match s.connections[c]? with
    | none => s
    | some conn =>
      let p := s.onEvent conn e
      { p.1 with connections := p.1.connections.set c p.2 }
  | .removeItem item => { s with running := s.running.filter (·.item ≠ item) }
  | .removeSource user item =>
    { s with running := s.running.eraseP fun r => r.user == user && r.item == item }

/-- No connection yet. -/
def initial : Transfers := ⟨[], 0, fun _ => (0, 0), [], [], []⟩

end Transfers
end Blacklink.Transfer
