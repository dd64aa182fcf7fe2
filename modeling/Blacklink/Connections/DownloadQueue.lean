import Mathlib.Algebra.Group.Nat.Defs
import Mathlib.Data.List.Forall2
import Mathlib.Data.List.Nodup
import Mathlib.Logic.Function.Basic
import Blacklink.Base.Run

/-!
# The queue of download connections

Model of the `downloads` of `ConnectionManager` (`client/ConnectionManager.cpp:485-535, 720-822,
1259-1302, 1631-1687`): an item for each user to download from, and the connections that are made
for them. Every critical section on `csDownloads` is one step, and so is what a thread does after
it. The timer collects the items to remove in one critical section and erases each of them in
another one, and an item that has become active in between is erased too. Besides, a connection
that calls `addDownloadConnection` again after it was associated is put while its item stays
active: `DownloadManager::addConnection` may leave the connection in the state it was in
(`client/DownloadManager.cpp:161-177`).
-/

namespace Blacklink.Connections

open Blacklink.Base

/-- `ConnectionQueueItem::State`. -/
inductive CqiState where
  | connecting
  | waiting
  | noDownloadSlots
  | active
  deriving DecidableEq

/-- `ConnectionQueueItem` for a download; `id` stands for its address. -/
structure ConnectionQueueItem (User : Type) where
  id : Nat
  user : User
  token : String
  lastAttempt : Nat
  errors : Int
  state : CqiState

/-- Where the thread of a connection is: at none of the functions below, after the critical section
of `addDownloadConnection` with `isActive`, or after the one of `failed`. -/
inductive ConnPhase where
  | idle
  | adding (isActive : Bool)
  | failing
  deriving DecidableEq

/-- What is used of a `UserConnection` whose user is known. The fields `phase` and `failed` say how
far its thread is; `unused` is `STATE_UNUSED`. -/
structure DownloadConn (User : Type) where
  user : User
  download : Bool
  associated : Bool
  queueToken : String
  unused : Bool
  phase : ConnPhase
  failed : Bool

/-- The state: `downloads` and `userConnections`; `removed` are the items the timer has collected
and not erased yet, and `nextId` is an address that was not used. -/
structure DownloadQueue (User : Type) where
  downloads : List (ConnectionQueueItem User)
  conns : Nat → Option (DownloadConn User)
  removed : List Nat
  nextId : Nat

/-- What the timer finds: the tick, `DOWNCONN_PER_SEC` (`UINT_MAX` for 0), who is online, for whom
`hasDownload` gives `PAUSED`, and for which item `isStartDownload` holds. -/
structure Tick (User : Type) where
  tick : Nat
  maxAttempts : Nat
  online : User → Bool
  paused : User → Bool
  startDownload : Nat → Bool

/-- `RETRY_CONNECTION_DELAY`. -/
def retryConnectionDelay : Nat := 10

/-- `RECONNECT_AFTER_ERROR_DELAY`. -/
def reconnectAfterErrorDelay : Nat := 30

/-- `CONNECTION_TIMEOUT`. -/
def connectionTimeout : Nat := 50

/-- `getDelayFactor`. -/
def getDelayFactor (errorCount : Int) : Nat :=
  if errorCount ≤ 1 then 1
  else if 4 ≤ errorCount then 8
  else 2 ^ (errorCount - 1).toNat

namespace DownloadQueue

variable {User : Type} [DecidableEq User]

/-- An item of the timer loop that is neither active nor removed nor held back by a protocol
error, with the number of attempts. -/
def tickState (t : Tick User) (attempts : Nat) (cqi : ConnectionQueueItem User) :
    ConnectionQueueItem User × Nat :=
  match cqi.state with
  | .waiting =>
    if cqi.lastAttempt = 0 ∨ (attempts < t.maxAttempts ∧
        cqi.lastAttempt + retryConnectionDelay * 1000 * getDelayFactor cqi.errors < t.tick) then
      if t.startDownload cqi.id then
        ({ cqi with lastAttempt := t.tick, state := .connecting }, attempts + 1)
      else ({ cqi with lastAttempt := t.tick, state := .noDownloadSlots }, attempts)
    else (cqi, attempts)
  | .noDownloadSlots =>
    if t.startDownload cqi.id then
      ({ cqi with lastAttempt := t.tick, state := .waiting }, attempts)
    else (cqi, attempts)
  | .connecting =>
    if cqi.lastAttempt + connectionTimeout * 1000 < t.tick then
      ({ cqi with errors := cqi.errors + 1, lastAttempt := t.tick, state := .waiting }, attempts)
    else (cqi, attempts)
  | .active => (cqi, attempts)

/-- The body of the timer loop: the item, the number of attempts, and whether it is to be
removed. -/
def tickItem (t : Tick User) (attempts : Nat) (cqi : ConnectionQueueItem User) :
    ConnectionQueueItem User × Nat × Bool :=
  if cqi.state = .active then (cqi, attempts, false)
  else if t.online cqi.user = false then (cqi, attempts, true)
  else if t.paused cqi.user then (cqi, attempts, true)
  else if cqi.errors = -1 ∧ cqi.lastAttempt ≠ 0 then
    if cqi.lastAttempt + reconnectAfterErrorDelay * 1000 < t.tick then
      let r := tickState t attempts { cqi with errors := 0 }
      (r.1, r.2, false)
    else (cqi, attempts, false)
  else
    let r := tickState t attempts cqi
    (r.1, r.2, false)

/-- The timer loop over `downloads`: the items after it, and those to be removed. -/
def tickLoop (t : Tick User) :
    Nat → List (ConnectionQueueItem User) → List (ConnectionQueueItem User) × List Nat
  | _, [] => ([], [])
  | attempts, cqi :: rest =>
    let r := tickItem t attempts cqi
    let s := tickLoop t r.2.1 rest
    (r.1 :: s.1, if r.2.2 then cqi.id :: s.2 else s.2)

/-- The item with the address `id` is changed. -/
def modifyItem (id : Nat) (f : ConnectionQueueItem User → ConnectionQueueItem User)
    (l : List (ConnectionQueueItem User)) : List (ConnectionQueueItem User) :=
  l.map fun cqi => if cqi.id = id then f cqi else cqi

/-- The connection becomes `conn`. -/
def setConn (s : DownloadQueue User) (id : Nat) (conn : DownloadConn User) : DownloadQueue User :=
  { s with conns := Function.update s.conns id (some conn) }

/-- `find(downloads.begin(), downloads.end(), user)`. -/
def findUser (s : DownloadQueue User) (user : User) : Option (ConnectionQueueItem User) :=
  s.downloads.find? (·.user = user)

/-- The critical section of `getDownloadConnection`; `token` is what `makeToken` gives. -/
def getDownloadConnection (s : DownloadQueue User) (user : User) (token : String) :
    DownloadQueue User :=
  match s.findUser user with
  | some _ => s
  | none =>
    { s with
      downloads := ⟨s.nextId, user, token, 0, 0, .waiting⟩ :: s.downloads
      nextId := s.nextId + 1 }

/-- The first critical section of `on(Second)`; the timer has erased what it collected before. -/
def tickCollect (s : DownloadQueue User) (t : Tick User) : DownloadQueue User :=
  match s.removed with
  | _ :: _ => s
  | [] =>
    let r := tickLoop t 0 s.downloads
    { s with downloads := r.1, removed := r.2 }

/-- The critical section of `on(Second)` that erases one item: `putCQI_L`. -/
def tickErase (s : DownloadQueue User) : DownloadQueue User :=
  match s.removed with
  | [] => s
  | id :: rest => { s with downloads := s.downloads.filter (·.id ≠ id), removed := rest }

/-- A connection of a user comes to its end of the handshake. -/
def newConnection (s : DownloadQueue User) (id : Nat) (user : User) (download : Bool) :
    DownloadQueue User :=
  match s.conns id with
  | some _ => s
  | none => s.setConn id ⟨user, download, false, "", false, .idle, false⟩

/-- The critical section of `addDownloadConnection`. -/
def addDownloadConnection (s : DownloadQueue User) (id : Nat) : DownloadQueue User :=
  match s.conns id with
  | none => s
  | some conn =>
    if conn.download = false ∨ conn.unused = true ∨ conn.phase ≠ .idle then s
    else
      match s.findUser conn.user with
      | none => s.setConn id { conn with phase := .adding false }
      | some cqi =>
        let conn := { conn with queueToken := cqi.token }
        if cqi.state = .waiting ∨ cqi.state = .connecting then
          { s.setConn id { conn with associated := true, phase := .adding true } with
            downloads := modifyItem cqi.id (fun cqi => { cqi with state := .active }) s.downloads }
        else s.setConn id { conn with phase := .adding false }

/-- The critical section of `failed`. The thread of a connection does not get here after
`putConnection`: its socket is stopped, and `onFailed` looks at `STATE_UNUSED`. -/
def failed (s : DownloadQueue User) (id : Nat) (protocolError : Bool) (tick : Nat) :
    DownloadQueue User :=
  match s.conns id with
  | none => s
  | some conn =>
    if conn.unused = true ∨ conn.phase ≠ .idle then s
    else
      let s' := s.setConn id { conn with failed := true, phase := .failing }
      if conn.associated = true ∧ conn.download = true then
        match s.findUser conn.user with
        | none => s'
        | some cqi =>
          { s' with
            downloads := modifyItem cqi.id
              (fun cqi =>
                { cqi with
                  state := .waiting
                  lastAttempt := tick
                  errors := if protocolError then -1 else cqi.errors + 1 })
              s.downloads }
      else s'

/-- The rest of `addDownloadConnection` and of `failed`. `findConnection` finds the connection: only
unused ones are taken out of `userConnections`. -/
def finish (s : DownloadQueue User) (id : Nat) : DownloadQueue User :=
  match s.conns id with
  | none => s
  | some conn =>
    match conn.phase with
    | .idle => s
    | .adding true => s.setConn id { conn with phase := .idle }
    | .adding false => s.setConn id { conn with phase := .idle, unused := true }
    | .failing => s.setConn id { conn with phase := .idle, unused := true }

/-- `checkConnections` and `removeUnusedConnections` for one connection. -/
def removeUnused (s : DownloadQueue User) (id : Nat) : DownloadQueue User :=
  match s.conns id with
  | none => s
  | some conn =>
    if conn.unused then { s with conns := Function.update s.conns id none } else s

end DownloadQueue

/-- The steps of the threads. -/
inductive DownloadEvent (User : Type) where
  | getDownloadConnection (user : User) (token : String)
  | tickCollect (t : Tick User)
  | tickErase
  | newConnection (id : Nat) (user : User) (download : Bool)
  | addDownloadConnection (id : Nat)
  | failed (id : Nat) (protocolError : Bool) (tick : Nat)
  | finish (id : Nat)
  | removeUnused (id : Nat)

namespace DownloadQueue

variable {User : Type} [DecidableEq User]

/-- No item and no connection. -/
def init (User : Type) : DownloadQueue User := ⟨[], fun _ => none, [], 0⟩

/-- One step. -/
def step (s : DownloadQueue User) : DownloadEvent User → DownloadQueue User
  | .getDownloadConnection user token => s.getDownloadConnection user token
  | .tickCollect t => s.tickCollect t
  | .tickErase => s.tickErase
  | .newConnection id user download => s.newConnection id user download
  | .addDownloadConnection id => s.addDownloadConnection id
  | .failed id protocolError tick => s.failed id protocolError tick
  | .finish id => s.finish id
  | .removeUnused id => s.removeUnused id

/-- A live connection of the user that is flagged `DOWNLOAD` and `ASSOCIATED` and has not failed. -/
def Serves (s : DownloadQueue User) (id : Nat) (user : User) : Prop :=
  ∃ conn, s.conns id = some conn ∧ conn.user = user ∧ conn.download = true ∧
    conn.associated = true ∧ conn.failed = false ∧ conn.unused = false

/-- An item is active when its user is served by one connection, and no user is served by two. -/
structure Paired (s : DownloadQueue User) : Prop where
  active : ∀ cqi ∈ s.downloads, cqi.state = .active ↔ ∃ id, s.Serves id cqi.user
  single : ∀ user id id', s.Serves id user → s.Serves id' user → id = id'

/-- No active item is removed. -/
def KeepsActive (s s' : DownloadQueue User) : Prop :=
  ∀ cqi ∈ s.downloads, cqi.state = .active → ∃ cqi' ∈ s'.downloads, cqi'.id = cqi.id

/-- The timer does not erase an item that has become active, and a connection that is associated
does not call `addDownloadConnection` again. -/
def Condition (s : DownloadQueue User) : DownloadEvent User → Prop
  | .tickErase => ∀ id rest, s.removed = id :: rest → ∀ cqi ∈ s.downloads, cqi.id = id →
      cqi.state ≠ .active
  | .addDownloadConnection id => ∀ conn, s.conns id = some conn → conn.unused = false →
      conn.phase = .idle → conn.associated = false
  | _ => True

/-! ### Items -/

/-- The item of the user is active. -/
def ActiveUser (l : List (ConnectionQueueItem User)) (user : User) : Prop :=
  ∃ cqi ∈ l, cqi.user = user ∧ cqi.state = .active

/-- The same items, of which the same are active. -/
structure SameItems (l l' : List (ConnectionQueueItem User)) : Prop where
  ids : l'.map (·.id) = l.map (·.id)
  users : l'.map (·.user) = l.map (·.user)
  active : ∀ user, ActiveUser l' user ↔ ActiveUser l user

omit [DecidableEq User] in
private theorem tickState_spec (t : Tick User) (attempts : Nat) (cqi : ConnectionQueueItem User)
    (h : cqi.state ≠ .active) :
    (tickState t attempts cqi).1.id = cqi.id ∧ (tickState t attempts cqi).1.user = cqi.user ∧
      (tickState t attempts cqi).1.state ≠ .active := by
  rw [tickState]
  split
  · split_ifs <;> simp [h]
  · split_ifs <;> simp [h]
  · split_ifs <;> simp [h]
  · next hactive => exact absurd hactive h

omit [DecidableEq User] in
private theorem tickItem_spec (t : Tick User) (attempts : Nat) (cqi : ConnectionQueueItem User) :
    (tickItem t attempts cqi).1.id = cqi.id ∧ (tickItem t attempts cqi).1.user = cqi.user ∧
      ((tickItem t attempts cqi).1.state = .active ↔ cqi.state = .active) := by
  rw [tickItem]
  split_ifs with hactive honline hpaused herror hlate
  · exact ⟨rfl, rfl, Iff.rfl⟩
  · exact ⟨rfl, rfl, Iff.rfl⟩
  · exact ⟨rfl, rfl, Iff.rfl⟩
  · obtain ⟨hid, huser, hstate⟩ := tickState_spec t attempts { cqi with errors := 0 } hactive
    exact ⟨hid, huser, fun hc => absurd hc hstate, fun hc => absurd hc hactive⟩
  · exact ⟨rfl, rfl, Iff.rfl⟩
  · obtain ⟨hid, huser, hstate⟩ := tickState_spec t attempts _ hactive
    exact ⟨hid, huser, fun hc => absurd hc hstate, fun hc => absurd hc hactive⟩

omit [DecidableEq User] in
private theorem activeUser_cons {cqi : ConnectionQueueItem User}
    {l : List (ConnectionQueueItem User)} {user : User} :
    ActiveUser (cqi :: l) user ↔ (cqi.user = user ∧ cqi.state = .active) ∨ ActiveUser l user := by
  simp [ActiveUser]

omit [DecidableEq User] in
/-- The timer loop activates no item and lets no item be active no more. -/
private theorem sameItems_tickLoop (t : Tick User) (attempts : Nat)
    (l : List (ConnectionQueueItem User)) : SameItems l (tickLoop t attempts l).1 := by
  induction l generalizing attempts with
  | nil => exact ⟨rfl, rfl, fun _ => Iff.rfl⟩
  | cons cqi l ih =>
    obtain ⟨hid, huser, hactive⟩ := tickItem_spec t attempts cqi
    have hrest := ih (tickItem t attempts cqi).2.1
    refine ⟨?_, ?_, ?_⟩
    · simp only [tickLoop, List.map_cons, hid, hrest.ids]
    · simp only [tickLoop, List.map_cons, huser, hrest.users]
    · intro user
      simp only [tickLoop]
      rw [activeUser_cons, activeUser_cons, huser, hactive, hrest.active]

omit [DecidableEq User] in
private theorem map_modifyItem {β : Type} (g : ConnectionQueueItem User → β) (id : Nat)
    (f : ConnectionQueueItem User → ConnectionQueueItem User) (hf : ∀ cqi, g (f cqi) = g cqi)
    (l : List (ConnectionQueueItem User)) : (modifyItem id f l).map g = l.map g := by
  rw [modifyItem, List.map_map]
  apply List.map_congr_left
  intro cqi _
  simp only [Function.comp_apply]
  split
  · exact hf cqi
  · rfl

omit [DecidableEq User] in
/-- Two items of the list with one user are the same. -/
private theorem eq_of_user {l : List (ConnectionQueueItem User)} (h : (l.map (·.user)).Nodup)
    {a b : ConnectionQueueItem User} (ha : a ∈ l) (hb : b ∈ l) (hab : a.user = b.user) : a = b :=
  List.inj_on_of_nodup_map h ha hb hab

omit [DecidableEq User] in
/-- Which users have an active item after the state of one item has changed. -/
private theorem activeUser_modifyItem {l : List (ConnectionQueueItem User)}
    (hids : (l.map (·.id)).Nodup) (husers : (l.map (·.user)).Nodup)
    {cqi : ConnectionQueueItem User} (hcqi : cqi ∈ l)
    {f : ConnectionQueueItem User → ConnectionQueueItem User} (hf : ∀ x, (f x).user = x.user)
    (user : User) :
    ActiveUser (modifyItem cqi.id f l) user ↔
      (user = cqi.user ∧ (f cqi).state = .active) ∨ (user ≠ cqi.user ∧ ActiveUser l user) := by
  constructor
  · rintro ⟨x, hx, huser, hactive⟩
    obtain ⟨y, hy, rfl⟩ := List.mem_map.mp hx
    split at huser
    · next hid =>
      have heq : y = cqi := List.inj_on_of_nodup_map hids hy hcqi hid
      rw [if_pos hid] at hactive
      subst heq
      exact .inl ⟨by rw [← huser, hf], hactive⟩
    · next hid =>
      rw [if_neg hid] at hactive
      refine .inr ⟨?_, y, hy, huser, hactive⟩
      rintro rfl
      exact hid (by rw [eq_of_user husers hy hcqi huser])
  · rintro (⟨rfl, hactive⟩ | ⟨hne, x, hx, huser, hactive⟩)
    · refine ⟨f cqi, List.mem_map.mpr ⟨cqi, hcqi, if_pos rfl⟩, hf cqi, hactive⟩
    · refine ⟨x, List.mem_map.mpr ⟨x, hx, if_neg ?_⟩, huser, hactive⟩
      intro hid
      have heq : x = cqi := List.inj_on_of_nodup_map hids hx hcqi hid
      exact hne (by rw [← huser, heq])

/-! ### The invariant -/

/-- The users that are served are those with an active item, each by one connection; a connection
that is about to be put does not serve. -/
structure Inv (s : DownloadQueue User) : Prop where
  ids : (s.downloads.map (·.id)).Nodup
  users : (s.downloads.map (·.user)).Nodup
  bound : ∀ cqi ∈ s.downloads, cqi.id < s.nextId
  active : ∀ user, ActiveUser s.downloads user ↔ ∃ id, s.Serves id user
  single : ∀ user id id', s.Serves id user → s.Serves id' user → id = id'
  rejected : ∀ id conn, s.conns id = some conn → conn.phase = .adding false →
    conn.associated = false
  failing : ∀ id conn, s.conns id = some conn → conn.phase = .failing → conn.failed = true
  failed : ∀ id conn, s.conns id = some conn → conn.failed = true →
    conn.phase = .failing ∨ conn.unused = true

variable {s : DownloadQueue User}

omit [DecidableEq User] in
private theorem inv_init : Inv (init User) := by
  refine ⟨.nil, .nil, ?_, ?_, ?_, ?_, ?_, ?_⟩ <;> simp [init, ActiveUser, Serves]

omit [DecidableEq User] in
private theorem Inv.paired (h : Inv s) : Paired s where
  active cqi hcqi := by
    rw [← h.active]
    constructor
    · intro hactive
      exact ⟨cqi, hcqi, rfl, hactive⟩
    · rintro ⟨x, hx, huser, hactive⟩
      rwa [← eq_of_user h.users hx hcqi huser]
  single := h.single

private theorem findUser_some {user : User} {cqi : ConnectionQueueItem User}
    (h : s.findUser user = some cqi) : cqi ∈ s.downloads ∧ cqi.user = user :=
  ⟨List.mem_of_find?_eq_some h, by simpa using List.find?_some h⟩

private theorem findUser_none {user : User} (h : s.findUser user = none) :
    ∀ cqi ∈ s.downloads, cqi.user ≠ user := by
  intro cqi hcqi
  simpa using List.find?_eq_none.mp h cqi hcqi

omit [DecidableEq User] in
private theorem serves_setConn {id : Nat} {conn : DownloadConn User} {i : Nat} {user : User} :
    (s.setConn id conn).Serves i user ↔
      (i = id ∧ conn.user = user ∧ conn.download = true ∧ conn.associated = true ∧
        conn.failed = false ∧ conn.unused = false) ∨ (i ≠ id ∧ s.Serves i user) := by
  rcases eq_or_ne i id with rfl | hne
  · simp [Serves, setConn]
  · simp [Serves, setConn, hne]

/-- What the invariant asks of a connection by itself. -/
structure ConnOk (conn : DownloadConn User) : Prop where
  rejected : conn.phase = .adding false → conn.associated = false
  failing : conn.phase = .failing → conn.failed = true
  failed : conn.failed = true → conn.phase = .failing ∨ conn.unused = true

omit [DecidableEq User] in
private theorem Inv.connOk (h : Inv s) {id : Nat} {conn : DownloadConn User}
    (hconn : s.conns id = some conn) : ConnOk conn :=
  ⟨h.rejected id conn hconn, h.failing id conn hconn, h.failed id conn hconn⟩

omit [DecidableEq User] in
private theorem forall_setConn {P : DownloadConn User → Prop} {id : Nat} {conn : DownloadConn User}
    (h : ∀ i c, s.conns i = some c → P c) (hconn : P conn) (i : Nat) (c : DownloadConn User)
    (hc : (s.setConn id conn).conns i = some c) : P c := by
  rw [setConn] at hc
  rcases eq_or_ne i id with rfl | hne
  · have heq : conn = c := by simpa using hc
    rwa [← heq]
  · exact h i c (by simpa [hne] using hc)

omit [DecidableEq User] in
/-- A connection changes together with the items. -/
private theorem Inv.update (h : Inv s) {id : Nat} {conn : DownloadConn User}
    {l : List (ConnectionQueueItem User)} (hids : l.map (·.id) = s.downloads.map (·.id))
    (husers : l.map (·.user) = s.downloads.map (·.user)) (hconn : ConnOk conn)
    (hactive : ∀ user, ActiveUser l user ↔ ∃ i, (s.setConn id conn).Serves i user)
    (hsingle : ∀ user i i', (s.setConn id conn).Serves i user →
      (s.setConn id conn).Serves i' user → i = i') :
    Inv { s.setConn id conn with downloads := l } where
  ids := by rw [hids]; exact h.ids
  users := by rw [husers]; exact h.users
  bound cqi hcqi := by
    have hmem : cqi.id ∈ l.map (·.id) := List.mem_map_of_mem hcqi
    rw [hids] at hmem
    obtain ⟨x, hx, heq⟩ := List.mem_map.mp hmem
    rw [← heq]
    exact h.bound x hx
  active := hactive
  single := hsingle
  rejected := forall_setConn h.rejected hconn.rejected
  failing := forall_setConn h.failing hconn.failing
  failed := forall_setConn h.failed hconn.failed

omit [DecidableEq User] in
/-- A connection changes and goes on to serve the same user, or none. -/
private theorem Inv.setConn (h : Inv s) {id : Nat} {conn : DownloadConn User}
    (hconn : ConnOk conn)
    (hserves : ∀ user, (s.setConn id conn).Serves id user ↔ s.Serves id user) :
    Inv (s.setConn id conn) := by
  have hall : ∀ i user, (s.setConn id conn).Serves i user ↔ s.Serves i user := by
    intro i user
    rcases eq_or_ne i id with rfl | hne
    · exact hserves user
    · rw [serves_setConn]
      simp [hne]
  refine h.update rfl rfl hconn (fun user => ?_) (fun user i i' hi hi' => ?_)
  · simp only [hall]
    exact h.active user
  · exact h.single user i i' ((hall i user).mp hi) ((hall i' user).mp hi')

omit [DecidableEq User] in
private theorem not_serves {id : Nat} {conn : DownloadConn User} (hconn : s.conns id = some conn)
    (h : conn.download = false ∨ conn.associated = false ∨ conn.failed = true ∨
      conn.unused = true) (user : User) : ¬ s.Serves id user := by
  rintro ⟨conn', hconn', -, hdownload, hassociated, hfailed, hunused⟩
  rw [hconn] at hconn'
  cases hconn'
  simp [hdownload, hassociated, hfailed, hunused] at h

omit [DecidableEq User] in
private theorem setConn_conns (s : DownloadQueue User) (id : Nat) (conn : DownloadConn User) :
    (s.setConn id conn).conns id = some conn := Function.update_self ..

omit [DecidableEq User] in
/-- A connection that does not serve changes and does not serve then. -/
private theorem Inv.setIdle (h : Inv s) {id : Nat} {conn : DownloadConn User} (hconn : ConnOk conn)
    (hbefore : ∀ user, ¬ s.Serves id user)
    (hafter : conn.download = false ∨ conn.associated = false ∨ conn.failed = true ∨
      conn.unused = true) : Inv (s.setConn id conn) :=
  h.setConn hconn fun user =>
    ⟨fun hs => absurd hs (not_serves (setConn_conns s id conn) hafter user),
      fun hs => absurd hs (hbefore user)⟩

/-! ### The steps -/

private theorem inv_getDownloadConnection (h : Inv s) (user : User) (token : String) :
    Inv (s.getDownloadConnection user token) := by
  rw [getDownloadConnection]
  split
  · exact h
  · next hnone =>
    have hnot := findUser_none hnone
    refine ⟨?_, ?_, ?_, ?_, h.single, h.rejected, h.failing, h.failed⟩
    · rw [List.map_cons, List.nodup_cons]
      refine ⟨?_, h.ids⟩
      intro hmem
      obtain ⟨cqi, hcqi, heq⟩ := List.mem_map.mp hmem
      have hlt := h.bound cqi hcqi
      rw [heq] at hlt
      exact Nat.lt_irrefl _ hlt
    · rw [List.map_cons, List.nodup_cons]
      refine ⟨?_, h.users⟩
      intro hmem
      obtain ⟨cqi, hcqi, heq⟩ := List.mem_map.mp hmem
      exact hnot cqi hcqi heq
    · intro cqi hcqi
      rcases List.mem_cons.mp hcqi with rfl | hcqi
      · exact Nat.lt_succ_self _
      · exact Nat.lt_succ_of_lt (h.bound cqi hcqi)
    · intro user'
      rw [activeUser_cons]
      simp only [reduceCtorEq, and_false, false_or]
      exact h.active user'

omit [DecidableEq User] in
private theorem inv_tickCollect (h : Inv s) (t : Tick User) : Inv (s.tickCollect t) := by
  rw [tickCollect]
  split
  · exact h
  · have hsame := sameItems_tickLoop t 0 s.downloads
    refine ⟨?_, ?_, ?_, ?_, h.single, h.rejected, h.failing, h.failed⟩
    · rw [hsame.ids]
      exact h.ids
    · rw [hsame.users]
      exact h.users
    · intro cqi hcqi
      have hmem : cqi.id ∈ (tickLoop t 0 s.downloads).1.map (·.id) := List.mem_map_of_mem hcqi
      rw [hsame.ids] at hmem
      obtain ⟨x, hx, heq⟩ := List.mem_map.mp hmem
      rw [← heq]
      exact h.bound x hx
    · intro user
      rw [hsame.active]
      exact h.active user

omit [DecidableEq User] in
private theorem inv_tickErase (h : Inv s)
    (hcond : ∀ id rest, s.removed = id :: rest → ∀ cqi ∈ s.downloads, cqi.id = id →
      cqi.state ≠ .active) : Inv s.tickErase := by
  rw [tickErase]
  split
  · exact h
  · next id rest hremoved =>
    have hsublist : (s.downloads.filter (·.id ≠ id)).Sublist s.downloads := List.filter_sublist
    refine ⟨h.ids.sublist (hsublist.map _), h.users.sublist (hsublist.map _),
      fun cqi hcqi => h.bound cqi (hsublist.subset hcqi), ?_, h.single, h.rejected, h.failing,
      h.failed⟩
    intro user
    have hsame : ActiveUser (s.downloads.filter (·.id ≠ id)) user ↔
        ActiveUser s.downloads user := by
      constructor
      · rintro ⟨cqi, hcqi, hrest⟩
        exact ⟨cqi, hsublist.subset hcqi, hrest⟩
      · rintro ⟨cqi, hcqi, huser, hactive⟩
        refine ⟨cqi, List.mem_filter.mpr ⟨hcqi, ?_⟩, huser, hactive⟩
        rw [decide_eq_true_iff]
        exact fun hid => hcond id rest hremoved cqi hcqi hid hactive
    dsimp only
    rw [hsame]
    exact h.active user

omit [DecidableEq User] in
private theorem inv_newConnection (h : Inv s) (id : Nat) (user : User) (download : Bool) :
    Inv (s.newConnection id user download) := by
  rw [newConnection]
  split
  · exact h
  · next hnone =>
    refine h.setIdle ⟨by simp, by simp, by simp⟩ ?_ (.inr (.inl rfl))
    rintro user' ⟨conn, hconn, -⟩
    rw [hnone] at hconn
    cases hconn

/-- The connection of the user becomes active with its item. -/
private theorem inv_activate (h : Inv s) {id : Nat} {conn : DownloadConn User}
    (hconn : s.conns id = some conn) (hdownload : conn.download = true)
    (hunused : conn.unused = false) (hfailed : conn.failed = false)
    {cqi : ConnectionQueueItem User} (hfind : s.findUser conn.user = some cqi)
    (hstate : cqi.state ≠ .active) (token : String)
    {f : ConnectionQueueItem User → ConnectionQueueItem User} (hid : ∀ x, (f x).id = x.id)
    (huserf : ∀ x, (f x).user = x.user) (hstatef : ∀ x, (f x).state = .active) :
    Inv { s.setConn id { conn with
            queueToken := token, associated := true, phase := .adding true } with
      downloads := modifyItem cqi.id f s.downloads } := by
  obtain ⟨hcqi, huser⟩ := findUser_some hfind
  -- nobody serves the user yet, or the item were active
  have hnone : ∀ i, ¬ s.Serves i conn.user := by
    intro i hi
    obtain ⟨x, hx, hxuser, hxactive⟩ := (h.active conn.user).mpr ⟨i, hi⟩
    rw [eq_of_user h.users hx hcqi (hxuser.trans huser.symm)] at hxactive
    exact hstate hxactive
  have hserves : ∀ i user, (s.setConn id { conn with
      queueToken := token, associated := true, phase := .adding true }).Serves i user ↔
      (i = id ∧ conn.user = user) ∨ (i ≠ id ∧ s.Serves i user) := by
    intro i user
    rw [serves_setConn]
    simp [hdownload, hunused, hfailed]
  refine h.update (map_modifyItem _ _ _ hid _) (map_modifyItem _ _ _ huserf _)
    ⟨by simp, by simp, by simp [hfailed]⟩ (fun user => ?_) (fun user i i' hi hi' => ?_)
  · rw [activeUser_modifyItem h.ids h.users hcqi huserf, h.active]
    simp only [hserves]
    constructor
    · rintro (⟨rfl, -⟩ | ⟨hne, i, hi⟩)
      · exact ⟨id, .inl ⟨rfl, huser.symm⟩⟩
      · refine ⟨i, .inr ⟨?_, hi⟩⟩
        rintro rfl
        obtain ⟨conn', hconn', huser', -⟩ := hi
        rw [hconn] at hconn'
        cases hconn'
        exact hne (huser'.symm.trans huser.symm)
    · rintro ⟨i, ⟨-, rfl⟩ | ⟨-, hi⟩⟩
      · exact .inl ⟨huser.symm, hstatef cqi⟩
      · refine .inr ⟨?_, i, hi⟩
        rintro rfl
        rw [huser] at hi
        exact hnone i hi
  · rw [hserves] at hi hi'
    rcases hi with ⟨rfl, rfl⟩ | ⟨-, hi⟩
    · rcases hi' with ⟨rfl, -⟩ | ⟨-, hi'⟩
      · rfl
      · exact absurd hi' (hnone i')
    · rcases hi' with ⟨rfl, rfl⟩ | ⟨-, hi'⟩
      · exact absurd hi (hnone i)
      · exact h.single user i i' hi hi'

private theorem inv_addDownloadConnection (h : Inv s) {id : Nat}
    (hcond : ∀ conn, s.conns id = some conn → conn.unused = false → conn.phase = .idle →
      conn.associated = false) : Inv (s.addDownloadConnection id) := by
  rw [addDownloadConnection]
  split
  · exact h
  · next conn hconn =>
    split
    · exact h
    · next hguard =>
      simp only [not_or, Bool.not_eq_false, Bool.not_eq_true, ne_eq, not_not] at hguard
      obtain ⟨hdownload, hunused, hphase⟩ := hguard
      have hassociated := hcond conn hconn hunused hphase
      have hfailed : conn.failed = false := by
        by_contra hc
        rw [Bool.not_eq_false] at hc
        rcases h.failed id conn hconn hc with hf | hu
        · rw [hphase] at hf
          cases hf
        · rw [hunused] at hu
          cases hu
      have hidle := not_serves hconn (.inr (.inl hassociated))
      split
      · exact h.setIdle ⟨fun _ => hassociated, by simp, by simp [hfailed]⟩ hidle
          (.inr (.inl hassociated))
      · next cqi hfind =>
        dsimp only
        split
        · next hstate =>
          refine inv_activate h hconn hdownload hunused hfailed hfind ?_ cqi.token
            (fun _ => rfl) (fun _ => rfl) (fun _ => rfl)
          rcases hstate with hstate | hstate <;> rw [hstate] <;> simp
        · exact h.setIdle ⟨fun _ => hassociated, by simp, by simp [hfailed]⟩ hidle
            (.inr (.inl hassociated))

/-- The connection of the user fails and its item waits again. -/
private theorem inv_deactivate (h : Inv s) {id : Nat} {conn : DownloadConn User}
    (hconn : s.conns id = some conn) (hserves : s.Serves id conn.user)
    {cqi : ConnectionQueueItem User} (hfind : s.findUser conn.user = some cqi)
    {f : ConnectionQueueItem User → ConnectionQueueItem User} (hid : ∀ x, (f x).id = x.id)
    (huserf : ∀ x, (f x).user = x.user) (hstate : ∀ x, (f x).state = .waiting) :
    Inv { s.setConn id { conn with failed := true, phase := .failing } with
      downloads := modifyItem cqi.id f s.downloads } := by
  obtain ⟨hcqi, huser⟩ := findUser_some hfind
  have hother : ∀ i user, (s.setConn id { conn with failed := true, phase := .failing }).Serves
      i user ↔ i ≠ id ∧ s.Serves i user := by
    intro i user
    rw [serves_setConn]
    simp
  refine h.update (map_modifyItem _ _ _ hid _) (map_modifyItem _ _ _ huserf _)
    ⟨by simp, by simp, by simp⟩ (fun user => ?_) (fun user i i' hi hi' => ?_)
  · rw [activeUser_modifyItem h.ids h.users hcqi huserf, h.active]
    simp only [hother, hstate, reduceCtorEq, and_false, false_or]
    constructor
    · rintro ⟨hne, i, hi⟩
      refine ⟨i, ?_, hi⟩
      rintro rfl
      obtain ⟨conn', hconn', huser', -⟩ := hi
      rw [hconn] at hconn'
      cases hconn'
      exact hne (huser'.symm.trans huser.symm)
    · rintro ⟨i, hne, hi⟩
      refine ⟨?_, i, hi⟩
      rintro rfl
      rw [huser] at hi
      exact hne (h.single conn.user i id hi hserves)
  · rw [hother] at hi hi'
    exact h.single user i i' hi.2 hi'.2

private theorem inv_failed (h : Inv s) (id : Nat) (protocolError : Bool) (tick : Nat) :
    Inv (s.failed id protocolError tick) := by
  rw [DownloadQueue.failed]
  split
  · exact h
  · next conn hconn =>
    split
    · exact h
    · next hguard =>
      simp only [not_or, Bool.not_eq_true, ne_eq, not_not] at hguard
      obtain ⟨hunused, hphase⟩ := hguard
      have hfailed : conn.failed = false := by
        by_contra hc
        rw [Bool.not_eq_false] at hc
        rcases h.failed id conn hconn hc with hf | hu
        · rw [hphase] at hf
          cases hf
        · rw [hunused] at hu
          cases hu
      have hok : ConnOk { conn with failed := true, phase := .failing } :=
        ⟨by simp, by simp, by simp⟩
      dsimp only
      split
      · next hdown =>
        have hserves : s.Serves id conn.user :=
          ⟨conn, hconn, rfl, hdown.2, hdown.1, hfailed, hunused⟩
        split
        · next hnone =>
          -- a connection that serves has an item
          obtain ⟨cqi, hcqi, huser, -⟩ := (h.active conn.user).mpr ⟨id, hserves⟩
          exact absurd huser (findUser_none hnone cqi hcqi)
        · next cqi hfind =>
          exact inv_deactivate h hconn hserves hfind (fun _ => rfl) (fun _ => rfl) (fun _ => rfl)
      · next hnot =>
        refine h.setIdle hok (not_serves hconn ?_) (.inr (.inr (.inl rfl)))
        rw [not_and_or, Bool.not_eq_true, Bool.not_eq_true] at hnot
        rcases hnot with hnot | hnot
        · exact .inr (.inl hnot)
        · exact .inl hnot

omit [DecidableEq User] in
private theorem inv_finish (h : Inv s) (id : Nat) : Inv (s.finish id) := by
  rw [finish]
  split
  · exact h
  · next conn hconn =>
    have hok := h.connOk hconn
    split
    · exact h
    · next hphase =>
      refine h.setConn ⟨by simp, by simp, ?_⟩ fun user => ?_
      · intro hfailed
        rcases hok.failed hfailed with hf | hu
        · rw [hphase] at hf
          cases hf
        · exact .inr hu
      · simp [Serves, DownloadQueue.setConn, hconn]
    · next hphase =>
      exact h.setIdle ⟨by simp, by simp, fun _ => .inr rfl⟩
        (not_serves hconn (.inr (.inl (hok.rejected hphase)))) (.inr (.inr (.inr rfl)))
    · next hphase =>
      exact h.setIdle ⟨by simp, by simp, fun _ => .inr rfl⟩
        (not_serves hconn (.inr (.inr (.inl (hok.failing hphase))))) (.inr (.inr (.inr rfl)))

omit [DecidableEq User] in
private theorem inv_removeUnused (h : Inv s) (id : Nat) : Inv (s.removeUnused id) := by
  rw [removeUnused]
  split
  · exact h
  · next conn hconn =>
    split
    · next hunused =>
      have hserves : ∀ i user, Serves { s with conns := Function.update s.conns id none } i user ↔
          s.Serves i user := by
        intro i user
        rcases eq_or_ne i id with rfl | hne
        · refine ⟨?_, fun hs => absurd hs (not_serves hconn (.inr (.inr (.inr hunused))) user)⟩
          rintro ⟨c, hc, -⟩
          simp at hc
        · simp [Serves, hne]
      have hold : ∀ i c, Function.update s.conns id none i = some c → s.conns i = some c := by
        intro i c hc
        rcases eq_or_ne i id with rfl | hne
        · simp at hc
        · rwa [Function.update_of_ne hne] at hc
      refine ⟨h.ids, h.users, h.bound, fun user => ?_, fun user i i' hi hi' => ?_,
        fun i c hc => h.rejected i c (hold i c hc), fun i c hc => h.failing i c (hold i c hc),
        fun i c hc => h.failed i c (hold i c hc)⟩
      · simp only [hserves]
        exact h.active user
      · exact h.single user i i' ((hserves i user).mp hi) ((hserves i' user).mp hi')
    · exact h

private theorem inv_step (s : DownloadQueue User) (e : DownloadEvent User) (h : Inv s)
    (hcond : Condition s e) : Inv (s.step e) := by
  cases e with
  | getDownloadConnection user token => exact inv_getDownloadConnection h user token
  | tickCollect t => exact inv_tickCollect h t
  | tickErase => exact inv_tickErase h hcond
  | newConnection id user download => exact inv_newConnection h id user download
  | addDownloadConnection id => exact inv_addDownloadConnection h hcond
  | failed id protocolError tick => exact inv_failed h id protocolError tick
  | finish id => exact inv_finish h id
  | removeUnused id => exact inv_removeUnused h id

/-! ### Removing items -/

omit [DecidableEq User] in
private theorem keepsActive_of_ids {s s' : DownloadQueue User}
    (h : ∀ id ∈ s.downloads.map (·.id), id ∈ s'.downloads.map (·.id)) : KeepsActive s s' := by
  intro cqi hcqi _
  obtain ⟨cqi', hcqi', hid⟩ := List.mem_map.mp (h cqi.id (List.mem_map_of_mem hcqi))
  exact ⟨cqi', hcqi', hid⟩

/-- Only the timer removes items. -/
private theorem ids_step (s : DownloadQueue User) {e : DownloadEvent User} (he : e ≠ .tickErase) :
    ∀ id ∈ s.downloads.map (·.id), id ∈ (s.step e).downloads.map (·.id) := by
  intro id hid
  cases e with
  | getDownloadConnection user token =>
    rw [step, getDownloadConnection]
    split
    · exact hid
    · exact List.mem_cons_of_mem _ hid
  | tickCollect t =>
    rw [step, tickCollect]
    split
    · exact hid
    · rwa [(sameItems_tickLoop t 0 s.downloads).ids]
  | tickErase => exact absurd rfl he
  | newConnection i user download =>
    rw [step, newConnection]
    split <;> exact hid
  | addDownloadConnection i =>
    rw [step, addDownloadConnection]
    split
    · exact hid
    · split
      · exact hid
      · split
        · exact hid
        · dsimp only
          split
          · rw [map_modifyItem]
            · exact hid
            · exact fun _ => rfl
          · exact hid
  | failed i protocolError tick =>
    rw [step, DownloadQueue.failed]
    split
    · exact hid
    · split
      · exact hid
      · dsimp only
        split
        · split
          · exact hid
          · rw [map_modifyItem]
            · exact hid
            · exact fun _ => rfl
        · exact hid
  | finish i =>
    rw [step, finish]
    split
    · exact hid
    · split <;> exact hid
  | removeUnused i =>
    rw [step, removeUnused]
    split
    · exact hid
    · split <;> exact hid

private theorem keepsActive_step {e : DownloadEvent User} (hcond : Condition s e) :
    KeepsActive s (s.step e) := by
  by_cases he : e = .tickErase
  · subst he
    intro cqi hcqi hactive
    rw [step, tickErase]
    split
    · exact ⟨cqi, hcqi, rfl⟩
    · next id rest hremoved =>
      refine ⟨cqi, List.mem_filter.mpr ⟨hcqi, ?_⟩, rfl⟩
      rw [decide_eq_true_iff]
      exact fun hid => hcond id rest hremoved cqi hcqi hid hactive
  · exact keepsActive_of_ids (ids_step s he)

/-- In every run in which the timer erases no item that has become active and no associated
connection calls `addDownloadConnection` again, an item is active when its user is served by one
connection, no user is served by two, and no active item is removed. -/
theorem paired_run (es : List (DownloadEvent User)) (e : DownloadEvent User)
    (h : Within Condition step (init User) (es ++ [e])) :
    Paired (run step (init User) (es ++ [e])) ∧
      KeepsActive (run step (init User) es) (run step (init User) (es ++ [e])) := by
  obtain ⟨hes, he, -⟩ := (within_append ..).mp h
  have hinv : Inv (run step (init User) es) := hes.invariant Inv inv_step inv_init
  rw [run_append]
  exact ⟨(inv_step _ e hinv he).paired, keepsActive_step he⟩

/-- The timer finds the user offline. -/
private def offline : Tick Nat := ⟨1000, 1, fun _ => false, fun _ => false, fun _ => false⟩

/-- A connection is asked for, comes, and is associated. -/
theorem paired_run_connection :
    Within Condition step (init Nat)
        ([DownloadEvent.getDownloadConnection 1 "t", .newConnection 0 1 true] ++
          [DownloadEvent.addDownloadConnection 0]) ∧
      Paired (run step (init Nat)
        ([DownloadEvent.getDownloadConnection 1 "t", .newConnection 0 1 true] ++
          [DownloadEvent.addDownloadConnection 0])) ∧
      KeepsActive (run step (init Nat) [.getDownloadConnection 1 "t", .newConnection 0 1 true])
        (run step (init Nat)
          ([DownloadEvent.getDownloadConnection 1 "t", .newConnection 0 1 true] ++
            [DownloadEvent.addDownloadConnection 0])) := by
  have hwithin : Within Condition step (init Nat)
      ([DownloadEvent.getDownloadConnection 1 "t", .newConnection 0 1 true] ++
        [DownloadEvent.addDownloadConnection 0]) := by
    refine ⟨trivial, trivial, ?_, trivial⟩
    intro conn hconn _ _
    cases hconn
    rfl
  exact ⟨hwithin, paired_run _ _ hwithin⟩

/-- The timer collects the item of a user that is offline; before it is erased, a connection of the
user comes and activates it. -/
private def erasedActive : List (DownloadEvent Nat) :=
  [.getDownloadConnection 1 "t", .tickCollect offline, .newConnection 0 1 true,
    .addDownloadConnection 0, .finish 0]

/-- The active item is removed; when the user is asked for again, a second connection is
associated with it. -/
theorem not_paired_erased_active :
    ¬ KeepsActive (run step (init Nat) erasedActive)
        (run step (init Nat) (erasedActive ++ [DownloadEvent.tickErase])) ∧
      ¬ Paired (run step (init Nat) (erasedActive ++
        [DownloadEvent.tickErase, .getDownloadConnection 1 "u", .newConnection 2 1 true,
          .addDownloadConnection 2])) := by
  constructor
  · intro h
    obtain ⟨cqi, hcqi, -⟩ := h ⟨0, 1, "t", 0, 0, .active⟩ (by simp [erasedActive, run, step,
      getDownloadConnection, tickCollect, newConnection, addDownloadConnection, finish, init,
      findUser, tickLoop, tickItem, offline, setConn, modifyItem]) rfl
    have hnil : (run step (init Nat) (erasedActive ++ [DownloadEvent.tickErase])).downloads = [] :=
      rfl
    rw [hnil] at hcqi
    cases hcqi
  · intro h
    have heq := h.single 1 0 2 ⟨_, rfl, rfl, rfl, rfl, rfl, rfl⟩ ⟨_, rfl, rfl, rfl, rfl, rfl, rfl⟩
    cases heq

end DownloadQueue

end Blacklink.Connections
