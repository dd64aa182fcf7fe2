import Mathlib.Logic.Function.Basic
import Mathlib.Data.Option.Basic
import Blacklink.Base.Run

/-!
# Direct connections for private messages

Model of the `ccpmConn` table of `ConnectionManager` (`client/ConnectionManager.cpp:579-605,
1374-1489, 1720-1811`): for each user at most one connection for private messages, which is being
made (`uc` is null) or is there. `putConnection` erases the entry of the user of the connection it
closes, whichever connection the entry is about; so a second connection of a user that is rejected
takes the entry of the first one with it.
-/

namespace Blacklink.Connections

open Blacklink.Base

/-- A `UserConnection*`. -/
abbrev ConnId := Nat

/-- `UserConnection::States`, as far as told apart here: `ready` are the states after the
handshake. -/
inductive ConnState where
  | supnick
  | inf
  | ready
  | unused
  deriving DecidableEq

/-- `TokenManager::TYPE_*`. -/
inductive TokenType where
  | upload
  | download
  | ccpm
  deriving DecidableEq

/-- What is used of a `UserConnection`. -/
structure UserConn (CID : Type) where
  state : ConnState
  incoming : Bool
  ccpm : Bool
  cpmi : Bool
  user : Option CID
  userConnectionToken : String

/-- `PMConnInfo`. -/
structure PMConnInfo where
  uc : Option ConnId
  token : String
  cpmiSupported : Bool
  isTyping : Bool
  isClosed : Bool
  seenTime : Nat
  deriving DecidableEq

/-- The state of the table: `userConnections`, `ccpmConn`, the tokens of `tokenManager` with their
types and the CIDs of `expectedAdc`. -/
structure CcpmState (CID : Type) where
  conns : ConnId → Option (UserConn CID)
  ccpmConn : CID → Option PMConnInfo
  tokens : String → Option TokenType
  expectedAdc : String → Option CID

/-- An `INF` with what the rest of the client says to it: whether there is a user with its `ID`, and
whether the keyprint is valid. -/
structure Inf (CID : Type) where
  cid : Option CID
  token : Option String
  pm : Bool
  userFound : Bool
  keyprintOk : Bool

namespace CcpmState

variable {CID : Type} [DecidableEq CID]

/-- Nothing is connected. -/
def init (CID : Type) : CcpmState CID :=
  ⟨fun _ => none, fun _ => none, fun _ => none, fun _ => none⟩

/-- The connection becomes `conn`. -/
def set (s : CcpmState CID) (id : ConnId) (conn : UserConn CID) : CcpmState CID :=
  { s with conns := Function.update s.conns id (some conn) }

omit [DecidableEq CID] in
@[simp] theorem set_ccpmConn (s : CcpmState CID) (id : ConnId) (conn : UserConn CID) :
    (s.set id conn).ccpmConn = s.ccpmConn := rfl

omit [DecidableEq CID] in
@[simp] theorem set_conns_self (s : CcpmState CID) (id : ConnId) (conn : UserConn CID) :
    (s.set id conn).conns id = some conn := Function.update_self ..

omit [DecidableEq CID] in
theorem set_conns_of_ne (s : CcpmState CID) {id i : ConnId} (conn : UserConn CID) (h : i ≠ id) :
    (s.set id conn).conns i = s.conns i := Function.update_of_ne h ..

/-- `ConnectionManager::putConnection`. -/
def putConnection (s : CcpmState CID) (id : ConnId) : CcpmState CID :=
  match s.conns id with
  | none => s
  | some conn =>
    { s.set id { conn with state := .unused } with
      ccpmConn :=
        match conn.user with
        | some cid => if conn.ccpm then Function.update s.ccpmConn cid none else s.ccpmConn
        | none => s.ccpmConn }

/-- `accept` and `getConnection`: a connection comes in. -/
def accept (s : CcpmState CID) (id : ConnId) : CcpmState CID :=
  match s.conns id with
  | some _ => s
  | none => s.set id ⟨.supnick, true, false, false, none, ""⟩

/-- `adcConnect`, when the connection can be made. -/
def adcConnect (s : CcpmState CID) (id : ConnId) (token : String) : CcpmState CID :=
  match s.conns id with
  | some _ => s
  | none =>
    s.set id ⟨.supnick, false, token ≠ "" ∧ s.tokens token = some .ccpm, false, none, token⟩

/-- `UserConnection::handle(SUP)`, for a `SUP` with the base feature. -/
def handleSUP (s : CcpmState CID) (id : ConnId) (cpmi : Bool) : CcpmState CID :=
  match s.conns id with
  | none => s
  | some conn =>
    if conn.state ≠ .supnick then s
    else s.set id { conn with state := .inf, cpmi := conn.cpmi || cpmi }

/-- The part of `processINF` that looks at the token. `none` gives the connection up. -/
def takeToken (s : CcpmState CID) (source : UserConn CID) (cid : CID) (given : Option String) :
    CcpmState CID × UserConn CID × Option String :=
  if source.incoming then
    match given with
    | none => (s, source, none)
    | some token =>
      let removed := { s with expectedAdc := Function.update s.expectedAdc token none }
      if s.expectedAdc token ≠ some cid then (removed, source, none)
      else if s.tokens token = some .ccpm then
        ({ removed with tokens := Function.update s.tokens token none },
          { source with ccpm := true }, some token)
      else (removed, source, some token)
  else (s, source, some source.userConnectionToken)

/-- The critical section of `processINF` on `ccpmConn`. `none` rejects the connection. -/
def register (s : CcpmState CID) (id : ConnId) (cid : CID) (token : String)
    (cpmiSupported : Bool) : Option (CcpmState CID) :=
  match s.ccpmConn cid with
  | none =>
    if token = "" then none
    else
      some { s with
        ccpmConn := Function.update s.ccpmConn cid
          (some ⟨some id, token, cpmiSupported, false, false, 0⟩) }
  | some ci =>
    if ci.uc = none then
      some { s with
        ccpmConn := Function.update s.ccpmConn cid
          (some { ci with uc := some id, cpmiSupported := cpmiSupported }) }
    else none

/-- `processINF` from `checkKeyprint` on. -/
def processUser (s : CcpmState CID) (id : ConnId) (source : UserConn CID) (cid : CID)
    (token : String) (inf : Inf CID) : CcpmState CID :=
  if inf.keyprintOk = false then (s.set id source).putConnection id
  else
    let source := { source with ccpm := source.ccpm || inf.pm }
    if source.ccpm then
      match s.register id cid token source.cpmi with
      | none => (s.set id source).putConnection id
      | some s => s.set id { source with state := .ready }
    else s.set id { source with state := .ready }

/-- `processINF`, called in `STATE_INF` only. -/
def processINF (s : CcpmState CID) (id : ConnId) (inf : Inf CID) : CcpmState CID :=
  match s.conns id, inf.cid with
  | some source, some cid =>
    if source.state ≠ .inf then s
    else
      match s.takeToken source cid inf.token with
      | (s, source, none) => (s.set id source).putConnection id
      | (s, source, some token) =>
        if inf.userFound = false then (s.set id { source with user := none }).putConnection id
        else s.processUser id { source with user := some cid } cid token inf
  | _, _ => s

/-- `connectCCPM` for a user that is online in an ADC hub, with the token `makeToken` gives. -/
def connectCCPM (s : CcpmState CID) (cid : CID) (token : String) : CcpmState CID :=
  match s.tokens token, s.ccpmConn cid with
  | none, none =>
    { s with
      tokens := Function.update s.tokens token (some .ccpm)
      ccpmConn := Function.update s.ccpmConn cid (some ⟨none, token, false, false, false, 0⟩) }
  | _, _ => s

/-- `disconnectCCPM`. The connection is closed later by its own thread. -/
def disconnectCCPM (s : CcpmState CID) (cid : CID) : CcpmState CID :=
  match s.ccpmConn cid with
  | none => s
  | some ci =>
    { s with
      tokens := if ci.token = "" then s.tokens else Function.update s.tokens ci.token none
      ccpmConn := Function.update s.ccpmConn cid none }

/-- `TokenManager::removeExpired` and `removeExpiredCCPMToken` for one token; `cid` is the first
entry with it, in the order of the table. -/
def expireToken (s : CcpmState CID) (token : String) (cid : CID) : CcpmState CID :=
  let s := { s with tokens := Function.update s.tokens token none }
  match s.ccpmConn cid with
  | none => s
  | some ci =>
    if ci.token = token ∧ ci.uc = none then
      { s with ccpmConn := Function.update s.ccpmConn cid none }
    else s

/-- `checkConnections` and `removeUnusedConnections` for one connection. -/
def removeUnused (s : CcpmState CID) (id : ConnId) : CcpmState CID :=
  match s.conns id with
  | none => s
  | some conn =>
    if conn.state = .unused then { s with conns := Function.update s.conns id none } else s

end CcpmState

/-- The events. Every failure or closing of a connection ends in `putConnection`. -/
inductive CcpmEvent (CID : Type) where
  | accept (id : ConnId)
  | adcConnect (id : ConnId) (token : String)
  | handleSUP (id : ConnId) (cpmi : Bool)
  | processINF (id : ConnId) (inf : Inf CID)
  | putConnection (id : ConnId)
  | connectCCPM (cid : CID) (token : String)
  | disconnectCCPM (cid : CID)
  | expireToken (token : String) (cid : CID)
  | removeUnused (id : ConnId)
  | addToken (token : String) (type : TokenType)
  | expectAdc (token : String) (cid : CID)
  | removeExpected (token : String)

namespace CcpmState

variable {CID : Type} [DecidableEq CID]

/-- One step. -/
def step (s : CcpmState CID) : CcpmEvent CID → CcpmState CID
  | .accept id => s.accept id
  | .adcConnect id token => s.adcConnect id token
  | .handleSUP id cpmi => s.handleSUP id cpmi
  | .processINF id inf => s.processINF id inf
  | .putConnection id => s.putConnection id
  | .connectCCPM cid token => s.connectCCPM cid token
  | .disconnectCCPM cid => s.disconnectCCPM cid
  | .expireToken token cid => s.expireToken token cid
  | .removeUnused id => s.removeUnused id
  | .addToken token type => { s with tokens := Function.update s.tokens token (some type) }
  | .expectAdc token cid =>
    if s.expectedAdc token = none then
      { s with expectedAdc := Function.update s.expectedAdc token (some cid) }
    else s
  | .removeExpected token => { s with expectedAdc := Function.update s.expectedAdc token none }

/-! ### What is seen of the table -/

/-- `CCPM_STATE_*`. -/
inductive CcpmConnState where
  | disconnected
  | connected
  | connecting
  deriving DecidableEq

/-- `PMConnState`. -/
structure PMConnState where
  state : CcpmConnState
  cpmiSupported : Bool
  isTyping : Int
  isClosed : Bool
  seenTime : Nat
  deriving DecidableEq

/-- `getCCPMState`. -/
def getCCPMState (s : CcpmState CID) (cid : CID) : PMConnState :=
  match s.ccpmConn cid with
  | none => ⟨.disconnected, false, -1, false, 0⟩
  | some ci =>
    ⟨if ci.uc.isSome then .connected else .connecting, ci.cpmiSupported,
      if ci.isTyping then 1 else 0, ci.isClosed, ci.seenTime⟩

/-- The connection that `sendCCPMMessage` sends to. -/
def recipient (s : CcpmState CID) (cid : CID) : Option ConnId :=
  (s.ccpmConn cid).bind (·.uc)

/-- The connection of every entry is a live connection of that user. -/
def LiveEntries (s : CcpmState CID) : Prop :=
  ∀ cid id, s.recipient cid = some id →
    ∃ conn, s.conns id = some conn ∧ conn.state ≠ .unused ∧ conn.user = some cid

/-- The event closes or rejects the connection. -/
def Closes (s : CcpmState CID) (e : CcpmEvent CID) (id : ConnId) : Prop :=
  (e = .putConnection id ∨ ∃ inf, e = .processINF id inf) ∧
    ∃ conn, (s.step e).conns id = some conn ∧ conn.state = .unused

/-- Closing or rejecting a connection leaves every entry alone that is not about it. -/
def LeavesOthers (s : CcpmState CID) (e : CcpmEvent CID) : Prop :=
  ∀ id, s.Closes e id → ∀ cid, s.recipient cid ≠ some id →
    (s.step e).ccpmConn cid = s.ccpmConn cid ∧
      (s.step e).getCCPMState cid = s.getCCPMState cid ∧
      (s.step e).recipient cid = s.recipient cid

/-! ### When entries are left alone -/

/-- The connection is one for private messages once its token is known. -/
def ccpmAfterToken (s : CcpmState CID) (source : UserConn CID) (inf : Inf CID) : Bool :=
  source.ccpm || source.incoming && inf.token.any fun token => s.tokens token = some .ccpm

/-- The token of the connection is the one it is expected with, and its user is known. -/
def Identified (s : CcpmState CID) (source : UserConn CID) (cid : CID) (inf : Inf CID) : Prop :=
  (source.incoming = true → ∃ token, inf.token = some token ∧ s.expectedAdc token = some cid) ∧
    inf.userFound = true

/-- The connection that is closed or rejected has no user, is not one for private messages, or the
entry of its user, if there is one, is its own. -/
def OwnEntry (s : CcpmState CID) : CcpmEvent CID → Prop
  | .putConnection id => ∀ conn cid, s.conns id = some conn → conn.ccpm = true →
      conn.user = some cid → s.ccpmConn cid = none ∨ s.recipient cid = some id
  | .processINF id inf => ∀ source cid, s.conns id = some source → source.state = .inf →
      inf.cid = some cid → s.Identified source cid inf →
      (inf.keyprintOk = false → s.ccpmAfterToken source inf = true → s.ccpmConn cid = none) ∧
      (inf.keyprintOk = true → (s.ccpmAfterToken source inf || inf.pm) = true →
        s.recipient cid = none)
  | _ => True

/-! ### The invariant -/

/-- The connection of an entry has finished its handshake as one for private messages of that
user, and a connection has no user before its `INF`. -/
structure Inv (s : CcpmState CID) : Prop where
  entry : ∀ cid id, s.recipient cid = some id → ∃ conn, s.conns id = some conn ∧
    conn.state = .ready ∧ conn.user = some cid ∧ conn.ccpm = true
  early : ∀ id conn, s.conns id = some conn → conn.state = .supnick ∨ conn.state = .inf →
    conn.user = none

variable {s s' : CcpmState CID}

omit [DecidableEq CID] in
private theorem inv_init : Inv (init CID) where
  entry _ _ h := by cases h
  early _ _ h := by cases h

omit [DecidableEq CID] in
/-- A connection that no entry is about may change, and entries may go. -/
private theorem Inv.change (h : Inv s) (id : ConnId)
    (hrecipient : ∀ cid i, s'.recipient cid = some i → s.recipient cid = some i ∧ i ≠ id)
    (hconns : ∀ i, i ≠ id → s'.conns i = s.conns i)
    (hearly : ∀ conn, s'.conns id = some conn → conn.state = .supnick ∨ conn.state = .inf →
      conn.user = none) : Inv s' where
  entry cid i hi := by
    obtain ⟨hold, hne⟩ := hrecipient cid i hi
    rw [hconns i hne]
    exact h.entry cid i hold
  early i conn hi hstate := by
    rcases eq_or_ne i id with rfl | hne
    · exact hearly conn hi hstate
    · rw [hconns i hne] at hi
      exact h.early i conn hi hstate

omit [DecidableEq CID] in
/-- No entry is about a connection that is not ready. -/
private theorem Inv.recipient_ne (h : Inv s) {id : ConnId}
    (hconn : ∀ conn, s.conns id = some conn → conn.state ≠ .ready) (cid : CID) :
    s.recipient cid ≠ some id := by
  intro hid
  obtain ⟨conn, hsome, hready, -⟩ := h.entry cid id hid
  exact hconn conn hsome hready

omit [DecidableEq CID] in
private theorem recipient_congr (h : s'.ccpmConn = s.ccpmConn) (cid : CID) :
    s'.recipient cid = s.recipient cid := by rw [recipient, recipient, h]

omit [DecidableEq CID] in
/-- The connections are the same, and entries may go. -/
private theorem Inv.same (h : Inv s)
    (hrecipient : ∀ cid i, s'.recipient cid = some i → s.recipient cid = some i)
    (hconns : s'.conns = s.conns) : Inv s' where
  entry cid i hi := by
    rw [hconns]
    exact h.entry cid i (hrecipient cid i hi)
  early := by
    rw [hconns]
    exact h.early

private theorem recipient_erase {cid cid' : CID} {i : ConnId}
    (h : s'.ccpmConn = Function.update s.ccpmConn cid' none) (hi : s'.recipient cid = some i) :
    s.recipient cid = some i ∧ cid ≠ cid' := by
  rw [recipient, h] at hi
  rcases eq_or_ne cid cid' with rfl | hne
  · simp at hi
  · rw [Function.update_of_ne hne] at hi
    exact ⟨hi, hne⟩

/-- What `putConnection` does to the entries. -/
private theorem putConnection_entries {id : ConnId} {conn : UserConn CID}
    (hconn : s.conns id = some conn) :
    (s.putConnection id).ccpmConn =
      match conn.user with
      | some cid => if conn.ccpm then Function.update s.ccpmConn cid none else s.ccpmConn
      | none => s.ccpmConn := by
  simp only [putConnection, hconn]

private theorem putConnection_conns {id : ConnId} {conn : UserConn CID}
    (hconn : s.conns id = some conn) :
    (s.putConnection id).conns = Function.update s.conns id (some { conn with state := .unused }) :=
  by simp only [putConnection, hconn, set]

private theorem recipient_putConnection {id : ConnId} {cid : CID} {i : ConnId}
    (hi : (s.putConnection id).recipient cid = some i) : s.recipient cid = some i := by
  cases hconn : s.conns id with
  | none =>
    simp only [putConnection, hconn] at hi
    exact hi
  | some conn =>
    have hentries := putConnection_entries hconn
    split at hentries
    · split at hentries
      · exact (recipient_erase hentries hi).1
      · rwa [recipient_congr hentries] at hi
    · rwa [recipient_congr hentries] at hi

private theorem inv_putConnection (h : Inv s) (id : ConnId) : Inv (s.putConnection id) := by
  cases hconn : s.conns id with
  | none =>
    simp only [putConnection, hconn]
    exact h
  | some conn =>
    refine h.change id ?_ ?_ ?_
    · intro cid i hi
      refine ⟨recipient_putConnection hi, ?_⟩
      rintro rfl
      -- the entry of this connection is the one that is erased
      obtain ⟨conn', hconn', -, huser, hccpm⟩ := h.entry cid i (recipient_putConnection hi)
      rw [hconn] at hconn'
      cases hconn'
      have hentries := putConnection_entries hconn
      rw [huser, hccpm] at hentries
      exact (recipient_erase hentries hi).2 rfl
    · intro i hne
      rw [putConnection_conns hconn, Function.update_of_ne hne]
    · intro conn' hconn' hstate
      rw [putConnection_conns hconn, Function.update_self] at hconn'
      cases hconn'
      rcases hstate with hstate | hstate <;> cases hstate

/-- A connection before its `INF` is given up. -/
private theorem inv_giveUp (h : Inv s) {id : ConnId} {source : UserConn CID}
    (hrecipient : ∀ cid, s.recipient cid ≠ some id) :
    Inv ((s.set id source).putConnection id) := by
  have hconn : (s.set id source).conns id = some source := by simp [set]
  refine h.change id ?_ ?_ ?_
  · intro cid i hi
    have hold : (s.set id source).recipient cid = some i := recipient_putConnection hi
    refine ⟨hold, ?_⟩
    rintro rfl
    exact hrecipient cid hold
  · intro i hne
    rw [putConnection_conns hconn, Function.update_of_ne hne]
    simp [set, Function.update_of_ne hne]
  · intro conn' hconn' hstate
    rw [putConnection_conns hconn, Function.update_self] at hconn'
    cases hconn'
    rcases hstate with hstate | hstate <;> cases hstate

omit [DecidableEq CID] in
/-- A connection no entry is about is set. -/
private theorem inv_set (h : Inv s) {id : ConnId} {conn : UserConn CID}
    (hrecipient : ∀ cid, s.recipient cid ≠ some id)
    (hearly : conn.state = .supnick ∨ conn.state = .inf → conn.user = none) :
    Inv (s.set id conn) := by
  refine h.change id ?_ ?_ ?_
  · intro cid i hi
    refine ⟨hi, ?_⟩
    rintro rfl
    exact hrecipient cid hi
  · intro i hne
    simp [set, Function.update_of_ne hne]
  · intro conn' hconn' hstate
    have heq : conn = conn' := by simpa [set] using hconn'
    rw [← heq] at hstate ⊢
    exact hearly hstate

/-- What the token part of `processINF` leaves. -/
private theorem takeToken_spec (source : UserConn CID) (cid : CID) (inf : Inf CID) :
    ∃ s' found, s.takeToken source cid inf.token =
        (s', { source with
          ccpm := if found.isSome then s.ccpmAfterToken source inf else source.ccpm }, found) ∧
      s'.conns = s.conns ∧ s'.ccpmConn = s.ccpmConn ∧
      (found.isSome = true ↔ (source.incoming = true → ∃ token, inf.token = some token ∧
        s.expectedAdc token = some cid)) := by
  have hafter : ∀ found : Option String, found.isSome = true →
      (if found.isSome then s.ccpmAfterToken source inf else source.ccpm) =
        s.ccpmAfterToken source inf := fun _ hsome => if_pos hsome
  unfold takeToken
  split
  · next hincoming =>
    cases htoken : inf.token with
    | none => exact ⟨s, none, rfl, rfl, rfl, by simp [hincoming]⟩
    | some token =>
      dsimp only
      split_ifs with hcid htype
      · exact ⟨_, none, rfl, rfl, rfl, by simp [hincoming, hcid]⟩
      · have hccpm : s.ccpmAfterToken source inf = true := by
          simp [ccpmAfterToken, hincoming, htoken, htype]
        refine ⟨{ s with
          expectedAdc := Function.update s.expectedAdc token none
          tokens := Function.update s.tokens token none }, some token, ?_, rfl, rfl,
          by simpa [hincoming] using hcid⟩
        rw [hafter _ rfl, hccpm]
      · have hccpm : s.ccpmAfterToken source inf = source.ccpm := by
          simp [ccpmAfterToken, hincoming, htoken, htype]
        refine ⟨{ s with expectedAdc := Function.update s.expectedAdc token none }, some token, ?_,
          rfl, rfl, by simpa [hincoming] using hcid⟩
        rw [hafter _ rfl, hccpm]
  · next hincoming =>
    have hccpm : s.ccpmAfterToken source inf = source.ccpm := by simp [ccpmAfterToken, hincoming]
    refine ⟨s, some source.userConnectionToken, ?_, rfl, rfl, by simp [hincoming]⟩
    rw [hafter _ rfl, hccpm]

/-- Every way `processINF` can go. -/
private inductive InfCase (s : CcpmState CID) (id : ConnId) (inf : Inf CID) :
    CcpmState CID → Prop
  /-- It is not called, or the `INF` has no `ID`. -/
  | ignored (hnot : ∀ source cid, s.conns id = some source → source.state = .inf →
      inf.cid ≠ some cid) : InfCase s id inf s
  /-- The connection is not expected, or its user is not known. -/
  | unknown {s₁ : CcpmState CID} {source source₁ : UserConn CID} {cid : CID}
      (hconn : s.conns id = some source) (hstate : source.state = .inf) (hcid : inf.cid = some cid)
      (hnot : ¬ s.Identified source cid inf) (hconns : s₁.conns = s.conns)
      (hentries : s₁.ccpmConn = s.ccpmConn)
      (huser : source₁.user = source.user ∨ source₁.user = none) :
      InfCase s id inf ((s₁.set id source₁).putConnection id)
  /-- The user is known. -/
  | known {s₁ : CcpmState CID} {source : UserConn CID} {cid : CID} {token : String}
      (hconn : s.conns id = some source) (hstate : source.state = .inf) (hcid : inf.cid = some cid)
      (hidentified : s.Identified source cid inf) (hconns : s₁.conns = s.conns)
      (hentries : s₁.ccpmConn = s.ccpmConn) :
      InfCase s id inf (s₁.processUser id
        { source with ccpm := s.ccpmAfterToken source inf, user := some cid } cid token inf)

private theorem processINF_cases (s : CcpmState CID) (id : ConnId) (inf : Inf CID) :
    InfCase s id inf (s.processINF id inf) := by
  rw [processINF]
  split
  · next source cid hconn hcid =>
    split
    · next hstate =>
      refine .ignored fun source' cid' hconn' hstate' => ?_
      rw [hconn] at hconn'
      cases hconn'
      exact absurd hstate' hstate
    · next hstate =>
      rw [ne_eq, not_not] at hstate
      obtain ⟨s₁, found, htake, hconns, hentries, hfound⟩ := takeToken_spec (s := s) source cid inf
      rw [htake]
      cases found with
      | none =>
        refine .unknown hconn hstate hcid ?_ hconns hentries (.inl rfl)
        exact fun hid => absurd (hfound.mpr hid.1) (by simp)
      | some token =>
        dsimp only
        split
        · next huser =>
          refine .unknown hconn hstate hcid ?_ hconns hentries (.inr rfl)
          exact fun hid => absurd (hid.2.symm.trans huser) (by simp)
        · next huser =>
          rw [Bool.not_eq_false] at huser
          exact .known hconn hstate hcid ⟨hfound.mp rfl, huser⟩ hconns hentries
  · next hnot =>
    refine .ignored fun source cid hconn _ hcid => ?_
    exact hnot source cid hconn hcid

/-- Every way `processINF` can go once the user is known. -/
private inductive UserCase (s : CcpmState CID) (id : ConnId) (source : UserConn CID) (cid : CID)
    (inf : Inf CID) : CcpmState CID → Prop
  /-- The keyprint is not valid. -/
  | badKeyprint (hkeyprint : inf.keyprintOk = false) :
      UserCase s id source cid inf ((s.set id source).putConnection id)
  /-- There is another connection for private messages. -/
  | rejected (hkeyprint : inf.keyprintOk = true) (hccpm : (source.ccpm || inf.pm) = true)
      (hnot : s.recipient cid ≠ none ∨ s.ccpmConn cid = none) :
      UserCase s id source cid inf
        ((s.set id { source with ccpm := source.ccpm || inf.pm }).putConnection id)
  /-- The connection is entered. -/
  | entered {ci : PMConnInfo} (hkeyprint : inf.keyprintOk = true)
      (hccpm : (source.ccpm || inf.pm) = true) (hnone : s.recipient cid = none)
      (huc : ci.uc = some id) :
      UserCase s id source cid inf
        ({ s with ccpmConn := Function.update s.ccpmConn cid (some ci) }.set id
          { source with ccpm := source.ccpm || inf.pm, state := .ready })
  /-- The connection is one for transfers. -/
  | transfer (hkeyprint : inf.keyprintOk = true) (hccpm : (source.ccpm || inf.pm) = false) :
      UserCase s id source cid inf
        (s.set id { source with ccpm := source.ccpm || inf.pm, state := .ready })

private theorem processUser_cases (s : CcpmState CID) (id : ConnId) (source : UserConn CID)
    (cid : CID) (token : String) (inf : Inf CID) :
    UserCase s id source cid inf (s.processUser id source cid token inf) := by
  unfold processUser
  split
  · next hkeyprint => exact .badKeyprint hkeyprint
  · next hkeyprint =>
    rw [Bool.not_eq_false] at hkeyprint
    dsimp only
    split
    · next hccpm =>
      unfold register
      cases hci : s.ccpmConn cid with
      | none =>
        have hrecipient : s.recipient cid = none := by rw [recipient, hci]; rfl
        dsimp only
        split_ifs
        · exact .rejected hkeyprint hccpm (.inr hci)
        · exact .entered hkeyprint hccpm hrecipient rfl
      | some ci =>
        have hrecipient : s.recipient cid = ci.uc := by rw [recipient, hci]; rfl
        dsimp only
        split_ifs with huc
        · exact .entered hkeyprint hccpm (hrecipient.trans huc) rfl
        · exact .rejected hkeyprint hccpm (.inl (by rwa [hrecipient]))
    · next hccpm => exact .transfer hkeyprint (by simpa using hccpm)

private theorem inv_processUser (h : Inv s) {id : ConnId} {source : UserConn CID} {cid : CID}
    (token : String) (inf : Inf CID) (hrecipient : ∀ cid, s.recipient cid ≠ some id)
    (huser : source.user = some cid) : Inv (s.processUser id source cid token inf) := by
  have hcases := processUser_cases s id source cid token inf
  generalize s.processUser id source cid token inf = t at hcases ⊢
  cases hcases with
  | badKeyprint => exact inv_giveUp h hrecipient
  | rejected => exact inv_giveUp h hrecipient
  | transfer =>
    apply inv_set h hrecipient
    intro hstate
    rcases hstate with hstate | hstate <;> cases hstate
  | @entered ci hkeyprint hccpm hnone huc =>
    refine ⟨?_, ?_⟩
    · intro cid' i hi
      rw [recipient, set_ccpmConn] at hi
      rcases eq_or_ne cid' cid with rfl | hne
      · have hid : id = i := by simpa [huc] using hi
        rw [← hid, set_conns_self]
        exact ⟨_, rfl, rfl, huser, hccpm⟩
      · have hold : s.recipient cid' = some i := by
          dsimp only at hi
          rwa [Function.update_of_ne hne] at hi
        have hid : i ≠ id := by
          rintro rfl
          exact hrecipient cid' hold
        rw [set_conns_of_ne _ _ hid]
        exact h.entry cid' i hold
    · intro i conn hi hstate
      rcases eq_or_ne i id with rfl | hne
      · rw [set_conns_self] at hi
        cases hi
        rcases hstate with hstate | hstate <;> cases hstate
      · rw [set_conns_of_ne _ _ hne] at hi
        exact h.early i conn hi hstate

private theorem inv_processINF (h : Inv s) (id : ConnId) (inf : Inf CID) :
    Inv (s.processINF id inf) := by
  have hfree : ∀ source, s.conns id = some source → source.state = .inf →
      ∀ cid, s.recipient cid ≠ some id := by
    intro source hconn hstate
    apply h.recipient_ne
    intro conn hconn'
    rw [hconn] at hconn'
    cases hconn'
    rw [hstate]
    simp
  have hcases := processINF_cases s id inf
  generalize s.processINF id inf = t at hcases ⊢
  cases hcases with
  | ignored => exact h
  | @unknown s₁ source source₁ cid hconn hstate hcid hnot hconns hentries huser =>
    have h1 : Inv s₁ := h.same (fun cid i hi => by rwa [recipient_congr hentries] at hi) hconns
    refine inv_giveUp h1 fun cid => ?_
    rw [recipient_congr hentries]
    exact hfree source hconn hstate cid
  | @known s₁ source cid token hconn hstate hcid hidentified hconns hentries =>
    have h1 : Inv s₁ := h.same (fun cid i hi => by rwa [recipient_congr hentries] at hi) hconns
    refine inv_processUser h1 token inf (fun cid => ?_) rfl
    rw [recipient_congr hentries]
    exact hfree source hconn hstate cid

private theorem inv_step (h : Inv s) (e : CcpmEvent CID) : Inv (s.step e) := by
  cases e with
  | accept id =>
    rw [step, accept]
    split
    · exact h
    · next hnone => exact inv_set h (h.recipient_ne (by simp [hnone])) fun _ => rfl
  | adcConnect id token =>
    rw [step, adcConnect]
    split
    · exact h
    · next hnone => exact inv_set h (h.recipient_ne (by simp [hnone])) fun _ => rfl
  | handleSUP id cpmi =>
    rw [step, handleSUP]
    split
    · exact h
    · next conn hconn =>
      split
      · exact h
      · next hstate =>
        rw [ne_eq, not_not] at hstate
        apply inv_set h
        · apply h.recipient_ne
          intro conn' hconn'
          rw [hconn] at hconn'
          cases hconn'
          rw [hstate]
          simp
        · intro _
          exact h.early id conn hconn (.inl hstate)
  | processINF id inf => exact inv_processINF h id inf
  | putConnection id => exact inv_putConnection h id
  | connectCCPM cid token =>
    rw [step, connectCCPM]
    split
    · next hentry =>
      refine h.same ?_ rfl
      intro cid' i hi
      rw [recipient] at hi ⊢
      dsimp only at hi
      rcases eq_or_ne cid' cid with rfl | hne
      · simp at hi
      · rwa [Function.update_of_ne hne] at hi
    · exact h
  | disconnectCCPM cid =>
    rw [step, disconnectCCPM]
    split
    · exact h
    · exact h.same (fun _ _ hi => (recipient_erase rfl hi).1) rfl
  | expireToken token cid =>
    rw [step, expireToken]
    dsimp only
    split
    · exact h.same (fun _ _ hi => hi) rfl
    · split
      · exact h.same (fun _ _ hi => (recipient_erase rfl hi).1) rfl
      · exact h.same (fun _ _ hi => hi) rfl
  | removeUnused id =>
    rw [step, removeUnused]
    split
    · exact h
    · next conn hconn =>
      split
      · next hunused =>
        refine h.change id ?_ ?_ ?_
        · intro cid i hi
          refine ⟨hi, ?_⟩
          rintro rfl
          obtain ⟨conn', hconn', hready, -⟩ := h.entry cid i hi
          rw [hconn] at hconn'
          cases hconn'
          rw [hunused] at hready
          cases hready
        · intro i hne
          exact Function.update_of_ne hne ..
        · intro conn' hconn'
          simp at hconn'
      · exact h
  | addToken token type => exact h.same (fun _ _ hi => hi) rfl
  | expectAdc token cid =>
    rw [step]
    split
    · exact h.same (fun _ _ hi => hi) rfl
    · exact h
  | removeExpected token => exact h.same (fun _ _ hi => hi) rfl

/-! ### Closing a connection -/

omit [DecidableEq CID] in
private theorem seen_congr {cid : CID} (h : s'.ccpmConn cid = s.ccpmConn cid) :
    s'.ccpmConn cid = s.ccpmConn cid ∧ s'.getCCPMState cid = s.getCCPMState cid ∧
      s'.recipient cid = s.recipient cid := by
  refine ⟨h, ?_, ?_⟩
  · rw [getCCPMState, getCCPMState, h]
  · rw [recipient, recipient, h]

private theorem leavesOthers_of_same {e : CcpmEvent CID} (h : (s.step e).ccpmConn = s.ccpmConn) :
    s.LeavesOthers e :=
  fun _ _ cid _ => seen_congr (congrFun h cid)

/-- Where an entry is erased with a connection, it has to be the one of the connection. -/
private theorem leavesOthers_erase {e : CcpmEvent CID} {id : ConnId} {cid : CID}
    {conn : UserConn CID} (he : e = .putConnection id ∨ ∃ inf, e = .processINF id inf)
    (hentries : (s.step e).ccpmConn = Function.update s.ccpmConn cid none)
    (hconn : (s.step e).conns id = some conn) (hunused : conn.state = .unused) :
    s.LeavesOthers e ↔ s.ccpmConn cid = none ∨ s.recipient cid = some id := by
  constructor
  · intro h
    by_cases hown : s.recipient cid = some id
    · exact .inr hown
    · left
      have hsame := (h id ⟨he, conn, hconn, hunused⟩ cid hown).1
      rw [hentries, Function.update_self] at hsame
      exact hsame.symm
  · intro h id' hcloses cid' hother
    have hid : id' = id := by
      rcases hcloses.1 with heq | ⟨inf, heq⟩ <;> rcases he with heq' | ⟨inf', heq'⟩ <;>
        rw [heq] at heq' <;> cases heq' <;> rfl
    subst hid
    apply seen_congr
    rw [hentries]
    rcases eq_or_ne cid' cid with rfl | hne
    · rcases h with hnone | hown
      · rw [Function.update_self, hnone]
      · exact absurd hown hother
    · rw [Function.update_of_ne hne]

private theorem leavesOthers_putConnection (id : ConnId) :
    s.LeavesOthers (.putConnection id) ↔ s.OwnEntry (.putConnection id) := by
  cases hconn : s.conns id with
  | none =>
    have hsame : s.putConnection id = s := by simp only [putConnection, hconn]
    constructor
    · intro _ conn cid hconn'
      rw [hconn] at hconn'
      cases hconn'
    · intro _
      exact leavesOthers_of_same (by rw [step, hsame])
  | some conn =>
    have hentries := putConnection_entries hconn
    cases huser : conn.user with
    | none =>
      rw [huser] at hentries
      refine ⟨fun _ conn' cid hconn' _ huser' => ?_, fun _ => leavesOthers_of_same hentries⟩
      rw [hconn] at hconn'
      cases hconn'
      rw [huser] at huser'
      cases huser'
    | some cid =>
      rw [huser] at hentries
      dsimp only at hentries
      split at hentries
      · next hccpm =>
        have hafter : (s.putConnection id).conns id = some { conn with state := .unused } := by
          rw [putConnection_conns hconn, Function.update_self]
        rw [leavesOthers_erase (.inl rfl) hentries hafter rfl]
        constructor
        · intro h conn' cid' hconn' _ huser'
          rw [hconn] at hconn'
          cases hconn'
          rw [huser] at huser'
          cases huser'
          exact h
        · exact fun h => h conn cid hconn hccpm huser
      · next hccpm =>
        refine ⟨fun _ conn' cid' hconn' hccpm' => ?_, fun _ => leavesOthers_of_same hentries⟩
        rw [hconn] at hconn'
        cases hconn'
        exact absurd hccpm' hccpm

/-- A connection that was not entered is given up: with its user known and as one for private
messages it takes the entry of the user with it. -/
private theorem leavesOthers_giveUp {id : ConnId} {inf : Inf CID} {s₁ : CcpmState CID}
    {source : UserConn CID} {cid : CID} (hfree : s.recipient cid ≠ some id)
    (hstep : s.processINF id inf = (s₁.set id source).putConnection id)
    (hentries : s₁.ccpmConn = s.ccpmConn) (huser : source.user = some cid) :
    s.LeavesOthers (.processINF id inf) ↔ (source.ccpm = true → s.ccpmConn cid = none) := by
  have hset := set_conns_self s₁ id source
  have hafter := putConnection_entries hset
  rw [← hstep, huser] at hafter
  dsimp only at hafter
  rw [set_ccpmConn, hentries] at hafter
  split at hafter
  · next hccpm =>
    have hconn :
        (s.step (.processINF id inf)).conns id = some { source with state := .unused } := by
      rw [step, hstep, putConnection_conns hset, Function.update_self]
    rw [leavesOthers_erase (.inr ⟨inf, rfl⟩) hafter hconn rfl]
    simp [hccpm, hfree]
  · next hccpm =>
    refine ⟨fun _ hc => absurd hc hccpm, fun _ => leavesOthers_of_same hafter⟩

/-- A connection that goes on is not closed. -/
private theorem leavesOthers_of_ready {id : ConnId} {inf : Inf CID} {s₁ : CcpmState CID}
    {source : UserConn CID} (hstep : s.processINF id inf = s₁.set id source)
    (hready : source.state = .ready) : s.LeavesOthers (.processINF id inf) := by
  rintro id' ⟨he, conn, hconn, hunused⟩
  have hid : id' = id := by
    rcases he with heq | ⟨inf', heq⟩ <;> cases heq
    rfl
  subst hid
  rw [step, hstep, set_conns_self] at hconn
  cases hconn
  rw [hready] at hunused
  cases hunused

private theorem leavesOthers_processUser (h : Inv s) {id : ConnId} {inf : Inf CID}
    {s₁ : CcpmState CID} {source : UserConn CID} {cid : CID} {token : String}
    (hconn : s.conns id = some source) (hstate : source.state = .inf) (hcid : inf.cid = some cid)
    (hidentified : s.Identified source cid inf) (hentries : s₁.ccpmConn = s.ccpmConn)
    (hstep : s.processINF id inf = s₁.processUser id
      { source with ccpm := s.ccpmAfterToken source inf, user := some cid } cid token inf) :
    s.LeavesOthers (.processINF id inf) ↔ s.OwnEntry (.processINF id inf) := by
  have hfree : s.recipient cid ≠ some id := by
    apply h.recipient_ne
    intro conn hconn'
    rw [hconn] at hconn'
    cases hconn'
    rw [hstate]
    simp
  have hown : s.OwnEntry (.processINF id inf) ↔
      (inf.keyprintOk = false → s.ccpmAfterToken source inf = true → s.ccpmConn cid = none) ∧
        (inf.keyprintOk = true → (s.ccpmAfterToken source inf || inf.pm) = true →
          s.recipient cid = none) := by
    constructor
    · exact fun hall => hall source cid hconn hstate hcid hidentified
    · intro hone source' cid' hconn' _ hcid' _
      rw [hconn] at hconn'
      cases hconn'
      rw [hcid] at hcid'
      cases hcid'
      exact hone
  rw [hown]
  have hcases := processUser_cases s₁ id
    { source with ccpm := s.ccpmAfterToken source inf, user := some cid } cid token inf
  rw [← hstep] at hcases
  have hrecipient : s₁.recipient cid = s.recipient cid := recipient_congr hentries cid
  generalize ht : s.processINF id inf = t at hcases
  cases hcases with
  | badKeyprint hkeyprint =>
    rw [leavesOthers_giveUp hfree ht hentries rfl]
    simp [hkeyprint]
  | rejected hkeyprint hccpm hnot =>
    rw [leavesOthers_giveUp hfree ht hentries rfl]
    simp only [hkeyprint, hccpm, forall_const, Bool.true_eq_false, false_implies, true_and]
    rw [hrecipient, hentries] at hnot
    constructor
    · intro hnone
      rw [recipient, hnone]
      rfl
    · intro hnone
      exact hnot.resolve_left (not_not.mpr hnone)
  | entered hkeyprint hccpm hnone huc =>
    refine ⟨fun _ => ⟨?_, fun _ _ => hrecipient.symm.trans hnone⟩,
      fun _ => leavesOthers_of_ready ht rfl⟩
    simp [hkeyprint]
  | transfer hkeyprint hccpm =>
    refine ⟨fun _ => ⟨by simp [hkeyprint], fun _ hc => ?_⟩, fun _ => leavesOthers_of_ready ht rfl⟩
    rw [hccpm] at hc
    cases hc

private theorem leavesOthers_processINF (h : Inv s) (id : ConnId) (inf : Inf CID) :
    s.LeavesOthers (.processINF id inf) ↔ s.OwnEntry (.processINF id inf) := by
  have hcases := processINF_cases s id inf
  generalize ht : s.processINF id inf = t at hcases
  cases hcases with
  | ignored hnot =>
    refine ⟨fun _ source cid hconn hstate hcid => absurd hcid (hnot source cid hconn hstate),
      fun _ => leavesOthers_of_same ?_⟩
    rw [step, ht]
  | @unknown s₁ source source₁ cid hconn hstate hcid hnot hconns hentries huser =>
    refine ⟨fun _ source' cid' hconn' _ hcid' hid => ?_, fun _ => leavesOthers_of_same ?_⟩
    · rw [hconn] at hconn'
      cases hconn'
      rw [hcid] at hcid'
      cases hcid'
      exact absurd hid hnot
    · have hnone : source₁.user = none := by
        rcases huser with huser | huser
        · rw [huser]
          exact h.early id source hconn (.inr hstate)
        · exact huser
      have hafter := putConnection_entries (set_conns_self s₁ id source₁)
      rw [hnone, set_ccpmConn, hentries, ← ht] at hafter
      exact hafter
  | known hconn hstate hcid hidentified hconns hentries =>
    exact leavesOthers_processUser h hconn hstate hcid hidentified hentries ht

/-- In every state that is reached, the connection of an entry is a live connection of its user, and
a connection that is closed or rejected leaves the other entries alone exactly when it is not one
for private messages of a user with an entry that is not its own. -/
theorem leavesOthers_run (es : List (CcpmEvent CID)) (e : CcpmEvent CID) :
    LiveEntries (run step (init CID) es) ∧
      (LeavesOthers (run step (init CID) es) e ↔ OwnEntry (run step (init CID) es) e) := by
  have hinv : Inv (run step (init CID) es) :=
    run_invariant Inv (fun _ e h => inv_step h e) inv_init es
  refine ⟨?_, ?_⟩
  · intro cid id hid
    obtain ⟨conn, hconn, hready, huser, -⟩ := hinv.entry cid id hid
    exact ⟨conn, hconn, by simp [hready], huser⟩
  · cases e with
    | putConnection id => exact leavesOthers_putConnection id
    | processINF id inf => exact leavesOthers_processINF hinv id inf
    | _ =>
      refine ⟨fun _ => trivial, fun _ id hcloses => ?_⟩
      rcases hcloses.1 with heq | ⟨inf, heq⟩ <;> cases heq

/-- A connection for private messages is made, then the user makes another one, which is
rejected. -/
private def twoConnections : List (CcpmEvent Nat) :=
  [.connectCCPM 7 "t1", .adcConnect 0 "t1", .handleSUP 0 true,
    .processINF 0 ⟨some 7, none, true, true, true⟩,
    .expectAdc "t2" 7, .accept 1, .handleSUP 1 true]

/-- The second connection takes the entry of the first one with it, and no message can be sent
through the connection that is there. -/
theorem not_leavesOthers_second_connection :
    (run step (init Nat) twoConnections).recipient 7 = some 0 ∧
      (run step (init Nat) (twoConnections ++
        [CcpmEvent.processINF 1 ⟨some 7, some "t2", true, true, true⟩])).recipient 7 = none ∧
      ¬ LeavesOthers (run step (init Nat) twoConnections)
        (.processINF 1 ⟨some 7, some "t2", true, true, true⟩) := by
  refine ⟨rfl, rfl, ?_⟩
  intro h
  have hsame := (h 1 ⟨.inr ⟨_, rfl⟩, _, rfl, rfl⟩ 7 (by decide)).2.2
  revert hsame
  decide

end CcpmState

end Blacklink.Connections
