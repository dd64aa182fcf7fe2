import Blacklink.Base.Run
import Blacklink.Hub.OnlineUsers
import Blacklink.Share.ShareList

/-!
# The users of an ADC hub

Model of `AdcHub::getUser`, `addUser`, `putUser` and the messages that change the table: `INF`,
`QUI` and `STA` (`client/AdcHub.cpp:86-281, 581-612, 827-841`). The other messages look users up
only. A user is found by SID or, for an `INF` with an ID, by CID; a CID of zeros stands for the hub.
-/

namespace Blacklink.Hub

open Blacklink.Adc Blacklink.Base Blacklink.Share Blacklink.Text

/-- `AdcHub` with its table `users` by SID. -/
abbrev AdcHub := Client UInt32

namespace AdcHub

variable (h : AdcHub)

/-- `findUser` with a CID. -/
def findCID (cid : CID) : Option OnlineUserPtr :=
  (refs h.users).find? fun p => (h.identity p).cid = cid

/-- `addUser`. -/
def addUser (sid : UInt32) (cid : CID) : AdcHub × OnlineUserPtr :=
  if cid = .zero then h.insert sid hubOnlineUser
  else if cid = (h.identity myOnlineUser).cid then
    let (h, ou) := h.insert sid myOnlineUser
    (h.setIdentity ou { h.identity ou with sid := sid }, ou)
  else
    let (h, newUser) := h.makeOnlineUser ⟨cid, sid, 0⟩
    h.insert sid newUser

/-- `getUser`. -/
def getUser (sid : UInt32) (cid : CID) : AdcHub × OnlineUserPtr :=
  match h.findUser sid with
  | some ou => (h, ou)
  | none => addUser h sid cid

/-- The user an `INF` is about. -/
def infUser (c : AdcCommand) : AdcHub × Option OnlineUserPtr :=
  match c.getParam (ascii "ID") 0 with
  | some cidStr =>
    let cid := CID.fromBase32 cidStr
    match findCID h cid with
    | some ou => if (h.identity ou).sid ≠ c.sender then (h, none) else (h, some ou)
    | none =>
      match h.findUser c.sender with
      | some ou => (h, some ou)
      | none => (addUser h c.sender cid).map id some
  | none =>
    if c.sender = AdcCommand.hubSID then (getUser h c.sender .zero).map id some
    else (h, h.findUser c.sender)

/-- One field of an `INF`. -/
def infParam (ou : OnlineUserPtr) (h : AdcHub) (p : List UInt8) : AdcHub :=
  if p.take 2 = ascii "SS" then h.changeBytesShared ou (toInt64 (p.drop 2)) else h

/-- `handle(AdcCommand::INF)`. -/
def handleINF (c : AdcCommand) : AdcHub :=
  if c.parameters = [] then h
  else
    match infUser h c with
    | (h, none) => h
    | (h, some ou) => c.parameters.foldl (infParam ou) h

/-- `handle(AdcCommand::QUI)`. -/
def handleQUI (c : AdcCommand) : AdcHub :=
  let s := AdcCommand.toSID (c.paramAt 0)
  match h.findUser s with
  | some _ => h.putUser s
  | none => h

/-- `handle(AdcCommand::STA)`. -/
def handleSTA (c : AdcCommand) : AdcHub :=
  if c.parameters.length < 2 then h
  else if c.sender = AdcCommand.hubSID then (getUser h c.sender .zero).1
  else h

/-- `dispatch`. -/
def handle (c : AdcCommand) : AdcHub :=
  if c.cmdString = ascii "INF" then handleINF h c
  else if c.cmdString = ascii "QUI" then handleQUI h c
  else if c.cmdString = ascii "STA" then handleSTA h c
  else h

end AdcHub

/-- What happens to a hub: a message is read, the socket fails or is disconnected, a new one is
connected. -/
inductive AdcEvent where
  | message (c : AdcCommand)
  | failed
  | connect

namespace AdcHub

/-- One event. Messages come from a socket only. -/
def step (h : AdcHub) : AdcEvent → AdcHub
  | .message c => if h.running then handle h c else h
  | .failed => h.onFailed
  | .connect => h.connect

/-- The total is right, each user is under its own SID, and no two have one CID or are one
object. -/
structure Consistent (h : AdcHub) : Prop where
  sums : h.SumsShared
  ownSID : ∀ sid p, h.findUser sid = some p → (h.identity p).sid = sid
  cids : ((refs h.users).map fun p => (h.identity p).cid).Nodup
  objects : (refs h.users).Nodup

/-- The CID with which a message calls `addUser`. -/
def added (h : AdcHub) (c : AdcCommand) : Option CID :=
  if c.cmdString = ascii "INF" then
    match c.getParam (ascii "ID") 0 with
    | some cidStr =>
      if findCID h (.fromBase32 cidStr) = none ∧ h.findUser c.sender = none then
        some (.fromBase32 cidStr)
      else none
    | none =>
      if c.parameters ≠ [] ∧ c.sender = AdcCommand.hubSID ∧ h.findUser c.sender = none then
        some .zero
      else none
  else if c.cmdString = ascii "STA" then
    if 2 ≤ c.parameters.length ∧ c.sender = AdcCommand.hubSID ∧ h.findUser c.sender = none then
      some .zero
    else none
  else none

/-- The identity of the hub comes in under the hub's SID, and it and our own have nothing from
before. -/
def Blank (h : AdcHub) (sid : UInt32) (cid : CID) : Prop :=
  if cid = .zero then sid = AdcCommand.hubSID ∧ h.shared hubOnlineUser = 0
  else cid = (h.identity myOnlineUser).cid → h.shared myOnlineUser = 0

/-- A message brings no identity back with what it had. -/
def AddsBlank (h : AdcHub) : AdcEvent → Prop
  | .message c => h.running → ∀ cid ∈ added h c, Blank h c.sender cid
  | _ => True

instance (h : AdcHub) (sid : UInt32) (cid : CID) : Decidable (Blank h sid cid) :=
  inferInstanceAs (Decidable (
    if cid = .zero then sid = AdcCommand.hubSID ∧ h.shared hubOnlineUser = 0
    else cid = (h.identity myOnlineUser).cid → h.shared myOnlineUser = 0))

instance (h : AdcHub) : ∀ e, Decidable (AddsBlank h e)
  | .message c => inferInstanceAs (Decidable (_ → ∀ cid ∈ added h c, Blank h c.sender cid))
  | .failed => isTrue True.intro
  | .connect => isTrue True.intro

/-! ### What the messages keep -/

/-- The identities that are made once, and what the table says about all of them. -/
structure Inv (myCID : CID) (h : AdcHub) : Prop where
  linked : h.Linked
  sums : h.SumsShared
  cidMy : (h.identity myOnlineUser).cid = myCID
  cidHub : (h.identity hubOnlineUser).cid = .zero
  sidHub : (h.identity hubOnlineUser).sid = AdcCommand.hubSID
  madeCID : ∀ p, 2 ≤ p → p < h.created → (h.identity p).cid ≠ .zero
  ownSID : ∀ sid p, h.findUser sid = some p → (h.identity p).sid = sid
  cids : ((refs h.users).map fun p => (h.identity p).cid).Nodup
  myEntry : myOnlineUser ∈ refs h.users → myCID ≠ .zero
  idle : h.running = false → h.users = ∅

variable {h : AdcHub} {myCID : CID}

theorem Inv.consistent (hi : Inv myCID h) : Consistent h :=
  ⟨hi.sums, hi.ownSID, hi.cids, hi.linked.nodup⟩

theorem inv_new : Inv myCID (Client.new myCID) where
  linked := ⟨List.nodup_nil, fun _ hp => (List.not_mem_nil hp).elim, le_rfl⟩
  sums := rfl
  cidMy := rfl
  cidHub := rfl
  sidHub := rfl
  madeCID := fun p hlow hhigh => absurd hlow (Nat.not_le.mpr hhigh)
  ownSID := by
    intro sid p hfind
    cases hfind
  cids := List.nodup_nil
  myEntry := fun hmem => (List.not_mem_nil hmem).elim
  idle := fun _ => rfl

/-- A user with the CID of the hub is the hub itself. -/
theorem Inv.eq_hub (hi : Inv myCID h) {p : OnlineUserPtr} (hp : p ∈ refs h.users)
    (hzero : (h.identity p).cid = .zero) : p = hubOnlineUser := by
  have hlt := hi.linked.made p hp
  rcases p with _ | _ | p
  · exact absurd (hi.cidMy.symm.trans hzero) (hi.myEntry hp)
  · rfl
  · exact absurd hzero (hi.madeCID _ (by omega) hlt)

theorem Inv.changeBytesShared (hi : Inv myCID h) {p : OnlineUserPtr} (hp : p ∈ refs h.users)
    (bytes : Int) : Inv myCID (h.changeBytesShared p bytes) where
  linked := hi.linked.changeBytesShared p bytes
  sums := hi.sums.changeBytesShared hi.linked hp bytes
  cidMy := (Client.cid_changeBytesShared p _ bytes).trans hi.cidMy
  cidHub := (Client.cid_changeBytesShared p _ bytes).trans hi.cidHub
  sidHub := (Client.sid_changeBytesShared p _ bytes).trans hi.sidHub
  madeCID := by
    intro q hlow hhigh
    rw [Client.cid_changeBytesShared]
    exact hi.madeCID q hlow hhigh
  ownSID := by
    intro sid q hfind
    rw [Client.sid_changeBytesShared]
    exact hi.ownSID sid q hfind
  cids := by
    simp only [Client.cid_changeBytesShared]
    exact hi.cids
  myEntry := hi.myEntry
  idle := hi.idle

theorem Inv.clearUsers (hi : Inv myCID h) : Inv myCID h.clearUsers where
  linked := hi.linked.clearUsers
  sums := Client.sumsShared_clearUsers
  cidMy := (Client.cid_clearUsers _).trans hi.cidMy
  cidHub := (Client.cid_clearUsers _).trans hi.cidHub
  sidHub := (Client.sid_clearUsers _).trans hi.sidHub
  madeCID := by
    intro q hlow hhigh
    rw [Client.cid_clearUsers]
    exact hi.madeCID q hlow hhigh
  ownSID := by
    intro sid q hfind
    cases hfind
  cids := List.nodup_nil
  myEntry := fun hmem => (List.not_mem_nil hmem).elim
  idle := fun _ => rfl

theorem Inv.onFailed (hi : Inv myCID h) : Inv myCID h.onFailed ∧ h.onFailed.users = ∅ := by
  unfold Client.onFailed
  split
  · have hc := hi.clearUsers
    exact ⟨⟨⟨hc.linked.nodup, hc.linked.made, hc.linked.default⟩, hc.sums, hc.cidMy, hc.cidHub,
      hc.sidHub, hc.madeCID, hc.ownSID, hc.cids, hc.myEntry, fun _ => rfl⟩, rfl⟩
  · next hrun => exact ⟨hi, hi.idle (Bool.not_eq_true _ ▸ hrun)⟩

/-- The table is empty when a socket is connected. -/
theorem Inv.connect (hi : Inv myCID h) : Inv myCID h.connect := by
  obtain ⟨hc, hempty⟩ := hi.onFailed
  refine ⟨⟨hc.linked.nodup, hc.linked.made, hc.linked.default⟩, ?_, hc.cidMy, hc.cidHub,
    hc.sidHub, hc.madeCID, hc.ownSID, hc.cids, hc.myEntry, fun hrun => nomatch hrun⟩
  change 0 = Int.bmod (tableSum h.onFailed.shared h.onFailed.users) (2 ^ 64)
  rw [hempty]
  rfl

theorem Inv.putUser (hi : Inv myCID h) (sid : UInt32) : Inv myCID (h.putUser sid) := by
  have hlinked := hi.linked.putUser sid
  have hsums := hi.sums.putUser sid
  unfold Client.putUser at hlinked hsums ⊢
  split
  · exact hi
  · next p hp =>
    rw [hp] at hlinked hsums
    have hperm := refs_erase hp
    constructor
    · exact hlinked
    · exact hsums
    · exact hi.cidMy
    · exact hi.cidHub
    · exact hi.sidHub
    · exact hi.madeCID
    · intro sid' q hfind
      apply hi.ownSID
      have hne : sid' ≠ sid := by
        rintro rfl
        rw [Client.findUser] at hfind
        change (h.users.erase sid').lookup sid' = some q at hfind
        rw [AList.lookup_erase] at hfind
        cases hfind
      exact (AList.lookup_erase_ne hne).symm.trans hfind
    · have hcids := (hperm.map fun p => (h.identity p).cid).nodup_iff.mp hi.cids
      rw [List.map_cons] at hcids
      exact (List.nodup_cons.mp hcids).2
    · intro hmem
      exact hi.myEntry (hperm.mem_iff.mpr (List.mem_cons_of_mem p hmem))
    · intro hrun
      rw [hi.idle hrun] at hp
      cases hp

/-! ### A user is added -/

/-- Nobody of the table has the CID. -/
def NewCID (h : AdcHub) (cid : CID) : Prop := ∀ p ∈ refs h.users, (h.identity p).cid ≠ cid

theorem newCID_iff {cid : CID} : NewCID h cid ↔ findCID h cid = none := by
  rw [NewCID, findCID, List.find?_eq_none]
  simp

/-- Under the SID of the hub there is nobody else with its CID. -/
theorem Inv.newCID_zero (hi : Inv myCID h) (hfind : h.findUser AdcCommand.hubSID = none) :
    NewCID h .zero := by
  intro p hp hzero
  have hhub := hi.eq_hub hp hzero
  subst hhub
  obtain ⟨sid, hsid⟩ := mem_refs_iff.mp hp
  have hown : (h.identity hubOnlineUser).sid = sid := hi.ownSID sid _ hsid
  rw [hi.sidHub] at hown
  rw [Client.findUser, hown, hsid] at hfind
  cases hfind

/-- An object whose identity has nothing shared is put under its own SID. -/
theorem Inv.insert (hi : Inv myCID h) {sid : UInt32} {p : OnlineUserPtr}
    (hrun : h.running = true) (hfind : h.findUser sid = none) (hmade : p < h.created)
    (hsid : (h.identity p).sid = sid) (hshared : h.shared p = 0)
    (hnew : NewCID h (h.identity p).cid) (hmy : p = myOnlineUser → myCID ≠ .zero) :
    Inv myCID (h.insert sid p).1 ∧ p ∈ refs (h.insert sid p).1.users ∧
      (h.insert sid p).2 = p := by
  have hout : p ∉ refs h.users := fun hmem => hnew p hmem rfl
  have hlinked := hi.linked.insert hout hmade sid
  have hsums := hi.sums.insert hshared sid
  have hrefs : refs (h.users.insert sid p) = p :: refs h.users := refs_insert hfind p
  rw [Client.insert_of_none _ hfind] at hlinked hsums ⊢
  refine ⟨?_, ?_, rfl⟩
  · constructor
    · exact hlinked
    · exact hsums
    · exact hi.cidMy
    · exact hi.cidHub
    · exact hi.sidHub
    · exact hi.madeCID
    · intro sid' q hfind'
      change (h.users.insert sid p).lookup sid' = some q at hfind'
      by_cases hs : sid' = sid
      · subst hs
        rw [AList.lookup_insert] at hfind'
        cases hfind'
        exact hsid
      · rw [AList.lookup_insert_ne hs] at hfind'
        exact hi.ownSID sid' q hfind'
    · change ((refs (h.users.insert sid p)).map fun p => (h.identity p).cid).Nodup
      rw [hrefs, List.map_cons, List.nodup_cons]
      refine ⟨?_, hi.cids⟩
      intro hmem
      obtain ⟨q, hq, heq⟩ := List.mem_map.mp hmem
      exact hnew q hq heq
    · change myOnlineUser ∈ refs (h.users.insert sid p) → _
      rw [hrefs]
      intro hmem
      rcases List.mem_cons.mp hmem with hp | hmem
      · exact hmy hp.symm
      · exact hi.myEntry hmem
    · intro hidle
      exact absurd hrun (Bool.not_eq_true _ ▸ hidle)
  · rw [hrefs]
    exact List.mem_cons_self

/-- Our own identity is changed while it is not in the table. -/
theorem Inv.setIdentity (hi : Inv myCID h) (hout : myOnlineUser ∉ refs h.users) {id : Identity}
    (hid : id.cid = myCID) : Inv myCID (h.setIdentity myOnlineUser id) := by
  have hother : ∀ p ∈ refs h.users,
      (h.setIdentity myOnlineUser id).identity p = h.identity p := by
    intro p hp
    apply Client.identity_setIdentity_of_ne
    rintro rfl
    exact hout hp
  constructor
  · exact ⟨hi.linked.nodup, hi.linked.made, hi.linked.default⟩
  · refine hi.sums.trans (congrArg (Int.bmod · (2 ^ 64)) ?_)
    apply tableSum_congr
    intro p hp
    exact congrArg Identity.bytesShared (hother p hp).symm
  · rw [Client.identity_setIdentity_self]
    exact hid
  · exact hi.cidHub
  · exact hi.sidHub
  · intro p hlow hhigh
    have hp : p ≠ myOnlineUser := by
      rintro rfl
      cases hlow
    rw [Client.identity_setIdentity_of_ne _ hp]
    exact hi.madeCID p hlow hhigh
  · intro sid' p hfind
    rw [hother p (mem_refs_iff.mpr ⟨sid', hfind⟩)]
    exact hi.ownSID sid' p hfind
  · have hmap : (refs h.users).map (fun p =>
        ((h.setIdentity myOnlineUser id).identity p).cid) =
          (refs h.users).map fun p => (h.identity p).cid :=
      List.map_congr_left fun p hp => congrArg Identity.cid (hother p hp)
    exact hmap ▸ hi.cids
  · exact hi.myEntry
  · exact hi.idle

theorem identity_makeOnlineUser {p : OnlineUserPtr} (hp : p < h.created) (id : Identity) :
    (h.makeOnlineUser id).1.identity p = h.identity p :=
  Client.identity_setIdentity_of_ne _ hp.ne _

theorem Inv.makeOnlineUser (hi : Inv myCID h) {id : Identity} (hcid : id.cid ≠ .zero) :
    Inv myCID (h.makeOnlineUser id).1 := by
  have hmy : myOnlineUser < h.created := lt_of_lt_of_le Nat.zero_lt_two hi.linked.default
  have hhub : hubOnlineUser < h.created := lt_of_lt_of_le Nat.one_lt_two hi.linked.default
  constructor
  · exact hi.linked.makeOnlineUser _
  · exact hi.sums.makeOnlineUser hi.linked _
  · rw [identity_makeOnlineUser hmy]
    exact hi.cidMy
  · rw [identity_makeOnlineUser hhub]
    exact hi.cidHub
  · rw [identity_makeOnlineUser hhub]
    exact hi.sidHub
  · intro p hlow hhigh
    by_cases hp : p = h.created
    · subst hp
      rw [Client.makeOnlineUser, Client.identity_setIdentity_self]
      exact hcid
    · have hlt : p < h.created := lt_of_le_of_ne (Nat.lt_succ_iff.mp hhigh) hp
      rw [identity_makeOnlineUser hlt]
      exact hi.madeCID p hlow hlt
  · intro sid' p hfind
    rw [identity_makeOnlineUser (hi.linked.made p (mem_refs_iff.mpr ⟨sid', hfind⟩))]
    exact hi.ownSID sid' p hfind
  · have hmap : (refs h.users).map (fun p => ((h.makeOnlineUser id).1.identity p).cid) =
          (refs h.users).map fun p => (h.identity p).cid :=
      List.map_congr_left fun p hp =>
        congrArg Identity.cid (identity_makeOnlineUser (hi.linked.made p hp) id)
    exact hmap ▸ hi.cids
  · exact hi.myEntry
  · exact hi.idle

private theorem setIdentity_insert {sid : UInt32} {p : OnlineUserPtr}
    (hfind : h.findUser sid = none) (id : Identity) :
    (h.insert sid p).1.setIdentity p id = ((h.setIdentity p id).insert sid p).1 := by
  have hfind' : (h.setIdentity p id).findUser sid = none := hfind
  rw [Client.insert_of_none _ hfind, Client.insert_of_none _ hfind']
  rfl

/-- What `addUser` keeps, where it has something to add. -/
theorem Inv.addUser (hi : Inv myCID h) (hrun : h.running = true) {sid : UInt32} {cid : CID}
    (hfind : h.findUser sid = none) (hnew : NewCID h cid) (hblank : Blank h sid cid) :
    Inv myCID (addUser h sid cid).1 ∧ (addUser h sid cid).2 ∈ refs (addUser h sid cid).1.users := by
  have hmade : hubOnlineUser < h.created := lt_of_lt_of_le Nat.one_lt_two hi.linked.default
  unfold AdcHub.addUser
  unfold Blank at hblank
  split
  · next hzero =>
    rw [if_pos hzero] at hblank
    obtain ⟨hsid, hshared⟩ := hblank
    obtain ⟨hinv, hmem, hp⟩ := hi.insert hrun hfind hmade (hi.sidHub.trans hsid.symm) hshared
      (by rw [hi.cidHub, ← hzero]; exact hnew) (fun hmy => nomatch hmy)
    rw [hp]
    exact ⟨hinv, hmem⟩
  · next hzero =>
    rw [if_neg hzero] at hblank
    split
    · next hown =>
      -- The SID is set behind the insertion, which does not see it.
      have hout : myOnlineUser ∉ refs h.users := fun hmem => hnew _ hmem hown.symm
      have hp : (h.insert sid myOnlineUser).2 = myOnlineUser := by
        rw [Client.insert_of_none _ hfind]
      have hid : (h.insert sid myOnlineUser).1.identity = h.identity := by
        rw [Client.insert_of_none _ hfind]
      dsimp only
      rw [hp, hid, setIdentity_insert hfind]
      have hset : Inv myCID
          (h.setIdentity myOnlineUser { h.identity myOnlineUser with sid := sid }) :=
        hi.setIdentity hout hi.cidMy
      obtain ⟨hinv, hmem, -⟩ := hset.insert (p := myOnlineUser) hrun hfind
        (Nat.zero_lt_one.trans hmade) (by rw [Client.identity_setIdentity_self])
        (by rw [Client.shared, Client.identity_setIdentity_self]; exact hblank hown)
        (by
          intro q hq
          rw [Client.identity_setIdentity_self]
          have hne : q ≠ myOnlineUser := by
            rintro rfl
            exact hout hq
          rw [Client.identity_setIdentity_of_ne _ hne, ← hown]
          exact hnew q hq)
        (fun _ => hi.cidMy ▸ hown ▸ hzero)
      exact ⟨hinv, hmem⟩
    · have hmake : Inv myCID (h.makeOnlineUser ⟨cid, sid, 0⟩).1 := hi.makeOnlineUser hzero
      have hfind' : (h.makeOnlineUser ⟨cid, sid, 0⟩).1.findUser sid = none := hfind
      have hnext : h.created < (h.makeOnlineUser ⟨cid, sid, 0⟩).1.created := Nat.lt_succ_self _
      obtain ⟨hinv, hmem, hp⟩ := hmake.insert hrun hfind' hnext
        (by rw [Client.makeOnlineUser, Client.identity_setIdentity_self])
        (by rw [Client.shared, Client.makeOnlineUser, Client.identity_setIdentity_self])
        (by
          intro q hq
          rw [identity_makeOnlineUser (hi.linked.made q hq), Client.makeOnlineUser,
            Client.identity_setIdentity_self]
          exact hnew q hq)
        (by
          rintro hmy
          exact absurd (hmy ▸ hmade) (Nat.not_lt_zero _))
      change Inv myCID ((h.makeOnlineUser ⟨cid, sid, 0⟩).1.insert sid h.created).1 ∧
        ((h.makeOnlineUser ⟨cid, sid, 0⟩).1.insert sid h.created).2 ∈ _
      rw [hp]
      exact ⟨hinv, hmem⟩

/-! ### The messages -/

/-- The hub's own entry is found or added. -/
theorem Inv.getUser (hi : Inv myCID h) (hrun : h.running = true)
    (hblank : h.findUser AdcCommand.hubSID = none → Blank h AdcCommand.hubSID .zero) :
    Inv myCID (getUser h AdcCommand.hubSID .zero).1 ∧
      (getUser h AdcCommand.hubSID .zero).2 ∈
        refs (getUser h AdcCommand.hubSID .zero).1.users := by
  unfold AdcHub.getUser
  split
  · next ou hfind => exact ⟨hi, mem_refs_iff.mpr ⟨_, hfind⟩⟩
  · next hfind => exact hi.addUser hrun hfind (hi.newCID_zero hfind) (hblank hfind)

theorem mem_of_findCID {cid : CID} {p : OnlineUserPtr} (hfind : findCID h cid = some p) :
    p ∈ refs h.users :=
  List.mem_of_find?_eq_some hfind

theorem Inv.infUser (hi : Inv myCID h) (hrun : h.running = true) {c : AdcCommand}
    (hcmd : c.cmdString = ascii "INF") (hparams : c.parameters ≠ [])
    (hblank : ∀ cid ∈ added h c, Blank h c.sender cid) :
    Inv myCID (infUser h c).1 ∧ ∀ ou ∈ (infUser h c).2, ou ∈ refs (infUser h c).1.users := by
  unfold added at hblank
  rw [if_pos hcmd] at hblank
  unfold AdcHub.infUser
  split
  · next cidStr hid =>
    rw [hid] at hblank
    dsimp only at hblank ⊢
    split
    · next ou hcid =>
      split
      · exact ⟨hi, fun _ hou => nomatch hou⟩
      · refine ⟨hi, ?_⟩
        rintro _ ⟨⟩
        exact mem_of_findCID hcid
    · next hcid =>
      split
      · next ou hfind =>
        refine ⟨hi, ?_⟩
        rintro _ ⟨⟩
        exact mem_refs_iff.mpr ⟨_, hfind⟩
      · next hfind =>
        rw [if_pos ⟨hcid, hfind⟩] at hblank
        obtain ⟨hinv, hmem⟩ := hi.addUser hrun hfind (newCID_iff.mpr hcid) (hblank _ rfl)
        refine ⟨hinv, ?_⟩
        rintro _ ⟨⟩
        exact hmem
  · next hid =>
    rw [hid] at hblank
    dsimp only at hblank
    split
    · next hsender =>
      rw [hsender] at hblank ⊢
      obtain ⟨hinv, hmem⟩ := hi.getUser hrun fun hfind =>
        hblank _ (by rw [if_pos ⟨hparams, rfl, hfind⟩]; rfl)
      refine ⟨hinv, ?_⟩
      rintro _ ⟨⟩
      exact hmem
    · refine ⟨hi, fun ou hou => mem_refs_iff.mpr ⟨_, hou⟩⟩

/-- Each field of an `INF` changes at most what its user shares. -/
theorem Inv.infParams (hi : Inv myCID h) {ou : OnlineUserPtr} (hou : ou ∈ refs h.users)
    (ps : List (List UInt8)) : Inv myCID (ps.foldl (infParam ou) h) := by
  induction ps generalizing h with
  | nil => exact hi
  | cons p ps ih =>
    rw [List.foldl_cons, infParam]
    split
    · exact ih (hi.changeBytesShared hou _) hou
    · exact ih hi hou

theorem Inv.handle (hi : Inv myCID h) (hrun : h.running = true) {c : AdcCommand}
    (hblank : ∀ cid ∈ added h c, Blank h c.sender cid) : Inv myCID (handle h c) := by
  unfold AdcHub.handle
  split
  · next hcmd =>
    unfold handleINF
    split
    · exact hi
    · next hparams =>
      obtain ⟨hinv, hmem⟩ := hi.infUser hrun hcmd hparams hblank
      generalize AdcHub.infUser h c = r at hinv hmem ⊢
      rcases r with ⟨h', _ | ou⟩
      · exact hinv
      · exact hinv.infParams (hmem ou rfl) _
  · next hcmd =>
    unfold added at hblank
    rw [if_neg hcmd] at hblank
    split
    · unfold handleQUI
      dsimp only
      split
      · exact hi.putUser _
      · exact hi
    · split
      · next hsta =>
        rw [if_pos hsta] at hblank
        unfold handleSTA
        split
        · exact hi
        · next hlen =>
          split
          · next hsender =>
            rw [hsender] at hblank ⊢
            refine (hi.getUser hrun fun hfind => hblank _ ?_).1
            rw [if_pos ⟨not_lt.mp hlen, rfl, hfind⟩]
            rfl
          · exact hi
      · exact hi

theorem Inv.step (hi : Inv myCID h) {e : AdcEvent} (hblank : AddsBlank h e) :
    Inv myCID (step h e) := by
  cases e with
  | message c =>
    unfold AdcHub.step
    dsimp only
    split
    · next hrun => exact hi.handle hrun (hblank hrun)
    · exact hi
  | failed => exact hi.onFailed.1
  | connect => exact hi.connect

/-- In a run whose messages bring no identity back with what it had, the table and its total are
consistent. -/
theorem consistent_of_within {es : List AdcEvent}
    (hes : Within AddsBlank step (Client.new myCID) es) :
    Consistent (run step (Client.new myCID) es) :=
  (hes.invariant (Inv myCID) (fun _ _ hi hblank => hi.step hblank) inv_new).consistent

end AdcHub

end Blacklink.Hub
