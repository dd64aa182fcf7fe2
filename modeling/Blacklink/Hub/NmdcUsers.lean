import Blacklink.Base.Run
import Blacklink.Hub.OnlineUsers
import Blacklink.Text.Numbers
import Blacklink.Text.Split

/-!
# The users of an NMDC hub

Model of `NmdcHub::getUser`, `putUser` and `clearUsers` with the messages that call them
(`client/NmdcHub.cpp:103-143, 145-271, 1264-1274, 1328-1416, 1606-1625, 1704-1717, 2508-2602`).
Users are found by nick, and our own nick stays what it is between two calls of `connect`. `makeCid`
is the hash of a nick and the hub's address.
-/

namespace Blacklink.Hub

open Blacklink.Base Blacklink.Share Blacklink.Text

/-- `NmdcHub` with its table `users` by nick. -/
structure NmdcHub where
  client : Client (List UInt8)
  myNick : List UInt8

/-- The lines that call `getUser` or `putUser`. A parameter is in UTF-8. -/
inductive NmdcMessage where
  | myINFO (param : List UInt8)
  | hello (param : List UInt8)
  | nickList (param : List UInt8)
  | opList (param : List UInt8)
  | botList (param : List UInt8)
  | getPass
  | quit (param : List UInt8)

/-- What happens to a hub. `refresh` is `refreshUserList(false)`; `connect` reads our nick from the
settings. -/
inductive NmdcEvent where
  | message (m : NmdcMessage)
  | refresh
  | disconnect
  | failed
  | connect (nick : List UInt8)

/-- The tokens between two `$`; `cur` is the one that has begun. -/
def sliceDollars : List UInt8 → List UInt8 → List (List UInt8)
  | 0x24 :: 0x24 :: s, cur => cur :: sliceDollars s []
  | c :: s, cur => sliceDollars s (cur ++ [c])
  | [], cur => if cur = [] then [] else [cur]

namespace NmdcHub

variable (makeCid : List UInt8 → CID)

/-- The hub behind its constructor and `initDefaultUsers`. -/
def new (myCID : CID) : NmdcHub := ⟨Client.new myCID, []⟩

variable (h : NmdcHub)

/-- `getUser`. -/
def getUser (nick : List UInt8) : NmdcHub × OnlineUserPtr :=
  if nick = h.myNick then
    let (client, ou) := h.client.insert nick myOnlineUser
    ({ h with client := client }, ou)
  else
    match h.client.findUser nick with
    | some ou => (h, ou)
    | none =>
      let (client, ou) := h.client.makeOnlineUser ⟨makeCid nick, 0, 0⟩
      let (client, ou) := client.insert nick ou
      ({ h with client := client }, ou)

/-- The nick of a `MyINFO`, and where what follows it begins. -/
def myInfoNick (param : List UInt8) : Option (List UInt8 × Nat) :=
  match find param 0x20 5 with
  | none => none
  | some j => if j = 5 then none else some (substr param 5 j, j + 1)

/-- The share size of a `MyINFO`, if the line goes on that far. -/
def myInfoShare (param : List UInt8) (i : Nat) : Option Int := do
  let j ← find param 0x24 i
  let j ← find param 0x24 (j + 3)
  let j ← find param 0x24 (j + 1)
  let _ ← find param 0x24 (j + 1)
  some (max 0 (toInt64 (param.drop (j + 1))))

/-- `myInfoParse`. -/
def myInfoParse (param : List UInt8) : NmdcHub :=
  match myInfoNick param with
  | none => h
  | some (nick, i) =>
    let (h, ou) := getUser makeCid h nick
    match myInfoShare param i with
    | none => h
    | some shareSize => { h with client := h.client.changeBytesShared ou shareSize }

/-- `helloParse`. -/
def helloParse (param : List UInt8) : NmdcHub :=
  if param = [] then h else (getUser makeCid h param).1

/-- The loop over the nicks of `nickListParse`, `opListParse` and `botListParse`. -/
def getUsers (param : List UInt8) : NmdcHub :=
  ((sliceDollars param []).filter (· ≠ [])).foldl (fun h nick => (getUser makeCid h nick).1) h

/-- `putUser`. -/
def putUser (nick : List UInt8) : NmdcHub := { h with client := h.client.putUser nick }

/-- `onLine`. -/
def onLine : NmdcMessage → NmdcHub
  | .myINFO param => myInfoParse makeCid h param
  | .hello param => helloParse makeCid h param
  | .nickList param | .opList param | .botList param => getUsers makeCid h param
  | .getPass => (getUser makeCid h h.myNick).1
  | .quit param => if param = [] then h else putUser h param

/-- One event. Messages come from a socket only. -/
def step : NmdcEvent → NmdcHub
  | .message m => if h.client.running then onLine makeCid h m else h
  | .refresh => { h with client := h.client.clearUsers }
  | .disconnect => { h with client := h.client.clearUsers }
  | .failed => { h with client := h.client.onFailed }
  | .connect nick => ⟨h.client.connect, nick⟩

/-- The nicks `getUser` is called with. -/
def named : NmdcMessage → List (List UInt8)
  | .myINFO param => (myInfoNick param).toList.map Prod.fst
  | .hello param => if param = [] then [] else [param]
  | .nickList param | .opList param | .botList param => (sliceDollars param []).filter (· ≠ [])
  | .getPass => [h.myNick]
  | .quit _ => []

/-- A message does not bring our identity back with what it had. -/
def AddsBlank : NmdcEvent → Prop
  | .message m => h.client.running → h.myNick ∈ named h m →
      h.client.findUser h.myNick = none → h.client.shared myOnlineUser = 0
  | _ => True

instance : ∀ e, Decidable (AddsBlank h e)
  | .message m => inferInstanceAs (Decidable (_ → h.myNick ∈ named h m → _ → _))
  | .refresh => isTrue True.intro
  | .disconnect => isTrue True.intro
  | .failed => isTrue True.intro
  | .connect _ => isTrue True.intro

/-! ### What the messages keep -/

/-- Our own user is in the table at most under our own nick. -/
structure Inv (h : NmdcHub) : Prop where
  linked : h.client.Linked
  sums : h.client.SumsShared
  ownNick : myOnlineUser ∈ refs h.client.users → h.client.findUser h.myNick = some myOnlineUser
  idle : h.client.running = false → h.client.users = ∅

variable {makeCid : List UInt8 → CID} {h : NmdcHub}

theorem inv_new (myCID : CID) : Inv (new myCID) where
  linked := ⟨List.nodup_nil, fun _ hp => (List.not_mem_nil hp).elim, le_rfl⟩
  sums := rfl
  ownNick := fun hmem => (List.not_mem_nil hmem).elim
  idle := fun _ => rfl

theorem Inv.changeBytesShared (hi : Inv h) {p : OnlineUserPtr} (hp : p ∈ refs h.client.users)
    (bytes : Int) : Inv { h with client := h.client.changeBytesShared p bytes } :=
  ⟨hi.linked.changeBytesShared p bytes, hi.sums.changeBytesShared hi.linked hp bytes, hi.ownNick,
    hi.idle⟩

theorem Inv.clearUsers (hi : Inv h) : Inv { h with client := h.client.clearUsers } :=
  ⟨hi.linked.clearUsers, Client.sumsShared_clearUsers, fun hmem => (List.not_mem_nil hmem).elim,
    fun _ => rfl⟩

theorem Inv.onFailed (hi : Inv h) :
    Inv { h with client := h.client.onFailed } ∧ h.client.onFailed.users = ∅ := by
  have hempty : h.client.onFailed.users = ∅ := by
    unfold Client.onFailed
    split
    · rfl
    · next hrun => exact hi.idle (Bool.not_eq_true _ ▸ hrun)
  refine ⟨⟨hi.linked.onFailed, hi.sums.onFailed, ?_, fun _ => hempty⟩, hempty⟩
  intro hmem
  change myOnlineUser ∈ refs h.client.onFailed.users at hmem
  rw [hempty] at hmem
  cases hmem

/-- The table is empty when a socket is connected and our nick may change. -/
theorem Inv.connect (hi : Inv h) (nick : List UInt8) : Inv ⟨h.client.connect, nick⟩ := by
  obtain ⟨hf, hempty⟩ := hi.onFailed
  refine ⟨⟨hf.linked.nodup, hf.linked.made, hf.linked.default⟩, ?_, ?_, fun hrun => nomatch hrun⟩
  · change 0 = Int.bmod (tableSum h.client.onFailed.shared h.client.onFailed.users) (2 ^ 64)
    rw [hempty]
    rfl
  · intro hmem
    change myOnlineUser ∈ refs h.client.onFailed.users at hmem
    rw [hempty] at hmem
    cases hmem

theorem Inv.putUser (hi : Inv h) (nick : List UInt8) : Inv (putUser h nick) := by
  have hlinked := hi.linked.putUser nick
  have hsums := hi.sums.putUser nick
  unfold NmdcHub.putUser
  unfold Client.putUser at hlinked hsums ⊢
  split
  · exact hi
  · next p hp =>
    rw [hp] at hlinked hsums
    have hperm := refs_erase hp
    refine ⟨hlinked, hsums, ?_, ?_⟩
    · intro hmem
      have hown := hi.ownNick (hperm.mem_iff.mpr (List.mem_cons_of_mem p hmem))
      -- Our user is not the one that is taken away: nobody else has its object.
      have hne : h.myNick ≠ nick := by
        rintro rfl
        rw [Client.findUser, hp] at hown
        cases hown
        exact (List.nodup_cons.mp (hperm.nodup_iff.mp hi.linked.nodup)).1 hmem
      exact (AList.lookup_erase_ne hne).trans hown
    · intro hrun
      rw [hi.idle hrun] at hp
      cases hp

/-- What `getUser` can do: the user is there, it is our own and put into the table, or it is
made. -/
theorem getUser_cases (h : NmdcHub) (nick : List UInt8) :
    (∃ ou, h.client.findUser nick = some ou ∧ getUser makeCid h nick = (h, ou)) ∨
    (h.client.findUser nick = none ∧ nick = h.myNick ∧
      getUser makeCid h nick =
        ({ h with client := (h.client.insert nick myOnlineUser).1 }, myOnlineUser)) ∨
    (h.client.findUser nick = none ∧ nick ≠ h.myNick ∧
      getUser makeCid h nick =
        ({ h with client :=
          ((h.client.makeOnlineUser ⟨makeCid nick, 0, 0⟩).1.insert nick h.client.created).1 },
          h.client.created)) := by
  unfold NmdcHub.getUser
  cases hfind : h.client.findUser nick with
  | some ou =>
    refine .inl ⟨ou, rfl, ?_⟩
    split
    · rw [Client.insert_of_some _ hfind]
    · rfl
  | none =>
    refine .inr ?_
    split
    · next hnick =>
      refine .inl ⟨rfl, hnick, ?_⟩
      rw [Client.insert_of_none _ hfind]
    · next hnick =>
      refine .inr ⟨rfl, hnick, ?_⟩
      have hfind' : (h.client.makeOnlineUser ⟨makeCid nick, 0, 0⟩).1.findUser nick = none := hfind
      dsimp only
      rw [Client.insert_of_none _ hfind', Client.insert_of_none _ hfind']
      rfl

/-- What `getUser` leaves as it is. -/
structure Grows (h h' : NmdcHub) : Prop where
  myNick : h'.myNick = h.myNick
  running : h'.client.running = h.client.running
  shared : h'.client.shared myOnlineUser = h.client.shared myOnlineUser
  kept : ∀ nick ou, h.client.findUser nick = some ou → h'.client.findUser nick = some ou

private theorem lookup_insert_of_some {users : AList fun _ : List UInt8 => OnlineUserPtr}
    {nick nick' : List UInt8} {p q : OnlineUserPtr} (hnone : users.lookup nick = none)
    (hsome : users.lookup nick' = some q) : (users.insert nick p).lookup nick' = some q := by
  have hne : nick' ≠ nick := by
    rintro rfl
    rw [hnone] at hsome
    cases hsome
  rw [AList.lookup_insert_ne hne]
  exact hsome

theorem Inv.grows_getUser (hi : Inv h) (nick : List UInt8) :
    Grows h (NmdcHub.getUser makeCid h nick).1 := by
  rcases @getUser_cases makeCid h nick with
    ⟨ou, -, heq⟩ | ⟨hfind, -, heq⟩ | ⟨hfind, -, heq⟩
  · rw [heq]
    exact ⟨rfl, rfl, rfl, fun _ _ hsome => hsome⟩
  · rw [heq, Client.insert_of_none _ hfind]
    exact ⟨rfl, rfl, rfl, fun _ _ hsome => lookup_insert_of_some hfind hsome⟩
  · have hfind' : (h.client.makeOnlineUser ⟨makeCid nick, 0, 0⟩).1.findUser nick = none := hfind
    have hmy : myOnlineUser ≠ h.client.created :=
      (lt_of_lt_of_le Nat.zero_lt_two hi.linked.default).ne
    rw [heq, Client.insert_of_none _ hfind']
    refine ⟨rfl, rfl, ?_, fun _ _ hsome => lookup_insert_of_some hfind hsome⟩
    exact congrArg Identity.bytesShared (Client.identity_setIdentity_of_ne _ hmy _)

/-- What `getUser` keeps; what it gives is in the table. -/
theorem Inv.getUser (hi : Inv h) (hrun : h.client.running = true) {nick : List UInt8}
    (hblank : nick = h.myNick → h.client.findUser h.myNick = none →
      h.client.shared myOnlineUser = 0) :
    Inv (NmdcHub.getUser makeCid h nick).1 ∧
      (NmdcHub.getUser makeCid h nick).2 ∈
        refs (NmdcHub.getUser makeCid h nick).1.client.users := by
  have hpos : 0 < h.client.created := lt_of_lt_of_le Nat.zero_lt_two hi.linked.default
  have hidle {h' : NmdcHub} (hrun' : h'.client.running = h.client.running) :
      h'.client.running = false → h'.client.users = ∅ := by
    rw [hrun', hrun]
    exact nofun
  rcases @getUser_cases makeCid h nick with
    ⟨ou, hfind, heq⟩ | ⟨hfind, hnick, heq⟩ | ⟨hfind, hnick, heq⟩
  · rw [heq]
    exact ⟨hi, mem_refs_iff.mpr ⟨nick, hfind⟩⟩
  · subst hnick
    have hout : myOnlineUser ∉ refs h.client.users := by
      intro hmem
      rw [hi.ownNick hmem] at hfind
      cases hfind
    have hlinked := hi.linked.insert hout hpos h.myNick
    have hsums := hi.sums.insert (hblank rfl hfind) h.myNick
    rw [heq]
    rw [Client.insert_of_none _ hfind] at hlinked hsums ⊢
    refine ⟨⟨hlinked, hsums, fun _ => AList.lookup_insert _, hidle rfl⟩, ?_⟩
    rw [refs_insert hfind]
    exact List.mem_cons_self
  · have hmake := hi.linked.makeOnlineUser ⟨makeCid nick, 0, 0⟩
    have hfind' : (h.client.makeOnlineUser ⟨makeCid nick, 0, 0⟩).1.findUser nick = none := hfind
    have hlinked := hmake.insert hi.linked.not_mem_made (Nat.lt_succ_self _) nick
    have hsums := (hi.sums.makeOnlineUser hi.linked ⟨makeCid nick, 0, 0⟩).insert
      (congrArg Identity.bytesShared (Client.identity_setIdentity_self _ _ _)) nick
    rw [heq]
    rw [Client.insert_of_none _ hfind'] at hlinked hsums ⊢
    have hrefs : refs (h.client.users.insert nick h.client.created) =
        h.client.created :: refs h.client.users := refs_insert hfind _
    refine ⟨⟨hlinked, hsums, ?_, hidle rfl⟩, ?_⟩
    · intro hmem
      change myOnlineUser ∈ refs (h.client.users.insert nick h.client.created) at hmem
      rw [hrefs] at hmem
      rcases List.mem_cons.mp hmem with hmy | hmem
      · exact absurd hmy hpos.ne
      · exact lookup_insert_of_some hfind (hi.ownNick hmem)
    · change h.client.created ∈ refs (h.client.users.insert nick h.client.created)
      rw [hrefs]
      exact List.mem_cons_self

/-! ### The messages -/

/-- Several nicks one behind the other. -/
theorem Inv.getUsers (hi : Inv h) (hrun : h.client.running = true) {nicks : List (List UInt8)}
    (hblank : h.myNick ∈ nicks → h.client.findUser h.myNick = none →
      h.client.shared myOnlineUser = 0) :
    Inv (nicks.foldl (fun h nick => (NmdcHub.getUser makeCid h nick).1) h) := by
  induction nicks generalizing h with
  | nil => exact hi
  | cons nick nicks ih =>
    have hgrows : Grows h (NmdcHub.getUser makeCid h nick).1 := hi.grows_getUser nick
    rw [List.foldl_cons]
    apply ih
    · refine (hi.getUser hrun ?_).1
      rintro rfl hnone
      exact hblank List.mem_cons_self hnone
    · rw [hgrows.running]
      exact hrun
    · rw [hgrows.myNick, hgrows.shared]
      intro hmem hnone
      apply hblank (List.mem_cons_of_mem nick hmem)
      cases hfind : h.client.findUser h.myNick with
      | none => rfl
      | some ou =>
        rw [hgrows.kept _ _ hfind] at hnone
        cases hnone

theorem Inv.myInfoParse (hi : Inv h) (hrun : h.client.running = true) {param : List UInt8}
    (hblank : h.myNick ∈ named h (.myINFO param) → h.client.findUser h.myNick = none →
      h.client.shared myOnlineUser = 0) : Inv (myInfoParse makeCid h param) := by
  unfold NmdcHub.myInfoParse
  dsimp only [named] at hblank
  split
  · exact hi
  · next nick i hnick =>
    rw [hnick] at hblank
    have hblank' : nick = h.myNick → h.client.findUser h.myNick = none →
        h.client.shared myOnlineUser = 0 := by
      rintro rfl
      exact hblank List.mem_cons_self
    obtain ⟨hinv, hmem⟩ := @Inv.getUser makeCid h hi hrun nick hblank'
    dsimp only
    split
    · exact hinv
    · exact hinv.changeBytesShared hmem _

theorem Inv.onLine (hi : Inv h) (hrun : h.client.running = true) {m : NmdcMessage}
    (hblank : h.myNick ∈ named h m → h.client.findUser h.myNick = none →
      h.client.shared myOnlineUser = 0) : Inv (onLine makeCid h m) := by
  cases m with
  | myINFO param => exact hi.myInfoParse hrun hblank
  | hello param =>
    unfold NmdcHub.onLine helloParse
    dsimp only [named] at hblank ⊢
    split
    · exact hi
    · next hparam =>
      rw [if_neg hparam] at hblank
      refine (hi.getUser hrun ?_).1
      rintro rfl
      exact hblank List.mem_cons_self
  | nickList param => exact hi.getUsers hrun hblank
  | opList param => exact hi.getUsers hrun hblank
  | botList param => exact hi.getUsers hrun hblank
  | getPass => exact (hi.getUser hrun fun _ => hblank List.mem_cons_self).1
  | quit param =>
    unfold NmdcHub.onLine
    dsimp only
    split
    · exact hi
    · exact hi.putUser param

theorem Inv.step (hi : Inv h) {e : NmdcEvent} (hblank : AddsBlank h e) :
    Inv (step makeCid h e) := by
  cases e with
  | message m =>
    unfold NmdcHub.step
    dsimp only
    split
    · next hrun => exact hi.onLine hrun (hblank hrun)
    · exact hi
  | refresh => exact hi.clearUsers
  | disconnect => exact hi.clearUsers
  | failed => exact hi.onFailed.1
  | connect nick => exact hi.connect nick

/-- In a run whose messages do not bring our identity back with what it had, the total is right. -/
theorem sumsShared_of_within {myCID : CID} {es : List NmdcEvent}
    (hes : Within AddsBlank (step makeCid) (new myCID) es) :
    (run (step makeCid) (new myCID) es).client.SumsShared :=
  (hes.invariant Inv (fun _ _ hi hblank => hi.step hblank) (inv_new myCID)).sums

end NmdcHub

end Blacklink.Hub
