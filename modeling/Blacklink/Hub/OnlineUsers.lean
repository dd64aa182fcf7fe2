import Blacklink.Adc.AdcCommand
import Blacklink.Base.TableSum
import Blacklink.Share.Groups

/-!
# The users of a hub

Model of what `Client` keeps for `AdcHub` and `NmdcHub`: the table `users`, the identities it points
to and the total `bytesShared` (`client/Client.cpp:107-120, 332-345, 541-553`,
`client/AdcHub.cpp:161-209`, `client/NmdcHub.cpp:224-271`). Our own user and the one that stands for
the hub are made once and outlive every table. A thread of the socket ends in `onFailed`, and
`connect` waits for it before it takes a new one. An `int64_t` wraps around.
-/

namespace Blacklink.Hub

open Blacklink.Adc Blacklink.Base Blacklink.Share

/-- `Identity`, with what the table and its total are made from. -/
structure Identity where
  cid : CID
  sid : UInt32
  bytesShared : Int
  deriving DecidableEq

/-- `OnlineUserPtr`: which of the objects it is, in the order they are made. -/
abbrev OnlineUserPtr := Nat

/-- `getMyOnlineUser`. -/
def myOnlineUser : OnlineUserPtr := 0

/-- `getHubOnlineUser`. -/
def hubOnlineUser : OnlineUserPtr := 1

/-- `Client` with the table of the hub. The objects below `created` have been made; with `running`
there is a socket that has not failed. -/
structure Client (κ : Type) where
  users : AList fun _ : κ => OnlineUserPtr
  identity : OnlineUserPtr → Identity
  created : Nat
  bytesShared : Int
  running : Bool

namespace Client

variable {κ : Type} [DecidableEq κ]

/-- A client behind its constructor and `initDefaultUsers`. -/
def new (myCID : CID) : Client κ where
  users := ∅
  identity := fun p =>
    if p = myOnlineUser then ⟨myCID, 0, 0⟩ else ⟨CID.zero, AdcCommand.hubSID, 0⟩
  created := 2
  bytesShared := 0
  running := false

variable (h : Client κ)

/-- `findUser` by the key of the table. -/
def findUser (k : κ) : Option OnlineUserPtr := h.users.lookup k

/-- An identity is changed. -/
def setIdentity (p : OnlineUserPtr) (id : Identity) : Client κ :=
  { h with identity := Function.update h.identity p id }

/-- `make_shared<OnlineUser>`. -/
def makeOnlineUser (id : Identity) : Client κ × OnlineUserPtr :=
  ({ h.setIdentity h.created id with created := h.created + 1 }, h.created)

/-- `users.insert`, which gives back the entry that is there already. -/
def insert (k : κ) (p : OnlineUserPtr) : Client κ × OnlineUserPtr :=
  match h.users.lookup k with
  | some q => (h, q)
  | none => ({ h with users := h.users.insert k p }, p)

/-- `changeBytesShared`. -/
def changeBytesShared (p : OnlineUserPtr) (bytes : Int) : Client κ :=
  let old := (h.identity p).bytesShared
  { h.setIdentity p { h.identity p with bytesShared := bytes } with
    bytesShared := Int.bmod (h.bytesShared + (bytes - old)) (2 ^ 64) }

/-- `decBytesShared`. -/
def decBytesShared (bytes : Int) : Client κ :=
  { h with bytesShared := Int.bmod (h.bytesShared - bytes) (2 ^ 64) }

/-- `putUser`. The identity keeps what it has. -/
def putUser (k : κ) : Client κ :=
  match h.users.lookup k with
  | none => h
  | some p =>
    { h with users := h.users.erase k }.decBytesShared (h.identity p).bytesShared

/-- `clearUsers`. -/
def clearUsers : Client κ :=
  { h.setIdentity myOnlineUser { h.identity myOnlineUser with bytesShared := 0 } with
    users := ∅
    bytesShared := 0 }

/-- The socket fails or is disconnected, if there is one: `onFailed`. -/
def onFailed : Client κ := if h.running then { h.clearUsers with running := false } else h

/-- `connect`: `resetSocket` ends the thread of the socket there is. -/
def connect : Client κ := { h.onFailed with bytesShared := 0, running := true }

omit [DecidableEq κ] in
@[simp] theorem identity_setIdentity_self (p : OnlineUserPtr) (id : Identity) :
    (h.setIdentity p id).identity p = id := Function.update_self _ _ _

omit [DecidableEq κ] in
theorem identity_setIdentity_of_ne {p q : OnlineUserPtr} (hq : q ≠ p) (id : Identity) :
    (h.setIdentity p id).identity q = h.identity q := Function.update_of_ne hq _ _

theorem insert_of_some {k : κ} {q : OnlineUserPtr} (hfind : h.findUser k = some q)
    (p : OnlineUserPtr) : h.insert k p = (h, q) := by
  have hlookup : h.users.lookup k = some q := hfind
  rw [insert, hlookup]

theorem insert_of_none {k : κ} (hfind : h.findUser k = none) (p : OnlineUserPtr) :
    h.insert k p = ({ h with users := h.users.insert k p }, p) := by
  have hlookup : h.users.lookup k = none := hfind
  rw [insert, hlookup]

/-! ### The total -/

/-- What the entry of a user counts. -/
def shared (p : OnlineUserPtr) : Int := (h.identity p).bytesShared

/-- `bytesShared` is the sum over the users of the table, as an `int64_t`. -/
def SumsShared : Prop := h.bytesShared = Int.bmod (tableSum h.shared h.users) (2 ^ 64)

instance : Decidable h.SumsShared := inferInstanceAs (Decidable (_ = _))

omit [DecidableEq κ] in

/-- The table points to objects that have been made, and to none of them twice. -/
structure Linked : Prop where
  nodup : (refs h.users).Nodup
  made : ∀ p ∈ refs h.users, p < h.created
  default : 2 ≤ h.created

variable {h}

/-! ### The operations keep the total -/

omit [DecidableEq κ] in
theorem shared_changeBytesShared (p : OnlineUserPtr) (bytes : Int) :
    (h.changeBytesShared p bytes).shared = Function.update h.shared p bytes := by
  funext q
  by_cases hq : q = p
  · subst hq
    simp [shared, changeBytesShared, setIdentity]
  · simp [shared, changeBytesShared, setIdentity, hq]

omit [DecidableEq κ] in
theorem SumsShared.changeBytesShared (hsum : h.SumsShared) (hl : h.Linked) {p : OnlineUserPtr}
    (hp : p ∈ refs h.users) (bytes : Int) : (h.changeBytesShared p bytes).SumsShared := by
  have hnew : tableSum (h.changeBytesShared p bytes).shared h.users =
      tableSum h.shared h.users + (bytes - h.shared p) := by
    rw [shared_changeBytesShared, tableSum_update _ hl.nodup hp]
  change Int.bmod (h.bytesShared + (bytes - h.shared p)) (2 ^ 64) =
    Int.bmod (tableSum (h.changeBytesShared p bytes).shared h.users) (2 ^ 64)
  rw [hnew, hsum, Int.bmod_add_bmod]

/-- A user is taken away with what its identity has. -/
theorem SumsShared.putUser (hsum : h.SumsShared) (k : κ) : (h.putUser k).SumsShared := by
  unfold Client.putUser
  split
  · exact hsum
  · next p hp =>
    change Int.bmod (h.bytesShared - h.shared p) (2 ^ 64) =
      Int.bmod (tableSum h.shared (h.users.erase k)) (2 ^ 64)
    rw [tableSum_erase _ hp, hsum, sub_eq_add_neg, Int.bmod_add_bmod, sub_eq_add_neg]

omit [DecidableEq κ] in
theorem sumsShared_clearUsers : h.clearUsers.SumsShared := rfl

omit [DecidableEq κ] in
theorem SumsShared.onFailed (hsum : h.SumsShared) : h.onFailed.SumsShared := by
  unfold Client.onFailed
  split
  · exact sumsShared_clearUsers
  · exact hsum

/-- A user comes into the table with nothing shared. -/
theorem SumsShared.insert (hsum : h.SumsShared) {p : OnlineUserPtr} (hp : h.shared p = 0) (k : κ) :
    (h.insert k p).1.SumsShared := by
  unfold Client.insert
  split
  · exact hsum
  · next hk =>
    change h.bytesShared = Int.bmod (tableSum h.shared (h.users.insert k p)) (2 ^ 64)
    rw [tableSum_insert _ hk, hp, zero_add]
    exact hsum

omit [DecidableEq κ] in
theorem SumsShared.makeOnlineUser (hsum : h.SumsShared) (hl : h.Linked) (id : Identity) :
    (h.makeOnlineUser id).1.SumsShared := by
  have hsame : tableSum (h.makeOnlineUser id).1.shared h.users = tableSum h.shared h.users := by
    apply tableSum_congr
    intro p hp
    have hne : p ≠ h.created := (hl.made p hp).ne
    exact congrArg Identity.bytesShared (Function.update_of_ne hne _ _)
  change h.bytesShared = Int.bmod (tableSum (h.makeOnlineUser id).1.shared h.users) (2 ^ 64)
  rw [hsame]
  exact hsum

/-! ### The operations keep the links -/

omit [DecidableEq κ] in
@[simp] theorem cid_changeBytesShared (p q : OnlineUserPtr) (bytes : Int) :
    ((h.changeBytesShared p bytes).identity q).cid = (h.identity q).cid := by
  by_cases hq : q = p
  · subst hq
    simp [changeBytesShared, setIdentity]
  · simp [changeBytesShared, setIdentity, hq]

omit [DecidableEq κ] in
@[simp] theorem sid_changeBytesShared (p q : OnlineUserPtr) (bytes : Int) :
    ((h.changeBytesShared p bytes).identity q).sid = (h.identity q).sid := by
  by_cases hq : q = p
  · subst hq
    simp [changeBytesShared, setIdentity]
  · simp [changeBytesShared, setIdentity, hq]

omit [DecidableEq κ] in
@[simp] theorem cid_clearUsers (q : OnlineUserPtr) :
    (h.clearUsers.identity q).cid = (h.identity q).cid := by
  by_cases hq : q = myOnlineUser
  · subst hq
    simp [clearUsers, setIdentity]
  · simp [clearUsers, setIdentity, hq]

omit [DecidableEq κ] in
@[simp] theorem sid_clearUsers (q : OnlineUserPtr) :
    (h.clearUsers.identity q).sid = (h.identity q).sid := by
  by_cases hq : q = myOnlineUser
  · subst hq
    simp [clearUsers, setIdentity]
  · simp [clearUsers, setIdentity, hq]

omit [DecidableEq κ] in
theorem Linked.changeBytesShared (hl : h.Linked) (p : OnlineUserPtr) (bytes : Int) :
    (h.changeBytesShared p bytes).Linked :=
  ⟨hl.nodup, hl.made, hl.default⟩

theorem Linked.putUser (hl : h.Linked) (k : κ) : (h.putUser k).Linked := by
  unfold Client.putUser
  split
  · exact hl
  · next p hp =>
    have hperm := refs_erase hp
    have hnodup := hperm.nodup_iff.mp hl.nodup
    constructor
    · exact (List.nodup_cons.mp hnodup).2
    · intro q hq
      exact hl.made q (hperm.mem_iff.mpr (List.mem_cons_of_mem p hq))
    · exact hl.default

omit [DecidableEq κ] in
theorem Linked.clearUsers (hl : h.Linked) : h.clearUsers.Linked :=
  ⟨List.nodup_nil, fun _ hp => (List.not_mem_nil hp).elim, hl.default⟩

omit [DecidableEq κ] in
theorem Linked.onFailed (hl : h.Linked) : h.onFailed.Linked := by
  unfold Client.onFailed
  split
  · have hclear := hl.clearUsers
    exact ⟨hclear.nodup, hclear.made, hclear.default⟩
  · exact hl

theorem Linked.insert (hl : h.Linked) {p : OnlineUserPtr} (hp : p ∉ refs h.users)
    (hmade : p < h.created) (k : κ) : (h.insert k p).1.Linked := by
  unfold Client.insert
  split
  · exact hl
  · next hk =>
    have hrefs : refs (h.users.insert k p) = p :: refs h.users := refs_insert hk p
    constructor
    · change (refs (h.users.insert k p)).Nodup
      rw [hrefs]
      exact List.nodup_cons.mpr ⟨hp, hl.nodup⟩
    · intro q hq
      change q ∈ refs (h.users.insert k p) at hq
      rw [hrefs] at hq
      rcases List.mem_cons.mp hq with rfl | hq
      · exact hmade
      · exact hl.made q hq
    · exact hl.default

omit [DecidableEq κ] in
theorem Linked.makeOnlineUser (hl : h.Linked) (id : Identity) :
    (h.makeOnlineUser id).1.Linked :=
  ⟨hl.nodup, fun p hp => Nat.lt_succ_of_lt (hl.made p hp), Nat.le_succ_of_le hl.default⟩

omit [DecidableEq κ] in
/-- An object that has just been made is in no entry. -/
theorem Linked.not_mem_made (hl : h.Linked) : h.created ∉ refs h.users :=
  fun hmem => (hl.made _ hmem).false

end Client

end Blacklink.Hub
