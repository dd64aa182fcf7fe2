import Mathlib.Data.Int.Order.Basic
import Mathlib.Data.List.Nodup
import Mathlib.Tactic.SplitIfs
import Blacklink.Upload.UploadManager

/-!
# The slot counters

The counters are changed where a connection gets a slot and where its socket fails. A connection
that is put back on another way keeps its slot and its entry: `accounted_iff` says that the
counters and the list of uploads are right exactly as long as this does not happen.
-/

namespace Blacklink.Upload

open Blacklink.Base

/-- The connection is live and its slot is counted by `k`. -/
def UserConnection.holds (k : Counter) (c : UserConnection) : Bool :=
  c.live && c.slotType.counter == some k

namespace UploadManager

/-- Each counter is the number of live connections with such a slot, and every upload belongs to a
live connection. -/
def Accounted (s : UploadManager) : Prop :=
  (∀ k, s.counter k = (s.connections.countP (UserConnection.holds k) : Int)) ∧
    ∀ u ∈ s.uploads, ∃ conn, s.connections[u.connection]? = some conn ∧ conn.live = true

/-- The entry is that of the connection, which is sending and has a slot. -/
def Sends (conn : UserConnection) (u : UploadEntry) : Prop :=
  (conn.state = .send ∨ conn.state = .running) ∧ conn.upload = some u.id ∧
    conn.slotType ≠ .noSlot

/-- A connection that can get a slot, or has one, is associated: a socket error is then reported
to the upload manager. -/
def Reported (conn : UserConnection) : Prop :=
  (conn.state = .get ∨ conn.state = .send ∨ conn.state = .running ∨
    conn.live = true ∧ conn.slotType ≠ .noSlot) → conn.associated = true

/-- The invariant. -/
structure Inv (s : UploadManager) : Prop where
  counts : ∀ k, s.counter k = (s.connections.countP (UserConnection.holds k) : Int)
  sends : ∀ u ∈ s.uploads, ∃ conn, s.connections[u.connection]? = some conn ∧ Sends conn u
  nodup : s.uploads.Nodup
  fresh : ∀ u ∈ s.uploads, u.id < s.nextUpload
  reported : ∀ (c : Nat) conn, s.connections[c]? = some conn → Reported conn

theorem Inv.accounted {s : UploadManager} (h : s.Inv) : s.Accounted := by
  refine ⟨h.counts, ?_⟩
  intro u hu
  obtain ⟨conn, hconn, hstate, -, -⟩ := h.sends u hu
  refine ⟨conn, hconn, ?_⟩
  rcases hstate with hstate | hstate <;> simp [UserConnection.live, hstate]

/-- By how much the counter `k` should change when a connection changes. -/
def change (k : Counter) (conn conn' : UserConnection) : Int :=
  (if conn'.holds k then 1 else 0) - if conn.holds k then 1 else 0

private theorem countP_set_int {k : Counter} {l : List UserConnection} {c : Nat}
    {conn conn' : UserConnection} (hc : l[c]? = some conn) :
    ((l.set c conn').countP (UserConnection.holds k) : Int) =
      l.countP (UserConnection.holds k) + change k conn conn' := by
  obtain ⟨hlt, hget⟩ := List.getElem?_eq_some_iff.mp hc
  have hle : (if (l[c]).holds k then 1 else 0) ≤ l.countP (UserConnection.holds k) :=
    List.boole_getElem_le_countP hlt
  rw [List.countP_set hlt, change]
  rw [hget] at hle ⊢
  by_cases hold : conn.holds k = true
  · simp only [hold, if_true] at hle ⊢
    split <;> omega
  · simp only [hold, Bool.false_eq_true, if_false] at hle ⊢
    split <;> omega

/-! ### One event -/

/-- What an event on the connection `c` must do to keep the invariant. -/
structure Keeps (s : UploadManager) (c : Nat) (conn : UserConnection)
    (p : UploadManager × UserConnection) : Prop where
  connections : p.1.connections = s.connections
  counter : ∀ k, p.1.counter k = s.counter k + change k conn p.2
  entries : ∀ u ∈ p.1.uploads, u ∈ s.uploads ∧ u.connection ≠ c ∨ u.connection = c ∧ Sends p.2 u
  nodup : p.1.uploads.Nodup
  fresh : ∀ u ∈ p.1.uploads, u.id < p.1.nextUpload
  reported : Reported p.2

theorem Keeps.inv {s : UploadManager} (h : s.Inv) {c : Nat} {conn : UserConnection}
    (hc : s.connections[c]? = some conn) {p : UploadManager × UserConnection}
    (hp : Keeps s c conn p) : { p.1 with connections := p.1.connections.set c p.2 }.Inv := by
  obtain ⟨hlt, -⟩ := List.getElem?_eq_some_iff.mp hc
  have hself : (s.connections.set c p.2)[c]? = some p.2 := by simp [hlt]
  constructor
  · intro k
    change p.1.counter k = _
    rw [hp.connections, countP_set_int hc, ← h.counts k, hp.counter k]
  · intro u hu
    rw [hp.connections]
    rcases hp.entries u hu with ⟨hu, hne⟩ | ⟨rfl, hsends⟩
    · obtain ⟨conn', hconn', hsends⟩ := h.sends u hu
      exact ⟨conn', by rw [List.getElem?_set_ne hne.symm]; exact hconn', hsends⟩
    · exact ⟨p.2, hself, hsends⟩
  · exact hp.nodup
  · exact hp.fresh
  · intro c' conn' hconn'
    rw [hp.connections] at hconn'
    by_cases hcc : c' = c
    · rw [hcc, hself, Option.some_inj] at hconn'
      rw [← hconn']
      exact hp.reported
    · rw [List.getElem?_set_ne (Ne.symm hcc)] at hconn'
      exact h.reported c' conn' hconn'

variable {s : UploadManager} {c : Nat} {conn : UserConnection}

/-- An entry of a connection names what the connection points to. -/
private theorem sends_of_mem (h : s.Inv) (hc : s.connections[c]? = some conn) {u : UploadEntry}
    (hu : u ∈ s.uploads) (huc : u.connection = c) : Sends conn u := by
  obtain ⟨conn', hconn', hsends⟩ := h.sends u hu
  rw [huc, hc, Option.some_inj] at hconn'
  rw [hconn']
  exact hsends

/-- `removeUpload` leaves only the entries of other connections. -/
private theorem removeUpload_entries (h : s.Inv) (hc : s.connections[c]? = some conn) :
    (s.removeUpload c conn.upload).uploads.Nodup ∧
      ∀ u ∈ (s.removeUpload c conn.upload).uploads, u ∈ s.uploads ∧ u.connection ≠ c := by
  cases hup : conn.upload with
  | none =>
    refine ⟨h.nodup, ?_⟩
    intro u hu
    refine ⟨hu, ?_⟩
    intro huc
    simpa [hup] using (sends_of_mem h hc hu huc).2.1
  | some n =>
    refine ⟨h.nodup.erase _, ?_⟩
    intro u hu
    obtain ⟨hne, hu⟩ := h.nodup.mem_erase_iff.mp hu
    refine ⟨hu, ?_⟩
    intro huc
    have hid : n = u.id := by simpa [hup] using (sends_of_mem h hc hu huc).2.1
    apply hne
    rw [hid, ← huc]

theorem removeUpload_frame (upload : Option Nat) :
    (s.removeUpload c upload).counter = s.counter ∧
      (s.removeUpload c upload).connections = s.connections ∧
      (s.removeUpload c upload).nextUpload = s.nextUpload := by
  cases upload <;> exact ⟨rfl, rfl, rfl⟩

/-- An event that changes neither the counters nor the list. -/
private theorem keeps_same (h : s.Inv) (hc : s.connections[c]? = some conn)
    {conn' : UserConnection} (hholds : ∀ k, conn'.holds k = conn.holds k)
    (hsends : ∀ u ∈ s.uploads, u.connection = c → Sends conn u → Sends conn' u)
    (hrep : Reported conn') : Keeps s c conn (s, conn') where
  connections := rfl
  counter k := by simp [change, hholds]
  entries u hu := by
    by_cases huc : u.connection = c
    · exact .inr ⟨huc, hsends u hu huc (sends_of_mem h hc hu huc)⟩
    · exact .inl ⟨hu, huc⟩
  nodup := h.nodup
  fresh := h.fresh
  reported := hrep

/-- A slot that is granted is one. -/
theorem chooseSlot_ne {r : Request} {slotType slotType' : SlotType}
    (h : s.chooseSlot r slotType = some slotType') : slotType' ≠ .noSlot := by
  intro hno
  simp only [chooseSlot] at h
  split_ifs at h <;> simp_all

theorem processSlot_counter (s : UploadManager) (slotType : SlotType) (delta : Int) (k : Counter) :
    (s.processSlot slotType delta).counter k =
      s.counter k + if slotType.counter = some k then delta else 0 := by
  simp only [processSlot]
  split <;> simp

private theorem holds_of_live {conn : UserConnection} (h : conn.live = true) (k : Counter) :
    conn.holds k = true ↔ conn.slotType.counter = some k := by
  simp [UserConnection.holds, h]

private theorem no_entry (h : s.Inv) (hc : s.connections[c]? = some conn)
    (hstate : conn.state ≠ .send ∧ conn.state ≠ .running) {u : UploadEntry} (hu : u ∈ s.uploads) :
    u.connection ≠ c := by
  intro huc
  rcases (sends_of_mem h hc hu huc).1 with hs | hs
  · exact hstate.1 hs
  · exact hstate.2 hs

/-- A granted request: the connection points to a new entry and has the slot `t`, and the counters
follow it. -/
structure Granted (s : UploadManager) (c : Nat) (conn : UserConnection) (t : SlotType)
    (p : UploadManager × UserConnection) : Prop where
  slot : t ≠ .noSlot
  state : p.2.state = .send ∨ p.2.state = .running
  associated : p.2.associated = conn.associated
  slotType : p.2.slotType = t
  upload : p.2.upload = some s.nextUpload
  connections : p.1.connections = s.connections
  uploads : p.1.uploads = s.uploads ++ [⟨s.nextUpload, c⟩]
  next : p.1.nextUpload = s.nextUpload + 1
  counter : ∀ k, p.1.counter k = s.counter k + ((if t.counter = some k then 1 else 0) -
    if conn.slotType.counter = some k then 1 else 0)

/-- A request is refused, or all slots are taken, or it is granted. -/
theorem processGet_cases (s : UploadManager) (c : Nat) (conn : UserConnection) (r : Request)
    (waitForSend : Bool) :
    s.processGet c conn r waitForSend = (s, conn) ∨
      s.processGet c conn r waitForSend = (s, { conn with upload := none }) ∨
      ∃ t, Granted s c conn t (s.processGet c conn r waitForSend) := by
  have hstate : (if waitForSend then ConnState.send else .running) = .send ∨
      (if waitForSend then ConnState.send else .running) = .running := by
    cases waitForSend <;> simp
  rw [processGet, prepareFile]
  split
  · exact .inl rfl
  · split
    · exact .inr (.inl rfl)
    · next t ht =>
      refine .inr (.inr ⟨t, ?_⟩)
      split
      · refine ⟨chooseSlot_ne ht, hstate, rfl, rfl, rfl, rfl, rfl, rfl, ?_⟩
        intro k
        simp only [if_true, processSlot_counter]
        split <;> split <;> omega
      · next hsame =>
        have hsame : conn.slotType = t := not_not.mp hsame
        refine ⟨chooseSlot_ne ht, hstate, rfl, hsame, rfl, rfl, rfl, rfl, ?_⟩
        intro k
        rw [hsame, Int.sub_self, Int.add_zero]
        rfl

theorem processGet_keeps (h : s.Inv) (hc : s.connections[c]? = some conn)
    (hstate : conn.state = .get) (r : Request) (waitForSend : Bool) :
    Keeps s c conn (s.processGet c conn r waitForSend) := by
  have hassoc : conn.associated = true := h.reported c conn hc (.inl hstate)
  have hnone : ∀ u ∈ s.uploads, u.connection ≠ c := fun u hu =>
    no_entry h hc (by simp [hstate]) hu
  obtain heq | heq | ⟨t, hg⟩ := processGet_cases s c conn r waitForSend
  · rw [heq]
    exact keeps_same h hc (fun _ => rfl) (fun _ _ _ hs => hs) (h.reported c conn hc)
  · rw [heq]
    refine keeps_same h hc (fun _ => rfl) ?_ fun _ => hassoc
    intro u hu huc
    exact absurd huc (hnone u hu)
  · have hlive : conn.live = true := by simp [UserConnection.live, hstate]
    have hlive' : (s.processGet c conn r waitForSend).2.live = true := by
      rcases hg.state with hs | hs <;> simp [UserConnection.live, hs]
    have hmem : ∀ u ∈ (s.processGet c conn r waitForSend).1.uploads,
        u ∈ s.uploads ∨ u = ⟨s.nextUpload, c⟩ := by
      intro u hu
      rw [hg.uploads] at hu
      simpa using hu
    constructor
    · exact hg.connections
    · intro k
      rw [hg.counter, change]
      simp only [holds_of_live hlive, holds_of_live hlive', hg.slotType]
    · intro u hu
      rcases hmem u hu with hu | rfl
      · exact .inl ⟨hu, hnone u hu⟩
      · exact .inr ⟨rfl, hg.state, hg.upload, hg.slotType ▸ hg.slot⟩
    · rw [hg.uploads]
      refine List.nodup_append.mpr ⟨h.nodup, List.nodup_singleton _, ?_⟩
      intro u hu v hv huv
      have hlt := h.fresh u hu
      rw [huv, List.mem_singleton.mp hv] at hlt
      exact Nat.lt_irrefl _ hlt
    · intro u hu
      rw [hg.next]
      rcases hmem u hu with hu | rfl
      · exact Nat.lt_succ_of_lt (h.fresh u hu)
      · exact Nat.lt_succ_self _
    · intro _
      rw [hg.associated]
      exact hassoc

theorem transmitDone_keeps (h : s.Inv) (hc : s.connections[c]? = some conn)
    (hstate : conn.state = .running) : Keeps s c conn (s.transmitDone c conn) := by
  have hassoc : conn.associated = true := h.reported c conn hc (.inr (.inr (.inl hstate)))
  obtain ⟨hnodup, hentries⟩ := removeUpload_entries h hc
  obtain ⟨hcounter, hconns, hnext⟩ := removeUpload_frame (s := s) (c := c) conn.upload
  constructor
  · exact hconns
  · intro k
    change (s.removeUpload c conn.upload).counter k = _
    have hholds : (s.transmitDone c conn).2.holds k = conn.holds k := by
      simp [transmitDone, UserConnection.holds, UserConnection.live, hstate]
    rw [hcounter, change, hholds, Int.sub_self, Int.add_zero]
  · intro u hu
    exact .inl (hentries u hu)
  · exact hnodup
  · intro u hu
    exact hnext ▸ h.fresh u (hentries u hu).1
  · intro _
    exact hassoc

/-- A socket error releases the slot and removes the entry. -/
theorem onFailed_keeps (h : s.Inv) (hc : s.connections[c]? = some conn) :
    Keeps s c conn (s.onFailed c conn) := by
  rw [onFailed]
  split
  · exact keeps_same h hc (fun _ => rfl) (fun _ _ _ hs => hs) (h.reported c conn hc)
  · next hused =>
    have hlive : conn.live = true := by simpa [UserConnection.live] using hused
    simp only
    split
    · obtain ⟨hnodup, hentries⟩ := removeUpload_entries h hc
      obtain ⟨hcounter, hconns, hnext⟩ := removeUpload_frame (s := s) (c := c) conn.upload
      constructor
      · exact hconns
      · intro k
        have hgone : (putConnection { conn with state := .unconnected, slotType := .noSlot }).holds
            k = false := rfl
        change ((s.removeUpload c conn.upload).processSlot conn.slotType (-1)).counter k =
          s.counter k + change k conn (putConnection
            { conn with state := .unconnected, slotType := .noSlot })
        rw [processSlot_counter, hcounter, change, hgone]
        simp only [holds_of_live hlive, Bool.false_eq_true, if_false]
        split <;> omega
      · intro u hu
        exact .inl (hentries u hu)
      · exact hnodup
      · intro u hu
        change u.id < (s.removeUpload c conn.upload).nextUpload
        rw [hnext]
        exact h.fresh u (hentries u hu).1
      · intro hcon
        simp [putConnection, UserConnection.live] at hcon
    · next hassoc =>
      -- not associated: no slot, so there is nothing to release
      have hno : ¬(conn.state = .get ∨ conn.state = .send ∨ conn.state = .running ∨
          conn.live = true ∧ conn.slotType ≠ .noSlot) := fun hcon =>
        hassoc (h.reported c conn hc hcon)
      have hslot : conn.slotType = .noSlot := by
        by_contra hne
        exact hno (.inr (.inr (.inr ⟨hlive, hne⟩)))
      apply keeps_same h hc
      · intro k
        simp [UserConnection.holds, hslot, SlotType.counter, putConnection, UserConnection.live]
      · intro u _ _ hs
        exact absurd hslot hs.2.2
      · intro hcon
        simp [putConnection, UserConnection.live] at hcon

private theorem not_holds_put (conn : UserConnection) (k : Counter) :
    (putConnection conn).holds k = false := rfl

/-- Putting a connection back that has no slot changes nothing else. -/
theorem put_keeps (h : s.Inv) (hc : s.connections[c]? = some conn)
    (hslot : conn.live = true → conn.slotType = .noSlot) :
    Keeps s c conn (s, putConnection conn) := by
  apply keeps_same h hc
  · intro k
    rw [not_holds_put, eq_comm, Bool.eq_false_iff]
    intro hholds
    obtain ⟨hlive, hk⟩ : conn.live = true ∧ conn.slotType.counter = some k := by
      simpa [UserConnection.holds] using hholds
    rw [hslot hlive] at hk
    cases hk
  · intro u _ _ hs
    have hlive : conn.live = true := by
      rcases hs.1 with hs | hs <;> simp [UserConnection.live, hs]
    exact absurd (hslot hlive) hs.2.2
  · intro hcon
    simp [putConnection, UserConnection.live] at hcon

/-- Putting back a connection with a slot leaves its counter too large. -/
theorem noSlot_of_put_accounted (h : s.Inv) (hc : s.connections[c]? = some conn)
    (hacc : { s with connections := s.connections.set c (putConnection conn) }.Accounted)
    (hlive : conn.live = true) : conn.slotType = .noSlot := by
  have hno : ∀ k, conn.slotType.counter ≠ some k := by
    intro k hk
    have hcount : s.counter k = _ := hacc.1 k
    rw [countP_set_int hc, ← h.counts k, change, not_holds_put,
      (holds_of_live hlive k).mpr hk] at hcount
    simp only [Bool.false_eq_true, if_false, if_true] at hcount
    omega
  cases hslot : conn.slotType with
  | noSlot => rfl
  | stdSlot => exact absurd (by rw [hslot]; rfl) (hno .running)
  | resSlot => exact absurd (by rw [hslot]; rfl) (hno .running)
  | miniSlot => exact absurd (by rw [hslot]; rfl) (hno .extra)
  | pfsSlot => exact absurd (by rw [hslot]; rfl) (hno .extraPartial)

/-- The event does not put back a connection that has a slot without telling `UploadManager`. -/
def Ok (s : UploadManager) : Event → Prop
  | .on c .protocolError => ∀ conn, s.connections[c]? = some conn → conn.live = true →
      conn.slotType = .noSlot
  | .on c .invalidLine => ∀ conn, s.connections[c]? = some conn → conn.live = true →
      conn.slotType = .noSlot
  | .on c .close => ∀ conn, s.connections[c]? = some conn → conn.live = true →
      conn.slotType = .noSlot
  | _ => True

/-- Every event but the three keeps the invariant, and these do under the condition. -/
theorem onEvent_keeps (h : s.Inv) (hc : s.connections[c]? = some conn) (e : ConnEvent)
    (hok : Ok s (.on c e)) : Keeps s c conn (s.onEvent c conn e) := by
  have hsame : Keeps s c conn (s, conn) :=
    keeps_same h hc (fun _ => rfl) (fun _ _ _ hs => hs) (h.reported c conn hc)
  cases e with
  | addConnection ipBlocked =>
    rw [onEvent]
    split
    · next hhand =>
      have hnone : ∀ u ∈ s.uploads, u.connection ≠ c := fun u hu =>
        no_entry h hc (by simp [hhand.1]) hu
      have hlive : conn.live = true := by simp [UserConnection.live, hhand.1]
      have hslot : conn.slotType = .noSlot := by
        by_contra hne
        have := h.reported c conn hc (.inr (.inr (.inr ⟨hlive, hne⟩)))
        simp [this] at hhand
      rw [addConnection]
      split
      · -- blocked: there is no slot to remove
        have heq : s.removeConnectionSlot { conn with associated := true } =
            (s, { conn with associated := true }) := by
          simp [removeConnectionSlot, processSlot, hslot, SlotType.counter]
        rw [heq]
        exact keeps_same h hc (fun _ => rfl) (fun u hu huc => absurd huc (hnone u hu)) fun _ => rfl
      · apply keeps_same h hc _ (fun u hu huc => absurd huc (hnone u hu)) fun _ => rfl
        intro k
        simp [UserConnection.holds, hslot, SlotType.counter]
    · exact hsame
  | get r waitForSend =>
    rw [onEvent]
    split
    · next hstate => exact processGet_keeps h hc hstate r waitForSend
    · exact hsame
  | send =>
    rw [onEvent]
    split
    · next hstate =>
      apply keeps_same h hc
      · intro k
        simp [UserConnection.holds, UserConnection.live, hstate]
      · intro u _ _ hs
        exact ⟨.inr rfl, hs.2⟩
      · intro _
        exact h.reported c conn hc (.inr (.inl hstate))
    · exact hsame
  | transmitDone =>
    rw [onEvent]
    split
    · next hstate => exact transmitDone_keeps h hc hstate
    · exact hsame
  | socketError => exact onFailed_keeps h hc
  | protocolError => exact put_keeps h hc (hok conn hc)
  | invalidLine => exact put_keeps h hc (hok conn hc)
  | close => exact put_keeps h hc (hok conn hc)

/-! ### Runs -/

theorem step_inv (h : s.Inv) (e : Event) (hok : Ok s e) : (s.step e).Inv := by
  cases e with
  | connect =>
    have hget : ∀ (c : Nat) conn, s.connections[c]? = some conn →
        (s.connections ++ [⟨.handshake, false, .noSlot, none⟩])[c]? = some conn := by
      intro c conn hc
      rw [List.getElem?_append_left (List.getElem?_eq_some_iff.mp hc).1]
      exact hc
    constructor
    · intro k
      change s.counter k = _
      rw [h.counts k]
      simp [step, UserConnection.holds, SlotType.counter]
    · intro u hu
      obtain ⟨conn, hconn, hs⟩ := h.sends u hu
      exact ⟨conn, hget _ _ hconn, hs⟩
    · exact h.nodup
    · exact h.fresh
    · intro c conn hconn
      rcases List.mem_append.mp (List.mem_of_getElem? hconn) with hmem | hmem
      · obtain ⟨c', hc'⟩ := List.mem_iff_getElem?.mp hmem
        exact h.reported c' conn hc'
      · rw [List.mem_singleton.mp hmem]
        simp [Reported]
  | on c e =>
    rw [step]
    split
    · exact h
    · next conn hc => exact (onEvent_keeps h hc e hok).inv h hc

theorem inv_initial : initial.Inv := by
  constructor <;> simp [initial]

/-- After an event that puts a connection back the accounts are right only under the condition. -/
theorem ok_of_accounted (h : s.Inv) (e : Event) (hacc : (s.step e).Accounted) : Ok s e := by
  have hput : ∀ {c conn}, s.connections[c]? = some conn →
      { s with connections := s.connections.set c (putConnection conn) }.Accounted →
      ∀ conn', s.connections[c]? = some conn' → conn'.live = true → conn'.slotType = .noSlot := by
    intro c conn hc hacc conn' hc' hlive
    obtain rfl : conn = conn' := Option.some_inj.mp (hc.symm.trans hc')
    exact noSlot_of_put_accounted h hc hacc hlive
  cases e with
  | connect => trivial
  | on c e =>
    cases hc : s.connections[c]? with
    | none => cases e <;> first | trivial | (intro conn hconn; rw [hc] at hconn; cases hconn)
    | some conn =>
      simp only [step, hc] at hacc
      cases e with
      | protocolError => exact hput hc hacc
      | invalidLine => exact hput hc hacc
      | close => exact hput hc hacc
      | _ => trivial

/-- In a run the counters and the list of uploads are right in every state reached exactly when no
connection with a slot is put back by a protocol error, an invalid line or `putConnection`. -/
theorem accounted_iff (es : List Event) :
    (∀ pre, pre <+: es → (run step initial pre).Accounted) ↔ Within Ok step initial es := by
  refine forall_prefix_iff_within (P := fun pre => (run step initial pre).Accounted)
    inv_initial.accounted ?_ es
  intro es e hok _
  have hinv := hok.invariant Inv (fun _ e hs he => step_inv hs e he) inv_initial
  rw [run_append]
  exact ⟨ok_of_accounted hinv e, fun he => (step_inv hinv e he).accounted⟩

/-- A peer gets a standard slot and then sends a fatal status: the slot stays counted and its
upload in the list. -/
theorem not_accounted_protocolError :
    ¬(run step initial [.connect, .on 0 (.addConnection false),
      .on 0 (.get ⟨true, false, false, true, false, false, false, true, false, false, 3, 1⟩ false),
      .on 0 .protocolError]).Accounted := by
  intro h
  exact absurd (h.1 .running) (by decide)

end UploadManager
end Blacklink.Upload
