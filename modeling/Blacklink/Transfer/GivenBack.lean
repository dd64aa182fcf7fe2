import Mathlib.Data.List.Nodup
import Blacklink.Transfer.Connection

/-!
# Downloads are given back once

Every path that gives a download back does so through the connection's pointer, which stays set
when the download has been put, and two paths discard a connection without giving anything back.
As long as the first kind meets a download that is still active and the second kind none, every
download is put exactly once and before its connection is discarded (`balanced_of_within`).
-/

namespace Blacklink.Transfer

open Blacklink.Base

/-- The connection is requesting or receiving the data of the download. -/
def DownloadConnection.worksOn (conn : DownloadConnection) (d : Nat) : Prop :=
  conn.download = some d ∧ (conn.state = .snd ∨ conn.state = .running)

namespace Transfers

/-- No download has been put twice, one that has not been put has a connection that works on it,
and every running segment is that of such a download and connection. -/
def Balanced (s : Transfers) : Prop :=
  (∀ d < s.next, s.puts.count d ≤ 1 ∧
    (s.puts.count d = 0 → ∃ conn ∈ s.connections, conn.worksOn d)) ∧
    ∀ r ∈ s.running, s.puts.count r.download = 0 ∧
      ∃ conn ∈ s.connections, conn.worksOn r.download ∧ conn.user = r.user

/-- The event takes a path that gives back what the connection points to. -/
def givesBack (conn : DownloadConnection) : ConnEvent → Prop
  | .snd (.rejected _) => conn.dataMode = false ∧ conn.state = .snd
  | .snd (.empty _) => conn.dataMode = false ∧ conn.state = .snd
  | .staFileNotAvailable _ _ => conn.dataMode = false
  | .staSlotsFull _ => conn.dataMode = false
  | .errorFileNotAvailable _ _ _ => conn.dataMode = false ∧ conn.state = .snd
  | .maxedOut _ => conn.dataMode = false ∧ conn.state = .snd
  | .protocolError _ => conn.dataMode = false
  | .socketError _ => conn.state ≠ .unused
  | _ => False

/-- The event discards the connection and gives nothing back. -/
def discards (conn : DownloadConnection) : ConnEvent → Prop
  | .invalidLine => conn.dataMode = false
  | .close => True
  | _ => False

/-- What is given back is active, what is discarded has nothing active, and no status makes a
connection wait for a slot that was already put back. -/
def Ok (s : Transfers) : Event → Prop
  | .on c e => ∀ conn, s.connections[c]? = some conn →
      (givesBack conn e → ∀ d, conn.download = some d → d ∈ s.downloads) ∧
      (discards conn e → ∀ d, conn.download = some d → d ∉ s.downloads) ∧
      ∀ itemDone, e = .staSlotsFull itemDone → conn.state ≠ .unused
  | _ => True

/-- What a connection points to. -/
structure Points (s : Transfers) (conn : DownloadConnection) (d : Nat) : Prop where
  bound : d < s.next
  user : (s.given d).1 = conn.user
  live : conn.state ≠ .unused
  works : d ∈ s.downloads → conn.worksOn d

/-- The invariant: exactly the inactive downloads have been put, each once. -/
structure Inv (s : Transfers) : Prop where
  count : ∀ d, s.puts.count d = if d < s.next ∧ d ∉ s.downloads then 1 else 0
  bound : ∀ d ∈ s.downloads, d < s.next
  active : ∀ d ∈ s.downloads, ∃ (c : Nat) (conn : DownloadConnection),
    s.connections[c]? = some conn ∧ conn.download = some d
  points : ∀ (c : Nat) conn, s.connections[c]? = some conn → ∀ d, conn.download = some d →
    Points s conn d
  users : ∀ (c c' : Nat) conn conn', s.connections[c]? = some conn →
    s.connections[c']? = some conn' → conn.state ≠ .unused → conn'.state ≠ .unused →
    conn.user = conn'.user → c = c'
  segments : ∀ r ∈ s.running, r.download ∈ s.downloads ∧ s.given r.download = (r.user, r.item)
  nodup : (s.running.map RunningSegment.download).Nodup

theorem Inv.balanced {s : Transfers} (h : s.Inv) : s.Balanced := by
  have hworks : ∀ d ∈ s.downloads, ∃ conn ∈ s.connections, conn.worksOn d ∧
      conn.user = (s.given d).1 := by
    intro d hd
    obtain ⟨c, conn, hc, hdown⟩ := h.active d hd
    have hp := h.points c conn hc d hdown
    exact ⟨conn, List.mem_of_getElem? hc, hp.works hd, hp.user.symm⟩
  constructor
  · intro d hd
    rw [h.count d]
    constructor
    · split <;> omega
    · intro hzero
      have hin : d ∈ s.downloads := by
        by_contra hout
        simp [hd, hout] at hzero
      obtain ⟨conn, hmem, hw, -⟩ := hworks d hin
      exact ⟨conn, hmem, hw⟩
  · intro r hr
    obtain ⟨hd, hgiven⟩ := h.segments r hr
    constructor
    · rw [h.count, if_neg fun hcon => hcon.2 hd]
    · obtain ⟨conn, hmem, hw, huser⟩ := hworks _ hd
      rw [hgiven] at huser
      exact ⟨conn, hmem, hw, huser⟩

/-! ### One operation

An operation works on the state and on the connection `c` beside it; `store` puts the connection
back into the state. -/

/-- The state with the connection `c` replaced. -/
def store (s : Transfers) (c : Nat) (conn : DownloadConnection) : Transfers :=
  { s with connections := s.connections.set c conn }

/-- The connection points to nothing active. -/
def Free (s : Transfers) (conn : DownloadConnection) : Prop :=
  ∀ d, conn.download = some d → d ∉ s.downloads

/-- The invariant holds once the connection is stored. -/
structure Keeps (c : Nat) (s : Transfers) (conn : DownloadConnection) : Prop where
  lt : c < s.connections.length
  inv : (s.store c conn).Inv

variable {s : Transfers} {c : Nat} {conn : DownloadConnection}

private theorem store_self (hc : s.connections[c]? = some conn) : s.store c conn = s := by
  obtain ⟨hlt, hget⟩ := List.getElem?_eq_some_iff.mp hc
  rw [store, ← hget, List.set_getElem_self]

private theorem store_get (hlt : c < s.connections.length) :
    (s.store c conn).connections[c]? = some conn := by
  simp [store, hlt]

private theorem store_get_ne {c' : Nat} (hne : c' ≠ c) :
    (s.store c conn).connections[c']? = s.connections[c']? := by
  simp [store, Ne.symm hne]

/-- A running segment of the user and the item of an active download is that of the download. -/
private theorem segment_download (h : s.Inv) (hc : s.connections[c]? = some conn) {d : Nat}
    (hdown : conn.download = some d) {r : RunningSegment} (hr : r ∈ s.running)
    (huser : r.user = (s.given d).1) : r.download = d := by
  obtain ⟨hin, hgiven⟩ := h.segments r hr
  obtain ⟨c', conn', hc', hdown'⟩ := h.active _ hin
  have hp := h.points c conn hc d hdown
  have hp' := h.points c' conn' hc' _ hdown'
  have hsame : conn.user = conn'.user := by
    rw [← hp.user, ← huser, ← hp'.user, hgiven]
  have hcc := h.users c c' conn conn' hc hc' hp.live hp'.live hsame
  rw [← hcc, hc, Option.some_inj] at hc'
  rw [← hc', hdown, Option.some_inj] at hdown'
  exact hdown'.symm

/-- `putDownload` takes the running segment of the download out. -/
private theorem running_put (h : s.Inv) (hc : s.connections[c]? = some conn) {d : Nat}
    (hdown : conn.download = some d) (itemDone : Bool) :
    List.Sublist (s.putDownload d itemDone).running s.running ∧
      ∀ r ∈ (s.putDownload d itemDone).running, r.download ≠ d := by
  cases itemDone with
  | true =>
    refine ⟨List.filter_sublist, ?_⟩
    intro r hr hrd
    obtain ⟨hr, hitem⟩ := List.mem_filter.mp hr
    have hgiven := (h.segments r hr).2
    rw [hrd] at hgiven
    simp [hgiven] at hitem
  | false =>
    refine ⟨List.eraseP_sublist, ?_⟩
    intro r hr hrd
    have hmem : r ∈ s.running := List.mem_of_mem_eraseP hr
    have hgiven := (h.segments r hmem).2
    rw [hrd] at hgiven
    obtain ⟨a, l₁, l₂, -, ha, hl, herase⟩ := List.exists_of_eraseP hmem
      (p := fun r => r.user == (s.given d).1 && r.item == (s.given d).2) (by simp [hgiven])
    have ha' : a ∈ s.running := by simp [hl]
    have had : a.download = d := by
      apply segment_download h hc hdown ha'
      have : (a.user == (s.given d).1) = true := (Bool.and_eq_true_iff.mp ha).1
      exact beq_iff_eq.mp this
    -- the erased segment and `r` would be two of the same download
    have hr : r ∈ l₁ ++ l₂ := by
      rw [← herase]
      exact hr
    have hnodup := h.nodup
    rw [hl, List.map_append, List.map_cons, List.nodup_middle, List.nodup_cons,
      ← List.map_append] at hnodup
    apply hnodup.1
    rw [had, ← hrd]
    exact List.mem_map_of_mem hr

private theorem put_inv (h : s.Inv) (hc : s.connections[c]? = some conn) {d : Nat}
    (hdown : conn.download = some d) (hd : d ∈ s.downloads) (itemDone : Bool) :
    (s.putDownload d itemDone).Inv := by
  have hmem : ∀ d', d' ∈ (s.putDownload d itemDone).downloads ↔ d' ∈ s.downloads ∧ d' ≠ d := by
    intro d'
    simp [putDownload]
  obtain ⟨hsub, hne⟩ := running_put h hc hdown itemDone
  constructor
  · intro d'
    have hcount : (s.putDownload d itemDone).puts.count d' =
        s.puts.count d' + if d = d' then 1 else 0 := by
      simp [putDownload, List.count_singleton]
    have hnext : (s.putDownload d itemDone).next = s.next := rfl
    simp only [hcount, h.count d', hnext, hmem]
    by_cases hdd : d = d'
    · subst hdd
      simp [hd, h.bound d hd]
    · simp [hdd, Ne.symm hdd]
  · intro d' hd'
    exact h.bound d' ((hmem d').mp hd').1
  · intro d' hd'
    exact h.active d' ((hmem d').mp hd').1
  · intro c' conn' hc' d' hdown'
    have hp := h.points c' conn' hc' d' hdown'
    exact ⟨hp.bound, hp.user, hp.live, fun hd' => hp.works ((hmem d').mp hd').1⟩
  · exact h.users
  · intro r hr
    obtain ⟨hin, hgiven⟩ := h.segments r (hsub.subset hr)
    exact ⟨(hmem _).mpr ⟨hin, hne r hr⟩, hgiven⟩
  · exact h.nodup.sublist (hsub.map _)

private theorem keeps_put (h : Keeps c s conn) {d : Nat} (hdown : conn.download = some d)
    (hd : d ∈ s.downloads) (itemDone : Bool) : Keeps c (s.putDownload d itemDone) conn :=
  ⟨h.lt, put_inv (s := s.store c conn) h.inv (store_get h.lt) hdown hd itemDone⟩

private theorem put_free {d : Nat} (hdown : conn.download = some d) (itemDone : Bool) :
    (s.putDownload d itemDone).Free conn := by
  intro d' hd' hin
  rw [hdown, Option.some_inj] at hd'
  simp [putDownload, hd'] at hin

private theorem keeps_fail (h : Keeps c s conn)
    (hd : ∀ d, conn.download = some d → d ∈ s.downloads) (itemDone : Bool) :
    Keeps c (s.failDownload conn itemDone) conn ∧ (s.failDownload conn itemDone).Free conn := by
  rw [failDownload]
  cases hdown : conn.download with
  | none =>
    refine ⟨h, ?_⟩
    intro d hd'
    rw [hdown] at hd'
    cases hd'
  | some d => exact ⟨keeps_put h hdown (hd d hdown) itemDone, put_free hdown itemDone⟩

/-- A user has one live connection if every connection is one of before. -/
private theorem users_of_old (h : s.Inv) {l : List DownloadConnection}
    (hold : ∀ (k : Nat) a, l[k]? = some a → ∃ b, s.connections[k]? = some b ∧ a.user = b.user ∧
      (a.state ≠ .unused → b.state ≠ .unused)) (k k' : Nat) (a a' : DownloadConnection)
    (hk : l[k]? = some a) (hk' : l[k']? = some a') (hused : a.state ≠ .unused)
    (hused' : a'.state ≠ .unused) (hsame : a.user = a'.user) : k = k' := by
  obtain ⟨b, hb, hbuser, hblive⟩ := hold k a hk
  obtain ⟨b', hb', hbuser', hblive'⟩ := hold k' a' hk'
  apply h.users k k' b b' hb hb' (hblive hused) (hblive' hused')
  rw [← hbuser, ← hbuser', hsame]

/-- A change of a connection that drops no active download and takes no new one. -/
private theorem keeps_change (h : Keeps c s conn) {conn' : DownloadConnection}
    (huser : conn'.user = conn.user) (hlive : conn'.state ≠ .unused → conn.state ≠ .unused)
    (hdown : ∀ d, conn'.download = some d → conn.download = some d ∧ conn'.state ≠ .unused)
    (hworks : ∀ d ∈ s.downloads, conn.download = some d → conn'.worksOn d) :
    Keeps c s conn' := by
  obtain ⟨hlt, h⟩ := h
  have hself : (s.store c conn).connections[c]? = some conn := store_get hlt
  have hself' : (s.store c conn').connections[c]? = some conn' := store_get hlt
  have hother : ∀ {k : Nat}, k ≠ c →
      (s.store c conn').connections[k]? = (s.store c conn).connections[k]? := by
    intro k hk
    rw [store_get_ne hk, store_get_ne hk]
  refine ⟨hlt, h.count, h.bound, ?_, ?_, ?_, h.segments, h.nodup⟩
  · intro d hd
    obtain ⟨k, a, hk, ha⟩ := h.active d hd
    by_cases hkc : k = c
    · rw [hkc, hself, Option.some_inj] at hk
      rw [← hk] at ha
      exact ⟨c, conn', hself', (hworks d hd ha).1⟩
    · exact ⟨k, a, (hother hkc).trans hk, ha⟩
  · intro k a hk d hd
    by_cases hkc : k = c
    · rw [hkc, hself', Option.some_inj] at hk
      rw [← hk] at hd ⊢
      obtain ⟨hd, hused⟩ := hdown d hd
      have hp := h.points c conn hself d hd
      exact ⟨hp.bound, hp.user.trans huser.symm, hused, fun hin => hworks d hin hd⟩
    · have hp := h.points k a ((hother hkc).symm.trans hk) d hd
      exact ⟨hp.bound, hp.user, hp.live, hp.works⟩
  · -- every connection is one of before with the same user, live if this one is
    have hold : ∀ (k : Nat) a, (s.store c conn').connections[k]? = some a →
        ∃ b, (s.store c conn).connections[k]? = some b ∧ a.user = b.user ∧
          (a.state ≠ .unused → b.state ≠ .unused) := by
      intro k a hk
      by_cases hkc : k = c
      · rw [hkc, hself', Option.some_inj] at hk
        rw [hkc, ← hk]
        exact ⟨conn, hself, huser, hlive⟩
      · exact ⟨a, (hother hkc).symm.trans hk, rfl, id⟩
    exact users_of_old h hold

private theorem keeps_state (h : Keeps c s conn) (hfree : s.Free conn)
    {conn' : DownloadConnection} (huser : conn'.user = conn.user)
    (hdown : conn'.download = conn.download) (hused : conn.state ≠ .unused)
    (hused' : conn'.state ≠ .unused) : Keeps c s conn' := by
  apply keeps_change h huser (fun _ => hused)
  · intro d hd
    exact ⟨hdown ▸ hd, hused'⟩
  · intro d hin hd
    exact absurd hin (hfree d hd)

private theorem keeps_putConnection (h : Keeps c s conn) (hfree : s.Free conn) :
    Keeps c s (putConnection conn) := by
  refine @keeps_change s c conn h (putConnection conn) rfl ?_ ?_ ?_
  · intro hused
    exact absurd rfl hused
  · intro d hd
    cases hd
  · intro d hin hd
    exact absurd hin (hfree d hd)

/-- The next download is handed out to a connection that works on none. -/
private theorem keeps_handOut (h : Keeps c s conn) (hfree : s.Free conn)
    (hused : conn.state ≠ .unused) (item : Nat) :
    Keeps c (s.checkDownloads conn (some item)).1 (s.checkDownloads conn (some item)).2 := by
  obtain ⟨hlt, h⟩ := h
  have hself : (s.store c conn).connections[c]? = some conn := store_get hlt
  have hother : ∀ {k : Nat} {a}, k ≠ c →
      ((s.store c { conn with state := .snd, download := some s.next }).connections[k]? = some a ↔
        (s.store c conn).connections[k]? = some a) := by
    intro k a hk
    rw [store_get_ne hk, store_get_ne hk]
  have hself' : (s.store c { conn with state := .snd, download := some s.next }).connections[c]? =
      some { conn with state := .snd, download := some s.next } := store_get hlt
  have hmem : ∀ {d}, d ∈ s.downloads ++ [s.next] ↔ d ∈ s.downloads ∨ d = s.next := by
    simp
  have hgiven : ∀ {d}, d < s.next → (if d = s.next then (conn.user, item) else s.given d) =
      s.given d := fun hd => if_neg (Nat.ne_of_lt hd)
  refine ⟨hlt, ?_, ?_, ?_, ?_, ?_, ?_, ?_⟩
  · intro d
    refine (h.count d).trans ?_
    change (if d < s.next ∧ d ∉ s.downloads then 1 else 0) =
      if d < s.next + 1 ∧ d ∉ s.downloads ++ [s.next] then 1 else 0
    have hiff : d < s.next ∧ d ∉ s.downloads ↔
        d < s.next + 1 ∧ d ∉ s.downloads ++ [s.next] := by
      rw [hmem, not_or, Nat.lt_succ_iff_lt_or_eq]
      constructor
      · rintro ⟨hd, hout⟩
        exact ⟨.inl hd, hout, Nat.ne_of_lt hd⟩
      · rintro ⟨hd, hout, hne⟩
        exact ⟨hd.resolve_right hne, hout⟩
    simp only [hiff]
  · intro d hd
    rcases hmem.mp hd with hd | rfl
    · exact Nat.lt_succ_of_lt (h.bound d hd)
    · exact Nat.lt_succ_self _
  · intro d hd
    rcases hmem.mp hd with hin | rfl
    · obtain ⟨k, a, hk, ha⟩ := h.active d hin
      have hkc : k ≠ c := by
        intro hkc
        rw [hkc, hself, Option.some_inj] at hk
        rw [← hk] at ha
        exact hfree d ha hin
      exact ⟨k, a, (hother hkc).mpr hk, ha⟩
    · exact ⟨c, _, hself', rfl⟩
  · intro k a hk d hd
    by_cases hkc : k = c
    · rw [hkc] at hk
      have ha := Option.some_inj.mp (hself'.symm.trans hk)
      rw [← ha, Option.some_inj] at hd
      rw [← ha, ← hd]
      refine ⟨Nat.lt_succ_self _, ?_, ?_, fun _ => ⟨rfl, .inl rfl⟩⟩
      · exact congrArg Prod.fst (if_pos rfl)
      · exact ConnState.noConfusion
    · have hp := h.points k a ((hother hkc).mp hk) d hd
      refine ⟨Nat.lt_succ_of_lt hp.bound, ?_, hp.live, ?_⟩
      · exact (congrArg Prod.fst (hgiven hp.bound)).trans hp.user
      · intro hin
        rcases hmem.mp hin with hin | rfl
        · exact hp.works hin
        · exact absurd hp.bound (Nat.lt_irrefl _)
  · have hold : ∀ (k : Nat) a, (s.store c { conn with
        state := .snd, download := some s.next }).connections[k]? = some a →
        ∃ b, (s.store c conn).connections[k]? = some b ∧ a.user = b.user ∧
          (a.state ≠ .unused → b.state ≠ .unused) := by
      intro k a hk
      by_cases hkc : k = c
      · rw [hkc, hself', Option.some_inj] at hk
        rw [hkc, ← hk]
        exact ⟨conn, hself, rfl, fun _ => hused⟩
      · exact ⟨a, (hother hkc).mp hk, rfl, id⟩
    exact users_of_old h hold
  · intro r hr
    rcases List.mem_append.mp hr with hr | hr
    · obtain ⟨hin, heq⟩ := h.segments r hr
      exact ⟨hmem.mpr (.inl hin), (hgiven (h.bound _ hin)).trans heq⟩
    · rw [List.mem_singleton.mp hr]
      exact ⟨hmem.mpr (.inr rfl), if_pos rfl⟩
  · change ((s.running ++ [(⟨conn.user, item, s.next⟩ : RunningSegment)]).map
      RunningSegment.download).Nodup
    rw [List.map_append]
    refine List.nodup_append.mpr ⟨h.nodup, List.nodup_singleton _, ?_⟩
    intro d hd d' hd' hdd
    obtain ⟨r, hr, rfl⟩ := List.mem_map.mp hd
    have hlt := h.bound _ (h.segments r hr).1
    rw [hdd, List.mem_singleton.mp hd'] at hlt
    exact Nat.lt_irrefl _ hlt

/-- `checkDownloads` hands out a new download, or makes the connection idle. -/
private theorem keeps_checkDownloads (h : Keeps c s conn) (hfree : s.Free conn)
    (hused : conn.state ≠ .unused) (next : Option Nat) :
    Keeps c (s.checkDownloads conn next).1 (s.checkDownloads conn next).2 := by
  cases next with
  | none => exact keeps_state h hfree rfl rfl hused (by simp [checkDownloads])
  | some item => exact keeps_handOut h hfree hused item

private theorem keeps_endData (h : Keeps c s conn) (hused : conn.state ≠ .unused)
    (hd : ∀ d, conn.download = some d → d ∈ s.downloads) (r : EndResult) :
    Keeps c (s.endData conn r).1 (s.endData conn r).2 ∧
      (s.endData conn r).2.state ≠ .unused := by
  have hcheck : ∀ next s', (checkDownloads s' conn next).2.state ≠ .unused := by
    intro next s'
    cases next <;> exact ConnState.noConfusion
  cases r with
  | badTree itemDone next =>
    obtain ⟨hk, hfree⟩ := keeps_fail h hd itemDone
    exact ⟨keeps_checkDownloads hk hfree hused next, hcheck _ _⟩
  | flushFailed itemDone => exact ⟨(keeps_fail h hd itemDone).1, hused⟩
  | finished itemDone userCheck next =>
    obtain ⟨hk, hfree⟩ := keeps_fail h hd itemDone
    cases userCheck with
    | true => exact ⟨hk, hused⟩
    | false => exact ⟨keeps_checkDownloads hk hfree hused next, hcheck _ _⟩

/-- A connection may go on with its download. -/
private theorem keeps_running (h : Keeps c s conn) (hused : conn.state ≠ .unused)
    {conn' : DownloadConnection} (huser : conn'.user = conn.user)
    (hdown : conn'.download = conn.download)
    (hstate : conn'.state = .running ∨ conn'.state = conn.state) : Keeps c s conn' := by
  apply keeps_change h huser (fun _ => hused)
  · intro d hd
    refine ⟨hdown ▸ hd, ?_⟩
    rcases hstate with hs | hs
    · rw [hs]
      exact ConnState.noConfusion
    · rw [hs]
      exact hused
  · intro d hin hd
    refine ⟨hdown.trans hd, ?_⟩
    rcases hstate with hs | hs
    · exact .inr hs
    · rw [hs]
      exact ((h.inv.points c conn (store_get h.lt) d hd).works hin).2

private theorem keeps_processSND (h : Keeps c s conn) (hstate : conn.state = .snd)
    (hmode : conn.dataMode = false) (r : SndResult)
    (hd : givesBack conn (.snd r) → ∀ d, conn.download = some d → d ∈ s.downloads) :
    Keeps c (s.processSND conn r).1 (s.processSND conn r).2 := by
  have hused : conn.state ≠ .unused := by
    rw [hstate]
    exact ConnState.noConfusion
  cases r with
  | mismatch => exact h
  | rejected itemDone => exact (keeps_fail h (hd ⟨hmode, hstate⟩) itemDone).1
  | started => exact keeps_running h hused rfl rfl (.inl rfl)
  | empty r =>
    have hrun : Keeps c s { conn with state := .running } :=
      keeps_running h hused rfl rfl (.inl rfl)
    exact (keeps_endData hrun ConnState.noConfusion (hd ⟨hmode, hstate⟩) r).1

private theorem keeps_onData (h : Keeps c s conn) (hused : conn.state ≠ .unused)
    (hd : ∀ d, conn.download = some d → d ∈ s.downloads) (r : DataResult) :
    Keeps c (s.onData conn r).1 (s.onData conn r).2 := by
  cases r with
  | more => exact h
  | thrown itemDone => exact (keeps_fail h hd itemDone).1
  | ended r =>
    obtain ⟨hk, hused'⟩ := keeps_endData h hused hd r
    exact keeps_running hk hused' rfl rfl (.inr rfl)

private theorem keeps_fileNotAvailable (h : Keeps c s conn)
    (hd : ∀ d, conn.download = some d → d ∈ s.downloads) (itemDone : Bool) (next : Option Nat) :
    Keeps c (s.fileNotAvailable conn itemDone next).1
      (s.fileNotAvailable conn itemDone next).2 := by
  rw [fileNotAvailable]
  split
  · exact h
  · next d hdown =>
    have hused := (h.inv.points c conn (store_get h.lt) d hdown).live
    exact keeps_checkDownloads (keeps_put h hdown (hd d hdown) itemDone)
      (put_free hdown itemDone) hused next

private theorem keeps_noSlots (h : Keeps c s conn) (hused : conn.state ≠ .unused)
    (hd : ∀ d, conn.download = some d → d ∈ s.downloads) (itemDone : Bool) :
    Keeps c (s.noSlots conn itemDone).1 (s.noSlots conn itemDone).2 := by
  obtain ⟨hk, hfree⟩ := keeps_fail h hd itemDone
  exact keeps_state hk hfree rfl rfl hused ConnState.noConfusion

private theorem keeps_discard (h : Keeps c s conn)
    (hd : ∀ d, conn.download = some d → d ∈ s.downloads) (itemDone : Bool) :
    Keeps c (s.failDownload conn itemDone) (putConnection conn) := by
  obtain ⟨hk, hfree⟩ := keeps_fail h hd itemDone
  exact keeps_putConnection hk hfree

/-- An event on a connection keeps the invariant under the condition. -/
theorem onEvent_keeps (h : s.Inv) (hc : s.connections[c]? = some conn) (e : ConnEvent)
    (hok : Ok s (.on c e)) : Keeps c (s.onEvent conn e).1 (s.onEvent conn e).2 := by
  have hsame : Keeps c s conn :=
    ⟨(List.getElem?_eq_some_iff.mp hc).1, by rw [store_self hc]; exact h⟩
  have hsnd : conn.state = .snd → conn.state ≠ .unused := by
    intro hstate
    rw [hstate]
    exact ConnState.noConfusion
  have hline : (!conn.dataMode) = true → conn.dataMode = false := by simp
  obtain ⟨hback, hdiscard, hslots⟩ := hok conn hc
  cases e with
  | checkDownloads next =>
    rw [onEvent]
    split
    · next hstate =>
      have hfree : s.Free conn := by
        intro d hd hin
        have hw := ((h.points c conn hc d hd).works hin).2
        rcases hstate with hs | hs <;> rw [hs] at hw <;> simp at hw
      apply keeps_checkDownloads hsame hfree
      rcases hstate with hs | hs <;> rw [hs] <;> exact ConnState.noConfusion
    · exact hsame
  | snd r =>
    rw [onEvent]
    split
    · next hg =>
      exact keeps_processSND hsame hg.2 (hline hg.1) r hback
    · exact hsame
  | data r =>
    rw [onEvent]
    split
    · next hg =>
      obtain ⟨-, d, hd, hin⟩ := hg
      have hd : conn.download = some d := hd
      apply keeps_onData hsame (h.points c conn hc d hd).live
      intro d' hd'
      rw [hd, Option.some_inj] at hd'
      exact hd' ▸ hin
    · exact hsame
  | staFileNotAvailable itemDone next =>
    rw [onEvent]
    split
    · next hg => exact keeps_fileNotAvailable hsame (hback (hline hg)) itemDone next
    · exact hsame
  | staSlotsFull itemDone =>
    rw [onEvent]
    split
    · next hg =>
      exact keeps_noSlots hsame (hslots itemDone rfl) (hback (hline hg)) itemDone
    · exact hsame
  | errorFileNotAvailable userGetIp itemDone next =>
    rw [onEvent]
    split
    · next hg =>
      have hd := hback ⟨hline hg.1, hg.2⟩
      split
      · exact (keeps_fail hsame hd itemDone).1
      · exact keeps_fileNotAvailable hsame hd itemDone next
    · exact hsame
  | maxedOut itemDone =>
    rw [onEvent]
    split
    · next hg =>
      exact keeps_noSlots hsame (hsnd hg.2) (hback ⟨hline hg.1, hg.2⟩) itemDone
    · exact hsame
  | protocolError itemDone =>
    rw [onEvent]
    split
    · next hg => exact keeps_discard hsame (hback (hline hg)) itemDone
    · exact hsame
  | invalidLine =>
    rw [onEvent]
    split
    · next hg => exact keeps_putConnection hsame (hdiscard (hline hg))
    · exact hsame
  | close => exact keeps_putConnection hsame (hdiscard True.intro)
  | socketError itemDone =>
    rw [onEvent]
    split
    · exact hsame
    · next hused => exact keeps_discard hsame (hback hused) itemDone

/-! ### Runs -/

/-- A connection of a user that has no other one is added. -/
private theorem inv_connect (h : s.Inv) {user : Nat}
    (hnew : ∀ conn ∈ s.connections, conn.user = user → conn.state = .unused) :
    ({ s with connections := s.connections ++ [⟨user, .handshake, false, none⟩] } :
      Transfers).Inv := by
  have hold : ∀ {k : Nat} {a : DownloadConnection},
      (s.connections ++ [⟨user, .handshake, false, none⟩])[k]? = some a →
      s.connections[k]? = some a ∨
        k = s.connections.length ∧ a = ⟨user, .handshake, false, none⟩ := by
    intro k a hk
    rw [List.getElem?_append] at hk
    split at hk
    · exact .inl hk
    · rw [List.getElem?_singleton] at hk
      split at hk
      · exact .inr ⟨by omega, (Option.some_inj.mp hk).symm⟩
      · cases hk
  refine ⟨h.count, h.bound, ?_, ?_, ?_, h.segments, h.nodup⟩
  · intro d hd
    obtain ⟨k, a, hk, ha⟩ := h.active d hd
    refine ⟨k, a, ?_, ha⟩
    exact (List.getElem?_append_left (List.getElem?_eq_some_iff.mp hk).1).trans hk
  · intro k a hk d hd
    rcases hold hk with hk | ⟨-, rfl⟩
    · have hp := h.points k a hk d hd
      exact ⟨hp.bound, hp.user, hp.live, hp.works⟩
    · cases hd
  · intro k k' a a' hk hk' hused hused' hsame
    rcases hold hk with hk | ⟨hkc, rfl⟩ <;> rcases hold hk' with hk' | ⟨hkc', rfl⟩
    · exact h.users k k' a a' hk hk' hused hused' hsame
    · exact absurd (hnew a (List.mem_of_getElem? hk) hsame) hused
    · exact absurd (hnew a' (List.mem_of_getElem? hk') hsame.symm) hused'
    · rw [hkc, hkc']

/-- Running segments may be taken out. -/
private theorem inv_running (h : s.Inv) {l : List RunningSegment}
    (hsub : List.Sublist l s.running) : ({ s with running := l } : Transfers).Inv := by
  refine ⟨h.count, h.bound, h.active, ?_, h.users, ?_, h.nodup.sublist (hsub.map _)⟩
  · intro k a hk d hd
    have hp := h.points k a hk d hd
    exact ⟨hp.bound, hp.user, hp.live, hp.works⟩
  · intro r hr
    exact h.segments r (hsub.subset hr)

theorem step_inv (h : s.Inv) (e : Event) (hok : Ok s e) : (s.step e).Inv := by
  cases e with
  | addConnection user usable next =>
    rw [step]
    split
    · next hnew =>
      have hinv := inv_connect h hnew
      cases usable with
      | false => exact hinv
      | true =>
        -- the new connection is the last one
        have hk : Keeps s.connections.length
            { s with connections := s.connections ++ [⟨user, .handshake, false, none⟩] }
            ⟨user, .handshake, false, none⟩ := by
          refine ⟨by simp, ?_⟩
          rw [store_self (by simp)]
          exact hinv
        have hinv' := (keeps_checkDownloads hk (fun _ hd => by cases hd)
          ConnState.noConfusion next).inv
        cases next <;> simpa [store, checkDownloads] using hinv'
    · exact h
  | on c e =>
    rw [step]
    split
    · exact h
    · next conn hc => exact (onEvent_keeps h hc e hok).inv
  | removeItem item => exact inv_running h List.filter_sublist
  | removeSource user item => exact inv_running h List.eraseP_sublist

theorem inv_initial : initial.Inv := by
  constructor <;> simp [initial]

/-- In a run whose every path that gives a download back meets it active, and whose every discarded
connection has none active, each download is put once, before its connection is discarded, and the
running segments belong to connections that work on them. -/
theorem balanced_of_within (es : List Event) (h : Within Ok step initial es) (pre : List Event)
    (hpre : pre <+: es) : (run step initial pre).Balanced := by
  obtain ⟨post, rfl⟩ := hpre
  have hw := ((within_append Ok step initial pre post).mp h).1
  exact (hw.invariant Inv (fun _ e hs he => step_inv hs e he) inv_initial).balanced

/-- A transfer fails while its data arrives. -/
theorem balanced_socketError :
    (run step initial [.addConnection 0 true (some 0), .on 0 (.snd .started),
      .on 0 (.socketError false)]).Balanced :=
  balanced_of_within _ (by
    refine ⟨True.intro, ?_, ?_, True.intro⟩
    all_goals
      intro conn hconn
      cases hconn
      simp [givesBack, discards, step, initial, checkDownloads, onEvent, processSND]) _
    List.prefix_rfl

/-- A segment is finished, nothing else is to be had, and the idle connection fails: the download
is put a second time. -/
theorem not_balanced_idle :
    ¬(run step initial [.addConnection 0 true (some 0), .on 0 (.snd .started),
      .on 0 (.data (.ended (.finished false false none))),
      .on 0 (.socketError false)]).Balanced := by
  intro h
  exact absurd (h.1 0 (by decide)).1 (by decide)

end Transfers
end Blacklink.Transfer
