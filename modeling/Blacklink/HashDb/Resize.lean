import Mathlib.Algebra.Order.BigOperators.Group.Finset
import Blacklink.HashDb.Database

/-!
# Resizing the map

A thread that meets `MDB_MAP_FULL` waits until no transaction is open, doubles the map and lets the
others go on (`client/HashDatabaseLMDB.cpp:326-345, 859-964`). A thread that has waited for the
resize of another one looks at the state again to learn whether the map was resized; when a third
thread has begun the next resize by then, it takes that resize for its own. Besides, a transaction
whose `mdb_dbi_open` fails stays open after the count was given back. In every run without these
two events the map size is changed by the thread that asked for it, and no transaction is open.
-/

namespace Blacklink.HashDb

open Blacklink.Base

namespace Resize

/-- A thread that waited finds that the resize is over, and no `mdb_dbi_open` fails. -/
def Condition (l : Local) : (a : Action) → a.Response → Prop
  | .getSharedState, state => l.role = .waiter → state = .normal
  | .dbiOpen _, error => error = 0
  | _, _ => True

/-- What the shared state ensures: nobody shuts the database down, and the state is
`STATE_RESIZE` for the thread that has set it. -/
def Ensured (l : Local) : (a : Action) → a.Response → Prop
  | .startResize, result => result = true
  | .notShutdown, result => result = true
  | .getSharedState, state => l.role = .resizing → state = .resize
  | _, _ => True

/-- The open transactions of a connection. -/
def openTxns (l : Local) : Int := (if l.txnRead = .active then 1 else 0) + l.writeTxns

/-- The thread has a role, and of the transactions it holds at least `n` are not open. -/
structure At (role : Role) (n : Int) (l : Local) : Prop where
  role : l.role = role
  covered : n + openTxns l ≤ l.held

/-- The role in which an action is performed, and what is held at a release. -/
def need (l : Local) : Action → Prop
  | .addTransaction => l.role = .none
  | .releaseTransaction => At .none 1 l
  | .beginRead => At .none 1 l
  | .renewRead => At .none 1 l
  | .beginWrite => At .none 1 l
  | .enterResize => l.role = .none
  | .waitMayResize => l.role = .wanting
  | .startResize => l.role = .granted
  | .notifyMayResize => l.role = .notifying
  | .getSharedState => l.role = .waiter ∨ l.role = .resizing
  | .setMapsize _ => l.role = .resizing
  | .completeResize => l.role = .resizing
  | .notifyResizeComplete => l.role = .completing
  | _ => True

/-- The contract of the operations. -/
def contract : Contract Local Action Action.Response :=
  ⟨need, fun l a r => Condition l a r ∧ Ensured l a r, Local.next⟩

/-- No role, and every open transaction is counted. -/
def Rest (l : Local) : Prop := At .none 0 l

/-! ### Transactions -/

/-- The actions that do not change the transactions, the count or the role. -/
private def quiet : Action → Bool
  | .hasTxnRead | .dbiOpen _ | .get _ | .change _ _ | .fillBuf _ _ | .cursorOpen | .cursorWalk
  | .envStat | .envInfo | .waitResizeComplete | .notShutdown => true
  | _ => false

/-- Two local states with the same transactions, count and role. -/
private structure Same (k l : Local) : Prop where
  txnRead : l.txnRead = k.txnRead
  writeTxns : l.writeTxns = k.writeTxns
  held : l.held = k.held
  role : l.role = k.role

private theorem Same.at {k l : Local} {role : Role} {n : Int} (h : Same k l) (hk : At role n k) :
    At role n l := by
  refine ⟨h.role.trans hk.role, ?_⟩
  have hcovered := hk.covered
  rw [openTxns] at hcovered ⊢
  rw [h.txnRead, h.writeTxns, h.held]
  exact hcovered

private theorem same_next {a : Action} (ha : quiet a = true) (l : Local) (r : a.Response) :
    Same l (l.next a r) := by
  cases a with
  | change key change =>
    simp only [Local.next, Local.note]
    split_ifs <;> exact ⟨rfl, rfl, rfl, rfl⟩
  | _ => first | contradiction | exact ⟨rfl, rfl, rfl, rfl⟩

private theorem meets_quiet {l : Local} {a : Action} {α : Type} {f : a.Response → Code α}
    {post : Local → α → Prop} (ha : quiet a = true)
    (hf : ∀ r l', Condition l a r → Ensured l a r → Same l l' → Meets contract post l' (f r)) :
    Meets contract post l (call a >>= f) := by
  apply meets_call_bind
  · cases a <;> trivial
  · intro r hr
    exact hf r _ hr.1 hr.2 (same_next ha l r)

private theorem covered_abortRead {l : Local} {role : Role} {n : Int} (h : At role n l) :
    At role n (l.next .abortRead ()) := by
  refine ⟨h.role, ?_⟩
  have hcovered := h.covered
  rw [openTxns] at hcovered ⊢
  simp only [Local.next]
  split at hcovered <;> simp at hcovered ⊢ <;> omega

private theorem releaseTransaction_meets {l : Local} (h : At .none 1 l) :
    Meets contract (fun l' _ => Rest l') l releaseTransaction := by
  apply meets_call_bind h
  rintro ⟨state, n⟩ _
  have hcovered := h.covered
  have hafter : ∀ role, (l.next .releaseTransaction (state, n)).role = role →
      At role 0 (l.next .releaseTransaction (state, n)) := by
    intro role hrole
    have hopen : openTxns (l.next .releaseTransaction (state, n)) = openTxns l := rfl
    have hheld : (l.next .releaseTransaction (state, n)).held = l.held - 1 := rfl
    exact ⟨hrole, by omega⟩
  apply meets_ite
  · intro hstate
    apply meets_call_bind trivial
    intro _ _
    apply meets_ite
    · intro hn
      have hnotify := covered_abortRead (hafter .notifying (if_pos ⟨hstate, hn⟩))
      exact meets_call hnotify.role fun _ _ => ⟨rfl, hnotify.covered⟩
    · intro hn
      have hrole : (l.next .releaseTransaction (state, n)).role = l.role := if_neg fun hc => hn hc.2
      exact covered_abortRead (hafter .none (hrole.trans h.role))
  · intro hstate
    have hrole : (l.next .releaseTransaction (state, n)).role = l.role :=
      if_neg fun hc => hstate hc.1
    exact hafter .none (hrole.trans h.role)

private theorem release_meets {l : Local} {α : Type} {x : α} {post : Local → α → Prop}
    (h : At .none 1 l) (hpost : ∀ l', Rest l' → post l' x) :
    Meets contract post l (releaseTransaction >>= fun _ => pure x) :=
  (releaseTransaction_meets h).bind fun l' _ h' => hpost l' h'

/-- A read transaction of the connection is open. -/
private structure Reading (l : Local) : Prop where
  rest : Rest l
  active : l.txnRead = .active

/-- A write transaction of the connection is open. -/
private structure Writing (l : Local) : Prop where
  rest : Rest l
  pos : 0 < l.writeTxns

private theorem Same.reading {k l : Local} (h : Same k l) (hk : Reading k) : Reading l :=
  ⟨h.at hk.rest, h.txnRead.trans hk.active⟩

private theorem Same.writing {k l : Local} (h : Same k l) (hk : Writing k) : Writing l :=
  ⟨h.at hk.rest, h.writeTxns ▸ hk.pos⟩

private theorem at_addTransaction {l : Local} (h : Rest l) :
    At .none 1 (l.next .addTransaction true) := by
  have hcovered := h.covered
  have hopen : openTxns (l.next .addTransaction true) = openTxns l := rfl
  have hheld : (l.next .addTransaction true).held = l.held + 1 := rfl
  exact ⟨h.role, by omega⟩

private theorem reading_active {l : Local} (h : At .none 1 l) :
    Reading { l with txnRead := .active } := by
  refine ⟨⟨h.role, ?_⟩, rfl⟩
  have hcovered := h.covered
  simp only [openTxns, if_pos] at hcovered ⊢
  split at hcovered <;> omega

private theorem writing_begun {l : Local} {error : Int} (h : At .none 1 l) (herror : error = 0) :
    Writing (l.next .beginWrite error) := by
  rw [Local.next, if_pos herror]
  refine ⟨⟨h.role, ?_⟩, Nat.succ_pos _⟩
  have hcovered := h.covered
  simp only [openTxns] at hcovered ⊢
  push_cast
  omega

private theorem at_not_begun {l : Local} {error : Int} (h : At .none 1 l) (herror : error ≠ 0) :
    At .none 1 (l.next .beginWrite error) := by
  rwa [Local.next, if_neg herror]

private theorem openReadDbi_meets {l : Local} (h : Reading l) :
    Meets contract (fun l' ok => if ok then Reading l' else Rest l') l openReadDbi := by
  apply meets_quiet rfl
  intro error l' hopen _ hsame
  apply meets_ite
  · intro herror
    exact absurd hopen herror
  · intro _
    exact hsame.reading h

private theorem createReadTxn_meets {l : Local} (h : Rest l) :
    Meets contract (fun l' ok => if ok then Reading l' else Rest l') l createReadTxn := by
  apply meets_call_bind h.role
  intro added _
  cases added with
  | false => exact h
  | true =>
    have hadded := at_addTransaction h
    apply meets_quiet rfl
    intro has l₁ _ _ hsame
    have h1 := hsame.at hadded
    apply meets_ite
    · intro _
      apply meets_call_bind h1
      intro error _
      apply meets_ite
      · intro herror
        have h2 : At .none 1 (l₁.next .beginRead error) := by rwa [Local.next, if_neg herror]
        exact release_meets h2 fun _ h0 => h0
      · intro herror
        have h2 : Reading (l₁.next .beginRead error) := by
          rw [Local.next, if_pos (not_not.mp herror)]
          exact reading_active h1
        exact openReadDbi_meets h2
    · intro _
      apply meets_call_bind h1
      intro error _
      apply meets_ite
      · intro herror
        have h2 : At .none 1 (l₁.next .renewRead error) := by rwa [Local.next, if_neg herror]
        apply meets_call_bind trivial
        intro _ _
        exact release_meets (covered_abortRead h2) fun _ h0 => h0
      · intro herror
        have h2 : Reading (l₁.next .renewRead error) := by
          rw [Local.next, if_pos (not_not.mp herror)]
          exact reading_active h1
        exact openReadDbi_meets h2

private theorem completeReadTxn_meets {l : Local} (h : Reading l) :
    Meets contract (fun l' _ => Rest l') l completeReadTxn := by
  apply meets_call_bind trivial
  intro _ _
  apply releaseTransaction_meets
  refine ⟨h.rest.role, ?_⟩
  have hcovered := h.rest.covered
  simp only [openTxns, h.active, if_pos] at hcovered
  simp [contract, Local.next, openTxns, h.active]
  omega

private theorem createWriteTxn_meets {l : Local} (h : Rest l) :
    Meets contract (fun l' ok => if ok then Writing l' else Rest l') l createWriteTxn := by
  apply meets_call_bind h.role
  intro added _
  cases added with
  | false => exact h
  | true =>
    have hadded := at_addTransaction h
    apply meets_call_bind hadded
    intro error _
    apply meets_ite
    · intro herror
      exact release_meets (at_not_begun hadded herror) fun _ h0 => h0
    · intro herror
      have h2 := writing_begun hadded (not_not.mp herror)
      apply meets_quiet rfl
      intro error' l' hopen _ hsame
      apply meets_ite
      · intro herror'
        exact absurd hopen herror'
      · intro _
        exact hsame.writing h2

/-- A write transaction is aborted or committed. -/
private theorem at_closed {l l' : Local} (h : Writing l) (hrole : l'.role = l.role)
    (hread : l'.txnRead = l.txnRead) (hheld : l'.held = l.held)
    (hwrite : l'.writeTxns = l.writeTxns - 1) : At .none 1 l' := by
  refine ⟨hrole.trans h.rest.role, ?_⟩
  have hcovered := h.rest.covered
  have hpos := h.pos
  rw [openTxns] at hcovered ⊢
  rw [hread, hheld, hwrite]
  omega

private theorem abortWriteTxn_meets {l : Local} (h : Writing l) :
    Meets contract (fun l' _ => Rest l') l abortWriteTxn := by
  apply meets_call_bind trivial
  intro _ _
  exact releaseTransaction_meets (at_closed h rfl rfl rfl rfl)

/-! ### Resizing -/

private theorem at_of_role {l l' : Local} {role role' : Role} {n : Int} (h : At role n l)
    (hrole : l'.role = role') (hread : l'.txnRead = l.txnRead)
    (hwrite : l'.writeTxns = l.writeTxns) (hheld : l'.held = l.held) : At role' n l' := by
  refine ⟨hrole, ?_⟩
  have hcovered := h.covered
  rw [openTxns] at hcovered ⊢
  rwa [hread, hheld, hwrite]

/-- Once the request has succeeded, the thread has waited for another one or has to resize the map
itself. -/
private theorem requestResize_meets {l : Local} (h : Rest l) :
    Meets contract (fun l' ok => ok = true ∧ (At .waiter 0 l' ∨ At .resizing 0 l')) l
      requestResize := by
  apply meets_call_bind h.role
  rintro ⟨prev, new⟩ _
  apply meets_ite
  · intro hprev
    have hwaiter : At .waiter 0 (l.next .enterResize (prev, new)) := by
      rw [Local.next, Local.enterResize, if_pos hprev]
      exact at_of_role h rfl rfl rfl rfl
    apply meets_quiet rfl
    intro _ l' _ _ hsame
    refine meets_call trivial fun result hr => ⟨hr.2, .inl ?_⟩
    exact hsame.at hwaiter
  · intro hprev
    apply meets_ite
    · intro hnew
      have hwanting : At .wanting 0 (l.next .enterResize (prev, new)) := by
        rw [Local.next, Local.enterResize, if_neg hprev, if_pos hnew]
        exact at_of_role h rfl rfl rfl rfl
      apply meets_call_bind hwanting.role
      intro _ _
      refine meets_call rfl fun result hr => ?_
      have hresult : result = true := hr.2
      subst hresult
      exact ⟨rfl, .inr (at_of_role hwanting rfl rfl rfl rfl)⟩
    · intro hnew
      refine ⟨rfl, .inr ?_⟩
      show At .resizing 0 (l.next .enterResize (prev, new))
      rw [Local.next, Local.enterResize, if_neg hprev, if_neg hnew]
      exact at_of_role h rfl rfl rfl rfl

private theorem completeResize_meets {l : Local} {α : Type} {x : α} (h : At .resizing 0 l) :
    Meets contract (fun l' _ => Rest l') l (completeResize >>= fun _ => pure x) := by
  have hcomplete : Meets contract (fun l' _ => Rest l') l completeResize := by
    apply meets_call_bind h.role
    intro _ _
    exact meets_call rfl fun _ _ => at_of_role h rfl rfl rfl rfl
  exact hcomplete.bind fun _ _ h' => h'

private theorem resizeMap_meets {l : Local} (h : Rest l) :
    Meets contract (fun l' _ => Rest l') l resizeMap := by
  apply (requestResize_meets h).bind
  rintro l' ok ⟨rfl, hrole⟩
  rcases hrole with hwaiter | hresizing
  · apply meets_call_bind (Or.inl hwaiter.role)
    intro state hr
    have hnormal : state = .normal := hr.1 hwaiter.role
    subst hnormal
    exact at_of_role hwaiter rfl rfl rfl rfl
  · apply meets_call_bind (Or.inr hresizing.role)
    intro state hr
    have hresize : state = .resize := hr.2 hresizing.role
    subst hresize
    apply meets_quiet rfl
    intro info l₂ _ _ hsame
    have h2 : At .resizing 0 l₂ := hsame.at hresizing
    cases info with
    | error _ => exact completeResize_meets h2
    | ok mapsize =>
      apply meets_call_bind h2.role
      intro error _
      exact completeResize_meets h2

/-! ### Operations -/

private theorem retry_meets {key : TTHValue} {change : Change} {l : Local} {attempts : Nat}
    (h : Rest l)
    (ih : ∀ l', Writing l' →
      Meets contract (fun l' _ => Rest l') l' (changeData key change attempts)) :
    Meets contract (fun l' _ => Rest l') l (do
      if (← resizeMap) = false then pure false
      else if (← createWriteTxn) = false then pure false
      else changeData key change attempts) := by
  apply (resizeMap_meets h).bind
  intro l' ok h'
  apply meets_ite
  · intro _
    exact h'
  · intro _
    apply (createWriteTxn_meets h').bind
    intro l₂ ok h2
    cases ok with
    | false => exact h2
    | true => exact ih l₂ h2

private theorem At.rest {l : Local} (h : At .none 1 l) : Rest l :=
  ⟨h.role, by have hcovered := h.covered; omega⟩

private theorem changeData_meets (key : TTHValue) (change : Change) {attempts : Nat} {l : Local}
    (h : Writing l) :
    Meets contract (fun l' _ => Rest l') l (changeData key change attempts) := by
  induction attempts generalizing l with
  | zero => exact h.rest
  | succ attempts ih =>
    apply meets_quiet rfl
    intro error l₁ _ _ hsame
    have h1 := hsame.writing h
    apply meets_ite
    · intro _
      apply (abortWriteTxn_meets h1).bind
      intro l₂ _ h2
      exact retry_meets h2 fun _ h3 => ih h3
    · intro _
      apply meets_ite
      · intro _
        apply (abortWriteTxn_meets h1).bind
        intro l₂ _ h2
        exact h2
      · intro _
        apply meets_call_bind trivial
        intro error' _
        have hclosed : At .none 1 (l₁.next .commit error') := by
          simp only [Local.next, Local.note]
          split_ifs <;> exact at_closed h1 rfl rfl rfl rfl
        apply meets_ite
        · intro _
          apply (releaseTransaction_meets hclosed).bind
          intro l₂ _ h2
          exact retry_meets h2 fun _ h3 => ih h3
        · intro _
          apply meets_ite
          · intro _
            exact hclosed.rest
          · intro _
            exact release_meets hclosed fun _ h0 => h0

private theorem writeStored_meets (key : TTHValue) (stored : Stored) {l : Local} (h : Writing l) :
    Meets contract (fun l' _ => Rest l') l (writeStored key stored) := by
  apply meets_quiet rfl
  intro buf l' _ _ hsame
  exact (changeData_meets key _ (hsame.writing h)).bind fun _ _ h0 => h0

private theorem getFileInfo_meets (tth : TTHValue) {l : Local} (h : Rest l) :
    Meets contract (fun l' _ => Rest l') l (getFileInfo tth) := by
  apply (createReadTxn_meets h).bind
  intro l' ok h'
  cases ok with
  | false => exact h'
  | true =>
    apply meets_quiet rfl
    intro val l₂ _ _ hsame
    have h2 := hsame.reading h'
    split
    · exact (completeReadTxn_meets h2).bind fun _ _ h0 => h0
    · exact (completeReadTxn_meets h2).bind fun _ _ h0 => h0

private theorem getTigerTree_meets (tth : TTHValue) {l : Local} (h : Rest l) :
    Meets contract (fun l' _ => Rest l') l (getTigerTree tth) := by
  apply (createReadTxn_meets h).bind
  intro l' ok h'
  cases ok with
  | false => exact h'
  | true =>
    apply meets_quiet rfl
    intro val l₂ _ _ hsame
    have h2 := hsame.reading h'
    split
    · exact (completeReadTxn_meets h2).bind fun _ _ h0 => h0
    · split
      · exact (completeReadTxn_meets h2).bind fun _ _ h0 => h0
      -- the transaction stays open and counted
      · exact h2.rest
      · exact (completeReadTxn_meets h2).bind fun _ _ h0 => h0

private theorem putFileInfo_meets (tth : TTHValue) (u : FileUpdate) {l : Local} (h : Rest l) :
    Meets contract (fun l' _ => Rest l') l (putFileInfo tth u) := by
  apply (createWriteTxn_meets h).bind
  intro l' ok h'
  cases ok with
  | false => exact h'
  | true =>
    apply meets_quiet rfl
    intro val l₂ _ _ hsame
    have h2 := hsame.writing h'
    split
    · exact (abortWriteTxn_meets h2).bind fun _ _ h0 => h0
    · exact writeStored_meets _ _ h2

private theorem putTigerTree_meets (tree : Hash.MerkleTree TTHValue) {l : Local} (h : Rest l) :
    Meets contract (fun l' _ => Rest l') l (putTigerTree tree) := by
  apply meets_ite
  · intro _
    exact h
  · intro _
    apply (createWriteTxn_meets h).bind
    intro l' ok h'
    cases ok with
    | false => exact h'
    | true =>
      apply meets_quiet rfl
      intro val l₂ _ _ hsame
      have h2 := hsame.writing h'
      split
      · exact (abortWriteTxn_meets h2).bind fun _ _ h0 => h0
      · exact writeStored_meets _ _ h2

private theorem removeTigerTree_meets (tth : TTHValue) {l : Local} (h : Rest l) :
    Meets contract (fun l' _ => Rest l') l (removeTigerTree tth) := by
  apply (createWriteTxn_meets h).bind
  intro l' ok h'
  cases ok with
  | false => exact h'
  | true =>
    apply meets_quiet rfl
    intro val l₂ _ _ hsame
    have h2 := hsame.writing h'
    split
    · exact (abortWriteTxn_meets h2).bind fun _ _ h0 => h0
    · apply meets_quiet rfl
      intro _ l₃ _ _ hsame3
      exact (changeData_meets tth .del (hsame3.writing h2)).bind fun _ _ h0 => h0
    · exact writeStored_meets _ _ h2

private theorem readMapSize_meets (flags : DbInfoFlags) {l : Local} (h : Rest l) :
    Meets contract (fun l' _ => Rest l') l (readMapSize flags) := by
  apply meets_ite
  · intro _
    apply meets_quiet rfl
    intro info l' _ _ hsame
    cases info with
    | error _ => exact hsame.at h
    | ok _ => exact hsame.at h
  · intro _
    exact h

private theorem getDBInfo_meets (flags : DbInfoFlags) {l : Local} (h : Rest l) :
    Meets contract (fun l' _ => Rest l') l (getDBInfo flags) := by
  apply meets_quiet rfl
  intro stat l' _ _ hsame
  have h' : Rest l' := hsame.at h
  cases stat with
  | error _ => exact h'
  | ok stat =>
    apply meets_ite
    · intro _
      exact h'
    · intro _
      apply (readMapSize_meets flags h').bind
      intro l₂ mapSize h2
      apply (createReadTxn_meets h2).bind
      intro l₃ ok h3
      cases ok with
      | false => exact h3
      | true =>
        apply meets_quiet rfl
        intro error l₄ _ _ hsame4
        have h4 := hsame4.reading h3
        apply meets_ite
        · intro _
          exact h4.rest
        · intro _
          apply meets_quiet rfl
          intro entries l₅ _ _ hsame5
          exact (completeReadTxn_meets (hsame5.reading h4)).bind fun _ _ h0 => h0

/-- Every operation keeps to the contract: when it ends, its open transactions are counted. -/
theorem code_meets (op : Op) {l : Local} (h : Rest l) :
    Meets contract (fun l' _ => Rest l') (l.start op) op.code := by
  have hstart : Rest (l.start op) := at_of_role h rfl rfl rfl rfl
  cases op with
  | getFileInfo tth => exact getFileInfo_meets tth hstart
  | getTigerTree tth => exact getTigerTree_meets tth hstart
  | putFileInfo tth u => exact putFileInfo_meets tth u hstart
  | putTigerTree tree => exact putTigerTree_meets tree hstart
  | removeTigerTree tth => exact removeTigerTree_meets tth hstart
  | getDBInfo flags => exact getDBInfo_meets flags hstart

/-! ### The protocol -/

/-- The open transactions of a connection are counted. -/
def Covered (l : Local) : Prop := openTxns l ≤ l.held

private theorem openTxns_le {l l' : Local} (hread : l'.txnRead = l.txnRead ∨ l'.txnRead ≠ .active)
    (hwrite : l'.writeTxns ≤ l.writeTxns) : openTxns l' ≤ openTxns l := by
  rw [openTxns, openTxns]
  rcases hread with hread | hread
  · rw [hread]
    omega
  · rw [if_neg hread]
    split <;> omega

private theorem covered_next {l : Local} {a : Action} (hneed : need l a) (h : Covered l)
    (r : a.Response) : Covered (l.next a r) := by
  have of_same : ∀ l', Same l l' → Covered l' := by
    intro l' hsame
    rw [Covered, openTxns, hsame.txnRead, hsame.writeTxns, hsame.held]
    exact h
  have of_le : ∀ l', l'.held = l.held → openTxns l' ≤ openTxns l → Covered l' := by
    intro l' hheld hopen
    rw [Covered, hheld]
    exact hopen.trans h
  cases a with
  | addTransaction =>
    simp only [Local.next]
    split
    · rw [Covered] at h ⊢
      exact h.trans (Int.le_add_one le_rfl)
    · exact h
  | releaseTransaction =>
    have hcovered := hneed.covered
    have hopen : openTxns (l.next .releaseTransaction r) = openTxns l := rfl
    have hheld : (l.next .releaseTransaction r).held = l.held - 1 := rfl
    rw [Covered]
    omega
  | beginRead =>
    simp only [Local.next]
    split
    · exact (reading_active hneed).rest.covered.trans' (by simp)
    · exact h
  | renewRead =>
    simp only [Local.next]
    split
    · exact (reading_active hneed).rest.covered.trans' (by simp)
    · exact h
  | beginWrite =>
    simp only [Local.next]
    split
    · next herror =>
      have hbegun := (writing_begun hneed herror).rest.covered
      rw [Local.next, if_pos herror] at hbegun
      exact hbegun.trans' (by simp)
    · exact h
  | abortRead => exact of_le _ rfl (openTxns_le (.inr (by simp [Local.next])) le_rfl)
  | resetRead =>
    refine of_le _ rfl (openTxns_le (.inr ?_) le_rfl)
    simp only [Local.next]
    split <;> simp
  | abortWrite => exact of_le _ rfl (openTxns_le (.inl rfl) (Nat.sub_le _ _))
  | commit =>
    simp only [Local.next, Local.note]
    split_ifs <;> exact of_le _ rfl (openTxns_le (.inl rfl) (Nat.sub_le _ _))
  | enterResize =>
    simp only [Local.next, Local.enterResize]
    split_ifs <;> exact h
  | startResize =>
    simp only [Local.next]
    split <;> exact h
  | getSharedState =>
    simp only [Local.next]
    split <;> exact h
  | change key change => exact of_same _ (same_next rfl l r)
  | _ => exact h

/-- No resize is under way while a transaction is open, and `mayResize` is not set before the last
one has ended. -/
structure SharedOk (s : Shared) : Prop where
  running : s.sharedState ≠ .shutdown
  resize : s.sharedState = .resize → s.numTxn = 0
  mayResize : s.sharedState = .wantResize → s.mayResize = true → s.numTxn = 0

/-- What the role of a thread says about the shared state. -/
def RoleOk (s : Shared) : Role → Prop
  | .wanting => s.sharedState = .wantResize
  | .granted => s.sharedState = .wantResize ∧ s.numTxn = 0
  | .resizing => s.sharedState = .resize
  | .notifying => s.sharedState = .wantResize ∧ s.numTxn = 0 ∧ s.mayResize = false
  | .none => True
  | .waiter => True
  | .completing => True

/-- The thread has asked for the resize that is under way. -/
def owner : Role → Bool
  | .wanting => true
  | .granted => true
  | .resizing => true
  | _ => false

/-- The roles that two threads do not have at a time. -/
def Excludes (r r' : Role) : Prop :=
  (owner r = true ∧ owner r' = true) ∨ (r = .notifying ∧ (r' = .notifying ∨ r' = .granted)) ∨
    (r = .granted ∧ r' = .notifying)

/-- What a step of the thread with the state `l` leaves: the shared state and its own role agree,
and so does every role another thread can have. -/
structure Agrees (s : Shared) (l : Local) (s' : Shared) (l' : Local) : Prop where
  shared : SharedOk s'
  role : RoleOk s' l'.role
  others : ∀ role, RoleOk s role → ¬ Excludes l.role role →
    RoleOk s' role ∧ ¬ Excludes l'.role role

/-- A step that changes neither the role nor what the roles say about the shared state. -/
private theorem agrees_same {s s' : Shared} {l l' : Local} (hs : SharedOk s)
    (hrole : RoleOk s l.role) (hstate : s'.sharedState = s.sharedState)
    (hnum : s'.numTxn = s.numTxn) (hmay : s'.mayResize = s.mayResize) (hl : l'.role = l.role) :
    Agrees s l s' l' := by
  have hiff : ∀ role, RoleOk s' role ↔ RoleOk s role := by
    intro role
    cases role <;> simp only [RoleOk, hstate, hnum, hmay]
  refine ⟨⟨hstate ▸ hs.running, ?_, ?_⟩, hl ▸ (hiff _).mpr hrole, ?_⟩
  · rw [hstate, hnum]
    exact hs.resize
  · rw [hstate, hnum, hmay]
    exact hs.mayResize
  · intro role hok hex
    exact ⟨(hiff role).mpr hok, hl ▸ hex⟩

private theorem agrees_addTransaction {s : Shared} {l : Local} {env : Env} {r : Bool}
    (hs : SharedOk s) (hnone : l.role = .none) (hr : s.reply l env .addTransaction = some r) :
    Agrees s l (s.next l .addTransaction r) (l.next .addTransaction r) := by
  have hnormal : s.sharedState = .normal ∧ r = true := by
    have hrunning := hs.running
    cases hstate : s.sharedState <;> simp_all [Shared.reply]
  obtain ⟨hstate, rfl⟩ := hnormal
  refine ⟨⟨by simp [Shared.next, hstate], by simp [Shared.next, hstate],
    by simp [Shared.next, hstate]⟩, ?_, ?_⟩
  · simp [Local.next, hnone, RoleOk]
  -- in the normal state no other thread has a role that could conflict
  · intro role hok _
    cases role <;> simp_all [RoleOk, Excludes, owner, Local.next]

private theorem agrees_releaseTransaction {s : Shared} {l : Local} (hs : SharedOk s)
    (hnone : l.role = .none) (hpos : 0 < s.numTxn) :
    Agrees s l (s.next l .releaseTransaction (s.sharedState, s.numTxn - 1))
      (l.next .releaseTransaction (s.sharedState, s.numTxn - 1)) := by
  have hresize : s.sharedState ≠ .resize := by
    intro hstate
    have hzero := hs.resize hstate
    omega
  have hmay : s.sharedState = .wantResize → s.mayResize = false := by
    intro hwant
    by_contra hmay
    have hzero := hs.mayResize hwant (by simpa using hmay)
    omega
  refine ⟨⟨hs.running, fun hstate => absurd hstate hresize, ?_⟩, ?_, ?_⟩
  · intro hwant hset
    rw [Shared.next, hmay hwant] at hset
    cases hset
  · simp only [Local.next, hnone]
    split
    · next hlast => exact ⟨hlast.1, hlast.2, hmay hlast.1⟩
    · trivial
  -- a transaction is open, so nobody was granted the resize or has to grant it
  · intro role hok _
    have hgranted : role ≠ .granted := by
      rintro rfl
      have hzero := hok.2
      omega
    have hnotifying : role ≠ .notifying := by
      rintro rfl
      have hzero := hok.2.1
      omega
    refine ⟨?_, ?_⟩
    · cases role <;> first | contradiction | exact hok
    · simp only [Local.next, hnone]
      split <;> simp [Excludes, owner, hgranted, hnotifying]

private theorem agrees_enterResize {s : Shared} {l : Local} (hs : SharedOk s) :
    Agrees s l (s.next l .enterResize (s.sharedState, s.stateAfterEnter))
      (l.next .enterResize (s.sharedState, s.stateAfterEnter)) := by
  by_cases hbusy : s.sharedState = .resize ∨ s.sharedState = .wantResize
  · have hs' : s.next l .enterResize (s.sharedState, s.stateAfterEnter) = s := if_pos hbusy
    have hl' : (l.next .enterResize (s.sharedState, s.stateAfterEnter)).role = .waiter := by
      simp only [Local.next, Local.enterResize, if_pos hbusy]
    rw [hs']
    exact ⟨hs, by simp [hl', RoleOk], fun role hok _ => ⟨hok, by simp [hl', Excludes, owner]⟩⟩
  · have hnormal : s.sharedState = .normal := by
      have hrunning := hs.running
      cases hstate : s.sharedState <;> simp_all
    by_cases hzero : s.numTxn = 0
    · have hstate : s.stateAfterEnter = .resize := by simp [Shared.stateAfterEnter, hnormal, hzero]
      refine ⟨⟨?_, ?_, ?_⟩, ?_, ?_⟩ <;>
        simp [Shared.next, Shared.enterResize, Local.next, Local.enterResize, hnormal, hstate,
          hzero,
          RoleOk]
      intro role hok _
      cases role <;> simp_all [Excludes, owner]
    · have hstate : s.stateAfterEnter = .wantResize := by
        simp [Shared.stateAfterEnter, hnormal, hzero]
      refine ⟨⟨?_, ?_, ?_⟩, ?_, ?_⟩ <;>
        simp [Shared.next, Shared.enterResize, Local.next, Local.enterResize, hnormal, hstate,
          RoleOk]
      intro role hok _
      cases role <;> simp_all [Excludes, owner]

private theorem agrees_waitMayResize {s : Shared} {l : Local} (hs : SharedOk s)
    (hrole : RoleOk s l.role) (hwanting : l.role = .wanting) (hmay : s.mayResize = true) :
    Agrees s l (s.next l .waitMayResize ()) (l.next .waitMayResize ()) := by
  have hwant : s.sharedState = .wantResize := by simpa [hwanting, RoleOk] using hrole
  refine ⟨hs, ⟨hwant, hs.mayResize hwant hmay⟩, ?_⟩
  intro role hok hex
  refine ⟨hok, ?_⟩
  rw [hwanting] at hex
  cases role <;> simp_all [RoleOk, Excludes, owner, Local.next]

private theorem agrees_startResize {s : Shared} {l : Local}
    (hrole : RoleOk s l.role) (hgranted : l.role = .granted) :
    Agrees s l (s.next l .startResize (s.sharedState ≠ .shutdown))
      (l.next .startResize (s.sharedState ≠ .shutdown)) := by
  have hok : s.sharedState = .wantResize ∧ s.numTxn = 0 := by
    simpa [hgranted, RoleOk] using hrole
  refine ⟨⟨?_, ?_, ?_⟩, ?_, ?_⟩ <;> simp [Shared.next, Local.next, hok, RoleOk]
  intro role _ hex
  rw [hgranted] at hex
  cases role <;> simp_all [RoleOk, Excludes, owner]

private theorem agrees_notifyMayResize {s : Shared} {l : Local} (hs : SharedOk s)
    (hrole : RoleOk s l.role) (hnotifying : l.role = .notifying) :
    Agrees s l (s.next l .notifyMayResize ()) (l.next .notifyMayResize ()) := by
  have hok : s.sharedState = .wantResize ∧ s.numTxn = 0 ∧ s.mayResize = false := by
    simpa [hnotifying, RoleOk] using hrole
  refine ⟨⟨hs.running, hs.resize, fun _ _ => hok.2.1⟩, trivial, ?_⟩
  intro role hother hex
  rw [hnotifying] at hex
  cases role <;> simp_all [RoleOk, Excludes, owner, Local.next, Shared.next]

private theorem agrees_getSharedState {s : Shared} {l : Local} (hs : SharedOk s)
    (hrole : RoleOk s l.role) :
    Agrees s l (s.next l .getSharedState s.sharedState)
      (l.next .getSharedState s.sharedState) := by
  by_cases hnormal : s.sharedState = .normal
  · have hl' : (l.next .getSharedState s.sharedState).role = .none := by
      rw [Local.next, if_pos hnormal]
    exact ⟨hs, by simp [hl', RoleOk], fun role hok _ => ⟨hok, by simp [hl', Excludes, owner]⟩⟩
  · have hl' : l.next .getSharedState s.sharedState = l := if_neg hnormal
    rw [hl']
    exact agrees_same hs hrole rfl rfl rfl rfl

private theorem agrees_completeResize {s : Shared} {l : Local}
    (hrole : RoleOk s l.role) (hresizing : l.role = .resizing) :
    Agrees s l (s.next l .completeResize ()) (l.next .completeResize ()) := by
  have hresize : s.sharedState = .resize := by simpa [hresizing, RoleOk] using hrole
  refine ⟨⟨?_, ?_, ?_⟩, ?_, ?_⟩ <;> simp [Shared.next, Local.next, hresize, RoleOk]
  intro role hok hex
  rw [hresizing] at hex
  cases role <;> simp_all [RoleOk, Excludes, owner]

/-- Every action that a thread performs in its role leaves the roles and the shared state in
agreement. -/
private theorem agrees_next {s : Shared} {l : Local} {env : Env} {a : Action} {r : a.Response}
    (hs : SharedOk s) (hrole : RoleOk s l.role) (hneed : need l a)
    (hheld : a = .releaseTransaction → 0 < s.numTxn) (hr : s.reply l env a = some r) :
    Agrees s l (s.next l a r) (l.next a r) := by
  cases a with
  | addTransaction => exact agrees_addTransaction hs hneed hr
  | releaseTransaction =>
    cases hr
    exact agrees_releaseTransaction hs hneed.role (hheld rfl)
  | enterResize =>
    cases hr
    exact agrees_enterResize hs
  | waitMayResize =>
    refine agrees_waitMayResize hs hrole hneed ?_
    by_contra hmay
    simp [Shared.reply, hmay] at hr
  | startResize =>
    cases hr
    exact agrees_startResize hrole hneed
  | notifyMayResize => exact agrees_notifyMayResize hs hrole hneed
  | getSharedState =>
    cases hr
    exact agrees_getSharedState hs hrole
  | completeResize => exact agrees_completeResize hrole hneed
  | notifyResizeComplete =>
    exact ⟨⟨hs.running, hs.resize, hs.mayResize⟩, trivial,
      fun role hok _ => ⟨by cases role <;> exact hok, by simp [Excludes, owner, Local.next]⟩⟩
  | beginRead =>
    refine agrees_same hs hrole rfl rfl rfl ?_
    simp only [Local.next]
    split <;> rfl
  | renewRead =>
    refine agrees_same hs hrole rfl rfl rfl ?_
    simp only [Local.next]
    split <;> rfl
  | beginWrite =>
    refine agrees_same hs hrole rfl rfl rfl ?_
    simp only [Local.next]
    split <;> rfl
  | change key change =>
    exact agrees_same hs hrole rfl rfl rfl (same_next rfl l r).role
  | commit =>
    refine agrees_same hs hrole ?_ ?_ ?_ ?_ <;>
      simp only [Shared.next, Shared.commit, Local.next, Local.note] <;> split_ifs <;>
      (try split) <;> rfl
  | setMapsize size =>
    refine agrees_same hs hrole ?_ ?_ ?_ rfl <;> simp only [Shared.next] <;> split <;> rfl
  | _ => exact agrees_same hs hrole rfl rfl rfl rfl

/-! ### Runs -/

variable {ι : Type} [DecidableEq ι] [Fintype ι]

/-- The shared state and the roles agree with each other. -/
structure Protocol (s : Shared) (conns : ι → Conn) : Prop where
  shared : SharedOk s
  role : ∀ i, RoleOk s (conns i).state.role
  apart : ∀ i j, i ≠ j → ¬ Excludes (conns i).state.role (conns j).state.role

/-- The operations keep to the contract, the open transactions are counted, and the threads keep to
the protocol. -/
structure Inv (w : World ι) : Prop where
  keeps : w.Keeps contract fun l _ => Rest l
  numTxn : w.HeldCounted
  covered : ∀ i, Covered (w.conns i).state
  protocol : Protocol w.shared w.conns

omit [DecidableEq ι] in
private theorem inv_init (mapsize : Nat) (db : TTHValue → Option Bytes) :
    Inv (World.init ι mapsize db) where
  keeps _ := ⟨rfl, by simp [openTxns, World.init, Local.new]⟩
  numTxn := World.heldCounted_init mapsize db
  covered _ := by simp [Covered, openTxns, World.init, Local.new]
  protocol := by
    refine ⟨⟨?_, ?_, ?_⟩, fun _ => trivial, fun _ _ _ => ?_⟩ <;>
      simp [Excludes, owner, World.init, Local.new]

private theorem openTxns_nonneg (l : Local) : 0 ≤ openTxns l := by
  rw [openTxns]
  split <;> omega

omit [DecidableEq ι] in
private theorem held_nonneg {w : World ι} (h : Inv w) (i : ι) : 0 ≤ (w.conns i).state.held :=
  (openTxns_nonneg _).trans (h.covered i)

omit [DecidableEq ι] in
/-- A thread that holds a transaction is counted. -/
private theorem numTxn_pos {w : World ι} (h : Inv w) {i : ι} (hi : 0 < (w.conns i).state.held) :
    0 < w.shared.numTxn := by
  rw [h.numTxn]
  exact Finset.sum_pos' (fun j _ => held_nonneg h j) ⟨i, Finset.mem_univ i, hi⟩

omit [DecidableEq ι] in
/-- The action of a thread leaves the roles and the shared state in agreement. -/
private theorem agrees_act {w : World ι} (h : Inv w) {i : ι} {env : Env} {a : Action}
    {code : a.Response → Code Answer} {r : a.Response} (hcode : (w.conns i).code = .act a code)
    (hr : w.shared.reply (w.conns i).state env a = some r) :
    Agrees w.shared (w.conns i).state (w.shared.next (w.conns i).state a r)
      ((w.conns i).state.next a r) := by
  have hneed := h.keeps i
  rw [hcode] at hneed
  refine agrees_next h.protocol.shared (h.protocol.role i) hneed.1 ?_ hr
  rintro rfl
  have hcovered := hneed.1.covered
  have hopen := openTxns_nonneg (w.conns i).state
  exact numTxn_pos h (i := i) (by omega)

omit [DecidableEq ι] in
/-- The responses of the shared state are the ones the operations rely on. -/
private theorem ensured {w : World ι} (h : Inv w) {i : ι} {env : Env} {a : Action} {r : a.Response}
    (hr : w.shared.reply (w.conns i).state env a = some r) : Ensured (w.conns i).state a r := by
  cases a with
  | startResize =>
    cases hr
    simpa [Ensured] using h.protocol.shared.running
  | notShutdown =>
    cases hr
    simpa [Ensured] using h.protocol.shared.running
  | getSharedState =>
    cases hr
    intro hresizing
    have hrole := h.protocol.role i
    rwa [hresizing] at hrole
  | _ => trivial

private theorem excludes_comm {r r' : Role} : Excludes r r' ↔ Excludes r' r := by
  rw [Excludes, Excludes]
  tauto

private theorem covered_step {w : World ι} (h : Inv w) (e : Event ι) (i : ι) :
    Covered ((w.step e).conns i).state := by
  apply World.forall_step (P := fun c => Covered c.state) e h.covered
  · exact fun _ _ _ hc => hc
  · intro j env a code r _ hcode _ hj
    have hneed := h.keeps j
    rw [hcode] at hneed
    exact covered_next hneed.1 hj r
  · intro c _ hc
    have hopen : openTxns c.state.close ≤ openTxns c.state :=
      openTxns_le (.inr (by simp [Local.close])) le_rfl
    exact hopen.trans hc

omit [Fintype ι] in
private theorem protocol_update {s s' : Shared} {conns : ι → Conn} {i : ι} {c : Conn}
    (h : Protocol s conns) (ha : Agrees s (conns i).state s' c.state) :
    Protocol s' (Function.update conns i c) := by
  have hothers : ∀ j, j ≠ i → RoleOk s' (conns j).state.role ∧
      ¬ Excludes c.state.role (conns j).state.role :=
    fun j hne => ha.others _ (h.role j) (h.apart i j hne.symm)
  refine ⟨ha.shared, ?_, ?_⟩
  · intro j
    rcases eq_or_ne j i with rfl | hne
    · rw [Function.update_self]
      exact ha.role
    · rw [Function.update_of_ne hne]
      exact (hothers j hne).1
  · intro j k hjk
    rcases eq_or_ne j i with rfl | hj
    · rw [Function.update_self, Function.update_of_ne hjk.symm]
      exact (hothers k hjk.symm).2
    · rw [Function.update_of_ne hj]
      rcases eq_or_ne k i with rfl | hk
      · rw [Function.update_self, excludes_comm]
        exact (hothers j hj).2
      · rw [Function.update_of_ne hk]
        exact h.apart j k hjk

private theorem protocol_step {w : World ι} (h : Inv w) (e : Event ι) :
    Protocol (w.step e).shared (w.step e).conns := by
  have hw := h.protocol
  cases e with
  | start i op =>
    rw [World.step]
    split
    · refine protocol_update hw ⟨h.protocol.shared, trivial, fun role hok _ => ⟨hok, ?_⟩⟩
      simp [Excludes, owner, Local.start]
    · exact hw
  | act i env =>
    rcases w.act_cases i env with heq | ⟨a, code, r, hcode, hr, heq⟩
    · rw [World.step, heq]
      exact hw
    · rw [World.step, heq]
      exact protocol_update hw (agrees_act h hcode hr)
  | close i =>
    rw [World.step]
    split
    · exact protocol_update hw (agrees_same h.protocol.shared (h.protocol.role i) rfl rfl rfl rfl)
    · exact hw

omit [DecidableEq ι] in
private theorem relies_contract {w : World ι} (h : Inv w) {e : Event ι}
    (hcond : w.Relies Condition e) : w.Relies contract.may e := by
  cases e with
  | act i env =>
    intro a code r hcode hr
    exact ⟨hcond a code r hcode hr, ensured h hr⟩
  | _ => trivial

private theorem rest_close {l : Local} (h : Rest l) : Rest l.close := by
  have hopen : openTxns l.close ≤ openTxns l := openTxns_le (.inr (by simp [Local.close])) le_rfl
  have hcovered := h.covered
  have hheld : l.close.held = l.held := rfl
  exact ⟨h.role, by omega⟩

private theorem inv_step (w : World ι) (e : Event ι) (h : Inv w) (hcond : w.Relies Condition e) :
    Inv (w.step e) where
  keeps :=
    h.keeps.step rfl (fun op _ _ hrest => code_meets op hrest) (fun _ _ hrest => rest_close hrest)
    e (relies_contract h hcond)
  numTxn := h.numTxn.step e
  covered := covered_step h e
  protocol := protocol_step h e

/-- The invariant of every run from the start. -/
theorem inv_init_run (mapsize : Nat) (db : TTHValue → Option Bytes) (es : List (Event ι))
    (h : Within (World.Relies Condition) World.step (World.init ι mapsize db) es) :
    Inv (run World.step (World.init ι mapsize db) es) :=
  h.invariant Inv inv_step (inv_init mapsize db)

/-- The thread is about to change the map size. -/
def ChangesMapSize (w : World ι) (i : ι) : Prop :=
  ∃ size code, (w.conns i).code = .act (.setMapsize size) code

/-- At most one thread is about to change the map size, and when one is, the count of transactions
is zero and no connection has an open transaction. -/
structure Exclusive (w : World ι) : Prop where
  unique : ∀ i j, ChangesMapSize w i → ChangesMapSize w j → i = j
  numTxn : ∀ i, ChangesMapSize w i → w.shared.numTxn = 0
  closed : ∀ i, ChangesMapSize w i → ∀ j,
    (w.conns j).state.txnRead ≠ .active ∧ (w.conns j).state.writeTxns = 0

omit [DecidableEq ι] in
private theorem resizing_of_changes {w : World ι} (h : Inv w) {i : ι} (hi : ChangesMapSize w i) :
    (w.conns i).state.role = .resizing := by
  obtain ⟨size, code, hcode⟩ := hi
  have hneed := h.keeps i
  rw [hcode] at hneed
  exact hneed.1

omit [DecidableEq ι] in
private theorem exclusive_of_inv {w : World ι} (h : Inv w) : Exclusive w := by
  have hnum : ∀ i, ChangesMapSize w i → w.shared.numTxn = 0 := by
    intro i hi
    have hrole := h.protocol.role i
    rw [resizing_of_changes h hi] at hrole
    exact h.protocol.shared.resize hrole
  refine ⟨?_, hnum, ?_⟩
  · intro i j hi hj
    by_contra hne
    apply h.protocol.apart i j hne
    rw [resizing_of_changes h hi, resizing_of_changes h hj]
    exact .inl ⟨rfl, rfl⟩
  · intro i hi j
    have hheld : (w.conns j).state.held = 0 := by
      by_contra hne
      have hpos := numTxn_pos h (lt_of_le_of_ne (held_nonneg h j) (Ne.symm hne))
      have hzero := hnum i hi
      omega
    have hopen := h.covered j
    rw [Covered, hheld, openTxns] at hopen
    split at hopen
    · omega
    · next hactive => exact ⟨hactive, by omega⟩

/-- A write of the thread `i` up to the end of its first attempt, which meets a full map. -/
private def fullMap (i : Fin 3) : List (Event (Fin 3)) :=
  .start i (.putFileInfo ⟨List.replicate 24 0, rfl⟩ ⟨0, 1, none, true⟩) ::
    ([0, 0, 0, mdbNotFound, 0, mdbMapFull, 0, 0].map fun error => .act i ⟨error, [], [], (0, 0)⟩)

/-- Steps of the given threads without an error. -/
private def steps (is : List (Fin 3)) : List (Event (Fin 3)) :=
  is.map fun i => .act i ⟨0, [], [], (0, 0)⟩

end Resize

end Blacklink.HashDb
