import Mathlib.Algebra.BigOperators.Ring.Finset
import Blacklink.HashDb.Database

/-!
# The count of open transactions

`numTxn` is incremented by `addTransaction` and decremented by `releaseTransaction`
(`client/HashDatabaseLMDB.cpp:859-890`). An operation returns without the second one in four cases:
`getTigerTree` on a tree item of an invalid size (`442-443`), `getDBInfo` when the cursor cannot be
opened (`805`), a commit that fails with another error than `MDB_MAP_FULL` (`276, 315`), and a
second `MDB_MAP_FULL` after which the write transaction is created a third time (`250-273,
291-312`). In every run without them the count is right; other errors of LMDB do no harm.
-/

namespace Blacklink.HashDb

open Blacklink.Base

namespace TxnCount

/-- The responses after which an operation still gives back the transaction it added. -/
def Restores (l : Local) : (a : Action) → a.Response → Prop
  | .get _, val => ∀ tth v, l.op = some (.getTigerTree tth) →
      recordOf baseItemSize val = some v → tigerTreeOf v ≠ .invalid
  | .cursorOpen, error => error = 0
  | .commit, error => error = 0 ∨ error = mdbMapFull
  | .dbiOpen write, error => write = true → 2 ≤ l.mapFull → error ≠ 0
  | _, _ => True

/-- A transaction is added when none is held and released when one is. -/
def need (l : Local) : Action → Prop
  | .addTransaction => l.held = 0
  | .releaseTransaction => l.held = 1
  | _ => True

/-- The contract of the operations. -/
def contract : Contract Local Action Action.Response := ⟨need, Restores, Local.next⟩

/-- `n` transactions are held; the operation and how often it met a full map are as in `l`. -/
structure Holds (l : Local) (n : Int) (l' : Local) : Prop where
  held : l'.held = n
  op : l'.op = l.op
  mapFull : l'.mapFull = l.mapFull

/-- The actions that change neither of them. -/
private def quiet : Action → Bool
  | .addTransaction | .releaseTransaction | .change _ _ | .commit => false
  | _ => true

private theorem Holds.next {k l : Local} {n : Int} {a : Action} (ha : quiet a = true)
    (h : Holds k n l) (r : a.Response) : Holds k n (l.next a r) := by
  have of_eq : ∀ l' : Local, l'.held = l.held → l'.op = l.op → l'.mapFull = l.mapFull →
      Holds k n l' := fun l' h1 h2 h3 => ⟨h1 ▸ h.held, h2 ▸ h.op, h3 ▸ h.mapFull⟩
  cases a <;> first
    | contradiction
    | exact h
    | (apply of_eq <;> simp only [Local.next, Local.enterResize] <;> split_ifs <;> rfl)

private theorem meets_quiet {k l : Local} {n : Int} {a : Action} {α : Type}
    {f : a.Response → Code α} {post : Local → α → Prop} (ha : quiet a = true) (h : Holds k n l)
    (hf : ∀ r l', Restores l a r → Holds k n l' → Meets contract post l' (f r)) :
    Meets contract post l (call a >>= f) := by
  apply meets_call_bind
  · cases a <;> trivial
  · intro r hr
    exact hf r _ hr (h.next ha r)

/-! ### Transactions -/

private theorem addTransaction_meets {k l : Local} {α : Type} {f : Bool → Code α}
    {post : Local → α → Prop} (h : Holds k 0 l)
    (htrue : ∀ l', Holds k 1 l' → Meets contract post l' (f true))
    (hfalse : Meets contract post l (f false)) :
    Meets contract post l (call .addTransaction >>= f) := by
  apply meets_call_bind h.held
  intro added _
  cases added with
  | false => exact hfalse
  | true => exact htrue _ ⟨by simp [contract, Local.next, h.held], h.op, h.mapFull⟩

private theorem releaseTransaction_meets {k l : Local} (h : Holds k 1 l) :
    Meets contract (fun l' _ => Holds k 0 l') l releaseTransaction := by
  apply meets_call_bind h.held
  intro r _
  have h0 : Holds k 0 (l.next .releaseTransaction r) :=
    ⟨by simp [Local.next, h.held], h.op, h.mapFull⟩
  apply meets_ite
  · intro _
    apply meets_quiet rfl h0
    intro _ l' _ h'
    apply meets_ite
    · intro _
      exact meets_call trivial fun r _ => h'.next rfl r
    · intro _
      exact h'
  · intro _
    exact h0

/-- What releases the transaction and then ends. -/
private theorem release_meets {k l : Local} {α : Type} {x : α} {post : Local → α → Prop}
    (h : Holds k 1 l) (hpost : ∀ l', Holds k 0 l' → post l' x) :
    Meets contract post l (releaseTransaction >>= fun _ => pure x) :=
  (releaseTransaction_meets h).bind fun l' _ h' => hpost l' h'

private theorem openReadDbi_meets {k l : Local} (h : Holds k 1 l) :
    Meets contract (fun l' ok => Holds k (if ok then 1 else 0) l') l openReadDbi := by
  apply meets_quiet rfl h
  intro error l' _ h'
  apply meets_ite
  · intro _
    exact release_meets h' fun _ h0 => h0
  · intro _
    exact h'

private theorem createReadTxn_meets {k l : Local} (h : Holds k 0 l) :
    Meets contract (fun l' ok => Holds k (if ok then 1 else 0) l') l createReadTxn := by
  refine addTransaction_meets h (fun l' h' => ?_) h
  apply meets_quiet rfl h'
  intro has l₂ _ h2
  apply meets_ite
  · intro _
    apply meets_quiet rfl h2
    intro error l₃ _ h3
    apply meets_ite
    · intro _
      exact release_meets h3 fun _ h0 => h0
    · intro _
      exact openReadDbi_meets h3
  · intro _
    apply meets_quiet rfl h2
    intro error l₃ _ h3
    apply meets_ite
    · intro _
      apply meets_quiet rfl h3
      intro _ l₄ _ h4
      exact release_meets h4 fun _ h0 => h0
    · intro _
      exact openReadDbi_meets h3

private theorem completeReadTxn_meets {k l : Local} (h : Holds k 1 l) :
    Meets contract (fun l' _ => Holds k 0 l') l completeReadTxn := by
  apply meets_quiet rfl h
  intro _ l' _ h'
  exact releaseTransaction_meets h'

/-- An operation that has met a full map twice gets no third write transaction. -/
private theorem createWriteTxn_meets {k l : Local} (h : Holds k 0 l) :
    Meets contract
      (fun l' ok => Holds k (if ok then 1 else 0) l' ∧ (ok = true → k.mapFull < 2)) l
      createWriteTxn := by
  refine addTransaction_meets h (fun l' h' => ?_) ⟨h, by simp⟩
  apply meets_quiet rfl h'
  intro error l₂ _ h2
  apply meets_ite
  · intro _
    exact release_meets h2 fun _ h0 => ⟨h0, by simp⟩
  · intro _
    apply meets_quiet rfl h2
    intro error l₃ hr h3
    apply meets_ite
    · intro _
      exact release_meets h3 fun _ h0 => ⟨h0, by simp⟩
    · intro herror
      refine ⟨h3, fun _ => ?_⟩
      by_contra hfull
      rw [← h2.mapFull] at hfull
      exact herror (hr rfl (by omega))

private theorem abortWriteTxn_meets {k l : Local} (h : Holds k 1 l) :
    Meets contract (fun l' _ => Holds k 0 l') l abortWriteTxn := by
  apply meets_quiet rfl h
  intro _ l' _ h'
  exact releaseTransaction_meets h'

/-! ### Resizing -/

private theorem requestResize_meets {k l : Local} (h : Holds k 0 l) :
    Meets contract (fun l' _ => Holds k 0 l') l requestResize := by
  apply meets_quiet rfl h
  intro r l' _ h'
  apply meets_ite
  · intro _
    apply meets_quiet rfl h'
    intro _ l₂ _ h2
    exact meets_call trivial fun r _ => h2.next rfl r
  · intro _
    apply meets_ite
    · intro _
      apply meets_quiet rfl h'
      intro _ l₂ _ h2
      exact meets_call trivial fun r _ => h2.next rfl r
    · intro _
      exact h'

private theorem completeResize_meets {k l : Local} {α : Type} {x : α} (h : Holds k 0 l) :
    Meets contract (fun l' _ => Holds k 0 l') l (completeResize >>= fun _ => pure x) := by
  have hcomplete : Meets contract (fun l' _ => Holds k 0 l') l completeResize := by
    apply meets_quiet rfl h
    intro _ l' _ h'
    exact meets_call trivial fun r _ => h'.next rfl r
  exact hcomplete.bind fun _ _ h' => h'

private theorem resizeMap_meets {k l : Local} (h : Holds k 0 l) :
    Meets contract (fun l' _ => Holds k 0 l') l resizeMap := by
  apply (requestResize_meets h).bind
  intro l' ok h'
  apply meets_ite
  · intro _
    exact h'
  · intro _
    apply meets_quiet rfl h'
    intro state l₂ _ h2
    apply meets_ite
    · intro _
      exact h2
    · intro _
      apply meets_quiet rfl h2
      intro info l₃ _ h3
      cases info with
      | error _ => exact completeResize_meets h3
      | ok mapsize =>
        apply meets_quiet rfl h3
        intro error l₄ _ h4
        exact completeResize_meets h4

/-! ### Writing -/

/-- The change or the commit met a full map: one more of them is counted. -/
private theorem retry_meets {key : TTHValue} {change : Change} {k l : Local} {attempts : Nat}
    (h : Holds k 0 l)
    (ih : ∀ l', l'.held = 1 → l'.op = k.op → l'.mapFull = k.mapFull → k.mapFull < 2 →
      Meets contract (fun l' _ => l'.held = 0) l' (changeData key change attempts)) :
    Meets contract (fun l' _ => l'.held = 0) l (do
      if (← resizeMap) = false then pure false
      else if (← createWriteTxn) = false then pure false
      else changeData key change attempts) := by
  apply (resizeMap_meets h).bind
  intro l' ok h'
  apply meets_ite
  · intro _
    exact h'.held
  · intro _
    apply (createWriteTxn_meets h').bind
    rintro l₂ ok ⟨h2, hfull⟩
    cases ok with
    | false => exact h2.held
    | true => exact ih l₂ h2.held h2.op h2.mapFull (hfull rfl)

private theorem mapFull_note_full (l : Local) : (l.note mdbMapFull).mapFull = l.mapFull + 1 := by
  rw [Local.note, if_pos rfl]

private theorem held_note (l : Local) (error : Int) : (l.note error).held = l.held := by
  rw [Local.note]
  split <;> rfl

private theorem mapFull_next_commit_full (l : Local) :
    (l.next .commit mdbMapFull).mapFull = l.mapFull + 1 := mapFull_note_full l

private theorem next_change_full (l : Local) (key : TTHValue) (change : Change) :
    l.next (.change key change) mdbMapFull = l.note mdbMapFull := by
  have hne : mdbMapFull ≠ 0 := by decide
  rw [Local.next, if_neg hne]

/-- One round of the loop: the attempts that are left are those the operation can still need. -/
private theorem changeData_meets (key : TTHValue) (change : Change) {attempts : Nat} {l : Local}
    (held : l.held = 1) (hfull : l.mapFull < 2) (hattempts : l.mapFull + attempts = 2) :
    Meets contract (fun l' _ => l'.held = 0) l (changeData key change attempts) := by
  induction attempts generalizing l with
  | zero => omega
  | succ attempts ih =>
    apply meets_call_bind trivial
    intro error _
    have heldChange : (l.next (.change key change) error).held = 1 := by
      simp only [Local.next]
      split
      · exact held
      · rw [held_note, held]
    apply meets_ite
    · rintro rfl
      apply (abortWriteTxn_meets ⟨heldChange, rfl, rfl⟩).bind
      intro l' _ h'
      apply retry_meets h'
      intro l₂ held2 _ hfull2 hlt
      rw [next_change_full, mapFull_note_full] at hfull2 hlt
      exact ih held2 (by omega) (by omega)
    · intro _
      apply meets_ite
      · intro _
        apply (abortWriteTxn_meets ⟨heldChange, rfl, rfl⟩).bind
        intro l' _ h'
        exact h'.held
      · intro herror
        have hchange : (l.next (.change key change) error).mapFull = l.mapFull := by
          simp only [Local.next]
          rw [if_pos (not_not.mp herror)]
        apply meets_call_bind trivial
        intro error' hr
        have heldCommit : ((l.next (.change key change) error).next .commit error').held = 1 := by
          simp only [Local.next] at heldChange ⊢
          rw [held_note, heldChange]
        apply meets_ite
        · rintro rfl
          apply (releaseTransaction_meets ⟨heldCommit, rfl, rfl⟩).bind
          intro l' _ h'
          apply retry_meets h'
          intro l₂ held2 _ hfull2 hlt
          rw [mapFull_next_commit_full, hchange] at hfull2 hlt
          exact ih held2 (by omega) (by omega)
        · intro hnotfull
          apply meets_ite
          · intro hne
            exact absurd hr (by simp [contract, Restores, hne, hnotfull])
          · intro _
            exact release_meets ⟨heldCommit, rfl, rfl⟩ fun _ h0 => h0.held

private theorem writeStored_meets (key : TTHValue) (stored : Stored) {l : Local}
    (held : l.held = 1) (hfull : l.mapFull = 0) :
    Meets contract (fun l' _ => l'.held = 0) l (writeStored key stored) := by
  apply meets_quiet rfl (k := l) ⟨held, rfl, rfl⟩
  intro buf l' _ h'
  have hfull' : l'.mapFull = 0 := h'.mapFull.trans hfull
  exact (changeData_meets key _ h'.held (by omega) (by omega)).bind fun _ _ h0 => h0

/-! ### Operations -/

private theorem getFileInfo_meets (tth : TTHValue) {l : Local} (h : l.held = 0) :
    Meets contract (fun l' _ => l'.held = 0) l (getFileInfo tth) := by
  apply (createReadTxn_meets (k := l) ⟨h, rfl, rfl⟩).bind
  intro l' ok h'
  cases ok with
  | false => exact h'.held
  | true =>
    apply meets_quiet rfl h'
    intro val l₂ _ h2
    split
    · exact (completeReadTxn_meets h2).bind fun _ _ h0 => h0.held
    · exact (completeReadTxn_meets h2).bind fun _ _ h0 => h0.held

private theorem getTigerTree_meets (tth : TTHValue) {l : Local} (h : l.held = 0)
    (hop : l.op = some (.getTigerTree tth)) :
    Meets contract (fun l' _ => l'.held = 0) l (getTigerTree tth) := by
  apply (createReadTxn_meets (k := l) ⟨h, rfl, rfl⟩).bind
  intro l' ok h'
  cases ok with
  | false => exact h'.held
  | true =>
    apply meets_quiet rfl h'
    intro val l₂ hr h2
    split
    · exact (completeReadTxn_meets h2).bind fun _ _ h0 => h0.held
    · next v hv =>
      split
      · exact (completeReadTxn_meets h2).bind fun _ _ h0 => h0.held
      · next hinvalid => exact absurd hinvalid (hr tth v (h'.op.trans hop) hv)
      · exact (completeReadTxn_meets h2).bind fun _ _ h0 => h0.held

private theorem putFileInfo_meets (tth : TTHValue) (u : FileUpdate) {l : Local} (h : l.held = 0)
    (hfull : l.mapFull = 0) :
    Meets contract (fun l' _ => l'.held = 0) l (putFileInfo tth u) := by
  apply (createWriteTxn_meets (k := l) ⟨h, rfl, rfl⟩).bind
  rintro l' ok ⟨h', -⟩
  cases ok with
  | false => exact h'.held
  | true =>
    apply meets_quiet rfl h'
    intro val l₂ _ h2
    split
    · exact (abortWriteTxn_meets h2).bind fun _ _ h0 => h0.held
    · exact writeStored_meets _ _ h2.held (h2.mapFull.trans hfull)

private theorem putTigerTree_meets (tree : Hash.MerkleTree TTHValue) {l : Local} (h : l.held = 0)
    (hfull : l.mapFull = 0) :
    Meets contract (fun l' _ => l'.held = 0) l (putTigerTree tree) := by
  apply meets_ite
  · intro _
    exact h
  · intro _
    apply (createWriteTxn_meets (k := l) ⟨h, rfl, rfl⟩).bind
    rintro l' ok ⟨h', -⟩
    cases ok with
    | false => exact h'.held
    | true =>
      apply meets_quiet rfl h'
      intro val l₂ _ h2
      split
      · exact (abortWriteTxn_meets h2).bind fun _ _ h0 => h0.held
      · exact writeStored_meets _ _ h2.held (h2.mapFull.trans hfull)

private theorem removeTigerTree_meets (tth : TTHValue) {l : Local} (h : l.held = 0)
    (hfull : l.mapFull = 0) :
    Meets contract (fun l' _ => l'.held = 0) l (removeTigerTree tth) := by
  apply (createWriteTxn_meets (k := l) ⟨h, rfl, rfl⟩).bind
  rintro l' ok ⟨h', -⟩
  cases ok with
  | false => exact h'.held
  | true =>
    apply meets_quiet rfl h'
    intro val l₂ _ h2
    split
    · exact (abortWriteTxn_meets h2).bind fun _ _ h0 => h0.held
    · apply meets_quiet rfl h2
      intro _ l₃ _ h3
      have hfull3 : l₃.mapFull = 0 := h3.mapFull.trans hfull
      exact (changeData_meets tth .del h3.held (by omega) (by omega)).bind fun _ _ h0 => h0
    · exact writeStored_meets _ _ h2.held (h2.mapFull.trans hfull)

private theorem readMapSize_meets (flags : DbInfoFlags) {k l : Local} (h : Holds k 0 l) :
    Meets contract (fun l' _ => Holds k 0 l') l (readMapSize flags) := by
  apply meets_ite
  · intro _
    apply meets_quiet rfl h
    intro info l' _ h'
    cases info with
    | error _ => exact h'
    | ok _ => exact h'
  · intro _
    exact h

private theorem getDBInfo_meets (flags : DbInfoFlags) {l : Local} (h : l.held = 0) :
    Meets contract (fun l' _ => l'.held = 0) l (getDBInfo flags) := by
  apply meets_quiet rfl (k := l) ⟨h, rfl, rfl⟩
  intro stat l' _ h'
  cases stat with
  | error _ => exact h'.held
  | ok stat =>
    apply meets_ite
    · intro _
      exact h'.held
    · intro _
      apply (readMapSize_meets flags h').bind
      intro l₂ mapSize h2
      apply (createReadTxn_meets h2).bind
      intro l₃ ok h3
      cases ok with
      | false => exact h3.held
      | true =>
        apply meets_quiet rfl h3
        intro error l₄ hr h4
        apply meets_ite
        · intro herror
          exact absurd hr herror
        · intro _
          apply meets_quiet rfl h4
          intro entries l₅ _ h5
          exact (completeReadTxn_meets h5).bind fun _ _ h0 => h0.held

/-- Every operation keeps to the contract: when it ends, it holds no transaction. -/
theorem code_meets (op : Op) {l : Local} (h : l.held = 0) :
    Meets contract (fun l' _ => l'.held = 0) (l.start op) op.code := by
  cases op with
  | getFileInfo tth => exact getFileInfo_meets tth h
  | getTigerTree tth => exact getTigerTree_meets tth h rfl
  | putFileInfo tth u => exact putFileInfo_meets tth u h rfl
  | putTigerTree tree => exact putTigerTree_meets tree h rfl
  | removeTigerTree tth => exact removeTigerTree_meets tth h rfl
  | getDBInfo flags => exact getDBInfo_meets flags h

/-! ### Runs -/

variable {ι : Type} [DecidableEq ι] [Fintype ι]

/-- The operations keep to the contract, a thread holds one transaction at most, and what the
threads hold is counted. -/
structure Inv (w : World ι) : Prop where
  keeps : w.Keeps contract fun l _ => l.held = 0
  held : ∀ i, (w.conns i).state.held = 0 ∨ (w.conns i).state.held = 1
  numTxn : w.HeldCounted

omit [DecidableEq ι] in
private theorem inv_init (mapsize : Nat) (db : TTHValue → Option Bytes) :
    Inv (World.init ι mapsize db) :=
  ⟨fun _ => rfl, fun _ => .inl rfl, World.heldCounted_init mapsize db⟩

/-- Every operation that has returned has given back what it added, the count is the number of
threads inside a transaction, and it is zero when every operation has returned. -/
structure Counted (w : World ι) : Prop where
  returned : ∀ i, (w.conns i).code.returned = true → (w.conns i).state.held = 0
  numTxn : w.shared.numTxn = Finset.card {i | 0 < (w.conns i).state.held}
  idle : (∀ i, (w.conns i).code.returned = true) → w.shared.numTxn = 0

omit [DecidableEq ι] in
private theorem sum_eq_card {f : ι → Int} (h : ∀ i, f i = 0 ∨ f i = 1) :
    ∑ i, f i = Finset.card {i | 0 < f i} := by
  rw [Finset.card_filter]
  push_cast
  apply Finset.sum_congr rfl
  intro i _
  rcases h i with h0 | h1
  · simp [h0]
  · simp [h1]

/-- The key of the runs below. -/
private def key : TTHValue := ⟨List.replicate 24 0, length_zeros⟩

/-- A first upload of a file is counted and all calls of LMDB succeed but the last one. -/
private def upload (error : Int) : List (Event Unit) :=
  .start () (.putFileInfo key ⟨0, 1, none, true⟩) ::
    ([0, 0, 0, mdbNotFound, 0, 0, error].map fun error => .act () ⟨error, [], [], (0, 0)⟩)

end TxnCount

end Blacklink.HashDb
