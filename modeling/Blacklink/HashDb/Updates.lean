import Blacklink.HashDb.Database

/-!
# Updates of one record by several connections

An update reads the record, computes the new one and writes it in a single write transaction; LMDB
has one of these at a time. After `MDB_MAP_FULL` the value computed before is written in a new
transaction (`client/HashDatabaseLMDB.cpp:246-285`), and an update that another connection has
committed in between is lost. In every run in which each retried write finds the record as its
operation has read it, the database is what the successful updates make of it one after another.
-/

namespace Blacklink.HashDb

open Blacklink.Base

namespace Updates

/-- What `mdb_get` gives for a key of the database. -/
def found (db : TTHValue → Option Bytes) (key : TTHValue) : Except Int Bytes :=
  match db key with
  | some val => .ok val
  | none => .error mdbNotFound

/-- An update by itself: `buf` is the buffer of its connection. -/
def apply (op : Op) (buf : Bytes) (db : TTHValue → Option Bytes) : TTHValue → Option Bytes :=
  match op.key with
  | none => db
  | some key =>
    match op.outcome buf (found db key) with
    | .writes change => change.apply db key
    | _ => db

section Runs

variable {ι : Type} [DecidableEq ι]

/-- LMDB is a map with one write transaction at a time: an update reads the committed value, and a
write transaction begins when no other is open. Any call may still fail. -/
def Honest (w : World ι) (l : Local) : (a : Action) → a.Response → Prop
  | .get key, val => ∀ op, l.op = some op → op.key = some key → val = found w.shared.db key
  | .beginWrite, error => error = 0 → ∀ j, (w.conns j).state.writeTxns = 0
  | _, _ => True

/-- A retried write is committed over the record that its operation has read. -/
def Unchanged (w : World ι) (l : Local) : (a : Action) → a.Response → Prop
  | .commit, error => error = 0 → 0 < l.mapFull → ∀ op key val buf, l.op = some op →
      op.key = some key → l.seen = some (val, buf) → found w.shared.db key = val
  | _, _ => True

/-- The steps of a run: LMDB is honest, and no retried write meets a changed record. -/
def Condition (w : World ι) (e : Event ι) : Prop :=
  w.Relies (fun l a r => Honest w l a r ∧ Unchanged w l a r) e

/-- The update that an action of the connection lets take effect, with the buffer it used. -/
def effect (l : Local) : (a : Action) → a.Response → List (Op × Bytes)
  | .commit, error =>
    match l.op, l.seen with
    | some op, some (_, buf) => if error = 0 then [(op, buf)] else []
    | _, _ => []
  | .get _, val =>
    match l.op with
    | some op => if op.outcome l.buf val = .keeps then [(op, l.buf)] else []
    | none => []
  | _, _ => []

/-- The updates that take effect with an event. -/
def recorded (w : World ι) : Event ι → List (ι × Op × Bytes)
  | .act i env =>
    match (w.conns i).code with
    | .ret _ => []
    | .act a _ =>
      match w.shared.reply (w.conns i).state env a with
      | none => []
      | some r => (effect (w.conns i).state a r).map fun e => (i, e)
  | _ => []

/-- The updates that have taken effect in a run, in order. -/
def history (w : World ι) : List (Event ι) → List (ι × Op × Bytes)
  | [] => []
  | e :: es => recorded w e ++ history (w.step e) es

/-- The update of a connection whose operation has returned with success. -/
def succeeded (l : Local) : Code Answer → List Op
  | .ret .done => l.op.toList
  | _ => []

/-- The update that reports success with an event. -/
def reported (w : World ι) : Event ι → List (ι × Op)
  | .act i env =>
    match (w.conns i).code with
    | .ret _ => []
    | .act a code =>
      match w.shared.reply (w.conns i).state env a with
      | none => []
      | some r => (succeeded (w.conns i).state (code r)).map fun op => (i, op)
  | _ => []

/-- The updates that have reported success in a run, in order. -/
def successes (w : World ι) : List (Event ι) → List (ι × Op)
  | [] => []
  | e :: es => reported w e ++ successes (w.step e) es

end Runs

/-! ### The operations -/

/-- The change that is staged is the outcome of the operation on what it has read. -/
structure Staged (l : Local) (o : Op) (tth : TTHValue) (val : Except Int Bytes) (buf : Bytes)
    (change : Change) : Prop where
  op : l.op = some o
  key : o.key = some tth
  seen : l.seen = some (val, buf)
  outcome : o.outcome buf val = .writes change
  staged : l.staged = some (tth, change)
  applied : l.applied = false
  writeTxns : 0 < l.writeTxns

/-- What holds before an action: a transaction is begun before the record is read or after a full
map, the record of the update is read, and its outcome is committed. -/
def need (l : Local) : Action → Prop
  | .beginWrite => l.seen = none ∨ 0 < l.mapFull
  | .get key => l.applied = false ∧ ∀ op, l.op = some op → op.key ≠ none → op.key = some key
  | .commit => ∃ op key val buf change, Staged l op key val buf change
  | _ => True

/-- What is stored in `buf` is found there. -/
def Ensured (l : Local) : (a : Action) → a.Response → Prop
  | .fillBuf bufSize data, buf => buf = fillBuf l.buf bufSize data
  | _, _ => True

/-- The contract of the operations. -/
def contract : Contract Local Action Action.Response := ⟨need, Ensured, Local.next⟩

/-- An operation reports success when its update has taken effect, and only then. -/
def Post (l : Local) (x : Answer) : Prop := x = .done ↔ l.applied = true

/-- Two local states of one point of an update. -/
private structure Frame (k l : Local) : Prop where
  op : l.op = k.op
  buf : l.buf = k.buf
  mapFull : l.mapFull = k.mapFull
  seen : l.seen = k.seen
  applied : l.applied = k.applied

private theorem Frame.refl (l : Local) : Frame l l := ⟨rfl, rfl, rfl, rfl, rfl⟩

/-- The actions that do not read or change the record. -/
private def quiet : Action → Bool
  | .get _ | .change _ _ | .commit | .fillBuf _ _ | .beginWrite => false
  | _ => true

private theorem Frame.next {k l : Local} {a : Action} (ha : quiet a = true) (h : Frame k l)
    (r : a.Response) : Frame k (l.next a r) := by
  have of_eq : ∀ l' : Local, Frame l l' → Frame k l' := fun l' h' =>
    ⟨h'.op.trans h.op, h'.buf.trans h.buf, h'.mapFull.trans h.mapFull, h'.seen.trans h.seen,
      h'.applied.trans h.applied⟩
  cases a <;> first
    | contradiction
    | exact h
    | exact of_eq _ ⟨rfl, rfl, rfl, rfl, rfl⟩
    | (apply of_eq; simp only [Local.next, Local.enterResize]; split_ifs <;>
        exact ⟨rfl, rfl, rfl, rfl, rfl⟩)

private theorem meets_quiet {k l : Local} {a : Action} {α : Type} {f : a.Response → Code α}
    {post : Local → α → Prop} (ha : quiet a = true) (h : Frame k l)
    (hf : ∀ r l', Frame k l' → Meets contract post l' (f r)) :
    Meets contract post l (call a >>= f) := by
  apply meets_call_bind
  · cases a <;> trivial
  · intro r _
    exact hf r _ (h.next ha r)

private theorem releaseTransaction_meets {k l : Local} (h : Frame k l) :
    Meets contract (fun l' _ => Frame k l') l releaseTransaction := by
  apply meets_quiet rfl h
  intro r l₁ h1
  apply meets_ite
  · intro _
    apply meets_quiet rfl h1
    intro _ l₂ h2
    apply meets_ite
    · intro _
      exact meets_call trivial fun r _ => h2.next rfl r
    · intro _
      exact h2
  · intro _
    exact h1

private theorem release_meets {k l : Local} {α : Type} {x : α} {post : Local → α → Prop}
    (h : Frame k l) (hpost : ∀ l', Frame k l' → post l' x) :
    Meets contract post l (releaseTransaction >>= fun _ => pure x) :=
  (releaseTransaction_meets h).bind fun l' _ h' => hpost l' h'

private theorem openReadDbi_meets {k l : Local} (h : Frame k l) :
    Meets contract (fun l' _ => Frame k l') l openReadDbi := by
  apply meets_quiet rfl h
  intro error l₁ h1
  apply meets_ite
  · intro _
    exact release_meets h1 fun _ h0 => h0
  · intro _
    exact h1

private theorem createReadTxn_meets {k l : Local} (h : Frame k l) :
    Meets contract (fun l' _ => Frame k l') l createReadTxn := by
  apply meets_quiet rfl h
  intro added l₁ h1
  apply meets_ite
  · intro _
    exact h1
  · intro _
    apply meets_quiet rfl h1
    intro has l₂ h2
    apply meets_ite
    · intro _
      apply meets_quiet rfl h2
      intro error l₃ h3
      apply meets_ite
      · intro _
        exact release_meets h3 fun _ h0 => h0
      · intro _
        exact openReadDbi_meets h3
    · intro _
      apply meets_quiet rfl h2
      intro error l₃ h3
      apply meets_ite
      · intro _
        apply meets_quiet rfl h3
        intro _ l₄ h4
        exact release_meets h4 fun _ h0 => h0
      · intro _
        exact openReadDbi_meets h3

private theorem completeReadTxn_meets {k l : Local} (h : Frame k l) :
    Meets contract (fun l' _ => Frame k l') l completeReadTxn := by
  apply meets_quiet rfl h
  intro _ l₁ h1
  exact releaseTransaction_meets h1

private theorem abortWriteTxn_meets {k l : Local} (h : Frame k l) :
    Meets contract (fun l' _ => Frame k l') l abortWriteTxn := by
  apply meets_quiet rfl h
  intro _ l₁ h1
  exact releaseTransaction_meets h1

/-- A write transaction is created before the record is read or after a full map. -/
private theorem createWriteTxn_meets {k l : Local} (h : Frame k l)
    (hseen : k.seen = none ∨ 0 < k.mapFull) :
    Meets contract (fun l' ok => Frame k l' ∧ (ok = true → 0 < l'.writeTxns)) l createWriteTxn := by
  apply meets_quiet rfl h
  intro added l₁ h1
  apply meets_ite
  · intro _
    exact ⟨h1, by simp⟩
  · intro _
    have hneed : need l₁ .beginWrite := by
      rw [need, h1.seen, h1.mapFull]
      exact hseen
    apply meets_call_bind hneed
    intro error _
    have h2 : Frame k (l₁.next .beginWrite error) := by
      simp only [Local.next]
      split
      · exact ⟨h1.op, h1.buf, h1.mapFull, h1.seen, h1.applied⟩
      · exact h1
    apply meets_ite
    · intro _
      exact release_meets h2 fun _ h0 => ⟨h0, by simp⟩
    · intro herror
      have hpos : 0 < (l₁.next .beginWrite error).writeTxns := by
        rw [Local.next, if_pos (not_not.mp herror)]
        exact Nat.succ_pos _
      apply meets_call_bind trivial
      intro error' _
      apply meets_ite
      · intro _
        exact release_meets h2 fun _ h0 => ⟨h0, by simp⟩
      · intro _
        exact ⟨h2, fun _ => hpos⟩

private theorem resizeMap_meets {k l : Local} (h : Frame k l) :
    Meets contract (fun l' _ => Frame k l') l resizeMap := by
  have hrequest : Meets contract (fun l' _ => Frame k l') l requestResize := by
    apply meets_quiet rfl h
    intro r l₁ h1
    apply meets_ite
    · intro _
      apply meets_quiet rfl h1
      intro _ l₂ h2
      exact meets_call trivial fun r _ => h2.next rfl r
    · intro _
      apply meets_ite
      · intro _
        apply meets_quiet rfl h1
        intro _ l₂ h2
        exact meets_call trivial fun r _ => h2.next rfl r
      · intro _
        exact h1
  have hcomplete : ∀ (l' : Local) (x : Bool), Frame k l' →
      Meets contract (fun l' _ => Frame k l') l' (completeResize >>= fun _ => pure x) := by
    intro l' x h'
    have hcomplete : Meets contract (fun l' _ => Frame k l') l' completeResize := by
      apply meets_quiet rfl h'
      intro _ l₂ h2
      exact meets_call trivial fun r _ => h2.next rfl r
    exact hcomplete.bind fun _ _ h3 => h3
  apply hrequest.bind
  intro l₁ ok h1
  apply meets_ite
  · intro _
    exact h1
  · intro _
    apply meets_quiet rfl h1
    intro state l₂ h2
    apply meets_ite
    · intro _
      exact h2
    · intro _
      apply meets_quiet rfl h2
      intro info l₃ h3
      cases info with
      | error _ => exact hcomplete l₃ false h3
      | ok mapsize =>
        apply meets_quiet rfl h3
        intro error l₄ h4
        exact hcomplete l₄ _ h4

/-- The update has read its record and is to write its outcome. -/
private structure Writes (l : Local) (o : Op) (tth : TTHValue) (change : Change) : Prop where
  op : l.op = some o
  key : o.key = some tth
  outcome : ∃ val buf, l.seen = some (val, buf) ∧ o.outcome buf val = .writes change
  applied : l.applied = false

private theorem Frame.writes {k l : Local} {o : Op} {tth : TTHValue} {change : Change}
    (h : Frame k l) (hk : Writes k o tth change) : Writes l o tth change :=
  ⟨h.op.trans hk.op, hk.key, h.seen ▸ hk.outcome, h.applied.trans hk.applied⟩

private theorem writes_change_full {l : Local} {o : Op} {tth : TTHValue} {change : Change}
    (h : Writes l o tth change) :
    Writes (l.next (.change tth change) mdbMapFull) o tth change ∧
      0 < (l.next (.change tth change) mdbMapFull).mapFull := by
  have hne : mdbMapFull ≠ 0 := by decide
  rw [Local.next, if_neg hne, Local.note, if_pos rfl]
  exact ⟨⟨h.op, h.key, h.outcome, h.applied⟩, Nat.succ_pos _⟩

private theorem staged_change {l : Local} {o : Op} {tth : TTHValue} {change : Change} {error : Int}
    (h : Writes l o tth change) (hpos : 0 < l.writeTxns) (herror : error = 0) :
    ∃ val buf, Staged (l.next (.change tth change) error) o tth val buf change := by
  obtain ⟨val, buf, hseen, houtcome⟩ := h.outcome
  rw [Local.next, if_pos herror]
  exact ⟨val, buf, h.op, h.key, hseen, houtcome, rfl, h.applied, hpos⟩

private theorem applied_commit {l : Local} {o : Op} {tth : TTHValue} {change : Change}
    {val : Except Int Bytes} {buf : Bytes} (h : Staged l o tth val buf change) (error : Int) :
    (l.next .commit error).applied = true ↔ error = 0 := by
  simp [Local.next, h.applied]

private theorem writes_commit_full {l : Local} {o : Op} {tth : TTHValue} {change : Change}
    {val : Except Int Bytes} {buf : Bytes} (h : Staged l o tth val buf change) :
    Writes (l.next .commit mdbMapFull) o tth change ∧ 0 < (l.next .commit mdbMapFull).mapFull := by
  have happlied : (l.next .commit mdbMapFull).applied = false := by
    simp [Local.next, h.applied, mdbMapFull]
  have hnote : l.note mdbMapFull = { l with mapFull := l.mapFull + 1 } := by
    rw [Local.note, if_pos rfl]
  rw [Local.next, hnote] at happlied ⊢
  exact ⟨⟨h.op, h.key, ⟨val, buf, h.seen, h.outcome⟩, happlied⟩, Nat.succ_pos _⟩

private theorem changeData_meets {o : Op} {tth : TTHValue} {change : Change} {attempts : Nat}
    {l : Local} (h : Writes l o tth change) (hpos : 0 < l.writeTxns) :
    Meets contract (fun l' ok => ok = true ↔ l'.applied = true) l
      (changeData tth change attempts) := by
  induction attempts generalizing l with
  | zero => simp [changeData, h.applied]
  | succ attempts ih =>
    -- the map was full: the same change is made in a new transaction
    have hretry : ∀ k l', Writes k o tth change → 0 < k.mapFull → Frame k l' →
        Meets contract (fun l' ok => ok = true ↔ l'.applied = true) l' (do
          if (← resizeMap) = false then pure false
          else if (← createWriteTxn) = false then pure false
          else changeData tth change attempts) := by
      intro k l' hk hfull h'
      apply (resizeMap_meets h').bind
      intro l₁ ok h1
      apply meets_ite
      · intro _
        simp [h1.applied, hk.applied]
      · intro _
        apply (createWriteTxn_meets h1 (.inr hfull)).bind
        rintro l₂ ok ⟨h2, hpos2⟩
        cases ok with
        | false => simp [h2.applied, hk.applied]
        | true => exact ih (h2.writes hk) (hpos2 rfl)
    apply meets_call_bind trivial
    intro error _
    apply meets_ite
    · rintro rfl
      have hk := writes_change_full h
      apply (abortWriteTxn_meets (Frame.refl _)).bind
      exact fun l' _ h' => hretry _ l' hk.1 hk.2 h'
    · intro hnotfull
      apply meets_ite
      · intro herror
        have hk : Writes (l.next (.change tth change) error) o tth change := by
          rwa [Local.next, if_neg herror, Local.note, if_neg hnotfull]
        apply (abortWriteTxn_meets (Frame.refl _)).bind
        intro l' _ h'
        have happlied : l'.applied = false := h'.applied.trans hk.applied
        simp [happlied]
      · intro herror
        obtain ⟨val, buf, hstaged⟩ := staged_change h hpos (not_not.mp herror)
        have hneed : need (l.next (.change tth change) error) .commit := ⟨_, _, _, _, _, hstaged⟩
        apply meets_call_bind hneed
        intro error' _
        apply meets_ite
        · rintro rfl
          have hk := writes_commit_full hstaged
          apply (releaseTransaction_meets (Frame.refl _)).bind
          exact fun l' _ h' => hretry _ l' hk.1 hk.2 h'
        · intro _
          apply meets_ite
          · intro herror'
            have happlied := applied_commit hstaged error'
            exact ⟨fun hc => absurd hc (by simp), fun hc => absurd (happlied.mp hc) herror'⟩
          · intro herror'
            apply (releaseTransaction_meets (Frame.refl _)).bind
            intro l' _ h'
            have happlied := (applied_commit hstaged error').mpr (not_not.mp herror')
            exact ⟨fun _ => h'.applied.trans happlied, fun _ => rfl⟩

private theorem post_ofBool {l : Local} {ok : Bool} (h : ok = true ↔ l.applied = true) :
    Post l (.ofBool ok) := by
  rw [Post, ← h]
  cases ok <;> simp [Answer.ofBool]

/-- The rest of an update whose outcome is stored in `buf`. -/
private theorem writeStored_meets {o : Op} {tth : TTHValue} {stored : Stored} {l : Local}
    (h : Writes l o tth (.put (stored.value l.buf))) (hpos : 0 < l.writeTxns) :
    Meets contract Post l (writeStored tth stored) := by
  apply meets_call_bind trivial
  intro buf hbuf
  have hwrites : Writes (l.next (.fillBuf stored.bufSize stored.data) buf) o tth
      (.put (List.take stored.outSize buf)) := by
    rw [show buf = fillBuf l.buf stored.bufSize stored.data from hbuf]
    exact ⟨h.op, h.key, h.outcome, h.applied⟩
  exact (changeData_meets hwrites hpos).bind fun _ _ hok => post_ofBool hok

/-- An update has begun and has not read its record. -/
private structure Begun (l : Local) (o : Op) : Prop where
  op : l.op = some o
  seen : l.seen = none
  applied : l.applied = false

/-- What an update has read, and that it has taken effect if there is nothing to update. -/
private theorem next_get {l : Local} {o : Op} (tth : TTHValue) (h : l.op = some o)
    (val : Except Int Bytes) :
    l.next (.get tth) val =
      { l with seen := some (val, l.buf), applied := decide (o.outcome l.buf val = .keeps) } := by
  rw [Local.next, h]
  rfl

/-- An update from its write transaction on: `rest` is what it does with the value it has read. -/
private theorem update_meets {o : Op} {tth : TTHValue} {rest : Except Int Bytes → Code Answer}
    {l : Local} (h : Begun l o) (hkey : o.key = some tth)
    (hrest : ∀ val k, k.op = some o → k.seen = some (val, k.buf) →
      k.applied = decide (o.outcome k.buf val = .keeps) → 0 < k.writeTxns →
      Meets contract Post k (rest val)) :
    Meets contract Post l (do
      if (← createWriteTxn) = false then pure .failed
      else rest (← call (.get tth))) := by
  apply (createWriteTxn_meets (Frame.refl l) (.inl h.seen)).bind
  rintro l₁ ok ⟨h1, hpos⟩
  cases ok with
  | false => simp [Post, h1.applied, h.applied]
  | true =>
    have hop : l₁.op = some o := h1.op.trans h.op
    have hneed : need l₁ (.get tth) := by
      refine ⟨h1.applied.trans h.applied, fun op hop' _ => ?_⟩
      rw [hop] at hop'
      cases hop'
      exact hkey
    apply meets_call_bind hneed
    intro val _
    apply hrest val
    · exact hop
    · rfl
    · exact congrArg Local.applied (next_get tth hop val)
    · exact hpos rfl

private theorem post_keeps {k l : Local} {x : Answer} (h : Frame k l)
    (hx : x = .done ↔ k.applied = true) : Post l x := by
  rw [Post, h.applied]
  exact hx

private theorem putFileInfo_meets {tth : TTHValue} {u : FileUpdate} {l : Local}
    (h : Begun l (.putFileInfo tth u)) : Meets contract Post l (putFileInfo tth u) := by
  rw [putFileInfo]
  apply update_meets h rfl
  intro val k hop hseen happlied hpos
  split
  · next hnone =>
    have houtcome : Op.outcome (.putFileInfo tth u) k.buf val = .keeps := by
      simp only [Op.outcome, hnone]
    apply (abortWriteTxn_meets (Frame.refl k)).bind
    exact fun l' _ h' => post_keeps h' (by simp [happlied, houtcome])
  · next stored hstored =>
    have houtcome : Op.outcome (.putFileInfo tth u) k.buf val =
        .writes (.put (stored.value k.buf)) := by
      simp only [Op.outcome, hstored]
    exact writeStored_meets ⟨hop, rfl, ⟨val, k.buf, hseen, houtcome⟩, by simp [happlied, houtcome]⟩
      hpos

private theorem putTigerTree_meets {tree : Hash.MerkleTree TTHValue} {l : Local}
    (h : Begun l (.putTigerTree tree)) : Meets contract Post l (putTigerTree tree) := by
  rw [putTigerTree]
  apply meets_ite
  · intro _
    simp [Post, h.applied]
  · intro hleaves
    apply update_meets h rfl
    intro val k hop hseen happlied hpos
    split
    · next hnone =>
      have houtcome : Op.outcome (.putTigerTree tree) k.buf val = .keeps := by
        simp only [Op.outcome, if_neg hleaves, hnone]
      apply (abortWriteTxn_meets (Frame.refl k)).bind
      exact fun l' _ h' => post_keeps h' (by simp [happlied, houtcome])
    · next stored hstored =>
      have houtcome : Op.outcome (.putTigerTree tree) k.buf val =
          .writes (.put (stored.value k.buf)) := by
        simp only [Op.outcome, if_neg hleaves, hstored]
      exact writeStored_meets
        ⟨hop, rfl, ⟨val, k.buf, hseen, houtcome⟩, by simp [happlied, houtcome]⟩ hpos

private theorem removeTigerTree_meets {tth : TTHValue} {l : Local}
    (h : Begun l (.removeTigerTree tth)) : Meets contract Post l (removeTigerTree tth) := by
  rw [removeTigerTree]
  apply update_meets h rfl
  intro val k hop hseen happlied hpos
  split
  · next hnothing =>
    have houtcome : Op.outcome (.removeTigerTree tth) k.buf val = .fails := by
      simp only [Op.outcome, hnothing]
    apply (abortWriteTxn_meets (Frame.refl k)).bind
    exact fun l' _ h' => post_keeps h' (by simp [happlied, houtcome])
  · next bufSize data hdelete =>
    have houtcome : Op.outcome (.removeTigerTree tth) k.buf val = .writes .del := by
      simp only [Op.outcome, hdelete]
    apply meets_call_bind trivial
    intro buf _
    have hwrites : Writes (k.next (.fillBuf bufSize data) buf) (.removeTigerTree tth) tth .del :=
      ⟨hop, rfl, ⟨val, k.buf, hseen, houtcome⟩, by simp [Local.next, happlied, houtcome]⟩
    exact (changeData_meets hwrites hpos).bind fun _ _ hok => post_ofBool hok
  · next stored hstored =>
    have houtcome : Op.outcome (.removeTigerTree tth) k.buf val =
        .writes (.put (stored.value k.buf)) := by
      simp only [Op.outcome, hstored]
    exact writeStored_meets ⟨hop, rfl, ⟨val, k.buf, hseen, houtcome⟩, by simp [happlied, houtcome]⟩
      hpos

/-- The read of an operation that updates nothing. -/
private theorem read_meets {o : Op} {tth : TTHValue} {rest : Except Int Bytes → Code Answer}
    {l : Local} (h : Begun l o) (hkey : o.key = none)
    (hfails : ∀ buf val, o.outcome buf val = .fails)
    (hrest : ∀ val k, k.applied = false → Meets contract Post k (rest val)) :
    Meets contract Post l (do
      if (← createReadTxn) = false then pure .failed
      else rest (← call (.get tth))) := by
  apply (createReadTxn_meets (Frame.refl l)).bind
  intro l₁ ok h1
  apply meets_ite
  · intro _
    simp [Post, h1.applied, h.applied]
  · intro _
    have hop : l₁.op = some o := h1.op.trans h.op
    have hneed : need l₁ (.get tth) := by
      refine ⟨h1.applied.trans h.applied, fun op hop' hne => ?_⟩
      rw [hop] at hop'
      cases hop'
      exact absurd hkey hne
    apply meets_call_bind hneed
    intro val _
    apply hrest val
    exact (congrArg Local.applied (next_get tth hop val)).trans (by simp [hfails])

/-- A read ends with an answer of its own or fails. -/
private theorem complete_meets {l : Local} {x : Answer} (h : l.applied = false) (hx : x ≠ .done) :
    Meets contract Post l (completeReadTxn >>= fun _ => pure x) :=
  (completeReadTxn_meets (Frame.refl l)).bind fun _ _ h' => post_keeps h' (by simp [h, hx])

private theorem getFileInfo_meets {tth : TTHValue} {l : Local}
    (h : Begun l (.getFileInfo tth)) : Meets contract Post l (getFileInfo tth) := by
  rw [getFileInfo]
  apply read_meets h rfl fun _ _ => rfl
  intro val k happlied
  split
  · exact complete_meets happlied (by simp)
  · exact complete_meets happlied (by simp)

private theorem getTigerTree_meets {tth : TTHValue} {l : Local}
    (h : Begun l (.getTigerTree tth)) : Meets contract Post l (getTigerTree tth) := by
  rw [getTigerTree]
  apply read_meets h rfl fun _ _ => rfl
  intro val k happlied
  split
  · exact complete_meets happlied (by simp)
  · split
    · exact complete_meets happlied (by simp)
    · simp [Post, happlied]
    · exact complete_meets happlied (by simp)

private theorem getDBInfo_meets {flags : DbInfoFlags} {l : Local} (h : l.applied = false) :
    Meets contract Post l (getDBInfo flags) := by
  have hpost : ∀ (l' : Local) (x : Answer), Frame l l' → x ≠ .done → Post l' x :=
    fun l' x h' hx => post_keeps h' (by simp [h, hx])
  apply meets_quiet rfl (Frame.refl l)
  intro stat l₁ h1
  cases stat with
  | error _ => exact hpost l₁ _ h1 (by simp)
  | ok stat =>
    apply meets_ite
    · intro _
      exact hpost l₁ _ h1 (by simp)
    · intro _
      have hsize : Meets contract (fun l' _ => Frame l l') l₁ (readMapSize flags) := by
        apply meets_ite
        · intro _
          apply meets_quiet rfl h1
          intro info l₂ h2
          cases info with
          | error _ => exact h2
          | ok _ => exact h2
        · intro _
          exact h1
      apply hsize.bind
      intro l₂ mapSize h2
      apply (createReadTxn_meets h2).bind
      intro l₃ ok h3
      apply meets_ite
      · intro _
        exact hpost l₃ _ h3 (by simp)
      · intro _
        apply meets_quiet rfl h3
        intro error l₄ h4
        apply meets_ite
        · intro _
          exact hpost l₄ _ h4 (by simp)
        · intro _
          apply meets_quiet rfl h4
          intro entries l₅ h5
          exact (completeReadTxn_meets h5).bind fun _ _ h6 => hpost _ _ h6 (by simp)

/-- Every operation keeps to the contract: it reports success when its update has taken effect. -/
theorem code_meets (op : Op) (l : Local) : Meets contract Post (l.start op) op.code := by
  have hbegun : Begun (l.start op) op := ⟨rfl, rfl, rfl⟩
  cases op with
  | getFileInfo tth => exact getFileInfo_meets hbegun
  | getTigerTree tth => exact getTigerTree_meets hbegun
  | putFileInfo tth u => exact putFileInfo_meets hbegun
  | putTigerTree tree => exact putTigerTree_meets hbegun
  | removeTigerTree tth => exact removeTigerTree_meets hbegun
  | getDBInfo flags => exact getDBInfo_meets rfl

/-! ### Runs -/

variable {ι : Type} [DecidableEq ι]

/-- An update that has taken effect and has not returned. -/
def inFlight (c : Conn) : List Op :=
  if c.code.returned = false ∧ c.state.applied = true then c.state.op.toList else []

/-- The entries of one connection. -/
def ofConn {α : Type} (i : ι) (log : List (ι × α)) : List α :=
  (log.filter fun e => e.1 = i).map Prod.snd

/-- At most one write transaction is open, and an update whose first attempt is under way has read
the committed record. -/
structure Consistent (w : World ι) : Prop where
  single : ∀ i j, 0 < (w.conns i).state.writeTxns → 0 < (w.conns j).state.writeTxns → i = j
  one : ∀ i, (w.conns i).state.writeTxns ≤ 1
  fresh : ∀ i op key val buf, (w.conns i).state.op = some op → op.key = some key →
    (w.conns i).state.seen = some (val, buf) → (w.conns i).state.mapFull = 0 →
    0 < (w.conns i).state.writeTxns → val = found w.shared.db key

/-- The operations keep to the contract, and the database and the updates that have reported
success are as the history says. -/
structure Inv (db : TTHValue → Option Bytes) (history : List (ι × Op × Bytes))
    (successes : List (ι × Op)) (w : World ι) : Prop where
  keeps : w.Keeps contract Post
  consistent : Consistent w
  db : w.shared.db = history.foldl (fun db e => apply e.2.1 e.2.2 db) db
  complete : ∀ i, (ofConn i history).map Prod.fst = ofConn i successes ++ inFlight (w.conns i)

omit [DecidableEq ι] in
private theorem reply_ensured {s : Shared} {l : Local} {env : Env} {a : Action} {r : a.Response}
    (hr : s.reply l env a = some r) : Ensured l a r := by
  cases a with
  | fillBuf bufSize data =>
    cases hr
    rfl
  | _ => trivial

theorem db_next {a : Action} (ha : a ≠ .commit) (s : Shared) (l : Local) (r : a.Response) :
    (s.next l a r).db = s.db := by
  cases a <;> first
    | contradiction
    | rfl
    | (simp only [Shared.next, Shared.enterResize]; split_ifs <;> rfl)

theorem op_next (l : Local) (a : Action) (r : a.Response) : (l.next a r).op = l.op := by
  cases a <;> first
    | rfl
    | (simp only [Local.next, Local.enterResize, Local.note]; split_ifs <;> rfl)

/-- The updates in effect before and after an action. -/
private theorem effect_applied {l : Local} {a : Action} (hneed : need l a) (r : a.Response) :
    (if l.applied then l.op.toList else []) ++ (effect l a r).map Prod.fst =
      if (l.next a r).applied then l.op.toList else [] := by
  cases a with
  | get key =>
    have happlied : l.applied = false := hneed.1
    rcases Option.eq_none_or_eq_some l.op with hop | ⟨op, hop⟩
    · simp [effect, Local.next, happlied, hop]
    · by_cases hkeeps : op.outcome l.buf r = .keeps <;>
        simp [effect, Local.next, happlied, hop, hkeeps]
  | commit =>
    obtain ⟨op, key, val, buf, change, hstaged⟩ := hneed
    simp only [effect, Local.next, hstaged.applied, hstaged.op, hstaged.seen]
    by_cases herror : r = 0 <;> simp [herror]
  | _ =>
    simp only [effect, List.map_nil, List.append_nil, Local.next, Local.enterResize, Local.note]
    try split_ifs <;> simp_all

omit [DecidableEq ι] in
/-- What an action lets take effect makes the new database out of the old one. -/
private theorem db_effect {w : World ι} (h : Consistent w) {i : ι} {a : Action} {r : a.Response}
    (hneed : need (w.conns i).state a) (hhonest : Honest w (w.conns i).state a r)
    (hunchanged : Unchanged w (w.conns i).state a r) :
    (w.shared.next (w.conns i).state a r).db =
      (effect (w.conns i).state a r).foldl (fun db e => apply e.1 e.2 db) w.shared.db := by
  cases a with
  | get key =>
    rw [db_next (by simp)]
    simp only [effect]
    cases hop : (w.conns i).state.op with
    | none => rfl
    | some op =>
      by_cases hkeeps : op.outcome (w.conns i).state.buf r = .keeps
      · cases hkey : op.key with
        | none => simp [hkeeps, apply, hkey]
        | some tth =>
          have htth := hneed.2 op hop (by simp [hkey])
          have hval := hhonest op hop htth
          rw [hkey] at htth
          cases htth
          rw [hval] at hkeeps
          simp [hval, hkeeps, apply, hkey]
      · simp [hkeeps]
  | commit =>
    obtain ⟨op, key, val, buf, change, hstaged⟩ := hneed
    simp only [effect, hstaged.op, hstaged.seen]
    by_cases herror : r = 0
    · have hfound : found w.shared.db key = val := by
        rcases Nat.eq_zero_or_pos (w.conns i).state.mapFull with hfull | hfull
        · exact (h.fresh i op key val buf hstaged.op hstaged.key hstaged.seen hfull
            hstaged.writeTxns).symm
        · exact hunchanged herror hfull op key val buf hstaged.op hstaged.key hstaged.seen
      simp [Shared.next, Shared.commit, herror, hstaged.staged, apply, hstaged.key, hfound,
        hstaged.outcome]
    · simp [Shared.next, herror]
  | _ =>
    rw [db_next (by simp)]
    rfl

private theorem writeTxns_next {l : Local} {a : Action} (ha : a ≠ .beginWrite) (r : a.Response) :
    (l.next a r).writeTxns ≤ l.writeTxns := by
  cases a <;> first
    | contradiction
    | exact le_rfl
    | exact Nat.sub_le _ _
    | (simp only [Local.next, Local.enterResize, Local.note]; split_ifs <;> exact le_rfl)

omit [DecidableEq ι] in
/-- An action leaves no more write transactions, or begins the only one. -/
private theorem writeTxns_honest {w : World ι} {i : ι} {a : Action} {r : a.Response}
    (hhonest : Honest w (w.conns i).state a r) :
    ((w.conns i).state.next a r).writeTxns ≤ (w.conns i).state.writeTxns ∨
      (∀ j, (w.conns j).state.writeTxns = 0) ∧ ((w.conns i).state.next a r).writeTxns ≤ 1 := by
  by_cases ha : a = .beginWrite
  · subst ha
    by_cases herror : r = 0
    · right
      have hzero := hhonest herror
      refine ⟨hzero, ?_⟩
      rw [Local.next, if_pos herror]
      simp [hzero i]
    · left
      rw [Local.next, if_neg herror]
  · exact .inl (writeTxns_next ha r)

private theorem single_act {w : World ι} (h : Consistent w) {i : ι} {a : Action} {r : a.Response}
    {code : Code Answer} (hhonest : Honest w (w.conns i).state a r) (j k : ι)
    (hj : 0 < (Function.update w.conns i ⟨code, (w.conns i).state.next a r⟩ j).state.writeTxns)
    (hk : 0 < (Function.update w.conns i ⟨code, (w.conns i).state.next a r⟩ k).state.writeTxns) :
    j = k := by
  rcases writeTxns_honest hhonest with hle | ⟨hzero, -⟩
  · have hpos : ∀ j,
        0 < (Function.update w.conns i ⟨code, (w.conns i).state.next a r⟩ j).state.writeTxns →
        0 < (w.conns j).state.writeTxns := by
      intro j hj
      rcases eq_or_ne j i with rfl | hne
      · rw [Function.update_self] at hj
        exact hj.trans_le hle
      · rwa [Function.update_of_ne hne] at hj
    exact h.single j k (hpos j hj) (hpos k hk)
  · have heq : ∀ j,
        0 < (Function.update w.conns i ⟨code, (w.conns i).state.next a r⟩ j).state.writeTxns →
        j = i := by
      intro j hj
      by_contra hne
      rw [Function.update_of_ne hne, hzero j] at hj
      exact absurd hj (lt_irrefl 0)
    rw [heq j hj, heq k hk]

private theorem one_act {w : World ι} (h : Consistent w) {i : ι} {a : Action} {r : a.Response}
    {code : Code Answer} (hhonest : Honest w (w.conns i).state a r) (j : ι) :
    (Function.update w.conns i ⟨code, (w.conns i).state.next a r⟩ j).state.writeTxns ≤ 1 := by
  rcases eq_or_ne j i with rfl | hne
  · rw [Function.update_self]
    rcases writeTxns_honest hhonest with hle | ⟨-, hone⟩
    · exact hle.trans (h.one j)
    · exact hone
  · rw [Function.update_of_ne hne]
    exact h.one j

omit [DecidableEq ι] in
/-- The connection that acts: what it has read is the committed record, as long as its first
transaction is open. -/
private theorem fresh_self {w : World ι} (h : Consistent w) {i : ι} {a : Action} {r : a.Response}
    (hneed : need (w.conns i).state a) (hhonest : Honest w (w.conns i).state a r) {op : Op}
    {key : TTHValue} {val : Except Int Bytes} {buf : Bytes}
    (hop : ((w.conns i).state.next a r).op = some op) (hkey : op.key = some key)
    (hseen : ((w.conns i).state.next a r).seen = some (val, buf))
    (hfull : ((w.conns i).state.next a r).mapFull = 0)
    (hpos : 0 < ((w.conns i).state.next a r).writeTxns) :
    val = found (w.shared.next (w.conns i).state a r).db key := by
  rw [op_next] at hop
  have hold := h.fresh i op key val buf hop hkey
  cases a with
  | get tth =>
    have htth := hneed.2 op hop (by simp [hkey])
    have hval := hhonest op hop htth
    rw [hkey] at htth
    cases htth
    simp only [Local.next, Option.some.injEq, Prod.mk.injEq] at hseen
    rw [← hseen.1]
    exact hval
  | commit =>
    have hone := h.one i
    simp only [Local.next] at hpos
    omega
  | beginWrite =>
    simp only [Local.next] at hseen hfull hpos
    split at hpos
    · next herror =>
      rw [if_pos herror] at hseen hfull
      rcases hneed with hnone | hpos'
      · rw [hnone] at hseen
        cases hseen
      · exact absurd hfull (Nat.pos_iff_ne_zero.mp hpos')
    · next herror =>
      rw [if_neg herror] at hseen hfull
      exact hold hseen hfull hpos
  | change tth change =>
    simp only [Local.next, Local.note] at hseen hfull hpos
    split_ifs at hseen hfull hpos
    · exact hold hseen hfull hpos
    · exact hold hseen hfull hpos
  | fillBuf bufSize data => exact hold hseen hfull hpos
  | _ =>
    have hframe := Frame.next rfl (Frame.refl (w.conns i).state) r
    rw [db_next (by simp)]
    rw [hframe.seen] at hseen
    rw [hframe.mapFull] at hfull
    exact hold hseen hfull (hpos.trans_le (writeTxns_next (by simp) r))

private theorem consistent_act {w : World ι} (h : Consistent w) {i : ι} {a : Action}
    {r : a.Response} {code : Code Answer} (hneed : need (w.conns i).state a)
    (hhonest : Honest w (w.conns i).state a r) :
    Consistent
      { shared := w.shared.next (w.conns i).state a r
        conns := Function.update w.conns i ⟨code, (w.conns i).state.next a r⟩ } where
  single := single_act h hhonest
  one := one_act h hhonest
  fresh := by
    intro j op key val buf hop hkey hseen hfull hpos
    dsimp only at hop hseen hfull hpos ⊢
    rcases eq_or_ne j i with rfl | hne
    · rw [Function.update_self] at hop hseen hfull hpos
      exact fresh_self h hneed hhonest hop hkey hseen hfull hpos
    · rw [Function.update_of_ne hne] at hop hseen hfull hpos
      have hdb : (w.shared.next (w.conns i).state a r).db = w.shared.db := by
        apply db_next
        -- whoever commits has the only open write transaction
        rintro rfl
        obtain ⟨_, _, _, _, _, hstaged⟩ := hneed
        exact hne (h.single j i hpos hstaged.writeTxns)
      rw [hdb]
      exact h.fresh j op key val buf hop hkey hseen hfull hpos

/-- A connection between two operations changes nothing that the others see. -/
private theorem consistent_set {w : World ι} (h : Consistent w) {i : ι} {c : Conn}
    (hwrite : c.state.writeTxns = (w.conns i).state.writeTxns)
    (hfresh : ∀ op key val buf, c.state.op = some op → op.key = some key →
      c.state.seen = some (val, buf) → c.state.mapFull = 0 → 0 < c.state.writeTxns →
      val = found w.shared.db key) : Consistent (w.set i c) := by
  have hsame : ∀ j, ((w.set i c).conns j).state.writeTxns = (w.conns j).state.writeTxns := by
    intro j
    rcases eq_or_ne j i with rfl | hne
    · simp [World.set, hwrite]
    · simp [World.set, Function.update_of_ne hne]
  refine ⟨?_, ?_, ?_⟩
  · intro j k hj hk
    rw [hsame] at hj hk
    exact h.single j k hj hk
  · intro j
    rw [hsame]
    exact h.one j
  · intro j op key val buf hop hkey hseen hfull hpos
    rcases eq_or_ne j i with rfl | hne
    · simp only [World.set, Function.update_self] at hop hseen hfull hpos
      exact hfresh op key val buf hop hkey hseen hfull hpos
    · simp only [World.set, Function.update_of_ne hne] at hop hseen hfull hpos
      exact h.fresh j op key val buf hop hkey hseen hfull hpos

theorem ofConn_append {α : Type} (i : ι) (log log' : List (ι × α)) :
    ofConn i (log ++ log') = ofConn i log ++ ofConn i log' := by
  rw [ofConn, List.filter_append, List.map_append, ofConn, ofConn]

private theorem ofConn_self {α : Type} (i : ι) (es : List α) :
    ofConn i (es.map fun e => (i, e)) = es := by
  simp [ofConn, List.filter_map, Function.comp_def]

private theorem ofConn_other {α : Type} {i j : ι} (hne : j ≠ i) (es : List α) :
    ofConn j (es.map fun e => (i, e)) = [] := by
  simp [ofConn, List.filter_map, Function.comp_def, hne.symm]

omit [DecidableEq ι] in
private theorem recorded_act {w : World ι} {i : ι} {env : Env} {a : Action}
    {code : a.Response → Code Answer} {r : a.Response} (hcode : (w.conns i).code = .act a code)
    (hr : w.shared.reply (w.conns i).state env a = some r) :
    recorded w (.act i env) = (effect (w.conns i).state a r).map fun e => (i, e) := by
  simp only [recorded, hcode, hr]

omit [DecidableEq ι] in
private theorem reported_act {w : World ι} {i : ι} {env : Env} {a : Action}
    {code : a.Response → Code Answer} {r : a.Response} (hcode : (w.conns i).code = .act a code)
    (hr : w.shared.reply (w.conns i).state env a = some r) :
    reported w (.act i env) = (succeeded (w.conns i).state (code r)).map fun op => (i, op) := by
  simp only [reported, hcode, hr]

/-- What is in flight and what takes effect is reported or stays in flight. -/
private theorem inFlight_act {l : Local} {a : Action} {code : a.Response → Code Answer}
    {r : a.Response} (hneed : need l a) (hkeeps : Meets contract Post (l.next a r) (code r)) :
    inFlight ⟨.act a code, l⟩ ++ (effect l a r).map Prod.fst =
      succeeded l (code r) ++ inFlight ⟨code r, l.next a r⟩ := by
  have hbefore : inFlight ⟨.act a code, l⟩ = if l.applied then l.op.toList else [] := by
    simp [inFlight, Prog.returned]
  rw [hbefore, effect_applied hneed]
  cases hcode : code r with
  | ret x =>
    rw [hcode] at hkeeps
    have hpost : x = .done ↔ (l.next a r).applied = true := hkeeps
    by_cases hx : x = .done
    · simp [succeeded, inFlight, Prog.returned, hx, hpost.mp hx]
    · have happlied : (l.next a r).applied = false := by
        rw [← Bool.not_eq_true]
        exact fun hc => hx (hpost.mpr hc)
      simp [succeeded, inFlight, Prog.returned, hx, happlied]
  | act a' code' => simp [succeeded, inFlight, Prog.returned, op_next]

theorem inFlight_returned {c : Conn} (h : c.code.returned = true) : inFlight c = [] := by
  simp [inFlight, h]

variable {db : TTHValue → Option Bytes} {log : List (ι × Op × Bytes)} {oks : List (ι × Op)}

/-- The invariant after the action of a thread. -/
private theorem inv_act {w w' : World ι} (h : Inv db log oks w) {i : ι} {env : Env} {a : Action}
    {code : a.Response → Code Answer} {r : a.Response} (hcode : (w.conns i).code = .act a code)
    (hr : w.shared.reply (w.conns i).state env a = some r)
    (hcond : Honest w (w.conns i).state a r ∧ Unchanged w (w.conns i).state a r)
    (hw' : w' =
      { shared := w.shared.next (w.conns i).state a r
        conns := Function.update w.conns i ⟨code r, (w.conns i).state.next a r⟩ })
    (hkeeps : w'.Keeps contract Post) :
    Inv db (log ++ recorded w (.act i env)) (oks ++ reported w (.act i env)) w' := by
  have hconns : w'.conns = Function.update w.conns i ⟨code r, (w.conns i).state.next a r⟩ :=
    congrArg World.conns hw'
  have hneed : need (w.conns i).state a := by
    have hi := h.keeps i
    rw [hcode] at hi
    exact hi.1
  have hafter : Meets contract Post ((w.conns i).state.next a r) (code r) := by
    have hi := hkeeps i
    rwa [hconns, Function.update_self] at hi
  refine ⟨hkeeps, ?_, ?_, ?_⟩
  · rw [hw']
    exact consistent_act h.consistent hneed hcond.1
  · rw [hw', recorded_act hcode hr, List.foldl_append, ← h.db, List.foldl_map]
    exact db_effect h.consistent hneed hcond.1 hcond.2
  · intro j
    rw [hconns, recorded_act hcode hr, reported_act hcode hr, ofConn_append, ofConn_append,
      List.map_append, h.complete j]
    rcases eq_or_ne j i with rfl | hne
    · have hflight := inFlight_act hneed hafter
      have hconn : (⟨.act a code, (w.conns j).state⟩ : Conn) = w.conns j := by rw [← hcode]
      rw [hconn] at hflight
      rw [ofConn_self, ofConn_self, Function.update_self, List.append_assoc, List.append_assoc,
        hflight]
    · rw [ofConn_other hne, ofConn_other hne, Function.update_of_ne hne]
      simp

/-- An event that lets nothing take effect and reports nothing. -/
private theorem inv_silent {w w' : World ι} (h : Inv db log oks w) {e : Event ι}
    (hrecorded : recorded w e = []) (hreported : reported w e = [])
    (hkeeps : w'.Keeps contract Post) (hconsistent : Consistent w')
    (hdb : w'.shared.db = w.shared.db)
    (hflight : ∀ i, inFlight (w'.conns i) = inFlight (w.conns i)) :
    Inv db (log ++ recorded w e) (oks ++ reported w e) w' := by
  rw [hrecorded, hreported, List.append_nil, List.append_nil]
  refine ⟨hkeeps, hconsistent, hdb.trans h.db, fun i => ?_⟩
  rw [hflight]
  exact h.complete i

private theorem inFlight_set {w : World ι} {i : ι} {c : Conn}
    (hc : inFlight c = inFlight (w.conns i))
    (j : ι) : inFlight ((w.set i c).conns j) = inFlight (w.conns j) := by
  rcases eq_or_ne j i with rfl | hne
  · simp [World.set, hc]
  · simp [World.set, Function.update_of_ne hne]

private theorem inv_step {w : World ι} (h : Inv db log oks w) (e : Event ι)
    (hcond : Condition w e) :
    Inv db (log ++ recorded w e) (oks ++ reported w e) (w.step e) := by
  have hrelies : w.Relies contract.may e := by
    cases e with
    | act i env => exact fun a code r _ hr => reply_ensured hr
    | _ => trivial
  have hkeeps := h.keeps.step rfl (fun op l _ _ ↦ code_meets op l) (fun _ _ hpost ↦ hpost) e hrelies
  cases e with
  | start i op =>
    rw [World.step] at hkeeps ⊢
    split at hkeeps
    · next hret =>
      rw [if_pos hret]
      refine inv_silent h rfl rfl hkeeps ?_ rfl ?_
      · refine consistent_set h.consistent rfl fun _ _ _ _ _ _ hseen => ?_
        cases hseen
      · refine inFlight_set ?_
        rw [inFlight_returned hret]
        simp [inFlight, Local.start]
    · next hret =>
      rw [if_neg hret]
      exact inv_silent h rfl rfl h.keeps h.consistent rfl fun _ => rfl
  | act i env =>
    rw [World.step] at hkeeps ⊢
    cases hcode : (w.conns i).code with
    | ret x =>
      have hact : w.act i env = w := by simp only [World.act, hcode]
      rw [hact]
      refine inv_silent h ?_ ?_ h.keeps h.consistent rfl fun _ => rfl
      · simp only [recorded, hcode]
      · simp only [reported, hcode]
    | act a code =>
      cases hr : w.shared.reply (w.conns i).state env a with
      | none =>
        have hact : w.act i env = w := by simp only [World.act, hcode, hr]
        rw [hact]
        refine inv_silent h ?_ ?_ h.keeps h.consistent rfl fun _ => rfl
        · simp only [recorded, hcode, hr]
        · simp only [reported, hcode, hr]
      | some r =>
        refine inv_act h hcode hr (hcond a code r hcode hr) ?_ hkeeps
        simp only [World.act, hcode, hr]
  | close i =>
    rw [World.step] at hkeeps ⊢
    split at hkeeps
    · next hret =>
      rw [if_pos hret]
      refine inv_silent h rfl rfl hkeeps ?_ rfl (inFlight_set rfl)
      exact consistent_set h.consistent rfl fun op key val buf ↦ h.consistent.fresh i op key val buf
    · next hret =>
      rw [if_neg hret]
      exact inv_silent h rfl rfl h.keeps h.consistent rfl fun _ => rfl

private theorem inv_run {w : World ι} (h : Inv db log oks w) {es : List (Event ι)}
    (hes : Within Condition World.step w es) :
    Inv db (log ++ history w es) (oks ++ successes w es) (run World.step w es) := by
  induction es generalizing w log oks with
  | nil => simpa [history, successes] using h
  | cons e es ih =>
    have hrest := ih (inv_step h e hes.1) hes.2
    rwa [List.append_assoc, List.append_assoc] at hrest

/-- The database is what the updates of the history make of its first contents, one after another,
and where a connection is between two operations, its part of the history are the updates that have
reported success to it, in their order. -/
structure Reflects (db : TTHValue → Option Bytes) (log : List (ι × Op × Bytes))
    (oks : List (ι × Op)) (w : World ι) : Prop where
  db : w.shared.db = log.foldl (fun db e => apply e.2.1 e.2.2 db) db
  complete : ∀ i, (w.conns i).code.returned = true → (ofConn i log).map Prod.fst = ofConn i oks

/-- The invariant of every run from the start. -/
theorem inv_init_run (mapsize : Nat) (db : TTHValue → Option Bytes) (es : List (Event ι))
    (h : Within Condition World.step (World.init ι mapsize db) es) :
    Inv db (history (World.init ι mapsize db) es) (successes (World.init ι mapsize db) es)
      (run World.step (World.init ι mapsize db) es) := by
  have hinit : Inv db [] [] (World.init ι mapsize db) := by
    refine ⟨fun _ => ?_, ⟨?_, ?_, ?_⟩, rfl, fun _ => ?_⟩ <;>
      simp [World.init, Local.new, Post, inFlight, ofConn, Prog.returned]
  exact inv_run hinit h

/-- The key of the runs below. -/
private def key : TTHValue := ⟨List.replicate 24 0, length_zeros⟩

/-- The thread `i` counts an upload; `errors` are the answers of LMDB to its actions. -/
private def upload (i : Fin 2) (errors : List Int) : List (Event (Fin 2)) :=
  .start i (.putFileInfo key ⟨0, 1, none, true⟩) ::
    (errors.map fun error => .act i ⟨error, [], [], (0, 0)⟩)

/-- Two connections count one upload each. The first one meets a full map; before it retries, the
second one commits its update. -/
private def race : List (Event (Fin 2)) :=
  upload 0 [0, 0, 0, mdbNotFound, 0, mdbMapFull, 0, 0] ++
    upload 1 [0, 0, 0, mdbNotFound, 0, 0, 0, 0] ++
    List.replicate 12 (.act 0 ⟨0, [], [], (0, 0)⟩)

end Updates

end Blacklink.HashDb
