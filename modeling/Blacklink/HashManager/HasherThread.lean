import Mathlib.Data.List.Perm.Basic
import Mathlib.Data.List.Nodup
import Blacklink.Base.Run
import Blacklink.Share.ShareManager

/-!
# The thread of the hasher

Model of `Hasher::run`, `hashFile` and `stopHashing` as steps on what they share
(`client/HashManager.cpp:208-283, 436-467, 495-637`), and of the numbers by which `ShareManager`
learns that it is done (`client/ShareManager.cpp:3126-3137, 3419-3485`). Every critical section on
`cs` is one step. How a file is read, pauses and what is counted for display are left out.
-/

namespace Blacklink.HashManager

open Blacklink.Base Blacklink.Share

/-- `HashTaskItem`. -/
structure HashTaskItem where
  path : List UInt8
  fileID : Nat
  deriving DecidableEq

/-- Where the thread is: at the top of its loop, waiting, hashing an item or at its end. -/
inductive Phase where
  | top
  | waiting
  | hashing (item : HashTaskItem)
  | ended
  deriving DecidableEq

/-- `Hasher`, and the numbers of `ShareManager`; `maxSharedFileID` is `nextFileID`. The last four
are the history: the items that were queued, the numbers of those that were reported, of those that
were taken away without a report, and of those that a call of `stopHashing` covered while they were
queued or current. -/
structure HasherState where
  wl : List HashTaskItem
  currentFile : List UInt8
  skipFile : Bool
  phase : Phase
  maxSharedFileID : Nat
  maxHashedFileID : Nat
  queued : List HashTaskItem
  reported : List Nat
  dropped : List Nat
  stopped : List Nat

/-- A call from another thread, or a step of the thread: it wakes up, takes an item, looks at
`skipFile` while it reads, reports what came of the item or ends. -/
inductive HasherEvent where
  | hashFile (path : List UInt8)
  | stopHashing (baseDir : List UInt8)
  | wake
  | take
  | check
  | fileHashed
  | hashingError
  | shutdown

/-- `strnicmp(baseDir, path, baseDir.length()) == 0`; an empty `baseDir` is for all files. -/
def covers (baseDir path : List UInt8) : Bool := strnicmpEq baseDir path baseDir.length

namespace HasherState

/-- The thread has just been started. -/
def new : HasherState := ⟨[], [], false, .top, 0, 0, [], [], [], []⟩

variable (s : HasherState)

/-- The item that is being hashed. -/
def current : List HashTaskItem :=
  match s.phase with
  | .hashing item => [item]
  | _ => []

/-- `stopHashing` takes the current file for one of those it is for. -/
def stopsCurrent (baseDir : List UInt8) : Bool :=
  s.currentFile ≠ [] && covers baseDir s.currentFile

/-- A call of `hashFile` from `scanDirs`. -/
def hashFile (path : List UInt8) : HasherState :=
  let item : HashTaskItem := ⟨path, s.maxSharedFileID + 1⟩
  { s with
    wl := s.wl ++ [item]
    maxSharedFileID := s.maxSharedFileID + 1
    queued := s.queued ++ [item] }

/-- `stopHashing`. -/
def stopHashing (baseDir : List UInt8) : HasherState :=
  let covered := s.wl.filter fun i => covers baseDir i.path
  { s with
    wl := s.wl.filter fun i => !covers baseDir i.path
    currentFile := if s.stopsCurrent baseDir then [] else s.currentFile
    skipFile := s.skipFile || s.stopsCurrent baseDir
    dropped := s.dropped ++ covered.map HashTaskItem.fileID
    stopped := s.stopped ++
      ((s.current.filter fun i => covers baseDir i.path) ++ covered).map HashTaskItem.fileID }

/-- The thread takes the first item, or it waits. -/
def takeItem : HasherState :=
  match s.phase, s.wl with
  | .top, [] => { s with currentFile := [], phase := .waiting }
  | .top, item :: wl => { s with wl := wl, currentFile := item.path, phase := .hashing item }
  | _, _ => s

/-- The thread looks at `skipFile`. -/
def check : HasherState :=
  match s.phase with
  | .hashing item =>
    if s.skipFile then
      { s with skipFile := false, phase := .top, dropped := s.dropped ++ [item.fileID] }
    else s
  | _ => s

/-- `FileHashed` or `HashingError`, with what `ShareManager` does. -/
def report : HasherState :=
  match s.phase with
  | .hashing item =>
    { s with
      phase := .top
      maxHashedFileID := max s.maxHashedFileID item.fileID
      reported := s.reported ++ [item.fileID] }
  | _ => s

/-- What an event does. -/
def step : HasherEvent → HasherState
  | .hashFile path => s.hashFile path
  | .stopHashing baseDir => s.stopHashing baseDir
  | .wake => if s.phase = .waiting then { s with phase := .top } else s
  | .take => s.takeItem
  | .check => s.check
  | .fileHashed | .hashingError => s.report
  | .shutdown => { s with wl := [], currentFile := [], phase := .ended }

/-- The queue is empty and the thread waits. -/
def Idle : Prop := s.phase = .waiting ∧ s.wl = []

instance : Decidable s.Idle := inferInstanceAs (Decidable (_ ∧ _))

/-- An item was reported once, or it was taken away, because it was covered by a call of
`stopHashing` while it was queued or current. -/
def Accounted (item : HashTaskItem) : Prop :=
  s.reported.count item.fileID = 1 ∧ item.fileID ∉ s.dropped ∨
    item.fileID ∉ s.reported ∧ s.dropped.count item.fileID = 1 ∧ item.fileID ∈ s.stopped

instance (item : HashTaskItem) : Decidable (s.Accounted item) :=
  inferInstanceAs (Decidable (_ ∨ _))

/-- When the thread is idle, all items are accounted for, and the next `on(Second)` ends the
phase. -/
def IdleAccounted : Prop :=
  s.Idle → (∀ item ∈ s.queued, s.Accounted item) ∧ s.maxSharedFileID ≤ s.maxHashedFileID

/-- The condition on an event: the current file is only stopped while it is being hashed, and it is
not reported after that; and the last item of all is not taken away. -/
def InTime : HasherEvent → Prop
  | .stopHashing baseDir =>
    (s.stopsCurrent baseDir → s.current ≠ []) ∧
      (∀ item ∈ s.wl, covers baseDir item.path → item.fileID ≠ s.maxSharedFileID) ∧
      (s.stopsCurrent baseDir → ∀ item ∈ s.current, item.fileID ≠ s.maxSharedFileID)
  | .fileHashed | .hashingError => s.skipFile = false
  | _ => True

instance : ∀ e, Decidable (s.InTime e)
  | .stopHashing _ => inferInstanceAs (Decidable (_ ∧ _ ∧ _))
  | .fileHashed | .hashingError => inferInstanceAs (Decidable (_ = _))
  | .hashFile _ | .wake | .take | .check | .shutdown => isTrue True.intro

/-! ### Every item is in one place -/

/-- The numbers of the items that are queued or current. -/
def waitingIDs : List Nat := (s.wl ++ s.current).map HashTaskItem.fileID

/-- What holds unless the thread has ended. -/
structure Inv : Prop where
  places : ∀ n, s.waitingIDs.count n + s.reported.count n + s.dropped.count n =
    (s.queued.map HashTaskItem.fileID).count n
  nodup : (s.queued.map HashTaskItem.fileID).Nodup
  le_max : ∀ n ∈ s.queued.map HashTaskItem.fileID, n ≤ s.maxSharedFileID
  dropped : s.dropped ⊆ s.stopped
  skipFile : s.skipFile = true → ∃ item, s.phase = .hashing item ∧ item.fileID ∈ s.stopped ∧
    item.fileID ≠ s.maxSharedFileID
  currentFile : ∀ item, s.phase = .hashing item → s.currentFile = item.path ∨ s.currentFile = []
  last : s.maxSharedFileID = 0 ∨
    s.maxSharedFileID ∈ s.queued.map HashTaskItem.fileID ∧ s.maxSharedFileID ∉ s.dropped
  reported : ∀ n ∈ s.reported, n ≤ s.maxHashedFileID

variable {s}

theorem current_of_hashing {item : HashTaskItem} (h : s.phase = .hashing item) :
    s.current = [item] := by
  rw [current, h]

theorem inv_new : new.Inv := by
  constructor
  · exact fun _ => rfl
  · exact List.nodup_nil
  · exact fun _ h => absurd h List.not_mem_nil
  · exact List.Subset.refl []
  · nofun
  · nofun
  · exact .inl rfl
  · exact fun _ h => absurd h List.not_mem_nil

/-- What was taken away had been queued. -/
theorem Inv.dropped_le (h : s.Inv) {n : Nat} (hn : n ∈ s.dropped) : n ≤ s.maxSharedFileID := by
  have hpos := List.count_pos_iff.mpr hn
  have hplaces := h.places n
  exact h.le_max n (List.count_pos_iff.mp (by omega))

/-- When the thread is idle, every item was reported or taken away. -/
theorem Inv.idleAccounted (h : s.Inv) : s.IdleAccounted := by
  rintro ⟨hphase, hwl⟩
  have hnone : s.waitingIDs = [] := by
    rw [waitingIDs, current, hphase, hwl]
    rfl
  have hcount : ∀ n ∈ s.queued.map HashTaskItem.fileID,
      s.reported.count n + s.dropped.count n = 1 := by
    intro n hn
    have hplaces := h.places n
    rw [hnone, List.count_nil, List.count_eq_one_of_mem h.nodup hn] at hplaces
    omega
  constructor
  · intro item hitem
    have hone := hcount item.fileID (List.mem_map_of_mem hitem)
    rcases Nat.eq_zero_or_pos (s.dropped.count item.fileID) with hzero | hpos
    · exact .inl ⟨by omega, List.count_eq_zero.mp hzero⟩
    · exact .inr ⟨List.count_eq_zero.mp (by omega), by omega,
        h.dropped (List.count_pos_iff.mp hpos)⟩
  · rcases h.last with hzero | ⟨hlast, hkept⟩
    · omega
    · have hone := hcount _ hlast
      rw [List.count_eq_zero.mpr hkept] at hone
      exact h.reported _ (List.count_pos_iff.mp (by omega))

/-! ### What the events keep -/

theorem inv_hashFile (h : s.Inv) (path : List UInt8) : (s.hashFile path).Inv := by
  have hnew : s.maxSharedFileID + 1 ∉ s.queued.map HashTaskItem.fileID := by
    intro hmem
    have := h.le_max _ hmem
    omega
  constructor
  · intro n
    have hplaces := h.places n
    simp only [waitingIDs, hashFile, current, List.map_append, List.count_append] at hplaces ⊢
    omega
  · rw [hashFile, List.map_append, List.nodup_append']
    refine ⟨h.nodup, List.nodup_singleton _, ?_⟩
    intro n hn hmem
    rw [List.map_singleton, List.mem_singleton] at hmem
    rw [hmem] at hn
    exact hnew hn
  · intro n hn
    rw [hashFile, List.map_append, List.mem_append] at hn
    rcases hn with hn | hn
    · exact Nat.le_succ_of_le (h.le_max n hn)
    · exact (List.mem_singleton.mp hn).le
  · exact h.dropped
  · intro hskip
    obtain ⟨item, hphase, hstopped, -⟩ := h.skipFile hskip
    refine ⟨item, hphase, hstopped, ?_⟩
    have hmem : item.fileID ∈ s.queued.map HashTaskItem.fileID := by
      have hplaces := h.places item.fileID
      apply List.count_pos_iff.mp
      rw [waitingIDs, current_of_hashing hphase, List.map_append, List.map_singleton,
        List.count_append, List.count_singleton_self] at hplaces
      omega
    intro heq
    rw [heq] at hmem
    exact hnew hmem
  · exact h.currentFile
  · right
    constructor
    · rw [hashFile, List.map_append]
      exact List.mem_append_right _ List.mem_cons_self
    · intro hmem
      have hle : s.maxSharedFileID + 1 ≤ s.maxSharedFileID := h.dropped_le hmem
      omega
  · exact h.reported

/-- A call of `stopHashing` that comes in time. -/
theorem inv_stopHashing (h : s.Inv) {baseDir : List UInt8} (hin : s.InTime (.stopHashing baseDir)) :
    (s.stopHashing baseDir).Inv := by
  obtain ⟨hcurrent, hwl, hlast⟩ := hin
  constructor
  · intro n
    have hplaces := h.places n
    have hperm := ((List.filter_append_perm (fun i : HashTaskItem ↦ covers baseDir i.path) s.wl).map
      HashTaskItem.fileID).count_eq n
    simp only [waitingIDs, stopHashing, current, List.map_append,
      List.count_append] at hplaces hperm ⊢
    omega
  · exact h.nodup
  · exact h.le_max
  · intro n hn
    rcases List.mem_append.mp hn with hn | hn
    · exact List.mem_append_left _ (h.dropped hn)
    · apply List.mem_append_right
      rw [List.map_append]
      exact List.mem_append_right _ hn
  · intro hskip
    rcases Bool.or_eq_true_iff.mp hskip with hskip | hstops
    · obtain ⟨item, hphase, hstopped, hne⟩ := h.skipFile hskip
      exact ⟨item, hphase, List.mem_append_left _ hstopped, hne⟩
    · have hne := hcurrent hstops
      cases hphase : s.phase with
      | hashing item =>
        have hmem : item ∈ s.current := by
          rw [current_of_hashing hphase]
          exact List.mem_singleton_self item
        refine ⟨item, hphase, ?_, hlast hstops item hmem⟩
        apply List.mem_append_right
        rw [List.map_append]
        apply List.mem_append_left
        apply List.mem_map_of_mem
        rw [List.mem_filter]
        refine ⟨hmem, ?_⟩
        rw [stopsCurrent, Bool.and_eq_true, decide_eq_true_eq] at hstops
        rcases h.currentFile item hphase with hfile | hfile
        · rw [← hfile]
          exact hstops.2
        · exact absurd hfile hstops.1
      | top | waiting | ended =>
        rw [current, hphase] at hne
        exact absurd rfl hne
  · intro item hphase
    have hfile : (s.stopHashing baseDir).currentFile =
        if s.stopsCurrent baseDir then [] else s.currentFile := rfl
    rw [hfile]
    cases s.stopsCurrent baseDir with
    | true => exact .inr rfl
    | false => exact h.currentFile item hphase
  · rcases h.last with hzero | ⟨hmem, hkept⟩
    · exact .inl hzero
    · refine .inr ⟨hmem, ?_⟩
      intro hdropped
      rcases List.mem_append.mp hdropped with hdropped | hdropped
      · exact hkept hdropped
      · obtain ⟨item, hitem, heq⟩ := List.mem_map.mp hdropped
        obtain ⟨hitem, hcovers⟩ := List.mem_filter.mp hitem
        exact hwl item hitem hcovers heq
  · exact h.reported

/-- `skipFile` is set only while an item is being hashed. -/
theorem Inv.not_skipFile (h : s.Inv) (hphase : s.phase = .top) : s.skipFile ≠ true := by
  intro hskip
  obtain ⟨item, hhashing, -⟩ := h.skipFile hskip
  rw [hphase] at hhashing
  cases hhashing

theorem inv_takeItem (h : s.Inv) : s.takeItem.Inv := by
  unfold takeItem
  split
  · next hphase hwl =>
    refine ⟨?_, h.nodup, h.le_max, h.dropped, ?_, nofun, h.last, h.reported⟩
    · intro n
      have hplaces := h.places n
      rw [waitingIDs, current, hphase] at hplaces
      exact hplaces
    · exact fun hset => absurd hset (h.not_skipFile hphase)
  · next item wl hphase hwl =>
    refine ⟨?_, h.nodup, h.le_max, h.dropped, ?_, ?_, h.last, h.reported⟩
    · intro n
      have hplaces := h.places n
      rw [waitingIDs, current, hphase, hwl, List.append_nil, List.map_cons, List.count_cons]
        at hplaces
      rw [waitingIDs, current, List.map_append, List.count_append, List.map_singleton,
        List.count_singleton]
      omega
    · exact fun hset => absurd hset (h.not_skipFile hphase)
    · rintro item' hphase'
      cases hphase'
      exact .inl rfl
  · exact h

theorem inv_check (h : s.Inv) : s.check.Inv := by
  unfold check
  split
  · next item hphase =>
    split
    · next hskip =>
      obtain ⟨item', hphase', hstopped, hne⟩ := h.skipFile hskip
      rw [hphase] at hphase'
      cases hphase'
      refine ⟨?_, h.nodup, h.le_max, ?_, nofun, nofun, ?_, h.reported⟩
      · intro n
        have hplaces := h.places n
        rw [waitingIDs, current_of_hashing hphase, List.map_append, List.count_append,
          List.map_singleton] at hplaces
        simp only [waitingIDs, current, List.append_nil, List.count_append]
        omega
      · intro n hn
        rcases List.mem_append.mp hn with hn | hn
        · exact h.dropped hn
        · rw [List.mem_singleton.mp hn]
          exact hstopped
      · rcases h.last with hzero | ⟨hmem, hkept⟩
        · exact .inl hzero
        · refine .inr ⟨hmem, ?_⟩
          intro hdropped
          rcases List.mem_append.mp hdropped with hdropped | hdropped
          · exact hkept hdropped
          · exact hne (List.mem_singleton.mp hdropped).symm
    · exact h
  · exact h

/-- A report of an item that was not stopped. -/
theorem inv_report (h : s.Inv) (hskip : s.skipFile = false) : s.report.Inv := by
  unfold report
  split
  · next item hphase =>
    refine ⟨?_, h.nodup, h.le_max, h.dropped, ?_, nofun, h.last, ?_⟩
    · intro n
      have hplaces := h.places n
      rw [waitingIDs, current_of_hashing hphase, List.map_append, List.count_append,
        List.map_singleton] at hplaces
      simp only [waitingIDs, current, List.append_nil, List.count_append]
      omega
    · intro hset
      rw [hskip] at hset
      cases hset
    · intro n hn
      rcases List.mem_append.mp hn with hn | hn
      · exact (h.reported n hn).trans (Nat.le_max_left _ _)
      · rw [List.mem_singleton.mp hn]
        exact Nat.le_max_right _ _
  · exact h

theorem inv_wake (h : s.Inv) : (s.step .wake).Inv := by
  rw [step]
  split
  · next hphase =>
    refine ⟨?_, h.nodup, h.le_max, h.dropped, ?_, nofun, h.last, h.reported⟩
    · intro n
      have hplaces := h.places n
      rw [waitingIDs, current, hphase] at hplaces
      exact hplaces
    · intro hskip
      obtain ⟨item, hhashing, -⟩ := h.skipFile hskip
      rw [hphase] at hhashing
      cases hhashing
  · exact h

/-- An event in time keeps the invariant, unless the thread ends. -/
theorem inv_step {e : HasherEvent} (h : s.Inv) (hin : s.InTime e) :
    (s.step e).phase = .ended ∨ (s.step e).Inv := by
  cases e with
  | hashFile path => exact .inr (inv_hashFile h path)
  | stopHashing baseDir => exact .inr (inv_stopHashing h hin)
  | wake => exact .inr (inv_wake h)
  | take => exact .inr (inv_takeItem h)
  | check => exact .inr (inv_check h)
  | fileHashed | hashingError => exact .inr (inv_report h hin)
  | shutdown => exact .inl rfl

/-- A thread that has ended does nothing more. -/
theorem ended_step (h : s.phase = .ended) (e : HasherEvent) : (s.step e).phase = .ended := by
  cases e with
  | hashFile path => exact h
  | stopHashing baseDir => exact h
  | wake =>
    rw [step, if_neg]
    · exact h
    · rw [h]
      nofun
  | take =>
    rw [step, takeItem, h]
    exact h
  | check =>
    rw [step, check, h]
    exact h
  | fileHashed | hashingError =>
    rw [step, report, h]
    exact h
  | shutdown => rfl

/-- In a run whose events are all in time, every item is accounted for whenever the thread is idle,
and the numbers agree. -/
theorem idleAccounted_of_inTime (es : List HasherEvent) (h : Within InTime step new es) :
    ∀ pre, pre <+: es → (run step new pre).IdleAccounted := by
  rintro pre ⟨rest, rfl⟩
  rw [within_append] at h
  have hinv : (run step new pre).phase = .ended ∨ (run step new pre).Inv := by
    apply h.1.invariant (fun s => s.phase = .ended ∨ s.Inv)
    · rintro s e (hended | hinv) hin
      · exact .inl (ended_step hended e)
      · exact inv_step hinv hin
    · exact .inr inv_new
  rcases hinv with hended | hinv
  · intro hidle
    rw [hidle.1] at hended
    cases hended
  · exact hinv.idleAccounted

/-- The second of two files is stopped while it waits, and the last one is hashed. -/
def stopWaiting : List HasherEvent :=
  [.hashFile (Text.ascii "/a/x"), .hashFile (Text.ascii "/b/y"), .hashFile (Text.ascii "/c/z"),
    .take, .stopHashing (Text.ascii "/b/"), .check, .fileHashed, .take, .check, .fileHashed, .take]

/-- All three are accounted for when nothing is left. -/
theorem idleAccounted_stop_waiting : (run step new stopWaiting).IdleAccounted :=
  idleAccounted_of_inTime stopWaiting (by decide) stopWaiting List.prefix_rfl

/-- A file is stopped when it has just been hashed. -/
def stopTooLate : List HasherEvent :=
  [.hashFile (Text.ascii "/a/x"), .hashFile (Text.ascii "/b/y"), .take, .check, .fileHashed,
    .stopHashing (Text.ascii "/a/"), .take, .check, .take]

/-- The next one is skipped in its place. -/
theorem not_idleAccounted_stopTooLate :
    ¬ (run step new stopTooLate).IdleAccounted := by
  intro h
  obtain ⟨hall, -⟩ := h (by decide)
  have hitem := hall ⟨Text.ascii "/b/y", 2⟩ (by decide)
  revert hitem
  decide

end HasherState

end Blacklink.HashManager
