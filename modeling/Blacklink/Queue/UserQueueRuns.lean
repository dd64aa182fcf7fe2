import Blacklink.Queue.SourceLists

/-!
# Runs of the queue

Every operation keeps the lists of the user queue in step with the sources, but for four: a
partial source is listed under the item's priority although another one, or none, is recorded; a
copied item and a cleared queue leave the user lists as they are; and a recheck may make an item
unfinished again whose later sources were never listed.
-/

namespace Blacklink.Queue.QueueManager

open Blacklink.Base

variable {U T R : Type} [DecidableEq U] [DecidableEq T] [DecidableEq R]
  {s : QueueManager U T R}

/-- A new item without sources. -/
private theorem newItem_kept (h : s.Kept) {t : T} (hnew : s.queue t = none) (size : Int)
    (tth : Option R) (userList userGetIp copying : Bool) (p : Priority) :
    (s.fileAdd (newItem t size tth userList userGetIp copying p)).Kept ∧
      (s.fileAdd (newItem t size tth userList userGetIp copying p)).InQueue s.next := by
  obtain ⟨hindex, hlisted, hin, hitem, hzero⟩ :=
    fileAdd_frame h (newItem t size tth userList userGetIp copying p) hnew
  refine ⟨⟨hindex, ?_⟩, hin⟩
  intro r
  by_cases hr : r = s.next
  · rw [hr]
    constructor
    · intro p u
      rw [hzero]
      omega
    · intro p u hpos
      rw [hzero] at hpos
      omega
    · intro _ _ p u href
      rw [hitem] at href
      simp [Refers, newItem] at href
    · intro _ _ hne
      rw [hitem] at hne
      simp [newItem] at hne
  · exact (hlisted r hr).2

omit [DecidableEq U] [DecidableEq T] [DecidableEq R] in
private theorem inQueue_of_queue (h : s.Kept) {t : T} {q : Nat} (hq : s.queue t = some q) :
    s.InQueue q := by
  rw [InQueue, h.indexed.target t q hq, hq]

theorem add_kept (h : s.Kept) (t : T) (size : Int) (tth : Option R)
    (userList userGetIp copying : Bool) (p : Priority) (user : Option U) (addBad : Nat) :
    (s.add t size tth userList userGetIp copying p user addBad).Kept := by
  rw [add]
  split
  · next hnew =>
    obtain ⟨hkept, hin⟩ := newItem_kept h hnew size tth userList userGetIp copying p
    cases user with
    | none => exact hkept
    | some u =>
      simp only
      split
      · exact hkept
      · exact addSourceL_kept hkept hin u addBad
  · next q hq =>
    split
    · exact h
    · split
      · exact h
      · split
        · exact h
        · split
          · exact h
          · cases user with
            | none => exact h
            | some u => exact addSourceL_kept h (inQueue_of_queue h hq) u addBad

omit [DecidableEq T] [DecidableEq R] in
/-- The source of a partial result is added under the recorded priority only if that is the
priority of the item. -/
theorem handlePartialResult_kept (h : s.Kept) (u : U) (tth : R) (wantConnection : Bool)
    (hok : ∀ q, (s.queueTTH tth).head? = some q →
      isNewPartialSource (s.items q) u wantConnection = true →
      (s.items q).prioQueue = some (s.items q).priority) :
    (s.handlePartialResult u tth wantConnection).Kept := by
  rw [handlePartialResult]
  split
  · exact h
  · next q hq =>
    split
    · next hnew =>
      have hin : s.InQueue q := (h.indexed.tth tth q (List.mem_of_mem_head? hq)).1
      have hu : u ∉ (s.items q).sources := by
        simp only [isNewPartialSource, Bool.and_eq_true, decide_eq_true_eq] at hnew
        exact hnew.1.1.2
      refine Touches.kept (Touches.trans ?_ (touches_addUserL _ q _ u)) h ?_
      · exact touches_modify s q fun _ => ⟨rfl, rfl⟩
      · exact listed_addSource (h.listed q) hin hu (.inl (hok q hq hnew)) rfl rfl rfl
          (hok q hq hnew)
    · exact h

theorem removeSource_kept (h : s.Kept) (t : T) (u : U) (reason : Nat) :
    (s.removeSource t u reason).Kept := by
  rw [removeSource]
  split
  · exact h
  · next q hq =>
    split
    · exact h
    · split
      · exact removeTarget_kept h t
      · exact removeUser_kept h q u reason

omit [DecidableEq U] [DecidableEq T] [DecidableEq R] in
/-- What an operation keeps, a sequence of its steps keeps. -/
private theorem foldl_kept {α : Type} {f : QueueManager U T R → α → QueueManager U T R}
    (hf : ∀ (s : QueueManager U T R) (a : α), s.Kept → (f s a).Kept) (h : s.Kept) (l : List α) :
    (l.foldl f s).Kept :=
  run_invariant Kept hf h l

theorem removeSourceUser_kept (h : s.Kept) (u : U) (reason : Nat) :
    (s.removeSourceUser u reason).Kept :=
  foldl_kept (fun _ t hs => removeTarget_kept hs t) (clearUser_kept h u reason) _

omit [DecidableEq T] [DecidableEq R] in
theorem setPriority_kept (h : s.Kept) (t : T) (p : Priority) : (s.setPriority t p).Kept := by
  rw [setPriority]
  split
  · exact h
  · next q hq =>
    split
    · exact h
    · split
      · exact h
      · exact setQIPriority_kept h (inQueue_of_queue h hq) p

omit [DecidableEq U] [DecidableEq T] [DecidableEq R] in
theorem addSegment_kept (h : s.Kept) (q bytes : Nat) (finished : Bool) :
    (s.addSegment q bytes finished).Kept := by
  rw [addSegment]
  refine modify_kept h q (fun _ => ⟨rfl, rfl⟩) (fun _ => ⟨rfl, rfl⟩) ?_
  simp only [Bool.or_eq_false_iff]
  exact And.left

omit [DecidableEq T] [DecidableEq R] in
/-- The tags of a `Download` keep the item in the queue. -/
private theorem loadTags_kept {q : Nat} (tags : List (LoadTag U)) (h : s.Kept)
    (hin : s.InQueue q) :
    (tags.foldl (loadTag q) s).Kept ∧ (tags.foldl (loadTag q) s).InQueue q := by
  induction tags generalizing s with
  | nil => exact ⟨h, hin⟩
  | cons tag tags ih =>
    cases tag with
    | segment bytes finished =>
      have htouch : Touches s (s.addSegment q bytes finished) q :=
        touches_modify s q fun _ => ⟨rfl, rfl⟩
      exact ih (addSegment_kept h q bytes finished) ((htouch.inQueue q).mpr hin)
    | source u =>
      exact ih (addSourceL_kept h hin u 0) (((addSourceL_touches s q u 0).inQueue q).mpr hin)

theorem load_kept (h : s.Kept) (t : T) (size : Int) (tth : R) (p : Priority)
    (tags : List (LoadTag U)) (auto : Priority) : (s.load t size tth p tags auto).Kept := by
  rw [load]
  split
  · next hnew =>
    obtain ⟨hkept, hin⟩ := newItem_kept h hnew size (some tth) false false false p
    obtain ⟨hkept, hin⟩ := loadTags_kept tags hkept hin
    exact modify_kept hkept s.next (fun _ => ⟨rfl, rfl⟩) (fun _ => ⟨rfl, rfl⟩) id
  · exact h

omit [DecidableEq T] [DecidableEq R] in
private theorem addSources_kept {q : Nat} (h : s.Kept) (hin : s.InQueue q) (us : List U) :
    (us.foldl (fun s u => s.addSourceL q u Source.flagMask) s).Kept ∧
      (us.foldl (fun s u => s.addSourceL q u Source.flagMask) s).InQueue q := by
  induction us generalizing s with
  | nil => exact ⟨h, hin⟩
  | cons u us ih =>
    exact ih (addSourceL_kept h hin u _) (((addSourceL_touches s q u _).inQueue q).mpr hin)

theorem moveTarget_kept (h : s.Kept) {qs : Nat} (hin : s.InQueue qs) {target : T}
    (hnew : s.queue target = none ∨ (s.items qs).target = target) :
    (s.moveTarget qs target).Kept := by
  have htouch := touches_removeQueueItemL s qs
  have hindex : (s.removeQueueItemL qs).Indexed := htouch.indexed h.indexed
  obtain ⟨hrem, hgone⟩ := fileRemove_kept hindex (fun r hr => htouch.listed hr (h.listed r))
    ((htouch.inQueue qs).mpr hin) (h.listed qs).removeQueueItemL
  have hfree : ((s.removeQueueItemL qs).fileRemove qs).queue target = none := by
    simp only [fileRemove]
    split
    · rfl
    · next hne =>
      rcases hnew with hnew | hnew
      · exact hnew
      · exact absurd hnew.symm hne
  obtain ⟨hindex', hlisted, hin', hitem, hzero⟩ :=
    fileAdd_frame hrem { s.items qs with target := target } hfree
  have hne : qs ≠ s.next := (h.indexed.fresh qs hin).ne
  -- the old item is out of the queue, so what becomes of it does not matter
  have hclear : ∀ s' : QueueManager U T R, Touches s' (s'.modify qs fun i =>
      { i with sources := ∅, badSources := ∅, finished := false }) qs :=
    fun s' => touches_modify s' qs fun _ => ⟨rfl, rfl⟩
  have hadd := touches_addL (((((s.removeQueueItemL qs).fileRemove qs).fileAdd
    { s.items qs with target := target }).modify qs fun i =>
      { i with sources := ∅, badSources := ∅, finished := false })) s.next (s.items qs).priority
  refine ⟨hadd.indexed ((hclear _).indexed hindex'), ?_⟩
  intro r
  by_cases hr : r = s.next
  · rw [hr]
    exact listed_addL (((hclear _).inQueue s.next).mpr hin') _ hzero
  · apply hadd.listed hr
    by_cases hrq : r = qs
    · rw [hrq]
      have hout := mt (hlisted qs hne).1.mp hgone
      refine listed_of_not_inQueue (mt ((hclear _).inQueue qs).mp hout) ?_
      intro p u
      by_contra hpos
      exact hout ((hlisted qs hne).2.refers p u (Nat.pos_of_ne_zero hpos)).1
    · exact (hclear _).listed hrq (hlisted r hr).2

theorem move_kept (h : s.Kept) (source target : T) (running : Bool) (order : List U) :
    (s.move source target running order).Kept := by
  rw [move]
  split
  · exact h
  · next qs hqs =>
    have hin := inQueue_of_queue h hqs
    split
    · exact h
    · split
      · exact h
      · split
        · next hnew => exact moveTarget_kept h hin (.inl hnew)
        · next qt hqt =>
          split
          · next heq => exact moveTarget_kept h hin (.inr (heq ▸ h.indexed.target source qs hqs))
          · split
            · exact h
            · apply removeTarget_kept
              exact (addSources_kept h (inQueue_of_queue h hqt) _).1

omit [DecidableEq T] [DecidableEq R] in
theorem recheck_kept (h : s.Kept) (t : T) (r : Recheck)
    (hok : ∀ q bytes finished, s.queue t = some q → r = .reset bytes finished →
      (s.items q).finished = true → finished = true) : (s.recheck t r).Kept := by
  rw [recheck]
  split
  · exact h
  · next q hq =>
    cases r with
    | reset bytes finished =>
      refine modify_kept h q (fun _ => ⟨rfl, rfl⟩) (fun _ => ⟨rfl, rfl⟩) ?_
      intro hf
      by_contra hfin
      have := hok q bytes finished hq rfl (by simpa using hfin)
      simp [this] at hf
    | alreadyFinished =>
      simp only
      split
      · next hfin =>
        have htouch := touches_removeQueueItemL s q
        have hzero := (h.listed q).removeQueueItemL
        apply htouch.kept h
        constructor
        · intro p u
          rw [hzero]
          omega
        · intro p u hpos
          rw [hzero] at hpos
          omega
        · intro _ hf
          exact absurd hfin (by simpa [removeQueueItemL] using hf)
        · intro _ hf
          exact absurd hfin (by simpa [removeQueueItemL] using hf)
      · exact h

/-! ### Runs -/

/-- What an operation needs: a partial source is added where the recorded priority is that of the
item; only an item without sources is replaced by a copy, and only a queue without sources is
cleared; a finished item does not become unfinished by a recheck. -/
def Ok (s : QueueManager U T R) : Event U T R → Prop
  | .handlePartialResult u tth wantConnection => ∀ q, (s.queueTTH tth).head? = some q →
      isNewPartialSource (s.items q) u wantConnection = true →
      (s.items q).prioQueue = some (s.items q).priority
  | .copyFile q => (s.items q).copying = true → (s.items q).removed = false →
      s.InQueue q ∧ (s.items q).sources = ∅
  | .removeAll => ∀ q, s.InQueue q → (s.items q).sources = ∅
  | .recheck t (.reset _ finished) => ∀ q, s.queue t = some q → (s.items q).finished = true →
      finished = true
  | _ => True

theorem copyFile_kept (h : s.Kept) {q : Nat} (hin : s.InQueue q)
    (hsources : (s.items q).sources = ∅) : (s.copyFile q).Kept := by
  rw [copyFile]
  split
  · exact h
  · refine (fileRemove_kept h.indexed (fun r _ => h.listed r) hin ?_).1
    intro p u
    by_contra hne
    have := ((h.listed q).refers p u (Nat.pos_of_ne_zero hne)).2.1
    simp [hsources] at this

omit [DecidableEq U] [DecidableEq T] [DecidableEq R] in
theorem removeAll_kept (h : s.Kept) (hsources : ∀ q, s.InQueue q → (s.items q).sources = ∅) :
    s.removeAll.Kept := by
  refine ⟨⟨by simp [removeAll], by simp [removeAll, InQueue], by simp [removeAll],
    by simp [removeAll]⟩, ?_⟩
  intro q
  refine listed_of_not_inQueue (by simp [removeAll, InQueue]) ?_
  intro p u
  by_contra hne
  obtain ⟨hin, hu, -⟩ := (h.listed q).refers p u (Nat.pos_of_ne_zero hne)
  simp [hsources q hin] at hu

/-- One operation. -/
theorem step_kept (h : s.Kept) (e : Event U T R) (hok : Ok s e) : (s.step e).Kept := by
  cases e with
  | add t size tth userList userGetIp copying p user addBad => exact add_kept h ..
  | addSource q u addBad =>
    rw [step]
    split
    · next hin => exact addSourceL_kept h hin u addBad
    · exact h
  | handlePartialResult u tth wantConnection => exact handlePartialResult_kept h u tth _ hok
  | removeSource t u reason => exact removeSource_kept h t u reason
  | removeSourceUser u reason => exact removeSourceUser_kept h u reason
  | dropSource p u q => exact dropSource_kept h p u q
  | setPriority t p => exact setPriority_kept h t p
  | load t size tth p tags auto => exact load_kept h ..
  | addSegment q bytes finished =>
    rw [step]
    split
    · exact addSegment_kept h q bytes finished
    · exact h
  | removeItem q =>
    rw [step]
    split
    · next hin => exact removeItem_kept h hin
    · exact h
  | removeListed p u q =>
    rw [step]
    split
    · next hmem =>
      exact removeItem_kept h ((h.listed q).refers p u (List.count_pos_iff.mpr hmem)).1
    · exact h
  | removeTarget t => exact removeTarget_kept h t
  | copyFile q =>
    rw [step]
    split
    · next hq =>
      cases hrem : (s.items q).removed with
      | true =>
        rw [copyFile, if_pos hrem]
        exact h
      | false =>
        obtain ⟨hin, hsources⟩ := hok hq.2 hrem
        exact copyFile_kept h hin hsources
    · exact h
  | removeAll => exact removeAll_kept h hok
  | move source target running order => exact move_kept h source target running order
  | recheck t r =>
    apply recheck_kept h t r
    intro q bytes finished hq hr
    subst hr
    exact hok q hq

omit [DecidableEq U] [DecidableEq T] [DecidableEq R] in
theorem empty_kept (items : Nat → QueuedItem U T R) : (empty items).Kept := by
  refine ⟨⟨by simp [empty], by simp [empty, InQueue], by simp [empty], by simp [empty]⟩, ?_⟩
  intro q
  exact listed_of_not_inQueue (by simp [empty, InQueue]) (by simp [empty, occurs])

/-- In every run whose operations meet the condition, the user lists match the sources in every
state reached. -/
theorem listsMatch_of_within (items : Nat → QueuedItem U T R) (es : List (Event U T R))
    (hok : Within Ok step (empty items) es) :
    ∀ pre, pre <+: es → (run step (empty items) pre).ListsMatch := by
  rintro pre ⟨post, rfl⟩
  have hpre := ((within_append Ok step (empty items) pre post).mp hok).1
  exact (hpre.invariant Kept (fun _ e hs he => step_kept hs e he) (empty_kept items)).listsMatch

/-- An item with a source, whose recorded priority a partial source then shares. -/
theorem listsMatch_partial_source :
    (run step (empty fun _ => newItem 0 1 none false false false .normal)
      [.add 0 pfsMinFileSize (some 5) false false false .normal (some 1) 0,
        .handlePartialResult 2 5 true] : QueueManager Nat Nat Nat).ListsMatch :=
  listsMatch_of_within _ [.add 0 pfsMinFileSize (some 5) false false false .normal (some 1) 0,
    .handlePartialResult 2 5 true] ⟨trivial, fun q hq _ => by cases hq; rfl, trivial⟩ _
    List.prefix_rfl

/-- An item without sources gets one by a partial result and is removed: the list of the user
still has it. -/
theorem not_listsMatch_partial_result :
    ¬(run step (empty fun _ => newItem 0 1 none false false false .normal)
      [.add 0 pfsMinFileSize (some 5) false false false .normal none 0,
        .handlePartialResult 2 5 true, .removeTarget 0] : QueueManager Nat Nat Nat).ListsMatch := by
  intro h
  have hgone := (h 0 .normal 2).2 (by decide)
  exact absurd hgone (by decide)

end Blacklink.Queue.QueueManager
