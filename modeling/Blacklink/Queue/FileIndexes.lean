import Blacklink.Queue.FileQueue

/-!
# The indexes of the file queue agree

`add` and `move` keep the two indexes in agreement. `remove` looks its item up by target and by TTH,
not by identity, so it keeps them exactly when `RemoveOk` holds (`consistent_remove_iff`), and a run
keeps them throughout exactly when each of its removals does (`consistent_run_iff`).
-/

namespace Blacklink.Queue.FileQueue

open Base

variable {toLower : List UInt8 → List UInt8}

/-! ### The indexes after an operation -/

theorem lookup_addL {s : FileQueue} {qi : QueueItemPtr} (h : s.findTarget toLower qi.target = none)
    (k : List UInt8) : (s.addL toLower qi).1.queue.lookup k =
      if k = toLower qi.target then some qi else s.queue.lookup k := by
  rw [findTarget] at h
  simp only [addL, h]
  split
  · next hk =>
    rw [hk]
    exact AList.lookup_insert _
  · next hk => exact AList.lookup_insert_ne hk

theorem indexed_addL {s : FileQueue} {qi : QueueItemPtr} (h : s.findTarget toLower qi.target = none)
    (tth : TTHValue) : (s.addL toLower qi).1.indexed tth =
      if qi.tthRoot = tth ∧ tth ≠ 0 then s.indexed tth ++ [qi] else s.indexed tth := by
  rw [findTarget] at h
  simp only [addL, h, indexed]
  by_cases hzero : qi.tthRoot = 0
  · rw [if_pos hzero, if_neg]
    rintro ⟨rfl, hne⟩
    exact hne hzero
  · rw [if_neg hzero]
    by_cases htth : qi.tthRoot = tth
    · subst htth
      rw [if_pos ⟨rfl, hzero⟩]
      cases s.queueTTH.lookup qi.tthRoot with
      | none => simp [AList.lookup_insert]
      | some l => simp [AList.lookup_insert]
    · rw [if_neg fun h => htth h.1]
      cases s.queueTTH.lookup qi.tthRoot with
      | none => simp [AList.lookup_insert_ne (Ne.symm htth)]
      | some l => simp [AList.lookup_insert_ne (Ne.symm htth)]

theorem addL_of_queued {s : FileQueue} {qi q : QueueItemPtr}
    (h : s.findTarget toLower qi.target = some q) : s.addL toLower qi = (s, false) := by
  rw [findTarget] at h
  simp only [addL, h]

private theorem queue_removeTTH (s : FileQueue) (qi : QueueItemPtr) :
    (s.removeTTH qi).queue = s.queue := by
  rw [removeTTH]
  split
  · rfl
  · split
    · rfl
    · split <;> rfl

private theorem queueTTH_removeKey (s : FileQueue) (qi : QueueItemPtr) :
    (s.removeKey toLower qi).queueTTH = s.queueTTH := by
  rw [removeKey]
  split <;> rfl

theorem lookup_remove (s : FileQueue) (qi : QueueItemPtr) (k : List UInt8) :
    (s.remove toLower qi).queue.lookup k =
      if k = toLower qi.target then none else s.queue.lookup k := by
  rw [remove, queue_removeTTH, removeKey]
  by_cases hk : k = toLower qi.target
  · rw [if_pos hk, hk]
    cases hlook : s.queue.lookup (toLower qi.target) with
    | none => exact hlook
    | some q => exact AList.lookup_erase _ s.queue
  · rw [if_neg hk]
    cases s.queue.lookup (toLower qi.target) with
    | none => rfl
    | some q => exact AList.lookup_erase_ne hk

theorem indexed_remove (s : FileQueue) (qi : QueueItemPtr) (tth : TTHValue) :
    (s.remove toLower qi).indexed tth =
      if qi.tthRoot = tth ∧ tth ≠ 0 then
        if 1 < (s.indexed tth).length then (s.indexed tth).erase qi else []
      else s.indexed tth := by
  rw [remove, removeTTH, queueTTH_removeKey]
  by_cases hzero : qi.tthRoot = 0
  · rw [if_pos hzero, if_neg, indexed, queueTTH_removeKey, indexed]
    rintro ⟨rfl, hne⟩
    exact hne hzero
  · rw [if_neg hzero]
    by_cases htth : qi.tthRoot = tth
    · subst htth
      rw [if_pos ⟨rfl, hzero⟩]
      cases hl : s.queueTTH.lookup qi.tthRoot with
      | none => simp [indexed, queueTTH_removeKey, hl]
      | some l =>
        by_cases hlen : 1 < l.length
        · simp [indexed, hl, hlen, AList.lookup_insert]
        · simp [indexed, hl, hlen, AList.lookup_erase]
    · rw [if_neg fun h => htth h.1]
      cases s.queueTTH.lookup qi.tthRoot with
      | none => simp [indexed, queueTTH_removeKey]
      | some l =>
        by_cases hlen : 1 < l.length
        · simp [indexed, hlen, AList.lookup_insert_ne (Ne.symm htth)]
        · simp [indexed, hlen, AList.lookup_erase_ne (Ne.symm htth)]

/-! ### Agreement after an operation -/

theorem consistent_empty : empty.Consistent toLower where
  keyed := by
    intro k q h
    cases h
  distinct := by
    intro k k' q q' h
    cases h
  listed := by
    intro k q h
    cases h
  known := by
    intro tth q h
    cases h

/-- Distinctness is a consequence of the keys. -/
private theorem distinct_of_keyed {s : FileQueue}
    (h : ∀ k q, s.queue.lookup k = some q → toLower q.target = k) (k k' : List UInt8)
    (q q' : QueueItemPtr) (hk : s.queue.lookup k = some q) (hk' : s.queue.lookup k' = some q')
    (heq : toLower q.target = toLower q'.target) : q = q' := by
  rw [h k q hk, h k' q' hk'] at heq
  rw [heq, hk'] at hk
  exact Option.some.inj hk.symm

theorem Consistent.inQueue {s : FileQueue} (h : s.Consistent toLower) {k : List UInt8}
    {q : QueueItemPtr} (hk : s.queue.lookup k = some q) : s.InQueue toLower q := by
  rw [InQueue, findTarget, h.keyed k q hk]
  exact hk

theorem Consistent.mem_indexed {s : FileQueue} (h : s.Consistent toLower) {k : List UInt8}
    {q : QueueItemPtr} (hk : s.queue.lookup k = some q) (htth : q.tthRoot ≠ 0) :
    q ∈ s.indexed q.tthRoot := by
  apply List.count_pos_iff.mp
  rw [h.listed k q hk htth]
  exact Nat.one_pos

theorem consistent_addL {s : FileQueue} (h : s.Consistent toLower) (qi : QueueItemPtr) :
    (s.addL toLower qi).1.Consistent toLower := by
  cases hfind : s.findTarget toLower qi.target with
  | some q =>
    rw [addL_of_queued hfind]
    exact h
  | none =>
    have hkeyed : ∀ k q, (s.addL toLower qi).1.queue.lookup k = some q → toLower q.target = k := by
      intro k q hk
      rw [lookup_addL hfind] at hk
      split at hk
      · next heq =>
        cases hk
        exact heq.symm
      · exact h.keyed k q hk
    -- an item already listed is in the map, so it is not the new one
    have hfresh : ∀ tth, qi ∉ s.indexed tth := by
      intro tth hmem
      have hin := (h.known tth qi hmem).2.2
      rw [InQueue, hfind] at hin
      cases hin
    refine ⟨hkeyed, distinct_of_keyed hkeyed, ?_, ?_⟩
    · intro k q hk htth
      rw [lookup_addL hfind] at hk
      rw [indexed_addL hfind]
      split at hk
      · cases hk
        rw [if_pos ⟨rfl, htth⟩, List.count_append, List.count_eq_zero_of_not_mem (hfresh _)]
        simp
      · have hne : q ≠ qi := by
          rintro rfl
          have hin := h.inQueue hk
          rw [InQueue, hfind] at hin
          cases hin
        have hcount := h.listed k q hk htth
        split
        · rw [List.count_append, hcount, List.count_singleton]
          simp [hne.symm]
        · exact hcount
    · intro tth q hmem
      rw [indexed_addL hfind] at hmem
      have hold : q ∈ s.indexed tth → q.tthRoot = tth ∧ tth ≠ 0 ∧
          (s.addL toLower qi).1.InQueue toLower q := by
        intro hmem
        obtain ⟨htth, hne, hin⟩ := h.known tth q hmem
        refine ⟨htth, hne, ?_⟩
        rw [InQueue, findTarget, lookup_addL hfind]
        rw [InQueue] at hin
        split
        · next heq =>
          rw [findTarget, heq] at hin
          rw [findTarget, hin] at hfind
          cases hfind
        · exact hin
      split at hmem
      · next hcond =>
        rcases List.mem_append.mp hmem with hmem | hmem
        · exact hold hmem
        · cases List.mem_singleton.mp hmem
          refine ⟨hcond.1, hcond.2, ?_⟩
          rw [InQueue, findTarget, lookup_addL hfind, if_pos rfl]
      · exact hold hmem

private theorem removeList_of_tth {s : FileQueue} {qi : QueueItemPtr} (h : qi.tthRoot ≠ 0) :
    s.removeList qi = s.indexed qi.tthRoot := if_neg h

private theorem eq_singleton_of_mem {l : List QueueItemPtr} {q : QueueItemPtr} (hmem : q ∈ l)
    (hlen : ¬ 1 < l.length) : l = [q] := by
  have hpos := List.length_pos_of_mem hmem
  have hone : l.length = 1 := by omega
  obtain ⟨x, rfl⟩ := List.length_eq_one_iff.mp hone
  rw [List.mem_singleton.mp hmem]

/-- The list that `remove` looks into is never the only entry of an item that stays. -/
private theorem removeList_ne_singleton {s : FileQueue} (h : s.Consistent toLower)
    {qi q : QueueItemPtr} (hok : s.RemoveOk toLower qi) {k : List UInt8}
    (hk : s.queue.lookup k = some q) (hne : k ≠ toLower qi.target) : s.removeList qi ≠ [q] := by
  intro hl
  rw [RemoveOk] at hok
  cases hfind : s.findTarget toLower qi.target with
  | none =>
    rw [hfind] at hok
    simp [hl] at hok
  | some q' =>
    rw [hfind, hl] at hok
    rw [findTarget] at hfind
    have hkey := h.keyed k q hk
    have hqi : qi.tthRoot ≠ 0 := by
      intro hzero
      simp [removeList, hzero] at hl
    rw [removeList_of_tth hqi] at hl
    rcases hok with rfl | heq | ⟨_, hlen⟩
    · have hmem := h.mem_indexed hfind hqi
      rw [hl, List.mem_singleton] at hmem
      rw [hmem, hkey] at hne
      exact hne rfl
    · cases heq
      exact hne (hkey.symm.trans (h.keyed _ _ hfind))
    · simp at hlen

private theorem consistent_remove {s : FileQueue} (h : s.Consistent toLower) {qi : QueueItemPtr}
    (hok : s.RemoveOk toLower qi) : (s.remove toLower qi).Consistent toLower := by
  have hkeyed : ∀ k q, (s.remove toLower qi).queue.lookup k = some q → toLower q.target = k := by
    intro k q hk
    rw [lookup_remove] at hk
    split at hk
    · cases hk
    · exact h.keyed k q hk
  refine ⟨hkeyed, distinct_of_keyed hkeyed, ?_, ?_⟩
  · intro k q hk htth
    rw [lookup_remove] at hk
    split at hk
    · cases hk
    · next hne =>
      have hcount := h.listed k q hk htth
      have hqne : q ≠ qi := by
        rintro rfl
        exact hne (h.keyed k q hk).symm
      rw [indexed_remove]
      split
      · next hcond =>
        split
        · rw [List.count_erase_of_ne hqne]
          exact hcount
        · next hlen =>
          exfalso
          apply removeList_ne_singleton h hok hk hne
          rw [removeList_of_tth (hcond.1 ▸ htth), hcond.1]
          exact eq_singleton_of_mem (h.mem_indexed hk htth) hlen
      · exact hcount
  · intro tth q hmem
    rw [indexed_remove] at hmem
    have hold : q ∈ s.indexed tth := by
      split at hmem
      · split at hmem
        · exact List.mem_of_mem_erase hmem
        · cases hmem
      · exact hmem
    obtain ⟨htth, hzero, hin⟩ := h.known tth q hold
    refine ⟨htth, hzero, ?_⟩
    rw [InQueue, findTarget, lookup_remove]
    rw [InQueue, findTarget] at hin
    split
    · next heq =>
      -- the map loses `q`, so the list does too
      exfalso
      rw [heq] at hin
      rw [RemoveOk, findTarget, hin] at hok
      rcases hok with rfl | hl | ⟨hz, _⟩
      · rw [if_pos ⟨htth, hzero⟩] at hmem
        split at hmem
        · have hcount := h.listed _ q hin (htth ▸ hzero)
          rw [htth] at hcount
          have hpos := List.count_pos_iff.mpr hmem
          rw [List.count_erase_self, hcount] at hpos
          omega
        · cases hmem
      · have hqi : qi.tthRoot ≠ 0 := by
          intro hz
          simp [removeList, hz] at hl
        rw [removeList_of_tth hqi] at hl
        have hqt := (h.known qi.tthRoot q (hl ▸ List.mem_singleton_self q)).1
        rw [htth] at hqt
        rw [if_pos ⟨hqt.symm, hzero⟩, hqt, hl] at hmem
        simp at hmem
      · exact hzero (htth ▸ hz)
    · exact hin

private theorem removeOk_of_consistent {s : FileQueue} (h : s.Consistent toLower)
    {qi : QueueItemPtr} (h' : (s.remove toLower qi).Consistent toLower) :
    s.RemoveOk toLower qi := by
  -- the only entry of a list that `remove` drops is not in the map afterwards
  have hlist : ∀ x, s.removeList qi = [x] → toLower x.target = toLower qi.target ∧
      s.findTarget toLower qi.target = some x := by
    intro x hl
    have hqi : qi.tthRoot ≠ 0 := by
      intro hz
      simp [removeList, hz] at hl
    rw [removeList_of_tth hqi] at hl
    obtain ⟨htth, hzero, hin⟩ := h.known qi.tthRoot x (hl ▸ List.mem_singleton_self x)
    rw [InQueue, findTarget] at hin
    by_cases heq : toLower x.target = toLower qi.target
    · rw [heq] at hin
      exact ⟨heq, hin⟩
    · exfalso
      have hlook : (s.remove toLower qi).queue.lookup (toLower x.target) = some x := by
        rw [lookup_remove, if_neg heq]
        exact hin
      have hcount := h'.listed _ x hlook (htth ▸ hzero)
      rw [indexed_remove, if_pos ⟨htth.symm, htth ▸ hzero⟩, htth, hl] at hcount
      simp at hcount
  rw [RemoveOk]
  cases hfind : s.findTarget toLower qi.target with
  | none =>
    simp only
    intro hlen
    obtain ⟨x, hx⟩ := List.length_eq_one_iff.mp hlen
    rw [(hlist x hx).2] at hfind
    cases hfind
  | some q =>
    simp only
    by_cases hq : q = qi
    · exact .inl hq
    · right
      by_cases hzero : q.tthRoot = 0
      · right
        refine ⟨hzero, ?_⟩
        intro hlen
        obtain ⟨x, hx⟩ := List.length_eq_one_iff.mp hlen
        obtain ⟨_, hfind'⟩ := hlist x hx
        rw [hfind] at hfind'
        cases hfind'
        rw [removeList] at hx
        split at hx
        · cases hx
        · next hqi =>
          have hknown := h.known qi.tthRoot q (hx ▸ List.mem_singleton_self q)
          exact hqi (hknown.1 ▸ hzero)
      · left
        rw [findTarget] at hfind
        have hmem := h.mem_indexed hfind hzero
        -- `q` has left the map, so it is no longer listed
        have hgone : q ∉ (s.remove toLower qi).indexed q.tthRoot := by
          intro hmem'
          have hin := (h'.known _ q hmem').2.2
          rw [InQueue, findTarget, lookup_remove, if_pos (h.keyed _ _ hfind)] at hin
          cases hin
        rw [indexed_remove] at hgone
        split at hgone
        · next hcond =>
          split at hgone
          · exact absurd ((List.mem_erase_of_ne hq).mpr hmem) hgone
          · next hlen =>
            rw [removeList_of_tth (hcond.1 ▸ hzero), hcond.1]
            exact eq_singleton_of_mem hmem hlen
        · exact absurd hmem hgone

/-- `remove` keeps the indexes in agreement exactly when it may be called with the item. -/
theorem consistent_remove_iff {s : FileQueue} (h : s.Consistent toLower) (qi : QueueItemPtr) :
    (s.remove toLower qi).Consistent toLower ↔ s.RemoveOk toLower qi :=
  ⟨removeOk_of_consistent h, consistent_remove h⟩

private theorem removeOk_of_inQueue {s : FileQueue} {qi : QueueItemPtr}
    (h : s.InQueue toLower qi) : s.RemoveOk toLower qi := by
  rw [RemoveOk, h]
  exact .inl rfl

/-- An item that was looked up is in the map under its own target. -/
private theorem removeOk_of_findTarget {s : FileQueue} (h : s.Consistent toLower)
    {target : List UInt8} {q : QueueItemPtr} (hfind : s.findTarget toLower target = some q) :
    s.RemoveOk toLower q := removeOk_of_inQueue (h.inQueue hfind)

theorem consistent_removeTarget {s : FileQueue} (h : s.Consistent toLower) (target : List UInt8) :
    (s.removeTarget toLower target).Consistent toLower := by
  rw [removeTarget]
  cases hfind : s.findTarget toLower target with
  | none => exact h
  | some q => exact consistent_remove h (removeOk_of_findTarget h hfind)

/-- Whether the item is added again or not, `moveTarget` leaves the indexes in agreement. -/
theorem consistent_moveTarget {s : FileQueue} (h : s.Consistent toLower) {source : List UInt8}
    {qs : QueueItemPtr} (hfind : s.findTarget toLower source = some qs) (target : List UInt8)
    (ptr : Nat) : (s.moveTarget toLower qs target ptr).Consistent toLower :=
  consistent_addL (consistent_remove h (removeOk_of_findTarget h hfind)) _

theorem consistent_move {s : FileQueue} (h : s.Consistent toLower) (source target : List UInt8)
    (ptr : Nat) (running : QueueItemPtr → Bool) (size : QueueItemPtr → Int) :
    (s.move toLower source target ptr running size).Consistent toLower := by
  rw [move]
  split
  · exact h
  · cases hfind : s.findTarget toLower source with
    | none => exact h
    | some qs =>
      simp only
      split
      · exact h
      · split
        · exact h
        · cases s.findTarget toLower target with
          | none => exact consistent_moveTarget h hfind target ptr
          | some qt =>
            simp only
            split
            · exact consistent_moveTarget h hfind target ptr
            · split
              · exact h
              · exact consistent_removeTarget h source

theorem consistent_step_iff {s : FileQueue} (h : s.Consistent toLower) (e : FileEvent) :
    (s.step toLower e).Consistent toLower ↔ s.StepOk toLower e := by
  cases e with
  | add qi => exact iff_of_true (consistent_addL h qi) True.intro
  | remove qi => exact consistent_remove_iff h qi
  | removeTarget target => exact iff_of_true (consistent_removeTarget h target) True.intro
  | move source target ptr running size =>
    exact iff_of_true (consistent_move h source target ptr running size) True.intro
  | clearAll => exact iff_of_true consistent_empty True.intro

/-! ### Agreement throughout a run -/

/-- The indexes agree in every state of a run exactly when each removal of the run is called with
an item it may be called with. -/
theorem consistent_run_iff (toLower : List UInt8 → List UInt8) (es : List FileEvent) :
    (∀ pre, pre <+: es → (run (step toLower) empty pre).Consistent toLower) ↔
      Within (StepOk toLower) (step toLower) empty es := by
  apply forall_prefix_iff_within (P := fun pre => (run (step toLower) empty pre).Consistent toLower)
  · exact consistent_empty
  · intro es e _ h
    rw [run_append]
    exact consistent_step_iff h e

/-- Two items with one TTH, of which the first is removed twice: the second stays in the map and
leaves the list. -/
theorem not_consistent_removed_twice :
    ¬ ∀ (toLower : List UInt8 → List UInt8) (es : List FileEvent),
      (run (step toLower) empty es).Consistent toLower := by
  intro h
  let a : QueueItemPtr := ⟨0, ['a'.toUInt8], 1, false⟩
  let b : QueueItemPtr := ⟨1, ['b'.toUInt8], 1, false⟩
  have hcons := h id [.add a, .add b, .remove a, .remove a]
  have hcount := hcons.listed ['b'.toUInt8] b (by decide) (by decide)
  exact absurd hcount (by decide)

end Blacklink.Queue.FileQueue
