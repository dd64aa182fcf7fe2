import Mathlib.Data.List.Count
import Blacklink.Queue.UserQueue

/-!
# The user lists and the sources

An unfinished item stands once in the list of each of its sources, under the priority recorded in
`prioQueue`, and nowhere else. `Listed` is what an operation keeps for a single item; most
operations touch one item only, and `Kept.of_item` says that the others then stay as they are.
-/

namespace Blacklink.Queue.QueueManager

open Blacklink.Base

variable {U T R : Type}

/-- The user is a source and the priority is the recorded one. -/
def Refers (i : QueuedItem U T R) (p : Priority) (u : U) : Prop :=
  u ∈ i.sources ∧ i.prioQueue = some p

instance [DecidableEq U] (i : QueuedItem U T R) (p : Priority) (u : U) :
    Decidable (Refers i p u) := inferInstanceAs (Decidable (_ ∧ _))

/-- How often the item stands in the user's list. -/
def occurs (s : QueueManager U T R) (q : Nat) (p : Priority) (u : U) : Nat :=
  (s.userQueueMap p u).count q

/-- Every unfinished item of the queue stands in the lists its sources and its recorded priority
say, once, and in no other; what is not in the queue stands in none. -/
def ListsMatch [DecidableEq U] (s : QueueManager U T R) : Prop :=
  ∀ q p u, (s.InQueue q → (s.items q).finished = false →
      s.occurs q p u = if Refers (s.items q) p u then 1 else 0) ∧
    (¬s.InQueue q → s.occurs q p u = 0)

/-- What holds of one item: it is listed at most where it should be, and everywhere there while it
is unfinished. -/
structure Listed (s : QueueManager U T R) (q : Nat) : Prop where
  once : ∀ p u, s.occurs q p u ≤ 1
  refers : ∀ p u, 0 < s.occurs q p u → s.InQueue q ∧ Refers (s.items q) p u
  all : s.InQueue q → (s.items q).finished = false → ∀ p u, Refers (s.items q) p u →
    0 < s.occurs q p u
  prio : s.InQueue q → (s.items q).finished = false → (s.items q).sources.Nonempty →
    (s.items q).prioQueue ≠ none

/-- The two indices of the queue agree with the items. -/
structure Indexed (s : QueueManager U T R) : Prop where
  target : ∀ t q, s.queue t = some q → (s.items q).target = t
  fresh : ∀ q, s.InQueue q → q < s.next
  nodup : ∀ r, (s.queueTTH r).Nodup
  tth : ∀ r, ∀ q ∈ s.queueTTH r, s.InQueue q ∧ (s.items q).tth = some r

/-- The invariant. -/
structure Kept (s : QueueManager U T R) : Prop where
  indexed : s.Indexed
  listed : ∀ q, s.Listed q

theorem Kept.listsMatch [DecidableEq U] {s : QueueManager U T R} (h : s.Kept) : s.ListsMatch := by
  intro q p u
  have honce := (h.listed q).once p u
  have hrefers := (h.listed q).refers p u
  constructor
  · intro hin hfin
    split
    · next href =>
      have := (h.listed q).all hin hfin p u href
      omega
    · next href =>
      by_contra hne
      exact href (hrefers (Nat.pos_of_ne_zero hne)).2
  · intro hin
    by_contra hne
    exact hin (hrefers (Nat.pos_of_ne_zero hne)).1

/-! ### Operations on one item -/

/-- The same item, in the same lists. -/
theorem Listed.congr {s s' : QueueManager U T R} {q : Nat} (h : s.Listed q)
    (hin : s'.InQueue q ↔ s.InQueue q) (hitem : s'.items q = s.items q)
    (hoccurs : ∀ p u, s'.occurs q p u = s.occurs q p u) : s'.Listed q := by
  constructor
  · intro p u
    rw [hoccurs]
    exact h.once p u
  · intro p u hpos
    rw [hoccurs] at hpos
    rw [hin, hitem]
    exact h.refers p u hpos
  · intro hq hfin p u href
    rw [hitem] at hfin href
    rw [hoccurs]
    exact h.all (hin.mp hq) hfin p u href
  · intro hq hfin
    rw [hitem] at hfin ⊢
    exact h.prio (hin.mp hq) hfin

/-- The operation left the queue alone and changed only the item `q`, and not what the queue knows
it by. -/
structure Touches (s s' : QueueManager U T R) (q : Nat) : Prop where
  next : s'.next = s.next
  queue : s'.queue = s.queue
  queueTTH : s'.queueTTH = s.queueTTH
  target : ∀ r, (s'.items r).target = (s.items r).target
  tth : ∀ r, (s'.items r).tth = (s.items r).tth
  items : ∀ r, r ≠ q → s'.items r = s.items r
  occurs : ∀ r, r ≠ q → ∀ p u, s'.occurs r p u = s.occurs r p u

namespace Touches

variable {s s' s'' : QueueManager U T R} {q : Nat}

theorem refl (s : QueueManager U T R) (q : Nat) : Touches s s q :=
  ⟨rfl, rfl, rfl, fun _ => rfl, fun _ => rfl, fun _ _ => rfl, fun _ _ _ _ => rfl⟩

theorem trans (h : Touches s s' q) (h' : Touches s' s'' q) : Touches s s'' q where
  next := h'.next.trans h.next
  queue := h'.queue.trans h.queue
  queueTTH := h'.queueTTH.trans h.queueTTH
  target r := (h'.target r).trans (h.target r)
  tth r := (h'.tth r).trans (h.tth r)
  items r hr := (h'.items r hr).trans (h.items r hr)
  occurs r hr p u := (h'.occurs r hr p u).trans (h.occurs r hr p u)

theorem inQueue (h : Touches s s' q) (r : Nat) : s'.InQueue r ↔ s.InQueue r := by
  rw [InQueue, InQueue, h.queue, h.target]

theorem indexed (h : Touches s s' q) (hs : s.Indexed) : s'.Indexed := by
  constructor
  · intro t r hr
    rw [h.queue] at hr
    rw [h.target]
    exact hs.target t r hr
  · intro r hr
    rw [h.next]
    exact hs.fresh r ((h.inQueue r).mp hr)
  · intro r
    rw [h.queueTTH]
    exact hs.nodup r
  · intro r t ht
    rw [h.queueTTH] at ht
    rw [h.inQueue, h.tth]
    exact hs.tth r t ht

theorem listed (h : Touches s s' q) {r : Nat} (hr : r ≠ q) (hl : s.Listed r) : s'.Listed r :=
  hl.congr (h.inQueue r) (h.items r hr) (h.occurs r hr)

/-- Only the item itself is left to look at. -/
theorem kept (h : Touches s s' q) (hs : s.Kept) (hq : s'.Listed q) : s'.Kept := by
  refine ⟨h.indexed hs.indexed, ?_⟩
  intro r
  by_cases hr : r = q
  · exact hr ▸ hq
  · exact h.listed hr (hs.listed r)

end Touches

private theorem count_push (s : QueueManager U T R) (q r : Nat) (uq : List Nat) :
    (s.push q uq).count r = uq.count r + if r = q then 1 else 0 := by
  rw [push]
  split
  · simp only [List.count_cons, beq_iff_eq, eq_comm (a := r)]
  · simp only [List.count_append, List.count_singleton, beq_iff_eq, eq_comm (a := r)]

theorem touches_modify (s : QueueManager U T R) (q : Nat)
    {f : QueuedItem U T R → QueuedItem U T R}
    (hf : ∀ i, (f i).target = i.target ∧ (f i).tth = i.tth) : Touches s (s.modify q f) q where
  next := rfl
  queue := rfl
  queueTTH := rfl
  target r := by
    simp only [modify]
    split
    · exact (hf _).1
    · rfl
  tth r := by
    simp only [modify]
    split
    · exact (hf _).2
    · rfl
  items r hr := if_neg hr
  occurs _ _ _ _ := rfl

@[simp] theorem modify_item (s : QueueManager U T R) (q : Nat)
    (f : QueuedItem U T R → QueuedItem U T R) : (s.modify q f).items q = f (s.items q) :=
  if_pos rfl

variable [DecidableEq U]

theorem occurs_addUserL (s : QueueManager U T R) (q r : Nat) (p p' : Priority) (u v : U) :
    (s.addUserL q p u).occurs r p' v =
      s.occurs r p' v + if r = q ∧ p' = p ∧ v = u then 1 else 0 := by
  simp only [occurs, addUserL]
  split
  · next h => simp [count_push, h]
  · next h => simp [h]

theorem touches_addUserL (s : QueueManager U T R) (q : Nat) (p : Priority) (u : U) :
    Touches s (s.addUserL q p u) q :=
  ⟨rfl, rfl, rfl, fun _ => rfl, fun _ => rfl, fun _ _ => rfl, by
    intro r hr p' v
    rw [occurs_addUserL]
    simp [hr]⟩

/-- A new source of an unfinished item is listed under `prioQueue`, which is set if it was not. -/
theorem listed_addSource {s : QueueManager U T R} {q : Nat} {u : U} (h : s.Listed q)
    (hin : s.InQueue q) (hu : u ∉ (s.items q).sources) {p : Priority}
    {f : QueuedItem U T R → QueuedItem U T R}
    (hp : (s.items q).prioQueue = some p ∨ (s.items q).sources = ∅)
    (htarget : (f (s.items q)).target = (s.items q).target)
    (hfin : (f (s.items q)).finished = (s.items q).finished)
    (hsources : (f (s.items q)).sources = insert u (s.items q).sources)
    (hprio : (f (s.items q)).prioQueue = some p) : ((s.modify q f).addUserL q p u).Listed q := by
  have hitem : ((s.modify q f).addUserL q p u).items q = f (s.items q) :=
    modify_item s q f
  have hin' : ((s.modify q f).addUserL q p u).InQueue q := by
    rw [InQueue, hitem, htarget]
    exact hin
  have hrefers : ∀ p' v, Refers (f (s.items q)) p' v ↔
      (v = u ∨ v ∈ (s.items q).sources) ∧ p' = p := by
    intro p' v
    rw [Refers, hsources, hprio, Finset.mem_insert, Option.some_inj, eq_comm (a := p)]
  have hold : ∀ p' v, 0 < s.occurs q p' v → v ∈ (s.items q).sources ∧ p' = p := by
    intro p' v hpos
    obtain ⟨-, hv, hp'⟩ := h.refers p' v hpos
    rcases hp with hp | hp
    · exact ⟨hv, by simpa [hp] using hp'.symm⟩
    · simp [hp] at hv
  have hoccurs : ∀ p' v, ((s.modify q f).addUserL q p u).occurs q p' v =
      s.occurs q p' v + if p' = p ∧ v = u then 1 else 0 := by
    intro p' v
    rw [occurs_addUserL]
    simp only [true_and]
    rfl
  constructor
  · intro p' v
    rw [hoccurs]
    split
    · next hv =>
      -- the user was no source, so nothing was listed
      have hzero : ¬0 < s.occurs q p' v := fun hpos => hu (hv.2 ▸ (hold p' v hpos).1)
      omega
    · exact h.once p' v
  · intro p' v hpos
    rw [hoccurs] at hpos
    rw [hitem, hrefers]
    refine ⟨hin', ?_⟩
    split at hpos
    · next hv => exact ⟨.inl hv.2, hv.1⟩
    · exact ⟨.inr (hold p' v hpos).1, (hold p' v hpos).2⟩
  · intro _ hf p' v href
    rw [hitem] at hf href
    rw [hoccurs]
    obtain ⟨hv | hv, rfl⟩ := (hrefers p' v).mp href
    · simp [hv]
    · rcases hp with hp | hp
      · exact Nat.add_pos_left (h.all hin (hfin ▸ hf) p' v ⟨hv, hp⟩) _
      · simp [hp] at hv
  · intro _ _ _
    rw [hitem, hprio]
    simp

theorem addSourceL_touches (s : QueueManager U T R) (q : Nat) (u : U) (addBad : Nat) :
    Touches s (s.addSourceL q u addBad) q := by
  rw [addSourceL]
  split
  · exact .refl s q
  · split
    · exact .refl s q
    · split
      · exact touches_modify s q fun _ => ⟨rfl, rfl⟩
      · refine Touches.trans ?_ (touches_addUserL _ q _ u)
        exact touches_modify s q fun _ => ⟨rfl, rfl⟩

/-- Adding a source to a finished item lists nothing. -/
private theorem listed_addSource_finished {s : QueueManager U T R} {q : Nat} (u : U)
    (h : s.Listed q) (hfin : (s.items q).finished = true) :
    (s.modify q fun i => i.addSource u).Listed q := by
  have htouch : Touches s (s.modify q fun i => i.addSource u) q :=
    touches_modify s q fun _ => ⟨rfl, rfl⟩
  constructor
  · exact h.once
  · intro p v hpos
    obtain ⟨hin, hv, hp⟩ := h.refers p v hpos
    rw [htouch.inQueue, modify_item]
    exact ⟨hin, Finset.mem_insert_of_mem hv, hp⟩
  · intro _ hf
    rw [modify_item] at hf
    exact absurd hf (by simp [QueuedItem.addSource, hfin])
  · intro _ hf
    rw [modify_item] at hf
    exact absurd hf (by simp [QueuedItem.addSource, hfin])

theorem addSourceL_kept {s : QueueManager U T R} (h : s.Kept) {q : Nat} (hin : s.InQueue q) (u : U)
    (addBad : Nat) : (s.addSourceL q u addBad).Kept := by
  refine (addSourceL_touches s q u addBad).kept h ?_
  have hq := h.listed q
  rw [addSourceL]
  split
  · exact hq
  · next hu =>
    split
    · exact hq
    · split
      · next hfin => exact listed_addSource_finished u hq hfin
      · next hfin =>
        refine listed_addSource hq hin hu ?_ rfl rfl rfl rfl
        cases hprio : (s.items q).prioQueue with
        | some p => exact .inl rfl
        | none =>
          refine .inr (Finset.not_nonempty_iff_eq_empty.mp ?_)
          intro hne
          exact hq.prio hin (by simpa using hfin) hne hprio

/-! ### Taking an item out of the lists -/

theorem occurs_removeQueueItemL (s : QueueManager U T R) (q r : Nat) (p : Priority) (u : U) :
    (s.removeQueueItemL q).occurs r p u =
      s.occurs r p u - if r = q ∧ Refers (s.items q) p u then 1 else 0 := by
  simp only [occurs, removeQueueItemL, Refers, and_comm (a := u ∈ _)]
  split
  · next h => simp [List.count_erase, h, eq_comm (a := r)]
  · next h => simp [h]

theorem touches_removeQueueItemL (s : QueueManager U T R) (q : Nat) :
    Touches s (s.removeQueueItemL q) q :=
  ⟨rfl, rfl, rfl, fun _ => rfl, fun _ => rfl, fun _ _ => rfl, by
    intro r hr p u
    rw [occurs_removeQueueItemL]
    simp [hr]⟩

theorem Listed.removeQueueItemL {s : QueueManager U T R} {q : Nat} (h : s.Listed q) (p : Priority)
    (u : U) : (s.removeQueueItemL q).occurs q p u = 0 := by
  rw [occurs_removeQueueItemL]
  have honce := h.once p u
  have hrefers := h.refers p u
  by_cases hpos : 0 < s.occurs q p u
  · simp only [(hrefers hpos).2, and_self, if_true]
    omega
  · omega

theorem occurs_addL (s : QueueManager U T R) (q r : Nat) (p p' : Priority) (u : U) :
    (s.addL q p).occurs r p' u =
      s.occurs r p' u + if r = q ∧ p' = p ∧ u ∈ (s.items q).sources then 1 else 0 := by
  simp only [occurs, addL, modify]
  split
  · next h => simp [count_push, h]
  · next h => simp [h]

theorem touches_addL (s : QueueManager U T R) (q : Nat) (p : Priority) :
    Touches s (s.addL q p) q := by
  refine @Touches.trans _ _ _ s { s with userQueueMap := _ } _ q ?_
    (touches_modify _ q fun _ => ⟨rfl, rfl⟩)
  refine ⟨rfl, rfl, rfl, fun _ => rfl, fun _ => rfl, fun _ _ => rfl, ?_⟩
  intro r hr p' u
  refine (occurs_addL s q r p p' u).trans ?_
  simp [hr]

/-- An item in no list is listed for all of its sources. -/
theorem listed_addL {s : QueueManager U T R} {q : Nat} (hin : s.InQueue q) (p : Priority)
    (hzero : ∀ p' u, s.occurs q p' u = 0) : (s.addL q p).Listed q := by
  have hitem : (s.addL q p).items q = { s.items q with prioQueue := some p } := modify_item _ q _
  have hin' := ((touches_addL s q p).inQueue q).mpr hin
  have hoccurs : ∀ p' u, (s.addL q p).occurs q p' u =
      if p' = p ∧ u ∈ (s.items q).sources then 1 else 0 := by
    intro p' u
    rw [occurs_addL, hzero]
    simp
  constructor
  · intro p' u
    rw [hoccurs]
    split <;> omega
  · intro p' u hpos
    rw [hoccurs] at hpos
    rw [hitem]
    split at hpos
    · next h => exact ⟨hin', h.2, by rw [h.1]⟩
    · omega
  · intro _ _ p' u href
    rw [hitem] at href
    rw [hoccurs, if_pos ⟨Option.some_inj.mp href.2.symm, href.1⟩]
    omega
  · intro _ _ _
    rw [hitem]
    simp

theorem setQIPriority_kept {s : QueueManager U T R} (h : s.Kept) {q : Nat} (hin : s.InQueue q)
    (p : Priority) : (s.setQIPriority q p).Kept := by
  have htouch : Touches s ((s.removeQueueItemL q).modify q fun i => { i with priority := p }) q :=
    (touches_removeQueueItemL s q).trans (touches_modify _ q fun _ => ⟨rfl, rfl⟩)
  refine (htouch.trans (touches_addL _ q p)).kept h ?_
  exact listed_addL ((htouch.inQueue q).mpr hin) p (h.listed q).removeQueueItemL

omit [DecidableEq U] in
/-- A change that the lists do not depend on; an item may become finished. -/
theorem modify_kept {s : QueueManager U T R} (h : s.Kept) (q : Nat)
    {f : QueuedItem U T R → QueuedItem U T R}
    (hf : ∀ i, (f i).target = i.target ∧ (f i).tth = i.tth)
    (hrefers : ∀ i, (f i).sources = i.sources ∧ (f i).prioQueue = i.prioQueue)
    (hfin : (f (s.items q)).finished = false → (s.items q).finished = false) :
    (s.modify q f).Kept := by
  have htouch := touches_modify s q hf
  have hin := htouch.inQueue q
  obtain ⟨hsources, hprio⟩ := hrefers (s.items q)
  have hq := h.listed q
  apply htouch.kept h
  constructor
  · exact hq.once
  · intro p u hpos
    rw [hin, modify_item, Refers, hsources, hprio]
    exact hq.refers p u hpos
  · intro hq' hf' p u href
    rw [modify_item] at hf' href
    rw [Refers, hsources, hprio] at href
    exact hq.all (hin.mp hq') (hfin hf') p u href
  · intro hq' hf' hne
    rw [modify_item] at hf' hne ⊢
    rw [hsources] at hne
    rw [hprio]
    exact hq.prio (hin.mp hq') (hfin hf') hne

omit [DecidableEq U] in
/-- An item outside of the queue must be in no list. -/
theorem listed_of_not_inQueue {s : QueueManager U T R} {q : Nat} (hin : ¬s.InQueue q)
    (hzero : ∀ p u, s.occurs q p u = 0) : s.Listed q := by
  refine ⟨?_, ?_, fun h => absurd h hin, fun h => absurd h hin⟩
  · intro p u
    rw [hzero]
    omega
  · intro p u hpos
    rw [hzero] at hpos
    omega

/-! ### Losing a source -/

/-- A user taken out of the sources and out of the lists. -/
private theorem listed_removeSource {s s' : QueueManager U T R} {q : Nat} {u : U} {reason : Nat}
    (h : s.Listed q) (hin : s'.InQueue q ↔ s.InQueue q)
    (hitem : s'.items q = (s.items q).removeSource u reason)
    (hgone : ∀ p, s'.occurs q p u = 0)
    (hstay : ∀ p v, v ≠ u → s'.occurs q p v = s.occurs q p v) : s'.Listed q := by
  have hrefers : ∀ p v, v ≠ u → Refers (s.items q) p v →
      Refers ((s.items q).removeSource u reason) p v := by
    intro p v hv href
    rw [QueuedItem.removeSource]
    split
    · have hmem : v ∈ (s.items q).sources.erase u := Finset.mem_erase.mpr ⟨hv, href.1⟩
      refine ⟨hmem, ?_⟩
      simp only
      rw [if_neg (Finset.ne_empty_of_mem hmem)]
      exact href.2
    · exact href
  have hback : ∀ p v, Refers ((s.items q).removeSource u reason) p v →
      Refers (s.items q) p v ∧ v ≠ u := by
    intro p v href
    rw [QueuedItem.removeSource] at href
    split at href
    · obtain ⟨hmem, hp⟩ := href
      simp only at hmem hp
      rw [if_neg (Finset.ne_empty_of_mem hmem)] at hp
      exact ⟨⟨(Finset.mem_erase.mp hmem).2, hp⟩, (Finset.mem_erase.mp hmem).1⟩
    · next hu =>
      refine ⟨href, ?_⟩
      rintro rfl
      exact hu href.1
  have hfin : ((s.items q).removeSource u reason).finished = (s.items q).finished := by
    rw [QueuedItem.removeSource]
    split <;> rfl
  constructor
  · intro p v
    by_cases hv : v = u
    · rw [hv, hgone]
      omega
    · rw [hstay p v hv]
      exact h.once p v
  · intro p v hpos
    by_cases hv : v = u
    · rw [hv, hgone] at hpos
      omega
    · rw [hstay p v hv] at hpos
      rw [hin, hitem]
      exact ⟨(h.refers p v hpos).1, hrefers p v hv (h.refers p v hpos).2⟩
  · intro hq hf p v href
    rw [hitem] at hf href
    rw [hfin] at hf
    obtain ⟨href, hv⟩ := hback p v href
    rw [hstay p v hv]
    exact h.all (hin.mp hq) hf p v href
  · intro hq hf hne
    rw [hitem] at hf hne ⊢
    rw [hfin] at hf
    rw [QueuedItem.removeSource] at hne ⊢
    split at hne
    · next hu =>
      rw [if_pos hu]
      simp only at hne ⊢
      rw [if_neg hne.ne_empty]
      exact h.prio (hin.mp hq) hf ⟨u, hu⟩
    · next hu =>
      rw [if_neg hu]
      exact h.prio (hin.mp hq) hf hne

theorem occurs_removeUserL (s : QueueManager U T R) (q r : Nat) (p : Priority) (u v : U) :
    (s.removeUserL q u).occurs r p v =
      s.occurs r p v - if r = q ∧ (s.items q).prioQueue = some p ∧ v = u then 1 else 0 := by
  simp only [occurs, removeUserL]
  split
  · next h => simp [List.count_erase, h, eq_comm (a := r)]
  · next h => simp [h]

theorem touches_removeUserL (s : QueueManager U T R) (q : Nat) (u : U) :
    Touches s (s.removeUserL q u) q :=
  ⟨rfl, rfl, rfl, fun _ => rfl, fun _ => rfl, fun _ _ => rfl, by
    intro r hr p v
    rw [occurs_removeUserL]
    simp [hr]⟩

private theorem removeSource_frame (u : U) (reason : Nat)
    (i : QueuedItem U T R) :
    (i.removeSource u reason).target = i.target ∧ (i.removeSource u reason).tth = i.tth := by
  rw [QueuedItem.removeSource]
  split <;> exact ⟨rfl, rfl⟩

/-- `removeUserL` followed by `removeSourceL`. -/
theorem removeUser_kept {s : QueueManager U T R} (h : s.Kept) (q : Nat) (u : U)
    (reason : Nat) : ((s.removeUserL q u).modify q fun i => i.removeSource u reason).Kept := by
  have htouch : Touches s ((s.removeUserL q u).modify q fun i => i.removeSource u reason) q :=
    (touches_removeUserL s q u).trans (touches_modify _ q (removeSource_frame u reason))
  refine htouch.kept h ?_
  have hq := h.listed q
  refine listed_removeSource hq (htouch.inQueue q) (modify_item _ q _) ?_ ?_
  · intro p
    refine (occurs_removeUserL s q q p u u).trans ?_
    have honce := hq.once p u
    by_cases hpos : 0 < s.occurs q p u
    · simp only [(hq.refers p u hpos).2.2, and_self, if_true]
      omega
    · omega
  · intro p v hv
    refine (occurs_removeUserL s q q p u v).trans ?_
    simp [hv]

theorem dropSource_kept {s : QueueManager U T R} (h : s.Kept) (p : Priority) (u : U) (q : Nat) :
    (s.dropSource p u q).Kept := by
  rw [dropSource]
  split
  · next hmem =>
    -- the list it stands in is that of its recorded priority
    have hprio : (s.items q).prioQueue = some p :=
      ((h.listed q).refers p u (List.count_pos_iff.mpr hmem.1)).2.2
    have heq : { s with userQueueMap := fun p' v => if p' = p ∧ v = u then
        (s.userQueueMap p' v).erase q else s.userQueueMap p' v } = s.removeUserL q u := by
      rw [removeUserL]
      congr 1
      funext p' v
      simp only [hprio, Option.some_inj, eq_comm (a := p)]
    rw [heq]
    exact removeUser_kept h q u _
  · exact h

theorem clearUser_kept {s : QueueManager U T R} (h : s.Kept) (u : U) (reason : Nat) :
    (s.clearUser u reason).Kept := by
  have htarget : ∀ r, ((s.clearUser u reason).items r).target = (s.items r).target ∧
      ((s.clearUser u reason).items r).tth = (s.items r).tth := by
    intro r
    simp only [clearUser]
    split
    · exact removeSource_frame u reason _
    · exact ⟨rfl, rfl⟩
  have hin : ∀ r, (s.clearUser u reason).InQueue r ↔ s.InQueue r := by
    intro r
    rw [InQueue, (htarget r).1]
    exact Iff.rfl
  refine ⟨⟨?_, ?_, ?_, ?_⟩, ?_⟩
  · intro t r hr
    rw [(htarget r).1]
    exact h.indexed.target t r hr
  · intro r hr
    exact h.indexed.fresh r ((hin r).mp hr)
  · exact h.indexed.nodup
  · intro r t ht
    rw [hin, (htarget t).2]
    exact h.indexed.tth r t ht
  · intro q
    have hq := h.listed q
    have hgone : ∀ p, (s.clearUser u reason).occurs q p u = 0 := by
      intro p
      simp [occurs, clearUser]
    have hstay : ∀ p v, v ≠ u → (s.clearUser u reason).occurs q p v = s.occurs q p v := by
      intro p v hv
      simp [occurs, clearUser, hv]
    by_cases hmem : ∃ p ∈ Priority.all, q ∈ s.userQueueMap p u
    · exact listed_removeSource hq (hin q) (if_pos hmem) hgone hstay
    · have hitem : (s.clearUser u reason).items q = s.items q := if_neg hmem
      refine hq.congr (hin q) hitem ?_
      intro p v
      by_cases hv : v = u
      · rw [hv, hgone, eq_comm, occurs, List.count_eq_zero]
        intro hq'
        exact hmem ⟨p, by cases p <;> simp [Priority.all], hq'⟩
      · exact hstay p v hv

/-! ### Adding and removing items -/

section Items

variable [DecidableEq T] [DecidableEq R]

omit [DecidableEq U] in
/-- An item in no list leaves the queue. -/
theorem fileRemove_kept {s : QueueManager U T R} {q : Nat} (hindex : s.Indexed)
    (hlisted : ∀ r, r ≠ q → s.Listed r) (hin : s.InQueue q)
    (hzero : ∀ p u, s.occurs q p u = 0) :
    (s.fileRemove q).Kept ∧ ¬(s.fileRemove q).InQueue q := by
  have hother : ∀ r, r ≠ q → ((s.fileRemove q).InQueue r ↔ s.InQueue r) := by
    intro r hr
    simp only [InQueue, fileRemove]
    split
    · next ht =>
      constructor
      · intro hcon
        cases hcon
      · intro hr'
        rw [ht, hin, Option.some_inj] at hr'
        exact absurd hr'.symm hr
    · exact Iff.rfl
  have hself : ¬(s.fileRemove q).InQueue q := by
    simp [InQueue, fileRemove]
  have hmem : ∀ r t, t ∈ (s.fileRemove q).queueTTH r → t ≠ q ∧ t ∈ s.queueTTH r := by
    intro r t ht
    simp only [fileRemove] at ht
    split at ht
    · split at ht
      · exact (hindex.nodup r).mem_erase_iff.mp ht
      · cases ht
    · next hne =>
      refine ⟨?_, ht⟩
      rintro rfl
      exact hne (hindex.tth r t ht).2
  refine ⟨⟨⟨?_, ?_, ?_, ?_⟩, ?_⟩, hself⟩
  · intro t r hr
    simp only [fileRemove] at hr ⊢
    split at hr
    · cases hr
    · exact hindex.target t r hr
  · intro r hr
    have hne : r ≠ q := by
      rintro rfl
      exact hself hr
    exact hindex.fresh r ((hother r hne).mp hr)
  · intro r
    simp only [fileRemove]
    split
    · split
      · exact (hindex.nodup r).erase q
      · exact List.nodup_nil
    · exact hindex.nodup r
  · intro r t ht
    obtain ⟨hne, ht⟩ := hmem r t ht
    exact ⟨(hother t hne).mpr (hindex.tth r t ht).1, (hindex.tth r t ht).2⟩
  · intro r
    by_cases hr : r = q
    · rw [hr]
      exact listed_of_not_inQueue hself hzero
    · exact (hlisted r hr).congr (hother r hr) rfl fun _ _ => rfl

theorem removeItem_kept {s : QueueManager U T R} (h : s.Kept) {q : Nat} (hin : s.InQueue q) :
    (s.removeItem q true).Kept := by
  have htouch := touches_removeQueueItemL s q
  have hindex : (s.removeQueueItemL q).Indexed := htouch.indexed h.indexed
  rw [removeItem, if_pos rfl]
  exact (fileRemove_kept hindex (fun r hr => htouch.listed hr (h.listed r))
    ((htouch.inQueue q).mpr hin) (h.listed q).removeQueueItemL).1

theorem removeTarget_kept {s : QueueManager U T R} (h : s.Kept) (t : T) :
    (s.removeTarget t).Kept := by
  rw [removeTarget]
  split
  · exact h
  · next q hq =>
    have htouch : Touches s (s.modify q fun i => { i with removed := true }) q :=
      touches_modify s q fun _ => ⟨rfl, rfl⟩
    have hin : s.InQueue q := by
      rw [InQueue, h.indexed.target t q hq, hq]
    apply removeItem_kept
    · exact modify_kept h q (fun _ => ⟨rfl, rfl⟩) (fun _ => ⟨rfl, rfl⟩) id
    · exact (htouch.inQueue q).mpr hin

omit [DecidableEq U] in
/-- A new item enters the queue; its lists are still to be filled if it has sources. -/
theorem fileAdd_frame {s : QueueManager U T R} (h : s.Kept) (i : QueuedItem U T R)
    (hnew : s.queue i.target = none) :
    (s.fileAdd i).Indexed ∧
      (∀ r, r ≠ s.next → ((s.fileAdd i).InQueue r ↔ s.InQueue r) ∧ (s.fileAdd i).Listed r) ∧
      (s.fileAdd i).InQueue s.next ∧ (s.fileAdd i).items s.next = i ∧
      ∀ p u, (s.fileAdd i).occurs s.next p u = 0 := by
  have hself : (s.fileAdd i).items s.next = i := if_pos rfl
  have hin : (s.fileAdd i).InQueue s.next := by
    rw [InQueue, hself]
    exact if_pos rfl
  have hother : ∀ r, r ≠ s.next → ((s.fileAdd i).InQueue r ↔ s.InQueue r) := by
    intro r hr
    simp only [InQueue, fileAdd, if_neg hr]
    split
    · next ht =>
      rw [ht, hnew]
      simp [eq_comm, hr]
    · exact Iff.rfl
  have hnext : ∀ r, s.InQueue r → r ≠ s.next := fun r hr => (h.indexed.fresh r hr).ne
  have hmem : ∀ r t, t ∈ s.queueTTH r → (s.fileAdd i).InQueue t ∧
      ((s.fileAdd i).items t).tth = some r := by
    intro r t ht
    obtain ⟨htin, htth⟩ := h.indexed.tth r t ht
    refine ⟨(hother t (hnext t htin)).mpr htin, ?_⟩
    rw [show (s.fileAdd i).items t = s.items t from if_neg (hnext t htin)]
    exact htth
  refine ⟨⟨?_, ?_, ?_, ?_⟩, ?_, hin, hself, ?_⟩
  · intro t r hr
    simp only [fileAdd] at hr ⊢
    split at hr
    · next ht =>
      rw [← Option.some_inj.mp hr, if_pos rfl, ht]
    · have hrin : s.InQueue r := by rw [InQueue, h.indexed.target t r hr, hr]
      rw [if_neg (hnext r hrin)]
      exact h.indexed.target t r hr
  · intro r hr
    by_cases hr' : r = s.next
    · rw [hr']
      exact Nat.lt_succ_self _
    · exact (h.indexed.fresh r ((hother r hr').mp hr)).trans (Nat.lt_succ_self _)
  · intro r
    simp only [fileAdd]
    split
    · refine (h.indexed.nodup r).append (List.nodup_singleton _) ?_
      intro t ht ht'
      exact hnext t (h.indexed.tth r t ht).1 (List.mem_singleton.mp ht')
    · exact h.indexed.nodup r
  · intro r t ht
    have hcase : t ∈ s.queueTTH r ∨ i.tth = some r ∧ t = s.next := by
      simp only [fileAdd] at ht
      split at ht
      · next htth =>
        rcases List.mem_append.mp ht with ht | ht
        · exact .inl ht
        · exact .inr ⟨htth, List.mem_singleton.mp ht⟩
      · exact .inl ht
    rcases hcase with ht | ⟨htth, rfl⟩
    · exact hmem r t ht
    · rw [hself]
      exact ⟨hin, htth⟩
  · intro r hr
    exact ⟨hother r hr, (h.listed r).congr (hother r hr) (if_neg hr) fun _ _ => rfl⟩
  · intro p u
    by_contra hne
    have := ((h.listed s.next).refers p u (Nat.pos_of_ne_zero hne)).1
    exact hnext _ this rfl

end Items

end Blacklink.Queue.QueueManager
