import Mathlib.Data.List.Pairwise
import Mathlib.Data.List.Nodup
import Mathlib.Data.List.Perm.Basic
import Blacklink.Searches.SearchQueue

/-!
# The owners of the searches in the queue

In every run of the queue no two searches are equal and manual ones stand before automatic ones.
No owner is lost as long as no manual search takes the place of an automatic one that has another
owner (`client/SearchQueue.cpp:41-53`).
-/

namespace Blacklink.Searches

open Blacklink.Base

namespace Search

/-- What searches are compared by. -/
def key (s : Search) : Share.SizeMode × Int × Int × List UInt8 × List UInt8 :=
  (s.sizeMode, s.size, s.fileType, s.filter, s.filterExclude)

theorem equals_iff {a b : Search} : a.equals b = true ↔ a.key = b.key := by
  simp only [equals, key, decide_eq_true_iff, Prod.mk.injEq]

theorem equals_eq_false_iff {a b : Search} : a.equals b = false ↔ a.key ≠ b.key := by
  rw [← Bool.not_eq_true, equals_iff]

/-- What the order of the queue depends on. -/
def head (s : Search) : (Share.SizeMode × Int × Int × List UInt8 × List UInt8) × Bool :=
  (s.key, s.isAutoToken)

end Search

/-- Distinct searches, manual ones first. -/
structure Ordered (l : List Search) : Prop where
  distinct : l.Pairwise fun a b => a.equals b = false
  manualFirst : l.Pairwise fun a b => a.isAutoToken = true → b.isAutoToken = true

private theorem ordered_iff {l : List Search} : Ordered l ↔
    (l.map Search.head).Pairwise fun a b => a.1 ≠ b.1 ∧ (a.2 = true → b.2 = true) := by
  rw [List.pairwise_map, List.pairwise_and_iff]
  simp only [← Search.equals_eq_false_iff, Search.head]
  exact ⟨fun h => ⟨h.1, h.2⟩, fun h => ⟨h.1, h.2⟩⟩

/-- Leaving searches out keeps the order. -/
private theorem Ordered.sublist {l l' : List Search} (h : Ordered l)
    (hsub : (l'.map Search.head).Sublist (l.map Search.head)) : Ordered l' :=
  ordered_iff.mpr ((ordered_iff.mp h).sublist hsub)

private theorem Ordered.eq_of_equals {l : List Search} (h : Ordered l) {s a b : Search}
    (ha : a ∈ l) (hb : b ∈ l) (has : a.equals s = true) (hbs : b.equals s = true) : a = b := by
  have hnodup : (l.map Search.key).Nodup := by
    rw [List.Nodup, List.pairwise_map]
    simpa only [Search.equals_eq_false_iff] using h.distinct
  exact List.inj_on_of_nodup_map hnodup ha hb
    ((Search.equals_iff.mp has).trans (Search.equals_iff.mp hbs).symm)

/-! ### Insertion -/

attribute [local simp] insertManual addOwnerFirst cancelFirst

private theorem insertManual_perm (s : Search) (l : List Search) :
    (insertManual s l).Perm (s :: l) := by
  induction l with
  | nil => exact .refl _
  | cons u l ih =>
    rw [insertManual]
    split
    · exact .refl _
    · exact (ih.cons u).trans (.swap s u l)

private theorem filter_insertManual {p : Search → Bool} {s : Search} (hs : p s = false)
    (l : List Search) : (insertManual s l).filter p = l.filter p := by
  induction l with
  | nil => rw [insertManual, List.filter_cons_of_neg (by simp [hs])]
  | cons u l ih =>
    rw [insertManual]
    split
    · rw [List.filter_cons_of_neg (by simp [hs])]
    · rw [List.filter_cons, List.filter_cons, ih]

private theorem manualFirst_insertManual {s : Search} (hs : s.isAutoToken = false) {l : List Search}
    (h : l.Pairwise fun a b => a.isAutoToken = true → b.isAutoToken = true) :
    (insertManual s l).Pairwise fun a b => a.isAutoToken = true → b.isAutoToken = true := by
  induction l with
  | nil => exact List.pairwise_singleton _ _
  | cons u l ih =>
    rw [insertManual]
    split
    · refine h.cons fun b _ hauto => ?_
      rw [hs] at hauto
      cases hauto
    · next hu =>
      refine (ih h.of_cons).cons fun b _ hauto => absurd hauto hu

/-- A search that no queued one equals is added where it has to be. -/
private theorem Ordered.addNew {q : SearchQueue} (h : Ordered q.searchQueue) {s : Search}
    (hnew : ∀ u ∈ q.searchQueue, u.equals s = false) : Ordered (q.addNew s).searchQueue := by
  unfold SearchQueue.addNew
  split
  · next hauto =>
    constructor
    · refine List.pairwise_append.mpr ⟨h.distinct, List.pairwise_singleton _ _, ?_⟩
      intro a ha b hb
      rw [List.mem_singleton.mp hb]
      exact hnew a ha
    · refine List.pairwise_append.mpr ⟨h.manualFirst, List.pairwise_singleton _ _, ?_⟩
      intro a _ b hb _
      rw [List.mem_singleton.mp hb]
      exact hauto
  · next hmanual =>
    constructor
    · refine (insertManual_perm s _).pairwise_iff ?_ |>.mpr (h.distinct.cons fun u hu => ?_)
      · intro a b hab
        rw [Search.equals_eq_false_iff] at hab ⊢
        exact hab.symm
      · have hne := hnew u hu
        rw [Search.equals_eq_false_iff] at hne ⊢
        exact hne.symm
    · exact manualFirst_insertManual (Bool.not_eq_true _ ▸ hmanual) h.manualFirst

private theorem mem_addNew {q : SearchQueue} {s u : Search} :
    u ∈ (q.addNew s).searchQueue ↔ u = s ∨ u ∈ q.searchQueue := by
  unfold SearchQueue.addNew
  split
  · rw [List.mem_append, List.mem_singleton, or_comm]
  · rw [(insertManual_perm s _).mem_iff, List.mem_cons]

private theorem filter_addNew {p : Search → Bool} {s : Search} (hs : p s = false)
    (q : SearchQueue) : (q.addNew s).searchQueue.filter p = q.searchQueue.filter p := by
  unfold SearchQueue.addNew
  split
  · rw [List.filter_append, List.filter_cons_of_neg (by simp [hs]), List.filter_nil,
      List.append_nil]
  · exact filter_insertManual hs _

/-! ### Changes of the owners -/

private theorem map_head_addOwnerFirst (p : Search → Bool) (owner : UInt64) (l : List Search) :
    (addOwnerFirst p owner l).map Search.head = l.map Search.head := by
  induction l with
  | nil => rfl
  | cons u l ih =>
    rw [addOwnerFirst]
    split
    · rfl
    · rw [List.map_cons, List.map_cons, ih]

private theorem mem_addOwnerFirst {p : Search → Bool} (owner : UInt64) {l : List Search}
    {queued : Search} (h : l.find? p = some queued) :
    queued.addOwner owner ∈ addOwnerFirst p owner l ∧
      ∀ t ∈ addOwnerFirst p owner l, t = queued.addOwner owner ∨ t ∈ l := by
  induction l with
  | nil => cases h
  | cons u l ih =>
    rw [addOwnerFirst]
    cases hu : p u with
    | true =>
      rw [List.find?_cons_of_pos hu] at h
      cases h
      rw [if_pos rfl]
      refine ⟨List.mem_cons_self, fun t ht => ?_⟩
      exact (List.mem_cons.mp ht).imp_right fun hl => List.mem_cons_of_mem _ hl
    | false =>
      rw [List.find?_cons_of_neg (by simp [hu])] at h
      rw [if_neg Bool.false_ne_true]
      refine ⟨List.mem_cons_of_mem u (ih h).1, fun t ht => ?_⟩
      rcases List.mem_cons.mp ht with rfl | ht
      · exact .inr List.mem_cons_self
      · exact ((ih h).2 t ht).imp_right fun hl => List.mem_cons_of_mem u hl

private theorem filter_addOwnerFirst {p : Search → Bool} {owner : UInt64}
    (hp : ∀ u : Search, p (u.addOwner owner) = p u) (l : List Search) :
    (addOwnerFirst p owner l).filter (fun u => !p u) = l.filter fun u => !p u := by
  induction l with
  | nil => rfl
  | cons u l ih =>
    rw [addOwnerFirst]
    split
    · next hu => rw [List.filter_cons_of_neg (by simp [hp, hu]),
        List.filter_cons_of_neg (by simp [hu])]
    · rw [List.filter_cons, List.filter_cons, ih]

private theorem filter_eraseP {p : Search → Bool} (l : List Search) :
    (l.eraseP p).filter (fun u => !p u) = l.filter fun u => !p u := by
  induction l with
  | nil => rfl
  | cons u l ih =>
    cases hu : p u with
    | true => rw [List.eraseP_cons_of_pos hu, List.filter_cons_of_neg (by simp [hu])]
    | false =>
      rw [List.eraseP_cons_of_neg (by simp [hu]), List.filter_cons, List.filter_cons, ih]

private theorem map_head_cancelFirst (owner : UInt64) (l : List Search) :
    ((cancelFirst owner l).1.map Search.head).Sublist (l.map Search.head) := by
  induction l with
  | nil => exact .slnil
  | cons u l ih =>
    rw [cancelFirst]
    split
    · dsimp only
      split
      · exact List.sublist_cons_self _ _
      · exact .refl _
    · exact ih.cons_cons _

/-- Only the owner that cancels leaves a search. -/
private theorem kept_cancelFirst (owner : UInt64) {l : List Search} {u : Search} (hu : u ∈ l)
    {o : UInt64} (ho : o ∈ u.owners) (hne : o ≠ owner) :
    ∃ t ∈ (cancelFirst owner l).1, t.equals u = true ∧ o ∈ t.owners := by
  induction l with
  | nil => cases hu
  | cons v l ih =>
    rw [cancelFirst]
    split
    · dsimp only
      rcases List.mem_cons.mp hu with rfl | hu
      · have hmem : o ∈ (u.removeOwner owner).owners := Finset.mem_erase.mpr ⟨hne, ho⟩
        rw [if_neg (Finset.ne_empty_of_mem hmem)]
        exact ⟨_, List.mem_cons_self, Search.equals_iff.mpr rfl, hmem⟩
      · refine ⟨u, ?_, Search.equals_iff.mpr rfl, ho⟩
        split
        · exact hu
        · exact List.mem_cons_of_mem _ hu
    · rcases List.mem_cons.mp hu with rfl | hu
      · exact ⟨u, List.mem_cons_self, Search.equals_iff.mpr rfl, ho⟩
      · obtain ⟨t, ht, hequal, hot⟩ := ih hu
        exact ⟨t, List.mem_cons_of_mem v ht, hequal, hot⟩

private theorem owned_cancelFirst (owner : UInt64) {l : List Search}
    (h : ∀ u ∈ l, u.owners.Nonempty) : ∀ u ∈ (cancelFirst owner l).1, u.owners.Nonempty := by
  induction l with
  | nil => exact h
  | cons v l ih =>
    rw [List.forall_mem_cons] at h
    rw [cancelFirst]
    split
    · dsimp only
      split
      · exact h.2
      · next hne =>
        rw [List.forall_mem_cons]
        exact ⟨Finset.nonempty_iff_ne_empty.mpr hne, h.2⟩
    · rw [List.forall_mem_cons]
      exact ⟨h.1, ih h.2⟩

/-! ### The operations -/

namespace SearchQueue

variable {q : SearchQueue}

private theorem WellFormed.ordered (h : q.WellFormed) : Ordered q.searchQueue :=
  ⟨h.distinct, h.manualFirst⟩

private theorem wellFormed_of (h : Ordered q.searchQueue)
    (howned : ∀ u ∈ q.searchQueue, u.owners.Nonempty) : q.WellFormed :=
  ⟨h.distinct, h.manualFirst, howned⟩

/-- No other search equals the queued one. -/
private theorem WellFormed.eraseP_equals (h : q.WellFormed) {s queued : Search}
    (hfind : q.searchQueue.find? (·.equals s) = some queued) :
    ∀ u ∈ q.searchQueue.eraseP (·.equals s), u.equals s = false := by
  have hqueued : queued.equals s = true :=
    List.find?_some (p := fun u : Search => u.equals s) hfind
  have hmem := List.mem_of_find?_eq_some hfind
  obtain ⟨a, l₁, l₂, hbefore, ha, hl, herase⟩ :=
    List.exists_of_eraseP (p := fun u : Search => u.equals s) hmem hqueued
  have hdistinct := h.distinct
  rw [hl, List.pairwise_append, List.pairwise_cons] at hdistinct
  intro u hu
  rw [herase, List.mem_append] at hu
  rcases hu with hu | hu
  · exact Bool.eq_false_of_not_eq_true (hbefore u hu)
  · have hne := hdistinct.2.1.1 u hu
    rw [Search.equals_eq_false_iff] at hne ⊢
    intro hkey
    exact hne ((Search.equals_iff.mp ha).trans hkey.symm)

theorem wellFormed_init (interval intervalPassive : UInt32) :
    (init interval intervalPassive).WellFormed := ⟨.nil, .nil, nofun⟩

private theorem WellFormed.add (h : q.WellFormed) (s : Search) (owner : UInt64) :
    (q.add s owner).1.WellFormed := by
  unfold SearchQueue.add
  generalize hs : ({ s with owners := {owner} } : Search) = s'
  have hown : s'.owners.Nonempty := by
    rw [← hs]
    exact Finset.singleton_nonempty owner
  dsimp only
  split
  · next hfind =>
    apply wellFormed_of
    · apply h.ordered.addNew
      intro u hu
      exact Bool.eq_false_of_not_eq_true (List.find?_eq_none.mp hfind u hu)
    · intro u hu
      rcases mem_addNew.mp hu with rfl | hu
      · exact hown
      · exact h.owned u hu
  next queued hfind =>
  split
  · apply wellFormed_of
    · apply Ordered.addNew
      · exact h.ordered.sublist (List.eraseP_sublist.map _)
      · exact h.eraseP_equals hfind
    · intro u hu
      rcases mem_addNew.mp hu with rfl | hu
      · exact hown
      · exact h.owned u (List.mem_of_mem_eraseP hu)
  · apply wellFormed_of
    · apply h.ordered.sublist
      rw [map_head_addOwnerFirst]
    · intro u hu
      rcases (mem_addOwnerFirst owner hfind).2 u hu with rfl | hu
      · exact Finset.insert_nonempty _ _
      · exact h.owned u hu

private theorem WellFormed.pop (h : q.WellFormed) (now : UInt64) : (q.pop now).1.WellFormed := by
  unfold SearchQueue.pop
  split
  · exact h
  next queued rest hq =>
  split
  · exact h
  · apply wellFormed_of
    · apply h.ordered.sublist
      rw [hq]
      exact (List.sublist_cons_self _ _).map _
    · intro u hu
      exact h.owned u (hq ▸ List.mem_cons_of_mem _ hu)

private theorem WellFormed.cancelSearch (h : q.WellFormed) (owner : UInt64) :
    (q.cancelSearch owner).1.WellFormed :=
  wellFormed_of (h.ordered.sublist (map_head_cancelFirst owner _)) (owned_cancelFirst owner h.owned)

theorem WellFormed.step (h : q.WellFormed) (e : SearchEvent) : (q.step e).WellFormed := by
  cases e with
  | add s owner => exact h.add s owner
  | pop now => exact h.pop now
  | cancelSearch owner => exact h.cancelSearch owner

/-- The queue is in order in every run. -/
theorem wellFormed_run (interval intervalPassive : UInt32) (es : List SearchEvent) :
    (run step (init interval intervalPassive) es).WellFormed :=
  run_invariant WellFormed (fun _ e h => h.step e) (wellFormed_init _ _) es

/-- A manual search that takes the place of an automatic one has all the owners of this. -/
def Condition (q : SearchQueue) : SearchEvent → Prop
  | .add s owner => s.isAutoToken = false →
      ∀ u ∈ q.searchQueue, u.equals s = true → u.isAutoToken = true → u.owners ⊆ {owner}
  | _ => True

private theorem added_iff (h : q.WellFormed) (s : Search) (owner : UInt64) :
    Added s owner q (q.add s owner).1 ↔ q.Condition (.add s owner) := by
  unfold SearchQueue.add
  have hequals : ∀ u : Search, u.equals { s with owners := {owner} } = u.equals s := fun _ => rfl
  have hself : Search.equals { s with owners := {owner} } s = true := Search.equals_iff.mpr rfl
  have hother : (fun u : Search => !u.equals s) { s with owners := {owner} } = false :=
    congrArg (!·) hself
  simp only [hequals]
  cases hfind : q.searchQueue.find? (·.equals s) with
  | none =>
    have hnone : ∀ u ∈ q.searchQueue, u.equals s ≠ true := List.find?_eq_none.mp hfind
    dsimp only
    refine iff_of_true ⟨⟨_, mem_addNew.mpr (.inl rfl), hself, fun o => ?_⟩, ?_⟩ ?_
    · rw [Finset.mem_singleton, or_iff_left]
      rintro ⟨u, hu, hus, -⟩
      exact hnone u hu hus
    · exact filter_addNew hother q
    · intro _ u hu hus
      exact absurd hus (hnone u hu)
  | some queued =>
    have hmem := List.mem_of_find?_eq_some hfind
    have hqueued : queued.equals s = true :=
    List.find?_some (p := fun u : Search => u.equals s) hfind
    have hunique : ∀ u ∈ q.searchQueue, u.equals s = true → u = queued := fun u hu hus =>
      h.ordered.eq_of_equals hu hmem hus hqueued
    dsimp only
    split
    · next hupgrade =>
      have hupgrade' : s.isAutoToken = false ∧ queued.isAutoToken = true := by
        simpa [Search.isAutoToken] using hupgrade
      have hrest := h.eraseP_equals hfind
      constructor
      · rintro ⟨⟨t, ht, hts, howners⟩, -⟩ _ u hu hus _ o ho
        rcases mem_addNew.mp ht with rfl | ht
        · exact (howners o).mpr (.inr ⟨u, hu, hus, ho⟩)
        · rw [hrest t ht] at hts
          cases hts
      · intro hcond
        have hsub := hcond hupgrade'.1 queued hmem hqueued hupgrade'.2
        refine ⟨⟨_, mem_addNew.mpr (.inl rfl), hself, fun o => ?_⟩, ?_⟩
        · rw [Finset.mem_singleton, or_iff_left_of_imp]
          rintro ⟨u, hu, hus, ho⟩
          rw [hunique u hu hus] at ho
          exact Finset.mem_singleton.mp (hsub ho)
        · rw [filter_addNew hother]
          exact filter_eraseP _
    · next hupgrade =>
      obtain ⟨hin, -⟩ := mem_addOwnerFirst owner hfind
      refine iff_of_true ⟨⟨_, hin, hqueued, fun o => ?_⟩, ?_⟩ ?_
      · rw [Search.addOwner, Finset.mem_insert]
        apply or_congr_right
        constructor
        · exact fun ho => ⟨queued, hmem, hqueued, ho⟩
        · rintro ⟨u, hu, hus, ho⟩
          exact hunique u hu hus ▸ ho
      · exact filter_addOwnerFirst (fun _ => rfl) _
      · intro hmanual u hu hus hauto
        rw [hunique u hu hus] at hauto
        refine absurd ?_ hupgrade
        rw [hauto]
        exact (Bool.and_true _).trans (congrArg (!·) hmanual)

/-- One operation keeps the owners if and only if the condition holds. -/
theorem WellFormed.keepsOwners_iff (h : q.WellFormed) (e : SearchEvent) :
    q.KeepsOwners e ↔ q.Condition e := by
  cases e with
  | add s owner => exact added_iff h s owner
  | pop now =>
    refine iff_of_true ?_ trivial
    change (q.pop now).2.toList ++ (q.pop now).1.searchQueue = q.searchQueue
    unfold SearchQueue.pop
    split
    · rfl
    next queued rest hq =>
    split
    · rfl
    · exact hq.symm
  | cancelSearch owner =>
    refine iff_of_true ?_ trivial
    intro u hu o ho hne
    exact kept_cancelFirst owner hu ho hne

/-- In every run the queue is in order, and every operation keeps the owners of the searches if and
only if no manual search takes the place of an automatic one that has another owner. -/
theorem keepsOwners_run_iff (interval intervalPassive : UInt32) (es : List SearchEvent) :
    (∀ pre, pre <+: es → (run step (init interval intervalPassive) pre).WellFormed) ∧
      (Within KeepsOwners step (init interval intervalPassive) es ↔
        Within Condition step (init interval intervalPassive) es) := by
  constructor
  · exact fun pre _ => wellFormed_run interval intervalPassive pre
  · exact within_congr WellFormed (fun _ e h => h.step e) (fun _ e h => h.keepsOwners_iff e)
      (wellFormed_init _ _) es

/-- A search for a name, with the given token. -/
def nameSearch (token : UInt32) : Search :=
  ⟨.active, .dontCare, 0, 0, [97], [], token, [], ∅⟩

/-- An automatic search waits for owner 1 when owner 2 searches for the same: owner 1 is lost. -/
theorem not_keepsOwners_upgrade :
    ¬ Within KeepsOwners step (init 15000 15000)
        [.add (nameSearch 2) 1, .add (nameSearch 3) 2] := by
  rintro ⟨-, ⟨⟨t, ht, hequal, howners⟩, -⟩, -⟩
  have hqueue : ((step (init 15000 15000) (.add (nameSearch 2) 1)).add
      (nameSearch 3) 2).1.searchQueue = [{ nameSearch 3 with owners := {2} }] := by decide
  have hlost : (1 : UInt64) ∈ t.owners := (howners 1).mpr (.inr
    ⟨{ nameSearch 2 with owners := {1} }, by decide, by decide, by decide⟩)
  rw [hqueue, List.mem_singleton] at ht
  rw [ht] at hlost
  revert hlost
  decide

end SearchQueue

end Blacklink.Searches
