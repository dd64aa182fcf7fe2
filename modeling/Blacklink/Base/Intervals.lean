import Mathlib

/-!
# Lists of half-open intervals

A pair `(lo, hi)` stands for the points `lo ≤ x < hi`. `coalesce` is the left-to-right merge
pass over intervals sorted by their lower ends; `Separated` is the normal form it reaches,
in which every interval ends strictly before the next one starts. Over the integers the
number of points of a separated list is the sum of its lengths.
-/

namespace Blacklink.Base

section Order

variable {α : Type*} [LinearOrder α]

/-- A point of one interval. -/
def Contains (i : α × α) (x : α) : Prop := i.1 ≤ x ∧ x < i.2

/-- A point of some interval of the list. -/
def Covers (l : List (α × α)) (x : α) : Prop := ∃ i ∈ l, Contains i x

/-- Every interval has a point. -/
def Proper (l : List (α × α)) : Prop := ∀ i ∈ l, i.1 < i.2

/-- The lower ends do not decrease. -/
def StartSorted (l : List (α × α)) : Prop := l.Pairwise fun i j => i.1 ≤ j.1

/-- Sorted, pairwise disjoint and not adjacent. -/
def Separated (l : List (α × α)) : Prop := l.Pairwise fun i j => i.2 < j.1

/-- The merge pass: `cur` absorbs every following interval that starts no later than it
ends, and is put out when one starts after it. -/
def coalesce (cur : α × α) : List (α × α) → List (α × α)
  | [] => [cur]
  | i :: l =>
    if i.1 ≤ cur.2 then coalesce (cur.1, max cur.2 i.2) l else cur :: coalesce i l

@[simp] theorem covers_nil (x : α) : Covers ([] : List (α × α)) x ↔ False := by
  simp [Covers]

@[simp] theorem covers_cons (i : α × α) (l : List (α × α)) (x : α) :
    Covers (i :: l) x ↔ Contains i x ∨ Covers l x := by
  simp [Covers]

private theorem contains_merge {a b : α × α} (hs : a.1 ≤ b.1) (ht : b.1 ≤ a.2) (x : α) :
    Contains (a.1, max a.2 b.2) x ↔ Contains a x ∨ Contains b x := by
  simp only [Contains, lt_max_iff]
  constructor
  · rintro ⟨hl, hu | hu⟩
    · exact .inl ⟨hl, hu⟩
    · rcases lt_or_ge x a.2 with hx | hx
      · exact .inl ⟨hl, hx⟩
      · exact .inr ⟨ht.trans hx, hu⟩
  · rintro (⟨hl, hu⟩ | ⟨hl, hu⟩)
    · exact ⟨hl, .inl hu⟩
    · exact ⟨hs.trans hl, .inr hu⟩

private theorem startSorted_merge {cur i : α × α} {l : List (α × α)}
    (h : StartSorted (cur :: i :: l)) : StartSorted ((cur.1, max cur.2 i.2) :: l) := by
  obtain ⟨hc, hl⟩ := List.pairwise_cons.mp h
  refine List.pairwise_cons.mpr ⟨?_, (List.pairwise_cons.mp hl).2⟩
  intro j hj
  exact hc j (List.mem_cons_of_mem _ hj)

attribute [local simp] coalesce

/-- The merge pass loses and adds no point. -/
theorem covers_coalesce (cur : α × α) (l : List (α × α)) (h : StartSorted (cur :: l))
    (x : α) : Covers (coalesce cur l) x ↔ Contains cur x ∨ Covers l x := by
  induction l generalizing cur with
  | nil => simp [coalesce]
  | cons i l ih =>
    have hle : cur.1 ≤ i.1 := (List.pairwise_cons.mp h).1 i (by simp)
    rw [coalesce]
    split
    · next ht =>
      rw [ih _ (startSorted_merge h), contains_merge hle ht, covers_cons, or_assoc]
    · rw [covers_cons, ih _ (List.pairwise_cons.mp h).2, covers_cons]

/-- Every interval the pass puts out starts no earlier than the one it began with. -/
theorem le_of_mem_coalesce {cur : α × α} {l : List (α × α)} (h : StartSorted (cur :: l)) :
    ∀ i ∈ coalesce cur l, cur.1 ≤ i.1 := by
  induction l generalizing cur with
  | nil => simp [coalesce]
  | cons j l ih =>
    rw [coalesce]
    split
    · exact ih (startSorted_merge h)
    · intro i hi
      rcases List.mem_cons.mp hi with rfl | hi
      · exact le_rfl
      · exact ((List.pairwise_cons.mp h).1 j (by simp)).trans
          (ih (List.pairwise_cons.mp h).2 i hi)

/-- The merge pass reaches the separated form. -/
theorem separated_coalesce {cur : α × α} {l : List (α × α)} (h : StartSorted (cur :: l)) :
    Separated (coalesce cur l) := by
  induction l generalizing cur with
  | nil => simp [coalesce, Separated]
  | cons i l ih =>
    rw [coalesce]
    split
    · exact ih (startSorted_merge h)
    · next ht =>
      have hl := (List.pairwise_cons.mp h).2
      refine List.pairwise_cons.mpr ⟨?_, ih hl⟩
      intro j hj
      exact (not_le.mp ht).trans_le (le_of_mem_coalesce hl j hj)

/-- The merge pass keeps every interval non-empty. -/
theorem proper_coalesce {cur : α × α} {l : List (α × α)} (h : Proper (cur :: l)) :
    Proper (coalesce cur l) := by
  induction l generalizing cur with
  | nil => simpa [coalesce] using h
  | cons i l ih =>
    rw [coalesce]
    split
    · apply ih
      intro j hj
      rcases List.mem_cons.mp hj with rfl | hj
      · exact (h cur (by simp)).trans_le (le_max_left _ _)
      · exact h j (by simp [hj])
    · intro j hj
      rcases List.mem_cons.mp hj with rfl | hj
      · exact h _ (by simp)
      · exact ih (fun k hk => h k (List.mem_cons_of_mem _ hk)) j hj

/-- The lower ends of a separated list of non-empty intervals do not decrease. -/
theorem Separated.startSorted {l : List (α × α)} (h : Separated l) (hp : Proper l) :
    StartSorted l := by
  apply List.Pairwise.imp_of_mem _ h
  intro i j hi _ hij
  exact ((hp i hi).trans hij).le

/-- A separated list that covers exactly one non-empty interval is that interval. -/
theorem Separated.eq_singleton {l : List (α × α)} {lo hi : α} (h : Separated l)
    (hp : Proper l) (hne : lo < hi) (hc : ∀ x, Covers l x ↔ Contains (lo, hi) x) :
    l = [(lo, hi)] := by
  cases l with
  | nil => simpa [Contains] using (hc lo).mpr ⟨le_rfl, hne⟩
  | cons i l =>
    obtain ⟨hi', hl⟩ := List.pairwise_cons.mp h
    have hpi : i.1 < i.2 := hp i (by simp)
    have hlo : lo ≤ i.1 := ((hc i.1).mp ⟨i, by simp, le_rfl, hpi⟩).1
    -- the upper end of the first interval is in no interval, so it is not below `hi`
    have hup : hi ≤ i.2 := by
      by_contra hlt
      have hm : Contains (lo, hi) i.2 := ⟨hlo.trans hpi.le, not_le.mp hlt⟩
      obtain ⟨j, hj, hjl, hju⟩ := (hc i.2).mpr hm
      rcases List.mem_cons.mp hj with rfl | hj
      · exact lt_irrefl _ hju
      · exact absurd hjl (not_le.mpr (hi' j hj))
    have hnil : l = [] := by
      cases l with
      | nil => rfl
      | cons j l =>
        have hj := hi' j (by simp)
        have hm := (hc j.1).mp ⟨j, by simp, le_rfl, hp j (by simp)⟩
        exact absurd hm.2 (not_lt.mpr (hup.trans hj.le))
    subst hnil
    have hlo' : i.1 ≤ lo := by
      have hm := (hc lo).mpr ⟨le_rfl, hne⟩
      simpa [Contains] using (show Contains i lo by simpa using hm).1
    have hup' : i.2 ≤ hi := by
      by_contra hlt
      have hx : Contains i (max i.1 hi) := ⟨le_max_left _ _, max_lt hpi (not_le.mp hlt)⟩
      have hm := (hc (max i.1 hi)).mp ⟨i, by simp, hx⟩
      exact absurd hm.2 (not_lt.mpr (le_max_right _ _))
    rw [show i = (lo, hi) from Prod.ext (le_antisymm hlo' hlo) (le_antisymm hup' hup)]

/-- What an interval ends before is in it or in a list exactly when it is in the list. -/
theorem covers_cons_of_le {i : α × α} {l : List (α × α)} {x : α} (h : i.2 ≤ x) :
    Covers (i :: l) x ↔ Covers l x := by
  rw [covers_cons, or_iff_right]
  exact fun hi => absurd hi.2 (not_lt.mpr h)

/-- Intervals each of which ends no later than the next one starts. -/
def Apart (l : List (α × α)) : Prop := l.Pairwise fun i j => i.2 ≤ j.1

/-- What is in a later interval is behind the first. -/
theorem Apart.le_of_covers {i : α × α} {l : List (α × α)} (h : Apart (i :: l)) {x : α}
    (hx : Covers l x) : i.2 ≤ x := by
  obtain ⟨j, hj, hjx, -⟩ := hx
  exact ((List.pairwise_cons.mp h).1 j hj).trans hjx

theorem Separated.apart {l : List (α × α)} (h : Separated l) : Apart l := h.imp le_of_lt

/-- An interval all of whose points a separated list covers lies in one of its intervals. -/
theorem Separated.contains_of_covers {l : List (α × α)} (h : Separated l) (hp : Proper l)
    {lo hi : α} (hlt : lo < hi) (hc : ∀ x, lo ≤ x → x < hi → Covers l x) :
    ∃ i ∈ l, i.1 ≤ lo ∧ hi ≤ i.2 := by
  obtain ⟨i, hi', hle, hgt⟩ := hc lo le_rfl hlt
  refine ⟨i, hi', hle, ?_⟩
  by_contra hend
  -- the upper end is a point of another interval, which would have to be adjacent
  obtain ⟨j, hj, hjl, hju⟩ := hc i.2 hgt.le (not_le.mp hend)
  have hne : i ≠ j := by
    rintro rfl
    exact lt_irrefl _ hju
  obtain ⟨m, hm, rfl⟩ := List.getElem_of_mem hi'
  obtain ⟨n, hn, rfl⟩ := List.getElem_of_mem hj
  have hsep := List.pairwise_iff_getElem.mp h
  rcases Nat.lt_trichotomy m n with hmn | rfl | hmn
  · exact absurd (hsep m n hm hn hmn) (not_lt.mpr hjl)
  · exact hne rfl
  · have hlt' := (hsep n m hn hm hmn).trans (hp _ hi')
    exact absurd hju (not_lt.mpr hlt'.le)

end Order

/-- The integer points of the intervals. -/
noncomputable def points : List (ℤ × ℤ) → Finset ℤ
  | [] => ∅
  | i :: l => Finset.Ico i.1 i.2 ∪ points l

/-- The sum of the lengths. -/
def total (l : List (ℤ × ℤ)) : ℤ := (l.map fun i => i.2 - i.1).sum

@[simp] theorem mem_points (l : List (ℤ × ℤ)) (x : ℤ) : x ∈ points l ↔ Covers l x := by
  induction l with
  | nil => simp [points]
  | cons i l ih => simp [points, ih, Contains]

/-- A separated list has as many points as its lengths add up to. -/
theorem Separated.card_points {l : List (ℤ × ℤ)} (h : Separated l) (hp : Proper l) :
    ((points l).card : ℤ) = total l := by
  induction l with
  | nil => simp [points, total]
  | cons i l ih =>
    obtain ⟨hi, hl⟩ := List.pairwise_cons.mp h
    have hd : Disjoint (Finset.Ico i.1 i.2) (points l) := by
      rw [Finset.disjoint_left]
      intro x hx hy
      obtain ⟨j, hj, hjx, -⟩ := (mem_points l x).mp hy
      exact absurd ((Finset.mem_Ico.mp hx).2.trans ((hi j hj).trans_le hjx)) (lt_irrefl _)
    have hpi : i.1 < i.2 := hp i (by simp)
    have hpl : Proper l := fun j hj => hp j (List.mem_cons_of_mem _ hj)
    rw [points, Finset.card_union_of_disjoint hd, Nat.cast_add, ih hl hpl, Int.card_Ico,
      total, total, List.map_cons, List.sum_cons, Int.toNat_of_nonneg (by omega)]

end Blacklink.Base
