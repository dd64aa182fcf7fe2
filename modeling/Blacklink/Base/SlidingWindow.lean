import Mathlib

/-!
# Windows in a ring of slots

The values at `N` successive times in a ring of `N` slots, the slot of the first of these times
kept beside the ring (`InRing`). The first time can be left out for the one behind the last
(`InRing.dropFirst`), and a value can be changed (`InRing.set`). As long as nothing is at later
times than the current one and nothing at those of the last `N` times that the ring has not
(`Spans`), what is in the slots together is what is at the last `N` times (`InRing.sum_eq`).
-/

namespace Blacklink.Base

variable {M : Type*}

/-- The values at the `N` times from `start` on are in the slots from `first` on. -/
structure InRing [Zero M] (N : Nat) (slots : List M) (first : Nat) (start : Int)
    (value : Int → M) : Prop where
  length : slots.length = N
  first_lt : first < N
  getD : ∀ i < N, slots.getD ((first + i) % N) 0 = value (start + i)

/-- The times of the ring reach the current one, and what is at other times does not matter. -/
structure Spans [Zero M] (N : Nat) (start now : Int) (value : Int → M) : Prop where
  start_le : start ≤ now
  now_lt : now < start + N
  later : ∀ t, now < t → value t = 0
  before : ∀ t, now - N < t → t < start → value t = 0

/-- A slot of the ring behind the first one. -/
theorem ring_slot {N first i : Nat} (hfirst : first < N) (hi : i < N) :
    (first + i) % N = if first + i < N then first + i else first + i - N := by
  split
  · next h => exact Nat.mod_eq_of_lt h
  · next h =>
    rw [Nat.mod_eq_sub_mod (Nat.le_of_not_lt h)]
    exact Nat.mod_eq_of_lt (by omega)

/-- Two slots of the ring are the same when they are as far behind the first one. -/
theorem ring_slot_inj {N first i j : Nat} (hfirst : first < N) (hi : i < N) (hj : j < N)
    (h : (first + i) % N = (first + j) % N) : i = j := by
  rw [ring_slot hfirst hi, ring_slot hfirst hj] at h
  split at h <;> split at h <;> omega

theorem ring_slot_succ {N : Nat} (first i : Nat) :
    ((first + 1) % N + i) % N = (first + (i + 1)) % N := by
  rw [Nat.mod_add_mod]
  congr 1
  omega

namespace InRing

variable {N first : Nat} {slots : List M} {start : Int} {value value' : Int → M} {a : M}

section Zero

variable [Zero M]

/-- The slot of a time. -/
theorem getD_time (h : InRing N slots first start value) {t : Int} (hle : start ≤ t)
    (hlt : t < start + N) : slots.getD ((first + (t - start).toNat) % N) 0 = value t := by
  rw [h.getD _ (by omega)]
  congr 1
  omega

theorem slot_lt (h : InRing N slots first start value) (i : Nat) :
    (first + i) % N < slots.length := by
  rw [h.length]
  exact Nat.mod_lt _ (Nat.zero_lt_of_lt h.first_lt)

/-- Empty slots hold the values of times without any. -/
theorem replicate (hN : 0 < N) (hvalue : ∀ t, start ≤ t → value t = 0) :
    InRing N (List.replicate N 0) 0 start value := by
  refine ⟨List.length_replicate, hN, fun i hi => ?_⟩
  rw [hvalue _ (Int.le_add_of_nonneg_right (Int.natCast_nonneg i))]
  exact List.getD_replicate 0 (Nat.mod_lt _ hN)

/-- Values at other times may be changed. -/
theorem congr (h : InRing N slots first start value)
    (hvalue : ∀ t, start ≤ t → t < start + N → value' t = value t) :
    InRing N slots first start value' := by
  refine ⟨h.length, h.first_lt, fun i hi => ?_⟩
  rw [h.getD i hi, hvalue _ (by omega) (by omega)]

/-- The first time is left out for the one behind the last. -/
theorem dropFirst (h : InRing N slots first start value) (hvalue : value (start + N) = 0) :
    InRing N (slots.set first 0) ((first + 1) % N) (start + 1) value := by
  have hpos := Nat.zero_lt_of_lt h.first_lt
  refine ⟨List.length_set.trans h.length, Nat.mod_lt _ hpos, fun i hi => ?_⟩
  have htime : start + 1 + (i : Int) = start + ((i + 1 : Nat) : Int) := by
    push_cast
    omega
  rw [ring_slot_succ, htime, List.getD_eq_getElem?_getD, List.getElem?_set]
  have hfirst : (first + 0) % N = first := Nat.mod_eq_of_lt h.first_lt
  by_cases hlast : i + 1 = N
  · have hslot : first = (first + (i + 1)) % N := by
      rw [hlast, Nat.add_mod_right, Nat.mod_eq_of_lt h.first_lt]
    rw [if_pos hslot, hlast, hvalue]
    split <;> rfl
  · have hlt : i + 1 < N := by omega
    have hslot : first ≠ (first + (i + 1)) % N := by
      intro heq
      have hzero := ring_slot_inj h.first_lt hpos hlt (hfirst.trans heq)
      omega
    rw [if_neg hslot, ← List.getD_eq_getElem?_getD]
    exact h.getD _ hlt

/-- A value is changed in its slot. -/
theorem set (h : InRing N slots first start value) {t : Int} (hle : start ≤ t)
    (hlt : t < start + N) (ht : value' t = a) (hvalue : ∀ s, s ≠ t → value' s = value s) :
    InRing N (slots.set ((first + (t - start).toNat) % N) a) first start value' := by
  refine ⟨List.length_set.trans h.length, h.first_lt, fun i hi => ?_⟩
  have hoffset : (t - start).toNat < N := by omega
  rw [List.getD_eq_getElem?_getD, List.getElem?_set]
  split
  · next heq =>
    have hi' := ring_slot_inj h.first_lt hoffset hi heq
    rw [if_pos (h.slot_lt _), show start + (i : Int) = t by omega, ht]
    rfl
  · next hne =>
    have htime : start + (i : Int) ≠ t := by
      rintro rfl
      apply hne
      congr 2
      omega
    rw [← List.getD_eq_getElem?_getD, h.getD i hi, hvalue _ htime]

end Zero

section Sum

variable [AddCommMonoid M]

/-- The slots in the order of their times. -/
theorem rotate_eq (h : InRing N slots first start value) :
    slots.rotate first = (List.range N).map fun i : Nat => value (start + i) := by
  apply List.ext_getElem
  · rw [List.length_rotate, List.length_map, List.length_range, h.length]
  · intro i hi _
    rw [List.length_rotate, h.length] at hi
    have hget := h.getD i hi
    rw [List.getD_eq_getElem _ _ (h.slot_lt i)] at hget
    rw [List.getElem_rotate, List.getElem_map, List.getElem_range, ← hget]
    congr 1
    rw [h.length, Nat.add_comm]

/-- The slots together are the values at the times of the ring. -/
theorem sum_slots (h : InRing N slots first start value) :
    slots.sum = ∑ t ∈ Finset.Ico start (start + N), value t := by
  have hlen : (start + (N : Int) - start).toNat = N := by omega
  rw [← (List.rotate_perm slots first).sum_eq, h.rotate_eq, Int.Ico_eq_finset_map, hlen,
    Finset.sum_map]
  rfl

/-- The slots together are the values at the last `N` times. -/
theorem sum_eq {now : Int} (h : InRing N slots first start value)
    (hspans : Spans N start now value) :
    slots.sum = ∑ t ∈ Finset.Ioc (now - N) now, value t := by
  have hstart := hspans.start_le
  have hnow := hspans.now_lt
  calc slots.sum = ∑ t ∈ Finset.Ico start (start + N), value t := h.sum_slots
    _ = ∑ t ∈ Finset.Icc start now, value t := by
      symm
      apply Finset.sum_subset
      · intro t ht
        rw [Finset.mem_Icc] at ht
        rw [Finset.mem_Ico]
        omega
      · intro t ht hnot
        rw [Finset.mem_Ico] at ht
        rw [Finset.mem_Icc] at hnot
        exact hspans.later t (by omega)
    _ = ∑ t ∈ Finset.Ioc (now - N) now, value t := by
      apply Finset.sum_subset
      · intro t ht
        rw [Finset.mem_Icc] at ht
        rw [Finset.mem_Ioc]
        omega
      · intro t ht hnot
        rw [Finset.mem_Ioc] at ht
        rw [Finset.mem_Icc] at hnot
        exact hspans.before t ht.1 (by omega)

end Sum

end InRing

namespace Spans

variable [Zero M] {N : Nat} {start now now' : Int} {value value' : Int → M}

/-- Where nothing is at any time. -/
theorem zero (hN : 0 < N) (hvalue : ∀ t, value t = 0) (now : Int) : Spans N now now value where
  start_le := Int.le_refl _
  now_lt := by omega
  later t _ := hvalue t
  before t _ _ := hvalue t

/-- A time that the ring has already. -/
theorem within (h : Spans N start now value) (hle : now ≤ now') (hlt : now' < start + N) :
    Spans N start now' value where
  start_le := h.start_le.trans hle
  now_lt := hlt
  later t ht := h.later t (hle.trans_lt ht)
  before t ht := h.before t (by omega)

/-- A time that becomes the last one of the ring. -/
theorem last (h : Spans N start now value) (hle : start + N ≤ now') :
    Spans N (now' - (N - 1)) now' value where
  start_le := by
    have hstart := h.start_le
    have hnow := h.now_lt
    omega
  now_lt := by omega
  later t ht := h.later t (by
    have hnow := h.now_lt
    omega)
  before t ht hlt := by omega

/-- A time that becomes the first one of the ring, when nothing is at the `N` times until it. -/
theorem only (h : Spans N start now value) (hle : now + N ≤ now') :
    Spans N now' now' value where
  start_le := Int.le_refl _
  now_lt := by
    have hstart := h.start_le
    have hnow := h.now_lt
    omega
  later t ht := h.later t (by omega)
  before t ht _ := h.later t (by omega)

/-- The value at the current time may be changed. -/
theorem congr (h : Spans N start now value) (hvalue : ∀ t, t ≠ now → value' t = value t) :
    Spans N start now value' where
  start_le := h.start_le
  now_lt := h.now_lt
  later t ht := by
    rw [hvalue t (by omega), h.later t ht]
  before t ht hlt := by
    have hstart := h.start_le
    rw [hvalue t (by omega), h.before t ht hlt]

end Spans

/-! ### What is added at times -/

section AddedAt

variable [AddCommMonoid M]

/-- What has been added at the times that meet a condition. -/
def addedAt (added : List (Int × M)) (p : Int → Prop) [DecidablePred p] : M :=
  ((added.filter fun a => p a.1).map Prod.snd).sum

variable (p : Int → Prop) [DecidablePred p]

theorem addedAt_nil : addedAt ([] : List (Int × M)) p = 0 := List.sum_nil

theorem addedAt_append (added : List (Int × M)) (t : Int) (a : M) :
    addedAt (added ++ [(t, a)]) p = addedAt added p + if p t then a else 0 := by
  rw [addedAt, addedAt, List.filter_append, List.map_append, List.sum_append]
  congr 1
  rw [List.filter_singleton]
  by_cases ht : p t
  · simp [ht]
  · simp [ht]

/-- What has been added in an interval is what has been added at each of its times. -/
theorem sum_addedAt (added : List (Int × M)) (first last : Int) :
    ∑ t ∈ Finset.Ioc first last, addedAt added (· = t) =
      addedAt added fun t => first < t ∧ t ≤ last := by
  induction added using List.reverseRecOn with
  | nil => exact Finset.sum_eq_zero fun t _ => addedAt_nil _
  | append_singleton added item ih =>
    obtain ⟨t, a⟩ := item
    rw [addedAt_append, ← ih, Finset.sum_congr rfl fun s _ => addedAt_append (· = s) added t a,
      Finset.sum_add_distrib, Finset.sum_ite_eq]
    congr 1
    simp only [Finset.mem_Ioc]

/-- Less has been added at fewer times. -/
theorem addedAt_mono [PartialOrder M] [IsOrderedAddMonoid M] {added : List (Int × M)}
    {p q : Int → Prop} [DecidablePred p] [DecidablePred q] (hnonneg : ∀ a ∈ added, 0 ≤ a.2)
    (hpq : ∀ a ∈ added, p a.1 → q a.1) : addedAt added p ≤ addedAt added q := by
  induction added using List.reverseRecOn with
  | nil => exact le_of_eq ((addedAt_nil p).trans (addedAt_nil q).symm)
  | append_singleton added item ih =>
    obtain ⟨t, a⟩ := item
    have hlast : (t, a) ∈ added ++ [(t, a)] := List.mem_append_right _ (List.mem_singleton_self _)
    rw [addedAt_append, addedAt_append]
    apply add_le_add
    · exact ih (fun b hb => hnonneg b (List.mem_append_left _ hb))
        fun b hb => hpq b (List.mem_append_left _ hb)
    · by_cases hp : p t
      · rw [if_pos hp, if_pos (hpq _ hlast hp)]
      · rw [if_neg hp]
        split
        · exact hnonneg _ hlast
        · exact le_refl _

theorem addedAt_nonneg [PartialOrder M] [IsOrderedAddMonoid M] {added : List (Int × M)}
    (hnonneg : ∀ a ∈ added, 0 ≤ a.2) : 0 ≤ addedAt added p := by
  apply List.sum_nonneg
  intro a ha
  obtain ⟨b, hb, rfl⟩ := List.mem_map.mp ha
  exact hnonneg b (List.mem_of_mem_filter hb)

end AddedAt

end Blacklink.Base
