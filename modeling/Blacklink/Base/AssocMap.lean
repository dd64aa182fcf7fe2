import Mathlib.Data.List.AList

/-!
# Maps over the values of an association list

Association lists without repeated keys whose values have one type, and the operation that changes
each value or takes its entry away.
-/

namespace Blacklink.Base

variable {κ α β : Type*}

/-- An entry with the value changed, or nothing. -/
def mapEntry (f : α → Option β) (i : Sigma fun _ : κ => α) : Option (Sigma fun _ : κ => β) :=
  (f i.2).map (⟨i.1, ·⟩)

theorem mapEntry_eq_some_iff {f : α → Option β} {i : Sigma fun _ : κ => α} {k : κ} {b : β} :
    mapEntry f i = some ⟨k, b⟩ ↔ i.1 = k ∧ f i.2 = some b := by
  unfold mapEntry
  rw [Option.map_eq_some_iff]
  constructor
  · rintro ⟨_, hb, heq⟩
    cases heq
    exact ⟨rfl, hb⟩
  · rintro ⟨rfl, hb⟩
    exact ⟨b, hb, rfl⟩

/-- The keys that are left are in their order. -/
theorem keys_filterMap_sublist (f : α → Option β) (l : List (Sigma fun _ : κ => α)) :
    (l.filterMap (mapEntry f)).keys.Sublist l.keys := by
  induction l with
  | nil => exact List.Sublist.slnil
  | cons i l ih =>
    rw [List.keys_cons]
    cases h : mapEntry f i with
    | none =>
      rw [List.filterMap_cons_none h]
      exact ih.cons _
    | some j =>
      rw [List.filterMap_cons_some h, List.keys_cons, ← (mapEntry_eq_some_iff.mp h).1]
      exact ih.cons_cons _

/-- Every value changed by `f`; the entries for which it gives nothing are taken away. -/
def filterMapValues (f : α → Option β) (s : AList fun _ : κ => α) : AList fun _ : κ => β :=
  ⟨s.entries.filterMap (mapEntry f), List.Nodup.sublist (keys_filterMap_sublist f _) s.nodupKeys⟩

variable [DecidableEq κ]

@[simp] theorem lookup_filterMapValues (f : α → Option β) (s : AList fun _ : κ => α) (k : κ) :
    (filterMapValues f s).lookup k = (s.lookup k).bind f := by
  ext b
  rw [← Option.mem_def, AList.mem_lookup_iff, Option.bind_eq_some_iff]
  change _ ∈ s.entries.filterMap (mapEntry f) ↔ _
  constructor
  · intro h
    obtain ⟨i, hi, heq⟩ := List.mem_filterMap.mp h
    obtain ⟨rfl, hb⟩ := mapEntry_eq_some_iff.mp heq
    exact ⟨i.2, AList.mem_lookup_iff.mpr hi, hb⟩
  · rintro ⟨a, ha, hb⟩
    have hentry : mapEntry f ⟨k, a⟩ = some ⟨k, b⟩ := mapEntry_eq_some_iff.mpr ⟨rfl, hb⟩
    exact List.mem_filterMap.mpr ⟨⟨k, a⟩, AList.mem_lookup_iff.mp ha, hentry⟩

/-! ### Counting values -/

/-- How many values have the property. -/
def countValues (p : α → Bool) (s : AList fun _ : κ => α) : Nat := s.entries.countP fun i => p i.2

private theorem countP_kerase (p : α → Bool) (k : κ) (l : List (Sigma fun _ : κ => α)) :
    (l.kerase k).countP (fun i => p i.2) + (if (l.dlookup k).any p then 1 else 0) =
      l.countP fun i => p i.2 := by
  induction l with
  | nil => rfl
  | cons i l ih =>
    obtain ⟨k', a⟩ := i
    by_cases hk : k = k'
    · have herase : List.kerase k (⟨k', a⟩ :: l) = l := List.kerase_cons_eq hk
      rw [herase, hk, List.dlookup_cons_eq, List.countP_cons]
      rfl
    · have herase : List.kerase k (⟨k', a⟩ :: l) = ⟨k', a⟩ :: l.kerase k := List.kerase_cons_ne hk
      have hlookup : List.dlookup k (⟨k', a⟩ :: l) = l.dlookup k := List.dlookup_cons_ne _ _ hk
      rw [herase, hlookup, List.countP_cons, List.countP_cons]
      omega

/-- A new value is counted, and the one in whose place it is put is not any more. -/
theorem countValues_insert (p : α → Bool) (s : AList fun _ : κ => α) (k : κ) (a : α) :
    countValues p (s.insert k a) + (if (s.lookup k).any p then 1 else 0) =
      countValues p s + (if p a then 1 else 0) := by
  have herase := countP_kerase p k s.entries
  have hcons : countValues p (s.insert k a) =
      (s.entries.kerase k).countP (fun i => p i.2) + (if p a then 1 else 0) := by
    rw [countValues, AList.entries_insert, List.countP_cons]
  rw [hcons, AList.lookup, countValues]
  omega

omit [DecidableEq κ] in
/-- The values are those that are left and those that are taken away. -/
theorem countValues_filterMapValues {f : α → Option α} {p : α → Bool}
    (hf : ∀ a b, f a = some b → p b = p a) (s : AList fun _ : κ => α) :
    countValues p (filterMapValues f s) + countValues (fun a => p a && (f a).isNone) s =
      countValues p s := by
  change (s.entries.filterMap (mapEntry f)).countP (fun i => p i.2) +
    s.entries.countP (fun i => p i.2 && (f i.2).isNone) = s.entries.countP fun i => p i.2
  induction s.entries with
  | nil => rfl
  | cons i l ih =>
    rw [List.countP_cons, List.countP_cons]
    cases h : f i.2 with
    | none =>
      have hentry : mapEntry f i = none := by rw [mapEntry, h, Option.map_none]
      rw [List.filterMap_cons_none hentry, Option.isNone_none, Bool.and_true]
      omega
    | some b =>
      have hentry : mapEntry f i = some ⟨i.1, b⟩ := mapEntry_eq_some_iff.mpr ⟨rfl, h⟩
      rw [List.filterMap_cons_some hentry, List.countP_cons, hf i.2 b h, Option.isNone_some,
        Bool.and_false]
      simp only [Bool.false_eq_true, if_false]
      omega

end Blacklink.Base
