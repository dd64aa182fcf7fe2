import Mathlib.Algebra.BigOperators.Group.List.Basic
import Mathlib.Algebra.Group.Basic
import Mathlib.Data.List.AList
import Mathlib.Tactic.Abel

/-!
# Sums over what a table refers to

A table maps keys to references, and the values are elsewhere: a value is changed without the table,
and it is still there when no entry refers to it any more. The laws say what the sum over the
entries becomes when an entry is added or taken away and when a value is changed.
-/

namespace Blacklink.Base

variable {κ ρ M : Type*}

/-- What the entries of a table refer to. -/
def refs (t : AList fun _ : κ => ρ) : List ρ := t.entries.map Sigma.snd

theorem mem_refs_iff [DecidableEq κ] {t : AList fun _ : κ => ρ} {p : ρ} :
    p ∈ refs t ↔ ∃ k, t.lookup k = some p := by
  rw [refs, List.mem_map]
  constructor
  · rintro ⟨e, he, rfl⟩
    exact ⟨e.1, AList.mem_lookup_iff.mpr he⟩
  · rintro ⟨k, hk⟩
    exact ⟨⟨k, p⟩, AList.mem_lookup_iff.mp hk, rfl⟩

theorem refs_insert [DecidableEq κ] {t : AList fun _ : κ => ρ} {k : κ} (h : t.lookup k = none)
    (p : ρ) : refs (t.insert k p) = p :: refs t := by
  rw [refs, AList.entries_insert_of_notMem (AList.lookup_eq_none.mp h)]
  rfl

/-- The references are the one that is taken away and those that are left. -/
theorem refs_erase [DecidableEq κ] {t : AList fun _ : κ => ρ} {k : κ} {p : ρ}
    (h : t.lookup k = some p) : (refs t).Perm (p :: refs (t.erase k)) := by
  have hmem := AList.mem_lookup_iff.mp h
  obtain ⟨q, l₁, l₂, hkeys, heq, herase⟩ :=
    List.exists_of_kerase (List.mem_keys_of_mem hmem)
  have hq : q = p := by
    apply List.NodupKeys.eq_of_mk_mem t.nodupKeys _ hmem
    rw [heq]
    simp
  have hleft : (t.erase k).entries = l₁ ++ l₂ := herase
  rw [refs, refs, hleft, heq, hq, List.map_append, List.map_cons, List.map_append]
  exact List.perm_middle

section

variable [AddCommGroup M] (v : ρ → M)

/-- The sum of the values over the entries. -/
def tableSum (t : AList fun _ : κ => ρ) : M := ((refs t).map v).sum

theorem tableSum_insert [DecidableEq κ] {t : AList fun _ : κ => ρ} {k : κ}
    (h : t.lookup k = none) (p : ρ) : tableSum v (t.insert k p) = v p + tableSum v t := by
  rw [tableSum, refs_insert h, List.map_cons, List.sum_cons]
  rfl

theorem tableSum_erase [DecidableEq κ] {t : AList fun _ : κ => ρ} {k : κ} {p : ρ}
    (h : t.lookup k = some p) : tableSum v (t.erase k) = tableSum v t - v p := by
  have hsum : tableSum v t = v p + tableSum v (t.erase k) :=
    ((refs_erase h).map v).sum_eq
  rw [hsum, add_sub_cancel_left]

/-- Only the values that are referred to count. -/
theorem tableSum_congr {v w : ρ → M} {t : AList fun _ : κ => ρ} (h : ∀ p ∈ refs t, v p = w p) :
    tableSum v t = tableSum w t :=
  congrArg List.sum (List.map_congr_left h)

/-- One value is changed and one entry refers to it. -/
theorem tableSum_update [DecidableEq ρ] {t : AList fun _ : κ => ρ} {p : ρ} (h : (refs t).Nodup)
    (hp : p ∈ refs t) (x : M) :
    tableSum (Function.update v p x) t = tableSum v t + (x - v p) := by
  unfold tableSum
  generalize refs t = l at h hp
  induction l with
  | nil => cases hp
  | cons q l ih =>
    rw [List.map_cons, List.sum_cons, List.map_cons, List.sum_cons]
    rw [List.nodup_cons] at h
    by_cases hq : p = q
    · have hrest : l.map (Function.update v p x) = l.map v := by
        apply List.map_congr_left
        intro r hr
        apply Function.update_of_ne
        rintro rfl
        exact h.1 (hq ▸ hr)
      rw [hrest, ← hq, Function.update_self]
      abel
    · rw [Function.update_of_ne (Ne.symm hq), ih h.2 ((List.mem_cons.mp hp).resolve_left hq)]
      abel

end

end Blacklink.Base
