import Mathlib.Data.List.Perm.Subperm
import Mathlib.Data.List.Sort

/-!
# The smallest entries seen

An ordered map that holds at most so many entries, those with the smallest keys of all that were
offered to it. It is a list in the order of the keys; while there is room an entry is inserted, and
behind that only in place of the last one, when its key is smaller. The entries that are held do not
depend on the order in which they came.
-/

namespace Blacklink.Base

variable {κ ν : Type*} [LT κ] [DecidableLT κ] [DecidableEq κ]

/-- `std::map::insert`, which does nothing where the key is. -/
def insertKey (k : κ) (v : ν) : List (κ × ν) → List (κ × ν)
  | [] => [(k, v)]
  | e :: m =>
    if k < e.1 then (k, v) :: e :: m
    else if e.1 < k then e :: insertKey k v m
    else e :: m

/-- `std::map::erase`. -/
def eraseKey (k : κ) (m : List (κ × ν)) : List (κ × ν) := m.filter fun e => e.1 ≠ k

/-- An entry is offered to a map with room for `max` entries. -/
def offer (max : Nat) (m : List (κ × ν)) (e : κ × ν) : List (κ × ν) :=
  if m.length < max then insertKey e.1 e.2 m
  else
    match m.getLast? with
    | none => m
    | some last => if e.1 < last.1 then insertKey e.1 e.2 (eraseKey last.1 m) else m

/-- The keys are in order. -/
def InOrder (m : List (κ × ν)) : Prop := m.Pairwise fun a b => a.1 < b.1

/-- The map holds the entries with the smallest keys of all, and as many as there is room for. -/
structure Smallest (max : Nat) (all m : List (κ × ν)) : Prop where
  inOrder : InOrder m
  length_le : m.length ≤ max
  exists_rest : ∃ rest, (m ++ rest).Perm all ∧ (rest ≠ [] → m.length = max) ∧
    ∀ e ∈ m, ∀ f ∈ rest, e.1 < f.1

omit [DecidableLT κ] [DecidableEq κ] in
theorem smallest_nil (max : Nat) : Smallest max ([] : List (κ × ν)) [] :=
  ⟨.nil, Nat.zero_le max, [], .nil, fun h => absurd rfl h, by simp⟩

section Order

variable [Std.Irrefl fun a b : κ => a < b]
  [Trans (fun a b : κ => a < b) (fun a b : κ => a < b) (fun a b : κ => a < b)]
  [Std.Trichotomous fun a b : κ => a < b] {m : List (κ × ν)} {k : κ} {v : ν}

omit [DecidableEq κ] [Std.Irrefl fun a b : κ => a < b]
  [Trans (fun a b : κ => a < b) (fun a b : κ => a < b) (fun a b : κ => a < b)] in
/-- A new key adds its entry. -/
theorem insertKey_perm (hk : k ∉ m.map Prod.fst) : (insertKey k v m).Perm ((k, v) :: m) := by
  induction m with
  | nil => exact .refl _
  | cons e m ih =>
    rw [List.map_cons, List.mem_cons, not_or] at hk
    rw [insertKey]
    split
    · exact .refl _
    · next hlt =>
      have hgt : e.1 < k :=
        (Std.lt_trichotomy k e.1).resolve_left hlt |>.resolve_left hk.1
      rw [if_pos hgt]
      exact ((ih hk.2).cons e).trans (.swap _ _ _)

omit [DecidableEq κ] [Std.Irrefl fun a b : κ => a < b] in
theorem inOrder_insertKey (hm : InOrder m) (hk : k ∉ m.map Prod.fst) :
    InOrder (insertKey k v m) := by
  induction m with
  | nil => exact List.pairwise_singleton _ _
  | cons e m ih =>
    rw [List.map_cons, List.mem_cons, not_or] at hk
    obtain ⟨he, hm⟩ := List.pairwise_cons.mp hm
    rw [insertKey]
    split
    · next hlt =>
      refine List.pairwise_cons.mpr ⟨?_, List.pairwise_cons.mpr ⟨he, hm⟩⟩
      intro f hf
      rcases List.mem_cons.mp hf with rfl | hf
      · exact hlt
      · exact Std.lt_trans hlt (he f hf)
    · next hlt =>
      have hgt : e.1 < k :=
        (Std.lt_trichotomy k e.1).resolve_left hlt |>.resolve_left hk.1
      rw [if_pos hgt]
      refine List.pairwise_cons.mpr ⟨?_, ih hm hk.2⟩
      intro f hf
      rcases List.mem_cons.mp ((insertKey_perm hk.2).mem_iff.mp hf) with rfl | hf
      · exact hgt
      · exact he f hf

omit [Trans (fun a b : κ => a < b) (fun a b : κ => a < b) (fun a b : κ => a < b)]
  [Std.Trichotomous fun a b : κ => a < b] [DecidableLT κ] in
/-- The last entry goes. -/
theorem eraseKey_last {init : List (κ × ν)} {last : κ × ν} (hm : InOrder (init ++ [last])) :
    eraseKey last.1 (init ++ [last]) = init := by
  have hlt := (List.pairwise_append.mp hm).2.2
  rw [eraseKey, List.filter_append, List.filter_eq_self.mpr, List.filter_eq_nil_iff.mpr,
    List.append_nil]
  · intro e he
    simp [List.mem_singleton.mp he]
  · intro e he
    rw [decide_eq_true_eq]
    intro heq
    have := hlt e he last (List.mem_singleton_self last)
    rw [heq] at this
    exact Std.lt_irrefl this

/-- What is offered is held if it is among the smallest. -/
theorem Smallest.offer {max : Nat} {all : List (κ × ν)} (h : Smallest max all m) (hmax : 1 ≤ max)
    {e : κ × ν} (hkey : e.1 ∉ all.map Prod.fst) :
    Smallest max (e :: all) (Base.offer max m e) := by
  obtain ⟨hm, hlen, rest, hperm, hrest, hlt⟩ := h
  have hnew : ∀ f ∈ m, f ∈ all := fun f hf => hperm.mem_iff.mp (List.mem_append_left _ hf)
  have hk : ∀ m' : List (κ × ν), m' ⊆ m → e.1 ∉ m'.map Prod.fst := by
    intro m' hsub hmem
    obtain ⟨f, hf, heq⟩ := List.mem_map.mp hmem
    exact hkey (List.mem_map.mpr ⟨f, hnew f (hsub hf), heq⟩)
  unfold Base.offer
  split
  · next hroom =>
    have hnil : rest = [] := by
      by_contra hne
      exact absurd (hrest hne) (Nat.ne_of_lt hroom)
    subst hnil
    rw [List.append_nil] at hperm
    have hins := insertKey_perm (v := e.2) (hk m (List.Subset.refl m))
    refine ⟨inOrder_insertKey hm (hk m (List.Subset.refl m)), ?_, [], ?_,
      fun h => absurd rfl h, by simp⟩
    · rw [hins.length_eq, List.length_cons]
      exact hroom
    · rw [List.append_nil]
      exact hins.trans (hperm.cons e)
  · next hfull =>
    obtain ⟨init, last, rfl⟩ := List.eq_nil_or_concat m |>.resolve_left fun hnil => by
      rw [hnil, List.length_nil] at hfull
      exact hfull hmax
    rw [List.concat_eq_append] at hm hlen hperm hrest hlt hnew hk hfull ⊢
    rw [List.getLast?_append_cons, List.getLast?_singleton]
    dsimp only
    have hlast := (List.pairwise_append.mp hm).2.2
    split
    · next hcloser =>
      rw [eraseKey_last hm]
      have hsub : init ⊆ init ++ [last] := List.subset_append_left _ _
      have hins := insertKey_perm (v := e.2) (hk init hsub)
      refine ⟨inOrder_insertKey (List.pairwise_append.mp hm).1 (hk init hsub), ?_, last :: rest, ?_,
        fun _ => ?_, ?_⟩
      · rw [hins.length_eq, List.length_cons]
        rwa [List.length_append] at hlen
      · refine (hins.append_right (last :: rest)).trans ?_
        have hswap : init ++ last :: rest = init ++ [last] ++ rest := by simp
        rw [List.cons_append, hswap]
        exact hperm.cons e
      · rw [hins.length_eq, List.length_cons]
        rw [List.length_append, List.length_singleton] at hlen hfull
        omega
      · intro f hf g hg
        have hflast : f.1 < last.1 := by
          rcases List.mem_cons.mp (hins.mem_iff.mp hf) with rfl | hf
          · exact hcloser
          · exact hlast f hf last (List.mem_singleton_self last)
        rcases List.mem_cons.mp hg with rfl | hg
        · exact hflast
        · exact Std.lt_trans hflast
            (hlt last (List.mem_append_right _ (List.mem_singleton_self last)) g hg)
    · next hfar =>
      have hlastE : last.1 < e.1 := by
        rcases Std.lt_trichotomy e.1 last.1 with hlt | heq | hgt
        · exact absurd hlt hfar
        · refine absurd ?_ (hk (init ++ [last]) (List.Subset.refl _))
          exact List.mem_map.mpr ⟨last, List.mem_append_right _ (List.mem_singleton_self last),
            heq.symm⟩
        · exact hgt
      refine ⟨hm, hlen, e :: rest, ?_, fun _ => by omega, ?_⟩
      · exact List.perm_middle.trans (hperm.cons e)
      · intro f hf g hg
        rcases List.mem_cons.mp hg with rfl | hg
        · rcases List.mem_append.mp hf with hf | hf
          · exact Std.lt_trans (hlast f hf last (List.mem_singleton_self last)) hlastE
          · rw [List.mem_singleton.mp hf]
            exact hlastE
        · exact hlt f hf g hg

/-- The entries that have been offered to an empty map. -/
theorem smallest_foldl {max : Nat} (hmax : 1 ≤ max) {all : List (κ × ν)}
    (hkeys : (all.map Prod.fst).Nodup) : Smallest max all (all.foldl (Base.offer max) []) := by
  have key : ∀ (es seen m : List (κ × ν)), Smallest max seen m →
      ((seen ++ es).map Prod.fst).Nodup → Smallest max (seen ++ es) (es.foldl (Base.offer max) m) := by
    intro es
    induction es with
    | nil =>
      intro seen m h _
      rwa [List.append_nil]
    | cons e es ih =>
      intro seen m h hnodup
      have hperm : (seen ++ e :: es).Perm (e :: seen ++ es) := List.perm_middle
      have hnodup' := (hperm.map Prod.fst).nodup_iff.mp hnodup
      have hkey : e.1 ∉ seen.map Prod.fst := by
        rw [List.cons_append, List.map_cons, List.nodup_cons, List.map_append] at hnodup'
        exact fun hmem => hnodup'.1 (List.mem_append_left _ hmem)
      obtain ⟨hm, hlen, rest, hrest, hfull, hlt⟩ := ih (e :: seen) _ (h.offer hmax hkey) hnodup'
      exact ⟨hm, hlen, rest, hrest.trans hperm.symm, hfull, hlt⟩
  exact key all [] [] (smallest_nil max) hkeys

end Order

/-! ### What the map holds -/

section Holds

omit [DecidableLT κ] [DecidableEq κ]

variable {max : Nat} {all m : List (κ × ν)}

theorem Smallest.length_eq (h : Smallest max all m) : m.length = min max all.length := by
  obtain ⟨hm, hlen, rest, hperm, hrest, hlt⟩ := h
  have hall := hperm.length_eq
  rw [List.length_append] at hall
  by_cases hnil : rest = []
  · rw [hnil, List.length_nil] at hall
    omega
  · have := hrest hnil
    omega

theorem Smallest.mem (h : Smallest max all m) {e : κ × ν} (he : e ∈ m) : e ∈ all := by
  obtain ⟨hm, hlen, rest, hperm, hrest, hlt⟩ := h
  exact hperm.mem_iff.mp (List.mem_append_left _ he)

/-- What is not held has a larger key than all that is. -/
theorem Smallest.lt (h : Smallest max all m) {e f : κ × ν} (he : e ∈ m) (hf : f ∈ all)
    (hnot : f ∉ m) : e.1 < f.1 := by
  obtain ⟨hm, hlen, rest, hperm, hrest, hlt⟩ := h
  exact hlt e he f ((List.mem_append.mp (hperm.mem_iff.mpr hf)).resolve_left hnot)

variable [Std.Irrefl fun a b : κ => a < b]
  [Trans (fun a b : κ => a < b) (fun a b : κ => a < b) (fun a b : κ => a < b)]

omit [Trans (fun a b : κ => a < b) (fun a b : κ => a < b) (fun a b : κ => a < b)] in
theorem InOrder.nodup (h : InOrder m) : m.Nodup :=
  h.imp fun hlt heq => by
    rw [heq] at hlt
    exact Std.lt_irrefl hlt

/-- Maps in the order of their keys with the same entries are equal. -/
theorem InOrder.eq_of_subset {m' : List (κ × ν)} (h : InOrder m) (h' : InOrder m')
    (hsub : m ⊆ m') (hlen : m'.length ≤ m.length) : m = m' := by
  have hperm : m.Perm m' := (List.subperm_of_subset h.nodup hsub).perm_of_length_le hlen
  exact hperm.eq_of_pairwise
    (fun a b _ _ hab hba => absurd (Std.lt_trans hab hba) Std.lt_irrefl) h h'

/-- What is held is determined by what was offered, in whatever order. -/
theorem Smallest.unique {all' m' : List (κ × ν)} (h : Smallest max all m)
    (h' : Smallest max all' m') (hall : all.Perm all') : m = m' := by
  have hlen : m'.length = m.length := by
    rw [h.length_eq, h'.length_eq, hall.length_eq]
  apply h.inOrder.eq_of_subset h'.inOrder ?_ (Nat.le_of_eq hlen)
  by_contra hsub
  obtain ⟨e, he, hnot⟩ : ∃ e ∈ m, e ∉ m' := by
    simpa [List.subset_def] using hsub
  -- then `m'` has an entry that is not in `m`, and each of the two has a smaller key
  obtain ⟨f, hf, hnot'⟩ : ∃ f ∈ m', f ∉ m := by
    by_contra hall'
    push Not at hall'
    exact hnot (h'.inOrder.eq_of_subset h.inOrder hall' (Nat.le_of_eq hlen.symm) ▸ he)
  have hef := h.lt he (hall.mem_iff.mpr (h'.mem hf)) hnot'
  have hfe := h'.lt hf (hall.mem_iff.mp (h.mem he)) hnot
  exact Std.lt_irrefl (Std.lt_trans hef hfe)

end Holds

end Blacklink.Base
