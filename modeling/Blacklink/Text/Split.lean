import Mathlib.Data.List.Basic
import Mathlib.Data.List.TakeWhile

/-!
# Texts split at a character

What is before and behind the first and the last of a character in a text, and the same with the
positions that `std::string` has.
-/

namespace Blacklink.Text

variable {α : Type} [DecidableEq α]

/-- What is before and behind the first `c`. -/
def splitFirst (c : α) : List α → Option (List α × List α)
  | [] => none
  | b :: s => if b = c then some ([], s) else (splitFirst c s).map fun p => (b :: p.1, p.2)

/-- What is before and behind the last `c`. -/
def splitLast (c : α) : List α → Option (List α × List α)
  | [] => none
  | b :: s =>
    match splitLast c s with
    | some p => some (b :: p.1, p.2)
    | none => if b = c then some ([], s) else none

attribute [local simp] splitFirst splitLast

theorem splitFirst_append {c : α} {x : List α} (h : c ∉ x) (y : List α) :
    splitFirst c (x ++ c :: y) = some (x, y) := by
  induction x with
  | nil => exact if_pos rfl
  | cons b x ih =>
    rw [List.mem_cons, not_or] at h
    rw [List.cons_append, splitFirst, if_neg (Ne.symm h.1), ih h.2]
    rfl

theorem splitFirst_eq_none {c : α} {s : List α} (h : c ∉ s) : splitFirst c s = none := by
  induction s with
  | nil => rfl
  | cons b s ih =>
    rw [List.mem_cons, not_or] at h
    rw [splitFirst, if_neg (Ne.symm h.1), ih h.2]
    rfl

theorem splitLast_eq_none {c : α} {s : List α} (h : c ∉ s) : splitLast c s = none := by
  induction s with
  | nil => rfl
  | cons b s ih =>
    rw [List.mem_cons, not_or] at h
    rw [splitLast, ih h.2]
    exact if_neg (Ne.symm h.1)

theorem splitLast_append {c : α} (x : List α) {y : List α} (h : c ∉ y) :
    splitLast c (x ++ c :: y) = some (x, y) := by
  induction x with
  | nil =>
    rw [List.nil_append, splitLast, splitLast_eq_none h]
    exact if_pos rfl
  | cons b x ih => rw [List.cons_append, splitLast, ih]

/-- Nothing before the first `c` is one. -/
theorem splitFirst_eq_some {c : α} {s x y : List α} (h : splitFirst c s = some (x, y)) :
    s = x ++ c :: y ∧ c ∉ x := by
  induction s generalizing x with
  | nil => cases h
  | cons b s ih =>
    rw [splitFirst] at h
    split at h
    · next hb =>
      injection h with h
      injection h with hx hy
      subst hx hy hb
      exact ⟨rfl, List.not_mem_nil⟩
    · next hb =>
      obtain ⟨p, hp, heq⟩ := Option.map_eq_some_iff.mp h
      injection heq with hx hy
      subst hx hy
      obtain ⟨hs, hnot⟩ := ih (x := p.1) hp
      exact ⟨congrArg _ hs, by simp [Ne.symm hb, hnot]⟩

/-- Nothing behind the last `c` is one. -/
theorem splitLast_eq_some {c : α} {s x y : List α} (h : splitLast c s = some (x, y)) :
    s = x ++ c :: y ∧ c ∉ y := by
  by_cases hc : c ∈ s
  · obtain ⟨y', x', hs, hnot⟩ := List.eq_append_cons_of_mem (List.mem_reverse.mpr hc)
    have hs' : s = x'.reverse ++ c :: y'.reverse := by
      rw [← List.reverse_reverse s, hs]
      simp
    have hnot' : c ∉ y'.reverse := fun h => hnot (List.mem_reverse.mp h)
    rw [hs', splitLast_append _ hnot'] at h
    cases h
    exact ⟨hs', hnot'⟩
  · rw [splitLast_eq_none hc] at h
    cases h

theorem not_mem_of_splitLast {c : α} {s : List α} (h : splitLast c s = none) : c ∉ s := by
  induction s with
  | nil => exact List.not_mem_nil
  | cons b s ih =>
    rw [splitLast] at h
    split at h
    · cases h
    · next hs =>
      split at h
      · cases h
      · next hb =>
        rw [List.mem_cons, not_or]
        exact ⟨Ne.symm hb, ih hs⟩

/-- What does not have the character is at the beginning only if it is before the first. -/
theorem isPrefixOf_append_cons {c : α} {u : List α} (h : c ∉ u) (x y : List α) :
    u.isPrefixOf (x ++ c :: y) = u.isPrefixOf x := by
  induction u generalizing x with
  | nil => rfl
  | cons a u ih =>
    rw [List.mem_cons, not_or] at h
    cases x with
    | nil => simp [List.isPrefixOf, Ne.symm h.1]
    | cons b x =>
      rw [List.cons_append, List.isPrefixOf, ih h.2]
      rfl

/-! ### Positions -/

/-- `find(c, i)`. -/
def find (s : List α) (c : α) (i : Nat) : Option Nat := ((s.drop i).findIdx? (· = c)).map (i + ·)

/-- `find_first_of(cs, i)`. -/
def findFirstOf (s cs : List α) (i : Nat) : Option Nat :=
  ((s.drop i).findIdx? (· ∈ cs)).map (i + ·)

/-- `find(u)`. -/
def findText (u : List α) : List α → Option Nat
  | [] => if u = [] then some 0 else none
  | b :: s => if u.isPrefixOf (b :: s) then some 0 else (findText u s).map (· + 1)

/-- `rfind(u)`. -/
def rfind (u : List α) : List α → Option Nat
  | [] => if u = [] then some 0 else none
  | b :: s =>
    match rfind u s with
    | some i => some (i + 1)
    | none => if u.isPrefixOf (b :: s) then some 0 else none

/-- `substr(i, j - i)`, which is all from `i` on when `j` is before that. -/
def substr (s : List α) (i j : Nat) : List α :=
  if i ≤ j then (s.drop i).take (j - i) else s.drop i

/-- The first `c` from a position on is behind what has none. -/
theorem find_eq_some {s p m r : List α} {c : α} {i : Nat} (hs : s = p ++ (m ++ c :: r))
    (hi : i = p.length) (h : c ∉ m) : find s c i = some (i + m.length) := by
  have hindex : (m ++ c :: r).findIdx? (· = c) = some m.length := by
    rw [List.findIdx?_append, List.findIdx?_eq_none_iff.mpr, Option.none_or, List.findIdx?_cons]
    · simp
    · intro a ha
      rw [decide_eq_false_iff_not]
      rintro rfl
      exact h ha
  rw [find, hs, hi, List.drop_left, hindex]
  rfl

theorem find_eq_none {s p m : List α} {c : α} {i : Nat} (hs : s = p ++ m) (hi : i = p.length)
    (h : c ∉ m) : find s c i = none := by
  rw [find, hs, hi, List.drop_left, List.findIdx?_eq_none_iff.mpr]
  · rfl
  · intro a ha
    rw [decide_eq_false_iff_not]
    rintro rfl
    exact h ha

/-- What is found is not in what has none. -/
theorem le_of_find {s p m r : List α} {c : α} {i j : Nat} (hs : s = p ++ (m ++ r))
    (hi : i = p.length) (h : c ∉ m) (hj : find s c i = some j) : i + m.length ≤ j := by
  obtain ⟨k, hk, rfl⟩ := Option.map_eq_some_iff.mp hj
  rw [hs, hi, List.drop_left, List.findIdx?_append, List.findIdx?_eq_none_iff.mpr,
    Option.none_or] at hk
  · obtain ⟨n, -, rfl⟩ := Option.map_eq_some_iff.mp hk
    omega
  · intro a ha
    rw [decide_eq_false_iff_not]
    rintro rfl
    exact h ha

/-- The first of the characters is behind what has none of them. -/
theorem findFirstOf_eq_some {s cs p m r : List α} {c : α} {i : Nat} (hs : s = p ++ (m ++ c :: r))
    (hi : i = p.length) (h : ∀ a ∈ m, a ∉ cs) (hc : c ∈ cs) :
    findFirstOf s cs i = some (i + m.length) := by
  have hindex : (m ++ c :: r).findIdx? (· ∈ cs) = some m.length := by
    rw [List.findIdx?_append, List.findIdx?_eq_none_iff.mpr, Option.none_or, List.findIdx?_cons]
    · simp [hc]
    · intro a ha
      rw [decide_eq_false_iff_not]
      exact h a ha
  rw [findFirstOf, hs, hi, List.drop_left, hindex]
  rfl

theorem findFirstOf_eq_none {s cs p m : List α} {i : Nat} (hs : s = p ++ m) (hi : i = p.length)
    (h : ∀ a ∈ m, a ∉ cs) : findFirstOf s cs i = none := by
  rw [findFirstOf, hs, hi, List.drop_left, List.findIdx?_eq_none_iff.mpr]
  · rfl
  · intro a ha
    rw [decide_eq_false_iff_not]
    exact h a ha

/-- The first of a text is the one before which its first character is not. -/
theorem findText_eq_some {s p u r : List α} {c : α} (hs : s = p ++ (c :: u ++ r)) (hp : c ∉ p) :
    findText (c :: u) s = some p.length := by
  subst hs
  induction p with
  | nil =>
    have hpre : (c :: u).isPrefixOf (c :: (u ++ r)) = true :=
      List.isPrefixOf_iff_prefix.mpr ⟨r, rfl⟩
    rw [List.nil_append, List.cons_append, findText]
    exact if_pos hpre
  | cons b p ih =>
    rw [List.mem_cons, not_or] at hp
    rw [List.cons_append, findText, ih hp.2, List.isPrefixOf, beq_eq_false_iff_ne.mpr hp.1,
      Bool.false_and, if_neg Bool.false_ne_true]
    rfl

omit [DecidableEq α] in
theorem substr_eq {s p m r : List α} {i j : Nat} (hs : s = p ++ (m ++ r)) (hi : i = p.length)
    (hj : j = i + m.length) : substr s i j = m := by
  rw [substr, if_pos (by omega), hs, hi, List.drop_left, hj, hi, Nat.add_sub_cancel_left,
    List.take_left]

/-- What begins with a character that there is not, is not there. -/
theorem rfind_eq_none {c : α} {u s : List α} (h : c ∉ s) : rfind (c :: u) s = none := by
  induction s with
  | nil => rfl
  | cons b s ih =>
    rw [List.mem_cons, not_or] at h
    rw [rfind, ih h.2]
    dsimp only
    rw [List.isPrefixOf, beq_eq_false_iff_ne.mpr h.1, Bool.false_and, if_neg Bool.false_ne_true]

/-- The last of a text is the one behind which its first character is not. -/
theorem rfind_eq_some {s p u r : List α} {c : α} (hs : s = p ++ (c :: u ++ r)) (hu : c ∉ u)
    (hr : c ∉ r) : rfind (c :: u) s = some p.length := by
  subst hs
  induction p with
  | nil =>
    have hnone : rfind (c :: u) (u ++ r) = none := by
      apply rfind_eq_none
      rw [List.mem_append, not_or]
      exact ⟨hu, hr⟩
    have hpre : (c :: u).isPrefixOf (c :: (u ++ r)) = true :=
      List.isPrefixOf_iff_prefix.mpr ⟨r, rfl⟩
    rw [List.nil_append, List.cons_append, rfind, hnone]
    exact if_pos hpre
  | cons b p ih => rw [List.cons_append, rfind, ih, List.length_cons]

end Blacklink.Text
