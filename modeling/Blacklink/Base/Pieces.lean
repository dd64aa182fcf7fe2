import Mathlib.Data.List.Basic
import Mathlib.Data.Nat.Basic

/-!
# Cutting a list into consecutive pieces

`pieces n l` cuts `l` into consecutive pieces of `n` elements, the last one possibly shorter.
The empty list is one empty piece, so there is always a last piece: this is the cut made by a
loop that handles a piece before it tests whether anything is left.
-/

namespace Blacklink.Base

variable {α β : Type*}

/-- The consecutive `n`-element pieces of the list; the last one may be shorter. -/
def pieces (n : Nat) (l : List α) : List (List α) :=
  if 0 < n ∧ n < l.length then l.take n :: pieces n (l.drop n) else [l]
termination_by l.length
decreasing_by simp; omega

theorem pieces_of_length_le {n : Nat} {l : List α} (h : l.length ≤ n) : pieces n l = [l] := by
  rw [pieces, if_neg (by omega)]

theorem pieces_of_lt {n : Nat} {l : List α} (hn : 0 < n) (h : n < l.length) :
    pieces n l = l.take n :: pieces n (l.drop n) := by
  rw [pieces, if_pos ⟨hn, h⟩]

/-- A full piece in front of a non-empty rest. -/
theorem pieces_append {n : Nat} {l m : List α} (hn : 0 < n) (hl : l.length = n) (hm : m ≠ []) :
    pieces n (l ++ m) = l :: pieces n m := by
  have hpos := List.length_pos_iff.mpr hm
  rw [pieces_of_lt hn (by rw [List.length_append]; omega), List.take_left' hl, List.drop_left' hl]

theorem pieces_ne_nil (n : Nat) (l : List α) : pieces n l ≠ [] := by
  rw [pieces]
  split <;> simp

/-- The pieces put together again. -/
@[simp] theorem flatten_pieces (n : Nat) (l : List α) : (pieces n l).flatten = l := by
  induction l using pieces.induct (n := n) with
  | case1 l h ih =>
    rw [pieces_of_lt h.1 h.2, List.flatten_cons, ih, List.take_append_drop]
  | case2 l h => rw [pieces, if_neg h]; simp

/-- Cutting commutes with mapping the elements. -/
theorem pieces_map (f : α → β) (n : Nat) (l : List α) :
    pieces n (l.map f) = (pieces n l).map (List.map f) := by
  induction l using pieces.induct (n := n) with
  | case1 l h ih =>
    rw [pieces_of_lt h.1 h.2, pieces_of_lt h.1 (by simpa using h.2), List.map_cons, ← ih,
      List.map_take, List.map_drop]
  | case2 l h =>
    rw [pieces, if_neg (by simpa using h), pieces, if_neg h]
    rfl

/-- How many pieces there are; the empty list is one piece. -/
theorem length_pieces {n : Nat} (hn : 0 < n) (l : List α) :
    (pieces n l).length = max 1 ((l.length + n - 1) / n) := by
  induction l using pieces.induct (n := n) with
  | case1 l h ih =>
    have hlen : l.length + n - 1 = l.length - n + n - 1 + n := by omega
    rw [pieces_of_lt h.1 h.2, List.length_cons, ih, List.length_drop, hlen,
      Nat.add_div_right _ hn]
    have hge : 1 ≤ (l.length - n + n - 1) / n := by
      rw [Nat.le_div_iff_mul_le hn]
      omega
    omega
  | case2 l h =>
    have hle : l.length ≤ n := by omega
    rw [pieces_of_length_le hle, List.length_singleton]
    have hlt : (l.length + n - 1) / n < 2 := by
      rw [Nat.div_lt_iff_lt_mul hn]
      omega
    omega

/-- The piece at index `i`. -/
theorem getElem?_pieces {n : Nat} (hn : 0 < n) (l : List α) (i : Nat) (hi : n * i < l.length) :
    (pieces n l)[i]? = some ((l.drop (n * i)).take n) := by
  induction l using pieces.induct (n := n) generalizing i with
  | case1 l h ih =>
    rw [pieces_of_lt h.1 h.2]
    cases i with
    | zero => simp
    | succ i =>
      have hi' : n * i < (l.drop n).length := by
        rw [Nat.mul_succ] at hi
        rw [List.length_drop]
        omega
      rw [List.getElem?_cons_succ, ih i hi', List.drop_drop, Nat.mul_succ, Nat.add_comm n]
  | case2 l h =>
    have hle : l.length ≤ n := by omega
    have hzero : i = 0 := by
      by_contra hne
      have := Nat.le_mul_of_pos_right n (Nat.pos_of_ne_zero hne)
      omega
    rw [hzero, pieces_of_length_le hle, Nat.mul_zero, List.drop_zero, List.take_of_length_le hle]
    rfl

/-- A list of full pieces in front of a non-empty rest is cut by itself. -/
theorem pieces_append_of_dvd {n : Nat} {l m : List α} (hn : 0 < n) (hl : n ∣ l.length)
    (hne : l ≠ []) (hm : m ≠ []) : pieces n (l ++ m) = pieces n l ++ pieces n m := by
  induction l using pieces.induct (n := n) with
  | case1 l h ih =>
    have htake : (l.take n).length = n := by
      rw [List.length_take]
      omega
    have hdrop : l.drop n ≠ [] := by
      rw [← List.length_pos_iff, List.length_drop]
      omega
    have hdvd : n ∣ (l.drop n).length := by
      rw [List.length_drop]
      exact Nat.dvd_sub hl (Nat.dvd_refl n)
    rw [pieces_of_lt hn h.2, List.cons_append, ← ih hdvd hdrop,
      ← pieces_append hn htake (by simp [hdrop]), ← List.append_assoc, List.take_append_drop]
  | case2 l h =>
    have hle := Nat.le_of_dvd (List.length_pos_iff.mpr hne) hl
    rw [pieces_append hn (by omega) hm, pieces_of_length_le (l := l) (by omega),
      List.singleton_append]

/-- Full groups in front of a rest that is no longer than a group. -/
theorem pieces_flatten_append {n : Nat} {gs : List (List α)} {l : List α} (hn : 0 < n)
    (hgs : ∀ g ∈ gs, g.length = n) (hl : l.length ≤ n) (hne : gs.flatten ++ l ≠ []) :
    pieces n (gs.flatten ++ l) = if l = [] then gs else gs ++ [l] := by
  induction gs with
  | nil =>
    rw [List.flatten_nil, List.nil_append] at hne
    simp [pieces_of_length_le hl, hne]
  | cons g gs ih =>
    have hg : g.length = n := hgs g List.mem_cons_self
    rw [List.flatten_cons, List.append_assoc]
    by_cases hrest : gs.flatten ++ l = []
    · obtain ⟨hflat, rfl⟩ := List.append_eq_nil_iff.mp hrest
      have hnil : gs = [] := by
        cases gs with
        | nil => rfl
        | cons g' gs =>
          have hg' := hgs g' (by simp)
          simp only [List.flatten_cons, List.append_eq_nil_iff] at hflat
          rw [hflat.1, List.length_nil] at hg'
          omega
      subst hnil
      simp [pieces_of_length_le (Nat.le_of_eq hg)]
    · rw [pieces_append hn hg hrest, ih (fun g' h => hgs g' (List.mem_cons_of_mem _ h)) hrest]
      split <;> rfl

/-- Cutting twice: the pieces of the long pieces, grouped, are the groups of short pieces. -/
theorem pieces_pieces {a b : Nat} (ha : 0 < a) (hb : 0 < b) (l : List α) :
    pieces b (pieces a l) = (pieces (a * b) l).map (pieces a) := by
  have hab : 0 < a * b := Nat.mul_pos ha hb
  induction hlen : l.length using Nat.strong_induction_on generalizing l with
  | _ len ih =>
    subst hlen
    by_cases hl : l.length ≤ a * b
    · rw [pieces_of_length_le hl, List.map_singleton, pieces_of_length_le]
      rw [length_pieces ha]
      have hle : (l.length + a - 1) / a < b + 1 := by
        rw [Nat.div_lt_iff_lt_mul ha, Nat.succ_mul, Nat.mul_comm b a]
        omega
      omega
    · have hlt : a * b < l.length := by omega
      have hdrop : l.drop (a * b) ≠ [] := by
        rw [← List.length_pos_iff, List.length_drop]
        omega
      have hlong : (l.take (a * b)).length = a * b := by
        rw [List.length_take]
        omega
      have hdvd : a ∣ (l.take (a * b)).length := by
        rw [hlong]
        exact Nat.dvd_mul_right a b
      have htake : l.take (a * b) ≠ [] := by
        rw [← List.length_pos_iff, hlong]
        exact hab
      have hfirst : pieces a l = pieces a (l.take (a * b)) ++ pieces a (l.drop (a * b)) := by
        rw [← pieces_append_of_dvd ha hdvd htake hdrop,
          List.take_append_drop]
      have hcount : (pieces a (l.take (a * b))).length = b := by
        rw [length_pieces ha, hlong, show a * b + a - 1 = a - 1 + a * b by omega,
          Nat.add_mul_div_left _ _ ha, Nat.div_eq_of_lt (by omega)]
        omega
      rw [pieces_of_lt hab hlt, List.map_cons, hfirst,
        pieces_append hb hcount (pieces_ne_nil a _), ih _ _ _ rfl]
      rw [List.length_drop]
      omega

/-! ### Full pieces and the remainder -/

/-- The consecutive full `n`-element pieces. -/
def fullPieces (n : Nat) (l : List α) : List (List α) :=
  if 0 < n ∧ n ≤ l.length then l.take n :: fullPieces n (l.drop n) else []
termination_by l.length
decreasing_by simp; omega

/-- What is left after the full pieces. -/
def remainder (n : Nat) (l : List α) : List α := l.drop (n * (l.length / n))

theorem fullPieces_of_length_lt {n : Nat} {l : List α} (h : l.length < n) :
    fullPieces n l = [] := by
  rw [fullPieces, if_neg (by omega)]

theorem remainder_of_length_lt {n : Nat} {l : List α} (h : l.length < n) :
    remainder n l = l := by
  rw [remainder, Nat.div_eq_of_lt h, Nat.mul_zero, List.drop_zero]

theorem fullPieces_cons {n : Nat} {l m : List α} (hn : 0 < n) (hl : l.length = n) :
    fullPieces n (l ++ m) = l :: fullPieces n m := by
  rw [fullPieces, if_pos ⟨hn, by rw [List.length_append]; omega⟩, List.take_left' hl,
    List.drop_left' hl]

theorem length_fullPieces {n : Nat} (hn : 0 < n) (l : List α) :
    (fullPieces n l).length = l.length / n := by
  induction l using fullPieces.induct (n := n) with
  | case1 l h ih =>
    rw [fullPieces, if_pos h, List.length_cons, ih, List.length_drop,
      ← Nat.add_div_right _ hn, Nat.sub_add_cancel h.2]
  | case2 l h =>
    rw [fullPieces, if_neg h, List.length_nil, Nat.div_eq_of_lt (by omega)]

theorem length_remainder (n : Nat) (l : List α) :
    (remainder n l).length = l.length % n := by
  have h := Nat.div_add_mod l.length n
  rw [remainder, List.length_drop]
  omega

/-- Full pieces in front are cut by themselves. -/
theorem fullPieces_append_of_dvd {n : Nat} {l : List α} (hn : 0 < n) (hl : n ∣ l.length)
    (m : List α) : fullPieces n (l ++ m) = fullPieces n l ++ fullPieces n m := by
  induction l using fullPieces.induct (n := n) with
  | case1 l h ih =>
    have htake : (l.take n).length = n := by
      rw [List.length_take]
      omega
    have hdvd : n ∣ (l.drop n).length := by
      rw [List.length_drop]
      exact Nat.dvd_sub hl (Nat.dvd_refl n)
    rw [fullPieces.eq_1 n l, if_pos h, List.cons_append, ← ih hdvd, ← fullPieces_cons hn htake,
      ← List.append_assoc, List.take_append_drop]
  | case2 l h =>
    have hnil : l = [] := by
      rw [← List.length_eq_zero_iff]
      exact Nat.eq_zero_of_dvd_of_lt hl (by omega)
    rw [hnil, List.nil_append, fullPieces_of_length_lt (l := []) (by simpa using hn),
      List.nil_append]

theorem remainder_append_of_dvd {n : Nat} {l : List α} (hn : 0 < n) (hl : n ∣ l.length)
    (m : List α) : remainder n (l ++ m) = remainder n m := by
  obtain ⟨k, hk⟩ := hl
  rw [remainder, remainder, List.length_append, hk, Nat.mul_add_div hn, Nat.mul_add, ← hk,
    List.drop_append]
  simp

private theorem whole_dvd (n : Nat) (l : List α) :
    n ∣ (l.take (n * (l.length / n))).length := by
  rw [List.length_take, Nat.min_eq_left (Nat.mul_div_le _ _)]
  exact Nat.dvd_mul_right _ _

private theorem fullPieces_whole {n : Nat} (hn : 0 < n) (l : List α) :
    fullPieces n (l.take (n * (l.length / n))) = fullPieces n l := by
  conv_rhs => rw [← List.take_append_drop (n * (l.length / n)) l]
  rw [fullPieces_append_of_dvd hn (whole_dvd n l), ← remainder,
    fullPieces_of_length_lt (l := remainder n l), List.append_nil]
  rw [length_remainder]
  exact Nat.mod_lt _ hn

/-- More elements continue the remainder. -/
theorem fullPieces_append {n : Nat} (hn : 0 < n) (l m : List α) :
    fullPieces n (l ++ m) = fullPieces n l ++ fullPieces n (remainder n l ++ m) := by
  conv_lhs => rw [← List.take_append_drop (n * (l.length / n)) l]
  rw [List.append_assoc, fullPieces_append_of_dvd hn (whole_dvd n l), fullPieces_whole hn]
  rfl

theorem remainder_append {n : Nat} (hn : 0 < n) (l m : List α) :
    remainder n (l ++ m) = remainder n (remainder n l ++ m) := by
  conv_lhs => rw [← List.take_append_drop (n * (l.length / n)) l]
  rw [List.append_assoc, remainder_append_of_dvd hn (whole_dvd n l)]
  rfl

/-- A list of full pieces has no shorter last piece. -/
theorem pieces_eq_fullPieces {n : Nat} {l : List α} (hn : 0 < n) (hl : n ∣ l.length)
    (hne : l ≠ []) : pieces n l = fullPieces n l := by
  induction l using fullPieces.induct (n := n) with
  | case1 l h ih =>
    rw [fullPieces, if_pos h]
    by_cases hlt : n < l.length
    · have hdrop : l.drop n ≠ [] := by
        rw [← List.length_pos_iff, List.length_drop]
        omega
      rw [pieces_of_lt hn hlt, ih _ hdrop]
      rw [List.length_drop]
      exact Nat.dvd_sub hl (Nat.dvd_refl n)
    · rw [pieces_of_length_le (by omega), List.take_of_length_le (by omega),
        List.drop_of_length_le (by omega), fullPieces_of_length_lt (by simpa using hn)]
  | case2 l h =>
    have := Nat.le_of_dvd (List.length_pos_iff.mpr hne) hl
    omega

/-- The pieces are the full ones and the remainder. -/
theorem pieces_eq {n : Nat} {l : List α} (hn : 0 < n) (hne : l ≠ []) :
    pieces n l = fullPieces n l ++ if remainder n l = [] then [] else [remainder n l] := by
  have hlen := length_remainder n l
  have hsplit := List.take_append_drop (n * (l.length / n)) l
  rw [← remainder] at hsplit
  split
  · next h =>
    rw [h, List.length_nil] at hlen
    rw [List.append_nil, pieces_eq_fullPieces hn (Nat.dvd_of_mod_eq_zero hlen.symm) hne]
  · next h =>
    have hrem : pieces n (remainder n l) = [remainder n l] :=
      pieces_of_length_le (hlen ▸ Nat.le_of_lt (Nat.mod_lt _ hn))
    by_cases hwhole : l.take (n * (l.length / n)) = []
    · rw [hwhole, List.nil_append] at hsplit
      rw [hsplit] at hrem
      rw [← fullPieces_whole hn, hwhole, fullPieces_of_length_lt (by simpa using hn), hrem,
        hsplit, List.nil_append]
    · conv_lhs => rw [← hsplit]
      rw [pieces_append_of_dvd hn (whole_dvd n l) hwhole h, hrem,
        pieces_eq_fullPieces hn (whole_dvd n l) hwhole, fullPieces_whole hn]

/-- Full groups in front of less than a group. -/
theorem fullPieces_flatten_append {n : Nat} {gs : List (List α)} {l : List α} (hn : 0 < n)
    (hgs : ∀ g ∈ gs, g.length = n) (hl : l.length < n) :
    fullPieces n (gs.flatten ++ l) = gs := by
  induction gs with
  | nil => exact fullPieces_of_length_lt hl
  | cons g gs ih =>
    rw [List.flatten_cons, List.append_assoc, fullPieces_cons hn (hgs g List.mem_cons_self),
      ih fun g' h => hgs g' (List.mem_cons_of_mem _ h)]

theorem fullPieces_map (f : α → β) (n : Nat) (l : List α) :
    fullPieces n (l.map f) = (fullPieces n l).map (List.map f) := by
  induction l using fullPieces.induct (n := n) with
  | case1 l h ih =>
    rw [fullPieces.eq_1 n l, if_pos h, fullPieces, if_pos (by simpa using h), List.map_cons,
      ← ih, List.map_take, List.map_drop]
  | case2 l h => rw [fullPieces, if_neg (by simpa using h), fullPieces, if_neg h]; rfl

/-- Every full piece has its length. -/
theorem length_of_mem_fullPieces {n : Nat} {l g : List α} (h : g ∈ fullPieces n l) :
    g.length = n := by
  induction l using fullPieces.induct (n := n) with
  | case1 l hl ih =>
    rw [fullPieces, if_pos hl] at h
    rcases List.mem_cons.mp h with rfl | h
    · rw [List.length_take]
      omega
    · exact ih h
  | case2 l hl =>
    rw [fullPieces, if_neg hl] at h
    simp at h

/-- The full piece at index `i`. -/
theorem getElem?_fullPieces {n : Nat} (hn : 0 < n) (l : List α) (i : Nat)
    (hi : i < l.length / n) : (fullPieces n l)[i]? = some ((l.drop (n * i)).take n) := by
  induction l using fullPieces.induct (n := n) generalizing i with
  | case1 l h ih =>
    rw [fullPieces, if_pos h]
    cases i with
    | zero => simp
    | succ i =>
      have hi' : i < (l.drop n).length / n := by
        rw [Nat.lt_div_iff_mul_lt hn, Nat.succ_mul] at hi
        rw [Nat.lt_div_iff_mul_lt hn, List.length_drop]
        omega
      rw [List.getElem?_cons_succ, ih i hi', List.drop_drop, Nat.mul_succ, Nat.add_comm n]
  | case2 l h =>
    rw [Nat.div_eq_of_lt (by omega)] at hi
    omega

/-- Cutting twice, full pieces only. -/
theorem fullPieces_fullPieces {a b : Nat} (ha : 0 < a) (hb : 0 < b) (l : List α) :
    fullPieces b (fullPieces a l) = (fullPieces (a * b) l).map (fullPieces a) := by
  have hab : 0 < a * b := Nat.mul_pos ha hb
  induction l using fullPieces.induct (n := a * b) with
  | case1 l h ih =>
    have htake : (l.take (a * b)).length = a * b := by
      rw [List.length_take]
      omega
    have hdvd : a ∣ (l.take (a * b)).length := by
      rw [htake]
      exact Nat.dvd_mul_right a b
    have hcount : (fullPieces a (l.take (a * b))).length = b := by
      rw [length_fullPieces ha, htake, Nat.mul_div_cancel_left b ha]
    rw [fullPieces.eq_1 (a * b), if_pos h, List.map_cons, ← ih, ← fullPieces_cons hb hcount,
      ← fullPieces_append_of_dvd ha hdvd, List.take_append_drop]
  | case2 l h =>
    rw [fullPieces.eq_1 (a * b), if_neg h, List.map_nil, fullPieces_of_length_lt]
    rw [length_fullPieces ha, Nat.div_lt_iff_lt_mul ha, Nat.mul_comm]
    omega

end Blacklink.Base
