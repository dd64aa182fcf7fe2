import Mathlib.Tactic.Ring
import Mathlib.Algebra.Order.Ring.Nat
import Blacklink.Base.Pieces

/-!
# Binary hash trees over a list of leaves

`treeRoot` computes the root level by level: neighbours are combined in pairs and an odd node
at the end is promoted to the next level unchanged. The results here are the two ways to
compute it in another order: splitting after the largest power of two (`treeRoot_append`) and
taking the roots of aligned groups first (`treeRoot_map_pieces`). A stack of complete subtrees
with decreasing heights (`SubtreeStack`) is what a streaming computation keeps.
-/

namespace Blacklink.Base

variable {V : Type*} (c : V → V → V) (z : V)

/-- One level up: pairs are combined, an odd last node is promoted. -/
def pairUp : List V → List V
  | [] => []
  | [a] => [a]
  | a :: b :: l => c a b :: pairUp l

theorem length_pairUp (l : List V) : (pairUp c l).length = (l.length + 1) / 2 := by
  induction l using pairUp.induct with
  | case1 => simp [pairUp]
  | case2 a => simp [pairUp]
  | case3 a b l ih =>
    simp only [pairUp, List.length_cons, ih]
    omega

/-- The root over the leaves; `z` stands for the root over no leaves. -/
def treeRoot : List V → V
  | [] => z
  | [a] => a
  | a :: b :: l => treeRoot (pairUp c (a :: b :: l))
termination_by l => l.length
decreasing_by simp only [length_pairUp, List.length_cons]; omega

@[simp] theorem treeRoot_singleton (a : V) : treeRoot c z [a] = a := by rw [treeRoot]

/-- A level has the root of the level below it. -/
theorem treeRoot_pairUp (l : List V) : treeRoot c z (pairUp c l) = treeRoot c z l := by
  cases l with
  | nil => rfl
  | cons a l =>
    cases l with
    | nil => rfl
    | cons b l => rw [treeRoot.eq_3]

theorem pairUp_append {l : List V} (h : 2 ∣ l.length) (m : List V) :
    pairUp c (l ++ m) = pairUp c l ++ pairUp c m := by
  induction l using pairUp.induct with
  | case1 => rfl
  | case2 a => simp at h
  | case3 a b l ih =>
    have hl : 2 ∣ l.length := by
      simp only [List.length_cons] at h
      omega
    simp only [List.cons_append, pairUp, ih hl]

/-- A perfect tree on the left of a tree that is no higher: the root combines the two. -/
theorem treeRoot_append {k : Nat} {l m : List V} (hl : l.length = 2 ^ k) (hm : m ≠ [])
    (hle : m.length ≤ 2 ^ k) :
    treeRoot c z (l ++ m) = c (treeRoot c z l) (treeRoot c z m) := by
  have hpos := List.length_pos_iff.mpr hm
  induction k generalizing l m with
  | zero =>
    obtain ⟨a, rfl⟩ := List.length_eq_one_iff.mp hl
    obtain ⟨b, rfl⟩ := List.length_eq_one_iff.mp (show m.length = 1 by
      rw [Nat.pow_zero] at hle
      omega)
    simp [treeRoot, pairUp]
  | succ k ih =>
    rw [Nat.pow_succ] at hl hle
    have hdvd : 2 ∣ l.length := ⟨2 ^ k, by rw [hl, Nat.mul_comm]⟩
    have hlen : 0 < (pairUp c m).length := by
      rw [length_pairUp]
      omega
    rw [← treeRoot_pairUp c z (l ++ m), pairUp_append c hdvd, ih, treeRoot_pairUp,
      treeRoot_pairUp]
    · rw [length_pairUp]
      omega
    · exact List.length_pos_iff.mp hlen
    · rw [length_pairUp]
      omega
    · exact hlen

private theorem pairUp_map_pieces (m : Nat) (l : List V) :
    pairUp c ((pieces (2 ^ m) l).map (treeRoot c z)) =
      (pieces (2 ^ (m + 1)) l).map (treeRoot c z) := by
  have hpos : 0 < 2 ^ m := Nat.two_pow_pos m
  have hpow : 2 ^ (m + 1) = 2 ^ m + 2 ^ m := by rw [Nat.pow_succ]; omega
  induction hlen : l.length using Nat.strong_induction_on generalizing l with
  | _ len ih =>
    subst hlen
    by_cases h1 : l.length ≤ 2 ^ m
    · rw [pieces_of_length_le h1, pieces_of_length_le (by omega)]
      rfl
    · have htake : (l.take (2 ^ m)).length = 2 ^ m := by
        rw [List.length_take]
        omega
      have hdrop : (l.drop (2 ^ m)).length = l.length - 2 ^ m := List.length_drop
      have hne : l.drop (2 ^ m) ≠ [] := by
        rw [← List.length_pos_iff]
        omega
      rw [pieces_of_lt hpos (by omega), List.map_cons]
      by_cases h2 : l.length ≤ 2 ^ (m + 1)
      · rw [pieces_of_length_le (l := l) h2, pieces_of_length_le (by omega)]
        simp only [List.map_cons, List.map_nil, pairUp]
        rw [← treeRoot_append c z htake hne (by omega), List.take_append_drop]
      · have htake2 : ((l.drop (2 ^ m)).take (2 ^ m)).length = 2 ^ m := by
          rw [List.length_take]
          omega
        rw [pieces_of_lt hpos (by omega), List.map_cons, pairUp,
          pieces_of_lt (l := l) (by omega) (by omega), List.map_cons, List.drop_drop, ← hpow,
          ih _ (by rw [List.length_drop]; omega) _ rfl]
        rw [← treeRoot_append c z htake (by rw [← List.length_pos_iff]; omega) (by omega),
          hpow, List.take_add]

private theorem map_pieces_one {l : List V} (h : l ≠ []) :
    (pieces 1 l).map (treeRoot c z) = l := by
  induction l with
  | nil => exact absurd rfl h
  | cons a l ih =>
    by_cases hl : l = []
    · subst hl
      rw [pieces_of_length_le (by simp), List.map_singleton, treeRoot_singleton]
    · rw [← List.singleton_append, pieces_append Nat.one_pos rfl hl, List.map_cons, ih hl,
        treeRoot_singleton, List.singleton_append]

/-- The root over the roots of aligned groups of `2 ^ m` leaves is the root over the leaves. -/
theorem treeRoot_map_pieces (m : Nat) (l : List V) :
    treeRoot c z ((pieces (2 ^ m) l).map (treeRoot c z)) = treeRoot c z l := by
  induction m with
  | zero =>
    by_cases h : l = []
    · subst h
      rw [pieces_of_length_le (by simp), List.map_singleton, treeRoot_singleton]
    · rw [Nat.pow_zero, map_pieces_one c z h]
  | succ m ih => rw [← pairUp_map_pieces, treeRoot_pairUp, ih]

private theorem pairUp_injective {c : V → V → V} (hc : Function.Injective2 c) {l m : List V}
    (hlen : l.length = m.length) (h : pairUp c l = pairUp c m) : l = m := by
  induction l using pairUp.induct generalizing m with
  | case1 => exact (List.length_eq_zero_iff.mp hlen.symm).symm
  | case2 a =>
    obtain ⟨b, rfl⟩ := List.length_eq_one_iff.mp hlen.symm
    exact h
  | case3 a b l ih =>
    match m, hlen, h with
    | a' :: b' :: m, hlen, h =>
      simp only [pairUp, List.cons.injEq] at h
      obtain ⟨rfl, rfl⟩ := hc h.1
      rw [ih (by simpa using hlen) h.2]

/-- Without collisions the root determines the leaves, given how many there are. -/
theorem treeRoot_injective {c : V → V → V} (z : V) (hc : Function.Injective2 c) {l m : List V}
    (hlen : l.length = m.length) (h : treeRoot c z l = treeRoot c z m) : l = m := by
  induction l using treeRoot.induct (c := c) generalizing m with
  | case1 => exact (List.length_eq_zero_iff.mp hlen.symm).symm
  | case2 a =>
    obtain ⟨b, rfl⟩ := List.length_eq_one_iff.mp hlen.symm
    simpa using h
  | case3 a b l ih =>
    apply pairUp_injective hc hlen
    apply ih
    · rw [length_pairUp, length_pairUp, hlen]
    · rw [treeRoot_pairUp, treeRoot_pairUp, h]

/-! ### Stacks of complete subtrees -/

/-- A stack, top first, of the roots of complete subtrees over consecutive leaves. A subtree
over `2 ^ k` leaves is entered with the size `u * 2 ^ k`, and sizes decrease towards the top. -/
inductive SubtreeStack (u : Nat) : List (V × Nat) → List V → Prop
  | nil : SubtreeStack u [] []
  | push {s : List (V × Nat)} {hs g : List V} {k : Nat} (h : SubtreeStack u s hs)
      (hg : g.length = 2 ^ k) (hlt : ∀ b ∈ s, u * 2 ^ k < b.2) :
      SubtreeStack u ((treeRoot c z g, u * 2 ^ k) :: s) (hs ++ g)

variable {c z}

theorem SubtreeStack.eq_nil_iff {u : Nat} {s : List (V × Nat)} {hs : List V}
    (h : SubtreeStack c z u s hs) : s = [] ↔ hs = [] := by
  cases h with
  | nil => simp
  | push h hg hlt =>
    simp only [reduceCtorEq, List.append_eq_nil_iff, false_iff, not_and]
    intro _ hnil
    rw [hnil, List.length_nil] at hg
    exact absurd hg (Nat.two_pow_pos _).ne

theorem lt_of_mul_two_pow_lt {u a b : Nat} (h : u * 2 ^ a < u * 2 ^ b) : a < b := by
  by_contra hle
  have := Nat.mul_le_mul_left u (Nat.pow_le_pow_right (n := 2) (by omega) (not_lt.mp hle))
  omega

theorem SubtreeStack.size_ge {u : Nat} {s : List (V × Nat)} {hs : List V}
    (h : SubtreeStack c z u s hs) : ∀ b ∈ s, u * 2 ^ 0 ≤ b.2 := by
  induction h with
  | nil => simp
  | push h hg hlt ih =>
    intro b hb
    rcases List.mem_cons.mp hb with rfl | hb
    · exact Nat.mul_le_mul_left u (Nat.pow_le_pow_right (by omega) (Nat.zero_le _))
    · exact ih b hb

/-- A subtree above the size of `2 ^ k` leaves has that of `2 ^ (k + 1)` at least. -/
theorem SubtreeStack.size_le {u k : Nat} {s : List (V × Nat)} {hs : List V}
    (h : SubtreeStack c z u s hs) (hlt : ∀ b ∈ s, u * 2 ^ k < b.2) :
    ∀ b ∈ s, u * 2 ^ (k + 1) ≤ b.2 := by
  induction h with
  | nil => simp
  | push h hg hlt' ih =>
    intro b hb
    have hb' := hlt b hb
    rcases List.mem_cons.mp hb with rfl | hb
    · exact Nat.mul_le_mul_left u
        (Nat.pow_le_pow_right (by omega) (lt_of_mul_two_pow_lt hb'))
    · exact ih (fun b hb => hlt b (List.mem_cons_of_mem _ hb)) b hb

/-- Subtrees below `2 ^ m` leaves leave room for one more as high as the top. -/
theorem SubtreeStack.length_add_le {u m k : Nat} {s : List (V × Nat)} {hs : List V}
    (h : SubtreeStack c z u s hs) (hm : ∀ b ∈ s, b.2 < u * 2 ^ m) (hk : k < m)
    (hlt : ∀ b ∈ s, u * 2 ^ k < b.2) : hs.length + 2 ^ (k + 1) ≤ 2 ^ m := by
  induction h generalizing k with
  | nil => simpa using Nat.pow_le_pow_right (by omega : 0 < 2) hk
  | @push s hs g k' h hg hlt' ih =>
    have hkk : k < k' := lt_of_mul_two_pow_lt (hlt _ List.mem_cons_self)
    have hkm : k' < m := lt_of_mul_two_pow_lt (hm _ List.mem_cons_self)
    have hrec := ih (fun b hb => hm b (List.mem_cons_of_mem _ hb)) hkm hlt'
    have hpow := Nat.pow_le_pow_right (n := 2) (by omega) (show k + 1 ≤ k' by omega)
    rw [List.length_append, hg]
    rw [Nat.pow_succ] at hrec
    omega

/-- Fewer leaves than the next full subtree has. -/
theorem SubtreeStack.length_lt {u m : Nat} {s : List (V × Nat)} {hs : List V}
    (h : SubtreeStack c z u s hs) (hm : ∀ b ∈ s, b.2 < u * 2 ^ m) : hs.length < 2 ^ m := by
  cases h with
  | nil => exact Nat.two_pow_pos m
  | @push s hs g k h hg hlt =>
    have hk : k < m := lt_of_mul_two_pow_lt (hm _ List.mem_cons_self)
    have hroom := h.length_add_le (fun b hb => hm b (List.mem_cons_of_mem _ hb)) hk hlt
    have hpos := Nat.two_pow_pos k
    rw [Nat.pow_succ] at hroom
    rw [List.length_append, hg]
    omega

end Blacklink.Base
