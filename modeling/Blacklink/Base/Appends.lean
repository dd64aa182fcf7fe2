import Mathlib.Data.List.Basic

/-!
# Folds that append

A loop that goes through a list and collects something may drop what it has and adds one element at
most for each one it goes through. So it only collects an element for each when it drops nothing and
every step adds its own.
-/

namespace Blacklink.Base

variable {σ α β : Type*}

/-- A step keeps a part of what has been collected and adds one element at most. -/
def AppendsOne (π : σ → List β) (f : σ → α → σ) : Prop :=
  ∀ s x, ∃ ys zs, ys.Sublist (π s) ∧ zs.length ≤ 1 ∧ π (f s x) = ys ++ zs

variable {π : σ → List β} {f : σ → α → σ}

theorem AppendsOne.length_le (h : AppendsOne π f) (s : σ) (xs : List α) :
    (π (xs.foldl f s)).length ≤ (π s).length + xs.length := by
  induction xs generalizing s with
  | nil => exact Nat.le_refl _
  | cons x xs ih =>
    obtain ⟨ys, zs, hys, hzs, heq⟩ := h s x
    have hlen := hys.length_le
    have hrest := ih (f s x)
    rw [heq, List.length_append] at hrest
    rw [List.foldl_cons, List.length_cons]
    omega

/-- When an element is added in every step, none is dropped. -/
theorem AppendsOne.prefix_of_length (h : AppendsOne π f) {s : σ} {xs : List α}
    (hlen : (π (xs.foldl f s)).length = (π s).length + xs.length) :
    π s <+: π (xs.foldl f s) := by
  induction xs generalizing s with
  | nil => exact List.prefix_rfl
  | cons x xs ih =>
    obtain ⟨ys, zs, hys, hzs, heq⟩ := h s x
    have hle := hys.length_le
    have hrest := h.length_le (f s x) xs
    rw [List.foldl_cons, List.length_cons] at hlen
    have hstep : (π (f s x)).length = ys.length + zs.length := by rw [heq, List.length_append]
    have hsame : ys = π s := hys.eq_of_length (by omega)
    have hfirst : π s <+: π (f s x) := by
      rw [heq, hsame]
      exact List.prefix_append _ _
    rw [List.foldl_cons]
    exact hfirst.trans (ih (by omega))

/-- When a fold collects what belongs to each element, it does so from the beginning on. -/
theorem AppendsOne.foldl_prefix (h : AppendsOne π f) {g : α → β} {s : σ} (hs : π s = [])
    {pre post : List α} (hall : π ((pre ++ post).foldl f s) = (pre ++ post).map g) :
    π (pre.foldl f s) = pre.map g := by
  have hpre := h.length_le s pre
  have hpost := h.length_le (pre.foldl f s) post
  have hlen := congrArg List.length hall
  rw [List.length_map, List.length_append] at hlen
  rw [List.foldl_append] at hall hlen
  rw [hs, List.length_nil] at hpre
  have hfirst : π (pre.foldl f s) <+: π (post.foldl f (pre.foldl f s)) :=
    h.prefix_of_length (by omega)
  rw [hall, List.map_append] at hfirst
  have hsame : (π (pre.foldl f s)).length = (pre.map g).length := by
    rw [List.length_map]
    omega
  exact (List.prefix_of_prefix_length_le hfirst (List.prefix_append _ _)
    (Nat.le_of_eq hsame)).eq_of_length hsame

/-- What holds of each element and those before it. -/
theorem pairwise_iff_forall_split {R : α → α → Prop} (xs : List α) :
    xs.Pairwise R ↔ ∀ pre x post, xs = pre ++ x :: post → ∀ y ∈ pre, R y x := by
  constructor
  · rintro h pre x post rfl y hy
    exact (List.pairwise_append.mp h).2.2 y hy x List.mem_cons_self
  · intro h
    induction xs with
    | nil => exact List.Pairwise.nil
    | cons a xs ih =>
      rw [List.pairwise_cons]
      constructor
      · intro b hb
        obtain ⟨pre, post, rfl⟩ := List.append_of_mem hb
        exact h (a :: pre) b post rfl a List.mem_cons_self
      · apply ih
        rintro pre x post rfl y hy
        exact h (a :: pre) x post rfl y (List.mem_cons_of_mem a hy)

/-- When a step adds what belongs to its element as long as that is good in itself and goes with
those before, a fold collects what belongs to each element exactly if each of them is good and any
two of them go together. -/
theorem AppendsOne.foldl_eq_map_iff (h : AppendsOne π f) {g : α → β} {s : σ} (hs : π s = [])
    {P : α → Prop} {R : α → α → Prop}
    (hstep : ∀ pre x, π (pre.foldl f s) = pre.map g →
      (π ((pre ++ [x]).foldl f s) = (pre ++ [x]).map g ↔ P x ∧ ∀ y ∈ pre, R y x))
    (xs : List α) :
    π (xs.foldl f s) = xs.map g ↔ (∀ x ∈ xs, P x) ∧ xs.Pairwise R := by
  rw [pairwise_iff_forall_split]
  constructor
  · intro hall
    have hsplit : ∀ pre x post, xs = pre ++ x :: post → P x ∧ ∀ y ∈ pre, R y x := by
      rintro pre x post rfl
      apply (hstep pre x (h.foldl_prefix hs hall)).mp
      rw [List.append_cons] at hall
      exact h.foldl_prefix hs hall
    constructor
    · intro x hx
      obtain ⟨pre, post, heq⟩ := List.append_of_mem hx
      exact (hsplit pre x post heq).1
    · exact fun pre x post heq => (hsplit pre x post heq).2
  · rintro ⟨heach, hpairs⟩
    have hall : ∀ post pre, xs = pre ++ post → π (pre.foldl f s) = pre.map g →
        π (xs.foldl f s) = xs.map g := by
      intro post
      induction post with
      | nil =>
        rintro pre rfl hpre
        rwa [List.append_nil]
      | cons x post ih =>
        intro pre heq hpre
        have hx : x ∈ xs := heq ▸ List.mem_append_right pre List.mem_cons_self
        apply ih (pre ++ [x]) (heq.trans (List.append_cons pre x post))
        exact (hstep pre x hpre).mpr ⟨heach x hx, hpairs pre x post heq⟩
    exact hall xs [] rfl hs

end Blacklink.Base
