import Mathlib.Data.Nat.Init

/-!
# Loops with fuel

A loop whose passes are counted: the result is `none` when the fuel does not last, so that a loop
that never ends is one for which no amount of fuel is enough. A pass may contain loops of its own
and is given the fuel left. `Ends.done` and `Ends.again` are the rules for a loop that ends, and
`not_halts_of_invariant` is the one for a loop that does not.
-/

namespace Blacklink.Base

universe u v

variable {σ : Type u} {ρ : Type v}

/-- What one pass of a loop leads to. -/
inductive Pass (σ : Type u) (ρ : Type v) where
  | again (s : σ)
  | done (result : ρ)
  deriving DecidableEq

/-- The loop with the given body. -/
def loop (body : Nat → σ → Option (Pass σ ρ)) : Nat → σ → Option ρ
  | 0, _ => none
  | fuel + 1, s =>
    match body fuel s with
    | none => none
    | some (.done result) => some result
    | some (.again s') => loop body fuel s'

/-- More fuel does not change what a pass does. -/
def FuelMono (f : Nat → σ → Option ρ) : Prop :=
  ∀ ⦃m n s x⦄, m ≤ n → f m s = some x → f n s = some x

/-- The loop ends with the result when there is fuel enough. -/
def Ends (f : Nat → σ → Option ρ) (s : σ) (result : ρ) : Prop := ∃ fuel, f fuel s = some result

/-- There is an amount of fuel that is enough. -/
def Halts (f : Nat → σ → Option ρ) (s : σ) : Prop := ∃ result, Ends f s result

theorem Ends.unique {f : Nat → σ → Option ρ} (hf : FuelMono f) {s : σ} {x y : ρ}
    (hx : Ends f s x) (hy : Ends f s y) : x = y := by
  obtain ⟨m, hm⟩ := hx
  obtain ⟨n, hn⟩ := hy
  have hm' := hf (Nat.le_max_left m n) hm
  rw [hf (Nat.le_max_right m n) hn] at hm'
  exact (Option.some.inj hm').symm

section Body

variable {body : Nat → σ → Option (Pass σ ρ)}

attribute [local simp] loop

/-- More fuel does not change what the loop returns. -/
theorem loop_fuelMono (hbody : FuelMono body) : FuelMono (loop body) := by
  intro m n s x hmn h
  induction m generalizing n s with
  | zero => cases h
  | succ m ih =>
    cases n with
    | zero => omega
    | succ n =>
      rw [loop] at h ⊢
      cases hb : body m s with
      | none =>
        rw [hb] at h
        cases h
      | some pass =>
        rw [hb] at h
        rw [hbody (Nat.le_of_succ_le_succ hmn) hb]
        cases pass with
        | done result => exact h
        | again s' => exact ih (Nat.le_of_succ_le_succ hmn) h

/-- A pass that is the last one. -/
theorem Ends.done {s : σ} {x : ρ} (h : Ends body s (.done x)) : Ends (loop body) s x := by
  obtain ⟨n, hn⟩ := h
  refine ⟨n + 1, ?_⟩
  rw [loop, hn]

/-- A pass, then the rest of the loop. -/
theorem Ends.again (hbody : FuelMono body) {s s' : σ} {x : ρ} (h : Ends body s (.again s'))
    (h' : Ends (loop body) s' x) : Ends (loop body) s x := by
  obtain ⟨m, hm⟩ := h
  obtain ⟨n, hn⟩ := h'
  refine ⟨max m n + 1, ?_⟩
  rw [loop, hbody (Nat.le_max_left m n) hm]
  exact loop_fuelMono hbody (Nat.le_max_right m n) hn

/-- A loop from another state with the same first pass. -/
theorem Ends.of_pass_eq {s s' : σ} {x : ρ} (h : ∀ fuel, body fuel s = body fuel s')
    (h' : Ends (loop body) s' x) : Ends (loop body) s x := by
  obtain ⟨n, hn⟩ := h'
  cases n with
  | zero => cases hn
  | succ n =>
    refine ⟨n + 1, ?_⟩
    rw [loop, h n, ← hn, loop]

/-- What the first pass of a loop that ends was. -/
theorem Ends.cases {s : σ} {x : ρ} (h : Ends (loop body) s x) :
    Ends body s (.done x) ∨ ∃ s', Ends body s (.again s') ∧ Ends (loop body) s' x := by
  obtain ⟨n, hn⟩ := h
  cases n with
  | zero => cases hn
  | succ n =>
    rw [loop] at hn
    cases hb : body n s with
    | none =>
      rw [hb] at hn
      cases hn
    | some pass =>
      rw [hb] at hn
      cases pass with
      | done result =>
        cases hn
        exact .inl ⟨n, hb⟩
      | again s' => exact .inr ⟨s', ⟨n, hb⟩, n, hn⟩

/-- A loop does not end when every pass is of a kind that is not the last and leads to its like. -/
theorem not_halts_of_invariant (Inv : σ → Prop)
    (hstep : ∀ s pass, Inv s → Ends body s pass → ∃ s', pass = .again s' ∧ Inv s')
    {s : σ} (hs : Inv s) : ¬ Halts (loop body) s := by
  rintro ⟨x, n, hn⟩
  induction n generalizing s with
  | zero => cases hn
  | succ n ih =>
    rw [loop] at hn
    cases hb : body n s with
    | none =>
      rw [hb] at hn
      cases hn
    | some pass =>
      obtain ⟨s', rfl, hs'⟩ := hstep s pass hs ⟨n, hb⟩
      rw [hb] at hn
      exact ih hs' hn

end Body

end Blacklink.Base
