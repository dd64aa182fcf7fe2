import Mathlib.Logic.Relation
import Mathlib.Data.Nat.Init

/-!
# Machines that read their input as it arrives

A machine holds input it has not used yet. A tick uses some of it, or waits for more, or fails.
What a machine does with the input at hand it also does when there is more (`tick_feed`,
`fail_feed`), and a tick that goes on uses some input (`size_lt`). From these three laws: the
machine comes to rest, in one state only, and it is the same to rest in between or to be given all
the input at once.
-/

namespace Blacklink.Base

universe u v

/-- What a tick leads to. -/
inductive Tick (σ : Type u) where
  | again (s : σ)
  | wait
  | fail
  deriving DecidableEq

/-- A machine with unused input. -/
structure Incremental (σ : Type u) (ι : Type v) where
  tick : σ → Tick σ
  feed : σ → List ι → σ
  size : σ → Nat
  size_lt : ∀ {s s'}, tick s = .again s' → size s' < size s
  tick_feed : ∀ {s s'} d, tick s = .again s' → tick (feed s d) = .again (feed s' d)
  fail_feed : ∀ {s} d, tick s = .fail → tick (feed s d) = .fail

namespace Incremental

variable {σ : Type u} {ι : Type v} (M : Incremental σ ι)

/-- Ticks lead from one state to the other. -/
def Reaches (s s' : σ) : Prop := Relation.ReflTransGen (fun a b => M.tick a = .again b) s s'

/-- The machine waits or has failed. -/
def Rests (s : σ) : Prop := ∀ s', M.tick s ≠ .again s'

variable {M}

theorem Reaches.refl (s : σ) : M.Reaches s s := Relation.ReflTransGen.refl

theorem Reaches.tick {s s' : σ} (h : M.tick s = .again s') : M.Reaches s s' :=
  Relation.ReflTransGen.single h

theorem Reaches.trans {a b c : σ} (hab : M.Reaches a b) (hbc : M.Reaches b c) : M.Reaches a c :=
  Relation.ReflTransGen.trans hab hbc

theorem Reaches.head {a b c : σ} (hab : M.tick a = .again b) (hbc : M.Reaches b c) :
    M.Reaches a c := Relation.ReflTransGen.head hab hbc

/-- A property that ticks preserve. -/
theorem Reaches.invariant {P : σ → Prop} (hP : ∀ a b, P a → M.tick a = .again b → P b) {s s' : σ}
    (h : M.Reaches s s') (hs : P s) : P s' := by
  induction h with
  | refl => exact hs
  | tail _ hbc ih => exact hP _ _ ih hbc

theorem rests_of_wait {s : σ} (h : M.tick s = .wait) : M.Rests s := by
  intro s' h'
  rw [h] at h'
  cases h'

theorem rests_of_fail {s : σ} (h : M.tick s = .fail) : M.Rests s := by
  intro s' h'
  rw [h] at h'
  cases h'

/-- A machine at rest waits or fails. -/
theorem Rests.cases {s : σ} (h : M.Rests s) : M.tick s = .wait ∨ M.tick s = .fail := by
  cases ht : M.tick s with
  | again s' => exact absurd ht (h s')
  | wait => exact .inl rfl
  | fail => exact .inr rfl

/-- The machine comes to rest. -/
theorem exists_rests (M : Incremental σ ι) (s : σ) : ∃ w, M.Reaches s w ∧ M.Rests w := by
  induction hn : M.size s using Nat.strong_induction_on generalizing s with
  | _ n ih =>
    cases ht : M.tick s with
    | again s' =>
      obtain ⟨w, hw, hrest⟩ := ih (M.size s') (hn ▸ M.size_lt ht) s' rfl
      exact ⟨w, hw.head ht, hrest⟩
    | wait => exact ⟨s, .refl s, rests_of_wait ht⟩
    | fail => exact ⟨s, .refl s, rests_of_fail ht⟩

/-- Whatever is reached is on the way to where the machine rests. -/
theorem Reaches.to_rest {s a w : σ} (ha : M.Reaches s a) (hw : M.Reaches s w) (h : M.Rests w) :
    M.Reaches a w := by
  induction ha with
  | refl => exact hw
  | tail _ hbc ih =>
    obtain heq | ⟨c', hbc', hc'⟩ := Relation.ReflTransGen.cases_head ih
    · rw [heq] at hbc
      exact absurd hbc (h _)
    · rw [hbc] at hbc'
      cases hbc'
      exact hc'

/-- There is one place to rest. -/
theorem Reaches.rest_unique {s v w : σ} (hv : M.Reaches s v) (hw : M.Reaches s w)
    (hrv : M.Rests v) (hrw : M.Rests w) : v = w := by
  obtain heq | ⟨c, hc, _⟩ := Relation.ReflTransGen.cases_head (hv.to_rest hw hrw)
  · exact heq
  · exact absurd hc (hrv _)

/-- Ticks use up input. -/
theorem Reaches.size_lt {s s' : σ} (h : M.Reaches s s') (hne : s ≠ s') :
    M.size s' < M.size s := by
  have hle : ∀ {b}, M.Reaches s b → M.size b ≤ M.size s := by
    intro b hb
    induction hb with
    | refl => exact Nat.le_refl _
    | tail _ hbc ih => exact Nat.le_trans (Nat.le_of_lt (M.size_lt hbc)) ih
  obtain heq | ⟨b, hb, hbs⟩ := Relation.ReflTransGen.cases_tail h
  · exact absurd heq.symm hne
  · exact Nat.lt_of_lt_of_le (M.size_lt hbs) (hle hb)

/-- The state after so many ticks, or where the machine rests before. -/
def after (M : Incremental σ ι) : Nat → σ → σ
  | 0, s => s
  | n + 1, s =>
    match M.tick s with
    | .again s' => M.after n s'
    | _ => s

theorem reaches_after (n : Nat) (s : σ) : M.Reaches s (M.after n s) := by
  induction n generalizing s with
  | zero => exact .refl s
  | succ n ih =>
    rw [after]
    cases h : M.tick s with
    | again s' => exact (ih s').head h
    | wait => exact .refl s
    | fail => exact .refl s

/-- Input that arrives later does not change the ticks made. -/
theorem Reaches.feed {s s' : σ} (h : M.Reaches s s') (d : List ι) :
    M.Reaches (M.feed s d) (M.feed s' d) := by
  induction h with
  | refl => exact .refl _
  | tail _ hbc ih => exact ih.trans (.tick (M.tick_feed d hbc))

/-- Where the machine rests with all its input, it rests after a rest in between. -/
theorem Reaches.feed_rest {s a w : σ} {d : List ι} (ha : M.Reaches s a)
    (hw : M.Reaches (M.feed s d) w) (h : M.Rests w) : M.Reaches (M.feed a d) w :=
  (ha.feed d).to_rest hw h

end Incremental

end Blacklink.Base
