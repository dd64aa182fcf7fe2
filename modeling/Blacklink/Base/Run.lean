import Mathlib.Data.List.Induction

/-!
# Runs of event-driven systems

A system is a total step function `σ → ε → σ`; whatever the environment decides is part of
the event. A run folds the step function over a list of events. `Within ok` restricts a run
to those whose every event meets a condition on the state before it, which is how results
about "every run that avoids a given branch" are stated here.
-/

namespace Blacklink.Base

variable {σ ε : Type*}

/-- The state a run of events ends in. -/
def run (step : σ → ε → σ) (s : σ) (es : List ε) : σ := es.foldl step s

/-- Every event of the run meets `ok` in the state it meets. -/
def Within (ok : σ → ε → Prop) (step : σ → ε → σ) : σ → List ε → Prop
  | _, [] => True
  | s, e :: es => ok s e ∧ Within ok step (step s e) es

instance decidableWithin {ok : σ → ε → Prop} [∀ s e, Decidable (ok s e)] {step : σ → ε → σ} :
    ∀ (s : σ) (es : List ε), Decidable (Within ok step s es)
  | _, [] => isTrue True.intro
  | s, e :: es =>
    have : Decidable (Within ok step (step s e) es) := decidableWithin _ es
    inferInstanceAs (Decidable (ok s e ∧ Within ok step (step s e) es))

@[simp] theorem run_nil (step : σ → ε → σ) (s : σ) : run step s [] = s := rfl

@[simp] theorem run_cons (step : σ → ε → σ) (s : σ) (e : ε) (es : List ε) :
    run step s (e :: es) = run step (step s e) es := rfl

/-- A run splits at any point. -/
theorem run_append (step : σ → ε → σ) (s : σ) (es fs : List ε) :
    run step s (es ++ fs) = run step (run step s es) fs := List.foldl_append

@[simp] theorem within_nil (ok : σ → ε → Prop) (step : σ → ε → σ) (s : σ) :
    Within ok step s [] := True.intro

@[simp] theorem within_cons (ok : σ → ε → Prop) (step : σ → ε → σ) (s : σ) (e : ε)
    (es : List ε) : Within ok step s (e :: es) ↔ ok s e ∧ Within ok step (step s e) es :=
  Iff.rfl

/-- A restricted run splits at any point. -/
theorem within_append (ok : σ → ε → Prop) (step : σ → ε → σ) (s : σ) (es fs : List ε) :
    Within ok step s (es ++ fs) ↔
      Within ok step s es ∧ Within ok step (run step s es) fs := by
  induction es generalizing s with
  | nil => simp
  | cons e es ih =>
    rw [List.cons_append, within_cons, within_cons, run_cons, ih, and_assoc]

/-- A run is restricted if each of its events meets the condition behind those before it. -/
theorem within_iff_forall_init {ok : σ → ε → Prop} {step : σ → ε → σ} {s : σ} {es : List ε} :
    Within ok step s es ↔ ∀ pre e, pre ++ [e] <+: es → ok (run step s pre) e := by
  constructor
  · rintro h pre e ⟨rest, rfl⟩
    rw [List.append_assoc, within_append] at h
    exact h.2.1
  · intro h
    induction es generalizing s with
    | nil => exact within_nil _ _ _
    | cons e es ih =>
      refine ⟨h [] e (List.prefix_append [e] es), ih fun pre e' hpre => ?_⟩
      exact h (e :: pre) e' (List.cons_prefix_cons.mpr ⟨rfl, hpre⟩)

/-- The invariant rule: what every admitted event preserves holds after every admitted run. -/
theorem Within.invariant {ok : σ → ε → Prop} {step : σ → ε → σ} (Inv : σ → Prop)
    (hstep : ∀ s e, Inv s → ok s e → Inv (step s e)) {s : σ} {es : List ε}
    (h : Within ok step s es) (hs : Inv s) : Inv (run step s es) := by
  induction es generalizing s with
  | nil => exact hs
  | cons e es ih => exact ih h.2 (hstep s e hs h.1)

/-- Under an invariant of all events, two conditions that agree restrict to the same runs. -/
theorem within_congr {ok ok' : σ → ε → Prop} {step : σ → ε → σ} (Inv : σ → Prop)
    (hstep : ∀ s e, Inv s → Inv (step s e)) (hok : ∀ s e, Inv s → (ok s e ↔ ok' s e)) {s : σ}
    (hs : Inv s) (es : List ε) : Within ok step s es ↔ Within ok' step s es := by
  induction es generalizing s with
  | nil => rfl
  | cons e es ih => rw [within_cons, within_cons, hok s e hs, ih (hstep s e hs)]

/-- The same where only the admitted events preserve the invariant. -/
theorem within_congr_of_ok {ok ok' : σ → ε → Prop} {step : σ → ε → σ} (Inv : σ → Prop)
    (hstep : ∀ s e, Inv s → ok s e → Inv (step s e)) (hok : ∀ s e, Inv s → (ok s e ↔ ok' s e))
    {s : σ} (hs : Inv s) (es : List ε) : Within ok step s es ↔ Within ok' step s es := by
  induction es generalizing s with
  | nil => rfl
  | cons e es ih =>
    rw [within_cons, within_cons, ← hok s e hs]
    exact and_congr_right fun he => ih (hstep s e hs he)

/-- The unrestricted invariant rule. -/
theorem run_invariant {step : σ → ε → σ} (Inv : σ → Prop)
    (hstep : ∀ s e, Inv s → Inv (step s e)) {s : σ} (hs : Inv s) (es : List ε) :
    Inv (run step s es) := by
  induction es generalizing s with
  | nil => exact hs
  | cons e es ih => exact ih (hstep s e hs)

/-- When a property of the reached states holds exactly as long as the condition does,
the runs whose every state has it are the restricted ones. -/
theorem forall_prefix_iff_within {ok : σ → ε → Prop} {step : σ → ε → σ} {s : σ}
    {P : List ε → Prop} (h0 : P [])
    (hstep : ∀ es e, Within ok step s es → P es →
      (P (es ++ [e]) ↔ ok (run step s es) e)) (es : List ε) :
    (∀ pre, pre <+: es → P pre) ↔ Within ok step s es := by
  induction es using List.reverseRecOn with
  | nil =>
    constructor
    · intro _
      exact within_nil _ _ _
    · intro _ pre hpre
      rw [List.prefix_nil.mp hpre]
      exact h0
  | append_singleton es e ih =>
    rw [within_append]
    constructor
    · intro h
      have hw := ih.mp fun pre hpre => h pre (hpre.trans (List.prefix_append es [e]))
      have hp := h es (List.prefix_append es [e])
      exact ⟨hw, (hstep es e hw hp).mp (h _ List.prefix_rfl), True.intro⟩
    · rintro ⟨hw, hok, -⟩ pre hpre
      rcases List.prefix_concat_iff.mp hpre with rfl | hpre
      · exact (hstep es e hw (ih.mpr hw es List.prefix_rfl)).mpr hok
      · exact ih.mpr hw pre hpre

end Blacklink.Base
