import Mathlib.Logic.Basic

/-!
# Programs of atomic actions

A thread's code as a tree: it performs an action, and what it does next depends on the response.
Whoever runs the program decides the responses, so the same code can be run by itself or be
interleaved with other threads. A contract gives the thread a local state that follows its
actions, the assertions it makes before an action and the responses it may rely on.
-/

namespace Blacklink.Base

universe u v w

/-- A program over the actions `A`; the response to `a` is an `R a`. -/
inductive Prog (A : Type u) (R : A → Type v) (α : Type w) where
  | ret (x : α)
  | act (a : A) (next : R a → Prog A R α)

namespace Prog

variable {A : Type u} {R : A → Type v} {α β : Type w}

/-- Run `p`, then go on with its result. -/
def bind : Prog A R α → (α → Prog A R β) → Prog A R β
  | ret x, f => f x
  | act a next, f => act a fun r => (next r).bind f

/-- The program of one action. -/
def perform (a : A) : Prog A R (R a) := act a ret

instance : Monad (Prog A R) where
  pure := ret
  bind := bind

/-- The program has ended. -/
def returned : Prog A R α → Bool
  | ret _ => true
  | act _ _ => false

end Prog

/-- What a thread with the local state `γ` asserts before an action (`need`), which responses it
relies on (`may`) and the local state after one. -/
structure Contract (γ : Type*) (A : Type u) (R : A → Type v) where
  need : γ → A → Prop
  may : γ → (a : A) → R a → Prop
  next : γ → (a : A) → R a → γ

section Meets

variable {γ : Type*} {A : Type u} {R : A → Type v} {α β : Type v} (C : Contract γ A R)

/-- From the local state `g` on, the program keeps to the contract and ends in `post`. -/
def Meets (post : γ → α → Prop) (g : γ) : Prog A R α → Prop
  | .ret x => post g x
  | .act a next => C.need g a ∧ ∀ r, C.may g a r → Meets post (C.next g a r) (next r)

variable {C} {post : γ → α → Prop} {g : γ}

@[simp] theorem meets_pure (x : α) : Meets C post g (pure x) ↔ post g x := Iff.rfl

@[simp] theorem meets_ret (x : α) : Meets C post g (.ret x) ↔ post g x := Iff.rfl

/-- The rule for sequencing: the first part ends where the second one can start. -/
@[simp] theorem meets_bind (p : Prog A R α) (f : α → Prog A R β) {post : γ → β → Prop} :
    Meets C post g (p >>= f) ↔ Meets C (fun g x => Meets C post g (f x)) g p := by
  induction p generalizing g with
  | ret x => rfl
  | act a next ih => exact and_congr_right fun _ => forall₂_congr fun r _ => ih r

theorem meets_perform {a : A} {post : γ → R a → Prop} :
    Meets C post g (Prog.perform a) ↔
      C.need g a ∧ ∀ r, C.may g a r → post (C.next g a r) r := Iff.rfl

/-- A weaker end. -/
theorem Meets.imp {post' : γ → α → Prop} {p : Prog A R α} (h : Meets C post g p)
    (himp : ∀ g x, post g x → post' g x) : Meets C post' g p := by
  induction p generalizing g with
  | ret x => exact himp g x h
  | act a next ih => exact ⟨h.1, fun r hr => ih r (h.2 r hr)⟩

/-- The rule for a call: the callee's end is where the caller goes on. -/
theorem Meets.bind {p : Prog A R α} {f : α → Prog A R β} {post' : γ → β → Prop}
    (h : Meets C post g p) (hf : ∀ g x, post g x → Meets C post' g (f x)) :
    Meets C post' g (p >>= f) :=
  (meets_bind p f).mpr (h.imp hf)

/-- The rule for an action that is followed by more. -/
theorem meets_perform_bind {a : A} {f : R a → Prog A R β} {post : γ → β → Prop}
    (hneed : C.need g a) (hf : ∀ r, C.may g a r → Meets C post (C.next g a r) (f r)) :
    Meets C post g (Prog.perform a >>= f) := ⟨hneed, hf⟩

theorem meets_ite {c : Prop} [Decidable c] {p q : Prog A R α} (hp : c → Meets C post g p)
    (hq : ¬ c → Meets C post g q) : Meets C post g (if c then p else q) := by
  split
  · exact hp ‹_›
  · exact hq ‹_›

end Meets

end Blacklink.Base
