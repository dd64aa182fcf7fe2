import Mathlib.Data.List.Basic

/-!
# Trees with any number of children

Values in a tree whose nodes have lists of subtrees, the functions that go through such a tree from
its leaves on, and what holds at every node.
-/

namespace Blacklink.Base

/-- A value with the trees below it. -/
inductive RoseTree (α : Type) where
  | node (value : α) (children : List (RoseTree α))

namespace RoseTree

variable {α β : Type}

/-- The value at the root. -/
def value : RoseTree α → α
  | node a _ => a

/-- The trees below the root. -/
def children : RoseTree α → List (RoseTree α)
  | node _ ts => ts

mutual

/-- What is computed at the root from its value and its children, with what they gave. -/
def para (f : α → List (RoseTree α × β) → β) : RoseTree α → β
  | node a ts => f a (paras f ts)

/-- What is computed at each of the trees. -/
def paras (f : α → List (RoseTree α × β) → β) : List (RoseTree α) → List (RoseTree α × β)
  | [] => []
  | t :: ts => (t, para f t) :: paras f ts

end

theorem paras_eq_map (f : α → List (RoseTree α × β) → β) (ts : List (RoseTree α)) :
    paras f ts = ts.map fun t => (t, para f t) := by
  induction ts with
  | nil => rfl
  | cons t ts ih => rw [paras, ih, List.map_cons]

theorem para_node (f : α → List (RoseTree α × β) → β) (a : α) (ts : List (RoseTree α)) :
    para f (node a ts) = f a (ts.map fun t => (t, para f t)) := by
  rw [para, paras_eq_map]

mutual

private theorem induct {motive : RoseTree α → Prop}
    (h : ∀ a ts, (∀ t ∈ ts, motive t) → motive (node a ts)) : ∀ t, motive t
  | node a ts => h a ts (induct_all h ts)

private theorem induct_all {motive : RoseTree α → Prop}
    (h : ∀ a ts, (∀ t ∈ ts, motive t) → motive (node a ts)) :
    ∀ ts : List (RoseTree α), ∀ t ∈ ts, motive t
  | [], _, ht => absurd ht List.not_mem_nil
  | t :: ts, u, hu => by
    cases hu with
    | head => exact induct h t
    | tail _ hu => exact induct_all h ts u hu

end

/-- What holds of a node when it does of its children holds of every tree. -/
@[elab_as_elim]
theorem induction {motive : RoseTree α → Prop} (t : RoseTree α)
    (node : ∀ a ts, (∀ t ∈ ts, motive t) → motive (node a ts)) : motive t := induct node t

/-- What holds at every node, of its value and its children. -/
def Everywhere (P : α → List (RoseTree α) → Prop) : RoseTree α → Prop :=
  para fun a ts => P a (ts.map Prod.fst) ∧ ∀ t ∈ ts, t.2

theorem everywhere_node {P : α → List (RoseTree α) → Prop} {a : α} {ts : List (RoseTree α)} :
    Everywhere P (node a ts) ↔ P a ts ∧ ∀ t ∈ ts, Everywhere P t := by
  rw [Everywhere, para_node]
  simp [Function.comp_def]

mutual

/-- What can be decided at a node can be at every one. -/
def decidableEverywhere {P : α → List (RoseTree α) → Prop} [∀ a ts, Decidable (P a ts)] :
    (t : RoseTree α) → Decidable (Everywhere P t)
  | node a ts =>
    have := decidableEverywhereAll (P := P) ts
    decidable_of_iff (P a ts ∧ ∀ t ∈ ts, Everywhere P t) everywhere_node.symm

/-- The same for a list of trees. -/
def decidableEverywhereAll {P : α → List (RoseTree α) → Prop} [∀ a ts, Decidable (P a ts)] :
    (ts : List (RoseTree α)) → Decidable (∀ t ∈ ts, Everywhere P t)
  | [] => isTrue fun _ ht => absurd ht List.not_mem_nil
  | t :: ts =>
    have := decidableEverywhere (P := P) t
    have := decidableEverywhereAll (P := P) ts
    decidable_of_iff (Everywhere P t ∧ ∀ t ∈ ts, Everywhere P t) List.forall_mem_cons.symm

end

instance {P : α → List (RoseTree α) → Prop} [∀ a ts, Decidable (P a ts)] (t : RoseTree α) :
    Decidable (Everywhere P t) := decidableEverywhere t

end RoseTree

end Blacklink.Base
