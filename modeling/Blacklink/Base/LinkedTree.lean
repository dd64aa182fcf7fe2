import Mathlib.Data.List.Nodup
import Mathlib.Logic.Function.Basic
import Blacklink.Base.Loop
import Blacklink.Base.RoseTree

/-!
# Trees of linked nodes

Nodes at addresses of a memory that point to their children and to their parent, and the tree that
is in the memory: a tree whose values have their addresses. A change elsewhere does not change the
tree (`Holds.congr`), and the nodes of a tree that is freed are those at its addresses
(`ends_free`).
-/

namespace Blacklink.Base

/-- An address. -/
abbrev Ptr := Nat

/-- A node of a tree with the links that it has in a memory. -/
structure LinkedNode (α : Type) where
  value : α
  children : List Ptr
  parent : Option Ptr

/-- The nodes at the addresses of a memory. -/
abbrev Memory (α : Type) := Ptr → Option (LinkedNode α)

variable {α : Type}

namespace RoseTree

/-- The address of the root. -/
def addr (t : RoseTree (Ptr × α)) : Ptr := t.value.1

/-- The tree without its addresses. -/
def plain : RoseTree (Ptr × α) → RoseTree α := para fun a ts => .node a.2 (ts.map Prod.snd)

/-- All addresses of a tree. -/
def addrs : RoseTree (Ptr × α) → List Ptr := para fun a ts => a.1 :: ts.flatMap Prod.snd

/-- The tree is in the memory, and all links to parents are those to the node above. -/
def Holds (m : Memory α) (t : RoseTree (Ptr × α)) (parent : Option Ptr) : Prop :=
  para (fun a (ts : List (_ × (Option Ptr → Prop))) parent =>
    m a.1 = some ⟨a.2, ts.map fun t => t.1.addr, parent⟩ ∧ ∀ t ∈ ts, t.2 (some a.1)) t parent

theorem plain_node (a : Ptr × α) (ts : List (RoseTree (Ptr × α))) :
    plain (node a ts) = node a.2 (ts.map plain) := by
  rw [plain, para_node, ← plain, List.map_map]
  rfl

theorem value_plain (t : RoseTree (Ptr × α)) : t.plain.value = t.value.2 := by
  cases t with
  | node a ts => rw [plain_node]; rfl

theorem addrs_node (a : Ptr × α) (ts : List (RoseTree (Ptr × α))) :
    addrs (node a ts) = a.1 :: ts.flatMap addrs := by
  rw [addrs, para_node, ← addrs, List.flatMap_map]

theorem addr_mem_addrs (t : RoseTree (Ptr × α)) : t.addr ∈ t.addrs := by
  cases t with
  | node a ts =>
    rw [addrs_node]
    exact List.mem_cons_self

theorem holds_node {m : Memory α} {a : Ptr × α} {ts : List (RoseTree (Ptr × α))}
    {parent : Option Ptr} :
    Holds m (node a ts) parent ↔
      m a.1 = some ⟨a.2, ts.map addr, parent⟩ ∧ ∀ t ∈ ts, Holds m t (some a.1) := by
  rw [Holds, para_node]
  simp [Function.comp_def, Holds]

/-- A tree in a memory is still there when nothing has changed at its addresses. -/
theorem Holds.congr {m m' : Memory α} {t : RoseTree (Ptr × α)} {parent : Option Ptr}
    (h : Holds m t parent) (heq : ∀ p ∈ t.addrs, m' p = m p) : Holds m' t parent := by
  induction t using induction generalizing parent with
  | node a ts ih =>
    rw [holds_node] at h ⊢
    rw [addrs_node] at heq
    refine ⟨(heq _ List.mem_cons_self).trans h.1, fun t ht => ih t ht (h.2 t ht) fun p hp => ?_⟩
    exact heq p (List.mem_cons_of_mem _ (List.mem_flatMap_of_mem ht hp))

/-- The node at the root. -/
theorem Holds.root {m : Memory α} {t : RoseTree (Ptr × α)} {parent : Option Ptr}
    (h : Holds m t parent) :
    ∃ children, m t.addr = some ⟨t.value.2, children, parent⟩ := by
  cases t with
  | node a ts => exact ⟨_, (holds_node.mp h).1⟩

end RoseTree

/-! ### Freeing -/

/-- A pass that frees the first of the nodes, whose children follow. -/
def freePass (_ : Nat) (s : Memory α × List Ptr) : Option (Pass (Memory α × List Ptr) (Memory α)) :=
  match s.2 with
  | [] => some (.done s.1)
  | p :: ps => do
    let node ← s.1 p
    some (.again (Function.update s.1 p none, node.children ++ ps))

theorem freePass_fuelMono : FuelMono (@freePass α) := fun _ _ _ _ _ h => h

open RoseTree in
/-- What is freed are the nodes at the addresses of the trees. -/
theorem ends_free {ts : List (RoseTree (Ptr × α))} {m : Memory α}
    (hts : ∀ t ∈ ts, ∃ parent, Holds m t parent) (hnodup : (ts.flatMap addrs).Nodup) :
    ∃ m', Ends (loop freePass) (m, ts.map addr) m' ∧
      ∀ p, p ∉ ts.flatMap addrs → m' p = m p := by
  induction hn : (ts.flatMap addrs).length using Nat.strong_induction_on generalizing ts m with
  | _ n ih =>
    cases ts with
    | nil => exact ⟨m, Ends.done ⟨0, rfl⟩, fun _ _ => rfl⟩
    | cons t ts =>
      cases t with
      | node a subs =>
        obtain ⟨parent, ht⟩ := hts _ List.mem_cons_self
        obtain ⟨hroot, hsubs⟩ := holds_node.mp ht
        have haddrs : (subs ++ ts).flatMap addrs = subs.flatMap addrs ++ ts.flatMap addrs :=
          List.flatMap_append
        rw [List.flatMap_cons, addrs_node, List.cons_append, ← haddrs, List.nodup_cons] at hnodup
        rw [List.flatMap_cons, addrs_node, List.cons_append, ← haddrs, List.length_cons] at hn
        have hkept : ∀ t ∈ subs ++ ts, ∀ p ∈ t.addrs, Function.update m a.1 none p = m p := by
          intro t ht p hp
          apply Function.update_of_ne
          rintro rfl
          exact hnodup.1 (List.mem_flatMap_of_mem ht hp)
        have hrest : ∀ t ∈ subs ++ ts, ∃ parent, Holds (Function.update m a.1 none) t parent := by
          intro t ht
          rcases List.mem_append.mp ht with hsub | hlater
          · exact ⟨_, (hsubs t hsub).congr (hkept t ht)⟩
          · obtain ⟨parent, h⟩ := hts t (List.mem_cons_of_mem _ hlater)
            exact ⟨parent, h.congr (hkept t ht)⟩
        obtain ⟨m', hends, hframe⟩ := ih _ (by omega) hrest hnodup.2 rfl
        refine ⟨m', Ends.again freePass_fuelMono ⟨0, ?_⟩ hends, fun p hp => ?_⟩
        · show (m a.1 >>= fun _ => _) = _
          rw [hroot, List.map_append]
          rfl
        · rw [List.flatMap_cons, addrs_node, List.cons_append, ← haddrs, List.mem_cons,
            not_or] at hp
          rw [hframe p hp.2, Function.update_of_ne hp.1]

end Blacklink.Base
