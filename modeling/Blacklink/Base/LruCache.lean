import Mathlib.Data.List.Nodup

/-!
# A bounded cache

Items under keys, the oldest first. An item is not added when its key is there, and items are only
removed from the old end, so no key is there twice.
-/

namespace Blacklink.Base

/-- The keys and the values of a cache, the oldest first. -/
abbrev LruCache (K V : Type*) := List (K × V)

namespace LruCache

variable {K V : Type*} (c : LruCache K V)

/-- The value under a key. -/
def get [DecidableEq K] (k : K) : Option V := (c.find? fun item => item.1 = k).map Prod.snd

/-- Remove the oldest items until there are fewer than `n`. -/
def removeOldest (n : Nat) : LruCache K V := c.drop (c.length + 1 - n)

/-- Add an item, when its key is not there. -/
def add [DecidableEq K] (k : K) (v : V) : LruCache K V :=
  if (c.get k).isSome then c else c ++ [(k, v)]

/-- No key is there twice. -/
def KeysNodup : Prop := (c.map Prod.fst).Nodup

variable {c}

theorem removeOldest_sublist (n : Nat) : (c.removeOldest n).Sublist c := List.drop_sublist _ _

theorem keysNodup_nil : KeysNodup ([] : LruCache K V) := List.nodup_nil

theorem KeysNodup.removeOldest (hc : c.KeysNodup) (n : Nat) : (c.removeOldest n).KeysNodup :=
  hc.sublist ((removeOldest_sublist n).map Prod.fst)

variable [DecidableEq K]

theorem mem_of_get {k : K} {v : V} (h : c.get k = some v) : (k, v) ∈ c := by
  obtain ⟨item, hitem, rfl⟩ := Option.map_eq_some_iff.mp h
  have hk : item.1 = k := by simpa using List.find?_some hitem
  rw [← hk]
  exact List.mem_of_find?_eq_some hitem

theorem get_eq_none_iff {k : K} : c.get k = none ↔ k ∉ c.map Prod.fst := by
  rw [get, Option.map_eq_none_iff, List.find?_eq_none]
  constructor
  · intro h hmem
    obtain ⟨item, hitem, rfl⟩ := List.mem_map.mp hmem
    exact h item hitem (by simp)
  · intro h item hitem hk
    apply h
    rw [← of_decide_eq_true hk]
    exact List.mem_map_of_mem hitem

theorem get_of_mem (hc : c.KeysNodup) {k : K} {v : V} (h : (k, v) ∈ c) : c.get k = some v := by
  cases hget : c.get k with
  | none => exact absurd (List.mem_map_of_mem h) (get_eq_none_iff.mp hget)
  | some w =>
    have hw := mem_of_get hget
    have heq : (k, w) = (k, v) := List.inj_on_of_nodup_map hc hw h rfl
    rw [(Prod.mk.injEq _ _ _ _).mp heq |>.2]

theorem mem_add {k : K} {v : V} {item : K × V} :
    item ∈ c.add k v ↔ item ∈ c ∨ c.get k = none ∧ item = (k, v) := by
  rw [add]
  cases c.get k with
  | none => simp
  | some w => simp

theorem KeysNodup.add (hc : c.KeysNodup) (k : K) (v : V) : (c.add k v).KeysNodup := by
  rw [LruCache.add]
  split
  · exact hc
  · next hk =>
    rw [Bool.not_eq_true, Option.isSome_eq_false_iff, Option.isNone_iff_eq_none,
      get_eq_none_iff] at hk
    rw [KeysNodup, List.map_append, List.nodup_append']
    refine ⟨hc, List.nodup_singleton _, ?_⟩
    intro a ha hmem
    rw [List.map_singleton, List.mem_singleton] at hmem
    rw [hmem] at ha
    exact hk ha

/-! ### Answers to queries -/

theorem get_add_of_none {k : K} (h : c.get k = none) (v : V) : (c.add k v).get k = some v := by
  have hfind := Option.map_eq_none_iff.mp h
  rw [add, h, get, if_neg (by simp), List.find?_append, hfind]
  simp

variable {Q : Type*} {key : Q → K} {answer answer' : Q → V}

/-- What is under the key of a query is the answer to it. -/
def Answers (c : LruCache K V) (key : Q → K) (answer : Q → V) : Prop :=
  ∀ q v, c.get (key q) = some v → v = answer q

theorem answers_nil : Answers ([] : LruCache K V) key answer := fun _ _ h => nomatch h

/-- When the answers change, they must not for the queries that are there. -/
theorem Answers.congr_iff (h : c.Answers key answer) :
    c.Answers key answer' ↔ ∀ q, (c.get (key q)).isSome → answer' q = answer q := by
  constructor
  · intro h' q hq
    obtain ⟨v, hv⟩ := Option.isSome_iff_exists.mp hq
    rw [← h q v hv, ← h' q v hv]
  · intro heq q v hv
    rw [heq q (Option.isSome_iff_exists.mpr ⟨v, hv⟩)]
    exact h q v hv

/-- A value that is stored is the answer to all queries with its key, unless one is there. -/
theorem Answers.store_iff (h : c.Answers key answer) (hc : c.KeysNodup) (n : Nat) (k : K) (v : V) :
    ((c.removeOldest n).add k v).Answers key answer ↔
      ((c.removeOldest n).get k = none → ∀ q, key q = k → v = answer q) := by
  constructor
  · intro hall hnone q hq
    apply hall q v
    rw [hq, get_add_of_none hnone]
  · intro hv q w hw
    rcases mem_add.mp (mem_of_get hw) with hmem | ⟨hnone, heq⟩
    · exact h q w (get_of_mem hc ((removeOldest_sublist n).subset hmem))
    · cases heq
      exact hv hnone q rfl

end LruCache

end Blacklink.Base
