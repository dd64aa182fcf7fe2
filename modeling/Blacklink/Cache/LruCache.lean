import Mathlib.Data.List.AList
import Blacklink.Base.LinkedList
import Blacklink.Base.Loop
import Blacklink.Base.LruCache
import Blacklink.Base.Run

/-!
# Caches with linked items

Model of `LruCache` and `LruCacheEx` (`client/LruCache.h:6-199`): a map whose items are linked from
the oldest to the newest one, in `LruCacheEx` also back. The two are one definition with a flag; the
items of `LruCache` have no `prev`, and nothing reads or writes it there. Following a pointer to
where no item is has no outcome. The deleter of `LruCache`, which is given an item right before it
is erased, is left out.
-/

namespace Blacklink.Cache

open Blacklink.Base

variable {K V : Type}

/-- `item_type`. -/
structure Item (K V : Type) where
  key : K
  value : V
  next : Option Ptr
  prev : Option Ptr

/-- The items of the map at their addresses. -/
abbrev Items (K V : Type) := Ptr → Option (Item K V)

/-- `p->next = next`. -/
def Items.setNext (m : Items K V) (p : Ptr) (next : Option Ptr) : Option (Items K V) :=
  (m p).map fun item => Function.update m p (some { item with next := next })

/-- `p->prev = prev`. -/
def Items.setPrev (m : Items K V) (p : Ptr) (prev : Option Ptr) : Option (Items K V) :=
  (m p).map fun item => Function.update m p (some { item with prev := prev })

/-- `p->prev = prev`, only in `LruCacheEx`. -/
def Items.setPrevEx (ex : Bool) (m : Items K V) (p : Ptr) (prev : Option Ptr) :
    Option (Items K V) :=
  if ex then m.setPrev p prev else some m

/-- `LruCache` and `LruCacheEx`: `items` has the address of the item under a key, and `memory` the
items at these addresses. -/
structure LruCache (K V : Type) where
  items : AList fun _ : K => Ptr
  memory : Items K V
  oldestItem : Option Ptr
  newestItem : Option Ptr

namespace LruCache

/-- The constructor. -/
def new : LruCache K V := ⟨∅, fun _ => none, none, none⟩

/-- `clear`. -/
def clear (_ : LruCache K V) : LruCache K V := ⟨∅, fun _ => none, none, none⟩

/-- `if (newestItem) newestItem->next = newItem; else oldestItem = newItem;`: the items and the
oldest one. -/
def linkNewest (c : LruCache K V) (m : Items K V) (p : Ptr) : Option (Items K V × Option Ptr) :=
  match c.newestItem with
  | some newest => (m.setNext newest (some p)).map (·, c.oldestItem)
  | none => some (m, some p)

variable [DecidableEq K]

/-- `get`. -/
def get (c : LruCache K V) (key : K) : Option Ptr := c.items.lookup key

/-- `add` of both, an item that is inserted being put at the address `p`: the stored item, and if it
is a new one. -/
def addItem (ex : Bool) (c : LruCache K V) (p : Ptr) (item : Item K V) :
    Option (LruCache K V × Ptr × Bool) :=
  match c.items.lookup item.key with
  | some stored => some (c, stored, false)
  | none => do
    let m : Items K V := Function.update c.memory p (some { item with next := none })
    let (m, oldestItem) ← c.linkNewest m p
    let m ← m.setPrevEx ex p c.newestItem
    some (⟨c.items.insert item.key p, m, oldestItem, some p⟩, p, true)

/-- `removeOldest()` of both. -/
def removeOldestItem (ex : Bool) (c : LruCache K V) : Option (LruCache K V × Bool) :=
  match c.oldestItem with
  | none => some (c, false)
  | some oldest => do
    let item ← c.memory oldest
    let c := match c.items.lookup item.key with
      | some p =>
        { c with items := c.items.erase item.key, memory := Function.update c.memory p none }
      | none => c
    match item.next with
    | some next => do
      let m ← c.memory.setPrevEx ex next none
      some ({ c with memory := m, oldestItem := some next }, true)
    | none => some ({ c with oldestItem := none, newestItem := none }, true)

/-- A pass of the loop of `removeOldest(sizeThreshold)`. -/
def removePass (ex : Bool) (sizeThreshold : Nat) (_ : Nat) (c : LruCache K V) :
    Option (Pass (LruCache K V) (LruCache K V)) :=
  if sizeThreshold ≤ c.items.entries.length then do
    let (c, removed) ← c.removeOldestItem ex
    some (if removed then .again c else .done c)
  else some (.done c)

/-- `removeOldest(sizeThreshold)` of both. There are as many passes as there are items, and a last
one. -/
def removeOldestItems (ex : Bool) (c : LruCache K V) (sizeThreshold : Nat) :
    Option (LruCache K V) :=
  loop (removePass ex sizeThreshold) (c.items.entries.length + 1) c

/-- `LruCache::add`. -/
def add (c : LruCache K V) (p : Ptr) (item : Item K V) : Option (LruCache K V × Ptr × Bool) :=
  c.addItem false p item

/-- `LruCache::removeOldest()`. -/
def removeOne (c : LruCache K V) : Option (LruCache K V × Bool) := c.removeOldestItem false

/-- `LruCache::removeOldest(sizeThreshold)`. -/
def removeOldest (c : LruCache K V) (sizeThreshold : Nat) : Option (LruCache K V) :=
  c.removeOldestItems false sizeThreshold

end LruCache

/-- `LruCacheEx`. -/
abbrev LruCacheEx (K V : Type) := LruCache K V

namespace LruCacheEx

/-- `if (item->prev) item->prev->next = item->next; else oldestItem = item->next;`: the items and
the oldest one. -/
def unlinkNext (c : LruCacheEx K V) (m : Items K V) (item : Item K V) :
    Option (Items K V × Option Ptr) :=
  match item.prev with
  | some prev => (m.setNext prev item.next).map (·, c.oldestItem)
  | none => some (m, item.next)

/-- `LruCacheEx::makeNewest`. -/
def makeNewest (c : LruCacheEx K V) (p : Ptr) : Option (LruCacheEx K V) := do
  let item ← c.memory p
  match item.next with
  | none => some c
  | some next => do
    let m ← c.memory.setPrev next item.prev
    let item ← m p
    let (m, oldestItem) ← unlinkNext c m item
    let newest ← c.newestItem
    let m ← m.setNext newest (some p)
    let m ← m.setPrev p c.newestItem
    let m ← m.setNext p none
    some { c with memory := m, oldestItem := oldestItem, newestItem := some p }

variable [DecidableEq K]

/-- `LruCacheEx::add`. -/
def add (c : LruCacheEx K V) (p : Ptr) (item : Item K V) :
    Option (LruCacheEx K V × Ptr × Bool) :=
  c.addItem true p item

/-- `LruCacheEx::removeOldest()`. -/
def removeOne (c : LruCacheEx K V) : Option (LruCacheEx K V × Bool) := c.removeOldestItem true

/-- `LruCacheEx::removeOldest(sizeThreshold)`. -/
def removeOldest (c : LruCacheEx K V) (sizeThreshold : Nat) : Option (LruCacheEx K V) :=
  c.removeOldestItems true sizeThreshold

end LruCacheEx

/-! ### What is stored -/

/-- An item that is stored: where, and by which of the calls it became the newest one. -/
structure Stored (V : Type) where
  ptr : Ptr
  value : V
  time : Nat

/-- The items that are stored, the oldest first, and how many calls there have been. -/
structure StoredItems (K V : Type) where
  cache : Base.LruCache K (Stored V)
  time : Nat

/-- A call. A new item is put at an address that the allocator gives. -/
inductive Call (K V : Type) where
  | add (p : Ptr) (item : Item K V)
  | get (key : K)
  | makeNewest (p : Ptr)
  | removeOldestItem
  | removeOldest (sizeThreshold : Nat)
  | clear

namespace StoredItems

/-- The addresses of the items. -/
def ptrs (s : StoredItems K V) : List Ptr := s.cache.map fun i => i.2.ptr

/-- The items without the one at an address, and this one behind them. -/
def moveToEnd (s : StoredItems K V) (p : Ptr) : Base.LruCache K (Stored V) :=
  (s.cache.filter fun i => i.2.ptr ≠ p) ++
    (s.cache.filter fun i => i.2.ptr = p).map fun i => (i.1, { i.2 with time := s.time })

/-- What a call does to the items: an insertion and `makeNewest` put an item behind the others,
and items are removed from the front. -/
def step [DecidableEq K] (s : StoredItems K V) : Call K V → StoredItems K V
  | .add p item => ⟨s.cache.add item.key ⟨p, item.value, s.time⟩, s.time + 1⟩
  | .get _ => ⟨s.cache, s.time + 1⟩
  | .makeNewest p => ⟨s.moveToEnd p, s.time + 1⟩
  | .removeOldestItem => ⟨s.cache.tail, s.time + 1⟩
  | .removeOldest sizeThreshold => ⟨s.cache.removeOldest sizeThreshold, s.time + 1⟩
  | .clear => ⟨[], s.time + 1⟩

/-- An item is moved behind those that are behind it. -/
theorem moveToEnd_eq {s : StoredItems K V} {front back : List (K × Stored V)} {i : K × Stored V}
    (hcache : s.cache = front ++ i :: back) (hnodup : s.ptrs.Nodup) :
    s.moveToEnd i.2.ptr = front ++ back ++ [(i.1, { i.2 with time := s.time })] := by
  rw [ptrs, hcache, List.map_append, List.map_cons] at hnodup
  have hperm := List.nodup_cons.mp (List.nodup_middle.mp hnodup)
  have hother : ∀ j ∈ front ++ back, j.2.ptr ≠ i.2.ptr := by
    intro j hj heq
    apply hperm.1
    rw [← List.map_append, ← heq]
    exact List.mem_map_of_mem hj
  have hfront : ∀ j ∈ front, j.2.ptr ≠ i.2.ptr := fun j hj =>
    hother j (List.mem_append_left _ hj)
  have hback : ∀ j ∈ back, j.2.ptr ≠ i.2.ptr := fun j hj => hother j (List.mem_append_right _ hj)
  have hrest : s.cache.filter (fun j => j.2.ptr ≠ i.2.ptr) = front ++ back := by
    rw [hcache, List.filter_append, List.filter_cons_of_neg (by simp)]
    congr 1
    · exact List.filter_eq_self.mpr fun j hj => decide_eq_true (hfront j hj)
    · exact List.filter_eq_self.mpr fun j hj => decide_eq_true (hback j hj)
  have hmoved : s.cache.filter (fun j => j.2.ptr = i.2.ptr) = [i] := by
    rw [hcache, List.filter_append, List.filter_cons_of_pos (by simp),
      List.filter_eq_nil_iff.mpr fun j hj => by simpa using hfront j hj,
      List.filter_eq_nil_iff.mpr fun j hj => by simpa using hback j hj]
    rfl
  rw [moveToEnd, hrest, hmoved, List.map_singleton]

end StoredItems

/-- A call of `LruCacheEx` or of `LruCache`, and what it does to the items. -/
def callStep [DecidableEq K] (ex : Bool) (s : Option (LruCache K V) × StoredItems K V)
    (call : Call K V) : Option (LruCache K V) × StoredItems K V :=
  (s.1.bind fun c =>
    match call with
    | .add p item => (if ex then LruCacheEx.add c p item else c.add p item).map Prod.fst
    | .get _ => some c
    | .makeNewest p => LruCacheEx.makeNewest c p
    | .removeOldestItem => (if ex then LruCacheEx.removeOne c else c.removeOne).map Prod.fst
    | .removeOldest sizeThreshold =>
      if ex then LruCacheEx.removeOldest c sizeThreshold else c.removeOldest sizeThreshold
    | .clear => some c.clear, s.2.step call)

section Both

variable [DecidableEq K] (ex : Bool) (c : LruCache K V)

theorem add_eq (p : Ptr) (item : Item K V) :
    (if ex then LruCacheEx.add c p item else c.add p item) = c.addItem ex p item := by
  cases ex <;> rfl

theorem removeOne_eq :
    (if ex then LruCacheEx.removeOne c else c.removeOne) = c.removeOldestItem ex := by
  cases ex <;> rfl

theorem removeOldest_eq (sizeThreshold : Nat) :
    (if ex then LruCacheEx.removeOldest c sizeThreshold else c.removeOldest sizeThreshold) =
      c.removeOldestItems ex sizeThreshold := by
  cases ex <;> rfl

end Both

/-- The cache and its items after some calls. -/
def afterCalls [DecidableEq K] (ex : Bool) (calls : List (Call K V)) :
    Option (LruCache K V) × StoredItems K V :=
  run (callStep ex) (some LruCache.new, ⟨[], 0⟩) calls

/-- A new item is put where no item is, and only `LruCacheEx` has `makeNewest`, which is given a
stored item. -/
def Allowed (ex : Bool) (s : Option (LruCache K V) × StoredItems K V) : Call K V → Prop
  | .add p _ => p ∉ s.2.ptrs
  | .makeNewest p => ex = true ∧ p ∈ s.2.ptrs
  | _ => True

instance (ex : Bool) (s : Option (LruCache K V) × StoredItems K V) :
    ∀ call, Decidable (Allowed ex s call)
  | .add p _ => inferInstanceAs (Decidable (p ∉ s.2.ptrs))
  | .makeNewest p => inferInstanceAs (Decidable (ex = true ∧ p ∈ s.2.ptrs))
  | .get _ | .removeOldestItem | .removeOldest _ | .clear => isTrue True.intro

/-! ### The views of a memory -/

/-- What a function has of the item at an address. -/
def Items.view {β : Type} (f : Item K V → β) (m : Items K V) (p : Ptr) : Option β := (m p).map f

/-- Where the items point along `next`. -/
abbrev Items.nextLinks (m : Items K V) : Links := m.view Item.next

/-- Where the items point along `prev`. -/
abbrev Items.prevLinks (m : Items K V) : Links := m.view Item.prev

/-- What is stored at the addresses. -/
abbrev Items.content (m : Items K V) : Ptr → Option (K × V) :=
  m.view fun item => (item.key, item.value)

namespace Items

variable {β : Type} {f : Item K V → β} {m : Items K V} {p : Ptr}

theorem view_eq (f : Item K V → β) {item : Item K V} (h : m p = some item) :
    m.view f p = some (f item) := congrArg (Option.map f) h

theorem view_congr {m' : Items K V} (h : m' p = m p) : m'.view f p = m.view f p :=
  congrArg (Option.map f) h

theorem view_update (item : Option (Item K V)) :
    view f (Function.update m p item) = Function.update (m.view f) p (item.map f) := by
  funext x
  by_cases hx : x = p
  · rw [view, hx, Function.update_self, Function.update_self]
  · rw [view, Function.update_of_ne hx, Function.update_of_ne hx, view]

/-- Nothing changes for a function that has the same of the new item. -/
theorem view_update_same {item item' : Item K V} (h : m p = some item) (hf : f item' = f item) :
    view f (Function.update m p (some item')) = m.view f := by
  rw [view_update, Option.map_some, hf, ← view_eq f h, Function.update_eq_self]

theorem isSome_of_view {b : β} (h : m.view f p = some b) : (m p).isSome := by
  rw [view] at h
  obtain ⟨item, hitem, -⟩ := Option.map_eq_some_iff.mp h
  rw [hitem, Option.isSome_some]

/-- Only where one item points along `next` changes. -/
theorem setNext_eq (h : (m p).isSome) (next : Option Ptr) :
    ∃ m', m.setNext p next = some m' ∧
      m'.nextLinks = Function.update m.nextLinks p (some next) ∧
      m'.prevLinks = m.prevLinks ∧ m'.content = m.content := by
  obtain ⟨item, hitem⟩ := Option.isSome_iff_exists.mp h
  refine ⟨_, by rw [setNext, hitem, Option.map_some], view_update _, ?_, ?_⟩
  · exact view_update_same hitem rfl
  · exact view_update_same hitem rfl

/-- Only where one item points along `prev` changes. -/
theorem setPrev_eq (h : (m p).isSome) (prev : Option Ptr) :
    ∃ m', m.setPrev p prev = some m' ∧
      m'.prevLinks = Function.update m.prevLinks p (some prev) ∧
      m'.nextLinks = m.nextLinks ∧ m'.content = m.content := by
  obtain ⟨item, hitem⟩ := Option.isSome_iff_exists.mp h
  refine ⟨_, by rw [setPrev, hitem, Option.map_some], view_update _, ?_, ?_⟩
  · exact view_update_same hitem rfl
  · exact view_update_same hitem rfl

/-- The same, only in `LruCacheEx`. -/
theorem setPrevEx_eq (ex : Bool) (h : (m p).isSome) (prev : Option Ptr) :
    ∃ m', m.setPrevEx ex p prev = some m' ∧
      (ex = true → m'.prevLinks = Function.update m.prevLinks p (some prev)) ∧
      m'.nextLinks = m.nextLinks ∧ m'.content = m.content := by
  cases ex with
  | true =>
    obtain ⟨m', hset, hprev, hnext, hcontent⟩ := setPrev_eq h prev
    exact ⟨m', hset, fun _ => hprev, hnext, hcontent⟩
  | false => exact ⟨m, rfl, fun hex => absurd hex Bool.false_ne_true, rfl, rfl⟩

end Items

/-! ### The list of the items -/

/-- The items are linked in their order, and they are those of the map. -/
structure Holds (ex : Bool) (s : StoredItems K V) (c : LruCache K V) : Prop where
  next : Chain c.memory.nextLinks c.oldestItem s.ptrs none
  newest : c.newestItem = s.ptrs.getLast?
  prev : ex = true → Chain c.memory.prevLinks c.newestItem s.ptrs.reverse none
  nodup : s.ptrs.Nodup
  content : ∀ i ∈ s.cache, c.memory.content i.2.ptr = some (i.1, i.2.value)
  entries : c.items.entries.Perm (s.cache.map fun i => ⟨i.1, i.2.ptr⟩)

theorem holds_nil (ex : Bool) (time : Nat) : Holds ex ⟨[], time⟩ (LruCache.new : LruCache K V) where
  next := rfl
  newest := rfl
  prev _ := rfl
  nodup := List.nodup_nil
  content := List.forall_mem_nil _
  entries := List.Perm.nil

section Holds

variable {ex : Bool} {s : StoredItems K V} {c : LruCache K V}

theorem Holds.at_time (h : Holds ex s c) (time : Nat) : Holds ex ⟨s.cache, time⟩ c :=
  ⟨h.next, h.newest, h.prev, h.nodup, h.content, h.entries⟩

/-- There are as many items in the map as in the list. -/
theorem Holds.length_eq (h : Holds ex s c) : c.items.entries.length = s.cache.length := by
  rw [h.entries.length_eq, List.length_map]

theorem Holds.keysNodup (h : Holds ex s c) : s.cache.KeysNodup := by
  have hkeys := (h.entries.map Sigma.fst).nodup_iff.mp c.items.nodupKeys
  rwa [List.map_map] at hkeys

/-- An item of the list is in the memory. -/
theorem Holds.isSome (h : Holds ex s c) {p : Ptr} (hp : p ∈ s.ptrs) : (c.memory p).isSome := by
  obtain ⟨i, hi, rfl⟩ := List.mem_map.mp hp
  exact Items.isSome_of_view (h.content i hi)

/-- Without items there is no newest one. -/
theorem Holds.ptrs_eq_nil (h : Holds ex s c) (hnewest : c.newestItem = none) : s.ptrs = [] :=
  List.getLast?_eq_none_iff.mp (h.newest.symm.trans hnewest)

/-- The newest item is the last one. -/
theorem Holds.ptrs_eq_append (h : Holds ex s c) {newest : Ptr}
    (hnewest : c.newestItem = some newest) :
    ∃ ps, s.ptrs = ps ++ [newest] :=
  List.getLast?_eq_some_iff.mp (h.newest.symm.trans hnewest)

/-- A new item is put behind the newest one. -/
theorem Holds.linkNewest (h : Holds ex s c) {p : Ptr} (hp : p ∉ s.ptrs) {m : Items K V}
    (hnext : m.nextLinks = Function.update c.memory.nextLinks p (some none))
    (hsome : ∀ x, x ≠ p → m x = c.memory x) :
    ∃ m' oldestItem, c.linkNewest m p = some (m', oldestItem) ∧
      Chain m'.nextLinks oldestItem (s.ptrs ++ [p]) none ∧ m'.prevLinks = m.prevLinks ∧
      m'.content = m.content := by
  rw [LruCache.linkNewest]
  cases hnewest : c.newestItem with
  | none =>
    refine ⟨m, some p, rfl, ?_, rfl, rfl⟩
    rw [h.ptrs_eq_nil hnewest]
    exact ⟨rfl, none, by rw [hnext, Function.update_self], rfl⟩
  | some newest =>
    obtain ⟨ps, hps⟩ := h.ptrs_eq_append hnewest
    have hmem : newest ∈ s.ptrs := by
      rw [hps]
      exact List.mem_append_right _ (List.mem_singleton_self _)
    have hne : newest ≠ p := fun heq => hp (heq ▸ hmem)
    have hnewestSome : (m newest).isSome := by
      rw [hsome newest hne]
      exact h.isSome hmem
    obtain ⟨m', hset, hnext', hprev', hcontent'⟩ := Items.setNext_eq hnewestSome (some p)
    refine ⟨m', c.oldestItem, congrArg (Option.map (·, c.oldestItem)) hset, ?_, hprev', hcontent'⟩
    have hnodup := h.nodup
    have hchain := h.next
    rw [hps] at hnodup hchain hp ⊢
    rw [hnext', hnext]
    have hnot : newest ∉ ps := fun hmem' =>
      List.disjoint_of_nodup_append hnodup hmem' (List.mem_singleton_self _)
    refine hchain.concat (fun x hx => ?_) (Function.update_self _ _ _) ?_
    · have hx_newest : x ≠ newest := fun heq => hnot (heq ▸ hx)
      have hx_p : x ≠ p := fun heq => hp (List.mem_append_left _ (heq ▸ hx))
      rw [Function.update_of_ne hx_newest, Function.update_of_ne hx_p]
    · rw [Function.update_of_ne hne.symm, Function.update_self]

/-- An item is taken from between two parts of the list. -/
theorem unlinkNext_eq {m : Items K V} {item : Item K V} {as bs : List Ptr} {p : Ptr}
    (h : Chain m.nextLinks c.oldestItem (as ++ p :: bs) none) (hnodup : (as ++ p :: bs).Nodup)
    (hprev : item.prev = as.getLast?) (hnext : item.next = bs.head?) :
    ∃ m' oldestItem, LruCacheEx.unlinkNext c m item = some (m', oldestItem) ∧
      Chain m'.nextLinks oldestItem (as ++ bs) none ∧ m'.prevLinks = m.prevLinks ∧
      m'.content = m.content := by
  rw [LruCacheEx.unlinkNext, hprev, hnext]
  cases as using List.reverseRecOn with
  | nil => exact ⟨m, bs.head?, rfl, Chain.tail h, rfl, rfl⟩
  | append_singleton as a =>
    have hlink := h
    rw [List.append_assoc] at hlink
    obtain ⟨m', hset, hnext', hprev', hcontent'⟩ :=
      Items.setNext_eq (Items.isSome_of_view hlink.link_eq) bs.head?
    rw [List.getLast?_concat]
    refine ⟨m', c.oldestItem, congrArg (Option.map (·, c.oldestItem)) hset, ?_, hprev', hcontent'⟩
    have hdisjoint := List.disjoint_of_nodup_append hnodup
    have has : as.Nodup ∧ a ∉ as := by
      have hfront := List.nodup_append'.mp (List.nodup_append'.mp hnodup).1
      exact ⟨hfront.1, fun hmem => hfront.2.2 hmem (List.mem_singleton_self a)⟩
    rw [hnext']
    refine h.unlink (fun x hx => ?_) (fun x hx => ?_) (Function.update_self _ _ _)
    · have hne : x ≠ a := fun heq => has.2 (heq ▸ hx)
      exact Function.update_of_ne hne _ _
    · have hne : x ≠ a := fun heq =>
        hdisjoint (List.mem_append_right _ (List.mem_singleton_self a))
          (heq ▸ List.mem_cons_of_mem p hx)
      exact Function.update_of_ne hne _ _

/-- `makeNewest` of the newest item does nothing. -/
theorem Holds.makeNewest_newest {front : List (K × Stored V)} {i : K × Stored V}
    (h : Holds ex s c) (hcache : s.cache = front ++ [i]) :
    LruCacheEx.makeNewest c i.2.ptr = some c ∧
      Holds ex ⟨front ++ [(i.1, { i.2 with time := s.time })], s.time + 1⟩ c := by
  have hptrs : s.ptrs = front.map (fun i => i.2.ptr) ++ [i.2.ptr] := by
    rw [StoredItems.ptrs, hcache, List.map_append]
    rfl
  have hsame : StoredItems.ptrs
      ⟨front ++ [(i.1, { i.2 with time := s.time })], s.time + 1⟩ = s.ptrs :=
    List.map_append.trans hptrs.symm
  constructor
  · have hnext := h.next
    rw [hptrs] at hnext
    obtain ⟨item, hitem, hlink⟩ := Option.map_eq_some_iff.mp hnext.link_eq
    rw [LruCacheEx.makeNewest, hitem]
    simp only [Option.bind_eq_bind, Option.bind_some]
    rw [hlink]
    rfl
  · refine ⟨hsame ▸ h.next, hsame ▸ h.newest, fun hex ↦ hsame ▸ h.prev hex, hsame ▸ h.nodup, ?_, ?_⟩
    · intro j hj
      rcases List.mem_append.mp hj with hfront | hlast
      · exact h.content j (hcache ▸ List.mem_append_left _ hfront)
      · rw [List.mem_singleton.mp hlast]
        exact h.content i (hcache ▸ List.mem_append_right _ (List.mem_singleton_self i))
    · have hentries := h.entries
      rw [hcache, List.map_append] at hentries
      rw [List.map_append]
      exact hentries

/-- `makeNewest` of another item takes it out of the list and puts it at the end, in both
directions. -/
theorem makeNewest_eq {as bs : List Ptr} {p : Ptr}
    (hnext : Chain c.memory.nextLinks c.oldestItem (as ++ p :: bs) none)
    (hprev : Chain c.memory.prevLinks c.newestItem (as ++ p :: bs).reverse none)
    (hnodup : (as ++ p :: bs).Nodup) (hbs : bs ≠ []) :
    ∃ m oldestItem, LruCacheEx.makeNewest c p =
        some { c with memory := m, oldestItem := oldestItem, newestItem := some p } ∧
      Chain m.nextLinks oldestItem (as ++ bs ++ [p]) none ∧
      Chain m.prevLinks (some p) (as ++ bs ++ [p]).reverse none ∧
      m.content = c.memory.content := by
  obtain ⟨hnotin, hnodupRest⟩ := List.nodup_cons.mp (List.nodup_middle.mp hnodup)
  have hother : ∀ x ∈ as ++ bs, x ≠ p := fun x hx heq => hnotin (heq ▸ hx)
  have hreverse : (as ++ p :: bs).reverse = bs.reverse ++ p :: as.reverse := by simp
  rw [hreverse] at hprev
  obtain ⟨item, hitem, hitemNext⟩ := Option.map_eq_some_iff.mp hnext.link_eq
  have hitemPrev : item.prev = as.getLast? := by
    have hlink := (Items.view_eq Item.prev hitem).symm.trans hprev.link_eq
    rw [List.head?_reverse] at hlink
    exact Option.some.inj hlink
  obtain ⟨b, bs', hb⟩ := List.exists_cons_of_ne_nil hbs
  have hbmem : b ∈ as ++ bs := by simp [hb]
  have hbp := hother b hbmem
  rw [hb, List.head?_cons] at hitemNext
  -- `item->next->prev = item->prev`
  have hbLink : (c.memory b).isSome := by
    have hchain := hnext
    rw [hb, List.append_cons] at hchain
    exact Items.isSome_of_view hchain.link_eq
  obtain ⟨m₁, hset₁, hprev₁, hnext₁, hcontent₁⟩ := Items.setPrev_eq hbLink item.prev
  have hp₁ : ∃ item₁, m₁ p = some item₁ ∧ item₁.next = some b ∧ item₁.prev = as.getLast? := by
    have hnextLink : m₁.nextLinks p = some (some b) := by
      rw [hnext₁, hnext.link_eq, hb]
      rfl
    obtain ⟨item₁, hitem₁, hitemNext₁⟩ := Option.map_eq_some_iff.mp hnextLink
    refine ⟨item₁, hitem₁, hitemNext₁, ?_⟩
    have hprevLink : m₁.prevLinks p = some as.getLast? := by
      rw [hprev₁, Function.update_of_ne hbp.symm, hprev.link_eq, List.head?_reverse]
    exact Option.some.inj ((Items.view_eq Item.prev hitem₁).symm.trans hprevLink)
  obtain ⟨item₁, hitem₁, hitemNext₁, hitemPrev₁⟩ := hp₁
  have hback : Chain m₁.prevLinks c.newestItem (as ++ bs).reverse none := by
    rw [List.reverse_append, hb, List.reverse_cons, hprev₁]
    rw [hb, List.reverse_cons] at hprev
    rw [hb] at hnodupRest
    have hbNot := (List.nodup_cons.mp (List.nodup_middle.mp hnodupRest)).1
    refine hprev.unlink (fun x hx => ?_) (fun x hx => ?_) ?_
    · have hne : x ≠ b := fun heq =>
        hbNot (List.mem_append_right _ (heq ▸ List.mem_reverse.mp hx))
      exact Function.update_of_ne hne _ _
    · have hne : x ≠ b := fun heq =>
        hbNot (List.mem_append_left _ (heq ▸ List.mem_reverse.mp hx))
      exact Function.update_of_ne hne _ _
    · rw [Function.update_self, hitemPrev, List.head?_reverse]
  -- `item->prev->next = item->next`, or `oldestItem = item->next`
  rw [← hnext₁] at hnext
  obtain ⟨m₂, oldestItem, hunlink, hnext₂, hprev₂, hcontent₂⟩ :=
    unlinkNext_eq hnext hnodup hitemPrev₁ (hitemNext₁.trans (by rw [hb]; rfl))
  -- `newestItem->next = item`
  obtain ⟨newest, hlast⟩ : ∃ newest, (as ++ bs).getLast? = some newest :=
    Option.isSome_iff_exists.mp (List.getLast?_isSome.mpr (List.ne_nil_of_mem hbmem))
  have hnewest : c.newestItem = some newest := by
    rw [hback.start_eq, List.head?_reverse, hlast]
  obtain ⟨ps, hps⟩ := List.getLast?_eq_some_iff.mp hlast
  rw [hps] at hother hnext₂ hback hnodupRest ⊢
  have hnewestMem : newest ∈ ps ++ [newest] := List.mem_append_right _ (List.mem_singleton_self _)
  have hnewestNot : newest ∉ ps := fun hmem =>
    List.disjoint_of_nodup_append hnodupRest hmem (List.mem_singleton_self _)
  obtain ⟨m₃, hset₃, hnext₃, hprev₃, hcontent₃⟩ :=
    Items.setNext_eq (Items.isSome_of_view hnext₂.link_eq) (some p)
  -- `item->prev = newestItem`, `item->next = nullptr`
  have hpLink : m₃.prevLinks p = some item.prev := by
    rw [hprev₃, hprev₂, hprev₁, Function.update_of_ne hbp.symm]
    exact Items.view_eq Item.prev hitem
  obtain ⟨m₄, hset₄, hprev₄, hnext₄, hcontent₄⟩ :=
    Items.setPrev_eq (Items.isSome_of_view hpLink) c.newestItem
  have hpLink₄ : m₄.prevLinks p = some c.newestItem := by rw [hprev₄, Function.update_self]
  obtain ⟨m₅, hset₅, hnext₅, hprev₅, hcontent₅⟩ :=
    Items.setNext_eq (Items.isSome_of_view hpLink₄) none
  refine ⟨m₅, oldestItem, ?_, ?_, ?_, ?_⟩
  · rw [LruCacheEx.makeNewest]
    simp only [hitem, hitemNext, hset₁, hitem₁, hunlink, hnewest, hset₃, Option.bind_eq_bind,
      Option.bind_some]
    rw [hnewest] at hset₄
    simp only [hset₄, hset₅, Option.bind_some]
  · refine hnext₂.concat (fun x hx => ?_) ?_ ?_
    · have hx_p : x ≠ p := hother x (List.mem_append_left _ hx)
      have hx_newest : x ≠ newest := fun heq => hnewestNot (heq ▸ hx)
      rw [hnext₅, Function.update_of_ne hx_p, hnext₄, hnext₃, Function.update_of_ne hx_newest]
    · rw [hnext₅, Function.update_of_ne (hother newest hnewestMem), hnext₄, hnext₃,
        Function.update_self]
    · rw [hnext₅, Function.update_self]
  · rw [List.reverse_concat]
    refine hback.cons (fun x hx => ?_) ?_
    · rw [hprev₅, hprev₄, Function.update_of_ne (hother x (List.mem_reverse.mp hx)), hprev₃, hprev₂]
    · rw [hprev₅, hpLink₄]
  · rw [hcontent₅, hcontent₄, hcontent₃, hcontent₂, hcontent₁]

variable [DecidableEq K]

/-- What `get` finds is where the item under the key is. -/
theorem Holds.get_eq (h : Holds ex s c) (key : K) :
    c.get key = (s.cache.get key).map Stored.ptr := by
  ext p
  rw [LruCache.get, ← Option.mem_def, AList.mem_lookup_iff, h.entries.mem_iff, List.mem_map,
    Option.map_eq_some_iff]
  constructor
  · rintro ⟨⟨k, a⟩, hmem, heq⟩
    cases heq
    exact ⟨a, Base.LruCache.get_of_mem h.keysNodup hmem, rfl⟩
  · rintro ⟨a, hget, rfl⟩
    exact ⟨(key, a), Base.LruCache.mem_of_get hget, rfl⟩

/-- `add` puts a new item at the end, unless there is one under its key. -/
theorem Holds.addItem (h : Holds ex s c) {p : Ptr} (hp : p ∉ s.ptrs) (item : Item K V) :
    ∃ c' stored added, c.addItem ex p item = some (c', stored, added) ∧
      Holds ex (s.step (.add p item)) c' := by
  have hlookup := h.get_eq item.key
  rw [LruCache.get] at hlookup
  rw [LruCache.addItem, hlookup]
  cases hget : s.cache.get item.key with
  | some a =>
    have hstep : s.step (.add p item) = ⟨s.cache, s.time + 1⟩ := by
      rw [StoredItems.step, Base.LruCache.add, hget]
      rfl
    refine ⟨c, a.ptr, false, rfl, ?_⟩
    rw [hstep]
    exact ⟨h.next, h.newest, h.prev, h.nodup, h.content, h.entries⟩
  | none =>
    have hstep : s.step (.add p item) =
        ⟨s.cache ++ [(item.key, ⟨p, item.value, s.time⟩)], s.time + 1⟩ := by
      rw [StoredItems.step, Base.LruCache.add, hget]
      rfl
    rw [hstep]
    generalize hm : Function.update c.memory p (some { item with next := none }) = m
    have hnew : Items.nextLinks m = Function.update c.memory.nextLinks p (some none) := by
      rw [← hm]
      exact Items.view_update _
    have hkeep : ∀ x, x ≠ p → m x = c.memory x := by
      intro x hx
      rw [← hm, Function.update_of_ne hx]
    obtain ⟨m₁, oldestItem, hlink, hchain, hprev₁, hcontent₁⟩ := h.linkNewest hp hnew hkeep
    have hcontent : m₁.content =
        Function.update c.memory.content p (some (item.key, item.value)) := by
      rw [hcontent₁, ← hm]
      exact Items.view_update _
    have hsome : (m₁ p).isSome := by
      have hp₁ : m₁.content p = some (item.key, item.value) := by
        rw [hcontent, Function.update_self]
      exact Items.isSome_of_view hp₁
    obtain ⟨m₂, hset, hprev₂, hnext₂, hcontent₂⟩ :=
      Items.setPrevEx_eq ex hsome c.newestItem
    have hptrs : StoredItems.ptrs ⟨s.cache ++ [(item.key, ⟨p, item.value, s.time⟩)], s.time + 1⟩ =
        s.ptrs ++ [p] := List.map_append
    have hother : ∀ x ∈ s.ptrs, x ≠ p := fun x hx heq => hp (heq ▸ hx)
    refine ⟨⟨c.items.insert item.key p, m₂, oldestItem, some p⟩, p, true, ?_, ?_⟩
    · show (c.linkNewest m p >>= _) = _
      rw [hlink]
      show (m₁.setPrevEx ex p c.newestItem >>= _) = _
      rw [hset]
      rfl
    · constructor
      · rw [hptrs]
        exact hnext₂ ▸ hchain
      · rw [hptrs, List.getLast?_concat]
      · intro hex
        rw [hptrs, List.reverse_concat]
        refine (h.prev hex).cons (fun x hx => ?_) ?_
        · have hx_p := hother x (List.mem_reverse.mp hx)
          rw [hprev₂ hex, Function.update_of_ne hx_p, hprev₁]
          exact Items.view_congr (hkeep x hx_p)
        · rw [hprev₂ hex, Function.update_self]
      · rw [hptrs]
        exact List.nodup_append'.mpr ⟨h.nodup, List.nodup_singleton p,
          fun x hx hmem => hother x hx (List.mem_singleton.mp hmem)⟩
      · intro i hi
        dsimp only
        rw [hcontent₂, hcontent]
        rcases List.mem_append.mp hi with hold | hnew
        · rw [Function.update_of_ne (hother _ (List.mem_map_of_mem hold))]
          exact h.content i hold
        · rw [List.mem_singleton.mp hnew, Function.update_self]
      · have hnot : item.key ∉ c.items := by
          rw [← AList.lookup_eq_none, hlookup, hget]
          rfl
        dsimp only
        rw [AList.entries_insert_of_notMem hnot, List.map_append]
        exact (List.Perm.cons _ h.entries).trans (List.perm_append_singleton _ _).symm

/-- The oldest item is removed. -/
theorem Holds.removeOldestItem {i : K × Stored V} {rest : Base.LruCache K (Stored V)} {time : Nat}
    (h : Holds ex ⟨i :: rest, time⟩ c) :
    ∃ c', c.removeOldestItem ex = some (c', true) ∧ Holds ex ⟨rest, time⟩ c' := by
  obtain ⟨key, p, value, stamp⟩ := i
  generalize hptrs : rest.map (fun i => i.2.ptr) = ptrs
  have hfull : StoredItems.ptrs ⟨(key, ⟨p, value, stamp⟩) :: rest, time⟩ = p :: ptrs := by
    rw [← hptrs]
    rfl
  have hnext := h.next
  have hnewest := h.newest
  have hprev := h.prev
  have hnodup := h.nodup
  rw [hfull] at hnext hnewest hprev hnodup
  obtain ⟨hnot, hnodup⟩ := List.nodup_cons.mp hnodup
  have hother : ∀ x ∈ ptrs, x ≠ p := fun x hx heq => hnot (heq ▸ hx)
  obtain ⟨holdest, next, hlink, hrest⟩ := hnext
  have hcontent := h.content _ List.mem_cons_self
  obtain ⟨item, hitem, hitemContent⟩ := Option.map_eq_some_iff.mp hcontent
  have hkey : item.key = key := congrArg Prod.fst hitemContent
  have hitemNext : item.next = next := by
    exact Option.some.inj ((Items.view_eq Item.next hitem).symm.trans hlink)
  have hlookup : c.items.lookup item.key = some p := by
    have hget := Base.LruCache.get_of_mem h.keysNodup List.mem_cons_self
    have hfind := h.get_eq key
    rw [hget] at hfind
    rw [hkey]
    exact hfind
  have hentries : (c.items.erase item.key).entries.Perm (rest.map fun i => ⟨i.1, i.2.ptr⟩) := by
    have herase := List.Perm.kerase (a := key) c.items.nodupKeys h.entries
    rw [hkey]
    have hfirst : List.kerase key
        (⟨key, p⟩ :: rest.map fun i => (⟨i.1, i.2.ptr⟩ : Sigma fun _ => Ptr)) =
          rest.map fun i => ⟨i.1, i.2.ptr⟩ := List.kerase_cons_eq rfl
    exact hfirst ▸ herase
  have hrestContent : ∀ i ∈ rest,
      Items.content (Function.update c.memory p none) i.2.ptr = some (i.1, i.2.value) := by
    intro i hi
    have hne : i.2.ptr ≠ p := hother _ (hptrs ▸ List.mem_map_of_mem hi)
    exact (Items.view_congr (Function.update_of_ne hne _ _)).trans
      (h.content i (List.mem_cons_of_mem _ hi))
  have hrest' : Chain (Items.nextLinks (Function.update c.memory p none)) next ptrs none := by
    refine hrest.congr fun x hx => ?_
    exact Items.view_congr (Function.update_of_ne (hother x hx) _ _)
  rw [LruCache.removeOldestItem, holdest]
  simp only [hitem, hlookup, Option.bind_eq_bind, Option.bind_some]
  rw [hitemNext]
  cases next with
  | none =>
    have hnil : ptrs = [] := List.head?_eq_none_iff.mp hrest.start_eq.symm
    have hrestNil : rest = [] := List.map_eq_nil_iff.mp (hptrs.trans hnil)
    refine ⟨_, rfl, ?_⟩
    rw [hrestNil] at hentries ⊢
    exact ⟨rfl, rfl, fun _ => rfl, List.nodup_nil, List.forall_mem_nil _, hentries⟩
  | some next =>
    obtain ⟨ps, hps⟩ : ∃ ps, ptrs = next :: ps := List.head?_eq_some_iff.mp hrest.start_eq.symm
    have hmem : next ∈ ptrs := by
      rw [hps]
      exact List.mem_cons_self
    have hsome : (Function.update c.memory p none next).isSome := by
      rw [Function.update_of_ne (hother next hmem)]
      apply h.isSome
      rw [hfull]
      exact List.mem_cons_of_mem p hmem
    obtain ⟨m, hset, hprev', hnext', hcontent'⟩ := Items.setPrevEx_eq ex hsome none
    simp only [hset, Option.bind_some]
    refine ⟨_, rfl, ?_, ?_, ?_, ?_, ?_, hentries⟩
    · show Chain m.nextLinks (some next) (rest.map _) none
      rw [hptrs, hnext']
      exact hrest'
    · show c.newestItem = (rest.map _).getLast?
      rw [hptrs, hnewest, hps, List.getLast?_cons_cons]
    · intro hex
      show Chain m.prevLinks c.newestItem (rest.map _).reverse none
      have hchain := hprev hex
      rw [List.reverse_cons, chain_append] at hchain
      obtain ⟨mid, hfront, -⟩ := hchain
      rw [hps, List.reverse_cons] at hfront
      rw [hptrs, hps, List.reverse_cons, hprev' hex]
      refine hfront.relink (fun x hx => ?_) (Function.update_self _ _ _)
      have hx_mem : x ∈ ps := List.mem_reverse.mp hx
      have hx_next : x ≠ next := fun heq =>
        (List.nodup_cons.mp (hps ▸ hnodup)).1 (heq ▸ hx_mem)
      have hx_p : x ≠ p := hother x (hps ▸ List.mem_cons_of_mem next hx_mem)
      rw [Function.update_of_ne hx_next]
      exact Items.view_congr (Function.update_of_ne hx_p _ _)
    · show (rest.map _).Nodup
      rwa [hptrs]
    · intro i hi
      show m.content i.2.ptr = _
      rw [hcontent']
      exact hrestContent i hi

/-- Without items there is nothing to remove. -/
theorem Holds.removeOldestItem_nil {time : Nat} (h : Holds ex ⟨[], time⟩ c) :
    c.removeOldestItem ex = some (c, false) := by
  have holdest : c.oldestItem = none := h.next
  rw [LruCache.removeOldestItem, holdest]

/-- The loop removes the oldest items until there are fewer than the threshold. -/
theorem Holds.loop_removePass {cache : Base.LruCache K (Stored V)} {time : Nat}
    (h : Holds ex ⟨cache, time⟩ c) (sizeThreshold : Nat) {fuel : Nat}
    (hfuel : cache.length < fuel) :
    ∃ c', loop (LruCache.removePass ex sizeThreshold) fuel c = some c' ∧
      Holds ex ⟨cache.removeOldest sizeThreshold, time⟩ c' := by
  induction cache generalizing c fuel with
  | nil =>
    obtain ⟨fuel, rfl⟩ := Nat.exists_eq_add_one_of_ne_zero (Nat.ne_of_gt hfuel)
    rw [loop, LruCache.removePass, h.removeOldestItem_nil]
    refine ⟨c, ?_, ?_⟩
    · by_cases hlarge : sizeThreshold ≤ c.items.entries.length
      · rw [if_pos hlarge]
        rfl
      · rw [if_neg hlarge]
    · rw [Base.LruCache.removeOldest, List.drop_nil]
      exact h
  | cons i rest ih =>
    obtain ⟨fuel, rfl⟩ := Nat.exists_eq_add_one_of_ne_zero (Nat.ne_of_gt (Nat.zero_lt_of_lt hfuel))
    rw [loop, LruCache.removePass, h.length_eq]
    by_cases hlarge : sizeThreshold ≤ (i :: rest).length
    · obtain ⟨c₁, hremove, h₁⟩ := h.removeOldestItem
      obtain ⟨c', hloop, h'⟩ := ih h₁ (Nat.lt_of_succ_lt_succ hfuel)
      refine ⟨c', ?_, ?_⟩
      · rw [if_pos hlarge, hremove]
        exact hloop
      · have hdrop : Base.LruCache.removeOldest (i :: rest) sizeThreshold =
            Base.LruCache.removeOldest rest sizeThreshold := by
          rw [List.length_cons] at hlarge
          rw [Base.LruCache.removeOldest, Base.LruCache.removeOldest, List.length_cons,
            Nat.sub_add_comm hlarge, List.drop_succ_cons]
        rwa [hdrop]
    · refine ⟨c, ?_, ?_⟩
      · rw [if_neg hlarge]
      · rw [Base.LruCache.removeOldest, Nat.sub_eq_zero_of_le (Nat.lt_of_not_le hlarge),
          List.drop_zero]
        exact h

theorem Holds.removeOldestItems (h : Holds ex s c) (sizeThreshold : Nat) :
    ∃ c', c.removeOldestItems ex sizeThreshold = some c' ∧
      Holds ex (s.step (.removeOldest sizeThreshold)) c' := by
  obtain ⟨c', hloop, h'⟩ := h.loop_removePass sizeThreshold (Nat.lt_succ_self s.cache.length)
  refine ⟨c', ?_, h'.at_time (s.time + 1)⟩
  rw [LruCache.removeOldestItems, h.length_eq]
  exact hloop

/-- `makeNewest` puts an item at the end. -/
theorem Holds.makeNewest (h : Holds true s c) {p : Ptr} (hp : p ∈ s.ptrs) :
    ∃ c', LruCacheEx.makeNewest c p = some c' ∧ Holds true (s.step (.makeNewest p)) c' := by
  obtain ⟨i, hi, rfl⟩ := List.mem_map.mp hp
  obtain ⟨front, back, hcache⟩ := List.append_of_mem hi
  have hstep : s.step (.makeNewest i.2.ptr) =
      ⟨front ++ back ++ [(i.1, { i.2 with time := s.time })], s.time + 1⟩ := by
    rw [StoredItems.step, StoredItems.moveToEnd_eq hcache h.nodup]
  rw [hstep]
  cases back with
  | nil =>
    rw [List.append_nil]
    exact ⟨c, h.makeNewest_newest hcache⟩
  | cons j back =>
    generalize hback : j :: back = back' at hcache ⊢
    have hptrs : s.ptrs =
        front.map (fun i => i.2.ptr) ++ i.2.ptr :: back'.map (fun i => i.2.ptr) := by
      rw [StoredItems.ptrs, hcache, List.map_append, List.map_cons]
    have hptrs' : StoredItems.ptrs
        ⟨front ++ back' ++ [(i.1, { i.2 with time := s.time })], s.time + 1⟩ =
          front.map (fun i => i.2.ptr) ++ back'.map (fun i => i.2.ptr) ++ [i.2.ptr] := by
      rw [StoredItems.ptrs, List.map_append, List.map_append, List.map_singleton]
    have hne : back'.map (fun i => i.2.ptr) ≠ [] := by
      rw [← hback]
      exact List.cons_ne_nil _ _
    obtain ⟨m, oldestItem, hmake, hnext, hprev, hcontent⟩ :=
      makeNewest_eq (hptrs ▸ h.next) (hptrs ▸ h.prev rfl) (hptrs ▸ h.nodup) hne
    refine ⟨_, hmake, hptrs' ▸ hnext, ?_, fun _ => hptrs' ▸ hprev, ?_, ?_, ?_⟩
    · rw [hptrs', List.getLast?_concat]
    · have hperm : (front.map (fun i => i.2.ptr) ++ back'.map (fun i => i.2.ptr) ++ [i.2.ptr]).Perm
          s.ptrs := by
        rw [hptrs]
        exact (List.perm_append_singleton _ _).trans List.perm_middle.symm
      rw [hptrs']
      exact hperm.nodup_iff.mpr h.nodup
    · intro k hk
      show m.content k.2.ptr = _
      rw [hcontent]
      rcases List.mem_append.mp hk with hold | hlast
      · apply h.content
        rw [hcache]
        rcases List.mem_append.mp hold with hfront | hback
        · exact List.mem_append_left _ hfront
        · exact List.mem_append_right _ (List.mem_cons_of_mem i hback)
      · rw [List.mem_singleton.mp hlast]
        exact h.content i hi
    · refine h.entries.trans ?_
      rw [hcache, List.map_append, List.map_cons, List.map_append, List.map_append]
      exact List.perm_middle.trans (List.perm_append_singleton _ _).symm

/-- A call that is allowed has an outcome. -/
theorem holds_callStep {s : Option (LruCache K V) × StoredItems K V} {call : Call K V}
    (hs : ∃ c, s.1 = some c ∧ Holds ex s.2 c) (hcall : Allowed ex s call) :
    ∃ c, (callStep ex s call).1 = some c ∧ Holds ex (callStep ex s call).2 c := by
  obtain ⟨c, hc, h⟩ := hs
  rw [callStep, hc]
  simp only [Option.bind_some, add_eq, removeOne_eq, removeOldest_eq]
  cases call with
  | add p item =>
    obtain ⟨c', stored, added, hadd, h'⟩ := h.addItem hcall item
    exact ⟨c', congrArg (Option.map Prod.fst) hadd, h'⟩
  | get key => exact ⟨c, rfl, h.at_time _⟩
  | makeNewest p =>
    obtain ⟨rfl, hp⟩ := hcall
    exact h.makeNewest hp
  | removeOldestItem =>
    cases hcache : s.2.cache with
    | nil =>
      have hnil : Holds ex ⟨[], s.2.time⟩ c := hcache ▸ h.at_time s.2.time
      refine ⟨c, congrArg (Option.map Prod.fst) hnil.removeOldestItem_nil, ?_⟩
      have htail := hnil.at_time (s.2.time + 1)
      rwa [StoredItems.step, hcache]
    | cons i rest =>
      have hcons : Holds ex ⟨i :: rest, s.2.time⟩ c := hcache ▸ h.at_time s.2.time
      obtain ⟨c', hremove, h'⟩ := hcons.removeOldestItem
      refine ⟨c', congrArg (Option.map Prod.fst) hremove, ?_⟩
      have htail := h'.at_time (s.2.time + 1)
      rwa [StoredItems.step, hcache]
  | removeOldest sizeThreshold => exact h.removeOldestItems sizeThreshold
  | clear => exact ⟨_, rfl, holds_nil ex _⟩

theorem holds_afterCalls {calls : List (Call K V)}
    (h : Within (Allowed ex) (callStep ex) (some LruCache.new, ⟨[], 0⟩) calls) :
    ∃ c, (afterCalls ex calls).1 = some c ∧ Holds ex (afterCalls ex calls).2 c :=
  h.invariant (fun s => ∃ c, s.1 = some c ∧ Holds ex s.2 c) (fun _ _ => holds_callStep)
    ⟨_, rfl, holds_nil ex 0⟩

end Holds

/-! ### The order of the items -/

/-- A call made an item the newest one, by inserting it or by `makeNewest`. -/
def MakesNewest (i : K × Stored V) : Call K V → Prop
  | .add p item => p = i.2.ptr ∧ item.key = i.1 ∧ item.value = i.2.value
  | .makeNewest p => p = i.2.ptr
  | _ => False

/-- The items are in the order of the last calls that made them the newest one. -/
structure InOrder (calls : List (Call K V)) (s : StoredItems K V) : Prop where
  time : s.time = calls.length
  sorted : s.cache.Pairwise fun i j => i.2.time < j.2.time
  makes : ∀ i ∈ s.cache, ∃ call, calls[i.2.time]? = some call ∧ MakesNewest i call
  last : ∀ i ∈ s.cache, ∀ t, i.2.time < t → calls[t]? ≠ some (.makeNewest i.2.ptr)

section InOrder

variable {calls : List (Call K V)} {s : StoredItems K V}

theorem inOrder_nil : InOrder [] (⟨[], 0⟩ : StoredItems K V) where
  time := rfl
  sorted := List.Pairwise.nil
  makes := List.forall_mem_nil _
  last := List.forall_mem_nil _

/-- The call that made an item the newest one has been. -/
theorem InOrder.lt_length (h : InOrder calls s) {i : K × Stored V} (hi : i ∈ s.cache) :
    i.2.time < calls.length := by
  obtain ⟨made, hmade, -⟩ := h.makes i hi
  exact (List.getElem?_eq_some_iff.mp hmade).1

/-- What is left of the items after a call that makes none of them the newest one. -/
theorem InOrder.sublist (h : InOrder calls s) {cache : Base.LruCache K (Stored V)}
    (hsub : cache.Sublist s.cache) {call : Call K V}
    (hcall : ∀ i ∈ cache, call ≠ .makeNewest i.2.ptr) :
    InOrder (calls ++ [call]) ⟨cache, s.time + 1⟩ where
  time := by rw [h.time, List.length_append, List.length_singleton]
  sorted := h.sorted.sublist hsub
  makes i hi := by
    obtain ⟨made, hmade, hmakes⟩ := h.makes i (hsub.subset hi)
    exact ⟨made, (List.getElem?_append_left (h.lt_length (hsub.subset hi))).trans hmade, hmakes⟩
  last i hi t ht := by
    rw [List.getElem?_append]
    split
    · exact h.last i (hsub.subset hi) t ht
    · rw [List.getElem?_singleton]
      split
      · intro heq
        exact hcall i hi (Option.some.inj heq)
      · exact nofun

/-- The items that a call leaves, and behind them the one that it makes the newest one. -/
theorem InOrder.concat (h : InOrder calls s) {cache : Base.LruCache K (Stored V)}
    (hsub : cache.Sublist s.cache) {call : Call K V}
    (hcall : ∀ i ∈ cache, call ≠ .makeNewest i.2.ptr) {i : K × Stored V}
    (htime : i.2.time = s.time) (hmakes : MakesNewest i call) :
    InOrder (calls ++ [call]) ⟨cache ++ [i], s.time + 1⟩ := by
  have hbefore := h.sublist hsub hcall
  have hlast : i.2.time = calls.length := htime.trans h.time
  constructor
  · exact hbefore.time
  · refine List.pairwise_append.mpr ⟨hbefore.sorted, List.pairwise_singleton _ _, ?_⟩
    intro j hj k hk
    rw [List.mem_singleton.mp hk, hlast]
    exact h.lt_length (hsub.subset hj)
  · intro j hj
    rcases List.mem_append.mp hj with hold | hnew
    · exact hbefore.makes j hold
    · rw [List.mem_singleton.mp hnew, hlast]
      exact ⟨call, List.getElem?_concat_length, hmakes⟩
  · intro j hj t ht
    rcases List.mem_append.mp hj with hold | hnew
    · exact hbefore.last j hold t ht
    · rw [List.mem_singleton.mp hnew, hlast] at ht
      rw [List.getElem?_eq_none (by rw [List.length_append, List.length_singleton]; omega)]
      exact nofun

/-- A call keeps the order. -/
theorem InOrder.step [DecidableEq K] (h : InOrder calls s) (hnodup : s.ptrs.Nodup)
    {call : Call K V} (hcall : ∀ p, call = .makeNewest p → p ∈ s.ptrs) :
    InOrder (calls ++ [call]) (s.step call) := by
  cases call with
  | add p item =>
    have hadd : ∀ i ∈ s.cache, Call.add p item ≠ .makeNewest i.2.ptr := fun _ _ => by simp
    rw [StoredItems.step, Base.LruCache.add]
    split
    · exact h.sublist (List.Sublist.refl _) hadd
    · exact h.concat (List.Sublist.refl _) hadd rfl ⟨rfl, rfl, rfl⟩
  | get key => exact h.sublist (List.Sublist.refl _) fun _ _ => by simp
  | makeNewest p =>
    obtain ⟨i, hi, rfl⟩ := List.mem_map.mp (hcall p rfl)
    obtain ⟨front, back, hcache⟩ := List.append_of_mem hi
    rw [StoredItems.step, StoredItems.moveToEnd_eq hcache hnodup]
    have hsub : (front ++ back).Sublist s.cache := by
      rw [hcache]
      exact (List.sublist_cons_self i back).append_left front
    refine h.concat hsub (fun j hj heq => ?_) rfl rfl
    rw [StoredItems.ptrs, hcache, List.map_append, List.map_cons] at hnodup
    apply (List.nodup_cons.mp (List.nodup_middle.mp hnodup)).1
    rw [Call.makeNewest.inj heq, ← List.map_append]
    exact List.mem_map_of_mem hj
  | removeOldestItem => exact h.sublist (List.tail_sublist _) fun _ _ => by simp
  | removeOldest sizeThreshold => exact h.sublist (List.drop_sublist _ _) fun _ _ => by simp
  | clear => exact h.sublist (List.nil_sublist _) fun _ _ => by simp

theorem inOrder_afterCalls [DecidableEq K] {ex : Bool}
    (h : Within (Allowed ex) (callStep ex) (some LruCache.new, ⟨[], 0⟩) calls) :
    InOrder calls (afterCalls ex calls).2 := by
  induction calls using List.reverseRecOn with
  | nil => exact inOrder_nil
  | append_singleton calls call ih =>
    rw [within_append] at h
    obtain ⟨hbefore, hallowed, -⟩ := h
    obtain ⟨c, -, hholds⟩ := holds_afterCalls hbefore
    have hstored : ∀ p, call = .makeNewest p → p ∈ (afterCalls ex calls).2.ptrs := by
      rintro p rfl
      exact hallowed.2
    have hstep := (ih hbefore).step hholds.nodup hstored
    rw [afterCalls, run_append]
    exact hstep

end InOrder

/-- The list from the oldest item along `next` has exactly the items of the map, each once, in the
order in which they were inserted or last made the newest one, and ends with the newest item. In
`LruCacheEx` the list along `prev` is the same from behind, and `prev` is the inverse of `next`.
`removeOldest` takes from the front of the list what is above its threshold. -/
theorem linked_in_order [DecidableEq K] (ex : Bool) (calls : List (Call K V))
    (h : Within (Allowed ex) (callStep ex) (some LruCache.new, ⟨[], 0⟩) calls) :
    ∃ c, (afterCalls ex calls).1 = some c ∧
      let s := (afterCalls ex calls).2
      Chain c.memory.nextLinks c.oldestItem s.ptrs none ∧
        s.ptrs.Nodup ∧
        c.items.entries.Perm (s.cache.map fun i => ⟨i.1, i.2.ptr⟩) ∧
        (∀ i ∈ s.cache, c.memory.content i.2.ptr = some (i.1, i.2.value)) ∧
        InOrder calls s ∧
        c.newestItem = s.ptrs.getLast? ∧
        (ex = true →
          Chain c.memory.prevLinks c.newestItem s.ptrs.reverse none ∧
            ∀ p ∈ s.ptrs, ∀ q ∈ s.ptrs,
              (c.memory.nextLinks p = some (some q) ↔ c.memory.prevLinks q = some (some p))) ∧
        ∀ sizeThreshold, ∃ c',
          (if ex then LruCacheEx.removeOldest c sizeThreshold else c.removeOldest sizeThreshold) =
            some c' ∧
          Chain c'.memory.nextLinks c'.oldestItem
            (s.ptrs.drop (s.ptrs.length + 1 - sizeThreshold)) none ∧
          (c'.items.entries.map Sigma.snd).Perm
            (s.ptrs.drop (s.ptrs.length + 1 - sizeThreshold)) := by
  obtain ⟨c, hc, hholds⟩ := holds_afterCalls h
  refine ⟨c, hc, hholds.next, hholds.nodup, hholds.entries, hholds.content, inOrder_afterCalls h,
    hholds.newest, fun hex => ⟨hholds.prev hex, fun p hp q hq => ?_⟩, fun sizeThreshold => ?_⟩
  · exact hholds.next.inverse (hholds.prev hex) hholds.nodup hp hq
  · obtain ⟨c', hremove, h'⟩ := hholds.removeOldestItems sizeThreshold
    have hptrs : StoredItems.ptrs ((afterCalls ex calls).2.step (.removeOldest sizeThreshold)) =
        (afterCalls ex calls).2.ptrs.drop
          ((afterCalls ex calls).2.ptrs.length + 1 - sizeThreshold) := by
      rw [StoredItems.step, StoredItems.ptrs, StoredItems.ptrs, Base.LruCache.removeOldest,
        List.map_drop, List.length_map]
    have hentries := h'.entries.map Sigma.snd
    rw [List.map_map] at hentries
    rw [removeOldest_eq]
    exact ⟨c', hremove, hptrs ▸ h'.next, hptrs ▸ hentries⟩

theorem newest_of_five_calls :
    ∃ c, (afterCalls true [.add 1 ⟨10, "a", none, none⟩, .add 2 ⟨20, "b", none, none⟩,
        .add 3 ⟨30, "c", none, none⟩, .makeNewest 1, .removeOldest 3]).1 = some c ∧
      c.oldestItem = some 3 ∧ c.newestItem = some 1 := by
  obtain ⟨c, hc, hnext, -, -, -, -, hnewest, -⟩ := linked_in_order true
    [.add 1 ⟨10, "a", none, none⟩, .add 2 ⟨20, "b", none, none⟩, .add 3 ⟨30, "c", none, none⟩,
      .makeNewest 1, .removeOldest 3] (by decide)
  exact ⟨c, hc, hnext.start_eq.trans (by decide), hnewest.trans (by decide)⟩

end Blacklink.Cache
