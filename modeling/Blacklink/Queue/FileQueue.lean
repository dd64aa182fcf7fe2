import Mathlib.Data.List.AList
import Blacklink.Base.Run

/-!
# The queue by file

Model of `QueueManager::FileQueue` with its two indexes (`client/QueueManager.cpp:193-264, 405-411,
464-471`) and of what `move` and `removeTarget` do to it (`:1446-1507, 2472-2557`). Each operation
is one step. Sizes and running downloads, which change outside of `FileQueue`, are part of the
event.

`toLower` is `Text::toLower`, whose result depends on the locale: it is any function here.
-/

namespace Blacklink.Queue

/-- `TTHValue`, 24 bytes. -/
abbrev TTHValue := BitVec 192

/-- A pointer to a `QueueItem`, with the members that never change. `isList` tells `FLAG_USER_LIST`
or `FLAG_USER_GET_IP`. -/
structure QueueItemPtr where
  ptr : Nat
  target : List UInt8
  tthRoot : TTHValue
  isList : Bool
  deriving DecidableEq

/-- `stricmp(a, b) == 0`: C strings, and the case of ASCII letters is ignored. -/
def stricmp (a b : List UInt8) : Bool :=
  let lower (c : UInt8) : UInt8 := if 'A'.toUInt8 ≤ c ∧ c ≤ 'Z'.toUInt8 then c + 32 else c
  (a.takeWhile (· ≠ 0)).map lower = (b.takeWhile (· ≠ 0)).map lower

/-- `FileQueue`: the items by lower-case target and by TTH. -/
structure FileQueue where
  queue : AList fun _ : List UInt8 => QueueItemPtr
  queueTTH : AList fun _ : TTHValue => List QueueItemPtr
  generationId : UInt64

namespace FileQueue

/-- Nothing is queued. -/
def empty : FileQueue := ⟨∅, ∅, 0⟩

variable (toLower : List UInt8 → List UInt8)

/-- `findTarget`. -/
def findTarget (s : FileQueue) (target : List UInt8) : Option QueueItemPtr :=
  s.queue.lookup (toLower target)

/-- `addL`. The flag is its result. -/
def addL (s : FileQueue) (qi : QueueItemPtr) : FileQueue × Bool :=
  match s.queue.lookup (toLower qi.target) with
  | some _ => (s, false)
  | none =>
    ({ queue := s.queue.insert (toLower qi.target) qi
       queueTTH :=
        if qi.tthRoot = 0 then s.queueTTH
        else
          match s.queueTTH.lookup qi.tthRoot with
          | none => s.queueTTH.insert qi.tthRoot [qi]
          | some l => s.queueTTH.insert qi.tthRoot (l ++ [qi])
       generationId := s.generationId + 1 }, true)

/-- `remove`, the target. -/
def removeKey (s : FileQueue) (qi : QueueItemPtr) : FileQueue :=
  match s.queue.lookup (toLower qi.target) with
  | none => s
  | some _ =>
    { s with
      queue := s.queue.erase (toLower qi.target)
      generationId :=
        if (s.queue.erase (toLower qi.target)).entries.isEmpty then 0 else s.generationId + 1 }

/-- `remove`, the TTH. Erasing leaves a list without the item alone, as the early return does. -/
def removeTTH (s : FileQueue) (qi : QueueItemPtr) : FileQueue :=
  if qi.tthRoot = 0 then s
  else
    match s.queueTTH.lookup qi.tthRoot with
    | none => s
    | some l =>
      if 1 < l.length then { s with queueTTH := s.queueTTH.insert qi.tthRoot (l.erase qi) }
      else { s with queueTTH := s.queueTTH.erase qi.tthRoot }

/-- `remove`. -/
def remove (s : FileQueue) (qi : QueueItemPtr) : FileQueue := (s.removeKey toLower qi).removeTTH qi

/-- `clearAll`. -/
def clearAll (_ : FileQueue) : FileQueue := empty

/-- `moveTarget`; `ptr` is the new item's address. The result of `add` is not looked at. -/
def moveTarget (s : FileQueue) (qi : QueueItemPtr) (target : List UInt8) (ptr : Nat) : FileQueue :=
  (((s.remove toLower qi).addL toLower) { qi with ptr := ptr, target := target }).1

/-- `removeTarget`. -/
def removeTarget (s : FileQueue) (target : List UInt8) : FileQueue :=
  match s.findTarget toLower target with
  | none => s
  | some q => s.remove toLower q

/-- `QueueManager::move`. `target` is what `validateFileName` made of the new target. -/
def move (s : FileQueue) (source target : List UInt8) (ptr : Nat) (running : QueueItemPtr → Bool)
    (size : QueueItemPtr → Int) : FileQueue :=
  if source = target then s
  else
    match s.findTarget toLower source with
    | none => s
    | some qs =>
      if qs.isList then s
      else if running qs then s
      else
        match s.findTarget toLower target with
        | none => s.moveTarget toLower qs target ptr
        | some qt =>
          if stricmp source target then s.moveTarget toLower qs target ptr
          else if size qs ≠ size qt ∨ qs.tthRoot ≠ qt.tthRoot then s
          else s.removeTarget toLower source

/-- The operations on the queue. -/
inductive FileEvent where
  | add (qi : QueueItemPtr)
  | remove (qi : QueueItemPtr)
  | removeTarget (target : List UInt8)
  | move (source target : List UInt8) (ptr : Nat) (running : QueueItemPtr → Bool)
      (size : QueueItemPtr → Int)
  | clearAll

/-- One operation. -/
def step (s : FileQueue) : FileEvent → FileQueue
  | .add qi => (s.addL toLower qi).1
  | .remove qi => s.remove toLower qi
  | .removeTarget target => s.removeTarget toLower target
  | .move source target ptr running size => s.move toLower source target ptr running size
  | .clearAll => s.clearAll

/-! ### What the indexes hold -/

/-- The list of a TTH; a TTH without an entry has the empty one. -/
def indexed (s : FileQueue) (tth : TTHValue) : List QueueItemPtr := (s.queueTTH.lookup tth).getD []

/-- The item is the one queued under its own target. -/
def InQueue (s : FileQueue) (qi : QueueItemPtr) : Prop := s.findTarget toLower qi.target = some qi

/-- The two indexes agree. -/
structure Consistent (s : FileQueue) : Prop where
  /-- An item in the map is there under its lower-case target. -/
  keyed : ∀ k q, s.queue.lookup k = some q → toLower q.target = k
  /-- No two items have the same lower-case target. -/
  distinct : ∀ k k' q q', s.queue.lookup k = some q → s.queue.lookup k' = some q' →
    toLower q.target = toLower q'.target → q = q'
  /-- An item in the map that has a TTH is listed once under it. -/
  listed : ∀ k q, s.queue.lookup k = some q → q.tthRoot ≠ 0 → (s.indexed q.tthRoot).count q = 1
  /-- An item listed under a TTH has that TTH and is in the map. -/
  known : ∀ tth q, q ∈ s.indexed tth → q.tthRoot = tth ∧ tth ≠ 0 ∧ s.InQueue toLower q

/-- The list that `remove` looks into. -/
def removeList (s : FileQueue) (qi : QueueItemPtr) : List QueueItemPtr :=
  if qi.tthRoot = 0 then [] else s.indexed qi.tthRoot

/-- `remove` may be called with the item: it is the one in the map, or what the map has in its place
is alone in the list, or neither the map nor the list loses an item with a TTH. -/
def RemoveOk (s : FileQueue) (qi : QueueItemPtr) : Prop :=
  match s.findTarget toLower qi.target with
  | some q => q = qi ∨ s.removeList qi = [q] ∨ q.tthRoot = 0 ∧ (s.removeList qi).length ≠ 1
  | none => (s.removeList qi).length ≠ 1

/-- The condition on an operation. -/
def StepOk (s : FileQueue) : FileEvent → Prop
  | .remove qi => s.RemoveOk toLower qi
  | _ => True

end FileQueue
end Blacklink.Queue
