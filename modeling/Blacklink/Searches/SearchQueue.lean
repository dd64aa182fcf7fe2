import Mathlib.Data.Finset.Insert
import Blacklink.Base.Run
import Blacklink.Share.Search

/-!
# The search queue

Model of `SearchQueue` (`client/SearchQueue.cpp:22-133`, `client/SearchQueue.h:25-76`), where the
searches of a hub or of the DHT wait for their turn. Manual searches stand before automatic ones.
A search that is queued already gets the owner of the new one; when the new one is manual and the
queued one automatic, the queued one is erased and the new one takes its place further ahead, with
its own owner only.
-/

namespace Blacklink.Searches

open Blacklink.Base
open Blacklink.Share (SizeMode)

/-- `SearchParamBase::SearchMode`. -/
inductive SearchMode where
  | default
  | active
  | passive
  deriving DecidableEq

/-- `Search`. -/
structure Search where
  searchMode : SearchMode
  sizeMode : SizeMode
  size : Int
  fileType : Int
  filter : List UInt8
  filterExclude : List UInt8
  token : UInt32
  extList : List (List UInt8)
  owners : Finset UInt64
  deriving DecidableEq

namespace Search

/-- Automatic searches have an even token. -/
def isAutoToken (s : Search) : Bool := s.token &&& 1 = 0

/-- `equals`. -/
def equals (lhs rhs : Search) : Bool :=
  lhs.sizeMode = rhs.sizeMode ∧ lhs.size = rhs.size ∧ lhs.fileType = rhs.fileType ∧
    lhs.filter = rhs.filter ∧ lhs.filterExclude = rhs.filterExclude

/-- `owners.insert(owner)`. -/
def addOwner (s : Search) (owner : UInt64) : Search := { s with owners := insert owner s.owners }

/-- `owners.erase(owner)`. -/
def removeOwner (s : Search) (owner : UInt64) : Search :=
  { s with owners := s.owners.erase owner }

end Search

/-- `SearchQueue`. -/
structure SearchQueue where
  searchQueue : List Search
  lastSearchTime : UInt64
  lastSearchPassive : Bool
  interval : UInt32
  intervalPassive : UInt32

/-- The first search that satisfies `p` gets another owner. -/
def addOwnerFirst (p : Search → Bool) (owner : UInt64) : List Search → List Search
  | [] => []
  | u :: l => if p u then u.addOwner owner :: l else u :: addOwnerFirst p owner l

/-- A manual search is inserted before the automatic ones. -/
def insertManual (s : Search) : List Search → List Search
  | [] => [s]
  | u :: l => if u.isAutoToken then s :: u :: l else u :: insertManual s l

/-- The loop of `cancelSearch`: the new list, and whether there was a search of the owner. -/
def cancelFirst (owner : UInt64) : List Search → List Search × Bool
  | [] => ([], false)
  | u :: l =>
    if owner ∈ u.owners then
      let u' := u.removeOwner owner
      (if u'.owners = ∅ then l else u' :: l, true)
    else ((u :: (cancelFirst owner l).1), (cancelFirst owner l).2)

namespace SearchQueue

/-- The end of `add`, for a search that is not in the queue. -/
def addNew (q : SearchQueue) (s : Search) : SearchQueue :=
  if s.isAutoToken then { q with searchQueue := q.searchQueue ++ [s] }
  else { q with searchQueue := insertManual s q.searchQueue }

/-- `SearchQueue::add`. The search has one owner. -/
def add (q : SearchQueue) (s : Search) (owner : UInt64) : SearchQueue × Bool :=
  let s := { s with owners := {owner} }
  match q.searchQueue.find? (·.equals s) with
  | none => (q.addNew s, true)
  | some queued =>
    if !s.isAutoToken && queued.isAutoToken then
      -- it is added again before the automatic searches
      (addNew { q with searchQueue := q.searchQueue.eraseP (·.equals s) } s, true)
    else ({ q with searchQueue := addOwnerFirst (·.equals s) owner q.searchQueue }, false)

/-- When the interval after the last search is over. -/
def nextSearchTime (q : SearchQueue) : UInt64 :=
  q.lastSearchTime + (if q.lastSearchPassive then q.intervalPassive else q.interval).toUInt64

/-- `SearchQueue::pop`. -/
def pop (q : SearchQueue) (now : UInt64) : SearchQueue × Option Search :=
  match q.searchQueue with
  | [] => (q, none)
  | queued :: rest =>
    if q.lastSearchTime ≠ 0 ∧ now ≤ q.nextSearchTime then (q, none)
    else
      ({ q with
          searchQueue := rest
          lastSearchPassive := queued.searchMode = .passive
          lastSearchTime := now }, some queued)

/-- `SearchQueue::cancelSearch`. -/
def cancelSearch (q : SearchQueue) (owner : UInt64) : SearchQueue × Bool :=
  ({ q with searchQueue := (cancelFirst owner q.searchQueue).1 },
    (cancelFirst owner q.searchQueue).2)

/-- A queue without searches. -/
def init (interval intervalPassive : UInt32) : SearchQueue :=
  ⟨[], 0, false, interval, intervalPassive⟩

end SearchQueue

/-- The operations. -/
inductive SearchEvent where
  | add (s : Search) (owner : UInt64)
  | pop (now : UInt64)
  | cancelSearch (owner : UInt64)

namespace SearchQueue

/-- One operation. -/
def step (q : SearchQueue) : SearchEvent → SearchQueue
  | .add s owner => (q.add s owner).1
  | .pop now => (q.pop now).1
  | .cancelSearch owner => (q.cancelSearch owner).1

/-- No two searches are equal, manual ones stand before automatic ones, and every one has an
owner. -/
structure WellFormed (q : SearchQueue) : Prop where
  distinct : q.searchQueue.Pairwise fun a b => a.equals b = false
  manualFirst : q.searchQueue.Pairwise fun a b => a.isAutoToken = true → b.isAutoToken = true
  owned : ∀ u ∈ q.searchQueue, u.owners.Nonempty

/-- What an addition leaves in the queue: one equal search with the new owner and all owners that
an equal one had, and every other search as it was. -/
structure Added (s : Search) (owner : UInt64) (q q' : SearchQueue) : Prop where
  queued : ∃ t ∈ q'.searchQueue, t.equals s = true ∧
    ∀ o, o ∈ t.owners ↔ o = owner ∨ ∃ u ∈ q.searchQueue, u.equals s = true ∧ o ∈ u.owners
  others : q'.searchQueue.filter (fun u => !u.equals s) = q.searchQueue.filter fun u => !u.equals s

/-- What an operation has to do with the owners of the searches in the queue. -/
def KeepsOwners (q : SearchQueue) : SearchEvent → Prop
  | .add s owner => Added s owner q (q.add s owner).1
  | .pop now => (q.pop now).2.toList ++ (q.pop now).1.searchQueue = q.searchQueue
  | .cancelSearch owner => ∀ u ∈ q.searchQueue, ∀ o ∈ u.owners, o ≠ owner →
      ∃ t ∈ (q.cancelSearch owner).1.searchQueue, t.equals u = true ∧ o ∈ t.owners

end SearchQueue

end Blacklink.Searches
