import Mathlib.Data.Finset.Basic
import Mathlib.Data.Nat.Bitwise
import Blacklink.Base.Run

/-!
# The queue by file and by user

Model of `QueueManager::FileQueue` and `QueueManager::UserQueue` and of every operation that
adds or removes an item, adds or removes a source, or changes a priority
(`client/QueueManager.cpp:195-255, 405-450, 584-661, 946-1281, 1446-1507, 1968-1988, 2436-2690,
2925-3055, 3269-3366, 3530-3673`, `client/QueueItem.cpp:248-261, 323-342`). An item is named by a
number that stands for its `QueueItemPtr`. Each operation is one step, and what it reads from
settings, the disk or a peer is part of the event.

A priority read from `Queue.xml` is taken to be in range: `addL` would index outside of its array
otherwise. Which user's entry a loop over the sources handles first is immaterial, so such a loop
is one update of all of them.
-/

namespace Blacklink.Queue

/-- `QueueItem::Priority` without `DEFAULT`, which is `none` where it can occur. -/
inductive Priority where
  | paused
  | lowest
  | lower
  | low
  | normal
  | high
  | higher
  | highest
  deriving DecidableEq

/-- The priorities, from `LAST - 1` down. -/
def Priority.all : List Priority :=
  [.highest, .higher, .high, .normal, .low, .lower, .lowest, .paused]

namespace Source

/-- `Source::FLAG_NO_NEED_PARTS`. -/
def flagNoNeedParts : Nat := 0x080

/-- `Source::FLAG_PARTIAL`. -/
def flagPartial : Nat := 0x100

/-- `Source::FLAG_TTH_INCONSISTENCY`. -/
def flagTTHInconsistency : Nat := 0x200

/-- `Source::FLAG_MASK`. -/
def flagMask : Nat := 0x001 ||| 0x002 ||| 0x004 ||| 0x010 ||| 0x020 ||| 0x040 ||| 0x200 ||| 0x400

end Source

/-- `QueueItem::PFS_MIN_FILE_SIZE`. -/
def pfsMinFileSize : Int := 20 * 1024 * 1024

/-- The attributes of a queue item that its place in the queue depends on. `target` is the
lower-case path, `sourceFlags` the flags of a user's `Source`: a user is never a source and a bad
source at the same time. `finished` is `isFinished()`. -/
structure QueuedItem (U T R : Type) where
  target : T
  size : Int
  tth : Option R
  userList : Bool
  userGetIp : Bool
  copying : Bool
  removed : Bool
  priority : Priority
  prioQueue : Option Priority
  sources : Finset U
  badSources : Finset U
  sourceFlags : U → Nat
  downloadedBytes : Nat
  finished : Bool

namespace QueuedItem

variable {U T R : Type} [DecidableEq U]

/-- `isBadSourceExceptL`. -/
def isBadSourceExcept (i : QueuedItem U T R) (u : U) (exceptions : Nat) : Bool :=
  u ∈ i.badSources && i.sourceFlags u &&& (exceptions ^^^ Source.flagMask) != 0

/-- `QueueItem::addSourceL`: a bad source comes back with its flags. -/
def addSource (i : QueuedItem U T R) (u : U) : QueuedItem U T R :=
  { i with
    sources := insert u i.sources
    badSources := i.badSources.erase u
    sourceFlags := fun v => if v = u ∧ u ∉ i.badSources then 0 else i.sourceFlags v }

/-- `QueueItem::removeSourceL`. -/
def removeSource (i : QueuedItem U T R) (u : U) (reason : Nat) : QueuedItem U T R :=
  if u ∈ i.sources then
    { i with
      sources := i.sources.erase u
      badSources := insert u i.badSources
      sourceFlags := fun v => if v = u then i.sourceFlags v ||| reason else i.sourceFlags v
      prioQueue := if i.sources.erase u = ∅ then none else i.prioQueue }
  else i

end QueuedItem

/-- `FileQueue` (`queue` by target, `queueTTH` by root hash) and `UserQueue::userQueueMap`. A user
without an entry has the empty list. -/
structure QueueManager (U T R : Type) where
  items : Nat → QueuedItem U T R
  next : Nat
  queue : T → Option Nat
  queueTTH : R → List Nat
  userQueueMap : Priority → U → List Nat

namespace QueueManager

variable {U T R : Type}

/-- The item is the one queued for its target. -/
def InQueue (s : QueueManager U T R) (q : Nat) : Prop := s.queue (s.items q).target = some q

instance (s : QueueManager U T R) (q : Nat) : Decidable (s.InQueue q) :=
  inferInstanceAs (Decidable (_ = _))

/-- Change the attributes of an item. -/
def modify (s : QueueManager U T R) (q : Nat) (f : QueuedItem U T R → QueuedItem U T R) :
    QueueManager U T R :=
  { s with items := fun r => if r = q then f (s.items r) else s.items r }

variable [DecidableEq U] [DecidableEq T] [DecidableEq R]

/-! ### `FileQueue` -/

/-- `FileQueue::addL` for a new item whose target is not queued. -/
def fileAdd (s : QueueManager U T R) (i : QueuedItem U T R) : QueueManager U T R :=
  { s with
    items := fun r => if r = s.next then i else s.items r
    next := s.next + 1
    queue := fun t => if t = i.target then some s.next else s.queue t
    queueTTH := fun r => if i.tth = some r then s.queueTTH r ++ [s.next] else s.queueTTH r }

/-- `FileQueue::remove`. The target is looked up by its name only, and the last member of a list
by root hash is dropped unseen. -/
def fileRemove (s : QueueManager U T R) (q : Nat) : QueueManager U T R :=
  { s with
    queue := fun t => if t = (s.items q).target then none else s.queue t
    queueTTH := fun r =>
      if (s.items q).tth = some r then
        if 1 < (s.queueTTH r).length then (s.queueTTH r).erase q else []
      else s.queueTTH r }

/-! ### `UserQueue` -/

/-- Where `addL` puts an item into a user's list. -/
def push (s : QueueManager U T R) (q : Nat) (uq : List Nat) : List Nat :=
  if (s.items q).userList || (s.items q).userGetIp || 0 < (s.items q).downloadedBytes then q :: uq
  else uq ++ [q]

/-- `addL(qi, prioQueue, user)`. -/
def addUserL (s : QueueManager U T R) (q : Nat) (p : Priority) (u : U) : QueueManager U T R :=
  { s with
    userQueueMap := fun p' v =>
      if p' = p ∧ v = u then s.push q (s.userQueueMap p' v) else s.userQueueMap p' v }

/-- `addL(qi, p)`. -/
def addL (s : QueueManager U T R) (q : Nat) (p : Priority) : QueueManager U T R :=
  { s with
    userQueueMap := fun p' v =>
      if p' = p ∧ v ∈ (s.items q).sources then s.push q (s.userQueueMap p' v)
      else s.userQueueMap p' v }.modify q fun i => { i with prioQueue := some p }

/-- `removeUserL`. -/
def removeUserL (s : QueueManager U T R) (q : Nat) (u : U) : QueueManager U T R :=
  { s with
    userQueueMap := fun p' v =>
      if (s.items q).prioQueue = some p' ∧ v = u then (s.userQueueMap p' v).erase q
      else s.userQueueMap p' v }

/-- `removeQueueItemL`. -/
def removeQueueItemL (s : QueueManager U T R) (q : Nat) : QueueManager U T R :=
  { s with
    userQueueMap := fun p' v =>
      if (s.items q).prioQueue = some p' ∧ v ∈ (s.items q).sources then
        (s.userQueueMap p' v).erase q
      else s.userQueueMap p' v }

/-- `setQIPriority`. -/
def setQIPriority (s : QueueManager U T R) (q : Nat) (p : Priority) : QueueManager U T R :=
  ((s.removeQueueItemL q).modify q fun i => { i with priority := p }).addL q p

/-! ### Operations -/

/-- `QueueManager::addSourceL`. The exceptions it throws leave everything as it is. -/
def addSourceL (s : QueueManager U T R) (q : Nat) (u : U) (addBad : Nat) : QueueManager U T R :=
  if u ∈ (s.items q).sources then s
  else if (s.items q).isBadSourceExcept u addBad then s
  else if (s.items q).finished then s.modify q fun i => i.addSource u
  else
    let p := (s.items q).prioQueue.getD (s.items q).priority
    (s.modify q fun i => { i.addSource u with prioQueue := some p }).addUserL q p u

/-- `removeItem`. -/
def removeItem (s : QueueManager U T R) (q : Nat) (removeFromUserQueue : Bool) :
    QueueManager U T R :=
  if removeFromUserQueue then (s.removeQueueItemL q).fileRemove q else s.fileRemove q

/-- `removeTarget`. -/
def removeTarget (s : QueueManager U T R) (t : T) : QueueManager U T R :=
  match s.queue t with
  | none => s
  | some q => (s.modify q fun i => { i with removed := true }).removeItem q true

/-- The item `add` makes: no source, nothing downloaded. -/
def newItem (t : T) (size : Int) (tth : Option R) (userList userGetIp copying : Bool)
    (p : Priority) : QueuedItem U T R :=
  { target := t
    size := size
    tth := tth
    userList := userList
    userGetIp := userGetIp
    copying := copying
    removed := false
    priority := p
    prioQueue := none
    sources := ∅
    badSources := ∅
    sourceFlags := fun _ => 0
    downloadedBytes := 0
    finished := false }

/-- `QueueManager::add` after the checks of its arguments. `p` is what `updatePriority` makes of
the priority, `copying` that a shared file is copied instead, `user` a source that is no fake. -/
def add (s : QueueManager U T R) (t : T) (size : Int) (tth : Option R)
    (userList userGetIp copying : Bool) (p : Priority) (user : Option U) (addBad : Nat) :
    QueueManager U T R :=
  match s.queue t with
  | none =>
    let s' := s.fileAdd (newItem t size tth userList userGetIp copying p)
    match user with
    | some u => if copying then s' else s'.addSourceL s.next u addBad
    | none => s'
  | some q =>
    if (s.items q).userList then s
    else if (s.items q).size ≠ size then s
    else if tth.isSome ∧ (s.items q).tth ≠ tth then s
    else if (s.items q).finished then s
    else
      match user with
      | some u => s.addSourceL q u addBad
      | none => s

/-- The checks of `handlePartialResult` before it adds the user as a source: the size is compared
as an unsigned number. -/
def isNewPartialSource (i : QueuedItem U T R) (u : U) (wantConnection : Bool) : Bool :=
  !i.finished && !(0 ≤ i.size && i.size < pfsMinFileSize) && u ∉ i.sources &&
    !(u ∈ i.badSources && i.sourceFlags u &&& Source.flagTTHInconsistency != 0) && wantConnection

/-- `handlePartialResult`. `wantConnection` is `isNeededPart` of the parts received. -/
def handlePartialResult (s : QueueManager U T R) (u : U) (tth : R) (wantConnection : Bool) :
    QueueManager U T R :=
  match (s.queueTTH tth).head? with
  | none => s
  | some q =>
    if isNewPartialSource (s.items q) u wantConnection then
      -- the source is listed under the item's priority, whatever `prioQueue` says
      let s' := s.modify q fun i =>
        { i.addSource u with
          sourceFlags := fun v =>
            if v = u then (i.addSource u).sourceFlags v ||| Source.flagPartial
            else (i.addSource u).sourceFlags v }
      s'.addUserL q (s.items q).priority u
    else s

/-- `removeSource(target, user, reason)`. -/
def removeSource (s : QueueManager U T R) (t : T) (u : U) (reason : Nat) : QueueManager U T R :=
  match s.queue t with
  | none => s
  | some q =>
    if u ∉ (s.items q).sources then s
    else if (s.items q).userList || (s.items q).userGetIp then s.removeTarget t
    else (s.removeUserL q u).modify q fun i => i.removeSource u reason

/-- The first part of `removeSource(user, reason)`: every item in one of the user's lists loses
the source, and the lists are dropped. -/
def clearUser (s : QueueManager U T R) (u : U) (reason : Nat) : QueueManager U T R :=
  { s with
    items := fun q =>
      if ∃ p ∈ Priority.all, q ∈ s.userQueueMap p u then
        (s.items q).removeSource u reason else s.items q
    userQueueMap := fun p v => if v = u then [] else s.userQueueMap p v }

/-- `removeSource(user, reason)`: file lists of the user are removed as well. -/
def removeSourceUser (s : QueueManager U T R) (u : U) (reason : Nat) : QueueManager U T R :=
  let lists := (Priority.all.flatMap fun p => s.userQueueMap p u).filter fun q =>
    (s.items q).userList
  (lists.map fun q => (s.items q).target).foldl removeTarget (s.clearUser u reason)

/-- The branch of `getNextL` that drops a partial source without a needed part, for one item of
the list it goes through. Which source that is depends on the parts: any may be dropped here. -/
def dropSource (s : QueueManager U T R) (p : Priority) (u : U) (q : Nat) : QueueManager U T R :=
  if q ∈ s.userQueueMap p u ∧ u ∈ (s.items q).sources then
    { s with
      userQueueMap := fun p' v =>
        if p' = p ∧ v = u then (s.userQueueMap p' v).erase q else s.userQueueMap p' v }.modify q
      fun i => i.removeSource u Source.flagNoNeedParts
  else s

/-- `QueueManager::setPriority`. -/
def setPriority (s : QueueManager U T R) (t : T) (p : Priority) : QueueManager U T R :=
  match s.queue t with
  | none => s
  | some q =>
    if (s.items q).priority = p then s
    else if (s.items q).finished then s
    else s.setQIPriority q p

/-- `moveTarget` between its two halves of `move`: the sources and all else but the target go to a
new item, which is listed anew. -/
def moveTarget (s : QueueManager U T R) (qs : Nat) (target : T) : QueueManager U T R :=
  let s' := (s.removeQueueItemL qs).fileRemove qs
  ((s'.fileAdd { s.items qs with target := target }).modify qs fun i =>
    { i with sources := ∅, badSources := ∅, finished := false }).addL s.next (s.items qs).priority

/-- `move`. `running` is `isRunning()`; `order` are the sources of the moved item in the order of
their hash table. Paths that differ in case only are the same `target`. -/
def move (s : QueueManager U T R) (source target : T) (running : Bool) (order : List U) :
    QueueManager U T R :=
  match s.queue source with
  | none => s
  | some qs =>
    if (s.items qs).userList || (s.items qs).userGetIp then s
    else if running then s
    else
      match s.queue target with
      | none => s.moveTarget qs target
      | some qt =>
        if source = target then s.moveTarget qs target
        else if (s.items qs).size ≠ (s.items qt).size ∨ (s.items qs).tth ≠ (s.items qt).tth then s
        else
          ((order.filter (· ∈ (s.items qs).sources)).foldl
            (fun s u => s.addSourceL qt u Source.flagMask) s).removeTarget source

/-- `copyFile` when the file has been copied from the share. -/
def copyFile (s : QueueManager U T R) (q : Nat) : QueueManager U T R :=
  if (s.items q).removed then s else s.removeItem q false

/-- `removeAll`. -/
def removeAll (s : QueueManager U T R) : QueueManager U T R :=
  { s with queue := fun _ => none, queueTTH := fun _ => [] }

/-- A tag inside of a `Download` of `Queue.xml`: segments done, or a source. -/
inductive LoadTag (U : Type) where
  | segment (downloadedBytes : Nat) (finished : Bool)
  | source (u : U)

/-- Bytes of an item that have been added to its done segments. -/
def addSegment (s : QueueManager U T R) (q : Nat) (bytes : Nat) (finished : Bool) :
    QueueManager U T R :=
  s.modify q fun i => { i with downloadedBytes := bytes, finished := i.finished || finished }

/-- `QueueLoader::startTag` inside of a `Download`. -/
def loadTag (q : Nat) (s : QueueManager U T R) : LoadTag U → QueueManager U T R
  | .segment bytes finished => s.addSegment q bytes finished
  | .source u => s.addSourceL q u 0

/-- `QueueLoader` for one `Download`: a target that is queued already is skipped. `auto` is what
`calculateAutoPriorityL` gives at the end tag. -/
def load (s : QueueManager U T R) (t : T) (size : Int) (tth : R) (p : Priority)
    (tags : List (LoadTag U)) (auto : Priority) : QueueManager U T R :=
  match s.queue t with
  | none =>
    (tags.foldl (loadTag s.next) (s.fileAdd (newItem t size (some tth) false false false p))).modify
      s.next fun i => { i with priority := auto }
  | some _ => s

/-- The results of `RecheckerJob::run` that change something. -/
inductive Recheck where
  | reset (downloadedBytes : Nat) (finished : Bool)
  | alreadyFinished
  deriving DecidableEq

/-- `RecheckerJob::run`, its last part: the done segments are found anew, or the file is moved and
the item leaves the user queue. -/
def recheck (s : QueueManager U T R) (t : T) (r : Recheck) : QueueManager U T R :=
  match s.queue t with
  | none => s
  | some q =>
    match r with
    | .reset bytes finished =>
      s.modify q fun i => { i with downloadedBytes := bytes, finished := finished }
    | .alreadyFinished => if (s.items q).finished then s.removeQueueItemL q else s

/-! ### Events -/

/-- The operations. An item that an operation has looked up in the queue is one that is queued;
`removeListed` is the removal of an item found in a user's list. -/
inductive Event (U T R : Type) where
  | add (t : T) (size : Int) (tth : Option R) (userList userGetIp copying : Bool) (p : Priority)
      (user : Option U) (addBad : Nat)
  | addSource (q : Nat) (u : U) (addBad : Nat)
  | handlePartialResult (u : U) (tth : R) (wantConnection : Bool)
  | removeSource (t : T) (u : U) (reason : Nat)
  | removeSourceUser (u : U) (reason : Nat)
  | dropSource (p : Priority) (u : U) (q : Nat)
  | setPriority (t : T) (p : Priority)
  | load (t : T) (size : Int) (tth : R) (p : Priority) (tags : List (LoadTag U)) (auto : Priority)
  | addSegment (q : Nat) (bytes : Nat) (finished : Bool)
  | removeItem (q : Nat)
  | removeListed (p : Priority) (u : U) (q : Nat)
  | removeTarget (t : T)
  | copyFile (q : Nat)
  | removeAll
  | move (source target : T) (running : Bool) (order : List U)
  | recheck (t : T) (r : Recheck)

/-- One operation. -/
def step (s : QueueManager U T R) : Event U T R → QueueManager U T R
  | .add t size tth userList userGetIp copying p user addBad =>
    s.add t size tth userList userGetIp copying p user addBad
  | .addSource q u addBad => if s.InQueue q then s.addSourceL q u addBad else s
  | .handlePartialResult u tth wantConnection => s.handlePartialResult u tth wantConnection
  | .removeSource t u reason => s.removeSource t u reason
  | .removeSourceUser u reason => s.removeSourceUser u reason
  | .dropSource p u q => s.dropSource p u q
  | .setPriority t p => s.setPriority t p
  | .load t size tth p tags auto => s.load t size tth p tags auto
  | .addSegment q bytes finished => if s.InQueue q then s.addSegment q bytes finished else s
  | .removeItem q => if s.InQueue q then s.removeItem q true else s
  | .removeListed p u q => if q ∈ s.userQueueMap p u then s.removeItem q true else s
  | .removeTarget t => s.removeTarget t
  | .copyFile q => if q < s.next ∧ (s.items q).copying then s.copyFile q else s
  | .removeAll => s.removeAll
  | .move source target running order => s.move source target running order
  | .recheck t r => s.recheck t r

/-- Nothing is queued; `items` is not looked at before an item is made. -/
def empty (items : Nat → QueuedItem U T R) : QueueManager U T R :=
  { items := items
    next := 0
    queue := fun _ => none
    queueTTH := fun _ => []
    userQueueMap := fun _ _ => [] }

end QueueManager
end Blacklink.Queue
