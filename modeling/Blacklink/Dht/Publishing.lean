import Mathlib.Data.List.Sort
import Blacklink.Dht.Index
import Blacklink.Text.Numbers

/-!
# Publishing and searching

Model of the publishing of files in `IndexManager` (`client/dht/IndexManager.cpp:99-117, 257-276`)
and of the running searches of `dht::SearchManager` (`client/dht/DHTSearchManager.cpp:40-86,
107-227, 422-478, 529-598`). The nodes of a search stand for their distances from its term, in their
order. What `getClosestNodes` finds, the random tokens and the nodes that an answer brings come with
the events; what is sent to the nodes is left out.
-/

namespace Blacklink.Dht

open Blacklink.Base

/-- `DHTSearch::SearchType`. -/
inductive SearchType where
  | file
  | node
  | storeFile
  deriving DecidableEq

/-- `DHTSearch`. -/
structure DHTSearch where
  type : SearchType
  term : List UInt8
  lifeTime : UInt64
  filesize : Int
  isPartial : Bool
  stopping : Bool
  possibleNodes : List CID
  triedNodes : List CID
  deriving DecidableEq

/-- `SEARCH_ALPHA`. -/
def searchAlpha : Nat := 15

/-- `K`, the nodes in a bucket. -/
def bucketSize : Nat := 10

/-- `MAX_PUBLISHES_AT_TIME`. -/
def maxPublishesAtTime : Int := 3

/-- `MIN_PUBLISH_FILESIZE`. -/
def minPublishFilesize : Int := 1024 * 1024

/-- `SEARCH_STOPTIME`. -/
def searchStoptime : UInt64 := 15 * 1000

/-- `SEARCHFILE_LIFETIME`, `SEARCHNODE_LIFETIME` and `SEARCHSTOREFILE_LIFETIME`. -/
def SearchType.lifetime : SearchType → UInt64
  | .file => 90 * 1000
  | .node => 20 * 1000
  | .storeFile => 20 * 1000

namespace DHTSearch

/-- `DHTSearch::process`: the closest nodes are asked, or the search begins to stop. -/
def process (r : DHTSearch) (tick : UInt64) : DHTSearch :=
  if r.stopping then r
  else if r.possibleNodes = [] then { r with stopping := true, lifeTime := tick + searchStoptime }
  else
    { r with
      triedNodes := r.triedNodes ++ r.possibleNodes.take searchAlpha
      possibleNodes := r.possibleNodes.drop searchAlpha }

/-- The loop over the nodes of an answer; a node is accepted by the routing table or not. -/
def addNodes : Nat → List (CID × Bool) → DHTSearch → DHTSearch
  | 0, _, r => r
  | _, [], r => r
  | n + 1, (distance, isAcceptable) :: nodes, r =>
    if distance ∈ r.possibleNodes ∨ distance ∈ r.triedNodes then addNodes (n + 1) nodes r
    else
      addNodes n nodes
        (if isAcceptable then
          { r with
            possibleNodes :=
              r.possibleNodes.orderedInsert (fun a b => a.toList ≤ b.toList) distance }
        else r)

/-- The search publishes a file. -/
def isStore (r : DHTSearch) : Bool := r.type = .storeFile

/-- What `processSearches` leaves of a search. -/
def afterProcess (now : UInt64) (r : DHTSearch) : Option DHTSearch :=
  let r := r.process now
  if r.lifeTime < now then none else some r

end DHTSearch

/-- `File`. -/
structure File where
  tth : TTHValue
  size : Int
  isPartial : Bool
  deriving DecidableEq

/-- The searches, and the part of `IndexManager` that publishes files. -/
structure Publisher where
  publishQueue : List File
  publish : Bool
  publishing : Int
  searches : AList fun _ : UInt32 => DHTSearch

/-- The operations: the queueing of files, the start of searches with a token, a tick and the nodes
that are found, an answer, and the timer. -/
inductive PublishEvent where
  | publishFile (tth : TTHValue) (size : Int)
  | publishPartialFile (tth : TTHValue)
  | publishNextFile (token : UInt32) (now : UInt64) (nodes : List CID)
  | findNode (cid : CID) (token : UInt32) (now : UInt64) (nodes : List CID)
  | processQueue (filter : List UInt8) (token : UInt32) (now : UInt64) (nodes : List CID)
  | processSearchResult (token : UInt32) (nodes : List (CID × Bool))
  | processSearches (now : UInt64)

namespace Publisher

/-- Nothing to publish and no searches. -/
def init : Publisher := ⟨[], false, 0, ∅⟩

/-- `publishFile`. -/
def publishFile (s : Publisher) (tth : TTHValue) (size : Int) : Publisher :=
  if minPublishFilesize < size then
    { s with publishQueue := s.publishQueue ++ [⟨tth, size, false⟩] }
  else s

/-- `publishPartialFile`. -/
def publishPartialFile (s : Publisher) (tth : TTHValue) : Publisher :=
  { s with publishQueue := ⟨tth, 0, true⟩ :: s.publishQueue }

/-- `incPublishing`. -/
def incPublishing (s : Publisher) : Publisher := { s with publishing := s.publishing + 1 }

/-- `decPublishing`. -/
def decPublishing (s : Publisher) : Publisher := { s with publishing := s.publishing - 1 }

/-- `DHTSearch::onRemove`. -/
def onRemove (s : Publisher) (r : DHTSearch) : Publisher :=
  match r.type with
  | .file => s
  | .node => { s with publish := true }
  | .storeFile => s.decPublishing

/-- `isAlreadySearchingFor`. -/
def isAlreadySearchingFor (s : Publisher) (term : List UInt8) : Bool :=
  s.searches.entries.any fun i => i.2.term = term

/-- `SearchManager::search` with the nodes that are found. -/
def search (s : Publisher) (token : UInt32) (r : DHTSearch) (startTick : UInt64)
    (nodes : List CID) : Publisher :=
  let r := { r with lifeTime := startTick + r.type.lifetime, possibleNodes := nodes }
  if r.possibleNodes = [] then s.onRemove r
  else { s with searches := s.searches.insert token (r.process startTick) }

/-- A new search. -/
def newSearch (type : SearchType) (term : List UInt8) (filesize : Int) (isPartial : Bool) :
    DHTSearch :=
  ⟨type, term, 0, filesize, isPartial, false, [], []⟩

/-- `findNode`. -/
def findNode (s : Publisher) (cid : CID) (token : UInt32) (now : UInt64) (nodes : List CID) :
    Publisher :=
  let term := Text.toBase32 cid.toList
  if s.isAlreadySearchingFor term then s
  else s.search token (newSearch .node term 0 false) now nodes

/-- `findStore`. -/
def findStore (s : Publisher) (f : File) (token : UInt32) (now : UInt64) (nodes : List CID) :
    Publisher :=
  let term := Text.toBase32 f.tth.toList
  if s.isAlreadySearchingFor term then s.decPublishing
  else s.search token (newSearch .storeFile term f.size f.isPartial) now nodes

/-- `publishNextFile`. -/
def publishNextFile (s : Publisher) (token : UInt32) (now : UInt64) (nodes : List CID) :
    Publisher :=
  match s.publishQueue with
  | [] => s
  | f :: queue =>
    if maxPublishesAtTime ≤ s.publishing then s
    else { s.incPublishing with publishQueue := queue }.findStore f token now nodes

/-- `SearchManager::processQueue` with the search that leaves the queue. -/
def processQueue (s : Publisher) (filter : List UInt8) (token : UInt32) (now : UInt64)
    (nodes : List CID) : Publisher :=
  s.search token (newSearch .file filter 0 false) now nodes

/-- The part of `processSearchResult` that adds nodes to the search. -/
def processSearchResult (s : Publisher) (token : UInt32) (nodes : List (CID × Bool)) : Publisher :=
  match s.searches.lookup token with
  | none => s
  | some r => { s with searches := s.searches.insert token (r.addNodes bucketSize nodes) }

/-- The searches that `processSearches` removes. -/
def timedOut (s : Publisher) (now : UInt64) : List DHTSearch :=
  (s.searches.entries.map Sigma.snd).filter fun r => (r.afterProcess now).isNone

/-- `processSearches`. -/
def processSearches (s : Publisher) (now : UInt64) : Publisher :=
  (s.timedOut now).foldl onRemove
    { s with searches := filterMapValues (DHTSearch.afterProcess now) s.searches }

/-- One operation. -/
def step (s : Publisher) : PublishEvent → Publisher
  | .publishFile tth size => s.publishFile tth size
  | .publishPartialFile tth => s.publishPartialFile tth
  | .publishNextFile token now nodes => s.publishNextFile token now nodes
  | .findNode cid token now nodes => s.findNode cid token now nodes
  | .processQueue filter token now nodes => s.processQueue filter token now nodes
  | .processSearchResult token nodes => s.processSearchResult token nodes
  | .processSearches now => s.processSearches now

/-! ### The counter -/

/-- How many searches publish a file. -/
def activeStores (s : Publisher) : Nat := countValues DHTSearch.isStore s.searches

/-- The counter of publishings agrees with the searches. -/
def Counted (s : Publisher) : Prop := s.publishing = s.activeStores

instance (s : Publisher) : Decidable s.Counted := inferInstanceAs (Decidable (_ = _))

/-- By how much the counter is ahead. -/
def excess (s : Publisher) : Int := s.publishing - s.activeStores

/-- The token is the one of a search that publishes a file. -/
def RunsStore (s : Publisher) (token : UInt32) : Prop :=
  (s.searches.lookup token).any DHTSearch.isStore = true

instance (s : Publisher) (token : UInt32) : Decidable (s.RunsStore token) :=
  inferInstanceAs (Decidable (_ = true))

/-- A search that the operation starts takes the place of one that publishes a file. -/
def Replaces (s : Publisher) : PublishEvent → Prop
  | .publishNextFile token _ nodes =>
    match s.publishQueue with
    | [] => False
    | f :: _ =>
      s.publishing < maxPublishesAtTime ∧
        s.isAlreadySearchingFor (Text.toBase32 f.tth.toList) = false ∧ nodes ≠ [] ∧
        s.RunsStore token
  | .findNode cid token _ nodes =>
    s.isAlreadySearchingFor (Text.toBase32 cid.toList) = false ∧ nodes ≠ [] ∧ s.RunsStore token
  | .processQueue _ token _ nodes => nodes ≠ [] ∧ s.RunsStore token
  | _ => False

/-- No search is started with the token of a search that publishes a file. -/
def Condition (s : Publisher) (e : PublishEvent) : Prop := ¬ s.Replaces e

variable {s : Publisher} {token : UInt32} {now : UInt64} {nodes : List CID}

theorem type_process (r : DHTSearch) (tick : UInt64) : (r.process tick).type = r.type := by
  unfold DHTSearch.process
  split
  · rfl
  · split <;> rfl

theorem type_addNodes (n : Nat) (nodes : List (CID × Bool)) (r : DHTSearch) :
    (DHTSearch.addNodes n nodes r).type = r.type := by
  induction nodes generalizing n r with
  | nil => cases n <;> rfl
  | cons node nodes ih =>
    cases n with
    | zero => rfl
    | succ n =>
      rw [DHTSearch.addNodes]
      split
      · exact ih _ _
      · rw [ih]
        split <;> rfl

theorem isStore_congr {r r' : DHTSearch} (h : r.type = r'.type) : r.isStore = r'.isStore := by
  rw [DHTSearch.isStore, DHTSearch.isStore, h]

/-- What `onRemove` does to the counter. -/
theorem onRemove_counts (s : Publisher) (r : DHTSearch) :
    (s.onRemove r).publishing = s.publishing - (if r.isStore = true then 1 else 0) ∧
      (s.onRemove r).searches = s.searches := by
  unfold onRemove DHTSearch.isStore
  cases r.type with
  | file => exact ⟨(Int.sub_zero _).symm, rfl⟩
  | node => exact ⟨(Int.sub_zero _).symm, rfl⟩
  | storeFile => exact ⟨rfl, rfl⟩

/-- A search that starts puts the counter behind if it publishes a file, and ahead if it takes the
place of one that does. -/
theorem excess_search (s : Publisher) (token : UInt32) (r : DHTSearch) (now : UInt64)
    (nodes : List CID) :
    (s.search token r now nodes).excess =
      s.excess - (if r.isStore = true then 1 else 0) +
        (if nodes ≠ [] ∧ s.RunsStore token then 1 else 0) := by
  unfold search
  dsimp only
  split
  · next hnil =>
    have hkept : ¬ (nodes ≠ [] ∧ s.RunsStore token) := fun h => h.1 hnil
    rw [if_neg hkept]
    obtain ⟨hpublishing, hsearches⟩ := onRemove_counts s
      { r with lifeTime := now + r.type.lifetime, possibleNodes := nodes }
    rw [excess, activeStores, hpublishing, hsearches, excess, activeStores]
    change s.publishing - (if r.isStore = true then 1 else 0) - _ = _
    split <;> omega
  · next hne =>
    have hstore := isStore_congr
      (type_process { r with lifeTime := now + r.type.lifetime, possibleNodes := nodes } now)
    have hcount := countValues_insert DHTSearch.isStore s.searches token
      (DHTSearch.process { r with lifeTime := now + r.type.lifetime, possibleNodes := nodes } now)
    rw [hstore] at hcount
    change _ = _ + (if r.isStore = true then 1 else 0) at hcount
    have hruns : (nodes ≠ [] ∧ s.RunsStore token) ↔
        (s.searches.lookup token).any DHTSearch.isStore = true := and_iff_right hne
    simp only [hruns]
    unfold excess activeStores
    dsimp only
    split_ifs at hcount ⊢ <;> omega

theorem excess_processSearchResult (s : Publisher) (token : UInt32) (nodes : List (CID × Bool)) :
    (s.processSearchResult token nodes).excess = s.excess := by
  unfold processSearchResult
  cases hlookup : s.searches.lookup token with
  | none => rfl
  | some r =>
    have hcount := countValues_insert DHTSearch.isStore s.searches token
      (r.addNodes bucketSize nodes)
    rw [hlookup, Option.any_some, isStore_congr (type_addNodes bucketSize nodes r)] at hcount
    unfold excess activeStores
    dsimp only
    omega

private theorem foldl_onRemove (rs : List DHTSearch) (s : Publisher) :
    (rs.foldl onRemove s).publishing = s.publishing - rs.countP DHTSearch.isStore ∧
      (rs.foldl onRemove s).searches = s.searches := by
  induction rs generalizing s with
  | nil => exact ⟨(Int.sub_zero _).symm, rfl⟩
  | cons r rs ih =>
    obtain ⟨hpublishing, hsearches⟩ := onRemove_counts s r
    rw [List.foldl_cons, (ih _).1, (ih _).2, hpublishing, hsearches, List.countP_cons]
    refine ⟨?_, rfl⟩
    split <;> omega

theorem excess_processSearches (s : Publisher) (now : UInt64) :
    (s.processSearches now).excess = s.excess := by
  have hkept : ∀ r r', DHTSearch.afterProcess now r = some r' → r'.isStore = r.isStore := by
    intro r r' h
    unfold DHTSearch.afterProcess at h
    dsimp only at h
    split at h
    · cases h
    · rw [← Option.some.inj h]
      exact isStore_congr (type_process r now)
  have hcount := countValues_filterMapValues hkept s.searches
  have hremoved : (s.timedOut now).countP DHTSearch.isStore =
      countValues (fun r => r.isStore && (r.afterProcess now).isNone) s.searches := by
    rw [timedOut, List.countP_filter, List.countP_map]
    rfl
  obtain ⟨hpublishing, hsearches⟩ := foldl_onRemove (s.timedOut now)
    { s with searches := filterMapValues (DHTSearch.afterProcess now) s.searches }
  unfold excess activeStores processSearches
  rw [hpublishing, hsearches, hremoved]
  dsimp only
  omega

/-- The counter is lowered for a file that is already searched for, or when no nodes are found; a
search that starts counts for itself. -/
theorem excess_findStore (s : Publisher) (f : File) (token : UInt32) (now : UInt64)
    (nodes : List CID) :
    (s.isAlreadySearchingFor (Text.toBase32 f.tth.toList) = false ∧ nodes ≠ [] ∧
        s.RunsStore token → (s.findStore f token now nodes).excess = s.excess) ∧
      (¬ (s.isAlreadySearchingFor (Text.toBase32 f.tth.toList) = false ∧ nodes ≠ [] ∧
        s.RunsStore token) → (s.findStore f token now nodes).excess = s.excess - 1) := by
  unfold findStore
  dsimp only
  split
  · next halready =>
    refine ⟨fun h => absurd halready (by rw [h.1]; exact Bool.false_ne_true), fun _ => ?_⟩
    change s.publishing - 1 - (s.activeStores : Int) = s.publishing - s.activeStores - 1
    omega
  · next hnew =>
    have hstore : (newSearch .storeFile (Text.toBase32 f.tth.toList) f.size f.isPartial).isStore =
      true := rfl
    have hnew' := Bool.eq_false_of_not_eq_true hnew
    rw [excess_search, if_pos hstore]
    constructor
    · exact fun h => by rw [if_pos h.2, Int.sub_add_cancel]
    · exact fun h => by rw [if_neg fun h' => h ⟨hnew', h'⟩, Int.add_zero]

/-- The counter gets ahead by one when a search is replaced, and does not change otherwise. -/
theorem excess_step (s : Publisher) (e : PublishEvent) :
    (s.Replaces e → (s.step e).excess = s.excess + 1) ∧
      (s.Condition e → (s.step e).excess = s.excess) := by
  unfold Condition
  cases e with
  | publishFile tth size =>
    refine ⟨False.elim, fun _ => ?_⟩
    rw [step, publishFile]
    split <;> rfl
  | publishPartialFile tth => exact ⟨False.elim, fun _ => rfl⟩
  | publishNextFile token now nodes =>
    rw [step, publishNextFile, Replaces]
    cases s.publishQueue with
    | nil => exact ⟨False.elim, fun _ => rfl⟩
    | cons f queue =>
      dsimp only
      split
      · next hmax =>
        have hnot : ¬ s.publishing < maxPublishesAtTime := Int.not_lt.mpr hmax
        exact ⟨fun h => absurd h.1 hnot, fun _ => rfl⟩
      · next hmax =>
        obtain ⟨hreplaced, hkept⟩ :=
          excess_findStore { s.incPublishing with publishQueue := queue } f token now nodes
        have hinc : excess { s.incPublishing with publishQueue := queue } = s.excess + 1 := by
          change s.publishing + 1 - (s.activeStores : Int) = s.publishing - s.activeStores + 1
          omega
        rw [hinc, Int.add_sub_cancel] at hkept
        rw [hinc] at hreplaced
        exact ⟨fun h => hreplaced h.2, fun h => hkept fun h' => h ⟨Int.not_le.mp hmax, h'⟩⟩
  | findNode cid token now nodes =>
    rw [step, findNode, Replaces]
    split
    · next halready =>
      exact ⟨fun h => absurd halready (by rw [h.1]; exact Bool.false_ne_true), fun _ => rfl⟩
    · next hnew =>
      have hnot : ¬ (newSearch .node (Text.toBase32 cid.toList) 0 false).isStore = true :=
        Bool.false_ne_true
      have hnew' := Bool.eq_false_of_not_eq_true hnew
      rw [excess_search, if_neg hnot, Int.sub_zero]
      constructor
      · exact fun h => by rw [if_pos h.2]
      · exact fun h => by rw [if_neg fun h' => h ⟨hnew', h'⟩, Int.add_zero]
  | processQueue filter token now nodes =>
    have hnot : ¬ (newSearch .file filter 0 false).isStore = true := Bool.false_ne_true
    rw [step, processQueue, Replaces, excess_search, if_neg hnot, Int.sub_zero]
    constructor
    · exact fun h => by rw [if_pos h]
    · exact fun h => by rw [if_neg h, Int.add_zero]
  | processSearchResult token nodes =>
    exact ⟨False.elim, fun _ => excess_processSearchResult s token nodes⟩
  | processSearches now => exact ⟨False.elim, fun _ => excess_processSearches s now⟩

/-- After a run in which the counter agrees, an operation keeps it so if and only if no search that
publishes a file is replaced. -/
theorem Counted.step_iff (h : s.Counted) (e : PublishEvent) :
    (s.step e).Counted ↔ s.Condition e := by
  have hzero : s.excess = 0 := Int.sub_eq_zero.mpr h
  obtain ⟨hreplaced, hkept⟩ := excess_step s e
  rw [hzero] at hreplaced hkept
  constructor
  · intro h' hreplaces
    have hone := hreplaced hreplaces
    rw [excess, Int.sub_eq_zero.mpr h'] at hone
    exact absurd hone (by decide)
  · exact fun hcondition => Int.sub_eq_zero.mp (hkept hcondition)

/-- In every run the counter is the number of searches that publish a file, in all of its states, if
and only if no search is ever started with the token of one of these. -/
theorem counted_run_iff (es : List PublishEvent) :
    (∀ pre, pre <+: es → (run step init pre).Counted) ↔ Within Condition step init es := by
  apply forall_prefix_iff_within
  · rfl
  · intro es e _ h
    rw [run_append]
    exact h.step_iff e

/-- A file is published, and the search for a node gets the same token. -/
def sameToken : List PublishEvent :=
  [.publishFile (.replicate 24 0) 2000000, .publishNextFile 7 0 [.replicate 24 1],
    .findNode (.replicate 24 2) 7 1 [.replicate 24 1]]

/-- The counter is left at one without a search that publishes a file. -/
theorem not_counted_sameToken :
    ¬ ∀ pre, pre <+: sameToken → (run step init pre).Counted := by
  intro h
  have hcounted := h sameToken List.prefix_rfl
  revert hcounted
  decide

end Publisher

end Blacklink.Dht
