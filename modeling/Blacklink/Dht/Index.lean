import Blacklink.Base.AssocMap
import Blacklink.Base.Run

/-!
# The index of sources

Model of `IndexManager::addSource`, `findResult` and `checkExpiration`
(`client/dht/IndexManager.cpp:39-97, 222-254`, `client/dht/IndexManager.h:48-56`): the sources of
each published file, the oldest first. A full source lives five hours and a partial one an hour,
so that the order is not that of the expiry times.
-/

namespace Blacklink.Dht

open Blacklink.Base

/-- `CID`. -/
abbrev CID := Vector UInt8 24

/-- `TTHValue`. -/
abbrev TTHValue := Vector UInt8 24

/-- `MAX_SEARCH_RESULTS`. -/
def maxSearchResults : Nat := 300

/-- `REPUBLISH_TIME`. -/
def republishTime : UInt64 := 5 * 60 * 60 * 1000

/-- `PFS_REPUBLISH_TIME`. -/
def pfsRepublishTime : UInt64 := 1 * 60 * 60 * 1000

/-- `Source`. -/
structure Source where
  cid : CID
  ip : UInt32
  expires : UInt64
  size : UInt64
  udpPort : UInt16
  isPartial : Bool
  deriving DecidableEq

/-- What `addSource` reads of a node. -/
structure SourceNode where
  cid : CID
  ip4 : UInt32
  udp4Port : UInt16
  deriving DecidableEq

/-- The source that `addSource` makes at the tick. -/
def Source.new (node : SourceNode) (size : UInt64) (isPartial : Bool) (tick : UInt64) : Source :=
  ⟨node.cid, node.ip4, tick + (if isPartial then pfsRepublishTime else republishTime), size,
    node.udp4Port, isPartial⟩

/-- The new source in the list of its file: behind the others, in place of an old one of its user,
and the oldest one leaves if there are too many. -/
def pushSource (sources : List Source) (source : Source) : List Source :=
  let sources := sources.eraseP (·.cid = source.cid) ++ [source]
  if maxSearchResults < sources.length then sources.tail else sources

/-- The loop of `checkExpiration` over a list. -/
def dropExpired (tick : UInt64) (sources : List Source) : List Source :=
  sources.dropWhile (·.expires ≤ tick)

/-- `IndexManager::tthList`. -/
abbrev TTHMap := AList fun _ : TTHValue => List Source

/-- The part of `IndexManager` that keeps sources. -/
structure Index where
  tthList : TTHMap

/-- The operations on sources. -/
inductive IndexEvent where
  | addSource (tth : TTHValue) (node : SourceNode) (size : UInt64) (isPartial : Bool)
      (tick : UInt64)
  | checkExpiration (tick : UInt64)

namespace Index

/-- No sources. -/
def init : Index := ⟨∅⟩

/-- `findResult`: the sources of a file, if it is known. -/
def findResult (s : Index) (tth : TTHValue) : Option (List Source) := s.tthList.lookup tth

/-- The sources of a file. -/
def sources (s : Index) (tth : TTHValue) : List Source := (s.findResult tth).getD []

/-- `addSource`. -/
def addSource (s : Index) (tth : TTHValue) (source : Source) : Index :=
  match s.tthList.lookup tth with
  | some sources => ⟨s.tthList.insert tth (pushSource sources source)⟩
  | none => ⟨s.tthList.insert tth [source]⟩

/-- What `checkExpiration` leaves of the sources of a file. -/
def expireEntry (tick : UInt64) (sources : List Source) : Option (List Source) :=
  let sources := dropExpired tick sources
  if sources = [] then none else some sources

/-- `checkExpiration`. -/
def checkExpiration (s : Index) (tick : UInt64) : Index :=
  ⟨filterMapValues (expireEntry tick) s.tthList⟩

/-- One operation. -/
def step (s : Index) : IndexEvent → Index
  | .addSource tth node size isPartial tick => s.addSource tth (.new node size isPartial tick)
  | .checkExpiration tick => s.checkExpiration tick

/-! ### The sources of a file after an operation -/

variable {s : Index}

theorem sources_addSource (s : Index) (tth tth' : TTHValue) (source : Source) :
    (s.addSource tth source).sources tth' =
      if tth' = tth then pushSource (s.sources tth) source else s.sources tth' := by
  unfold addSource sources findResult
  by_cases htth : tth' = tth
  · rw [if_pos htth, htth]
    cases s.tthList.lookup tth with
    | none =>
      dsimp only
      rw [AList.lookup_insert]
      rfl
    | some l =>
      dsimp only
      rw [AList.lookup_insert]
      rfl
  · rw [if_neg htth]
    cases s.tthList.lookup tth with
    | none =>
      dsimp only
      rw [AList.lookup_insert_ne htth]
    | some l =>
      dsimp only
      rw [AList.lookup_insert_ne htth]

theorem sources_checkExpiration (s : Index) (tick : UInt64) (tth : TTHValue) :
    (s.checkExpiration tick).sources tth = dropExpired tick (s.sources tth) := by
  unfold checkExpiration sources findResult
  rw [lookup_filterMapValues]
  cases s.tthList.lookup tth with
  | none => rfl
  | some l =>
    rw [Option.bind_some, Option.getD_some, expireEntry]
    split
    · next hnil => exact hnil.symm
    · rfl

/-! ### One source for a user, and not too many -/

/-- The sources of each file have different users, and there are not too many. -/
structure Bounded (s : Index) : Prop where
  distinct : ∀ tth, ((s.sources tth).map Source.cid).Nodup
  length_le : ∀ tth, (s.sources tth).length ≤ maxSearchResults

variable {sources : List Source} {source : Source}

theorem sublist_pushSource (sources : List Source) (source : Source) :
    (pushSource sources source).Sublist (sources.eraseP (·.cid = source.cid) ++ [source]) := by
  unfold pushSource
  dsimp only
  split
  · exact List.tail_sublist _
  · exact List.Sublist.refl _

theorem length_pushSource_le (h : sources.length ≤ maxSearchResults) :
    (pushSource sources source).length ≤ maxSearchResults := by
  have hle : (sources.eraseP (·.cid = source.cid) ++ [source]).length ≤ maxSearchResults + 1 := by
    rw [List.length_append]
    exact Nat.succ_le_succ (Nat.le_trans List.eraseP_sublist.length_le h)
  unfold pushSource
  dsimp only
  split
  · rw [List.length_tail]
    omega
  · omega

/-- When users are different, only the new source is one of its user. -/
theorem cid_ne_of_mem_eraseP (h : (sources.map Source.cid).Nodup) {other : Source}
    (hother : other ∈ sources.eraseP (·.cid = source.cid)) : other.cid ≠ source.cid := by
  intro heq
  have hmem : other ∈ sources := List.mem_of_mem_eraseP hother
  obtain ⟨first, front, back, -, hfirst, rfl, herase⟩ :=
    List.exists_of_eraseP (p := fun s => decide (s.cid = source.cid)) hmem (decide_eq_true heq)
  rw [herase] at hother
  rw [List.map_append, List.map_cons, List.nodup_middle, ← List.map_append,
    List.nodup_cons] at h
  apply h.1
  rw [of_decide_eq_true hfirst, ← heq]
  exact List.mem_map_of_mem hother

theorem nodup_pushSource (h : (sources.map Source.cid).Nodup) :
    ((pushSource sources source).map Source.cid).Nodup := by
  refine List.Nodup.sublist ((sublist_pushSource sources source).map Source.cid) ?_
  rw [List.map_append, List.nodup_append]
  refine ⟨h.sublist (List.eraseP_sublist.map _), List.nodup_singleton _, ?_⟩
  intro cid hcid cid' hcid'
  obtain ⟨other, hother, rfl⟩ := List.mem_map.mp hcid
  rw [List.mem_singleton.mp hcid']
  exact cid_ne_of_mem_eraseP h hother

theorem Bounded.step (h : s.Bounded) (e : IndexEvent) : (s.step e).Bounded := by
  cases e with
  | addSource tth node size isPartial tick =>
    constructor
    · intro tth'
      rw [Index.step, sources_addSource]
      split
      · exact nodup_pushSource (h.distinct tth)
      · exact h.distinct tth'
    · intro tth'
      rw [Index.step, sources_addSource]
      split
      · exact length_pushSource_le (h.length_le tth)
      · exact h.length_le tth'
  | checkExpiration tick =>
    constructor
    · intro tth
      rw [Index.step, sources_checkExpiration]
      exact (h.distinct tth).sublist ((List.dropWhile_sublist _).map _)
    · intro tth
      rw [Index.step, sources_checkExpiration]
      exact Nat.le_trans (List.dropWhile_sublist _).length_le (h.length_le tth)

theorem bounded_init : init.Bounded :=
  ⟨fun _ => List.nodup_nil, fun _ => Nat.zero_le _⟩

/-! ### The latest source of a user -/

/-- The source added by the last `addSource` for the file and the user. -/
def lastAdded (tth : TTHValue) (cid : CID) (es : List IndexEvent) : Option Source :=
  es.foldl (fun last e =>
    match e with
    | .addSource tth' node size isPartial tick =>
      if tth' = tth ∧ node.cid = cid then some (.new node size isPartial tick) else last
    | .checkExpiration _ => last) none

/-- Every source in the index is the latest of its user. -/
theorem lastAdded_of_mem (es : List IndexEvent) :
    ∀ tth, ∀ source ∈ (run step init es).sources tth,
      lastAdded tth source.cid es = some source := by
  induction es using List.reverseRecOn with
  | nil => exact fun tth source h => absurd h List.not_mem_nil
  | append_singleton es e ih =>
    intro tth source hsource
    rw [run_append, run_cons, run_nil] at hsource
    rw [lastAdded, List.foldl_concat]
    have hbounded : (run step init es).Bounded :=
      run_invariant Bounded (fun _ e h => h.step e) bounded_init es
    cases e with
    | addSource tth' node size isPartial tick =>
      rw [step, sources_addSource] at hsource
      dsimp only
      split at hsource
      · next htth =>
        have hmem := (sublist_pushSource _ _).subset hsource
        rcases List.mem_append.mp hmem with hold | hnew
        · have hne := cid_ne_of_mem_eraseP (hbounded.distinct tth') hold
          rw [if_neg fun h => hne h.2.symm]
          refine ih tth source ?_
          rw [htth]
          exact List.mem_of_mem_eraseP hold
        · rw [List.mem_singleton.mp hnew]
          exact if_pos ⟨htth.symm, rfl⟩
      · next htth =>
        rw [if_neg fun h => htth h.1.symm]
        exact ih tth source hsource
    | checkExpiration tick =>
      rw [step, sources_checkExpiration] at hsource
      exact ih tth source ((List.dropWhile_sublist _).subset hsource)

/-! ### Expiration -/

/-- `checkExpiration` leaves exactly the sources that expire later. -/
def Expires (s : Index) : IndexEvent → Prop
  | .checkExpiration tick =>
    ∀ tth, (s.checkExpiration tick).sources tth =
      (s.sources tth).filter fun source => tick < source.expires
  | .addSource .. => True

/-- In no list does an expired source stand behind one that has not expired. -/
def Condition (s : Index) : IndexEvent → Prop
  | .checkExpiration tick =>
    ∀ tth, (s.sources tth).Pairwise fun a b => b.expires ≤ tick → a.expires ≤ tick
  | .addSource .. => True

private theorem dropWhile_eq_filter_iff {α : Type*} (p : α → Bool) (l : List α) :
    l.dropWhile p = l.filter (!p ·) ↔ l.Pairwise fun a b => p b = true → p a = true := by
  induction l with
  | nil => exact iff_of_true rfl List.Pairwise.nil
  | cons a l ih =>
    rw [List.pairwise_cons]
    by_cases ha : p a = true
    · rw [List.dropWhile_cons_of_pos ha, List.filter_cons_of_neg (by simp [ha]), ih]
      exact (and_iff_right fun _ _ _ => ha).symm
    · rw [List.dropWhile_cons_of_neg ha, List.filter_cons_of_pos (by simp [ha]),
        List.cons_inj_right, eq_comm, List.filter_eq_self]
      constructor
      · intro h
        have hlater : ∀ b ∈ l, ¬ p b = true := fun b hb => by simpa using h b hb
        refine ⟨fun b hb htrue => absurd htrue (hlater b hb), ?_⟩
        exact List.pairwise_of_forall_mem_list fun _ _ b hb htrue => absurd htrue (hlater b hb)
      · intro h b hb
        simpa using fun htrue => ha (h.1 b hb htrue)

/-- The sources dropped from the front are all that have expired if and only if none of these
stands behind another. -/
theorem dropExpired_eq_filter_iff (tick : UInt64) (sources : List Source) :
    dropExpired tick sources = sources.filter (fun source => tick < source.expires) ↔
      sources.Pairwise fun a b => b.expires ≤ tick → a.expires ≤ tick := by
  have hlater : ∀ source : Source,
      decide (tick < source.expires) = !decide (source.expires ≤ tick) := by
    intro source
    rw [← decide_not]
    exact decide_eq_decide.mpr UInt64.not_le.symm
  simp only [hlater, dropExpired, dropWhile_eq_filter_iff, decide_eq_true_eq]

/-- An operation expires the sources as it should if and only if the condition holds. -/
theorem expires_iff (s : Index) (e : IndexEvent) : s.Expires e ↔ s.Condition e := by
  cases e with
  | addSource tth node size isPartial tick => exact Iff.rfl
  | checkExpiration tick =>
    apply forall_congr'
    intro tth
    rw [sources_checkExpiration]
    exact dropExpired_eq_filter_iff tick (s.sources tth)

/-- After every run the sources of each file are the latest of different users, and not too many.
In a run every `checkExpiration` leaves exactly the sources that expire later if and only if it
never finds an expired source behind one that has not expired. -/
theorem sources_run_iff (es : List IndexEvent) :
    (∀ tth, (((run step init es).sources tth).map Source.cid).Nodup ∧
      ((run step init es).sources tth).length ≤ maxSearchResults ∧
      ∀ source ∈ (run step init es).sources tth, lastAdded tth source.cid es = some source) ∧
      (Within Expires step init es ↔ Within Condition step init es) := by
  have hbounded : (run step init es).Bounded :=
    run_invariant Bounded (fun _ e h => h.step e) bounded_init es
  constructor
  · exact fun tth => ⟨hbounded.distinct tth, hbounded.length_le tth, lastAdded_of_mem es tth⟩
  · exact within_congr (fun _ => True) (fun _ _ _ => True.intro) (fun s e _ => s.expires_iff e)
      True.intro es

/-- A full source, and a partial one of another user behind it, an hour later. -/
def partialBehindFull : List IndexEvent :=
  [.addSource (.replicate 24 0) ⟨.replicate 24 1, 0x08080808, 6250⟩ 1 false 0,
    .addSource (.replicate 24 0) ⟨.replicate 24 2, 0x08080404, 6250⟩ 1 true 0,
    .checkExpiration 3600000]

/-- The partial source stays. -/
theorem not_expires_partialBehindFull : ¬ Within Expires step init partialBehindFull := by
  rintro ⟨-, -, hexpires, -⟩
  have hsources := hexpires (.replicate 24 0)
  revert hsources
  decide

end Index

end Blacklink.Dht
