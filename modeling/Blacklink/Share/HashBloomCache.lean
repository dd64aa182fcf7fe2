import Blacklink.Base.Run
import Blacklink.Share.HashBloom
import Blacklink.Share.Publication

/-!
# Filters that are kept for hubs

Model of `getHashBloom` (`client/ShareManager.cpp:1717-1754`) beside all that changes the index. A
request looks for its filter in a cache, or builds one and stores it, each in a critical section of
its own. A publication that takes over the index of the scan clears the cache, and nothing else does
(`client/ShareManager.cpp:3090-3105`).
-/

namespace Blacklink.Share

open Blacklink.Base

/-- `HashBloomCacheKey`. -/
structure HashBloomKey where
  k : Nat
  m : Nat
  h : Nat
  deriving DecidableEq

/-- What `AdcHub` lets pass (`client/AdcHub.cpp:965-988`), but for the bound by the number of shared
files. -/
def HashBloomKey.Admitted (key : HashBloomKey) : Prop :=
  (1 ≤ key.k ∧ key.k ≤ 8) ∧ (1 ≤ key.h ∧ key.h ≤ 64) ∧ 8 ∣ key.m ∧ 0 < key.m ∧
    (key.h < 32 → key.m ≤ 2 ^ key.h)

instance (key : HashBloomKey) : Decidable key.Admitted :=
  inferInstanceAs (Decidable (_ ∧ _ ∧ _ ∧ _ ∧ _))

/-- `HASH_BLOOM_CACHE_SIZE`. -/
def hashBloomCacheSize : Nat := 50

/-- The share, the cache of filters, the requests that did not find theirs and the filters that have
been built but not stored. -/
structure FilterServer where
  share : ShareManager TTHValue
  hashBloom : LruCache HashBloomKey (List UInt8)
  missed : List HashBloomKey
  built : List (HashBloomKey × List UInt8)

/-- Something that happens to the share, or a critical section of a request. -/
inductive FilterEvent where
  | share (e : Event TTHValue)
  | request (key : HashBloomKey)
  | build (n : Nat)
  | store (n : Nat)

/-- The filter `getHashBloom` builds. -/
def buildHashBloom (index : List (TTHMapItem TTHValue)) (key : HashBloomKey) : List UInt8 :=
  (index.foldl (fun bloom x => bloom.add x.tth) (HashBloom.reset key.k key.m key.h)).copyTo

namespace FilterServer

/-- Nothing is shared and no filter has been asked for. -/
def new : FilterServer := ⟨.new, [], [], []⟩

variable (env : Env) (s : FilterServer)

/-- What `getHashBloom` returns. -/
def getHashBloom (key : HashBloomKey) : List UInt8 :=
  (s.hashBloom.get key).getD (buildHashBloom s.share.tthIndex key)

/-- The event clears the cache. -/
def clears : Event TTHValue → Bool
  | .op .scanPublish => s.share.publishing.any fun sc => !s.share.updatesIndex env sc
  | _ => false

/-- What an event does. -/
def step : FilterEvent → FilterServer
  | .share e =>
    { s with
      share := s.share.step env e
      hashBloom := if s.clears env e then [] else s.hashBloom }
  | .request key =>
    if key.Admitted ∧ s.hashBloom.get key = none then { s with missed := s.missed ++ [key] } else s
  | .build n =>
    match s.missed[n]? with
    | none => s
    | some key =>
      { s with
        missed := s.missed.eraseIdx n
        built := s.built ++ [(key, buildHashBloom s.share.tthIndex key)] }
  | .store n =>
    match s.built[n]? with
    | none => s
    | some (key, v) =>
      { s with
        hashBloom := (s.hashBloom.removeOldest hashBloomCacheSize).add key v
        built := s.built.eraseIdx n }

end FilterServer

/-! ### A filter that has just been built -/

private theorem bloom_adds (index : List (TTHMapItem TTHValue)) (b : HashBloom) :
    let c := index.foldl (fun bloom x => bloom.add x.tth) b
    c.bloom.length = b.bloom.length ∧ c.k = b.k ∧ c.h = b.h := by
  induction index generalizing b with
  | nil => exact ⟨rfl, rfl, rfl⟩
  | cons x index ih =>
    obtain ⟨hlen, hk, hh⟩ := ih (b.add x.tth)
    exact ⟨hlen.trans (HashBloom.length_add b x.tth), hk, hh⟩

private theorem match_adds_of_match {index : List (TTHMapItem TTHValue)} {b : HashBloom}
    {tth : TTHValue} (h : b.matchTTH tth = true) :
    (index.foldl (fun bloom x => bloom.add x.tth) b).matchTTH tth = true := by
  induction index generalizing b with
  | nil => exact h
  | cons x index ih =>
    rw [List.foldl_cons]
    exact ih (HashBloom.matchTTH_add h x.tth)

private theorem match_adds_of_mem {index : List (TTHMapItem TTHValue)} {b : HashBloom}
    (hb : 0 < b.bloom.length) {x : TTHMapItem TTHValue} (hx : x ∈ index) :
    (index.foldl (fun bloom x => bloom.add x.tth) b).matchTTH x.tth = true := by
  induction index generalizing b with
  | nil => cases hx
  | cons y index ih =>
    rcases List.mem_cons.mp hx with rfl | hx
    · rw [List.foldl_cons]
      exact match_adds_of_match (HashBloom.matchTTH_add_self hb x.tth)
    · rw [List.foldl_cons]
      exact ih (by rwa [HashBloom.length_add]) hx

/-- A filter that has just been built matches the whole index. -/
theorem matchPacked_buildHashBloom {index : List (TTHMapItem TTHValue)} {key : HashBloomKey}
    (hkey : key.Admitted) {x : TTHMapItem TTHValue} (hx : x ∈ index) :
    HashBloom.matchPacked (buildHashBloom index key) key.k key.h x.tth = true := by
  obtain ⟨-, -, h8, hm, -⟩ := hkey
  have hsize : (HashBloom.reset key.k key.m key.h).bloom.length = key.m := List.length_replicate
  obtain ⟨hlen, hk, hh⟩ := bloom_adds index (HashBloom.reset key.k key.m key.h)
  rw [hsize] at hlen
  have hmatch := match_adds_of_mem (by rwa [hsize]) hx
  rw [← HashBloom.matchPacked_copyTo (by rwa [hlen]) (by rwa [hlen]), hk, hh] at hmatch
  exact hmatch

/-! ### Filters in the cache -/

/-- A filter matches the whole index. -/
def MatchesIndex (index : List (TTHMapItem TTHValue)) (item : HashBloomKey × List UInt8) : Prop :=
  ∀ x ∈ index, HashBloom.matchPacked item.2 item.1.k item.1.h x.tth = true

/-- What `getHashBloom` returns for parameters that are admitted matches the whole index. -/
def FiltersMatch (s : FilterServer) : Prop :=
  ∀ key : HashBloomKey, key.Admitted → MatchesIndex s.share.tthIndex (key, s.getHashBloom key)

/-- Keys are admitted, and in the cache once. -/
structure FilterServer.Keyed (s : FilterServer) : Prop where
  nodup : s.hashBloom.KeysNodup
  cached : ∀ item ∈ s.hashBloom, item.1.Admitted
  missed : ∀ key ∈ s.missed, key.Admitted
  built : ∀ item ∈ s.built, item.1.Admitted

/-- The condition on an event: unless it clears the cache, the filters there match what it puts into
the index, and a filter that is stored matches the index there is. -/
def KeepsMatching (env : Env) (s : FilterServer) : FilterEvent → Prop
  | .share e => s.clears env e = false →
    ∀ item ∈ s.hashBloom, ∀ x ∈ (s.share.step env e).tthIndex, x ∉ s.share.tthIndex →
      HashBloom.matchPacked item.2 item.1.k item.1.h x.tth = true
  | .request _ | .build _ => True
  | .store n => ∀ item, s.built[n]? = some item →
    (s.hashBloom.removeOldest hashBloomCacheSize).get item.1 = none →
      MatchesIndex s.share.tthIndex item

section

variable {env : Env} {s : FilterServer}

theorem filtersMatch_iff (hs : s.Keyed) :
    FiltersMatch s ↔ ∀ item ∈ s.hashBloom, MatchesIndex s.share.tthIndex item := by
  constructor
  · intro h item hitem
    have hmatch := h item.1 (hs.cached item hitem)
    rw [FilterServer.getHashBloom, LruCache.get_of_mem hs.nodup hitem] at hmatch
    exact hmatch
  · intro h key hkey
    rw [FilterServer.getHashBloom]
    cases hget : s.hashBloom.get key with
    | none => exact fun x hx => matchPacked_buildHashBloom hkey hx
    | some v => exact h (key, v) (LruCache.mem_of_get hget)

theorem FilterServer.keyed_new : FilterServer.new.Keyed :=
  ⟨LruCache.keysNodup_nil, fun _ h ↦ absurd h List.not_mem_nil, fun _ h ↦ absurd h List.not_mem_nil,
    fun _ h => absurd h List.not_mem_nil⟩

theorem FilterServer.Keyed.step (hs : s.Keyed) (e : FilterEvent) : (s.step env e).Keyed := by
  cases e with
  | share e =>
    rw [FilterServer.step]
    cases s.clears env e with
    | true =>
      exact ⟨LruCache.keysNodup_nil, fun _ h => absurd h List.not_mem_nil, hs.missed, hs.built⟩
    | false => exact ⟨hs.nodup, hs.cached, hs.missed, hs.built⟩
  | request key =>
    rw [FilterServer.step]
    split
    · next hkey =>
      refine ⟨hs.nodup, hs.cached, ?_, hs.built⟩
      intro key' hmem
      rcases List.mem_append.mp hmem with hmem | hmem
      · exact hs.missed key' hmem
      · rw [List.mem_singleton.mp hmem]
        exact hkey.1
    · exact hs
  | build n =>
    rw [FilterServer.step]
    split
    · exact hs
    · next key hmissed =>
      refine ⟨hs.nodup, hs.cached, ?_, ?_⟩
      · exact fun key' hmem => hs.missed key' ((List.eraseIdx_sublist _ _).subset hmem)
      · intro item hitem
        rcases List.mem_append.mp hitem with hitem | hitem
        · exact hs.built item hitem
        · rw [List.mem_singleton.mp hitem]
          exact hs.missed key (List.mem_of_getElem? hmissed)
  | store n =>
    rw [FilterServer.step]
    split
    · exact hs
    · next key v hbuilt =>
      refine ⟨(hs.nodup.removeOldest _).add key v, ?_, hs.missed, ?_⟩
      · intro item hitem
        rcases LruCache.mem_add.mp hitem with hitem | ⟨-, rfl⟩
        · exact hs.cached item ((LruCache.removeOldest_sublist _).subset hitem)
        · exact hs.built _ (List.mem_of_getElem? hbuilt)
      · exact fun item hitem => hs.built item ((List.eraseIdx_sublist _ _).subset hitem)

private theorem filtersMatch_share (hs : s.Keyed) (h : FiltersMatch s) (e : Event TTHValue) :
    FiltersMatch (s.step env (.share e)) ↔ KeepsMatching env s (.share e) := by
  rw [filtersMatch_iff hs] at h
  rw [filtersMatch_iff (hs.step _), FilterServer.step, KeepsMatching]
  cases s.clears env e with
  | true => exact iff_of_true (fun _ h => absurd h List.not_mem_nil) fun h => nomatch h
  | false =>
    constructor
    · exact fun h _ item hitem x hx _ => h item hitem x hx
    · intro hnew item hitem x hx
      by_cases hold : x ∈ s.share.tthIndex
      · exact h item hitem x hold
      · exact hnew rfl item hitem x hx hold

private theorem filtersMatch_store (hs : s.Keyed) (h : FiltersMatch s) (n : Nat) :
    FiltersMatch (s.step env (.store n)) ↔ KeepsMatching env s (.store n) := by
  have hstep : (s.step env (.store n)).Keyed := hs.step (.store n)
  rw [filtersMatch_iff hs] at h
  rw [filtersMatch_iff hstep, FilterServer.step, KeepsMatching]
  cases hbuilt : s.built[n]? with
  | none => exact iff_of_true h fun _ h => nomatch h
  | some item =>
    dsimp only
    constructor
    · intro hall item' hitem' hget
      cases hitem'
      exact hall item (LruCache.mem_add.mpr (.inr ⟨hget, rfl⟩))
    · intro hstored item' hitem'
      rcases LruCache.mem_add.mp hitem' with hitem' | ⟨hget, rfl⟩
      · exact h item' ((LruCache.removeOldest_sublist _).subset hitem')
      · exact hstored item rfl hget

/-- What is returned goes on matching exactly when the event meets the condition. -/
theorem filtersMatch_step (hs : s.Keyed) (h : FiltersMatch s) (e : FilterEvent) :
    FiltersMatch (s.step env e) ↔ KeepsMatching env s e := by
  cases e with
  | share e => exact filtersMatch_share hs h e
  | store n => exact filtersMatch_store hs h n
  | request key =>
    apply iff_of_true _ trivial
    rw [filtersMatch_iff hs] at h
    rw [filtersMatch_iff (hs.step _), FilterServer.step]
    split <;> exact h
  | build n =>
    apply iff_of_true _ trivial
    rw [filtersMatch_iff hs] at h
    rw [filtersMatch_iff (hs.step _), FilterServer.step]
    split <;> exact h

end

/-! ### Runs -/

/-! ### A hash that a filter misses -/

/-- A hash with the number in its first byte. -/
def TTHValue.ofByte (b : UInt8) : TTHValue := ⟨(Vector.replicate 24 0).set 0 b⟩

/-- Parameters of a filter with 64 bits, one of them for each hash. -/
def smallKey : HashBloomKey := ⟨1, 64, 8⟩

/-- A file is added, a hub gets a filter, and another file is added. -/
def addAfterFilter : List FilterEvent :=
  [.share (.loadShare (Text.ascii "/data/") (Text.ascii "Share") true),
    .share (.op (.addFile (Text.ascii "/data/a") (.ofByte 0) (some (1, 10)) 0)),
    .request smallKey, .build 0, .store 0,
    .share (.op (.addFile (Text.ascii "/data/b") (.ofByte 1) (some (1, 10)) 0))]

end Blacklink.Share
