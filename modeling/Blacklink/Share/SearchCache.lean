import Blacklink.Base.Run
import Blacklink.Base.LruCache
import Blacklink.Share.Groups
import Blacklink.Share.Scan
import Blacklink.Share.SearchParams

/-!
# Results that are kept for searches

Model of `search` beside all that changes what it finds (`client/ShareManager.cpp:2445-2514,
2716-2766, 3121-3124`). A search looks into the cache, looks at the Bloom filter, walks the trees
and stores what it found, each in a critical section of its own but for the two in the middle of an
ADC search. The cache is cleared when a scan has been published, and only then.
-/

namespace Blacklink.Share

open Blacklink.Base

/-- A search that uses the cache: one of a hub, with a key. -/
def CachedSearch (env : Env) : Type :=
  { sp : TextSearchParam // sp.Requested env ∧ sp.cacheKey ≠ [] }

/-- `SEARCH_CACHE_SIZE`. -/
def searchCacheSize : Nat := 200

/-- The share, the cache, whether it is to be cleared and the searches that did not find their key:
those that look at the Bloom filter, those that walk the trees and those that store their results.
-/
structure SearchServer (env : Env) (TTH : Type) where
  share : ShareManager TTH
  searchCache : LruCache (List UInt8) (List (SearchResultCore TTH))
  clearing : Bool
  missed : List (CachedSearch env)
  walking : List (CachedSearch env)
  found : List (List UInt8 × List (SearchResultCore TTH))

/-- Something that happens to the share, a step of a search or the end of `scanDirs`. -/
inductive SearchEvent (env : Env) (TTH : Type) where
  | share (e : Event TTH)
  | group (g : GroupOp TTH)
  | lookup (q : CachedSearch env)
  | filter (n : Nat)
  | walk (n : Nat)
  | store (n : Nat)
  | clear

namespace SearchServer

variable {env : Env} {TTH : Type} [Inhabited TTH]

/-- Nothing is shared and nothing has been searched. -/
def new : SearchServer env TTH := ⟨.new, [], false, [], [], []⟩

variable (s : SearchServer env TTH)

/-- What a search that walks the trees is going to store; nothing when it returns before. -/
def walkResults (q : CachedSearch env) : Option (List (SearchResultCore TTH)) :=
  match q.val with
  | .nmdc sp =>
    if ShareManager.filterPatterns env sp.filter ≠ [] ∧
      s.share.findGroup sp.shareGroup = none then none
    else some (s.share.searchTrees env sp)
  | .adc sp =>
    if (sp.included.any fun k => !s.share.bloom.matchString k.pattern) ∨
        s.share.findGroup sp.shareGroup = none then none
    else some (s.share.searchAdcTrees env sp)

/-- What an event does. -/
def step : SearchEvent env TTH → SearchServer env TTH
  | .share e =>
    { s with
      share := s.share.step env e
      clearing := s.clearing ||
        match e with
        | .op .scanPublish => s.share.publishing.isSome
        | _ => false }
  | .group g => { s with share := s.share.performGroup env g }
  | .lookup q =>
    if (s.searchCache.get q.val.cacheKey).isSome then s
    else
      match q.val with
      | .nmdc _ => { s with missed := s.missed ++ [q] }
      | .adc _ => { s with walking := s.walking ++ [q] }
  | .filter n =>
    match s.missed[n]? with
    | none => s
    | some q =>
      let matched :=
        match q.val with
        | .nmdc sp => s.share.bloom.matchList (ShareManager.filterTokens env sp.filter)
        | .adc _ => true
      { s with
        missed := s.missed.eraseIdx n
        walking := if matched then s.walking ++ [q] else s.walking }
  | .walk n =>
    match s.walking[n]? with
    | none => s
    | some q =>
      { s with
        walking := s.walking.eraseIdx n
        found := s.found ++ ((s.walkResults q).map fun r => (q.val.cacheKey, r)).toList }
  | .store n =>
    match s.found[n]? with
    | none => s
    | some (key, results) =>
      { s with
        searchCache := (s.searchCache.removeOldest searchCacheSize).add key results
        found := s.found.eraseIdx n }
  | .clear => if s.clearing then { s with searchCache := [], clearing := false } else s

/-- A search that is answered from the cache gets what it would find in the trees. -/
def CacheMatches : Prop :=
  s.searchCache.Answers (fun q : CachedSearch env => q.val.cacheKey) fun q =>
    s.share.walk env q.val

/-- The condition on an event: a change of the share does not change what the searches whose results
are cached find, and results that are stored are what all searches with their key find. -/
def KeepsCache : SearchEvent env TTH → Prop
  | .share e => ∀ q : CachedSearch env, (s.searchCache.get q.val.cacheKey).isSome →
    (s.share.step env e).walk env q.val = s.share.walk env q.val
  | .group g => ∀ q : CachedSearch env, (s.searchCache.get q.val.cacheKey).isSome →
    (s.share.performGroup env g).walk env q.val = s.share.walk env q.val
  | .store n => ∀ key results, s.found[n]? = some (key, results) →
    (s.searchCache.removeOldest searchCacheSize).get key = none →
      ∀ q : CachedSearch env, q.val.cacheKey = key → results = s.share.walk env q.val
  | .lookup _ | .filter _ | .walk _ | .clear => True

variable {s}

/-- Keys are in the cache once. -/
theorem keysNodup_step (h : s.searchCache.KeysNodup) (e : SearchEvent env TTH) :
    (s.step e).searchCache.KeysNodup := by
  cases e with
  | share e => exact h
  | group g => exact h
  | lookup q =>
    rw [step]
    split
    · exact h
    · split <;> exact h
  | filter n =>
    rw [step]
    split <;> exact h
  | walk n =>
    rw [step]
    split <;> exact h
  | store n =>
    rw [step]
    split
    · exact h
    · next key results _ =>
      dsimp only
      exact (h.removeOldest searchCacheSize).add key results
  | clear =>
    rw [step]
    split
    · exact LruCache.keysNodup_nil
    · exact h

private theorem cacheMatches_store (hkeys : s.searchCache.KeysNodup) (h : s.CacheMatches)
    (n : Nat) :
    (s.step (.store n)).CacheMatches ↔ s.KeepsCache (.store n) := by
  rw [step, KeepsCache]
  cases hfound : s.found[n]? with
  | none => exact iff_of_true h fun _ _ h => nomatch h
  | some item =>
    obtain ⟨key, results⟩ := item
    unfold CacheMatches
    dsimp only
    apply (LruCache.Answers.store_iff h hkeys searchCacheSize key results).trans
    constructor
    · rintro hall key' results' heq
      cases heq
      exact hall
    · exact fun hall => hall key results rfl

/-- The cache goes on being right exactly when the event meets the condition. -/
theorem cacheMatches_step (hkeys : s.searchCache.KeysNodup) (h : s.CacheMatches)
    (e : SearchEvent env TTH) : (s.step e).CacheMatches ↔ s.KeepsCache e := by
  cases e with
  | share e => exact LruCache.Answers.congr_iff h
  | group g => exact LruCache.Answers.congr_iff h
  | store n => exact cacheMatches_store hkeys h n
  | lookup q =>
    apply iff_of_true _ trivial
    rw [step]
    split
    · exact h
    · split <;> exact h
  | filter n =>
    apply iff_of_true _ trivial
    rw [step]
    split <;> exact h
  | walk n =>
    apply iff_of_true _ trivial
    rw [step]
    split <;> exact h
  | clear =>
    apply iff_of_true _ trivial
    rw [step]
    split
    · exact LruCache.answers_nil
    · exact h

/-! ### Results that are out of date -/

/-- A search for files with an extension. -/
def txtParam : AdcSearchParam :=
  { AdcSearchParam.initial 10 .zero with
    exts := [Text.ascii "txt"], cacheKey := Text.ascii "10= EXtxt" }

def txtSearch : CachedSearch Env.ascii :=
  ⟨.adc txtParam, .adc (show adcSearchParam Env.ascii [Text.ascii "EXtxt"] 10 .zero = some txtParam
    by rfl), by decide⟩

/-- A hub searches, and then a file is added. -/
def addAfterSearch : List (SearchEvent Env.ascii Nat) :=
  [.share (.loadShare (Text.ascii "/data/") (Text.ascii "Share") true),
    .group (.initDefault (⟨0, 0⟩, ⟨0, 0⟩)), .lookup txtSearch, .walk 0, .store 0,
    .share (.op (.addFile (Text.ascii "/data/a.txt") 1 (some (1, 10)) 0))]

end SearchServer

end Blacklink.Share
