import Blacklink.Share.ShareManager

/-!
# Searching the share

Model of `StringSearch` (`client/StringSearch.h:37-195`) and of the text searches of `ShareManager`
(`client/ShareManager.cpp:2379-2510, 2600-2767`), for hubs of both protocols. The counter of hits is
left out, and the client is not shutting down.
-/

namespace Blacklink.Share

/-! ### Patterns -/

/-- `StringSearch` that ignores case, `pattern` being in lower case. -/
structure StringSearch where
  pattern : List UInt8
  deriving DecidableEq

namespace StringSearch

/-- `StringSearch(pattern)`. -/
def new (env : Env) (pattern : List UInt8) : StringSearch := ⟨env.toLower pattern⟩

/-- The entry of `delta1` for a byte; `T` has one byte for short patterns and two for others. -/
def delta1 (p : List UInt8) (c : UInt8) : Nat :=
  let values := if p.length < 255 then 256 else 65536
  let x := (p.length + 1) % values
  let last := (x + values - 1) % values
  (List.range last).foldl (fun d i => if p[i]? = some c then last - i else d) x

/-- The loop of `doMatch` from `tx` on; behind the text there is a zero. A pass that ends shifts by
one position at least. -/
def doMatch (p text : List UInt8) : Nat → Nat → Bool
  | 0, _ => false
  | n + 1, tx =>
    if text.length < tx + p.length then false
    else if (text.drop tx).take p.length = p then true
    else doMatch p text n (tx + delta1 p ((text.drop (tx + p.length)).headD 0))

/-- `matchKeepCase`. -/
def matchKeepCase (k : StringSearch) (text : List UInt8) : Bool :=
  if text.length < k.pattern.length then false
  else doMatch k.pattern text (text.length + 1) 0

private theorem infix_of_doMatch {p text : List UInt8} {n tx : Nat}
    (h : doMatch p text n tx = true) : p <:+: text := by
  induction n generalizing tx with
  | zero => cases h
  | succ n ih =>
    rw [doMatch] at h
    split at h
    · cases h
    split at h
    · next heq =>
      rw [← heq]
      exact (List.take_prefix _ _).isInfix.trans (List.drop_suffix _ _).isInfix
    · exact ih h

/-- What matches occurs in the text. -/
theorem infix_of_matchKeepCase {k : StringSearch} {text : List UInt8}
    (h : k.matchKeepCase text = true) : k.pattern <:+: text := by
  unfold matchKeepCase at h
  split at h
  · cases h
  · exact infix_of_doMatch h

end StringSearch

/-! ### Results -/

/-- `SearchResultCore`. -/
structure SearchResultCore (TTH : Type) where
  isDirectory : Bool
  size : Int
  file : List UInt8
  tth : TTH
  deriving DecidableEq

/-- The loop over `files`: the results and that there are enough of them. -/
def searchFiles {TTH : Type} (accepted : SharedFile → Bool)
    (result : SharedFile → SearchResultCore TTH) (maxResults : Nat) :
    List (List UInt8 × SharedFile) → List (SearchResultCore TTH) →
      List (SearchResultCore TTH) × Bool
  | [], results => (results, false)
  | kf :: files, results =>
    if accepted kf.2 then
      let results := results ++ [result kf.2]
      if maxResults ≤ results.length then (results, true)
      else searchFiles accepted result maxResults files results
    else searchFiles accepted result maxResults files results

/-- `SearchCache`: the keys and the results of finished searches, the oldest first. -/
abbrev SearchCache (TTH : Type) := List (List UInt8 × List (SearchResultCore TTH))

/-- `searchCache.get`. -/
def SearchCache.get {TTH : Type} (cache : SearchCache TTH) (key : List UInt8) :
    Option (List (SearchResultCore TTH)) := (cache.find? fun item => item.1 = key).map Prod.snd

/-- `removeOldest(SEARCH_CACHE_SIZE)` and `add`. -/
def SearchCache.add {TTH : Type} (cache : SearchCache TTH) (key : List UInt8)
    (results : List (SearchResultCore TTH)) : SearchCache TTH :=
  let cache : SearchCache TTH := cache.drop (cache.length + 1 - 200)
  if (cache.get key).isSome then cache else cache ++ [(key, results)]

/-! ### NMDC -/

/-- `SizeModes`. -/
inductive SizeMode where
  | dontCare
  | atLeast
  | atMost
  | exact
  deriving DecidableEq

/-- `NmdcSearchParam` of a text search. -/
structure NmdcSearchParam where
  sizeMode : SizeMode
  size : Int
  maxResults : Nat
  fileType : Nat
  filter : List UInt8
  cacheKey : List UInt8
  shareGroup : CID

/-- `FILE_TYPE_ANY`. -/
def fileTypeAny : Nat := 0

/-- `FILE_TYPE_DIRECTORY`. -/
def fileTypeDirectory : Nat := 7

/-- The separator of NMDC paths. -/
def nmdcSeparator : UInt8 := 0x5c

section Nmdc

variable {TTH : Type} [Inhabited TTH] (env : Env) (fileState : Nat → FileState TTH)
  (sp : NmdcSearchParam)

/-- The conditions of the search on a file. -/
def NmdcSearchParam.accepts (cur : List StringSearch) (file : SharedFile) : Bool :=
  !(sp.sizeMode = .atLeast ∧ file.size < sp.size) &&
    !(sp.sizeMode = .atMost ∧ sp.size < file.size) && file.hasType sp.fileType &&
    cur.all fun k => k.matchKeepCase (env.lowerName file.name)

mutual

/-- `searchL` for a directory whose parent has the path `parentPath`. -/
def searchL (parentPath : List UInt8) (strings : List StringSearch) :
    SharedDir → List (SearchResultCore TTH) → List (SearchResultCore TTH)
  | .mk n ds, results =>
    if !(SharedDir.mk n ds).hasType sp.fileType then results
    else
      let path := parentPath ++ n.name ++ [nmdcSeparator]
      let cur := strings.filter fun k => !k.matchKeepCase (env.lowerName n.name)
      let sizeOk := sp.sizeMode ≠ .atLeast ∨ sp.size = 0
      let results :=
        if cur = [] ∧ (sp.fileType = fileTypeAny ∧ sizeOk ∨ sp.fileType = fileTypeDirectory) then
          results ++ [⟨true, 0, path, default⟩]
        else results
      let found :=
        if sp.fileType = fileTypeDirectory then (results, false)
        else
          searchFiles (sp.accepts env cur)
            (fun file => ⟨false, file.size, path ++ file.name, (fileState file.id).tth⟩)
            sp.maxResults n.files results
      if found.2 then found.1
      else if sp.fileType = fileTypeAny ∨ n.dirsTypesMask.testBit sp.fileType then
        searchDirs path cur ds found.1
      else found.1

/-- The loop of `searchL` over `dirs`. -/
def searchDirs (path : List UInt8) (strings : List StringSearch) :
    List SharedDir → List (SearchResultCore TTH) → List (SearchResultCore TTH)
  | [], results => results
  | d :: ds, results =>
    let results := searchL path strings d results
    if sp.maxResults ≤ results.length then results else searchDirs path strings ds results

end

/-- The loop of `search` over the shares of the group. -/
def searchShares (ssl : List StringSearch) :
    List ShareListItem → List (SearchResultCore TTH) → List (SearchResultCore TTH)
  | [], results => results
  | sli :: slis, results =>
    let results := searchL env fileState sp [] ssl sli.dir results
    if sp.maxResults ≤ results.length then results else searchShares ssl slis results

end Nmdc

/-! ### ADC -/

/-- `AdcSearchParam` of a text search; `included` and `excluded` are its `include` and `exclude`. -/
structure AdcSearchParam where
  included : List StringSearch
  excluded : List StringSearch
  exts : List (List UInt8)
  noExts : List (List UInt8)
  gt : Int
  lt : Int
  isDirectory : Bool
  maxResults : Nat
  cacheKey : List UInt8
  shareGroup : CID

/-- `std::set_difference`; `n` is the number of elements of both lists. -/
def setDifference : Nat → List (List UInt8) → List (List UInt8) → List (List UInt8)
  | 0, _, _ => []
  | _ + 1, [], _ => []
  | _ + 1, as, [] => as
  | n + 1, a :: as, b :: bs =>
    if a < b then a :: setDifference n as (b :: bs)
    else if b < a then setDifference n (a :: as) bs
    else setDifference n as bs

namespace AdcSearchParam

variable (sp : AdcSearchParam)

/-- `isExcluded`. -/
def isExcluded (strLower : List UInt8) : Bool := sp.excluded.any fun k => k.matchKeepCase strLower

/-- `newStr` in `searchL`: the patterns but those the name of the directory matches, if there are
such. -/
def newStr (given : List StringSearch) (name : List UInt8) : Option (List StringSearch) :=
  if !sp.isExcluded name && given.any fun k => k.matchKeepCase name then
    some (given.filter fun k => !k.matchKeepCase name)
  else none

/-- What `hasExt` makes of the lists of extensions. -/
def useNoExts : AdcSearchParam :=
  if sp.exts = [] ∨ sp.noExts = [] then sp
  else
    { sp with
      exts := setDifference (sp.exts.length + sp.noExts.length) sp.exts sp.noExts, noExts := [] }

/-- What `hasExt` returns. -/
def hasExt (name : List UInt8) : Bool :=
  sp.exts = [] || sp.useNoExts.exts.any fun ext =>
    ext.length ≤ name.length &&
      strnicmpEq (name.drop (name.length - ext.length)) ext ext.length

end AdcSearchParam

/-- The results of an ADC search and what has become of its parameters. -/
structure AdcSearch (TTH : Type) where
  results : List (SearchResultCore TTH)
  sp : AdcSearchParam

section Adc

variable {TTH : Type} [Inhabited TTH] (env : Env) (fileState : Nat → FileState TTH)

/-- The loop over `files`: what is found and that it is enough. -/
def searchAdcFiles (path : List UInt8) (cur : List StringSearch) :
    List (List UInt8 × SharedFile) → AdcSearch TTH → AdcSearch TTH × Bool
  | [], st => (st, false)
  | (_, file) :: files, st =>
    let name := env.lowerName file.name
    if file.size < st.sp.gt ∨ st.sp.lt < file.size ∨ st.sp.isExcluded name then
      searchAdcFiles path cur files st
    else
      let accepted := st.sp.hasExt name && cur.all fun k => k.matchKeepCase name
      let st := { st with sp := st.sp.useNoExts }
      if accepted then
        let st :=
          { st with
            results := st.results ++
              [⟨false, file.size, path ++ file.name, (fileState file.id).tth⟩] }
        if st.sp.maxResults ≤ st.results.length then (st, true)
        else searchAdcFiles path cur files st
      else searchAdcFiles path cur files st

mutual

/-- `searchL` for a directory whose parent has the path `parentPath`. -/
def searchAdcL (parentPath : List UInt8) (replaceInclude : Option (List StringSearch)) :
    SharedDir → AdcSearch TTH → AdcSearch TTH
  | .mk n ds, st =>
    let path := parentPath ++ n.name ++ [nmdcSeparator]
    let name := env.lowerName n.name
    let given := replaceInclude.getD st.sp.included
    let newStr := st.sp.newStr given name
    let cur := newStr.getD given
    let st :=
      if cur = [] ∧ st.sp.exts = [] ∧ st.sp.gt = 0 then
        { st with results := st.results ++ [⟨true, n.totalSize, path, default⟩] }
      else st
    let found :=
      if st.sp.isDirectory then (st, false)
      else searchAdcFiles env fileState path cur n.files st
    if found.2 then found.1 else searchAdcDirs path newStr ds found.1

/-- The loop of `searchL` over `dirs`. -/
def searchAdcDirs (path : List UInt8) (newStr : Option (List StringSearch)) :
    List SharedDir → AdcSearch TTH → AdcSearch TTH
  | [], st => st
  | d :: ds, st =>
    let st := searchAdcL path newStr d st
    if st.sp.maxResults ≤ st.results.length then st else searchAdcDirs path newStr ds st

end

/-- The loop of `search` over the shares of the group. -/
def searchAdcShares : List ShareListItem → AdcSearch TTH → AdcSearch TTH
  | [], st => st
  | sli :: slis, st =>
    let st := searchAdcL env fileState [] none sli.dir st
    if st.sp.maxResults ≤ st.results.length then st else searchAdcShares slis st

end Adc

/-! ### The searches -/

namespace ShareManager

variable {TTH : Type} [Inhabited TTH] (env : Env) (s : ShareManager TTH)

/-- `shareGroups.find(id)`. -/
def findGroup (id : CID) : Option (ShareGroup TTH) := s.shareGroups.find? fun sg => sg.id = id

/-- The shares a search of the group goes through. -/
def groupShares (sg : ShareGroup TTH) : List ShareListItem :=
  s.shares.filter fun sli => !sli.removed && sg.hasShare env sli

/-- The tokens of the filter of an NMDC search. -/
def filterTokens (filter : List UInt8) : List (List UInt8) :=
  Text.tokens 0x24 (env.toLower filter)

/-- The patterns of an NMDC search. -/
def filterPatterns (filter : List UInt8) : List StringSearch :=
  ((filterTokens env filter).filter fun t => t ≠ []).map (StringSearch.new env)

/-- What an NMDC search finds in the trees of its group; nothing when there is no such group. -/
def searchTrees (sp : NmdcSearchParam) : List (SearchResultCore TTH) :=
  match filterPatterns env sp.filter, s.findGroup sp.shareGroup with
  | [], _ => []
  | _, none => []
  | ssl, some sg => searchShares env s.fileState sp ssl (s.groupShares env sg) []

/-- The NMDC `search` for a text: the results, and the cache after it. -/
def search (cache : SearchCache TTH) (sp : NmdcSearchParam) :
    List (SearchResultCore TTH) × SearchCache TTH :=
  match if sp.cacheKey = [] then none else cache.get sp.cacheKey with
  | some results => (results, cache)
  | none =>
    if !s.bloom.matchList (filterTokens env sp.filter) then ([], cache)
    else if filterPatterns env sp.filter ≠ [] ∧ s.findGroup sp.shareGroup = none then ([], cache)
    else
      let results := searchTrees env s sp
      (results, if sp.cacheKey = [] then cache else cache.add sp.cacheKey results)

/-- What an ADC search finds in the trees of its group; nothing when there is no such group. -/
def searchAdcTrees (sp : AdcSearchParam) : List (SearchResultCore TTH) :=
  match s.findGroup sp.shareGroup with
  | none => []
  | some sg => (searchAdcShares env s.fileState (s.groupShares env sg) ⟨[], sp⟩).results

/-- The ADC `search` for a text: the results, and the cache after it. -/
def searchAdc (cache : SearchCache TTH) (sp : AdcSearchParam) :
    List (SearchResultCore TTH) × SearchCache TTH :=
  match if sp.cacheKey = [] then none else cache.get sp.cacheKey with
  | some results => (results, cache)
  | none =>
    if sp.included.any fun k => !s.bloom.matchString k.pattern then ([], cache)
    else if s.findGroup sp.shareGroup = none then ([], cache)
    else
      let results := searchAdcTrees env s sp
      (results, if sp.cacheKey = [] then cache else cache.add sp.cacheKey results)

end ShareManager

end Blacklink.Share
