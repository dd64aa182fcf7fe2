import Blacklink.Share.MaskRuns
import Blacklink.Share.StringSearch

/-!
# What an NMDC search finds

The walk through a tree that leaves nothing out comes to every directory and file. The search
(`client/ShareManager.cpp:2379-2503`) leaves out what cannot have its type by the type masks. While
these have the types of all that is there, it finds what the walk does, but for a search for
directories: no mask ever has that type, so that it finds nothing.
-/

namespace Blacklink.Share

open Blacklink.Base Blacklink.Text

/-- A directory or file that the walk comes to: the lower case names from the share to it, the
patterns that none of them matches, the file if it is one, and the result for it. -/
structure WalkItem (TTH : Type) where
  names : List (List UInt8)
  left : List StringSearch
  file : Option SharedFile
  result : SearchResultCore TTH

variable {TTH : Type} [Inhabited TTH] (env : Env) (fileState : Nat → FileState TTH)

/-- The item of a file. -/
def walkFile (path : List UInt8) (names : List (List UInt8)) (cur : List StringSearch)
    (file : SharedFile) : WalkItem TTH where
  names := names ++ [env.lowerName file.name]
  left := cur.filter fun k => !k.matchKeepCase (env.lowerName file.name)
  file := some file
  result := ⟨false, file.size, path ++ file.name, (fileState file.id).tth⟩

mutual

/-- The walk through a directory whose parent has the path `parentPath`. -/
def walkL (parentPath : List UInt8) (above : List (List UInt8)) (strings : List StringSearch) :
    SharedDir → List (WalkItem TTH)
  | .mk n ds =>
    let path := parentPath ++ n.name ++ [nmdcSeparator]
    let names := above ++ [env.lowerName n.name]
    let cur := strings.filter fun k => !k.matchKeepCase (env.lowerName n.name)
    ⟨names, cur, none, ⟨true, 0, path, default⟩⟩ ::
      (n.files.map fun kf => walkFile env fileState path names cur kf.2) ++
      walkDirs path names cur ds

/-- The walk through subdirectories. -/
def walkDirs (path : List UInt8) (above : List (List UInt8)) (strings : List StringSearch) :
    List SharedDir → List (WalkItem TTH)
  | [] => []
  | d :: ds => walkL path above strings d ++ walkDirs path above strings ds

end

/-- The walk through the trees of shares. -/
def walkShares (ssl : List StringSearch) (slis : List ShareListItem) : List (WalkItem TTH) :=
  slis.flatMap fun sli => walkL env fileState [] [] ssl sli.dir

variable {env fileState} {sp : NmdcSearchParam}

theorem walkDirs_eq (path : List UInt8) (above : List (List UInt8)) (strings : List StringSearch)
    (ds : List SharedDir) :
    walkDirs env fileState path above strings ds =
      ds.flatMap (walkL env fileState path above strings) := by
  induction ds with
  | nil => rw [walkDirs, List.flatMap_nil]
  | cons d ds ih => rw [walkDirs, ih, List.flatMap_cons]

/-! ### What is wanted -/

/-- A size fits. -/
def NmdcSearchParam.Fits (sp : NmdcSearchParam) (size : Int) : Prop :=
  match sp.sizeMode with
  | .dontCare => True
  | .atLeast => sp.size ≤ size
  | .atMost => size ≤ sp.size
  | .exact => size = sp.size

instance (size : Int) : Decidable (sp.Fits size) := by
  unfold NmdcSearchParam.Fits
  split
  · exact instDecidableTrue
  · exact inferInstance
  · exact inferInstance
  · exact inferInstance

/-- The walk adds a directory when no pattern is left. -/
def NmdcSearchParam.WantsDir (sp : NmdcSearchParam) : Prop :=
  sp.fileType = fileTypeAny ∧ (sp.sizeMode ≠ .atLeast ∨ sp.size = 0) ∨
    sp.fileType = fileTypeDirectory

instance : Decidable sp.WantsDir := inferInstanceAs (Decidable (_ ∨ _))

/-- What the search is for: files of the size and type such that each pattern occurs in a name on
the way or in their own, and the directories that the walk adds. -/
def NmdcSearchParam.Wants (sp : NmdcSearchParam) (ssl : List StringSearch) (v : WalkItem TTH) :
    Prop :=
  match v.file with
  | some file => sp.Fits file.size ∧ file.hasType sp.fileType = true ∧
    ∀ k ∈ ssl, ∃ name ∈ v.names, k.pattern <:+: name
  | none => v.left = [] ∧ sp.WantsDir

instance NmdcSearchParam.decidableWants (ssl : List StringSearch) (v : WalkItem TTH) :
    Decidable (sp.Wants ssl v) := by
  unfold NmdcSearchParam.Wants
  split
  · exact instDecidableAnd
  · exact instDecidableAnd

/-! ### The search of a tree -/

/-- What the search adds to the results. -/
def NmdcSearchParam.finds (sp : NmdcSearchParam) (v : WalkItem TTH) : Bool :=
  v.left = [] && match v.file with
    | some file => !(sp.sizeMode = .atLeast ∧ file.size < sp.size) &&
        !(sp.sizeMode = .atMost ∧ sp.size < file.size) && file.hasType sp.fileType
    | none => decide sp.WantsDir

omit [Inhabited TTH] in
private theorem finds_walkFile (path : List UInt8) (names : List (List UInt8))
    (cur : List StringSearch) (file : SharedFile) :
    sp.finds (walkFile env fileState path names cur file) = sp.accepts env cur file := by
  have hleft : decide ((walkFile env fileState path names cur file).left = []) =
      cur.all fun k => k.matchKeepCase (env.lowerName file.name) := by
    rw [Bool.eq_iff_iff, decide_eq_true_eq, walkFile, List.filter_eq_nil_iff, List.all_eq_true]
    simp
  rw [NmdcSearchParam.finds, hleft, NmdcSearchParam.accepts, Bool.and_comm]
  rfl

omit [Inhabited TTH] in
/-- The loop over the files stops when there are enough results, or has found what it is for. -/
private theorem searchFiles_eq (accepted : SharedFile → Bool)
    (result : SharedFile → SearchResultCore TTH) (maxResults : Nat)
    (files : List (List UInt8 × SharedFile)) (results : List (SearchResultCore TTH)) :
    let found := searchFiles accepted result maxResults files results
    (found.2 = true → maxResults ≤ found.1.length) ∧
      (found.2 = false → found.1 = results ++
        ((files.filter fun kf => accepted kf.2).map fun kf => result kf.2)) := by
  induction files generalizing results with
  | nil => exact ⟨fun h => Bool.noConfusion h, fun _ => (List.append_nil _).symm⟩
  | cons kf files ih =>
    rw [searchFiles]
    split
    · next haccepted =>
      dsimp only
      split
      · next henough => exact ⟨fun _ => henough, fun h => Bool.noConfusion h⟩
      · refine ⟨(ih _).1, fun h => ?_⟩
        rw [(ih _).2 h, List.filter_cons, if_pos haccepted, List.map_cons, List.append_assoc,
          List.singleton_append]
    · next hnot =>
      refine ⟨(ih _).1, fun h => ?_⟩
      rw [(ih _).2 h, List.filter_cons, if_neg hnot]

/-- Nothing of a type that a covered tree does not have is found in it. -/
private theorem finds_of_not_hasType {d : SharedDir} (hd : Covered d)
    (htype : d.hasType sp.fileType = false) (hdir : sp.fileType ≠ fileTypeDirectory)
    (parentPath : List UInt8) (above : List (List UInt8)) (strings : List StringSearch) :
    ∀ v ∈ walkL env fileState parentPath above strings d, sp.finds v = false := by
  have hany : sp.fileType ≠ fileTypeAny := by
    intro hany
    rw [SharedDir.hasType, hany] at htype
    exact Bool.noConfusion htype
  have hnodir : ¬ sp.WantsDir := by
    rintro (h | h)
    · exact hany h.1
    · exact hdir h
  induction d generalizing parentPath above strings with
  | mk n ds ih =>
    have hnone : ∀ {mask : Nat}, BitsIn mask (SharedDir.mk n ds).getTypes →
        mask.testBit sp.fileType = false := by
      intro mask hmask
      rw [SharedDir.hasType, Bool.or_eq_false_iff] at htype
      rw [← Bool.not_eq_true]
      exact fun h => Bool.noConfusion (htype.2.symm.trans (hmask _ h))
    intro v hv
    rw [walkL, List.cons_append, List.mem_cons, List.mem_append] at hv
    rcases hv with rfl | hv | hv
    · rw [NmdcSearchParam.finds, decide_eq_false hnodir, Bool.and_false]
    · obtain ⟨kf, hkf, rfl⟩ := List.mem_map.mp hv
      have hfile : kf.2.hasType sp.fileType = false := by
        rw [SharedFile.hasType, hnone ((hd.files kf hkf).trans (bitsIn_or_left _ _)), Bool.or_false]
        exact beq_false_of_ne hany
      rw [finds_walkFile, NmdcSearchParam.accepts, hfile, Bool.and_false, Bool.false_and]
    · rw [walkDirs_eq] at hv
      obtain ⟨e, he, hv⟩ := List.mem_flatMap.mp hv
      have htypes : BitsIn e.getTypes (SharedDir.mk n ds).getTypes :=
        (hd.subdirs.types e he).or_right _
      have hmissing : e.hasType sp.fileType = false := by
        rw [SharedDir.hasType, hnone htypes, Bool.or_false]
        exact beq_false_of_ne hany
      exact ih e he (hd.dirs e he) hmissing _ _ _ v hv

/-- What the search makes of directories that it comes to. -/
private theorem searchDirs_eq {path : List UInt8} {above : List (List UInt8)}
    {strings : List StringSearch} {ds : List SharedDir}
    (h : ∀ d ∈ ds, ∀ results,
      (searchL env fileState sp path strings d results).length < sp.maxResults →
      searchL env fileState sp path strings d results =
        results ++ ((walkL env fileState path above strings d).filter sp.finds).map WalkItem.result)
    {results : List (SearchResultCore TTH)}
    (hlimit : (searchDirs env fileState sp path strings ds results).length < sp.maxResults) :
    searchDirs env fileState sp path strings ds results =
      results ++ ((walkDirs env fileState path above strings ds).filter sp.finds).map
        WalkItem.result := by
  induction ds generalizing results with
  | nil =>
    rw [searchDirs, walkDirs]
    exact (List.append_nil _).symm
  | cons d ds ih =>
    rw [List.forall_mem_cons] at h
    rw [searchDirs] at hlimit ⊢
    rw [walkDirs]
    split at hlimit
    · next henough => exact absurd hlimit (Nat.not_lt.mpr henough)
    · next hfew =>
      rw [if_neg hfew, ih h.2 hlimit, h.1 _ (Nat.not_le.mp hfew), List.filter_append,
        List.map_append, List.append_assoc]

/-- The search of a directory that has the type: the directory itself, its files and, if the types
of the subdirectories say so, these. -/
private theorem searchL_of_hasType {n : DirNode} {ds : List SharedDir}
    (htype : (SharedDir.mk n ds).hasType sp.fileType = true)
    (hdir : sp.fileType ≠ fileTypeDirectory) {parentPath path : List UInt8}
    (hpath : path = parentPath ++ n.name ++ [nmdcSeparator])
    (names : List (List UInt8)) {strings cur : List StringSearch}
    (hcur : cur = strings.filter fun k => !k.matchKeepCase (env.lowerName n.name))
    (results : List (SearchResultCore TTH)) :
    searchL env fileState sp parentPath strings (.mk n ds) results =
      let item : WalkItem TTH := ⟨names, cur, none, ⟨true, 0, path, default⟩⟩
      let found := searchFiles (sp.accepts env cur)
        (fun file => ⟨false, file.size, path ++ file.name, (fileState file.id).tth⟩) sp.maxResults
        n.files (results ++ ([item].filter sp.finds).map WalkItem.result)
      if found.2 then found.1
      else if sp.fileType = fileTypeAny ∨ n.dirsTypesMask.testBit sp.fileType then
        searchDirs env fileState sp path cur ds found.1
      else found.1 := by
  subst hpath hcur
  rw [searchL, htype, Bool.not_true, if_neg Bool.false_ne_true]
  dsimp only
  rw [if_neg hdir]
  generalize strings.filter _ = cur
  generalize parentPath ++ n.name ++ [nmdcSeparator] = path
  have hitem (item : WalkItem TTH) (h : item = ⟨names, cur, none, ⟨true, 0, path, default⟩⟩) :
      (if cur = [] ∧ (sp.fileType = fileTypeAny ∧ (sp.sizeMode ≠ .atLeast ∨ sp.size = 0) ∨
        sp.fileType = fileTypeDirectory) then results ++ [⟨true, 0, path, default⟩] else results) =
      results ++ ([item].filter sp.finds).map WalkItem.result := by
    subst h
    split
    · next h =>
      rw [List.filter_cons, if_pos]
      · rfl
      · rw [NmdcSearchParam.finds, decide_eq_true h.1, Bool.true_and]
        exact decide_eq_true h.2
    · next h =>
      rw [List.filter_cons, if_neg]
      · exact (List.append_nil _).symm
      · rw [NmdcSearchParam.finds, Bool.and_eq_true, decide_eq_true_eq, decide_eq_true_eq]
        exact h
  rw [hitem _ rfl]

/-- Below the limit, the search of a covered tree finds what the walk comes to. -/
theorem searchL_eq {d : SharedDir} (hd : Covered d) (hdir : sp.fileType ≠ fileTypeDirectory)
    (parentPath : List UInt8) (above : List (List UInt8)) (strings : List StringSearch)
    {results : List (SearchResultCore TTH)}
    (hlimit : (searchL env fileState sp parentPath strings d results).length < sp.maxResults) :
    searchL env fileState sp parentPath strings d results =
      results ++ ((walkL env fileState parentPath above strings d).filter sp.finds).map
        WalkItem.result := by
  induction d generalizing parentPath above strings results with
  | mk n ds ih =>
    by_cases htype : (SharedDir.mk n ds).hasType sp.fileType = true
    · rw [walkL]
      generalize hpath : parentPath ++ n.name ++ [nmdcSeparator] = path
      generalize above ++ [env.lowerName n.name] = names
      generalize hcur : (strings.filter fun k => !k.matchKeepCase (env.lowerName n.name)) = cur
      rw [searchL_of_hasType htype hdir hpath.symm names hcur.symm] at hlimit ⊢
      dsimp only at hlimit ⊢
      generalize hitem : (⟨names, cur, none, ⟨true, 0, path, default⟩⟩ : WalkItem TTH) = item
        at hlimit ⊢
      obtain ⟨hstop, hall⟩ := searchFiles_eq (sp.accepts env cur)
        (fun file => ⟨false, file.size, path ++ file.name, (fileState file.id).tth⟩) sp.maxResults
        n.files (results ++ ([item].filter sp.finds).map WalkItem.result)
      generalize searchFiles _ _ _ _ _ = found at hlimit hstop hall ⊢
      cases hfound : found.2 with
      | true =>
        rw [hfound, if_pos rfl] at hlimit
        exact absurd hlimit (Nat.not_lt.mpr (hstop hfound))
      | false =>
        rw [hfound, if_neg Bool.false_ne_true] at hlimit
        rw [if_neg Bool.false_ne_true]
        have hfiles : found.1 = results ++ ((item :: n.files.map fun kf =>
            walkFile env fileState path names cur kf.2).filter sp.finds).map WalkItem.result := by
          have haccepts : (n.files.filter fun kf => sp.accepts env cur kf.2) =
              n.files.filter (sp.finds ∘ fun kf => walkFile env fileState path names cur kf.2) :=
            List.filter_congr fun kf _ => (finds_walkFile path names cur kf.2).symm
          rw [hall hfound, haccepts, List.append_assoc]
          change _ = results ++ (([item] ++ n.files.map _).filter sp.finds).map _
          rw [List.filter_append, List.map_append, List.filter_map, List.map_map]
          rfl
        rw [List.filter_append, List.map_append, ← List.append_assoc, ← hfiles]
        split
        · next hsearched =>
          rw [if_pos hsearched] at hlimit
          apply searchDirs_eq _ hlimit
          exact fun d hmem results => ih d hmem (hd.dirs d hmem) path names cur
        · next hpruned =>
          rw [not_or] at hpruned
          rw [walkDirs_eq, List.filter_eq_nil_iff.mpr]
          · exact (List.append_nil _).symm
          intro v hv
          obtain ⟨e, he, hv⟩ := List.mem_flatMap.mp hv
          have hmissing : e.hasType sp.fileType = false := by
            rw [SharedDir.hasType, Bool.or_eq_false_iff]
            refine ⟨beq_false_of_ne hpruned.1, ?_⟩
            rw [← Bool.not_eq_true]
            exact fun h => hpruned.2 (hd.subdirs.types e he _ h)
          rw [finds_of_not_hasType (hd.dirs e he) hmissing hdir _ _ _ v hv]
          exact Bool.false_ne_true
    · rw [Bool.not_eq_true] at htype
      have hnone :
          (walkL env fileState parentPath above strings (.mk n ds)).filter sp.finds = [] := by
        apply List.filter_eq_nil_iff.mpr
        intro v hv
        rw [finds_of_not_hasType hd htype hdir _ _ _ v hv]
        exact Bool.false_ne_true
      rw [hnone, searchL, htype]
      exact (List.append_nil _).symm

/-- The search of all trees. -/
theorem searchShares_eq (hdir : sp.fileType ≠ fileTypeDirectory) (ssl : List StringSearch)
    {slis : List ShareListItem} (h : ∀ sli ∈ slis, Covered sli.dir)
    {results : List (SearchResultCore TTH)}
    (hlimit : (searchShares env fileState sp ssl slis results).length < sp.maxResults) :
    searchShares env fileState sp ssl slis results =
      results ++ ((walkShares env fileState ssl slis).filter sp.finds).map WalkItem.result := by
  induction slis generalizing results with
  | nil => exact (List.append_nil _).symm
  | cons sli slis ih =>
    rw [List.forall_mem_cons] at h
    rw [searchShares] at hlimit ⊢
    split at hlimit
    · next henough => exact absurd hlimit (Nat.not_lt.mpr henough)
    · next hfew =>
      rw [if_neg hfew, ih h.2 hlimit, searchL_eq h.1 hdir [] [] ssl (Nat.not_le.mp hfew),
        walkShares, walkShares, List.flatMap_cons, List.filter_append, List.map_append,
        List.append_assoc]

/-! ### The patterns that are left -/

/-- The patterns that are left at an item are those that no name matches. -/
def WalkItem.Accounts (ssl : List StringSearch) (v : WalkItem TTH) : Prop :=
  v.left = ssl.filter fun k => v.names.all fun name => !k.matchKeepCase name

private theorem accounts_walkL {ssl : List StringSearch} (d : SharedDir) (parentPath : List UInt8)
    {above : List (List UInt8)} {strings : List StringSearch}
    (h : strings = ssl.filter fun k => above.all fun name => !k.matchKeepCase name) :
    ∀ v ∈ walkL env fileState parentPath above strings d, v.Accounts ssl := by
  have hnext : ∀ {names : List (List UInt8)} {left : List StringSearch} (name : List UInt8),
      (left = ssl.filter fun k => names.all fun name => !k.matchKeepCase name) →
        (left.filter fun k => !k.matchKeepCase name) =
          ssl.filter fun k => (names ++ [name]).all fun name => !k.matchKeepCase name := by
    intro names left name hleft
    rw [hleft, List.filter_filter]
    apply List.filter_congr
    intro k _
    rw [List.all_append, Bool.and_comm]
    simp
  induction d generalizing parentPath above strings with
  | mk n ds ih =>
    intro v hv
    have hcur := hnext (env.lowerName n.name) h
    rw [walkL, List.cons_append, List.mem_cons, List.mem_append] at hv
    rcases hv with rfl | hv | hv
    · exact hcur
    · obtain ⟨kf, hkf, rfl⟩ := List.mem_map.mp hv
      exact hnext (env.lowerName kf.2.name) hcur
    · rw [walkDirs_eq] at hv
      obtain ⟨e, he, hv⟩ := List.mem_flatMap.mp hv
      exact ih e he _ hcur v hv

/-- Each pattern has an entry of the table, or is longer than every name. -/
def PatternsFit (ssl : List StringSearch) (vs : List (WalkItem TTH)) : Prop :=
  ∀ k ∈ ssl, k.pattern.length < 65535 ∨ ∀ v ∈ vs, ∀ name ∈ v.names, name.length < k.pattern.length

instance (ssl : List StringSearch) (vs : List (WalkItem TTH)) : Decidable (PatternsFit ssl vs) :=
  inferInstanceAs (Decidable (∀ k ∈ ssl, _ ∨ ∀ v ∈ vs, ∀ name ∈ v.names, _))

omit [Inhabited TTH] in
/-- What the search finds is what it is for. -/
private theorem finds_eq_wants {ssl : List StringSearch} {v : WalkItem TTH} (h : v.Accounts ssl)
    (hexact : sp.sizeMode ≠ .exact)
    (hfit : ∀ k ∈ ssl,
      k.pattern.length < 65535 ∨ ∀ name ∈ v.names, name.length < k.pattern.length) :
    sp.finds v = decide (sp.Wants ssl v) := by
  have hleft : v.left = [] ↔ ∀ k ∈ ssl, ∃ name ∈ v.names, k.pattern <:+: name := by
    rw [show v.left = _ from h, List.filter_eq_nil_iff]
    apply forall₂_congr
    intro k hk
    rw [Bool.not_eq_true, List.all_eq_false]
    apply exists_congr
    intro name
    apply and_congr_right
    intro hname
    rw [← StringSearch.matchKeepCase_iff ((hfit k hk).imp_right fun hlong => hlong name hname)]
    simp
  have hsize : ∀ size : Int, sp.Fits size ↔
      ¬(sp.sizeMode = .atLeast ∧ size < sp.size) ∧ ¬(sp.sizeMode = .atMost ∧ sp.size < size) := by
    intro size
    unfold NmdcSearchParam.Fits
    cases hmode : sp.sizeMode with
    | dontCare => simp
    | atLeast => simp
    | atMost => simp
    | exact => exact absurd hmode hexact
  rw [Bool.eq_iff_iff, decide_eq_true_eq, NmdcSearchParam.finds, NmdcSearchParam.Wants,
    Bool.and_eq_true, decide_eq_true_eq]
  cases v.file with
  | none =>
    dsimp only
    rw [decide_eq_true_eq]
  | some file =>
    dsimp only
    rw [hleft, hsize, and_comm, Bool.and_eq_true, Bool.and_eq_true, Bool.not_eq_true',
      Bool.not_eq_true', decide_eq_false_iff_not, decide_eq_false_iff_not, and_assoc]

/-! ### The search of a group -/

namespace ShareManager

variable (env : Env) (s : ShareManager TTH)

/-- The shares of a group; none when there is no such group. -/
def sharesOf (id : CID) : List ShareListItem := ((s.findGroup id).map (s.groupShares env)).getD []

/-- What the walk through the trees of its group comes to for a search. -/
def walked (sp : NmdcSearchParam) : List (WalkItem TTH) :=
  walkShares env s.fileState (filterPatterns env sp.filter) (s.sharesOf env sp.shareGroup)

/-- What a search is for; nothing when its filter has no term. -/
def wantedResults (sp : NmdcSearchParam) : List (SearchResultCore TTH) :=
  if filterPatterns env sp.filter = [] then []
  else
    ((s.walked env sp).filter (sp.Wants (filterPatterns env sp.filter) ·)).map WalkItem.result

/-- What is not in the cache and not turned down by the filter is searched for. -/
theorem search_fst {cache : SearchCache TTH}
    (hcache : sp.cacheKey = [] ∨ cache.get sp.cacheKey = none)
    (hbloom : s.bloom.matchList (filterTokens env sp.filter) = true) :
    (s.search env cache sp).1 =
      if filterPatterns env sp.filter = [] then []
      else
        searchShares env s.fileState sp (filterPatterns env sp.filter)
          (s.sharesOf env sp.shareGroup) [] := by
  have hmiss : (if sp.cacheKey = [] then none else cache.get sp.cacheKey) = none := by
    rcases hcache with hkey | hget
    · exact if_pos hkey
    · rw [hget, ite_self]
  rw [search, hmiss, hbloom, Bool.not_true]
  dsimp only
  rw [if_neg Bool.false_ne_true]
  unfold searchTrees sharesOf
  cases hssl : filterPatterns env sp.filter with
  | nil => simp
  | cons k ks =>
    rw [if_neg (List.cons_ne_nil k ks)]
    cases hgroup : s.findGroup sp.shareGroup with
    | none => simp [searchShares]
    | some sg => simp

/-- A search that is not answered from the cache nor turned down by the filter finds what it is
for, or reaches its limit. -/
def FindsWanted (sp : NmdcSearchParam) : Prop :=
  ∀ cache : SearchCache TTH, (sp.cacheKey = [] ∨ cache.get sp.cacheKey = none) →
    s.bloom.matchList (filterTokens env sp.filter) = true →
      (s.search env cache sp).1.length < sp.maxResults →
        (s.search env cache sp).1 = s.wantedResults env sp

theorem findsWanted (hcovered : ∀ i ∈ s.shares, Covered i.dir) (hexact : sp.sizeMode ≠ .exact)
    (hdir : sp.fileType ≠ fileTypeDirectory)
    (hfit : PatternsFit (filterPatterns env sp.filter) (s.walked env sp)) :
    s.FindsWanted env sp := by
  intro cache hcache hbloom hlimit
  rw [search_fst env s hcache hbloom] at hlimit ⊢
  unfold wantedResults
  split
  · rfl
  · next hne =>
    rw [if_neg hne] at hlimit
    have hshares : ∀ sli ∈ s.sharesOf env sp.shareGroup, Covered sli.dir := by
      intro sli hsli
      unfold sharesOf at hsli
      cases hgroup : s.findGroup sp.shareGroup with
      | none =>
        rw [hgroup] at hsli
        cases hsli
      | some sg =>
        rw [hgroup] at hsli
        exact hcovered sli (List.mem_filter.mp hsli).1
    rw [searchShares_eq hdir _ hshares hlimit, List.nil_append]
    congr 1
    apply List.filter_congr
    intro v hv
    have haccounts : v.Accounts (filterPatterns env sp.filter) := by
      obtain ⟨sli, hsli, hv⟩ := List.mem_flatMap.mp hv
      refine accounts_walkL sli.dir [] ?_ v hv
      exact (List.filter_eq_self.mpr fun _ _ => rfl).symm
    exact finds_eq_wants haccounts hexact fun k hk =>
      (hfit k hk).imp_right fun hlong => hlong v hv

end ShareManager

/-! ### Every run -/

/-- Whatever has been loaded and scanned, a search finds what it is for, unless it is one for
directories or has a pattern that is too long for its table. -/
theorem findsWanted_run (env : Env) {es : List ShareChange}
    (h : Within KeepsMasks (ShareManager.change env) .new es) {s : ShareManager TTHValue}
    (hs : s = run (ShareManager.change env) .new es) (hroot : s.AtRoot) {sp : NmdcSearchParam}
    (hexact : sp.sizeMode ≠ .exact) (hdir : sp.fileType ≠ fileTypeDirectory)
    (hfit : PatternsFit (ShareManager.filterPatterns env sp.filter) (s.walked env sp)) :
    s.FindsWanted env sp := by
  obtain ⟨owner, hkept⟩ := masksKept_run h
  rw [← hs] at hkept
  exact s.findsWanted env (fun i hi => (hkept.rest hroot i hi).1) hexact hdir hfit

/-- Files with a name that ends in `3` are of the second type. -/
def audioEnv : Env :=
  { Env.ascii with getFileTypes := fun name => if name.getLast? = some 0x33 then 2 else 0 }

/-- A share with a file in a subdirectory is loaded, and a scan finds another file in its place. -/
def loadAndScan : List ShareChange :=
  [.share (.loadShare (ascii "/a/") (ascii "a") true),
    .group (.initDefault (⟨default, 0⟩, ⟨default, 0⟩)),
    .share (.loadDir (ascii "a") true), .share (.loadDir (ascii "b") true),
    .share (.loadFile ⟨ascii "x", default, 5, 0, 0, none⟩), .share (.loadDirEnd true),
    .share (.loadDirEnd true), .share (.op (.scanStart false 0)), .share (.op .scanShare),
    .share (.op (.scanEntry ⟨ascii "b", true, false, 0, 0⟩)),
    .share (.op (.scanEntry ⟨ascii "x.mp3", false, false, 7, 0⟩)), .share (.op .scanDirEnd),
    .share (.op .scanDirEnd), .share (.op .scanPublish)]

/-- A search for a type and a text. -/
def searchOfType (fileType : Nat) (filter : List UInt8) : NmdcSearchParam where
  sizeMode := .dontCare
  size := 0
  maxResults := 10
  fileType := fileType
  filter := filter
  cacheKey := []
  shareGroup := CID.zero

theorem findsWanted_loadAndScan :
    (run (ShareManager.change audioEnv) .new loadAndScan).FindsWanted audioEnv
        (searchOfType 1 (ascii "b$x")) ∧
      ((run (ShareManager.change audioEnv) .new loadAndScan).search audioEnv []
        (searchOfType 1 (ascii "b$x"))).1 = [⟨false, 7, ascii "a\\b\\x.mp3", default⟩] :=
  ⟨findsWanted_run audioEnv (by decide) rfl (by decide) (by decide) (by decide)
    (by decide), by decide +kernel⟩

/-- No mask has the type of directories, so that the first test turns every share down. -/
theorem not_findsWanted_directory :
    Within KeepsMasks (ShareManager.change audioEnv) .new loadAndScan ∧
      (run (ShareManager.change audioEnv) .new loadAndScan).AtRoot ∧
      ¬(run (ShareManager.change audioEnv) .new loadAndScan).FindsWanted audioEnv
        (searchOfType fileTypeDirectory (ascii "b")) := by
  refine ⟨by decide, by decide, fun h => ?_⟩
  have hwanted := h [] (.inl rfl) (by rfl) (by decide +kernel)
  exact absurd hwanted (by decide +kernel)

end Blacklink.Share
