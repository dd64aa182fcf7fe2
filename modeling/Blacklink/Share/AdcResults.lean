import Blacklink.Share.Search

/-!
# What an ADC search finds

The search goes through the directories and files of a tree in one order, and hands down from each
directory the patterns that are left. Here are the directories and files in that order, each with
the patterns that are left there, and the results in terms of them.
-/

namespace Blacklink.Share

variable {TTH : Type} [Inhabited TTH] (env : Env) (fileState : Nat → FileState TTH)
  (sp : AdcSearchParam)

/-- A directory or file that the search comes to. `names` are the lower case names from the share to
it, and `left` the patterns that neither its name nor those before have used up. -/
structure Visit (TTH : Type) where
  names : List (List UInt8)
  left : List StringSearch
  result : SearchResultCore TTH

/-- A file in a directory with the patterns `cur` left. -/
def visitFile (path : List UInt8) (names : List (List UInt8)) (cur : List StringSearch)
    (file : SharedFile) : Visit TTH where
  names := names ++ [env.lowerName file.name]
  left := cur.filter fun k => !k.matchKeepCase (env.lowerName file.name)
  result := ⟨false, file.size, path ++ file.name, (fileState file.id).tth⟩

mutual

/-- What `searchL` comes to in a directory. -/
def visitsL (parentPath : List UInt8) (above : List (List UInt8)) (given : List StringSearch) :
    SharedDir → List (Visit TTH)
  | .mk n ds =>
    let path := parentPath ++ n.name ++ [nmdcSeparator]
    let names := above ++ [env.lowerName n.name]
    let newStr := sp.newStr given (env.lowerName n.name)
    let cur := newStr.getD given
    ⟨names, cur, ⟨true, n.totalSize, path, default⟩⟩ ::
      (n.files.map fun kf => visitFile env fileState path names cur kf.2) ++
      visitsDirs path names (newStr.getD sp.included) ds

/-- What it comes to in the subdirectories. -/
def visitsDirs (path : List UInt8) (above : List (List UInt8)) (given : List StringSearch) :
    List SharedDir → List (Visit TTH)
  | [] => []
  | d :: ds => visitsL path above given d ++ visitsDirs path above given ds

end

/-- What the search comes to in the trees of shares. -/
def visits (slis : List ShareListItem) : List (Visit TTH) :=
  slis.flatMap fun sli => visitsL env fileState sp [] [] sp.included sli.dir

variable {env fileState sp}

/-- A file that `hasExt` is asked about. -/
def AdcSearchParam.checks (sp : AdcSearchParam) (v : Visit TTH) : Bool :=
  !v.result.isDirectory && !sp.isDirectory && sp.gt ≤ v.result.size && v.result.size ≤ sp.lt &&
    !sp.isExcluded (v.names.getLastD [])

/-- The conditions but for the patterns. -/
def AdcSearchParam.admits (sp : AdcSearchParam) (v : Visit TTH) : Bool :=
  if v.result.isDirectory then sp.exts = [] && sp.gt = 0
  else sp.checks v && sp.hasExt (v.names.getLastD [])

/-- What the search makes of a directory or file when the limit is not reached. -/
def AdcSearch.visit (st : AdcSearch TTH) (v : Visit TTH) : AdcSearch TTH where
  results := if st.sp.admits v ∧ v.left = [] then st.results ++ [v.result] else st.results
  sp := if st.sp.checks v then st.sp.useNoExts else st.sp

theorem visitsDirs_eq (path : List UInt8) (above : List (List UInt8)) (given : List StringSearch)
    (ds : List SharedDir) :
    visitsDirs env fileState sp path above given ds =
      ds.flatMap (visitsL env fileState sp path above given) := by
  induction ds with
  | nil => rw [visitsDirs, List.flatMap_nil]
  | cons d ds ih => rw [visitsDirs, ih, List.flatMap_cons]

/-! ### The parameters during the search -/

/-- The search has come with these parameters from those. -/
def AdcSearchParam.From (sp sp' : AdcSearchParam) : Prop := sp' = sp ∨ sp' = sp.useNoExts

theorem useNoExts_useNoExts (sp : AdcSearchParam) : sp.useNoExts.useNoExts = sp.useNoExts := by
  unfold AdcSearchParam.useNoExts
  split
  · rfl
  · exact if_pos (.inr rfl)

theorem AdcSearchParam.From.useNoExts {sp' : AdcSearchParam} (h : sp.From sp') :
    sp.From sp'.useNoExts := by
  rcases h with rfl | rfl
  · exact .inr rfl
  · exact .inr (useNoExts_useNoExts sp)

/-- All but the extensions is as it was. -/
theorem AdcSearchParam.From.same {sp' : AdcSearchParam} (h : sp.From sp') :
    sp'.included = sp.included ∧ sp'.excluded = sp.excluded ∧ sp'.isDirectory = sp.isDirectory ∧
      sp'.gt = sp.gt ∧ sp'.lt = sp.lt ∧ sp'.maxResults = sp.maxResults := by
  rcases h with rfl | rfl
  · exact ⟨rfl, rfl, rfl, rfl, rfl, rfl⟩
  · unfold AdcSearchParam.useNoExts
    split
    · exact ⟨rfl, rfl, rfl, rfl, rfl, rfl⟩
    · exact ⟨rfl, rfl, rfl, rfl, rfl, rfl⟩

omit [Inhabited TTH] in
theorem AdcSearchParam.From.visit {st : AdcSearch TTH} (h : sp.From st.sp) (v : Visit TTH) :
    sp.From (st.visit v).sp := by
  unfold AdcSearch.visit
  dsimp only
  split
  · exact h.useNoExts
  · exact h

omit [Inhabited TTH] in
theorem AdcSearchParam.From.foldl {st : AdcSearch TTH} (h : sp.From st.sp) (vs : List (Visit TTH)) :
    sp.From (vs.foldl AdcSearch.visit st).sp := by
  induction vs generalizing st with
  | nil => exact h
  | cons v vs ih => exact ih (h.visit v)

/-! ### The search -/

section Files

omit [Inhabited TTH]

variable (env fileState)

private theorem left_visitFile (path : List UInt8) (names : List (List UInt8))
    (cur : List StringSearch) (file : SharedFile) :
    (visitFile env fileState path names cur file).left = [] ↔
      (cur.all fun k => k.matchKeepCase (env.lowerName file.name)) = true := by
  rw [visitFile, List.filter_eq_nil_iff, List.all_eq_true]
  simp

private theorem getLastD_visitFile (path : List UInt8) (names : List (List UInt8))
    (cur : List StringSearch) (file : SharedFile) :
    (visitFile env fileState path names cur file).names.getLastD [] = env.lowerName file.name := by
  rw [visitFile, List.getLastD_concat]

/-- One file, and then the others if there are not enough results. -/
private theorem searchAdcFiles_cons (path : List UInt8) (names : List (List UInt8))
    (cur : List StringSearch) (key : List UInt8) (file : SharedFile)
    (files : List (List UInt8 × SharedFile)) {st : AdcSearch TTH}
    (hfiles : st.sp.isDirectory = false) :
    searchAdcFiles env fileState path cur ((key, file) :: files) st =
      if st.sp.maxResults ≤
        (st.visit (visitFile env fileState path names cur file)).results.length ∧
          st.sp.admits (visitFile env fileState path names cur file) = true ∧
          (visitFile env fileState path names cur file).left = [] then
        (st.visit (visitFile env fileState path names cur file), true)
      else
        searchAdcFiles env fileState path cur files
          (st.visit (visitFile env fileState path names cur file)) := by
  have hlast := getLastD_visitFile env fileState path names cur file
  have hleft := left_visitFile env fileState path names cur file
  have hresult : (visitFile env fileState path names cur file).result =
    ⟨false, file.size, path ++ file.name, (fileState file.id).tth⟩ := rfl
  generalize visitFile env fileState path names cur file = v at hlast hleft hresult ⊢
  have hmax : st.sp.useNoExts.maxResults = st.sp.maxResults :=
    (AdcSearchParam.From.same (.inr rfl)).2.2.2.2.2
  have hchecks : st.sp.checks v = !(file.size < st.sp.gt ∨ st.sp.lt < file.size ∨
      st.sp.isExcluded (env.lowerName file.name) = true : Bool) := by
    rw [AdcSearchParam.checks, hresult, hfiles, hlast, Bool.eq_iff_iff]
    simp [and_assoc]
  have hadmits : st.sp.admits v = (st.sp.checks v && st.sp.hasExt (env.lowerName file.name)) := by
    rw [AdcSearchParam.admits, hresult, hlast]
    rfl
  rw [searchAdcFiles]
  dsimp only
  split
  · next hskip =>
    have hnot : st.sp.checks v = false := by rw [hchecks, decide_eq_true hskip]; rfl
    have hvisit : st.visit v = st := by
      rw [AdcSearch.visit, hadmits, hnot]
      rfl
    rw [hvisit, if_neg]
    rw [hadmits, hnot]
    simp
  · next hrange =>
    have hyes : st.sp.checks v = true := by rw [hchecks, decide_eq_false hrange]; rfl
    rw [hyes, Bool.true_and] at hadmits
    by_cases haccept : st.sp.hasExt (env.lowerName file.name) = true ∧ v.left = []
    · have hvisit : st.visit v = ⟨st.results ++ [⟨false, file.size, path ++ file.name,
          (fileState file.id).tth⟩], st.sp.useNoExts⟩ := by
        rw [AdcSearch.visit, hadmits, if_pos haccept, hyes, hresult]
        rfl
      rw [haccept.1, hleft.mp haccept.2, hvisit, hadmits]
      simp only [Bool.and_self, if_true, hmax, haccept, and_self, and_true]
    · have hvisit : st.visit v = ⟨st.results, st.sp.useNoExts⟩ := by
        rw [AdcSearch.visit, hadmits, if_neg haccept, hyes]
        rfl
      have hno : (st.sp.hasExt (env.lowerName file.name) &&
          cur.all fun k => k.matchKeepCase (env.lowerName file.name)) = false := by
        rw [← Bool.not_eq_true, Bool.and_eq_true, ← hleft]
        exact haccept
      rw [hno, hvisit, hadmits, if_neg Bool.false_ne_true, if_neg fun h => haccept h.2]

/-- The loop over the files ends with enough results, or has come to all of them. -/
private theorem searchAdcFiles_eq (path : List UInt8) (names : List (List UInt8))
    (cur : List StringSearch) (files : List (List UInt8 × SharedFile)) {st : AdcSearch TTH}
    (hfiles : st.sp.isDirectory = false) :
    (∃ vs : List (Visit TTH), (searchAdcFiles env fileState path cur files st).1 =
        vs.foldl AdcSearch.visit st ∧ (searchAdcFiles env fileState path cur files st).2 = true ∧
        st.sp.maxResults ≤ (vs.foldl AdcSearch.visit st).results.length) ∨
      searchAdcFiles env fileState path cur files st =
        ((files.map fun kf => visitFile env fileState path names cur kf.2).foldl AdcSearch.visit st,
          false) := by
  induction files generalizing st with
  | nil => exact .inr rfl
  | cons kf files ih =>
    obtain ⟨key, file⟩ := kf
    obtain ⟨-, -, hdir, -, -, hmax⟩ :=
      (AdcSearchParam.From.visit (.inl rfl) (visitFile env fileState path names cur file)).same
    rw [List.map_cons, List.foldl_cons,
      searchAdcFiles_cons env fileState path names cur key file files hfiles]
    split
    · next henough =>
      exact .inl ⟨[visitFile env fileState path names cur file], rfl, rfl, henough.1⟩
    · rcases ih (hdir.trans hfiles) with ⟨vs, hvs, hfound, henough⟩ | hall
      · rw [hmax] at henough
        exact .inl ⟨visitFile env fileState path names cur file :: vs, hvs, hfound, henough⟩
      · exact .inr hall

/-- Files are passed over when only directories are asked for. -/
private theorem foldl_visitFile (path : List UInt8) (names : List (List UInt8))
    (cur : List StringSearch) (files : List (List UInt8 × SharedFile)) {st : AdcSearch TTH}
    (hdirs : st.sp.isDirectory = true) :
    (files.map fun kf => visitFile env fileState path names cur kf.2).foldl AdcSearch.visit st =
      st := by
  induction files with
  | nil => rfl
  | cons kf files ih =>
    have hchecks : st.sp.checks (visitFile env fileState path names cur kf.2) = false := by
      simp [AdcSearchParam.checks, hdirs]
    have hvisit : st.visit (visitFile env fileState path names cur kf.2) = st := by
      rw [AdcSearch.visit, AdcSearchParam.admits, hchecks]
      rfl
    rw [List.map_cons, List.foldl_cons, hvisit, ih]

end Files

/-- The search ends with enough results, or has come to all there is. -/
def SearchCovers (sp : AdcSearchParam) (st st' : AdcSearch TTH) (vs : List (Visit TTH)) : Prop :=
  ∃ vs' : List (Visit TTH), st' = vs'.foldl AdcSearch.visit st ∧
    (vs' = vs ∨ sp.maxResults ≤ st'.results.length)

omit [Inhabited TTH] in
theorem SearchCovers.from {st st' : AdcSearch TTH} {vs : List (Visit TTH)}
    (h : SearchCovers sp st st' vs)
    (hst : sp.From st.sp) : sp.From st'.sp := by
  obtain ⟨vs', rfl, -⟩ := h
  exact hst.foldl vs'

omit [Inhabited TTH] in
/-- More is searched only when there are not enough results. -/
theorem SearchCovers.append {st st' st'' : AdcSearch TTH} {vs vs' : List (Visit TTH)}
    (h : SearchCovers sp st st' vs) (h' : SearchCovers sp st' st'' vs')
    (hfew : ¬ sp.maxResults ≤ st'.results.length) :
    SearchCovers sp st st'' (vs ++ vs') := by
  obtain ⟨us, rfl, hall⟩ := h
  obtain ⟨us', rfl, hall'⟩ := h'
  have heq := hall.resolve_right hfew
  subst heq
  exact ⟨us ++ us', List.foldl_append.symm, hall'.imp_left fun heq => by rw [heq]⟩

omit [Inhabited TTH] in
theorem SearchCovers.after {st st' : AdcSearch TTH} {vs vs' : List (Visit TTH)}
    (h : SearchCovers sp (vs.foldl AdcSearch.visit st) st' vs') :
    SearchCovers sp st st' (vs ++ vs') := by
  obtain ⟨us, rfl, hall⟩ := h
  exact ⟨vs ++ us, List.foldl_append.symm, hall.imp_left fun heq => by rw [heq]⟩

omit [Inhabited TTH] in
theorem SearchCovers.enough {st st' : AdcSearch TTH} {vs vs' : List (Visit TTH)}
    (h : SearchCovers sp st st' vs) (henough : sp.maxResults ≤ st'.results.length) :
    SearchCovers sp st st' vs' := by
  obtain ⟨us, rfl, -⟩ := h
  exact ⟨us, rfl, .inr henough⟩

private theorem covers_searchAdcDirs (path : List UInt8) (above : List (List UInt8))
    (newStr : Option (List StringSearch)) (ds : List SharedDir)
    (h : ∀ d ∈ ds, ∀ st : AdcSearch TTH, sp.From st.sp →
      SearchCovers sp st (searchAdcL env fileState path newStr d st)
        (visitsL env fileState sp path above (newStr.getD sp.included) d))
    {st : AdcSearch TTH} (hst : sp.From st.sp) :
    SearchCovers sp st (searchAdcDirs env fileState path newStr ds st)
      (visitsDirs env fileState sp path above (newStr.getD sp.included) ds) := by
  induction ds generalizing st with
  | nil =>
    rw [searchAdcDirs, visitsDirs]
    exact ⟨[], rfl, .inl rfl⟩
  | cons d ds ih =>
    rw [List.forall_mem_cons] at h
    have hfst := h.1 st hst
    have hsp := hfst.from hst
    have hmax := hsp.same.2.2.2.2.2
    rw [searchAdcDirs, visitsDirs]
    rw [hmax]
    split
    · next henough => exact hfst.enough henough
    · next hfew => exact hfst.append (ih h.2 hsp) hfew

/-- The search of a tree comes to all of it, if there are not enough results before. -/
theorem covers_searchAdcL (env : Env) (fileState : Nat → FileState TTH) (d : SharedDir)
    (parentPath : List UInt8) (above : List (List UInt8))
    (replaceInclude : Option (List StringSearch)) {st : AdcSearch TTH} (hst : sp.From st.sp) :
    SearchCovers sp st (searchAdcL env fileState parentPath replaceInclude d st)
      (visitsL env fileState sp parentPath above (replaceInclude.getD sp.included) d) := by
  induction d generalizing parentPath above replaceInclude st with
  | mk n ds ih =>
    obtain ⟨hincluded, hexcluded, hisdir, hgt, -, hmax⟩ := hst.same
    rw [searchAdcL, visitsL]
    have hnew : st.sp.newStr (replaceInclude.getD st.sp.included) (env.lowerName n.name) =
        sp.newStr (replaceInclude.getD sp.included) (env.lowerName n.name) := by
      rw [AdcSearchParam.newStr, AdcSearchParam.newStr, AdcSearchParam.isExcluded,
        AdcSearchParam.isExcluded, hincluded, hexcluded]
    rw [hnew, hincluded]
    generalize sp.newStr (replaceInclude.getD sp.included) (env.lowerName n.name) = newStr
    generalize hcur : newStr.getD (replaceInclude.getD sp.included) = cur
    generalize parentPath ++ n.name ++ [nmdcSeparator] = path
    generalize above ++ [env.lowerName n.name] = names
    have hdirvisit : (if cur = [] ∧ st.sp.exts = [] ∧ st.sp.gt = 0 then
          { st with results := st.results ++ [⟨true, n.totalSize, path, default⟩] }
        else st) = st.visit ⟨names, cur, ⟨true, n.totalSize, path, default⟩⟩ := by
      rw [AdcSearch.visit, AdcSearchParam.admits, AdcSearchParam.checks]
      by_cases hfound : cur = [] ∧ st.sp.exts = [] ∧ st.sp.gt = 0
      · simp [hfound]
      · have hnot : ¬ ((st.sp.exts = [] ∧ st.sp.gt = 0) ∧ cur = []) :=
          fun h => hfound ⟨h.2, h.1⟩
        simp [hfound, hnot]
    rw [hdirvisit]
    have hst' := hst.visit ⟨names, cur, ⟨true, n.totalSize, path, default⟩⟩
    have hdirs : ∀ st₂ : AdcSearch TTH, sp.From st₂.sp →
        SearchCovers sp st₂ (searchAdcDirs env fileState path newStr ds st₂)
          (visitsDirs env fileState sp path names (newStr.getD sp.included) ds) :=
      fun st₂ hst₂ => covers_searchAdcDirs path names newStr ds
        (fun d hd st₃ hst₃ => ih d hd path names newStr hst₃) hst₂
    change SearchCovers sp st _ ([⟨names, cur, ⟨true, n.totalSize, path, default⟩⟩] ++
      (n.files.map fun kf => visitFile env fileState path names cur kf.2) ++
      visitsDirs env fileState sp path names (newStr.getD sp.included) ds)
    rw [List.append_assoc]
    apply SearchCovers.after
    rw [List.foldl_cons, List.foldl_nil]
    generalize st.visit ⟨names, cur, ⟨true, n.totalSize, path, default⟩⟩ = st₁ at hst' ⊢
    cases honly : st₁.sp.isDirectory with
    | true =>
      have hfiles := foldl_visitFile env fileState path names cur n.files
        honly
      apply SearchCovers.after
      rw [hfiles]
      exact hdirs st₁ hst'
    | false =>
      rw [if_neg Bool.false_ne_true]
      rcases searchAdcFiles_eq env fileState path names cur n.files honly
        with ⟨vs, hvs, hfound, henough⟩ | hall
      · rw [if_pos hfound, hvs]
        rw [hst'.same.2.2.2.2.2] at henough
        exact ⟨vs, rfl, .inr henough⟩
      · rw [hall]
        apply SearchCovers.after
        exact hdirs _ (hst'.foldl _)

/-- So does the search of the shares. -/
theorem covers_searchAdcShares (env : Env) (fileState : Nat → FileState TTH)
    (slis : List ShareListItem) {st : AdcSearch TTH}
    (hst : sp.From st.sp) :
    SearchCovers sp st (searchAdcShares env fileState slis st) (visits env fileState sp slis) := by
  induction slis generalizing st with
  | nil => exact ⟨[], rfl, .inl rfl⟩
  | cons sli slis ih =>
    have hfst := covers_searchAdcL env fileState sli.dir [] [] none hst
    have hsp := hfst.from hst
    rw [searchAdcShares, visits, List.flatMap_cons]
    rw [hsp.same.2.2.2.2.2]
    split
    · next henough => exact hfst.enough henough
    · next hfew => exact hfst.append (ih hsp) hfew

/-! ### The patterns that are left -/

/-- The pattern occurs in one of the names. -/
def StringSearch.OccursIn (k : StringSearch) (names : List (List UInt8)) : Prop :=
  ∃ name ∈ names, k.pattern <:+: name

instance (k : StringSearch) (names : List (List UInt8)) : Decidable (k.OccursIn names) :=
  inferInstanceAs (Decidable (∃ name ∈ names, _))

/-- Every pattern is left, or occurs in one of the names. -/
def Accounts (sp : AdcSearchParam) (left : List StringSearch) (names : List (List UInt8)) : Prop :=
  ∀ k ∈ sp.included, k ∈ left ∨ k.OccursIn names

theorem StringSearch.OccursIn.mono {k : StringSearch} {names names' : List (List UInt8)}
    (h : k.OccursIn names) (hsub : names ⊆ names') : k.OccursIn names' := by
  obtain ⟨name, hname, hk⟩ := h
  exact ⟨name, hsub hname, hk⟩

/-- A pattern that matches the last name need not be left. -/
private theorem Accounts.filter {left : List StringSearch} {above : List (List UInt8)}
    (h : Accounts sp left above) (name : List UInt8) :
    Accounts sp (left.filter fun k => !k.matchKeepCase name) (above ++ [name]) := by
  intro k hk
  cases hmatch : k.matchKeepCase name with
  | true => exact .inr ⟨name, by simp, StringSearch.infix_of_matchKeepCase hmatch⟩
  | false =>
    rcases h k hk with hleft | hoccurs
    · exact .inl (List.mem_filter.mpr ⟨hleft, by rw [hmatch]; rfl⟩)
    · exact .inr (hoccurs.mono (List.subset_append_left _ _))

private theorem Accounts.weaken {left : List StringSearch} {above names : List (List UInt8)}
    (h : Accounts sp left above) (hsub : above ⊆ names) : Accounts sp left names :=
  fun k hk => (h k hk).imp_right fun hoccurs => hoccurs.mono hsub

private theorem accounts_included (names : List (List UInt8)) : Accounts sp sp.included names :=
  fun _ hk => .inl hk

private theorem accounts_newStr {given : List StringSearch} {above : List (List UInt8)}
    (h : Accounts sp given above) (name : List UInt8) :
    Accounts sp ((sp.newStr given name).getD given) (above ++ [name]) ∧
      Accounts sp ((sp.newStr given name).getD sp.included) (above ++ [name]) := by
  unfold AdcSearchParam.newStr
  split
  · exact ⟨h.filter name, h.filter name⟩
  · exact ⟨h.weaken (List.subset_append_left _ _), accounts_included _⟩

theorem accounts_visitsL (d : SharedDir) {parentPath : List UInt8} {above : List (List UInt8)}
    {given : List StringSearch} (h : Accounts sp given above) :
    ∀ v ∈ visitsL env fileState sp parentPath above given d, Accounts sp v.left v.names := by
  induction d generalizing parentPath above given with
  | mk n ds ih =>
    intro v hv
    obtain ⟨hcur, hnew⟩ := accounts_newStr h (env.lowerName n.name)
    rw [visitsL] at hv
    simp only [List.cons_append, List.mem_cons, List.mem_append, List.mem_map] at hv
    rcases hv with rfl | ⟨kf, -, rfl⟩ | hv
    · exact hcur
    · exact hcur.filter _
    · rw [visitsDirs_eq] at hv
      obtain ⟨d, hd, hmem⟩ := List.mem_flatMap.mp hv
      exact ih d hd hnew v hmem

theorem accounts_visits {slis : List ShareListItem} :
    ∀ v ∈ visits env fileState sp slis, Accounts sp v.left v.names := by
  intro v hv
  obtain ⟨sli, -, hmem⟩ := List.mem_flatMap.mp hv
  exact accounts_visitsL sli.dir (accounts_included []) v hmem

/-! ### What is wanted, and what is found -/

/-- The search is to find the directory or file. -/
def AdcSearchParam.Wants (sp : AdcSearchParam) (v : Visit TTH) : Prop :=
  (if v.result.isDirectory then sp.exts = [] ∧ sp.gt = 0
    else sp.isDirectory = false ∧ sp.gt ≤ v.result.size ∧ v.result.size ≤ sp.lt ∧
      sp.hasExt (v.names.getLastD []) = true) ∧
    ∀ k ∈ sp.included, k.OccursIn v.names

instance (v : Visit TTH) : Decidable (sp.Wants v) := by
  unfold AdcSearchParam.Wants
  infer_instance

/-- The search finds the directory or file with these extensions. -/
def AdcSearchParam.finds (sp : AdcSearchParam) (v : Visit TTH) : Bool := sp.admits v && v.left = []

omit [Inhabited TTH] in
theorem admits_of_wants {v : Visit TTH} (hexcluded : sp.excluded = []) (h : sp.Wants v) :
    sp.admits v = true := by
  obtain ⟨h, -⟩ := h
  unfold AdcSearchParam.admits AdcSearchParam.checks AdcSearchParam.isExcluded
  rw [hexcluded]
  split at h
  · next hdir => simpa [hdir] using h
  · next hdir => simpa [hdir, and_assoc] using h

omit [Inhabited TTH] in
theorem wants_of_finds {v : Visit TTH} (haccounts : Accounts sp v.left v.names)
    (h : sp.finds v = true) : sp.Wants v := by
  rw [AdcSearchParam.finds, Bool.and_eq_true, decide_eq_true_eq] at h
  obtain ⟨hadmits, hleft⟩ := h
  constructor
  · unfold AdcSearchParam.admits AdcSearchParam.checks at hadmits
    split
    · next hdir => simpa [hdir] using hadmits
    · next hdir =>
      have hno : v.result.isDirectory = false := by simpa using hdir
      rw [if_neg hdir, hno] at hadmits
      simp only [Bool.and_eq_true, Bool.not_eq_true', decide_eq_true_eq] at hadmits
      exact ⟨hadmits.1.1.1.1.2, hadmits.1.1.1.2, hadmits.1.1.2, hadmits.2⟩
  · intro k hk
    refine (haccounts k hk).resolve_left ?_
    rw [hleft]
    exact List.not_mem_nil

/-- The extensions to be left out are all there are. -/
def AdcSearchParam.ExtsUsedUp (sp : AdcSearchParam) : Prop := sp.exts ≠ [] ∧ sp.useNoExts.exts = []

instance : Decidable sp.ExtsUsedUp := inferInstanceAs (Decidable (_ ∧ _))

/-- What is behind the first file that `hasExt` is asked about. -/
def behindCheck (sp : AdcSearchParam) (vs : List (Visit TTH)) : List (Visit TTH) :=
  (vs.dropWhile fun v => !sp.checks v).tail

omit [Inhabited TTH] in
private theorem checks_useNoExts (v : Visit TTH) : sp.useNoExts.checks v = sp.checks v := by
  obtain ⟨-, hexcluded, hdir, hgt, hlt, -⟩ :=
    AdcSearchParam.From.same (.inr rfl : sp.From sp.useNoExts)
  simp only [AdcSearchParam.checks, AdcSearchParam.isExcluded, hexcluded, hdir, hgt, hlt]

omit [Inhabited TTH] in
/-- Unless the extensions are used up, the same is found with them as with those that are left. -/
private theorem finds_useNoExts (h : ¬ sp.ExtsUsedUp) (v : Visit TTH) :
    sp.useNoExts.finds v = sp.finds v := by
  have hgt := (AdcSearchParam.From.same (.inr rfl : sp.From sp.useNoExts)).2.2.2.1
  have hexts : sp.useNoExts.exts = [] ↔ sp.exts = [] := by
    constructor
    · intro hnil
      by_contra hne
      exact h ⟨hne, hnil⟩
    · intro hnil
      rw [AdcSearchParam.useNoExts, if_pos (.inl hnil), hnil]
  have hext : ∀ name, sp.useNoExts.hasExt name = sp.hasExt name := by
    intro name
    rw [AdcSearchParam.hasExt, AdcSearchParam.hasExt, useNoExts_useNoExts,
      decide_eq_decide.mpr hexts]
  rw [AdcSearchParam.finds, AdcSearchParam.finds, AdcSearchParam.admits, AdcSearchParam.admits,
    checks_useNoExts, hgt, hext, decide_eq_decide.mpr hexts]

omit [Inhabited TTH] in
private theorem results_visit (st : AdcSearch TTH) (v : Visit TTH) :
    (st.visit v).results = st.results ++ ([v].filter st.sp.finds).map Visit.result := by
  unfold AdcSearch.visit AdcSearchParam.finds
  dsimp only
  split
  · next h => simp [h]
  · next h =>
    have hno : (st.sp.admits v && (v.left = [] : Bool)) = false := by
      rw [← Bool.not_eq_true, Bool.and_eq_true, decide_eq_true_eq]
      exact h
    simp [hno]

omit [Inhabited TTH] in
/-- When the parameters do not change what is found, it is all there is to be found. -/
private theorem results_foldl {found : Visit TTH → Bool} {vs : List (Visit TTH)}
    {st : AdcSearch TTH} (h : ∀ sp', st.sp.From sp' → ∀ v, sp'.finds v = found v) :
    (vs.foldl AdcSearch.visit st).results = st.results ++ (vs.filter found).map Visit.result := by
  induction vs generalizing st with
  | nil => simp
  | cons v vs ih =>
    have hv : st.sp.From (st.visit v).sp := AdcSearchParam.From.visit (.inl rfl) v
    have hrest : ∀ sp', (st.visit v).sp.From sp' → ∀ v', sp'.finds v' = found v' := by
      rintro sp' (rfl | rfl)
      · exact h _ hv
      · exact h _ hv.useNoExts
    have hfound : [v].filter st.sp.finds = [v].filter found :=
      List.filter_congr fun v' _ => h _ (.inl rfl) v'
    rw [List.foldl_cons, ih hrest, results_visit, hfound, List.append_assoc, ← List.map_append,
      ← List.filter_append, List.singleton_append]

omit [Inhabited TTH] in
/-- When the extensions are used up, the first file that they are asked about lets everything
through. -/
private theorem results_of_extsUsedUp (h : sp.ExtsUsedUp) {vs : List (Visit TTH)}
    {st : AdcSearch TTH} (hst : st.sp = sp) :
    (vs.foldl AdcSearch.visit st).results =
      st.results ++ ((behindCheck sp vs).filter sp.useNoExts.finds).map Visit.result := by
  have hnone : ∀ v : Visit TTH, sp.finds v = false := by
    intro v
    have hext : sp.hasExt (v.names.getLastD []) = false := by
      simp [AdcSearchParam.hasExt, h.1, h.2]
    rw [AdcSearchParam.finds, AdcSearchParam.admits, hext, decide_eq_false h.1]
    simp
  induction vs generalizing st with
  | nil => simp [behindCheck]
  | cons v vs ih =>
    have hresults : (st.visit v).results = st.results := by
      rw [results_visit, hst, List.filter_singleton, hnone]
      exact List.append_nil _
    rw [List.foldl_cons]
    cases hcheck : sp.checks v with
    | true =>
      have hsp : (st.visit v).sp = sp.useNoExts := by
        rw [AdcSearch.visit, hst, hcheck]
        rfl
      have hsame : ∀ sp', (st.visit v).sp.From sp' → ∀ v' : Visit TTH,
          sp'.finds v' = sp.useNoExts.finds v' := by
        rw [hsp]
        rintro sp' (rfl | rfl) v'
        · rfl
        · rw [useNoExts_useNoExts]
      rw [results_foldl hsame, hresults, behindCheck, List.dropWhile_cons_of_neg (by simp [hcheck]),
        List.tail_cons]
    | false =>
      have hsp : (st.visit v).sp = sp := by
        rw [AdcSearch.visit, hst, hcheck]
        rfl
      rw [ih hsp, hresults, behindCheck, behindCheck,
        List.dropWhile_cons_of_pos (by rw [hcheck]; rfl)]

/-! ### The condition -/

/-- All that is wanted has no pattern left, and when the extensions are used up, nothing behind the
first file that they are asked about is let through. -/
def AdcSearchParam.Complete (sp : AdcSearchParam) (vs : List (Visit TTH)) : Prop :=
  (∀ v ∈ vs, sp.Wants v → v.left = []) ∧
    (sp.ExtsUsedUp → ∀ v ∈ behindCheck sp vs, sp.useNoExts.finds v = false)

omit [Inhabited TTH] in
/-- What is found is what is wanted if and only if the condition holds. -/
theorem results_eq_iff (hexcluded : sp.excluded = []) {vs : List (Visit TTH)}
    (haccounts : ∀ v ∈ vs, Accounts sp v.left v.names) :
    (vs.foldl AdcSearch.visit ⟨[], sp⟩).results = (vs.filter (sp.Wants ·)).map Visit.result ↔
      sp.Complete vs := by
  by_cases hused : sp.ExtsUsedUp
  · have hnone : ∀ v : Visit TTH, ¬ sp.Wants v := by
      intro v hwants
      have hadmits := admits_of_wants hexcluded hwants
      have hext : sp.hasExt (v.names.getLastD []) = false := by
        simp [AdcSearchParam.hasExt, hused.1, hused.2]
      rw [AdcSearchParam.admits, hext, decide_eq_false hused.1] at hadmits
      simp at hadmits
    have hwanted : vs.filter (sp.Wants ·) = [] := by simp [hnone]
    rw [results_of_extsUsedUp hused rfl, hwanted, List.map_nil, List.nil_append,
      List.map_eq_nil_iff,
      List.filter_eq_nil_iff]
    constructor
    · intro h
      exact ⟨fun v _ hwants => absurd hwants (hnone v), fun _ v hv => Bool.not_eq_true _ ▸ h v hv⟩
    · intro h v hv
      rw [h.2 hused v hv]
      exact Bool.false_ne_true
  · have hsame : ∀ sp', sp.From sp' → ∀ v : Visit TTH, sp'.finds v = sp.finds v := by
      rintro sp' (rfl | rfl) v
      · rfl
      · exact finds_useNoExts hused v
    have hsub : vs.filter sp.finds = (vs.filter (sp.Wants ·)).filter sp.finds := by
      rw [List.filter_filter]
      apply List.filter_congr
      intro v hv
      cases hfinds : sp.finds v with
      | false => rfl
      | true => simp [wants_of_finds (haccounts v hv) hfinds]
    rw [results_foldl hsame, List.nil_append]
    constructor
    · intro h
      have hlen := congrArg List.length h
      rw [List.length_map, List.length_map, hsub] at hlen
      have hall := List.length_filter_eq_length_iff.mp hlen
      refine ⟨fun v hv hwants => ?_, fun h => absurd h hused⟩
      have hfinds := hall v (List.mem_filter.mpr ⟨hv, decide_eq_true hwants⟩)
      rw [AdcSearchParam.finds, Bool.and_eq_true, decide_eq_true_eq] at hfinds
      exact hfinds.2
    · intro h
      congr 1
      rw [hsub]
      apply List.filter_eq_self.mpr
      intro v hv
      obtain ⟨hmem, hwants⟩ := List.mem_filter.mp hv
      have hwants := of_decide_eq_true hwants
      rw [AdcSearchParam.finds, admits_of_wants hexcluded hwants, h.1 v hmem hwants]
      rfl

/-! ### The search of a group -/

namespace ShareManager

variable (env : Env) (s : ShareManager TTH)

/-- The shares of the group that a search is for; none when there is no such group. -/
def searchedShares (sp : AdcSearchParam) : List ShareListItem :=
  ((s.findGroup sp.shareGroup).map (s.groupShares env)).getD []

/-- What is not in the cache and not turned down by the filter is searched for. -/
theorem searchAdc_fst {cache : SearchCache TTH} {sp : AdcSearchParam}
    (hcache : sp.cacheKey = [] ∨ cache.get sp.cacheKey = none)
    (hbloom : ∀ k ∈ sp.included, s.bloom.matchString k.pattern = true) :
    (s.searchAdc env cache sp).1 = searchAdcTrees env s sp := by
  have hmiss : (if sp.cacheKey = [] then none else cache.get sp.cacheKey) = none := by
    rcases hcache with hkey | hget
    · exact if_pos hkey
    · rw [hget, ite_self]
  have hpass : (sp.included.any fun k => !s.bloom.matchString k.pattern) = false := by
    rw [List.any_eq_false]
    intro k hk
    rw [hbloom k hk]
    exact Bool.false_ne_true
  rw [searchAdc, hmiss]
  dsimp only
  rw [hpass, if_neg Bool.false_ne_true]
  split
  · next hgroup => rw [searchAdcTrees, hgroup]
  · rfl

end ShareManager

/-! ### A directory that matches nothing -/

/-- A directory of the name with one subdirectory. -/
def dirWith (name : List UInt8) (files : List (List UInt8 × SharedFile)) (ds : List SharedDir) :
    SharedDir := .mk ⟨name, name, files, 0, 0, 0, false, false⟩ ds

/-- A share with a file `x` two directories below the one it is of. -/
def nestedShare : ShareManager Nat :=
  { ShareManager.new with
    shares := [⟨Text.ascii "/a/", 0,
      dirWith (Text.ascii "a") [] [dirWith (Text.ascii "b") [] [dirWith (Text.ascii "c")
        [(Text.ascii "x", ⟨0, Text.ascii "x", 5, 0, 0⟩)] []]], 0, 1, .none⟩]
    shareGroups := [⟨CID.zero, [], [Text.ascii "/a/"], ⟨0, 0⟩, ⟨0, 0⟩, []⟩] }

/-- A search for two words. -/
def searchOfTwo (first second : List UInt8) : AdcSearchParam where
  included := [⟨first⟩, ⟨second⟩]
  excluded := []
  exts := []
  noExts := []
  gt := 0
  lt := 2 ^ 63 - 1
  isDirectory := false
  maxResults := 10
  cacheKey := []
  shareGroup := CID.zero

end Blacklink.Share
