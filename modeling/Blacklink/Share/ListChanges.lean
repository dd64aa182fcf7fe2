import Blacklink.Share.Distinct

/-!
# Changes of the share list during a scan

A scan publishes trees that it has copied earlier, and the name of a share is in its tree. So the
virtual names have to be compared with what the operations say, one after the other
(`client/ShareManager.cpp:742-962`), and `shareListChanged` with what has changed since the copy was
made (`client/ShareManager.cpp:3042-3088, 3167-3179`).
-/

namespace Blacklink.Share

open Blacklink.Base

/-! ### What the operations say -/

/-- The path and the virtual name of each share. -/
abbrev ShareNames := List (List UInt8 × List UInt8)

namespace ShareNames

variable (env : Env) (names : ShareNames)

/-- There is a share with the name or the path. -/
def has (virtualName realPath : List UInt8) : Bool :=
  names.any fun n => env.lowerName n.1 = env.lowerName realPath ||
    env.lowerName n.2 = env.lowerName virtualName

/-- A share of the list in the settings. -/
def load (realPath virtualAttr : List UInt8) (isExist : Bool) : ShareNames :=
  if realPath = [] then names
  else
    let realPath := appendPathSeparator realPath
    let virtualName :=
      validateVirtual (if virtualAttr = [] then getLastDir realPath else virtualAttr)
    if names.has env virtualName realPath || !isExist then names
    else names ++ [(realPath, virtualName)]

/-- A share takes the place of those below it. -/
def add (realPath virtualName : List UInt8) (accepted : Bool) : ShareNames :=
  if realPath = [] ∨ virtualName = [] ∨ accepted = false then names
  else if names.has env virtualName realPath then names
  else if names.any fun n => isSubDir realPath n.1 then names
  else (names.filter fun n => !isSubDir n.1 realPath) ++ [(realPath, virtualName)]

/-- A share is removed. -/
def remove (realPath : List UInt8) : ShareNames :=
  if realPath = [] then names
  else names.filter fun n => env.lowerName n.1 ≠ env.lowerName realPath

/-- A share gets a name that no other one has. -/
def rename (realPath virtualName : List UInt8) : ShareNames :=
  let isDir := fun n : List UInt8 × List UInt8 => env.lowerName n.1 = env.lowerName realPath
  if names.any fun n => !isDir n && env.lowerName n.2 = env.lowerName virtualName then names
  else names.map fun n => if isDir n then (n.1, virtualName) else n

/-- What a completed event makes of the shares, when a scan makes nothing of them. -/
def apply {TTH : Type} : Event TTH → ShareNames
  | .loadShare realPath virtualAttr isExist => names.load env realPath virtualAttr isExist
  | .op (.addDirectory realPath virtualName accepted) =>
    names.add env realPath virtualName accepted
  | .op (.removeDirectory realPath) => names.remove env realPath
  | .op (.renameDirectory realPath virtualName) => names.rename env realPath virtualName
  | _ => names

end ShareNames

/-- The names in a list of heads. -/
def namesOf (hs : List ShareHead) : ShareNames := (liveHeads hs).map fun h => (h.realPath, h.name)

/-- The path and the virtual name of each share that is not removed. -/
def ShareManager.shareNames {TTH : Type} (s : ShareManager TTH) : ShareNames := namesOf s.heads

theorem namesOf_map {f : ShareHead → ShareHead}
    (hf : ∀ a, (f a).realPath = a.realPath ∧ (f a).name = a.name ∧ (f a).removed = a.removed)
    (hs : List ShareHead) : namesOf (hs.map f) = namesOf hs := by
  have hfilter : (fun a : ShareHead => !a.removed) ∘ f = fun a => !a.removed := by
    funext a
    rw [Function.comp_apply, (hf a).2.2]
  rw [namesOf, namesOf, liveHeads, liveHeads, List.filter_map, hfilter, List.map_map]
  apply List.map_congr_left
  intro a _
  rw [Function.comp_apply, (hf a).1, (hf a).2.1]

theorem namesOf_append (hs ks : List ShareHead) :
    namesOf (hs ++ ks) = namesOf hs ++ namesOf ks := by
  rw [namesOf, liveHeads, List.filter_append, List.map_append]
  rfl

namespace ShareManager

variable {env : Env} {TTH : Type} {s s' : ShareManager TTH}

theorem shareNames_eq (s : ShareManager TTH) :
    s.shareNames = (live s.shares).map fun i => (i.realPath, i.dir.node.name) := by
  rw [shareNames, namesOf, heads, liveHeads_map, List.map_map]
  rfl

theorem any_shareNames (P : List UInt8 × List UInt8 → Bool) :
    (s.shares.any fun i => !i.removed && P (i.realPath, i.dir.node.name)) = s.shareNames.any P := by
  rw [shareNames_eq, List.any_map, live, List.any_filter]
  rfl

theorem hasShareL_eq (virtualName realPath : List UInt8) :
    s.hasShareL env virtualName realPath = s.shareNames.has env virtualName realPath := by
  rw [ShareNames.has, ← any_shareNames, env.lowerName_eq realPath, env.lowerName_eq virtualName]
  rfl

theorem shareNames_loadShare [Inhabited TTH] (realPath virtualAttr : List UInt8) (isExist : Bool) :
    (s.loadShare env realPath virtualAttr isExist).shareNames =
      s.shareNames.load env realPath virtualAttr isExist := by
  unfold loadShare ShareNames.load
  rw [apply_ite shareNames]
  apply ite_congr rfl fun _ => rfl
  intro _
  dsimp only
  rw [hasShareL_eq, apply_ite shareNames]
  apply ite_congr rfl fun _ => rfl
  intro _
  rw [shareNames, heads, List.map_append, namesOf_append]
  rfl

theorem shareNames_addDirectory (realPath virtualName : List UInt8) (accepted : Bool) :
    (s.addDirectory env realPath virtualName accepted).shareNames =
      s.shareNames.add env realPath virtualName accepted := by
  unfold addDirectory ShareNames.add
  rw [apply_ite shareNames]
  apply ite_congr rfl fun _ => rfl
  intro _
  rw [hasShareL_eq, apply_ite shareNames]
  apply ite_congr rfl fun _ => rfl
  intro _
  rw [any_shareNames fun n => isSubDir realPath n.1, apply_ite shareNames]
  apply ite_congr rfl fun _ => rfl
  intro _
  have hmarked := live_markRemoved
    (fun a => (!a.removed && isSubDir a.realPath realPath) = true) s.shares
  have hfilter : (live s.shares).filter
        (fun i => !decide ((!i.head.removed && isSubDir i.head.realPath realPath) = true)) =
      (live s.shares).filter fun i => !isSubDir i.realPath realPath := by
    apply List.filter_congr
    intro i hi
    have hremoved : i.head.removed = false := (mem_live.mp hi).2
    rw [hremoved, Bool.decide_eq_true]
    rfl
  have hold : namesOf ((s.shares.map
        (markRemoved fun a => (!a.removed && isSubDir a.realPath realPath) = true)).map
          ShareListItem.head) =
      s.shareNames.filter fun n => !isSubDir n.1 realPath := by
    rw [namesOf, liveHeads_map, hmarked, hfilter, List.map_map, shareNames_eq, List.filter_map]
    rfl
  rw [← hold]
  change namesOf (List.map ShareListItem.head (_ ++ _)) = _
  rw [List.map_append, namesOf_append]
  rfl

/-- The live shares that `find?` with the path finds. -/
theorem find_live (h : Distinct env s) {path : List UInt8} {share : ShareListItem}
    (hshare : share ∈ live s.shares) (hpath : env.lowerName share.realPath = path)
    {i : ShareListItem} (hi : i ∈ live s.shares) :
    i.tree = share.tree ↔ env.lowerName i.realPath = path := by
  have hsub : live s.shares ⊆ s.shares := List.filter_subset_self _
  constructor
  · intro htree
    rw [h.share_eq_of_tree (hsub hi) (hsub hshare) htree]
    exact hpath
  · intro hi'
    by_contra htree
    have hne : i ≠ share := fun heq => htree (congrArg _ heq)
    exact h.distinctPaths.forall hi hshare hne (hi'.trans hpath.symm)

theorem shareNames_removeDirectory (h : Distinct env s) (realPath : List UInt8) :
    (s.removeDirectory env realPath).shareNames = s.shareNames.remove env realPath := by
  unfold removeDirectory ShareNames.remove
  rw [apply_ite shareNames]
  apply ite_congr rfl fun _ => rfl
  intro _
  rw [env.lowerName_eq realPath]
  split
  · next hfind =>
    rw [shareNames_eq, List.filter_eq_self.mpr]
    intro n hn
    obtain ⟨i, hi, rfl⟩ := List.mem_map.mp hn
    obtain ⟨hi, hremoved⟩ := mem_live.mp hi
    have hno := List.find?_eq_none.mp hfind i hi
    rw [hremoved] at hno
    simpa using hno
  · next share hfind =>
    have hshare := List.find?_some hfind
    rw [Bool.and_eq_true, Bool.not_eq_true', decide_eq_true_eq] at hshare
    have hmem : share ∈ live s.shares := mem_live.mpr ⟨List.mem_of_find?_eq_some hfind, hshare.1⟩
    change namesOf (List.map ShareListItem.head (s.shares.map
      (markRemoved fun a => a.tree = share.tree))) = _
    rw [namesOf, liveHeads_map, live_markRemoved, shareNames_eq, List.filter_map, List.map_map]
    have hfilter : (live s.shares).filter (fun i => !decide (i.head.tree = share.tree)) =
        (live s.shares).filter ((fun n : List UInt8 × List UInt8 =>
          decide (env.lowerName n.1 ≠ env.toLower realPath)) ∘
            fun i => (i.realPath, i.dir.node.name)) := by
      apply List.filter_congr
      intro i hi
      rw [Function.comp_apply, ← decide_not, decide_eq_decide]
      exact not_congr (find_live h hmem hshare.2 hi)
    rw [hfilter]
    rfl

theorem shareNames_renameDirectory (h : Distinct env s) (realPath virtualName : List UInt8) :
    (s.renameDirectory env realPath virtualName).shareNames =
      s.shareNames.rename env realPath virtualName := by
  unfold renameDirectory ShareNames.rename
  dsimp only
  rw [env.lowerName_eq realPath, env.lowerName_eq virtualName]
  have hany := any_shareNames (s := s) fun n =>
    !decide (env.lowerName n.1 = env.toLower realPath) &&
      decide (env.lowerName n.2 = env.toLower virtualName)
  simp only [env.lowerName_eq, Bool.and_assoc] at hany ⊢
  rw [hany, apply_ite shareNames]
  apply ite_congr rfl fun _ => rfl
  intro _
  have hmap : (s.shareNames.map fun n =>
        if env.toLower n.1 = env.toLower realPath then (n.1, virtualName) else n) =
      (live s.shares).map fun i => if env.toLower i.realPath = env.toLower realPath then
        (i.realPath, virtualName) else (i.realPath, i.dir.node.name) := by
    rw [shareNames_eq, List.map_map]
    rfl
  split
  · next hfind =>
    rw [hmap, shareNames_eq]
    apply List.map_congr_left
    intro i hi
    obtain ⟨hi, hremoved⟩ := mem_live.mp hi
    have hno := List.find?_eq_none.mp hfind i (List.mem_reverse.mpr hi)
    rw [hremoved] at hno
    rw [if_neg (by simpa using hno)]
  · next share hfind =>
    have hshare := List.find?_some hfind
    rw [Bool.and_eq_true, Bool.not_eq_true', decide_eq_true_eq] at hshare
    have hmem : share ∈ live s.shares :=
      mem_live.mpr ⟨List.mem_reverse.mp (List.mem_of_find?_eq_some hfind), hshare.1⟩
    have hrename : ∀ i ∈ live s.shares,
        (i.tree = share.tree ↔ env.toLower i.realPath = env.toLower realPath) := by
      intro i hi
      rw [← env.lowerName_eq i.realPath]
      exact find_live h hmem ((env.lowerName_eq _).trans hshare.2) hi
    have hsub : live s.shares ⊆ s.shares := List.filter_subset_self _
    rw [hmap]
    split
    · next hname =>
      rw [shareNames_eq]
      apply List.map_congr_left
      intro i hi
      split
      · next hpath =>
        rw [h.share_eq_of_tree (hsub hi) (hsub hmem) ((hrename i hi).mpr hpath), hname]
      · rfl
    · have hheads : (updateBloomL env (s.modifyTree share.tree fun d =>
          d.mapNode fun n => { n with name := virtualName })).heads =
          s.heads.map fun a => if a.tree = share.tree then { a with name := virtualName } else a :=
        Distinct.heads_setName share.tree virtualName
      have hlive : liveHeads (s.heads.map fun a =>
            if a.tree = share.tree then { a with name := virtualName } else a) =
          (liveHeads s.heads).map fun a =>
            if a.tree = share.tree then { a with name := virtualName } else a := by
        rw [liveHeads, liveHeads, List.filter_map]
        congr 1
        apply List.filter_congr
        intro a _
        rw [Function.comp_apply]
        split <;> rfl
      rw [shareNames, namesOf, hheads, hlive, heads, liveHeads_map, List.map_map, List.map_map]
      apply List.map_congr_left
      intro i hi
      rw [Function.comp_apply, Function.comp_apply, if_congr (hrename i hi).symm rfl rfl]
      by_cases htree : i.head.tree = share.tree
      · rw [if_pos htree, if_pos (show i.tree = share.tree from htree)]
        rfl
      · rw [if_neg htree, if_neg (show i.tree ≠ share.tree from htree)]
        rfl

theorem shareNames_updateVersion (share : ShareListItem) :
    (s.updateVersion share).shareNames = s.shareNames := by
  rw [shareNames, Distinct.heads_updateVersion]
  apply namesOf_map
  intro a
  split <;> exact ⟨rfl, rfl, rfl⟩

theorem shareNames_addExcludeFolderL {path : List UInt8}
    (h : s.addExcludeFolderL path = some s') : s'.shareNames = s.shareNames := by
  unfold addExcludeFolderL at h
  split at h
  · cases h
  next share _ =>
  split at h
  · cases h
  split at h
  · cases h
  · cases h
    exact shareNames_updateVersion share

theorem shareNames_addExcludeFolder (path : List UInt8) :
    (s.addExcludeFolder path).shareNames = s.shareNames := by
  unfold addExcludeFolder
  split
  · rfl
  · next s' h =>
    have hnames := shareNames_addExcludeFolderL h
    exact hnames

theorem shareNames_removeExcludeFolder (path : List UInt8) :
    (s.removeExcludeFolder path).shareNames = s.shareNames := by
  unfold removeExcludeFolder
  dsimp only
  split
  · split
    · rfl
    · exact shareNames_updateVersion _
  · rfl

theorem shareNames_scanStart (force : Bool) (types : Nat) :
    (s.scanStart force types).shareNames = s.shareNames := by
  unfold scanStart
  split <;> rfl

/-- The shares are as the operations say, but for what a publication does. -/
theorem shareNames_step [Inhabited TTH] (h : Distinct env s) (e : Event TTH)
    (he : e ≠ .op .scanPublish) :
    (s.step env e).shareNames = s.shareNames.apply env e := by
  have hkeeps : ∀ {s' : ShareManager TTH}, KeepsList s s' → s'.shareNames = s.shareNames :=
    fun hk => congrArg namesOf hk.heads
  cases e with
  | loadShare realPath virtualAttr isExist =>
    exact shareNames_loadShare realPath virtualAttr isExist
  | loadExclude path =>
    rw [step]
    cases hs' : s.addExcludeFolderL (appendPathSeparator path) with
    | none => rfl
    | some s' => exact shareNames_addExcludeFolderL hs'
  | loadDir filename data => exact hkeeps (.loadSharedDir env s filename data)
  | loadFile attr => exact hkeeps (.loadSharedFile env s attr)
  | loadDirEnd data => exact hkeeps (.loadDirEnd s data)
  | op o =>
    cases o with
    | addDirectory realPath virtualName accepted =>
      exact shareNames_addDirectory realPath virtualName accepted
    | removeDirectory realPath => exact shareNames_removeDirectory h realPath
    | renameDirectory realPath virtualName =>
      exact shareNames_renameDirectory h realPath virtualName
    | addExcludeFolder path => exact shareNames_addExcludeFolder path
    | removeExcludeFolder path => exact shareNames_removeExcludeFolder path
    | addFile path root found currentTime =>
      exact hkeeps (.addFile env s path root found currentTime)
    | scanStart force types => exact shareNames_scanStart force types
    | scanShare => exact hkeeps (.scanShare s)
    | scanEntry e => exact hkeeps (.scanEntry env s e)
    | scanDirEnd => exact hkeeps (.scanDirEnd s)
    | scanPublish => exact absurd rfl he
    | fileHashed n root mediaInfo currentTime =>
      exact hkeeps (.fileHashed env s n root mediaInfo currentTime)
    | hashingError n => exact hkeeps (.hashingError env s n)
    | hashingStopped n => rfl
    | shutdown => rfl

end ShareManager

/-! ### Publications -/

/-- The exclusions below the path are the same. -/
def SameExclusions (realPath : List UInt8) (as bs : List (List UInt8)) : Prop :=
  ∀ path, isSubDirOrSame path realPath = true → (path ∈ as ↔ path ∈ bs)

/-- Every share has a tree of the scan, which has left out what is excluded now. -/
def Reflected {TTH : Type} (sc : Scan TTH) (s : ShareManager TTH) : Prop :=
  ∀ i ∈ live s.shares, (∃ j ∈ sc.newShares, i.tree = j.tree) ∧
    SameExclusions i.realPath s.notShared sc.newNotShared

/-- The shares after the events of a run, as the operations say. -/
def ShareNames.after {TTH : Type} (env : Env) (es : List (Event TTH)) : ShareNames :=
  es.foldl (fun names e => names.apply env e) []

/-- The next `refreshShareIfChanged` starts a scan. -/
def ScansAgain {TTH : Type} (s : ShareManager TTH) : Prop :=
  s.shareListChanged = true ∧
    ∀ force types, (s.refreshShareIfChanged force types).scan.isSome = true

/-- After the run the shares are as the operations say, and if it ends with a publication, the trees
reflect all changes or there is going to be a scan. -/
def ChangesKept {TTH : Type} [Inhabited TTH] (env : Env) (es : List (Event TTH)) : Prop :=
  (run (ShareManager.step env) ShareManager.new es).shareNames = ShareNames.after env es ∧
    ∀ pre sc, es = pre ++ [.op .scanPublish] →
      (run (ShareManager.step env) ShareManager.new pre).publishing = some sc →
      Reflected sc (run (ShareManager.step env) ShareManager.new es) ∨
        ScansAgain (run (ShareManager.step env) ShareManager.new es)

/-- When a share has the version of its copy, it has its name; and a share has another version than
its copy, or all shares have been copied with the exclusions there are. -/
structure PublicationKeeps {TTH : Type} (env : Env) (s : ShareManager TTH) (sc : Scan TTH) :
    Prop where
  names : ∀ i ∈ live s.shares, ∀ j, copyOf env sc.newShares i = some j → i.version = j.version →
    j.dir.node.name = i.dir.node.name
  changes : (∃ i ∈ live s.shares, Outdated env sc.newShares i) ∨
    ∀ i ∈ live s.shares, (copyOf env sc.newShares i).isSome = true ∧
      SameExclusions i.realPath s.notShared sc.newNotShared

/-- The condition on an event under which no change is lost. -/
def KeepsChanges {TTH : Type} (env : Env) (s : ShareManager TTH) : Event TTH → Prop
  | .op .scanPublish => ∀ sc, s.publishing = some sc → PublicationKeeps env s sc
  | _ => True

section

variable {env : Env} {TTH : Type} {s : ShareManager TTH} {sc : Scan TTH}

theorem live_publish (h : Distinct env s) (hsc : s.scan = some sc) :
    live (s.publish env sc).shares = (live s.shares).map (publishOne env sc.newShares) := by
  rw [h.shares_publish_eq, live, List.filter_eq_self]
  intro i hi
  obtain ⟨k, hk, rfl⟩ := List.mem_map.mp hi
  rw [h.removed_publishOne hsc hk]
  rfl

/-- A publication leaves the names as they are when the copies that are taken have them. -/
theorem shareNames_publish_iff (h : Distinct env s) (hsc : s.scan = some sc) :
    (s.publish env sc).shareNames = s.shareNames ↔
      ∀ i ∈ live s.shares, ∀ j, copyOf env sc.newShares i = some j → i.version = j.version →
        j.dir.node.name = i.dir.node.name := by
  rw [ShareManager.shareNames_eq, ShareManager.shareNames_eq, live_publish h hsc, List.map_map,
    List.map_inj_left]
  apply forall₂_congr
  intro i _
  rw [Function.comp_apply, realPath_publishOne, Prod.mk.injEq, eq_self_iff_true, true_and]
  unfold publishOne
  cases copyOf env sc.newShares i with
  | none =>
    refine iff_of_true rfl ?_
    intro j hj
    cases hj
  | some j =>
    dsimp only
    split
    · next hversion =>
      constructor
      · rintro hname k hk -
        cases hk
        exact hname
      · exact fun hnames => hnames j rfl hversion
    · next hversion =>
      refine iff_of_true rfl ?_
      intro k hk hk'
      cases hk
      exact absurd hk' hversion

theorem shareListChanged_publish (h : Distinct env s) :
    (s.publish env sc).shareListChanged = true ↔
      ∃ i ∈ live s.shares, Outdated env sc.newShares i := by
  have hupdate := publishShares_updateIndex sc.newShares false h.distinctPaths
  rw [or_iff_right Bool.false_ne_true] at hupdate
  rw [← hupdate]
  unfold ShareManager.publish ShareManager.published
  dsimp only
  split <;> rfl

theorem scansAgain_publish :
    ScansAgain (s.publish env sc) ↔ (s.publish env sc).shareListChanged = true := by
  have hscan : (s.publish env sc).scan = none := by
    unfold ShareManager.publish
    dsimp only
    split <;> rfl
  constructor
  · exact And.left
  · intro hchanged
    refine ⟨hchanged, ?_⟩
    intro force types
    rw [ShareManager.refreshShareIfChanged, if_pos hchanged, ShareManager.scanStart, hscan]
    rfl

/-- When no share has changed since its copy, the trees reflect all changes exactly when each share
has a copy, with the exclusions there are. -/
theorem reflected_publish_iff (h : Distinct env s) (hsc : s.scan = some sc)
    (hno : ¬ ∃ i ∈ live s.shares, Outdated env sc.newShares i) :
    Reflected sc (s.publish env sc) ↔
      ∀ i ∈ live s.shares, (copyOf env sc.newShares i).isSome = true ∧
        SameExclusions i.realPath s.notShared sc.newNotShared := by
  have hnotShared : (s.publish env sc).notShared = s.notShared := by
    unfold ShareManager.publish
    dsimp only
    split <;> rfl
  have htree : ∀ i ∈ live s.shares,
      ((∃ j ∈ sc.newShares, (publishOne env sc.newShares i).tree = j.tree) ↔
        (copyOf env sc.newShares i).isSome = true) := by
    intro i hi
    unfold publishOne
    cases hcopy : copyOf env sc.newShares i with
    | none =>
      refine iff_of_false ?_ (by decide)
      rintro ⟨j, hj, heq⟩
      exact h.tree_ne_copy hsc (mem_live.mp hi).1 hj heq
    | some j =>
      dsimp only
      have hversion : i.version = j.version := by
        by_contra hne
        exact hno ⟨i, hi, j, hcopy, hne⟩
      rw [if_pos hversion]
      exact iff_of_true ⟨j, (copyOf_mem hcopy).1, rfl⟩ rfl
  unfold Reflected
  rw [live_publish h hsc, List.forall_mem_map, hnotShared]
  apply forall₂_congr
  intro i hi
  rw [htree i hi, realPath_publishOne]

/-- What holds after a publication is that no change has been lost, when the condition is met. -/
theorem publication_iff (h : Distinct env s) (hsc : s.scan = some sc) :
    (s.publish env sc).shareNames = s.shareNames ∧
        (Reflected sc (s.publish env sc) ∨ ScansAgain (s.publish env sc)) ↔
      PublicationKeeps env s sc := by
  rw [shareNames_publish_iff h hsc, scansAgain_publish, shareListChanged_publish h]
  by_cases hno : ∃ i ∈ live s.shares, Outdated env sc.newShares i
  · exact ⟨fun hkeeps => ⟨hkeeps.1, .inl hno⟩, fun hkeeps => ⟨hkeeps.names, .inr hno⟩⟩
  · rw [or_iff_left hno, reflected_publish_iff h hsc hno]
    constructor
    · exact fun hkeeps => ⟨hkeeps.1, .inr hkeeps.2⟩
    · exact fun hkeeps => ⟨hkeeps.names, hkeeps.changes.resolve_left hno⟩

end

/-! ### Runs -/

section

variable {env : Env} {TTH : Type} [Inhabited TTH]

private theorem changesKept_step {es : List (Event TTH)} {e : Event TTH}
    (h : ChangesKept env es) :
    ChangesKept env (es ++ [e]) ↔
      KeepsChanges env (run (ShareManager.step env) ShareManager.new es) e := by
  have hdistinct : Distinct env (run (ShareManager.step env) ShareManager.new es) := .run es
  have hrun : run (ShareManager.step env) ShareManager.new (es ++ [e]) =
      (run (ShareManager.step env) ShareManager.new es).step env e := run_append _ _ _ _
  have hafter : ShareNames.after env (es ++ [e]) = (ShareNames.after env es).apply env e := by
    rw [ShareNames.after, List.foldl_append]
    rfl
  have hlast : ∀ pre : List (Event TTH), ∀ f, es ++ [e] = pre ++ [f] ↔ es = pre ∧ e = f := by
    intro pre f
    rw [← List.concat_eq_append, ← List.concat_eq_append, List.concat_inj]
  unfold ChangesKept
  rw [hrun, hafter, ← h.1]
  by_cases he : e = .op .scanPublish
  · cases he
    change (ShareManager.scanPublish env _).shareNames = _ ∧ _ ↔ ∀ sc, _
    cases hpublishing : (run (ShareManager.step env) ShareManager.new es).publishing with
    | none =>
      rw [scanPublish_of_not_publishing hpublishing]
      refine iff_of_true ⟨rfl, ?_⟩ ?_
      · intro pre sc heq hsc
        rw [← ((hlast pre _).mp heq).1, hpublishing] at hsc
        cases hsc
      · intro sc hsc
        cases hsc
    | some sc =>
      obtain ⟨hsc, hpublish⟩ := scanPublish_of_publishing env hpublishing
      have hstep : (run (ShareManager.step env) ShareManager.new es).step env
          (.op .scanPublish) =
            (run (ShareManager.step env) ShareManager.new es).publish env sc := hpublish
      rw [hstep, hpublish]
      have hiff := publication_iff hdistinct hsc
      constructor
      · rintro ⟨hnames, hkept⟩ sc' hsc'
        cases hsc'
        exact hiff.mp ⟨hnames, hkept es sc rfl hpublishing⟩
      · intro hkeeps
        obtain ⟨hnames, hkept⟩ := hiff.mpr (hkeeps sc rfl)
        refine ⟨hnames, ?_⟩
        intro pre sc' heq hsc'
        rw [← ((hlast pre _).mp heq).1, hpublishing] at hsc'
        cases hsc'
        exact hkept
  · refine iff_of_true ⟨ShareManager.shareNames_step hdistinct e he, ?_⟩ ?_
    · intro pre sc heq
      exact absurd ((hlast pre _).mp heq).2 he
    · unfold KeepsChanges
      split
      · exact absurd rfl he
      · trivial

/-- No change of the share list is lost in a run exactly when each of its publications meets the
condition. -/
theorem changesKept_iff (env : Env) (es : List (Event TTH)) :
    (∀ pre, pre <+: es → ChangesKept env pre) ↔
      Within (KeepsChanges env) (ShareManager.step env) ShareManager.new es := by
  apply forall_prefix_iff_within
  · constructor
    · rfl
    · intro pre sc heq
      exact absurd (congrArg List.length heq) (by simp)
  · exact fun _ _ _ h => changesKept_step h

end

/-! ### Changes that are lost -/

/-- A scan of a share, in which something happens before the publication. -/
def scanWith (o : Op Nat) : List (Event Nat) :=
  [.loadShare (Text.ascii "/data/") (Text.ascii "Share") true, .op (.scanStart false 0),
    .op .scanShare, .op .scanDirEnd, .op o, .op .scanPublish]

/-- A share that is renamed during a scan has its old name again, and one that is added has no tree
of the scan, and there is not going to be another. -/
theorem not_changesKept_during_scan :
    ¬ ChangesKept Env.ascii
        (scanWith (.renameDirectory (Text.ascii "/data/") (Text.ascii "Music"))) ∧
      ¬ ChangesKept Env.ascii
        (scanWith (.addDirectory (Text.ascii "/more/") (Text.ascii "More") true)) := by
  constructor
  · intro h
    have hnames := h.1
    revert hnames
    decide
  · intro h
    have hcopied : (run (ShareManager.step Env.ascii) ShareManager.new
        (scanWith (.addDirectory (Text.ascii "/more/") (Text.ascii "More") true)).dropLast
          ).publishing.map (fun sc => sc.newShares.map ShareListItem.tree) = some [1] := by
      rfl
    have hadded : (live (run (ShareManager.step Env.ascii) ShareManager.new
        (scanWith (.addDirectory (Text.ascii "/more/") (Text.ascii "More") true))).shares).any
          (fun i => i.tree = 2) = true := by
      rfl
    obtain ⟨sc, hsc, htrees⟩ := Option.map_eq_some_iff.mp hcopied
    rcases h.2 _ sc (by rfl) hsc with hreflected | hagain
    · obtain ⟨i, hi, hi2⟩ := List.any_eq_true.mp hadded
      obtain ⟨⟨j, hj, hij⟩, -⟩ := hreflected i hi
      have hj1 : j.tree ∈ [1] := by
        rw [← htrees]
        exact List.mem_map_of_mem hj
      rw [← hij, of_decide_eq_true hi2] at hj1
      revert hj1
      decide
    · have hchanged := hagain.1
      revert hchanged
      decide

end Blacklink.Share
