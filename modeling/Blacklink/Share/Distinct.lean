import Blacklink.Base.Run
import Blacklink.Share.Publication

/-!
# Paths and numbers of trees

No two shares that are not removed have the same path, nor two trees the same number, be they in the
list or in the one a scan has made of it. `addDirectory` and `loadShareList` refuse a path that is
there, and everything else keeps the paths.
-/

namespace Blacklink.Share

open Blacklink.Base

namespace ShareManager

variable {TTH : Type}

/-- The heads of the list. -/
def heads (s : ShareManager TTH) : List ShareHead := s.shares.map ShareListItem.head

/-- The heads of the list that a scan has made. -/
def copyHeads (s : ShareManager TTH) : List ShareHead :=
  ((s.scan.map Scan.heads).map Prod.fst).getD []

end ShareManager

/-- Two heads have different paths. -/
def ShareHead.Apart (env : Env) (a b : ShareHead) : Prop :=
  env.lowerName a.realPath ≠ env.lowerName b.realPath

/-- The heads of shares that are not removed. -/
def liveHeads (hs : List ShareHead) : List ShareHead := hs.filter fun h => !h.removed

/-- No two live shares have the same path and no two trees the same number. -/
structure Distinct {TTH : Type} (env : Env) (s : ShareManager TTH) : Prop where
  trees : ((s.heads ++ s.copyHeads).map ShareHead.tree).Nodup
  bounded : ∀ h ∈ s.heads ++ s.copyHeads, h.tree < s.nextTree
  paths : (liveHeads s.heads).Pairwise (ShareHead.Apart env)
  copied : ∀ h ∈ s.copyHeads, h.removed = false
  copyPaths : s.copyHeads.Pairwise (ShareHead.Apart env)

theorem liveHeads_map (is : List ShareListItem) :
    liveHeads (is.map ShareListItem.head) = (live is).map ShareListItem.head := by
  rw [liveHeads, live, List.filter_map]
  rfl

namespace Distinct

open ShareManager

variable {env : Env} {TTH : Type} {s s' : ShareManager TTH}

theorem distinctPaths (h : Distinct env s) : DistinctPaths env (live s.shares) := by
  have hpaths := h.paths
  rw [heads, liveHeads_map, List.pairwise_map] at hpaths
  exact hpaths

theorem new [Inhabited TTH] : Distinct env (ShareManager.new : ShareManager TTH) where
  trees := List.nodup_nil
  bounded := fun _ hmem => absurd hmem List.not_mem_nil
  paths := List.Pairwise.nil
  copied := fun _ hmem => absurd hmem List.not_mem_nil
  copyPaths := List.Pairwise.nil

theorem of_keepsList (h : Distinct env s) (hk : KeepsList s s') : Distinct env s' := by
  have hheads : s'.heads = s.heads := hk.heads
  have hcopies : s'.copyHeads = s.copyHeads := by
    rw [copyHeads, copyHeads, hk.scan]
  constructor
  · rw [hheads, hcopies]
    exact h.trees
  · rw [hheads, hcopies]
    exact fun a ha => (h.bounded a ha).trans_le hk.nextTree
  · rw [hheads]
    exact h.paths
  · rw [hcopies]
    exact h.copied
  · rw [hcopies]
    exact h.copyPaths

/-- A change of the heads that keeps paths and numbers, and brings no removed share back. -/
theorem of_map (h : Distinct env s) {f : ShareHead → ShareHead}
    (hf : ∀ a, (f a).realPath = a.realPath ∧ (f a).tree = a.tree ∧
      ((f a).removed = false → a.removed = false))
    (hheads : s'.heads = s.heads.map f) (hscan : s'.scan = s.scan)
    (hnext : s'.nextTree = s.nextTree) : Distinct env s' := by
  have hcopies : s'.copyHeads = s.copyHeads := by
    rw [copyHeads, copyHeads, hscan]
  have htrees : (s.heads.map f).map ShareHead.tree = s.heads.map ShareHead.tree := by
    rw [List.map_map]
    exact List.map_congr_left fun a _ => (hf a).2.1
  constructor
  · rw [hheads, hcopies, List.map_append, htrees, ← List.map_append]
    exact h.trees
  · rw [hheads, hcopies, hnext]
    intro a ha
    rcases List.mem_append.mp ha with ha | ha
    · obtain ⟨b, hb, rfl⟩ := List.mem_map.mp ha
      rw [(hf b).2.1]
      exact h.bounded b (List.mem_append_left _ hb)
    · exact h.bounded a (List.mem_append_right _ ha)
  · rw [hheads, liveHeads, List.filter_map, List.pairwise_map]
    have hsub : (s.heads.filter ((fun a : ShareHead => !a.removed) ∘ f)).Sublist
        (liveHeads s.heads) := by
      apply List.monotone_filter_right
      intro a ha
      rw [Function.comp_apply, Bool.not_eq_true'] at ha
      rw [(hf a).2.2 ha]
      rfl
    apply (h.paths.sublist hsub).imp
    intro a b hab
    unfold ShareHead.Apart at hab ⊢
    rw [(hf a).1, (hf b).1]
    exact hab
  · rw [hcopies]
    exact h.copied
  · rw [hcopies]
    exact h.copyPaths

/-- A share is added that has a number of its own and no path of a live share. -/
theorem of_append (h : Distinct env s) {a : ShareHead}
    (hpath : ∀ b ∈ liveHeads s.heads, ShareHead.Apart env b a) (htree : a.tree = s.nextTree)
    (hheads : s'.heads = s.heads ++ [a]) (hscan : s'.scan = s.scan)
    (hnext : s'.nextTree = s.nextTree + 1) : Distinct env s' := by
  have hcopies : s'.copyHeads = s.copyHeads := by
    rw [copyHeads, copyHeads, hscan]
  constructor
  · rw [hheads, hcopies]
    have hperm : (s.heads ++ [a] ++ s.copyHeads).Perm (a :: (s.heads ++ s.copyHeads)) := by
      rw [List.append_assoc]
      exact List.perm_middle
    rw [(hperm.map ShareHead.tree).nodup_iff, List.map_cons, List.nodup_cons]
    refine ⟨?_, h.trees⟩
    intro hmem
    obtain ⟨b, hb, hba⟩ := List.mem_map.mp hmem
    have := h.bounded b hb
    omega
  · rw [hheads, hcopies, hnext]
    intro b hb
    rw [List.append_assoc, List.mem_append, List.mem_append, List.mem_singleton] at hb
    rcases hb with hb | rfl | hb
    · exact (h.bounded b (List.mem_append_left _ hb)).trans (Nat.lt_succ_self _)
    · omega
    · exact (h.bounded b (List.mem_append_right _ hb)).trans (Nat.lt_succ_self _)
  · rw [hheads, liveHeads, List.filter_append, List.pairwise_append]
    refine ⟨h.paths, ?_, ?_⟩
    · exact (List.pairwise_singleton _ a).filter _
    · intro b hb c hc
      rw [List.mem_singleton.mp (List.mem_filter.mp hc).1]
      exact hpath b hb
  · rw [hcopies]
    exact h.copied
  · rw [hcopies]
    exact h.copyPaths

/-! ### Loading and operations -/

/-- A path that `hasShareL` has not found is apart from those of the live shares. -/
theorem apart_of_hasShareL {virtualName realPath : List UInt8}
    (hhas : s.hasShareL env virtualName realPath = false) {a : ShareHead}
    (ha : a.realPath = realPath) : ∀ b ∈ liveHeads s.heads, ShareHead.Apart env b a := by
  intro b hb hpath
  rw [heads, liveHeads_map] at hb
  obtain ⟨i, hi, rfl⟩ := List.mem_map.mp hb
  obtain ⟨hi, hremoved⟩ := mem_live.mp hi
  have hfound : s.hasShareL env virtualName realPath = true := by
    apply List.any_eq_true.mpr
    refine ⟨i, hi, ?_⟩
    rw [hremoved, ← env.lowerName_eq realPath, ← ha]
    change (true && (decide (ShareListItem.head i |>.realPath |> env.lowerName |>
      (· = env.lowerName a.realPath)) || _)) = true
    rw [decide_eq_true hpath]
    rfl
  rw [hhas] at hfound
  cases hfound

theorem loadShare [Inhabited TTH] (h : Distinct env s) (realPath virtualAttr : List UInt8)
    (isExist : Bool) : Distinct env (s.loadShare env realPath virtualAttr isExist) := by
  unfold ShareManager.loadShare
  split
  · exact h
  dsimp only
  generalize validateVirtual _ = virtualName
  split
  · exact h
  next hno =>
  rw [Bool.or_eq_true, not_or, Bool.not_eq_true] at hno
  apply h.of_append (apart_of_hasShareL hno.1 (a := ⟨_, _, s.nextTree, 0, false⟩) rfl)
  · rfl
  · exact List.map_append
  · rfl
  · rfl

theorem heads_updateVersion (share : ShareListItem) :
    (s.updateVersion share).heads = s.heads.map fun a =>
      if a.tree = share.tree then { a with version := s.versionCounter + 1 } else a := by
  rw [heads, heads, ShareManager.updateVersion, List.map_map, List.map_map]
  apply List.map_congr_left
  intro i _
  rw [Function.comp_apply, Function.comp_apply]
  change _ = if i.tree = share.tree then _ else _
  split <;> rfl

theorem updateVersion (h : Distinct env s) (share : ShareListItem) :
    Distinct env (s.updateVersion share) := by
  apply h.of_map
    (f := fun a => if a.tree = share.tree then { a with version := s.versionCounter + 1 } else a)
  · intro a
    split <;> exact ⟨rfl, rfl, id⟩
  · exact heads_updateVersion share
  · rfl
  · rfl

/-- The state may differ in what has nothing to do with the numbers and the paths. -/
theorem of_shares (h : Distinct env s) (hshares : s'.shares = s.shares)
    (hscan : s'.scan = s.scan) (hnext : s'.nextTree = s.nextTree) : Distinct env s' := by
  apply h.of_map (f := id) (fun a => ⟨rfl, rfl, id⟩)
  · rw [heads, hshares, List.map_id]
    rfl
  · exact hscan
  · exact hnext

theorem addExcludeFolderL (h : Distinct env s) {path : List UInt8}
    (hs' : s.addExcludeFolderL path = some s') : Distinct env s' := by
  unfold ShareManager.addExcludeFolderL at hs'
  split at hs'
  · cases hs'
  next share _ =>
  split at hs'
  · cases hs'
  split at hs'
  · cases hs'
  · cases hs'
    exact (h.updateVersion share).of_shares rfl rfl rfl

theorem addExcludeFolder (h : Distinct env s) (path : List UInt8) :
    Distinct env (s.addExcludeFolder path) := by
  unfold ShareManager.addExcludeFolder
  split
  · exact h
  · next s' hs' => exact (h.addExcludeFolderL hs').of_shares rfl rfl rfl

theorem loadExclude (h : Distinct env s) (path : List UInt8) :
    Distinct env ((s.addExcludeFolderL path).getD s) := by
  cases hs' : s.addExcludeFolderL path with
  | none => exact h
  | some s' => exact h.addExcludeFolderL hs'

theorem removeExcludeFolder (h : Distinct env s) (path : List UInt8) :
    Distinct env (s.removeExcludeFolder path) := by
  unfold ShareManager.removeExcludeFolder
  dsimp only
  split
  · split
    · exact h.of_shares rfl rfl rfl
    · apply Distinct.updateVersion
      exact h.of_shares rfl rfl rfl
  · exact h

theorem of_markRemoved (h : Distinct env s) (P : ShareHead → Prop) [DecidablePred P]
    (hshares : s'.shares = s.shares.map (markRemoved P)) (hscan : s'.scan = s.scan)
    (hnext : s'.nextTree = s.nextTree) : Distinct env s' := by
  apply h.of_map (f := fun a => if P a then { a with removed := true } else a)
  · intro a
    split
    · exact ⟨rfl, rfl, fun hr => by cases hr⟩
    · exact ⟨rfl, rfl, id⟩
  · rw [heads, heads, hshares, List.map_map, List.map_map]
    exact List.map_congr_left fun i _ => head_markRemoved P i
  · exact hscan
  · exact hnext

theorem addDirectory (h : Distinct env s) (realPath virtualName : List UInt8)
    (accepted : Bool) : Distinct env (s.addDirectory env realPath virtualName accepted) := by
  unfold ShareManager.addDirectory
  split
  · exact h
  split
  · exact h
  next hno =>
  split
  · exact h
  · rw [Bool.not_eq_true] at hno
    have hmarked : Distinct env { s with
        shares := s.shares.map
          (markRemoved fun a => (!a.removed && isSubDir a.realPath realPath) = true) } :=
      h.of_markRemoved (fun a => (!a.removed && isSubDir a.realPath realPath) = true) rfl rfl rfl
    apply hmarked.of_append (a := ⟨realPath, virtualName, s.nextTree, s.versionCounter + 1, false⟩)
    · intro b hb
      rw [heads, liveHeads_map] at hb
      obtain ⟨i, hi, rfl⟩ := List.mem_map.mp hb
      apply apart_of_hasShareL hno rfl
      rw [heads, liveHeads_map]
      rw [live_markRemoved] at hi
      exact List.mem_map.mpr ⟨i, (List.mem_filter.mp hi).1, rfl⟩
    · rfl
    · exact List.map_append
    · rfl
    · rfl

theorem removeDirectory (h : Distinct env s) (realPath : List UInt8) :
    Distinct env (s.removeDirectory env realPath) := by
  unfold ShareManager.removeDirectory
  split
  · exact h
  split
  · exact h
  · next share _ => exact h.of_markRemoved (fun a => a.tree = share.tree) rfl rfl rfl

/-- The heads after the root of a tree got another name. -/
theorem heads_setName (tree : Nat) (virtualName : List UInt8) :
    (s.modifyTree tree fun d => d.mapNode fun n => { n with name := virtualName }).heads =
      s.heads.map fun a => if a.tree = tree then { a with name := virtualName } else a := by
  rw [heads, heads, modifyTree, List.map_map, List.map_map]
  apply List.map_congr_left
  intro i _
  rw [Function.comp_apply, Function.comp_apply]
  change _ = if i.tree = tree then _ else _
  split
  · exact head_mapNode i _
  · rfl

theorem renameDirectory (h : Distinct env s) (realPath virtualName : List UInt8) :
    Distinct env (s.renameDirectory env realPath virtualName) := by
  unfold ShareManager.renameDirectory
  dsimp only
  split
  · exact h
  split
  · exact h
  next share _ =>
  split
  · exact h
  · apply h.of_map
      (f := fun a => if a.tree = share.tree then { a with name := virtualName } else a)
    · intro a
      split <;> exact ⟨rfl, rfl, id⟩
    · exact heads_setName share.tree virtualName
    · rfl
    · rfl

/-! ### Scanning -/

theorem scanStart (h : Distinct env s) (force : Bool) (types : Nat) :
    Distinct env (s.scanStart force types) := by
  unfold ShareManager.scanStart
  split
  · exact h
  next hscan =>
  have hnone : s.copyHeads = [] := by
    rw [copyHeads, hscan]
    rfl
  have htrees := h.trees
  have hbounded := h.bounded
  rw [hnone, List.append_nil] at htrees hbounded
  have hnumbers := trees_copyShares s.nextTree s.shares
  have hlength : (live s.shares).length ≤ s.shares.length := List.length_filter_le _ _
  constructor
  · change ((s.heads ++ (copyShares s.nextTree s.shares).map ShareListItem.head).map
      ShareHead.tree).Nodup
    rw [List.map_append, hnumbers, List.nodup_append']
    refine ⟨htrees, List.nodup_range', ?_⟩
    intro n hn hmem
    obtain ⟨a, ha, rfl⟩ := List.mem_map.mp hn
    rw [List.mem_range'_1] at hmem
    have := hbounded a ha
    omega
  · intro a ha
    change a.tree < s.nextTree + s.shares.length
    rcases List.mem_append.mp ha with ha | ha
    · exact (hbounded a ha).trans_le (Nat.le_add_right _ _)
    · have hmem : a.tree ∈ List.range' s.nextTree (live s.shares).length := by
        rw [← hnumbers]
        exact List.mem_map_of_mem ha
      rw [List.mem_range'_1] at hmem
      omega
  · exact h.paths
  · intro a ha
    obtain ⟨c, hc, rfl⟩ := List.mem_map.mp ha
    exact removed_copyShares c hc
  · change ((copyShares s.nextTree s.shares).map ShareListItem.head).Pairwise _
    have hzero : ((copyShares s.nextTree s.shares).map
        fun i => { i.head with tree := 0 }).Pairwise (ShareHead.Apart env) := by
      rw [heads_copyShares, List.pairwise_map]
      exact h.distinctPaths
    rw [List.pairwise_map] at hzero ⊢
    exact hzero

/-- The shares that a publication leaves, with what is known about its scan. -/
theorem shares_publish (h : Distinct env s) {sc : Scan TTH} :
    (s.published env sc).shares = (live s.shares).map (publishOne env sc.newShares) :=
  publishShares_shares h.distinctPaths

theorem copyHeads_eq {sc : Scan TTH} (hsc : s.scan = some sc) :
    s.copyHeads = sc.newShares.map ShareListItem.head := by
  rw [copyHeads, hsc]
  rfl

theorem tree_ne_copy (h : Distinct env s) {sc : Scan TTH} (hsc : s.scan = some sc)
    {i j : ShareListItem} (hi : i ∈ s.shares) (hj : j ∈ sc.newShares) : i.tree ≠ j.tree := by
  have htrees := h.trees
  rw [copyHeads_eq hsc, List.map_append, List.nodup_append'] at htrees
  intro heq
  apply htrees.2.2 (List.mem_map_of_mem (List.mem_map_of_mem hi))
  change i.tree ∈ _
  rw [heq]
  exact List.mem_map_of_mem (List.mem_map_of_mem hj)

theorem copy_eq_of_tree (h : Distinct env s) {sc : Scan TTH} (hsc : s.scan = some sc)
    {i j : ShareListItem} (hi : i ∈ sc.newShares) (hj : j ∈ sc.newShares)
    (heq : i.tree = j.tree) : i = j := by
  have htrees := h.trees
  rw [copyHeads_eq hsc, List.map_append, List.nodup_append', List.map_map] at htrees
  exact List.inj_on_of_nodup_map htrees.2.1 hi hj heq

theorem share_eq_of_tree (h : Distinct env s) {i j : ShareListItem} (hi : i ∈ s.shares)
    (hj : j ∈ s.shares) (heq : i.tree = j.tree) : i = j := by
  have htrees := h.trees
  rw [List.map_append, List.nodup_append', heads, List.map_map] at htrees
  exact List.inj_on_of_nodup_map htrees.1 hi hj heq

theorem removed_publishOne (h : Distinct env s) {sc : Scan TTH} (hsc : s.scan = some sc)
    {i : ShareListItem} (hi : i ∈ live s.shares) :
    (publishOne env sc.newShares i).removed = false := by
  rcases publishOne_cases env sc.newShares i with heq | ⟨j, hj, -, heq⟩
  · rw [heq]
    exact (mem_live.mp hi).2
  · rw [heq]
    have hcopied := h.copied
    rw [copyHeads_eq hsc] at hcopied
    exact hcopied j.head (List.mem_map_of_mem (copyOf_mem hj).1)

theorem shares_publish_eq (h : Distinct env s) (sc : Scan TTH) :
    (s.publish env sc).shares = (live s.shares).map (publishOne env sc.newShares) := by
  rw [← h.shares_publish]
  unfold ShareManager.publish
  dsimp only
  split <;> rfl

theorem publish (h : Distinct env s) {sc : Scan TTH} (hsc : s.scan = some sc) :
    Distinct env (s.publish env sc) := by
  have hheads : (s.publish env sc).heads =
      ((live s.shares).map (publishOne env sc.newShares)).map ShareListItem.head := by
    rw [heads, h.shares_publish_eq]
  have hnone : (s.publish env sc).copyHeads = [] := by
    unfold ShareManager.publish
    dsimp only
    split <;> rfl
  have hnext : (s.publish env sc).nextTree = s.nextTree := by
    unfold ShareManager.publish
    dsimp only
    split <;> rfl
  have hsub : live s.shares ⊆ s.shares := List.filter_subset_self _
  have hown : (live s.shares).Pairwise fun i k => i.tree ≠ k.tree := by
    have htrees := h.trees
    rw [List.map_append, List.nodup_append', heads, List.map_map] at htrees
    exact (List.pairwise_map.mp htrees.1).sublist List.filter_sublist
  have hlive : ∀ i ∈ live s.shares, (publishOne env sc.newShares i).tree < s.nextTree := by
    intro i hi
    rcases publishOne_cases env sc.newShares i with heq | ⟨j, hj, -, heq⟩
    · rw [heq]
      exact h.bounded i.head (List.mem_append_left _ (List.mem_map_of_mem (hsub hi)))
    · rw [heq]
      apply h.bounded j.head
      rw [copyHeads_eq hsc]
      exact List.mem_append_right _ (List.mem_map_of_mem (copyOf_mem hj).1)
  constructor
  · rw [hnone, List.append_nil, hheads, List.map_map, List.map_map, List.Nodup, List.pairwise_map]
    apply (hown.and h.distinctPaths).imp_of_mem
    rintro i k hi hk ⟨htree, hpath⟩
    change (publishOne env sc.newShares i).tree ≠ (publishOne env sc.newShares k).tree
    rcases publishOne_cases env sc.newShares i with hi' | ⟨j, hj, -, hi'⟩ <;>
      rcases publishOne_cases env sc.newShares k with hk' | ⟨l, hl, -, hk'⟩
    · rw [hi', hk']
      exact htree
    · rw [hi', hk']
      change i.tree ≠ l.tree
      exact h.tree_ne_copy hsc (hsub hi) (copyOf_mem hl).1
    · rw [hi', hk']
      change j.tree ≠ k.tree
      exact (h.tree_ne_copy hsc (hsub hk) (copyOf_mem hj).1).symm
    · rw [hi', hk']
      intro heq
      have hjl := h.copy_eq_of_tree hsc (copyOf_mem hj).1 (copyOf_mem hl).1 heq
      apply hpath
      have hij := (copyOf_mem hj).2
      rw [hjl] at hij
      exact hij.trans (copyOf_mem hl).2.symm
  · rw [hnone, List.append_nil, hheads, hnext]
    intro a ha
    rw [List.map_map] at ha
    obtain ⟨i, hi, rfl⟩ := List.mem_map.mp ha
    exact hlive i hi
  · rw [hheads, liveHeads_map, List.pairwise_map]
    have hpaths : ((live s.shares).map (publishOne env sc.newShares)).Pairwise
        fun i k => ¬ samePath env i k := by
      rw [List.pairwise_map]
      apply h.distinctPaths.imp
      intro i k hik
      unfold samePath at hik ⊢
      rw [realPath_publishOne, realPath_publishOne]
      exact hik
    exact hpaths.sublist List.filter_sublist
  · rw [hnone]
    exact fun a ha => absurd ha List.not_mem_nil
  · rw [hnone]
    exact List.Pairwise.nil

theorem scanPublish (h : Distinct env s) : Distinct env (s.scanPublish env) := by
  unfold ShareManager.scanPublish
  split
  · exact h
  · next sc hsc =>
    split
    · exact h.publish hsc
    · exact h

/-! ### Runs -/

theorem step [Inhabited TTH] (h : Distinct env s) (e : Event TTH) :
    Distinct env (s.step env e) := by
  cases e with
  | loadShare realPath virtualAttr isExist => exact h.loadShare realPath virtualAttr isExist
  | loadExclude path => exact h.loadExclude _
  | loadDir filename data => exact h.of_keepsList (.loadSharedDir env s filename data)
  | loadFile attr => exact h.of_keepsList (.loadSharedFile env s attr)
  | loadDirEnd data => exact h.of_keepsList (.loadDirEnd s data)
  | op o =>
    cases o with
    | addDirectory realPath virtualName accepted =>
      exact h.addDirectory realPath virtualName accepted
    | removeDirectory realPath => exact h.removeDirectory realPath
    | renameDirectory realPath virtualName => exact h.renameDirectory realPath virtualName
    | addExcludeFolder path => exact h.addExcludeFolder path
    | removeExcludeFolder path => exact h.removeExcludeFolder path
    | addFile path root found currentTime =>
      exact h.of_keepsList (.addFile env s path root found currentTime)
    | scanStart force types => exact h.scanStart force types
    | scanShare => exact h.of_keepsList (.scanShare s)
    | scanEntry e => exact h.of_keepsList (.scanEntry env s e)
    | scanDirEnd => exact h.of_keepsList (.scanDirEnd s)
    | scanPublish => exact h.scanPublish
    | fileHashed n root mediaInfo currentTime =>
      exact h.of_keepsList (.fileHashed env s n root mediaInfo currentTime)
    | hashingError n => exact h.of_keepsList (.hashingError env s n)
    | hashingStopped n => exact h.of_shares rfl rfl rfl
    | shutdown => exact h.of_shares rfl rfl rfl

theorem run [Inhabited TTH] (es : List (Event TTH)) :
    Distinct env (Base.run (ShareManager.step env) ShareManager.new es) :=
  run_invariant (Distinct env) (fun _ e hs => Distinct.step hs e) Distinct.new es

end Distinct

end Blacklink.Share
