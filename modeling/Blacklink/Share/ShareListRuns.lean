import Blacklink.Share.QuietSteps
import Blacklink.Share.ShareList

/-!
# Saving the list of shares at any time

What holds of the shares, the exclusions and the groups in every run, and from it when the saved
list is the list of the shares there are. A share that is removed stays in the list until the next
scan is published; `saveShareList` and `writeShareGroupXml` test a flag that says nothing about that
(`client/ShareManager.cpp:1240, 2023`), all other loops the one that does.
-/

namespace Blacklink.Share

open Blacklink.Base Blacklink.Text

/-- Something that happens to the shares or to the groups. -/
inductive ShareChange where
  | share (e : Event TTHValue)
  | group (g : GroupOp TTHValue)

/-- What it does. -/
def ShareManager.change (env : Env) (s : ShareManager TTHValue) :
    ShareChange → ShareManager TTHValue
  | .share e => s.step env e
  | .group g => s.performGroup env g

/-- The exclusion is neither below the other nor above it. -/
def ApartFrom (j path : List UInt8) : Prop :=
  isSubDirOrSame path j = false ∧ isSubDir j path = false

/-! ### Flags -/

/-- No item has the flag of a scan that found something to be removed. -/
def FlagsClear {TTH : Type} (s : ShareManager TTH) : Prop :=
  ∀ i ∈ s.shares, i.flags.removed = false

namespace FlagsClear

variable {env : Env} {TTH : Type} {s : ShareManager TTH}

/-- A step that changes the items but not their flags. -/
theorem of_map (h : FlagsClear s) {s' : ShareManager TTH} {f : ShareListItem → ShareListItem}
    (hf : ∀ i, (f i).flags = i.flags) (hs' : s'.shares = s.shares.map f) : FlagsClear s' := by
  intro i hi
  rw [hs'] at hi
  obtain ⟨j, hj, rfl⟩ := List.mem_map.mp hi
  rw [hf]
  exact h j hj

theorem of_shares (h : FlagsClear s) {s' : ShareManager TTH} (hs' : s'.shares = s.shares) :
    FlagsClear s' := by
  rw [FlagsClear, hs']
  exact h

/-- A step that changes a tree. -/
theorem of_modifyTree (h : FlagsClear s) {s' : ShareManager TTH} {tree : Nat}
    {f : SharedDir → SharedDir} (hs' : s'.shares = (s.modifyTree tree f).shares) :
    FlagsClear s' := by
  refine h.of_map ?_ hs'
  intro i
  split <;> rfl

theorem updateVersion (h : FlagsClear s) (share : ShareListItem) :
    FlagsClear (s.updateVersion share) := by
  refine h.of_map ?_ rfl
  intro i
  split <;> rfl

theorem addExcludeFolderL (h : FlagsClear s) {path : List UInt8} {s' : ShareManager TTH}
    (hs' : s.addExcludeFolderL path = some s') : FlagsClear s' := by
  unfold ShareManager.addExcludeFolderL at hs'
  split at hs'
  · cases hs'
  next share _ =>
  split at hs'
  · cases hs'
  split at hs'
  · cases hs'
  · cases hs'
    exact (h.updateVersion share).of_shares rfl

private theorem of_append (h : FlagsClear s) {s' : ShareManager TTH}
    {f : ShareListItem → ShareListItem} (hf : ∀ i, (f i).flags = i.flags) {i : ShareListItem}
    (hi : i.flags = .none) (hs' : s'.shares = s.shares.map f ++ [i]) : FlagsClear s' := by
  intro j hj
  rw [hs'] at hj
  rcases List.mem_append.mp hj with hj | hj
  · obtain ⟨k, hk, rfl⟩ := List.mem_map.mp hj
    rw [hf]
    exact h k hk
  · rw [List.mem_singleton.mp hj, hi]
    rfl

theorem loadShare [Inhabited TTH] (h : FlagsClear s) (realPath virtualAttr : List UInt8)
    (isExist : Bool) : FlagsClear (s.loadShare env realPath virtualAttr isExist) := by
  unfold ShareManager.loadShare
  split
  · exact h
  dsimp only
  generalize validateVirtual _ = virtualName
  split
  · exact h
  · apply h.of_append (f := id) (fun _ => rfl) (i := ⟨_, _, _, _, _, .none⟩) rfl
    rw [List.map_id]

theorem addDirectory [Inhabited TTH] (h : FlagsClear s) (realPath virtualName : List UInt8)
    (accepted : Bool) : FlagsClear (s.addDirectory env realPath virtualName accepted) := by
  unfold ShareManager.addDirectory
  split
  · exact h
  split
  · exact h
  split
  · exact h
  · refine h.of_append ?_ (i := ⟨_, _, _, _, _, .none⟩) rfl rfl
    intro i
    split <;> rfl

theorem loadSharedDir [Inhabited TTH] (h : FlagsClear s) (filename : List UInt8) (data : Bool) :
    FlagsClear (s.loadSharedDir env filename data) := by
  unfold ShareManager.loadSharedDir
  split
  · exact h
  · dsimp only
    split
    · exact h
    · exact h.of_modifyTree rfl
  · split
    · exact h
    split
    · exact h
    · exact h

theorem loadSharedFile [Inhabited TTH] (h : FlagsClear s)
    (attr : ShareManager.SharedItemAttribs TTH) : FlagsClear (s.loadSharedFile env attr) := by
  unfold ShareManager.loadSharedFile
  split
  · dsimp only
    split
    · exact h.of_modifyTree rfl
    · exact h
  · exact h

theorem loadDirEnd (h : FlagsClear s) (data : Bool) : FlagsClear (s.loadDirEnd data) := by
  unfold ShareManager.loadDirEnd
  split
  · exact h
  · exact h
  · exact h
  · exact h
  · exact h.of_modifyTree rfl
  · split
    · refine h.of_map ?_ rfl
      intro i
      split <;> rfl
    · split
      · exact h
      · exact h.of_modifyTree rfl

theorem removeDirectory [Inhabited TTH] (h : FlagsClear s) (realPath : List UInt8) :
    FlagsClear (s.removeDirectory env realPath) := by
  unfold ShareManager.removeDirectory
  split
  · exact h
  split
  · exact h
  · refine h.of_map ?_ rfl
    intro i
    split <;> rfl

theorem renameDirectory (h : FlagsClear s) (realPath virtualName : List UInt8) :
    FlagsClear (s.renameDirectory env realPath virtualName) := by
  unfold ShareManager.renameDirectory
  dsimp only
  split
  · exact h
  split
  · exact h
  split
  · exact h
  · exact h.of_modifyTree rfl

theorem addFile (h : FlagsClear s) (path : List UInt8) (root : TTH) (found : Option (Nat × Int))
    (currentTime : Nat) : FlagsClear (s.addFile env path root found currentTime) := by
  unfold ShareManager.addFile
  split
  · split
    · exact h
    dsimp only
    split
    · exact h
    split
    · exact h
    · intro i hi
      change i ∈ List.map _ s.shares at hi
      obtain ⟨j, hj, rfl⟩ := List.mem_map.mp hi
      split
      · exact h j hj
      · exact h j hj
  · exact h

theorem hashingError (h : FlagsClear s) (n : Nat) : FlagsClear (s.hashingError env n) := by
  unfold ShareManager.hashingError
  split
  · exact h
  dsimp only
  have hqueue : FlagsClear { s with hashQueue := s.hashQueue.eraseIdx n } := h
  split
  · exact hqueue
  · exact hqueue.of_modifyTree rfl

theorem publish (h : FlagsClear s) (hdistinct : Distinct env s) (sc : Scan TTH) :
    FlagsClear (s.publish env sc) := by
  intro i hi
  rw [hdistinct.shares_publish_eq] at hi
  obtain ⟨k, hk, rfl⟩ := List.mem_map.mp hi
  have hclear := h k (mem_live.mp hk).1
  rcases publishOne_cases env sc.newShares k with heq | ⟨j, -, -, heq⟩
  · rw [heq]
    exact hclear
  · rw [heq]
    exact hclear

end FlagsClear

/-! ### The invariant -/

/-- No two live shares have the same path, the flags of the items are clear, no exclusion is below
another one and no two groups have the same id. -/
structure ListInv (env : Env) (s : ShareManager TTHValue) : Prop where
  distinct : Distinct env s
  flags : FlagsClear s
  exclusions : s.notShared.Pairwise ApartFrom
  groupIds : s.shareGroups.Pairwise fun g sg => g.id ≠ sg.id

namespace ListInv

variable {env : Env} {s s' : ShareManager TTHValue}

/-- A step that changes neither exclusions nor groups. -/
theorem of_same (h : ListInv env s) (hdistinct : Distinct env s') (hflags : FlagsClear s')
    (hnotShared : s'.notShared = s.notShared) (hgroups : s'.shareGroups = s.shareGroups) :
    ListInv env s' := by
  constructor
  · exact hdistinct
  · exact hflags
  · rw [hnotShared]
    exact h.exclusions
  · rw [hgroups]
    exact h.groupIds

/-- A step that keeps the list of shares. -/
theorem of_keepsList (h : ListInv env s) (hflags : FlagsClear s') (hk : KeepsList s s') :
    ListInv env s' :=
  h.of_same (h.distinct.of_keepsList hk) hflags hk.notShared hk.shareGroups

theorem addExcludeFolderL (h : ListInv env s) {path : List UInt8}
    (hs' : s.addExcludeFolderL path = some s') : ListInv env s' := by
  have hdistinct := h.distinct.addExcludeFolderL hs'
  have hflags := h.flags.addExcludeFolderL hs'
  unfold ShareManager.addExcludeFolderL at hs'
  split at hs'
  · cases hs'
  next share _ =>
  split at hs'
  · cases hs'
  split at hs'
  · cases hs'
  · next hnone =>
    rw [Bool.not_eq_true, List.any_eq_false] at hnone
    cases hs'
    constructor
    · exact hdistinct
    · exact hflags
    · rw [List.pairwise_append]
      refine ⟨h.exclusions.sublist List.filter_sublist, List.pairwise_singleton _ _, ?_⟩
      intro j hj k hk
      rw [List.mem_singleton.mp hk]
      obtain ⟨hj, hbelow⟩ := List.mem_filter.mp hj
      exact ⟨(Bool.not_eq_true _).mp (hnone j hj), (Bool.not_eq_true' _).mp hbelow⟩
    · exact h.groupIds

theorem addExcludeFolder (h : ListInv env s) (path : List UInt8) :
    ListInv env (s.addExcludeFolder path) := by
  unfold ShareManager.addExcludeFolder
  split
  · exact h
  · next s' hs' =>
    have h' := h.addExcludeFolderL hs'
    exact ⟨h'.distinct.of_shares rfl rfl rfl, h'.flags, h'.exclusions, h'.groupIds⟩

theorem removeExcludeFolder (h : ListInv env s) (path : List UInt8) :
    ListInv env (s.removeExcludeFolder path) := by
  have hdistinct := h.distinct.removeExcludeFolder path
  unfold ShareManager.removeExcludeFolder at hdistinct ⊢
  dsimp only at hdistinct ⊢
  split
  · next hany =>
    rw [if_pos hany] at hdistinct
    split at hdistinct
    · exact ⟨hdistinct, h.flags, h.exclusions.sublist List.eraseP_sublist, h.groupIds⟩
    · constructor
      · exact hdistinct
      · exact FlagsClear.updateVersion (s := { s with notShared := _, shareListChanged := _ })
          h.flags _
      · exact h.exclusions.sublist List.eraseP_sublist
      · exact h.groupIds
  · exact h

theorem removeDirectory (h : ListInv env s) (realPath : List UInt8) :
    ListInv env (s.removeDirectory env realPath) := by
  have hdistinct := h.distinct.removeDirectory realPath
  have hflags : FlagsClear (s.removeDirectory env realPath) := h.flags.removeDirectory realPath
  unfold ShareManager.removeDirectory at hdistinct hflags ⊢
  split
  · exact h
  next hne =>
  rw [if_neg hne] at hdistinct hflags
  cases hfind : s.shares.find? fun i =>
      !i.removed && env.lowerName i.realPath = env.toLower realPath with
  | none => exact h
  | some share =>
    rw [hfind] at hdistinct hflags
    constructor
    · exact hdistinct
    · exact hflags
    · exact h.exclusions.sublist List.filter_sublist
    · rw [List.pairwise_map]
      exact h.groupIds

theorem scanPublish (h : ListInv env s) : ListInv env (s.scanPublish env) := by
  unfold ShareManager.scanPublish
  split
  · exact h
  next sc hsc =>
  split
  · apply h.of_same (h.distinct.publish hsc) (h.flags.publish h.distinct sc)
    · unfold ShareManager.publish
      dsimp only
      split <;> rfl
    · unfold ShareManager.publish
      dsimp only
      split <;> rfl
  · exact h

theorem addDirectory (h : ListInv env s) (realPath virtualName : List UInt8) (accepted : Bool) :
    ListInv env (s.addDirectory env realPath virtualName accepted) := by
  apply h.of_same (h.distinct.addDirectory realPath virtualName accepted)
    (h.flags.addDirectory realPath virtualName accepted)
  · unfold ShareManager.addDirectory
    split
    · rfl
    split
    · rfl
    split
    · rfl
    · rfl
  · unfold ShareManager.addDirectory
    split
    · rfl
    split
    · rfl
    split
    · rfl
    · rfl

theorem renameDirectory (h : ListInv env s) (realPath virtualName : List UInt8) :
    ListInv env (s.renameDirectory env realPath virtualName) := by
  have hdistinct := h.distinct.renameDirectory realPath virtualName
  have hflags : FlagsClear (s.renameDirectory env realPath virtualName) :=
    h.flags.renameDirectory realPath virtualName
  apply h.of_same hdistinct hflags
  · unfold ShareManager.renameDirectory
    dsimp only
    split
    · rfl
    split
    · rfl
    split
    · rfl
    · rfl
  · unfold ShareManager.renameDirectory
    dsimp only
    split
    · rfl
    split
    · rfl
    split
    · rfl
    · rfl

theorem loadShare (h : ListInv env s) (realPath virtualAttr : List UInt8) (isExist : Bool) :
    ListInv env (s.loadShare env realPath virtualAttr isExist) := by
  apply h.of_same (h.distinct.loadShare realPath virtualAttr isExist)
    (h.flags.loadShare realPath virtualAttr isExist)
  · unfold ShareManager.loadShare
    split
    · rfl
    dsimp only
    generalize validateVirtual _ = virtualName
    split <;> rfl
  · unfold ShareManager.loadShare
    split
    · rfl
    dsimp only
    generalize validateVirtual _ = virtualName
    split <;> rfl

theorem fileHashed (h : ListInv env s) (n : Nat) (root : TTHValue) (mediaInfo : Option MediaInfo)
    (currentTime : Nat) : ListInv env (s.fileHashed env n root mediaInfo currentTime) := by
  refine h.of_keepsList (h.flags.of_shares ?_) (.fileHashed env s n root mediaInfo currentTime)
  unfold ShareManager.fileHashed
  split
  · rfl
  dsimp only
  split <;> rfl

theorem hashingError (h : ListInv env s) (n : Nat) : ListInv env (s.hashingError env n) :=
  h.of_keepsList (h.flags.hashingError n) (.hashingError env s n)

/-- A step of the thread of `scanDirs` before the publication. -/
private theorem of_quiet (h : ListInv env s) {e : Event TTHValue} (he : e.isQuiet = true)
    (hnotShared : (s.step env e).notShared = s.notShared) : ListInv env (s.step env e) :=
  h.of_same (h.distinct.step e) (h.flags.of_shares (QuietStep.step he).shares) hnotShared
    (QuietStep.step he).shareGroups

theorem step (h : ListInv env s) (e : Event TTHValue) : ListInv env (s.step env e) := by
  cases e with
  | loadShare realPath virtualAttr isExist => exact h.loadShare realPath virtualAttr isExist
  | loadExclude path =>
    rw [ShareManager.step]
    cases hs' : s.addExcludeFolderL (appendPathSeparator path) with
    | none => exact h
    | some s' => exact h.addExcludeFolderL hs'
  | loadDir filename data =>
    exact h.of_keepsList (h.flags.loadSharedDir filename data) (.loadSharedDir env s filename data)
  | loadFile attr => exact h.of_keepsList (h.flags.loadSharedFile attr) (.loadSharedFile env s attr)
  | loadDirEnd data => exact h.of_keepsList (h.flags.loadDirEnd data) (.loadDirEnd s data)
  | op o =>
    cases o with
    | addDirectory realPath virtualName accepted =>
      exact h.addDirectory realPath virtualName accepted
    | removeDirectory realPath => exact h.removeDirectory realPath
    | renameDirectory realPath virtualName => exact h.renameDirectory realPath virtualName
    | addExcludeFolder path => exact h.addExcludeFolder path
    | removeExcludeFolder path => exact h.removeExcludeFolder path
    | addFile path root found currentTime =>
      exact h.of_keepsList (h.flags.addFile path root found currentTime)
        (.addFile env s path root found currentTime)
    | scanStart force types =>
      apply h.of_quiet rfl
      change (s.scanStart force types).notShared = _
      unfold ShareManager.scanStart
      split <;> rfl
    | scanShare => exact h.of_quiet rfl (KeepsList.scanShare s).notShared
    | scanEntry e => exact h.of_quiet rfl (KeepsList.scanEntry env s e).notShared
    | scanDirEnd => exact h.of_quiet rfl (KeepsList.scanDirEnd s).notShared
    | scanPublish => exact h.scanPublish
    | fileHashed n root mediaInfo currentTime => exact h.fileHashed n root mediaInfo currentTime
    | hashingError n => exact h.hashingError n
    | hashingStopped n => exact h.of_quiet rfl rfl
    | shutdown => exact h.of_quiet rfl rfl

/-- A step that changes groups only. -/
private theorem of_groups (h : ListInv env s) {groups : List (ShareGroup TTHValue)}
    (hgroups : groups.Pairwise fun g sg => g.id ≠ sg.id) :
    ListInv env { s with shareGroups := groups } :=
  ⟨h.distinct.of_shares rfl rfl rfl, h.flags, h.exclusions, hgroups⟩

private theorem addShareGroupL (h : ListInv env s) (name : List UInt8) (id : CID)
    (shareList : List (List UInt8)) (attr : Option (FileAttr TTHValue × FileAttr TTHValue)) :
    ListInv env (s.addShareGroupL name id shareList attr) := by
  unfold ShareManager.addShareGroupL
  split
  · exact h
  split
  · exact h
  · next hnone =>
    rw [Bool.not_eq_true, List.any_eq_false] at hnone
    apply h.of_groups
    rw [List.pairwise_append]
    refine ⟨h.groupIds, List.pairwise_singleton _ _, ?_⟩
    intro g hg sg hsg
    rw [List.mem_singleton.mp hsg]
    intro hid
    apply hnone g hg
    rw [Bool.or_eq_true]
    exact .inl (decide_eq_true hid)

theorem performGroup (h : ListInv env s) (g : GroupOp TTHValue) :
    ListInv env (s.performGroup env g) := by
  have hmap : ∀ f : ShareGroup TTHValue → ShareGroup TTHValue, (∀ sg, (f sg).id = sg.id) →
      (s.shareGroups.map f).Pairwise fun g sg => g.id ≠ sg.id := by
    intro f hf
    rw [List.pairwise_map]
    apply h.groupIds.imp
    intro a b hab
    rw [hf, hf]
    exact hab
  cases g with
  | load name id dirs attr => exact h.addShareGroupL _ _ _ _
  | add name shareList outId => exact h.addShareGroupL _ _ _ _
  | initDefault attr =>
    rw [ShareManager.performGroup]
    unfold ShareManager.initDefaultShareGroupL
    split
    · apply h.of_groups
      apply hmap
      intro sg
      split <;> rfl
    · next hnone =>
      rw [Bool.not_eq_true, List.any_eq_false] at hnone
      apply h.of_groups
      rw [List.pairwise_append]
      refine ⟨h.groupIds, List.pairwise_singleton _ _, ?_⟩
      intro g hg sg hsg
      rw [List.mem_singleton.mp hsg]
      intro hid
      exact hnone g hg (decide_eq_true hid)
  | remove id =>
    rw [ShareManager.performGroup]
    unfold ShareManager.removeShareGroup
    split
    · exact h
    · apply h.of_groups
      exact h.groupIds.sublist List.filter_sublist
  | update id name shareList =>
    rw [ShareManager.performGroup]
    unfold ShareManager.updateShareGroup
    split
    · exact h
    split
    · exact h
    · apply h.of_groups
      apply hmap
      intro sg
      split <;> rfl

theorem change (h : ListInv env s) (c : ShareChange) : ListInv env (s.change env c) := by
  cases c with
  | share e => exact h.step e
  | group g => exact h.performGroup g

theorem new : ListInv env .new := ⟨Distinct.new, nofun, List.Pairwise.nil, List.Pairwise.nil⟩

theorem run (env : Env) (cs : List ShareChange) :
    ListInv env (Base.run (ShareManager.change env) ShareManager.new cs) :=
  run_invariant (ListInv env) (fun _ c hs => ListInv.change hs c) ListInv.new cs

end ListInv

/-! ### What is saved and loaded -/

variable {env : Env} {isExist : List UInt8 → Bool}
  {readFileAttr : CID → Option (FileAttr TTHValue × FileAttr TTHValue)}
  {s : ShareManager TTHValue}

/-- All shares are saved. -/
private theorem savedShares_eq (h : FlagsClear s) :
    s.savedShares = s.shares.map fun i => (i.realPath, i.dir.node.name) := by
  rw [ShareManager.savedShares, List.filter_eq_self.mpr]
  intro i hi
  rw [h i hi]
  rfl

theorem savedShares_eq_shareNames_iff (h : FlagsClear s) :
    s.savedShares = s.shareNames ↔ ∀ i ∈ s.shares, i.removed = false := by
  rw [savedShares_eq h, ShareManager.shareNames_eq]
  constructor
  · intro heq
    have hlen := congrArg List.length heq
    rw [List.length_map, List.length_map] at hlen
    have hall : live s.shares = s.shares := List.filter_sublist.eq_of_length hlen.symm
    intro i hi
    rw [← hall] at hi
    exact (mem_live.mp hi).2
  · intro hnone
    have hall : live s.shares = s.shares := by
      apply List.filter_eq_self.mpr
      intro i hi
      rw [hnone i hi]
      rfl
    rw [hall]

/-- The list of a group has its shares when none is marked as removed. -/
private theorem writtenShares_eq (h : FlagsClear s) (hnone : ∀ i ∈ s.shares, i.removed = false)
    (sg : ShareGroup TTHValue) :
    s.writtenShares env (ShareManager.selectedShares env sg) = s.groupShares env sg := by
  unfold ShareManager.writtenShares ShareManager.groupShares
  apply List.filter_congr
  intro i hi
  rw [h i hi, hnone i hi, ShareManager.selectedShares, List.contains_eq_any_beq, List.any_map]
  congr 2
  funext item
  exact beq_eq_decide _ _

/-- Loading shares loads neither exclusions nor groups. -/
private theorem loadShares_keeps (names : ShareNames) :
    (ShareManager.loadShares env isExist names).notShared = [] ∧
      (ShareManager.loadShares env isExist names).shareGroups = [] := by
  unfold ShareManager.loadShares
  induction names using List.reverseRecOn with
  | nil => exact ⟨rfl, rfl⟩
  | append_singleton names n ih =>
    rw [List.foldl_append, List.foldl_cons, List.foldl_nil]
    generalize names.foldl _ _ = t at ih ⊢
    unfold ShareManager.loadShare
    split
    · exact ih
    dsimp only
    generalize validateVirtual _ = virtualName
    split
    · exact ih
    · exact ih

private theorem shareGroups_loadExclusions (t : ShareManager TTHValue)
    (paths : List (List UInt8)) :
    (ShareManager.loadExclusions t paths).shareGroups = t.shareGroups := by
  induction paths generalizing t with
  | nil => rfl
  | cons path paths ih =>
    rw [ShareManager.loadExclusions, List.foldl_cons]
    apply (ih _).trans
    unfold ShareManager.addExcludeFolderL
    split
    · rfl
    split
    · rfl
    split
    · rfl
    · rfl

/-- What is loaded of the list that has been saved. -/
private theorem loaded_eq (hsaved : s.savedShares = s.shareNames) :
    ShareManager.loadShareList env isExist readFileAttr s.saveShareList .new =
      ShareManager.loadGroups env readFileAttr
        (ShareManager.loadExclusions (ShareManager.loadShares env isExist s.shareNames)
          s.notShared) s.shareGroups := by
  rw [ShareManager.loadShareList_saveShareList, hsaved]
  rfl

private theorem shareNames_loaded (hsaved : s.savedShares = s.shareNames) :
    (ShareManager.loadShareList env isExist readFileAttr s.saveShareList .new).shareNames =
      (ShareManager.loadShares env isExist s.shareNames).shareNames := by
  rw [loaded_eq hsaved, (ShareManager.loadGroups_keeps _ _).1,
    ShareManager.shareNames_loadExclusions]

private theorem notShared_loaded (hsaved : s.savedShares = s.shareNames) :
    (ShareManager.loadShareList env isExist readFileAttr s.saveShareList .new).notShared =
      (ShareManager.loadExclusions (ShareManager.loadShares env isExist s.shareNames)
        s.notShared).notShared := by
  rw [loaded_eq hsaved, (ShareManager.loadGroups_keeps _ _).2]

/-- The shares are loaded as they are exactly when each would be and their names differ: their
paths do. -/
private theorem shares_loaded_iff (h : ListInv env s) :
    (ShareManager.loadShares env isExist s.shareNames).shareNames = s.shareNames ↔
      (∀ n ∈ s.shareNames, Loadable isExist n) ∧
        s.shareNames.Pairwise fun m n => env.lowerName m.2 ≠ env.lowerName n.2 := by
  have hpaths : s.shareNames.Pairwise fun m n => env.lowerName m.1 ≠ env.lowerName n.1 := by
    rw [ShareManager.shareNames_eq, List.pairwise_map]
    exact h.distinct.distinctPaths
  rw [ShareManager.shareNames_loadShares_iff, List.pairwise_and_iff, and_iff_right hpaths]

/-- Since no exclusion is below another one, they are loaded exactly when each would be. -/
private theorem exclusions_loaded_iff (h : ListInv env s)
    (hshares : (ShareManager.loadShares env isExist s.shareNames).shareNames = s.shareNames) :
    (ShareManager.loadExclusions (ShareManager.loadShares env isExist s.shareNames)
        s.notShared).notShared = s.notShared ↔
      ∀ path ∈ s.notShared, Excludable s.shareNames path := by
  rw [ShareManager.notShared_loadExclusions_iff (loadShares_keeps _).1, hshares]
  exact and_iff_left h.exclusions

/-- Since the ids of groups differ, they are loaded exactly when each would be and their names
differ. -/
private theorem groups_loaded_iff (h : ListInv env s)
    (hshares : (ShareManager.loadShares env isExist s.shareNames).shareNames = s.shareNames) :
    (ShareManager.loadGroups env readFileAttr
        (ShareManager.loadExclusions (ShareManager.loadShares env isExist s.shareNames)
          s.notShared) s.shareGroups).shareGroups.map ShareGroup.key =
        s.shareGroups.map ShareGroup.key ↔
      (∀ sg ∈ s.shareGroups, GroupLoadable env s.shareNames sg.key) ∧
        s.shareGroups.Pairwise fun a b => stricmpEq b.name a.name = false := by
  rw [ShareManager.shareGroups_loadGroups_iff, ShareManager.shareNames_loadExclusions, hshares,
    List.pairwise_and_iff, and_iff_right h.groupIds]
  rw [shareGroups_loadExclusions, (loadShares_keeps _).2]

/-- When the lists are those of the shares there are, whatever has happened to them. -/
theorem savedExactly_iff (cs : List ShareChange) :
    SavedExactly env isExist readFileAttr
        (run (ShareManager.change env) ShareManager.new cs) ↔
      Saveable env isExist (run (ShareManager.change env) ShareManager.new cs) := by
  have hinv := ListInv.run env cs
  generalize run (ShareManager.change env) ShareManager.new cs = s at hinv ⊢
  constructor
  · intro h
    have hnames := h.names
    rw [shareNames_loaded h.saved] at hnames
    have hnotShared := h.notShared
    rw [notShared_loaded h.saved] at hnotShared
    have hgroups := h.groups
    rw [loaded_eq h.saved] at hgroups
    have hshares := (shares_loaded_iff hinv).mp hnames
    have hgroups := (groups_loaded_iff hinv hnames).mp hgroups
    constructor
    · exact (savedShares_eq_shareNames_iff hinv.flags).mp h.saved
    · exact hshares.2
    · exact hshares.1
    · exact (exclusions_loaded_iff hinv hnames).mp hnotShared
    · exact hgroups.1
    · exact hgroups.2
  · intro h
    have hsaved := (savedShares_eq_shareNames_iff hinv.flags).mpr h.noneRemoved
    have hnames := (shares_loaded_iff hinv).mpr ⟨h.shares, h.distinct⟩
    constructor
    · exact hsaved
    · exact fun sg _ => writtenShares_eq hinv.flags h.noneRemoved sg
    · rw [shareNames_loaded hsaved]
      exact hnames
    · rw [notShared_loaded hsaved]
      exact (exclusions_loaded_iff hinv hnames).mpr h.exclusions
    · rw [loaded_eq hsaved]
      exact (groups_loaded_iff hinv hnames).mpr ⟨h.groups, h.groupNames⟩

/-- A share is loaded and removed. -/
def removeLoaded : List ShareChange :=
  [.share (.loadShare (ascii "/data/") (ascii "Share") true),
    .share (.op (.removeDirectory (ascii "/data/")))]

/-- The share that has been removed is saved. -/
theorem not_savedExactly_removeLoaded :
    ¬ SavedExactly Env.ascii (fun _ => true) (fun _ => none)
        (run (ShareManager.change Env.ascii) ShareManager.new removeLoaded) := by
  intro h
  have hsaved : (run (ShareManager.change Env.ascii) ShareManager.new removeLoaded).savedShares =
      [(ascii "/data/", ascii "Share")] := by
    rfl
  have hnames : (run (ShareManager.change Env.ascii) ShareManager.new removeLoaded).shareNames =
      [] := by
    rfl
  have heq := h.saved
  rw [hsaved, hnames] at heq
  cases heq

end Blacklink.Share
