import Blacklink.Base.Run
import Blacklink.Share.BloomCovers

/-!
# Numbers of files

Files are numbered as they are made (`make_shared<SharedFile>` in `client/ShareManager.cpp:596,
1216, 2908`), so a new one is none of those there are: all files of trees and queues have a smaller
number than the next one.
-/

namespace Blacklink.Share

open Blacklink.Base

/-- The files of the tree have numbers below the bound. -/
def IdsBelow (bound : Nat) (d : SharedDir) : Prop :=
  d.All fun n => ∀ kf ∈ n.files, kf.2.id < bound

theorem ofContents_idsBelow (bound : Nat) :
    SharedDir.OfContents fun n => ∀ kf ∈ n.files, kf.2.id < bound := by
  intro n m _ hfiles h
  rw [← hfiles]
  exact h

theorem IdsBelow.mono {a b : Nat} (hab : a ≤ b) {d : SharedDir} (h : IdsBelow a d) :
    IdsBelow b d := h.imp fun _ hn kf hkf => (hn kf hkf).trans_le hab

theorem idsBelow_new (bound : Nat) (key name : List UInt8) :
    IdsBelow bound (SharedDir.new key name) :=
  SharedDir.all_new fun _ hkf => absurd hkf List.not_mem_nil

theorem idsBelow_modifyFiles {bound : Nat}
    {f : List (List UInt8 × SharedFile) → List (List UInt8 × SharedFile)}
    (hf : ∀ files, ∀ kf ∈ f files, kf ∈ files ∨ kf.2.id < bound) (p : DirPath) {d : SharedDir}
    (hd : IdsBelow bound d) : IdsBelow bound (SharedDir.modifyFiles p f d) := by
  refine SharedDir.all_modifyAt (fun c hc => SharedDir.all_mapNode hc ?_) p hd
  intro kf hkf
  rcases hf c.node.files kf hkf with hkf | hlt
  · exact hc.node kf hkf
  · exact hlt

/-- All files of trees and queues have numbers below the next one. -/
structure FileIds {TTH : Type} (s : ShareManager TTH) : Prop where
  shares : ∀ i ∈ s.shares, IdsBelow s.nextFile i.dir
  copied : ∀ sc, s.scan = some sc → ∀ j ∈ sc.newShares, IdsBelow s.nextFile j.dir
  toHash : ∀ sc, s.scan = some sc → ∀ fp ∈ sc.filesToHash, fp.1.id < s.nextFile
  queue : ∀ fp ∈ s.hashQueue, fp.1.id < s.nextFile

namespace FileIds

variable {env : Env} {TTH : Type} {s : ShareManager TTH}

/-- A step that changes no tree of a scan and no queue. -/
theorem of_shares (h : FileIds s) {s' : ShareManager TTH} (hnext : s.nextFile ≤ s'.nextFile)
    (hscan : s'.scan = s.scan) (hqueue : s'.hashQueue.Sublist s.hashQueue)
    (hshares : ∀ i ∈ s'.shares, IdsBelow s'.nextFile i.dir) : FileIds s' := by
  constructor
  · exact hshares
  · rw [hscan]
    exact fun sc hsc j hj => (h.copied sc hsc j hj).mono hnext
  · rw [hscan]
    exact fun sc hsc fp hfp => (h.toHash sc hsc fp hfp).trans_le hnext
  · exact fun fp hfp => (h.queue fp (hqueue.subset hfp)).trans_le hnext

/-- A step that changes a scan only. -/
theorem of_scan (h : FileIds s) {s' : ShareManager TTH} (hnext : s.nextFile ≤ s'.nextFile)
    (hshares : s'.shares = s.shares) (hqueue : s'.hashQueue = s.hashQueue)
    (hscan : ∀ sc, s'.scan = some sc → (∀ j ∈ sc.newShares, IdsBelow s'.nextFile j.dir) ∧
      ∀ fp ∈ sc.filesToHash, fp.1.id < s'.nextFile) : FileIds s' := by
  constructor
  · rw [hshares]
    exact fun i hi => (h.shares i hi).mono hnext
  · exact fun sc hsc => (hscan sc hsc).1
  · exact fun sc hsc => (hscan sc hsc).2
  · rw [hqueue]
    exact fun fp hfp => (h.queue fp hfp).trans_le hnext

theorem shares_map {bound : Nat} {is : List ShareListItem} {f : ShareListItem → ShareListItem}
    (h : ∀ i ∈ is, IdsBelow bound i.dir)
    (hf : ∀ i, IdsBelow bound i.dir → IdsBelow bound (f i).dir) :
    ∀ i ∈ is.map f, IdsBelow bound i.dir := by
  intro i hi
  obtain ⟨j, hj, rfl⟩ := List.mem_map.mp hi
  exact hf j (h j hj)

theorem shares_modifyTree (s' : ShareManager TTH) {bound : Nat}
    (h : ∀ i ∈ s'.shares, IdsBelow bound i.dir) {tree : Nat} {f : SharedDir → SharedDir}
    (hf : ∀ d, IdsBelow bound d → IdsBelow bound (f d)) :
    ∀ i ∈ (s'.modifyTree tree f).shares, IdsBelow bound i.dir := by
  apply shares_map h
  intro i hi
  split
  · exact hf _ hi
  · exact hi

private theorem idsBelow_markRemoved {bound : Nat} {d : SharedDir} (h : IdsBelow bound d) :
    IdsBelow bound (d.mapNode fun n => { n with shareRemoved := true }) :=
  SharedDir.all_mapNode h h.node

private theorem shares_append {bound : Nat} {is : List ShareListItem}
    (h : ∀ i ∈ is, IdsBelow bound i.dir) {name realPath : List UInt8} {tree : Nat}
    {version : Int} :
    ∀ i ∈ is ++ [⟨realPath, tree, .new [] name, version, 0, .none⟩], IdsBelow bound i.dir := by
  rw [List.forall_mem_append]
  constructor
  · exact h
  · intro i hi
    rw [List.mem_singleton.mp hi]
    exact idsBelow_new bound [] name

/-! ### Loading -/

theorem updateVersion (h : FileIds s) (share : ShareListItem) :
    FileIds (s.updateVersion share) := by
  refine h.of_shares le_rfl rfl (List.Sublist.refl _) ?_
  apply shares_map h.shares
  intro i hi
  split
  · exact hi
  · exact hi

theorem addExcludeFolderL (h : FileIds s) {path : List UInt8} {s' : ShareManager TTH}
    (hs' : s.addExcludeFolderL path = some s') : FileIds s' := by
  unfold ShareManager.addExcludeFolderL at hs'
  split at hs'
  · cases hs'
  next share _ =>
  split at hs'
  · cases hs'
  split at hs'
  · cases hs'
  · cases hs'
    have h' := h.updateVersion share
    exact h'.of_shares le_rfl rfl (List.Sublist.refl _) h'.shares

theorem addExcludeFolder (h : FileIds s) (path : List UInt8) :
    FileIds (s.addExcludeFolder path) := by
  unfold ShareManager.addExcludeFolder
  split
  · exact h
  · next s' hs' =>
    have h' := h.addExcludeFolderL hs'
    exact h'.of_shares le_rfl rfl (List.Sublist.refl _) h'.shares

theorem removeExcludeFolder (h : FileIds s) (path : List UInt8) :
    FileIds (s.removeExcludeFolder path) := by
  unfold ShareManager.removeExcludeFolder
  dsimp only
  split
  · split
    · exact h.of_shares le_rfl rfl (List.Sublist.refl _) h.shares
    · apply FileIds.updateVersion
      exact h.of_shares le_rfl rfl (List.Sublist.refl _) h.shares
  · exact h

theorem loadShare [Inhabited TTH] (h : FileIds s) (realPath virtualAttr : List UInt8)
    (isExist : Bool) : FileIds (s.loadShare env realPath virtualAttr isExist) := by
  unfold ShareManager.loadShare
  split
  · exact h
  dsimp only
  generalize validateVirtual _ = virtualName
  split
  · exact h
  · exact h.of_shares le_rfl rfl (List.Sublist.refl _) (shares_append h.shares)

theorem loadSharedDir [Inhabited TTH] (h : FileIds s) (filename : List UInt8) (data : Bool) :
    FileIds (s.loadSharedDir env filename data) := by
  unfold ShareManager.loadSharedDir
  split
  · exact h.of_shares le_rfl rfl (List.Sublist.refl _) h.shares
  · dsimp only
    split
    · exact h.of_shares le_rfl rfl (List.Sublist.refl _) h.shares
    · refine h.of_shares le_rfl rfl (List.Sublist.refl _) ?_
      apply shares_modifyTree _ h.shares
      intro d hd
      apply SharedDir.all_modifyAt _ _ hd
      exact fun c hc => SharedDir.all_insertDir (idsBelow_new _ _ _) hc
  · split
    · exact h.of_shares le_rfl rfl (List.Sublist.refl _) h.shares
    split
    · exact h.of_shares le_rfl rfl (List.Sublist.refl _) h.shares
    · exact h

theorem shares_next (h : FileIds s) : ∀ i ∈ s.shares, IdsBelow (s.nextFile + 1) i.dir :=
  fun i hi => (h.shares i hi).mono (Nat.le_succ _)

theorem loadSharedFile [Inhabited TTH] (h : FileIds s)
    (attr : ShareManager.SharedItemAttribs TTH) : FileIds (s.loadSharedFile env attr) := by
  unfold ShareManager.loadSharedFile
  split
  · dsimp only
    split
    · refine h.of_shares (Nat.le_succ _) rfl (List.Sublist.refl _) ?_
      apply shares_modifyTree _ h.shares_next
      intro d hd
      refine SharedDir.all_modifyAt (fun c hc => SharedDir.all_mapNode hc ?_) _ hd
      intro kf hkf
      rcases mem_insertFile hkf with hkf | rfl
      · exact hc.node kf hkf
      · exact Nat.lt_succ_self _
    · exact h.of_shares (Nat.le_succ _) rfl (List.Sublist.refl _) h.shares_next
  · exact h

private theorem shares_addLoaded (h : FileIds s) (tree : Nat) (p : DirPath) (types : Nat)
    (size : Int) :
    ∀ i ∈ (s.modifyTree tree
      (SharedDir.modifyAt p (ShareManager.addLoaded types size))).shares,
        IdsBelow s.nextFile i.dir := by
  apply shares_modifyTree _ h.shares
  intro d hd
  apply SharedDir.all_modifyAt _ p hd
  exact fun c hc => SharedDir.all_mapNode hc hc.node

theorem loadDirEnd (h : FileIds s) (data : Bool) : FileIds (s.loadDirEnd data) := by
  unfold ShareManager.loadDirEnd
  split
  · exact h
  · exact h.of_shares le_rfl rfl (List.Sublist.refl _) h.shares
  · exact h.of_shares le_rfl rfl (List.Sublist.refl _) h.shares
  · exact h.of_shares le_rfl rfl (List.Sublist.refl _) h.shares
  · exact h.of_shares le_rfl rfl (List.Sublist.refl _) (h.shares_addLoaded _ _ _ _)
  · split
    · refine h.of_shares le_rfl rfl (List.Sublist.refl _) ?_
      apply shares_map h.shares
      intro i hi
      split
      · exact hi
      · exact hi
    · split
      · exact h.of_shares le_rfl rfl (List.Sublist.refl _) h.shares
      · exact h.of_shares le_rfl rfl (List.Sublist.refl _) (h.shares_addLoaded _ _ _ _)

/-! ### Operations -/

theorem addDirectory [Inhabited TTH] (h : FileIds s) (realPath virtualName : List UInt8)
    (accepted : Bool) : FileIds (s.addDirectory env realPath virtualName accepted) := by
  unfold ShareManager.addDirectory
  split
  · exact h
  split
  · exact h
  split
  · exact h
  · refine h.of_shares le_rfl rfl (List.Sublist.refl _) ?_
    apply shares_append
    apply shares_map h.shares
    intro i hi
    split
    · exact idsBelow_markRemoved hi
    · exact hi

theorem removeDirectory [Inhabited TTH] (h : FileIds s) (realPath : List UInt8) :
    FileIds (s.removeDirectory env realPath) := by
  unfold ShareManager.removeDirectory
  split
  · exact h
  split
  · exact h
  · refine h.of_shares le_rfl rfl (List.Sublist.refl _) ?_
    apply shares_map h.shares
    intro i hi
    split
    · exact idsBelow_markRemoved hi
    · exact hi

theorem renameDirectory (h : FileIds s) (realPath virtualName : List UInt8) :
    FileIds (s.renameDirectory env realPath virtualName) := by
  unfold ShareManager.renameDirectory
  dsimp only
  split
  · exact h
  split
  · exact h
  split
  · exact h
  · refine h.of_shares le_rfl rfl (List.Sublist.refl _) ?_
    apply shares_modifyTree _ h.shares
    exact fun d hd => SharedDir.all_mapNode hd hd.node

theorem addFile (h : FileIds s) (path : List UInt8) (root : TTH) (found : Option (Nat × Int))
    (currentTime : Nat) : FileIds (s.addFile env path root found currentTime) := by
  unfold ShareManager.addFile
  split
  · split
    · exact h
    dsimp only
    split
    · exact h
    split
    · exact h
    · refine h.of_shares (Nat.le_succ _) rfl (List.Sublist.refl _) ?_
      dsimp only
      apply shares_modifyTree (s.newFile _) h.shares_next
      intro d hd
      have hof := ofContents_idsBelow (s.nextFile + 1)
      apply SharedDir.all_updateTypes hof
      apply SharedDir.all_updateSize hof
      apply idsBelow_modifyFiles _ _ hd
      intro files kf hkf
      rcases mem_insertFile hkf with hkf | rfl
      · exact .inl hkf
      · exact .inr (Nat.lt_succ_self _)
  · exact h

theorem fileHashed (h : FileIds s) (n : Nat) (root : TTH) (mediaInfo : Option MediaInfo)
    (currentTime : Nat) : FileIds (s.fileHashed env n root mediaInfo currentTime) := by
  unfold ShareManager.fileHashed
  split
  · exact h
  dsimp only
  split
  · exact h.of_shares le_rfl rfl (List.eraseIdx_sublist _ n) h.shares
  · exact h.of_shares le_rfl rfl (List.eraseIdx_sublist _ n) h.shares

theorem hashingError (h : FileIds s) (n : Nat) : FileIds (s.hashingError env n) := by
  unfold ShareManager.hashingError
  split
  · exact h
  dsimp only
  split
  · exact h.of_shares le_rfl rfl (List.eraseIdx_sublist _ n) h.shares
  · refine h.of_shares le_rfl rfl (List.eraseIdx_sublist _ n) ?_
    apply shares_modifyTree _ h.shares
    intro d hd
    apply idsBelow_modifyFiles _ _ hd
    exact fun files kf hkf => .inl (List.mem_filter.mp hkf).1

/-! ### Scanning -/

/-- A step of a scan with an active share, to one with the active share and the files to hash. -/
private theorem of_active (h : FileIds s) {sc : Scan TTH} (hsc : s.scan = some sc) {bound : Nat}
    (hbound : s.nextFile ≤ bound) {sc' : Scan TTH} (hscanned : sc'.scanned = sc.scanned)
    (hpending : ∀ j ∈ sc'.pending, j ∈ sc.pending)
    (hitem : ∀ a, sc'.active = some a → IdsBelow bound a.item.dir)
    (htoHash : ∀ fp ∈ sc'.filesToHash, fp ∈ sc.filesToHash ∨ fp.1.id < bound) :
    (∀ j ∈ sc'.newShares, IdsBelow bound j.dir) ∧ ∀ fp ∈ sc'.filesToHash, fp.1.id < bound := by
  have hnew := h.copied sc hsc
  unfold Scan.newShares at hnew ⊢
  rw [List.forall_mem_append, List.forall_mem_append] at hnew ⊢
  rw [hscanned]
  refine ⟨⟨⟨?_, ?_⟩, ?_⟩, ?_⟩
  · exact fun j hj => (hnew.1.1 j hj).mono hbound
  · intro j hj
    obtain ⟨a, ha, rfl⟩ := Option.map_eq_some_iff.mp (Option.mem_toList.mp hj)
    exact hitem a ha
  · exact fun j hj => (hnew.2 j (hpending j hj)).mono hbound
  · intro fp hfp
    rcases htoHash fp hfp with hfp | hlt
    · exact (h.toHash sc hsc fp hfp).trans_le hbound
    · exact hlt

private theorem idsBelow_copyShares {bound : Nat} (is : List ShareListItem)
    (h : ∀ i ∈ is, IdsBelow bound i.dir) (n : Nat) :
    ∀ j ∈ copyShares n is, IdsBelow bound j.dir := by
  intro j hj
  obtain ⟨i, hi, -, hdir⟩ := mem_copyShares hj
  rw [hdir]
  exact SharedDir.all_copyTree (ofContents_idsBelow bound) (h i hi)

theorem scanStart (h : FileIds s) (force : Bool) (types : Nat) :
    FileIds (s.scanStart force types) := by
  unfold ShareManager.scanStart
  split
  · exact h
  · refine h.of_scan le_rfl rfl rfl ?_
    intro sc hsc
    cases hsc
    constructor
    · exact idsBelow_copyShares s.shares h.shares s.nextTree
    · exact fun fp hfp => absurd hfp List.not_mem_nil

theorem idsBelow_setDirsNotFound {bound : Nat} {d : SharedDir} (h : IdsBelow bound d) :
    IdsBelow bound d.setDirsNotFound := by
  apply SharedDir.all_mapDirs h
  intro c hc
  obtain ⟨e, he, rfl⟩ := List.mem_map.mp hc
  exact SharedDir.all_mapNode (h.dirs e he) (h.dirs e he).node

theorem idsBelow_clearDirNotFound {bound : Nat} (key : List UInt8) {d : SharedDir}
    (h : IdsBelow bound d) : IdsBelow bound (d.clearDirNotFound key) := by
  apply SharedDir.all_mapDirs h
  apply SharedDir.all_modifyChild _ h.dirs
  exact fun c hc => SharedDir.all_mapNode hc hc.node

/-- Entering a directory only sets flags. -/
theorem enterDir (h : FileIds s) {sc sc' : Scan TTH} (hsc : s.scan = some sc)
    (hscanned : sc'.scanned = sc.scanned) (hpending : ∀ j ∈ sc'.pending, j ∈ sc.pending)
    (htoHash : sc'.filesToHash = sc.filesToHash) {a : ActiveShare}
    (hitem : IdsBelow s.nextFile a.item.dir) (dirPath : DirPath) (path : List UInt8) :
    FileIds (s.enterDir sc' a dirPath path) := by
  unfold ShareManager.enterDir
  split
  · exact h
  · refine h.of_scan le_rfl rfl rfl ?_
    intro sc'' hsc''
    cases hsc''
    apply h.of_active hsc le_rfl
    · exact hscanned
    · exact hpending
    · intro b hb
      cases hb
      exact SharedDir.all_modifyAt (fun _ => idsBelow_setDirsNotFound) dirPath hitem
    · exact fun fp hfp => .inl (htoHash ▸ hfp)

private theorem mem_newShares_pending {sc : Scan TTH} {j : ShareListItem} (h : j ∈ sc.pending) :
    j ∈ sc.newShares := List.mem_append_right _ h

private theorem mem_newShares_active {sc : Scan TTH} {a : ActiveShare} (h : sc.active = some a) :
    a.item ∈ sc.newShares := by
  apply List.mem_append_left
  apply List.mem_append_right
  rw [h]
  exact List.mem_singleton_self a.item

theorem scanShare (h : FileIds s) : FileIds s.scanShare := by
  unfold ShareManager.scanShare
  split
  · next sc hsc =>
    split
    · next sli rest _ hpending =>
      split
      · exact h
      · have h' : FileIds { s with fileCounter := 0 } :=
          h.of_shares le_rfl rfl (List.Sublist.refl _) h.shares
        apply h'.enterDir hsc
        · rfl
        · intro j hj
          rw [hpending]
          exact List.mem_cons_of_mem sli hj
        · rfl
        · apply h.copied sc hsc
          apply mem_newShares_pending
          rw [hpending]
          exact List.mem_cons_self
    · exact h
  · exact h

theorem scanNewFile [Inhabited TTH] (h : FileIds s) {sc : Scan TTH} {a : ActiveShare}
    (hsc : s.scan = some sc) (ha : sc.active = some a) (fr : Frame) (frs : List Frame)
    (e : FileFindItem) (oldSize : Int) :
    FileIds (s.scanNewFile env sc a fr frs e oldSize) := by
  unfold ShareManager.scanNewFile
  refine h.of_scan (Nat.le_succ _) rfl rfl ?_
  intro sc' hsc'
  cases hsc'
  have hitem := (h.copied sc hsc _ (mem_newShares_active ha)).mono (Nat.le_succ s.nextFile)
  apply h.of_active hsc (Nat.le_succ _)
  · rfl
  · exact fun _ hj => hj
  · intro b hb
    cases hb
    apply idsBelow_modifyFiles _ _ hitem
    intro files kf hkf
    rcases mem_assignFile hkf with hkf | rfl
    · exact .inl hkf
    · exact .inr (Nat.lt_succ_self _)
  · intro fp hfp
    rcases List.mem_append.mp hfp with hfp | hfp
    · exact .inl hfp
    · rw [List.mem_singleton.mp hfp]
      exact .inr (Nat.lt_succ_self _)

theorem scanFile [Inhabited TTH] (h : FileIds s) {sc : Scan TTH} {a : ActiveShare}
    (hsc : s.scan = some sc) (ha : sc.active = some a) (fr : Frame) (frs : List Frame)
    (dir : SharedDir) (e : FileFindItem) :
    FileIds (s.scanFile env sc a fr frs dir e) := by
  have h' : FileIds { s with fileCounter := s.fileCounter + 1 } :=
    h.of_shares le_rfl rfl (List.Sublist.refl _) h.shares
  unfold ShareManager.scanFile
  dsimp only
  split
  · exact h'.scanNewFile hsc ha fr frs e 0
  split
  · refine h.of_scan le_rfl rfl rfl ?_
    intro sc' hsc'
    cases hsc'
    have hitem := h.copied sc hsc _ (mem_newShares_active ha)
    apply h.of_active hsc le_rfl
    · rfl
    · exact fun _ hj => hj
    · intro b hb
      cases hb
      exact hitem
    · exact fun _ hfp => .inl hfp
  · exact h'.scanNewFile hsc ha _ frs e _

theorem scanSubdir (h : FileIds s) {sc : Scan TTH} {a : ActiveShare} (hsc : s.scan = some sc)
    (ha : sc.active = some a) (fr : Frame) (frs : List Frame) (dir : SharedDir)
    (e : FileFindItem) : FileIds (s.scanSubdir env sc a fr frs dir e) := by
  have hitem := h.copied sc hsc _ (mem_newShares_active ha)
  unfold ShareManager.scanSubdir
  dsimp only
  split
  · exact h
  split
  · apply h.enterDir hsc
    · rfl
    · exact fun _ hj => hj
    · rfl
    · exact SharedDir.all_modifyAt (fun _ => idsBelow_clearDirNotFound _) _ hitem
  · apply h.enterDir hsc
    · rfl
    · exact fun _ hj => hj
    · rfl
    · exact SharedDir.all_modifyAt
        (fun _ hc => SharedDir.all_insertDir (idsBelow_new _ _ _) hc) _ hitem

theorem scanEntry [Inhabited TTH] (h : FileIds s) (e : FileFindItem) :
    FileIds (s.scanEntry env e) := by
  unfold ShareManager.scanEntry
  split
  · exact h
  next sc hsc =>
  split
  · next a ha =>
    split
    · next fr frs _ =>
      split
      · exact h
      split
      · exact h
      next dir _ =>
      split
      · exact h.scanSubdir hsc ha fr frs dir e
      · exact h.scanFile hsc ha fr frs dir e
    · exact h
  · exact h

private theorem idsBelow_eraseNotFound {bound : Nat} {dir : SharedDir} (h : IdsBelow bound dir)
    (sc : Scan TTH) (fr : Frame) :
    IdsBelow bound (ShareManager.eraseNotFound s sc fr dir).dir := by
  unfold ShareManager.eraseNotFound
  refine SharedDir.all_mk.mpr ⟨?_, ?_⟩
  · intro kf hkf
    dsimp only at hkf
    split at hkf
    · exact h.node kf (List.mem_filter.mp hkf).1
    · exact h.node kf hkf
  · intro c hc
    split at hc
    · exact h.dirs c (List.mem_filter.mp hc).1
    · exact h.dirs c hc

private theorem idsBelow_closeDir {bound : Nat} {fr : Frame} {erased : ShareManager.Erased}
    {root : SharedDir} (h : IdsBelow bound root) (hdir : IdsBelow bound erased.dir) :
    IdsBelow bound (ShareManager.closeDir fr erased root) := by
  have hof := ofContents_idsBelow bound
  have hmodified := SharedDir.all_modifyAt (fun _ _ => hdir) fr.dirPath h
  unfold ShareManager.closeDir
  dsimp only
  split
  · apply SharedDir.all_updateTypes hof
    split
    · exact hmodified
    · exact SharedDir.all_updateSize hof _ _ hmodified
  · apply SharedDir.all_addTypes hof
    split
    · exact hmodified
    · exact SharedDir.all_updateSize hof _ _ hmodified

theorem scanDirEnd (h : FileIds s) : FileIds s.scanDirEnd := by
  unfold ShareManager.scanDirEnd
  split
  · exact h
  next sc hsc =>
  split
  · next a ha =>
    split
    · next fr frs _ =>
      split
      · exact h
      next dir hdir =>
      have hitem := h.copied sc hsc _ (mem_newShares_active ha)
      have hroot : IdsBelow s.nextFile
          (ShareManager.closeDir fr (s.eraseNotFound sc fr dir) a.item.dir) :=
        idsBelow_closeDir hitem (idsBelow_eraseNotFound (SharedDir.all_find? hdir hitem) sc fr)
      dsimp only
      split
      · refine h.of_scan le_rfl rfl rfl ?_
        intro sc' hsc'
        cases hsc'
        apply h.of_active hsc le_rfl
        · rfl
        · exact fun _ hj => hj
        · intro b hb
          cases hb
          exact hroot
        · exact fun _ hfp => .inl hfp
      · refine h.of_scan le_rfl rfl rfl ?_
        intro sc' hsc'
        cases hsc'
        refine ⟨?_, h.toHash sc hsc⟩
        intro j hj
        rcases List.mem_append.mp hj with hj | hj
        · rcases List.mem_append.mp hj with hj | hj
          · rcases List.mem_append.mp hj with hj | hj
            · exact h.copied sc hsc j (List.mem_append_left _ (List.mem_append_left _ hj))
            · rw [List.mem_singleton.mp hj]
              exact hroot
          · cases hj
        · exact h.copied sc hsc j (mem_newShares_pending hj)
    · exact h
  · exact h

theorem publish (h : FileIds s) {sc : Scan TTH} (hsc : s.scan = some sc) :
    FileIds (s.publish env sc) := by
  have hpublished : ∀ i ∈ (s.published env sc).shares, IdsBelow s.nextFile i.dir := by
    intro i hi
    rcases BloomInv.mem_publishShares hi with ⟨k, hk, _, hdir⟩ | ⟨j, hj, hdir⟩
    · rw [hdir]
      exact h.shares k hk
    · rw [hdir]
      exact h.copied sc hsc j hj
  have hqueue : ∀ fp ∈ s.hashQueue ++ sc.filesToHash, fp.1.id < s.nextFile :=
    List.forall_mem_append.mpr ⟨h.queue, h.toHash sc hsc⟩
  unfold ShareManager.publish
  dsimp only
  split
  · constructor
    · exact hpublished
    · intro sc' hsc'
      cases hsc'
    · intro sc' hsc'
      cases hsc'
    · exact hqueue
  · constructor
    · exact hpublished
    · intro sc' hsc'
      cases hsc'
    · intro sc' hsc'
      cases hsc'
    · exact hqueue

theorem scanPublish (h : FileIds s) : FileIds (s.scanPublish env) := by
  unfold ShareManager.scanPublish
  split
  · exact h
  next sc hsc =>
  split
  · exact h.publish hsc
  · exact h

/-! ### Runs -/

theorem perform [Inhabited TTH] (h : FileIds s) (o : Op TTH) : FileIds (s.perform env o) := by
  cases o with
  | addDirectory realPath virtualName accepted => exact h.addDirectory realPath virtualName accepted
  | removeDirectory realPath => exact h.removeDirectory realPath
  | renameDirectory realPath virtualName => exact h.renameDirectory realPath virtualName
  | addExcludeFolder path => exact h.addExcludeFolder path
  | removeExcludeFolder path => exact h.removeExcludeFolder path
  | addFile path root found currentTime => exact h.addFile path root found currentTime
  | scanStart force types => exact h.scanStart force types
  | scanShare => exact h.scanShare
  | scanEntry e => exact h.scanEntry e
  | scanDirEnd => exact h.scanDirEnd
  | scanPublish => exact h.scanPublish
  | fileHashed n root mediaInfo currentTime => exact h.fileHashed n root mediaInfo currentTime
  | hashingError n => exact h.hashingError n
  | hashingStopped n => exact h.of_shares le_rfl rfl (List.eraseIdx_sublist _ n) h.shares
  | shutdown => exact h.of_shares le_rfl rfl (List.Sublist.refl _) h.shares

theorem step [Inhabited TTH] (h : FileIds s) (e : Event TTH) : FileIds (s.step env e) := by
  cases e with
  | loadShare realPath virtualAttr isExist => exact h.loadShare realPath virtualAttr isExist
  | loadExclude path =>
    rw [ShareManager.step]
    cases hs' : s.addExcludeFolderL (appendPathSeparator path) with
    | none => exact h
    | some s' => exact h.addExcludeFolderL hs'
  | loadDir filename data => exact h.loadSharedDir filename data
  | loadFile attr => exact h.loadSharedFile attr
  | loadDirEnd data => exact h.loadDirEnd data
  | op o => exact h.perform o

theorem new [Inhabited TTH] : FileIds (ShareManager.new : ShareManager TTH) := by
  constructor
  · intro i hi
    cases hi
  · intro sc hsc
    cases hsc
  · intro sc hsc
    cases hsc
  · intro fp hfp
    cases hfp

end FileIds

end Blacklink.Share
