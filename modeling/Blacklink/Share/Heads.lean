import Blacklink.Share.Scan

/-!
# The list of shares without its trees

Most of what happens to the share changes something in a tree and leaves the list as it is: the
paths, the virtual names, the versions and which shares are removed, in the list and in the one a
scan has made of it. A step that does keeps the heads, and here is which steps do.
-/

namespace Blacklink.Share

/-- What a `ShareListItem` and the root of its tree say about a share. -/
structure ShareHead where
  realPath : List UInt8
  name : List UInt8
  tree : Nat
  version : Int
  removed : Bool
  deriving DecidableEq

/-- The head of an element of the list. -/
def ShareListItem.head (i : ShareListItem) : ShareHead :=
  ⟨i.realPath, i.dir.node.name, i.tree, i.version, i.removed⟩

namespace SharedDir

/-- A change of a tree that leaves alone what the root says about the share. -/
def KeepsRoot (f : SharedDir → SharedDir) : Prop :=
  ∀ d, (f d).node.name = d.node.name ∧ (f d).node.shareRemoved = d.node.shareRemoved

theorem keepsRoot_mapDirs (f : List SharedDir → List SharedDir) : KeepsRoot (mapDirs f) := by
  intro d
  cases d
  exact ⟨rfl, rfl⟩

theorem keepsRoot_mapNode {f : DirNode → DirNode}
    (hf : ∀ n, (f n).name = n.name ∧ (f n).shareRemoved = n.shareRemoved) :
    KeepsRoot (mapNode f) := by
  intro d
  cases d
  exact hf _

theorem keepsRoot_modifyAt {f : SharedDir → SharedDir} (hf : KeepsRoot f) (p : DirPath) :
    KeepsRoot (modifyAt p f) := by
  intro d
  cases p with
  | nil => exact hf d
  | cons k p => exact keepsRoot_mapDirs _ d

theorem keepsRoot_modifyFiles (p : DirPath)
    (f : List (List UInt8 × SharedFile) → List (List UInt8 × SharedFile)) :
    KeepsRoot (modifyFiles p f) :=
  keepsRoot_modifyAt (keepsRoot_mapNode (by exact fun _ => ⟨rfl, rfl⟩)) p

theorem keepsRoot_updateSize (deltaSize : Int) (p : DirPath) :
    KeepsRoot (updateSize deltaSize p) := by
  intro d
  cases p <;> cases d <;> exact ⟨rfl, rfl⟩

theorem keepsRoot_updateTypes (filesMask dirsMask : Nat) (p : DirPath) :
    KeepsRoot fun d => (updateTypes filesMask dirsMask p d).1 := by
  intro d
  cases p <;> cases d <;> dsimp only [updateTypes] <;> split <;> exact ⟨rfl, rfl⟩

theorem keepsRoot_addTypes (filesMask dirsMask : Nat) (p : DirPath) :
    KeepsRoot fun d => (addTypes filesMask dirsMask p d).1 := by
  intro d
  cases p <;> cases d <;> dsimp only [addTypes] <;> split <;> exact ⟨rfl, rfl⟩

/-- A directory put in the place of another one with the same root. -/
theorem root_modifyAt_const {p : DirPath} {d c e : SharedDir} (hc : find? p d = some c)
    (hname : e.node.name = c.node.name) (hremoved : e.node.shareRemoved = c.node.shareRemoved) :
    (modifyAt p (fun _ => e) d).node.name = d.node.name ∧
      (modifyAt p (fun _ => e) d).node.shareRemoved = d.node.shareRemoved := by
  cases p with
  | nil =>
    cases hc
    exact ⟨hname, hremoved⟩
  | cons k p => exact keepsRoot_mapDirs _ d

end SharedDir

theorem ShareListItem.head_dir {i : ShareListItem} {f : SharedDir → SharedDir}
    (hf : SharedDir.KeepsRoot f) : ShareListItem.head { i with dir := f i.dir } = i.head := by
  rw [head, head, removed, removed]
  dsimp only
  rw [(hf i.dir).1, (hf i.dir).2]

/-- The shares that are not removed. -/
def live (is : List ShareListItem) : List ShareListItem := is.filter fun i => !i.removed

theorem mem_live {i : ShareListItem} {is : List ShareListItem} :
    i ∈ live is ↔ i ∈ is ∧ i.removed = false := by
  rw [live, List.mem_filter, Bool.not_eq_true']

theorem live_cons_removed {i : ShareListItem} {is : List ShareListItem} (h : i.removed = true) :
    live (i :: is) = live is := by
  rw [live, List.filter_cons_of_neg]
  · rfl
  · rw [h]
    decide

theorem live_cons {i : ShareListItem} {is : List ShareListItem} (h : i.removed = false) :
    live (i :: is) = i :: live is := by
  rw [live, List.filter_cons_of_pos]
  · rfl
  · rw [h]
    rfl

/-! ### Copies and marks -/

/-- The head of a share whose root is changed. -/
theorem head_mapNode (i : ShareListItem) (f : DirNode → DirNode) :
    ShareListItem.head { i with dir := i.dir.mapNode f } =
      { i.head with name := (f i.dir.node).name, removed := (f i.dir.node).shareRemoved } := by
  obtain ⟨realPath, tree, ⟨n, ds⟩, version, totalFiles, flags⟩ := i
  rfl

/-- The shares that are marked as removed. -/
def markRemoved (P : ShareHead → Prop) [DecidablePred P] (i : ShareListItem) : ShareListItem :=
  if P i.head then { i with dir := i.dir.mapNode fun n => { n with shareRemoved := true } } else i

theorem head_markRemoved (P : ShareHead → Prop) [DecidablePred P] (i : ShareListItem) :
    (markRemoved P i).head = if P i.head then { i.head with removed := true } else i.head := by
  rw [markRemoved]
  split
  · exact head_mapNode i _
  · rfl

/-- The shares that are left are those that are not marked. -/
theorem live_markRemoved (P : ShareHead → Prop) [DecidablePred P] (is : List ShareListItem) :
    live (is.map (markRemoved P)) = (live is).filter fun i => !P i.head := by
  induction is with
  | nil => rfl
  | cons i is ih =>
    have hhead : (markRemoved P i).removed = (markRemoved P i).head.removed := rfl
    rw [head_markRemoved] at hhead
    rw [List.map_cons]
    by_cases hP : P i.head
    · rw [if_pos hP] at hhead
      rw [live_cons_removed hhead, ih]
      cases hremoved : i.removed with
      | true => rw [live_cons_removed hremoved]
      | false => rw [live_cons hremoved, List.filter_cons_of_neg (by simpa using hP)]
    · rw [if_neg hP] at hhead
      cases hremoved : i.removed with
      | true => rw [live_cons_removed (hhead.trans hremoved), ih, live_cons_removed hremoved]
      | false =>
        rw [live_cons (hhead.trans hremoved), ih, live_cons hremoved,
          List.filter_cons_of_pos (by simpa using hP), markRemoved, if_neg hP]

theorem trees_copyShares (n : Nat) (is : List ShareListItem) :
    ((copyShares n is).map ShareListItem.head).map ShareHead.tree =
      List.range' n (live is).length := by
  induction is generalizing n with
  | nil => rfl
  | cons i is ih =>
    rw [copyShares]
    split
    · next hremoved => rw [ih, live_cons_removed hremoved]
    · next hremoved =>
      rw [Bool.not_eq_true] at hremoved
      rw [live_cons hremoved, List.map_cons, List.map_cons, ih, List.length_cons,
        List.range'_succ]
      rfl

theorem SharedDir.copyTree_node (d : SharedDir) :
    d.copyTree.node = { d.node with notFound := false, shareRemoved := false } := by
  cases d
  rfl

attribute [local simp] copyShares

/-- The copies have the heads of the live shares but for the numbers of the trees. -/
theorem heads_copyShares (n : Nat) (is : List ShareListItem) :
    (copyShares n is).map (fun i => { i.head with tree := 0 }) =
      (live is).map fun i => { i.head with tree := 0 } := by
  induction is generalizing n with
  | nil => rfl
  | cons i is ih =>
    rw [copyShares]
    split
    · next hremoved => rw [ih, live_cons_removed hremoved]
    · next hremoved =>
      rw [Bool.not_eq_true] at hremoved
      rw [live_cons hremoved, List.map_cons, List.map_cons, ih]
      congr 1
      rw [ShareListItem.head, ShareListItem.head, hremoved, ShareListItem.removed,
        SharedDir.copyTree_node]

theorem removed_copyShares {n : Nat} {is : List ShareListItem} :
    ∀ c ∈ copyShares n is, c.removed = false := by
  induction is generalizing n with
  | nil => exact fun c hc => absurd hc List.not_mem_nil
  | cons i is ih =>
    rw [copyShares]
    split
    · exact ih
    · rw [List.forall_mem_cons]
      refine ⟨?_, ih⟩
      rw [ShareListItem.removed, SharedDir.copyTree_node]

/-- A copy has the tree of a share that is not removed. -/
theorem mem_copyShares {n : Nat} {is : List ShareListItem} {j : ShareListItem}
    (hj : j ∈ copyShares n is) : ∃ i ∈ is, i.removed = false ∧ j.dir = i.dir.copyTree := by
  induction is generalizing n with
  | nil => cases hj
  | cons i is ih =>
    rw [copyShares] at hj
    split at hj
    · obtain ⟨k, hk, hdir⟩ := ih hj
      exact ⟨k, List.mem_cons_of_mem i hk, hdir⟩
    · next hremoved =>
      rcases List.mem_cons.mp hj with rfl | hj
      · exact ⟨i, List.mem_cons_self, Bool.not_eq_true _ ▸ hremoved, rfl⟩
      · obtain ⟨k, hk, hdir⟩ := ih hj
        exact ⟨k, List.mem_cons_of_mem i hk, hdir⟩

/-- The heads and the exclusions of a scan. -/
def Scan.heads {TTH : Type} (sc : Scan TTH) : List ShareHead × List (List UInt8) :=
  (sc.newShares.map ShareListItem.head, sc.newNotShared)

theorem Scan.newShares_active {TTH : Type} {sc : Scan TTH} {a : ActiveShare}
    (ha : sc.active = some a) : sc.newShares = sc.scanned ++ a.item :: sc.pending := by
  rw [Scan.newShares, ha, List.append_assoc]
  rfl

/-- The list is the same in both states, the one of a scan is, and no number of a tree is given
again. -/
structure KeepsList {TTH : Type} (s s' : ShareManager TTH) : Prop where
  heads : s'.shares.map ShareListItem.head = s.shares.map ShareListItem.head
  notShared : s'.notShared = s.notShared
  shareGroups : s'.shareGroups = s.shareGroups
  versionCounter : s'.versionCounter = s.versionCounter
  shareListChanged : s'.shareListChanged = s.shareListChanged
  nextTree : s.nextTree ≤ s'.nextTree
  scan : s'.scan.map Scan.heads = s.scan.map Scan.heads

namespace KeepsList

open ShareManager

variable {TTH : Type} {s t u : ShareManager TTH}

theorem refl (s : ShareManager TTH) : KeepsList s s :=
  ⟨rfl, rfl, rfl, rfl, rfl, Nat.le_refl _, rfl⟩

theorem trans (h : KeepsList s t) (h' : KeepsList t u) : KeepsList s u where
  heads := h'.heads.trans h.heads
  notShared := h'.notShared.trans h.notShared
  shareGroups := h'.shareGroups.trans h.shareGroups
  versionCounter := h'.versionCounter.trans h.versionCounter
  shareListChanged := h'.shareListChanged.trans h.shareListChanged
  nextTree := h.nextTree.trans h'.nextTree
  scan := h'.scan.trans h.scan

theorem heads_modifyTree (s : ShareManager TTH) (tree : Nat) {f : SharedDir → SharedDir}
    (hf : SharedDir.KeepsRoot f) :
    (s.modifyTree tree f).shares.map ShareListItem.head = s.shares.map ShareListItem.head := by
  rw [ShareManager.modifyTree, List.map_map]
  apply List.map_congr_left
  intro i _
  rw [Function.comp_apply]
  split
  · exact ShareListItem.head_dir hf
  · rfl

/-- A step that changes nothing of the list, nor the scan. -/
theorem of_heads {s' : ShareManager TTH}
    (heads : s'.shares.map ShareListItem.head = s.shares.map ShareListItem.head)
    (hrest : (s'.notShared, s'.shareGroups, s'.versionCounter, s'.shareListChanged, s'.scan) =
      (s.notShared, s.shareGroups, s.versionCounter, s.shareListChanged, s.scan))
    (nextTree : s.nextTree ≤ s'.nextTree) : KeepsList s s' := by
  simp only [Prod.mk.injEq] at hrest
  obtain ⟨notShared, shareGroups, versionCounter, shareListChanged, scan⟩ := hrest
  exact ⟨heads, notShared, shareGroups, versionCounter, shareListChanged, nextTree, by rw [scan]⟩

/-- A step of a scan that changes nothing of the list. -/
theorem of_scan {s' : ShareManager TTH} {sc sc' : Scan TTH} (hsc : s.scan = some sc)
    (hsc' : s'.scan = some sc')
    (hrest : (s'.shares, s'.notShared, s'.shareGroups, s'.versionCounter, s'.shareListChanged,
        s'.nextTree) =
      (s.shares, s.notShared, s.shareGroups, s.versionCounter, s.shareListChanged, s.nextTree))
    (hheads : sc'.heads = sc.heads) : KeepsList s s' := by
  simp only [Prod.mk.injEq] at hrest
  obtain ⟨shares, notShared, shareGroups, versionCounter, shareListChanged, nextTree⟩ := hrest
  exact ⟨by rw [shares], notShared, shareGroups, versionCounter, shareListChanged, nextTree.ge,
    by rw [hsc, hsc', Option.map_some, Option.map_some, hheads]⟩

/-! ### Loading and files -/

theorem loadSharedDir (env : Env) (s : ShareManager TTH) (filename : List UInt8) (data : Bool) :
    KeepsList s (s.loadSharedDir env filename data) := by
  unfold ShareManager.loadSharedDir
  dsimp only
  split
  · exact of_heads rfl rfl (Nat.le_refl _)
  · split
    · exact of_heads rfl rfl (Nat.le_succ _)
    · exact of_heads (heads_modifyTree _ _
        (SharedDir.keepsRoot_modifyAt (SharedDir.keepsRoot_mapDirs _) _)) rfl (Nat.le_refl _)
  · split
    · exact of_heads rfl rfl (Nat.le_refl _)
    · split
      · exact of_heads rfl rfl (Nat.le_refl _)
      · exact refl s

theorem loadSharedFile [Inhabited TTH] (env : Env) (s : ShareManager TTH)
    (attr : SharedItemAttribs TTH) : KeepsList s (s.loadSharedFile env attr) := by
  unfold ShareManager.loadSharedFile
  dsimp only
  split
  · split
    · exact of_heads (heads_modifyTree _ _ (SharedDir.keepsRoot_modifyAt
        (SharedDir.keepsRoot_mapNode (by exact fun _ => ⟨rfl, rfl⟩)) _)) rfl (Nat.le_refl _)
    · exact of_heads rfl rfl (Nat.le_refl _)
  · exact refl s

private theorem keepsRoot_addLoaded (types : Nat) (size : Int) (p : DirPath) :
    SharedDir.KeepsRoot (SharedDir.modifyAt p (addLoaded types size)) :=
  SharedDir.keepsRoot_modifyAt (SharedDir.keepsRoot_mapNode (by exact fun _ => ⟨rfl, rfl⟩)) p

theorem loadDirEnd (s : ShareManager TTH) (data : Bool) : KeepsList s (s.loadDirEnd data) := by
  unfold ShareManager.loadDirEnd
  split
  · exact refl s
  · exact of_heads rfl rfl (Nat.le_refl _)
  · exact of_heads rfl rfl (Nat.le_refl _)
  · exact of_heads rfl rfl (Nat.le_refl _)
  · exact of_heads (heads_modifyTree _ _ (keepsRoot_addLoaded _ _ _)) rfl (Nat.le_refl _)
  · next ptr _ =>
    split
    · have hheads : (s.shares.map fun i =>
          if data ∧ i.tree = ptr.tree then { i with totalFiles := s.fileCounter } else i).map
            ShareListItem.head = s.shares.map ShareListItem.head := by
        rw [List.map_map]
        apply List.map_congr_left
        intro i _
        rw [Function.comp_apply]
        split <;> rfl
      exact of_heads hheads rfl (Nat.le_refl _)
    · split
      · exact of_heads rfl rfl (Nat.le_refl _)
      · exact of_heads (heads_modifyTree _ _ (keepsRoot_addLoaded _ _ _)) rfl (Nat.le_refl _)

private theorem keepsRoot_addFile (p : DirPath) (size : Int) (typesMask : Nat)
    (f : List (List UInt8 × SharedFile) → List (List UInt8 × SharedFile)) :
    SharedDir.KeepsRoot fun d =>
      (((d.modifyFiles p f).updateSize size p).updateTypes typesMask 0 p).1 := by
  intro d
  have hfiles := SharedDir.keepsRoot_modifyFiles p f d
  have hsize := SharedDir.keepsRoot_updateSize size p (d.modifyFiles p f)
  have htypes := SharedDir.keepsRoot_updateTypes typesMask 0 p
    ((d.modifyFiles p f).updateSize size p)
  constructor
  · rw [htypes.1, hsize.1, hfiles.1]
  · rw [htypes.2, hsize.2, hfiles.2]

theorem addFile (env : Env) (s : ShareManager TTH) (path : List UInt8) (root : TTH)
    (found : Option (Nat × Int)) (currentTime : Nat) :
    KeepsList s (s.addFile env path root found currentTime) := by
  unfold ShareManager.addFile
  split
  · split
    · exact refl s
    · dsimp only
      split
      · exact refl s
      · split
        · exact refl s
        · exact of_heads (heads_modifyTree (s.newFile _) _ (keepsRoot_addFile _ _ _ _)) rfl
            (Nat.le_refl _)
  · exact refl s

theorem fileHashed (env : Env) (s : ShareManager TTH) (n : Nat) (root : TTH)
    (mediaInfo : Option MediaInfo) (currentTime : Nat) :
    KeepsList s (s.fileHashed env n root mediaInfo currentTime) := by
  unfold ShareManager.fileHashed
  split
  · exact refl s
  · dsimp only
    split <;> exact of_heads rfl rfl (Nat.le_refl _)

theorem hashingError (env : Env) (s : ShareManager TTH) (n : Nat) :
    KeepsList s (s.hashingError env n) := by
  unfold ShareManager.hashingError
  split
  · exact refl s
  · dsimp only
    split
    · exact of_heads rfl rfl (Nat.le_refl _)
    · exact of_heads (heads_modifyTree _ _ (SharedDir.keepsRoot_modifyFiles _ _)) rfl
        (Nat.le_refl _)

/-! ### Scanning -/

theorem heads_active {TTH : Type} {sc sc' : Scan TTH} {a a' : ActiveShare}
    (ha : sc.active = some a) (ha' : sc'.active = some a')
    (hrest : (sc'.scanned, sc'.pending, sc'.newNotShared) =
      (sc.scanned, sc.pending, sc.newNotShared))
    (hitem : a'.item.head = a.item.head) : sc'.heads = sc.heads := by
  simp only [Prod.mk.injEq] at hrest
  obtain ⟨hscanned, hpending, hnotShared⟩ := hrest
  unfold Scan.heads
  rw [Scan.newShares_active ha, Scan.newShares_active ha', hscanned, hpending, hnotShared,
    List.map_append, List.map_append, List.map_cons, List.map_cons, hitem]

/-- `enterDir` leaves the list of the scan as its arguments have it. -/
theorem enterDir {sc₀ sc : Scan TTH} {a : ActiveShare} (hsc₀ : s.scan = some sc₀)
    (hheads : Scan.heads { sc with active := some a } = sc₀.heads) (dirPath : DirPath)
    (path : List UInt8) : KeepsList s (s.enterDir sc a dirPath path) := by
  unfold ShareManager.enterDir
  split
  · exact refl s
  · refine of_scan hsc₀ rfl (by rfl) ?_
    rw [← hheads]
    refine heads_active rfl rfl (by rfl) ?_
    exact ShareListItem.head_dir
      (SharedDir.keepsRoot_modifyAt (SharedDir.keepsRoot_mapDirs _) dirPath)

theorem scanShare (s : ShareManager TTH) : KeepsList s s.scanShare := by
  unfold ShareManager.scanShare
  split
  · next sc hsc =>
    dsimp only
    split
    · next sli rest hactive hpending =>
      split
      · exact refl s
      · have hcount : KeepsList s { s with fileCounter := 0 } := of_heads rfl rfl (Nat.le_refl _)
        apply hcount.trans
        apply enterDir
        · exact hsc
        unfold Scan.heads
        rw [Scan.newShares_active rfl, Scan.newShares, hactive, hpending]
        dsimp only [Option.map_none, Option.toList_none]
        rw [List.append_nil]
    · exact refl s
  · exact refl s

section

variable (env : Env)

theorem scanSubdir {sc : Scan TTH} {a : ActiveShare} (hsc : s.scan = some sc)
    (ha : sc.active = some a) (fr : Frame) (frs : List Frame) (dir : SharedDir)
    (e : FileFindItem) : KeepsList s (s.scanSubdir env sc a fr frs dir e) := by
  unfold ShareManager.scanSubdir
  dsimp only
  split
  · exact refl s
  split
  · apply enterDir hsc
    refine heads_active ha rfl (by rfl) ?_
    exact ShareListItem.head_dir
      (SharedDir.keepsRoot_modifyAt (SharedDir.keepsRoot_mapDirs _) _)
  · apply enterDir hsc
    refine heads_active ha rfl (by rfl) ?_
    exact ShareListItem.head_dir
      (SharedDir.keepsRoot_modifyAt (SharedDir.keepsRoot_mapDirs _) _)

theorem scanNewFile [Inhabited TTH] {sc : Scan TTH} {a : ActiveShare} (hsc : s.scan = some sc)
    (ha : sc.active = some a) (fr : Frame) (frs : List Frame) (e : FileFindItem) (oldSize : Int) :
    KeepsList s (s.scanNewFile env sc a fr frs e oldSize) := by
  unfold ShareManager.scanNewFile
  refine of_scan hsc rfl (by rfl) ?_
  refine heads_active ha rfl (by rfl) ?_
  exact ShareListItem.head_dir (SharedDir.keepsRoot_modifyFiles _ _)

theorem scanFile [Inhabited TTH] {sc : Scan TTH} {a : ActiveShare} (hsc : s.scan = some sc)
    (ha : sc.active = some a) (fr : Frame) (frs : List Frame) (dir : SharedDir)
    (e : FileFindItem) : KeepsList s (s.scanFile env sc a fr frs dir e) := by
  unfold ShareManager.scanFile
  dsimp only
  have hcount : KeepsList s { s with fileCounter := s.fileCounter + 1 } :=
    of_heads rfl rfl (Nat.le_refl _)
  split
  · apply hcount.trans
    exact scanNewFile env (by exact hsc) ha fr frs e 0
  split
  · refine of_scan hsc rfl (by rfl) ?_
    exact heads_active ha rfl (by rfl) rfl
  · apply hcount.trans
    exact scanNewFile env (by exact hsc) ha _ frs e _

theorem scanEntry [Inhabited TTH] (s : ShareManager TTH) (e : FileFindItem) :
    KeepsList s (s.scanEntry env e) := by
  unfold ShareManager.scanEntry
  split
  · exact refl s
  next sc hsc =>
  split
  · next a ha =>
    split
    · split
      · exact refl s
      split
      · exact refl s
      split
      · exact scanSubdir env hsc ha _ _ _ e
      · exact scanFile env hsc ha _ _ _ e
    · exact refl s
  · exact refl s

private theorem head_closeDir (s : ShareManager TTH) (sc : Scan TTH) {a : ActiveShare} {fr : Frame}
    {dir : SharedDir}
    (hdir : a.item.dir.find? fr.dirPath = some dir) :
    ShareListItem.head
        { a.item with dir := closeDir fr (eraseNotFound s sc fr dir) a.item.dir } =
      a.item.head := by
  have hconst := SharedDir.root_modifyAt_const hdir
    (e := (eraseNotFound s sc fr dir).dir) rfl rfl
  have hroot : ∀ root : SharedDir, root.node.name = a.item.dir.node.name ∧
      root.node.shareRemoved = a.item.dir.node.shareRemoved →
      ShareListItem.head { a.item with dir := root } = a.item.head := by
    rintro root ⟨hname, hremoved⟩
    rw [ShareListItem.head, ShareListItem.head, ShareListItem.removed, ShareListItem.removed]
    dsimp only
    rw [hname, hremoved]
  apply hroot
  have hsize := SharedDir.keepsRoot_updateSize
  have hupdate := SharedDir.keepsRoot_updateTypes
  have hadd := SharedDir.keepsRoot_addTypes
  have hsized : ∀ delta : Int,
      (if delta = 0 then a.item.dir.modifyAt fr.dirPath fun _ => (eraseNotFound s sc fr dir).dir
        else (a.item.dir.modifyAt fr.dirPath fun _ =>
          (eraseNotFound s sc fr dir).dir).updateSize delta fr.dirPath).node.name =
        a.item.dir.node.name ∧
      (if delta = 0 then a.item.dir.modifyAt fr.dirPath fun _ => (eraseNotFound s sc fr dir).dir
        else (a.item.dir.modifyAt fr.dirPath fun _ =>
          (eraseNotFound s sc fr dir).dir).updateSize delta fr.dirPath).node.shareRemoved =
        a.item.dir.node.shareRemoved := by
    intro delta
    split
    · exact hconst
    · rw [(hsize _ _ _).1, (hsize _ _ _).2]
      exact hconst
  unfold closeDir
  dsimp only
  split
  · constructor
    · exact (hupdate _ _ _ _).1.trans (hsized _).1
    · exact (hupdate _ _ _ _).2.trans (hsized _).2
  · constructor
    · exact (hadd _ _ _ _).1.trans (hsized _).1
    · exact (hadd _ _ _ _).2.trans (hsized _).2

theorem scanDirEnd (s : ShareManager TTH) : KeepsList s s.scanDirEnd := by
  unfold ShareManager.scanDirEnd
  split
  · exact refl s
  next sc hsc =>
  split
  · next a ha =>
    split
    · next fr frs hframes =>
      split
      · exact refl s
      next dir hdir =>
      dsimp only
      split
      · refine of_scan hsc rfl (by rfl) ?_
        refine heads_active ha rfl (by rfl) ?_
        exact head_closeDir _ _ hdir
      · refine of_scan hsc rfl (by rfl) ?_
        have hhead := head_closeDir s sc hdir
        unfold Scan.heads
        rw [Scan.newShares_active ha, Scan.newShares]
        dsimp only [Option.map_none, Option.toList_none]
        rw [List.append_nil, List.append_assoc, List.map_append, List.map_append,
          List.map_append, List.map_cons (a := a.item), ← hhead]
        rfl
    · exact refl s
  · exact refl s

end

end KeepsList

end Blacklink.Share
