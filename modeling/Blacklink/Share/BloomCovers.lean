import Blacklink.Base.Run
import Blacklink.Share.Heads
import Blacklink.Share.SearchMisses
import Blacklink.Share.Trees

/-!
# Which names the Bloom filter knows

The filter is to match every name of the shared trees, so that a search it turns down would have
found nothing. It is kept with every name that is added, and a scan keeps a copy of it for the trees
it builds. There are two ways out. `scanDir` adds the name of the directory it is in instead of the
one of a new subdirectory (`client/ShareManager.cpp:2852`), and a publication that takes the copy
loses what was added to the filter since the copy was made (`client/ShareManager.cpp:3109`).
-/

namespace Blacklink.Share

open Blacklink.Base

variable (env : Env)

/-- The filter matches the names in a directory. -/
def DirNode.Covered (bloom : Bloom) (n : DirNode) : Prop :=
  ∀ name ∈ n.names env, bloom.matchString name = true

/-- The filter matches the names in a tree. -/
def Covers (bloom : Bloom) (d : SharedDir) : Prop := d.All (DirNode.Covered env bloom)

variable {env}

theorem ofContents_covered (env : Env) (bloom : Bloom) :
    SharedDir.OfContents (DirNode.Covered env bloom) := by
  intro n m hname hfiles h
  unfold DirNode.Covered DirNode.names at h ⊢
  rw [← hname, ← hfiles]
  exact h

theorem Covers.mono {b c : Bloom} (hbc : b ≤ c) {d : SharedDir} (h : Covers env b d) :
    Covers env c d :=
  h.imp fun _ hn name hname => BloomFilter.matchString_mono hbc (hn name hname)

theorem covers_iff {bloom : Bloom} {d : SharedDir} :
    Covers env bloom d ↔ ∀ name ∈ d.names env, bloom.matchString name = true := by
  unfold Covers SharedDir.All DirNode.Covered SharedDir.names
  constructor
  · intro h name hname
    obtain ⟨pn, hpn, hname⟩ := List.mem_flatMap.mp hname
    exact h pn hpn name hname
  · intro h pn hpn name hname
    exact h name (List.mem_flatMap.mpr ⟨pn, hpn, hname⟩)

/-! ### Filling a filter -/

private theorem le_adds (names : List (List UInt8)) (b : Bloom) :
    b ≤ names.foldl BloomFilter.add b := by
  induction names generalizing b with
  | nil => exact BloomFilter.le_refl b
  | cons name names ih => exact BloomFilter.le_trans (BloomFilter.le_add b name) (ih _)

private theorem match_adds {names : List (List UInt8)} {name : List UInt8} (h : name ∈ names)
    (b : Bloom) : (names.foldl BloomFilter.add b).matchString name = true := by
  induction names generalizing b with
  | nil => cases h
  | cons n names ih =>
    cases h with
    | head =>
      exact BloomFilter.matchString_mono (le_adds names _) (BloomFilter.matchString_add_self b name)
    | tail _ h => exact ih h _

theorem le_updateBloomDirL (b : Bloom) (d : SharedDir) : b ≤ updateBloomDirL env b d :=
  le_adds _ b

theorem covers_updateBloomDirL (b : Bloom) (d : SharedDir) :
    Covers env (updateBloomDirL env b d) d :=
  covers_iff.mpr fun _ hname => match_adds hname b

private theorem le_updates (is : List ShareListItem) (b : Bloom) :
    b ≤ is.foldl (fun bloom i => updateBloomDirL env bloom i.dir) b := by
  induction is generalizing b with
  | nil => exact BloomFilter.le_refl b
  | cons i is ih => exact BloomFilter.le_trans (le_updateBloomDirL b i.dir) (ih _)

private theorem covers_updates {is : List ShareListItem} {i : ShareListItem} (hi : i ∈ is)
    (b : Bloom) :
    Covers env (is.foldl (fun bloom i => updateBloomDirL env bloom i.dir) b) i.dir := by
  induction is generalizing b with
  | nil => cases hi
  | cons j is ih =>
    cases hi with
    | head => exact (covers_updateBloomDirL b i.dir).mono (le_updates is _)
    | tail _ hi => exact ih hi _

/-! ### Trees that gain a name -/

theorem covers_new {bloom : Bloom} {key name : List UInt8}
    (h : bloom.matchString (env.lowerName name) = true) :
    Covers env bloom (SharedDir.new key name) := by
  apply SharedDir.all_new
  intro n hn
  rw [List.mem_singleton.mp hn]
  exact h

theorem covers_insertDir {bloom : Bloom} {key name : List UInt8}
    (h : bloom.matchString (env.lowerName name) = true) (p : DirPath) {d : SharedDir}
    (hd : Covers env bloom d) :
    Covers env bloom (SharedDir.modifyAt p
      (fun c => c.mapDirs (SharedDir.insertDir (.new key name))) d) :=
  SharedDir.all_modifyAt (fun _ hc => SharedDir.all_insertDir (covers_new h) hc) p hd

/-- A directory whose files come from those it had and from one the filter matches. -/
private theorem covered_files {bloom : Bloom} {n m : DirNode} (hname : m.name = n.name)
    (hfiles : ∀ kf ∈ m.files, kf ∈ n.files ∨ bloom.matchString (env.lowerName kf.2.name) = true)
    (h : n.Covered env bloom) : m.Covered env bloom := by
  intro name hmem
  cases hmem with
  | head =>
    apply h
    rw [DirNode.names, hname]
    exact List.mem_cons_self
  | tail _ hmem =>
    obtain ⟨kf, hkf, rfl⟩ := List.mem_map.mp hmem
    rcases hfiles kf hkf with hkf | hmatch
    · apply h
      exact List.mem_cons_of_mem _ (List.mem_map.mpr ⟨kf, hkf, rfl⟩)
    · exact hmatch

theorem covers_modifyFiles {bloom : Bloom}
    {f : List (List UInt8 × SharedFile) → List (List UInt8 × SharedFile)}
    (hf : ∀ files, ∀ kf ∈ f files,
      kf ∈ files ∨ bloom.matchString (env.lowerName kf.2.name) = true)
    (p : DirPath) {d : SharedDir} (hd : Covers env bloom d) :
    Covers env bloom (SharedDir.modifyFiles p f d) :=
  SharedDir.all_modifyAt
    (fun c hc => SharedDir.all_mapNode hc
      (covered_files (n := c.node) rfl (hf c.node.files) hc.node)) p hd

theorem mem_insertFile {key : List UInt8} {file : SharedFile}
    {files : List (List UInt8 × SharedFile)} {kf : List UInt8 × SharedFile}
    (h : kf ∈ insertFile key file files) : kf ∈ files ∨ kf = (key, file) := by
  unfold insertFile at h
  split at h
  · exact .inl h
  · rcases List.mem_append.mp h with h | h
    · exact .inl h
    · exact .inr (List.mem_singleton.mp h)

theorem mem_assignFile {key : List UInt8} {file : SharedFile}
    {files : List (List UInt8 × SharedFile)} {kf : List UInt8 × SharedFile}
    (h : kf ∈ assignFile key file files) : kf ∈ files ∨ kf = (key, file) := by
  rcases List.mem_append.mp h with h | h
  · exact .inl (List.mem_filter.mp h).1
  · exact .inr (List.mem_singleton.mp h)

theorem SharedDir.shareRemoved_modifyAt {f : SharedDir → SharedDir}
    (hf : ∀ c, (f c).node.shareRemoved = c.node.shareRemoved) (p : DirPath) (d : SharedDir) :
    (modifyAt p f d).node.shareRemoved = d.node.shareRemoved := by
  cases p with
  | nil => exact hf d
  | cons k p => cases d; rfl

theorem SharedDir.shareRemoved_updateSize (deltaSize : Int) (p : DirPath) (d : SharedDir) :
    (updateSize deltaSize p d).node.shareRemoved = d.node.shareRemoved := by
  cases p <;> cases d <;> rfl

theorem SharedDir.shareRemoved_updateTypes (filesMask dirsMask : Nat) (p : DirPath)
    (d : SharedDir) :
    (updateTypes filesMask dirsMask p d).1.node.shareRemoved = d.node.shareRemoved := by
  cases p <;> cases d <;> rw [updateTypes] <;> split <;> rfl

/-! ### The invariant -/

/-- The filter will be built anew, as far as the scan knows. -/
def Scan.rebuilds {TTH : Type} (sc : Scan TTH) : Bool :=
  if sc.active.isSome then sc.scanShareFlags.rebuildBloom else sc.scanAllFlags.rebuildBloom

/-- The filter matches the names of the shares, and the copy of it those of the trees of a scan,
unless that is not going to be used. -/
structure BloomInv {TTH : Type} (env : Env) (s : ShareManager TTH) : Prop where
  live : ∀ i ∈ s.shares, i.removed = false → Covers env s.bloom i.dir
  copied : ∀ sc, s.scan = some sc → sc.rebuilds = false →
    ∀ j ∈ sc.newShares, Covers env sc.bloomNew j.dir

namespace BloomInv

open ShareManager

variable {TTH : Type} {s : ShareManager TTH}

/-- A step that has to do with the shares only. -/
theorem of_shares (h : BloomInv env s) {s' : ShareManager TTH} (hscan : s'.scan = s.scan)
    (hlive : ∀ i ∈ s'.shares, i.removed = false → Covers env s'.bloom i.dir) :
    BloomInv env s' := by
  constructor
  · exact hlive
  · rw [hscan]
    exact h.copied

/-- A step that leaves the shares and the filter as they are. -/
theorem of_scan (h : BloomInv env s) {s' : ShareManager TTH} (hshares : s'.shares = s.shares)
    (hbloom : s'.bloom = s.bloom)
    (hcopied : ∀ sc, s'.scan = some sc → sc.rebuilds = false →
      ∀ j ∈ sc.newShares, Covers env sc.bloomNew j.dir) : BloomInv env s' := by
  constructor
  · rw [hshares, hbloom]
    exact h.live
  · exact hcopied

/-- The names that were matched are matched when something is added. -/
theorem live_mono (h : BloomInv env s) {bloom : Bloom} (hb : s.bloom ≤ bloom) :
    ∀ i ∈ s.shares, i.removed = false → Covers env bloom i.dir :=
  fun i hi hr => (h.live i hi hr).mono hb

theorem live_modifyTree {bloom : Bloom}
    (h : ∀ i ∈ s.shares, i.removed = false → Covers env bloom i.dir) {tree : Nat}
    {f : SharedDir → SharedDir} (hf : ∀ d, Covers env bloom d → Covers env bloom (f d))
    (hr : ∀ d, (f d).node.shareRemoved = d.node.shareRemoved) :
    ∀ i ∈ (s.modifyTree tree f).shares, i.removed = false → Covers env bloom i.dir := by
  intro i hi hremoved
  obtain ⟨j, hj, rfl⟩ := List.mem_map.mp hi
  split at hremoved
  · next htree =>
    rw [if_pos htree]
    exact hf _ (h j hj ((hr j.dir).symm.trans hremoved))
  · next htree =>
    rw [if_neg htree]
    exact h j hj hremoved

theorem live_updateBloomL :
    ∀ i ∈ (updateBloomL env s).shares, i.removed = false →
      Covers env (updateBloomL env s).bloom i.dir := by
  intro i hi hremoved
  apply covers_updates
  exact List.mem_filter.mpr ⟨hi, by rw [hremoved]; rfl⟩

private theorem live_map {f : ShareListItem → ShareListItem} (h : BloomInv env s)
    (hf : ∀ i, (f i).dir = i.dir ∨ (f i).removed = true) :
    ∀ i ∈ s.shares.map f, i.removed = false → Covers env s.bloom i.dir := by
  intro i hi hremoved
  obtain ⟨j, hj, rfl⟩ := List.mem_map.mp hi
  rcases hf j with hdir | htrue
  · rw [hdir]
    apply h.live j hj
    rw [ShareListItem.removed, ← hdir]
    exact hremoved
  · rw [htrue] at hremoved
    cases hremoved

/-! ### Loading -/

theorem updateVersion (h : BloomInv env s) (share : ShareListItem) :
    BloomInv env (s.updateVersion share) := by
  apply h.of_shares
  · rfl
  · apply h.live_map
    intro i
    split
    · exact .inl rfl
    · exact .inl rfl

theorem addExcludeFolderL (h : BloomInv env s) {path : List UInt8} {s' : ShareManager TTH}
    (hs' : s.addExcludeFolderL path = some s') : BloomInv env s' := by
  unfold ShareManager.addExcludeFolderL at hs'
  split at hs'
  · cases hs'
  next share _ =>
  split at hs'
  · cases hs'
  split at hs'
  · cases hs'
  · cases hs'
    exact (h.updateVersion share).of_shares rfl (h.updateVersion share).live

theorem addExcludeFolder (h : BloomInv env s) (path : List UInt8) :
    BloomInv env (s.addExcludeFolder path) := by
  unfold ShareManager.addExcludeFolder
  split
  · exact h
  · next s' hs' =>
    have h' := h.addExcludeFolderL hs'
    exact h'.of_shares rfl h'.live

theorem loadExclude (h : BloomInv env s) (path : List UInt8) :
    BloomInv env ((s.addExcludeFolderL path).getD s) := by
  cases hs' : s.addExcludeFolderL path with
  | none => exact h
  | some s' => exact h.addExcludeFolderL hs'

theorem removeExcludeFolder (h : BloomInv env s) (path : List UInt8) :
    BloomInv env (s.removeExcludeFolder path) := by
  unfold ShareManager.removeExcludeFolder
  dsimp only
  split
  · split
    · exact h.of_shares rfl h.live
    · apply BloomInv.updateVersion
      exact h.of_shares rfl h.live
  · exact h

private theorem live_append {is : List ShareListItem}
    (his : ∀ i ∈ is, i.removed = false → Covers env s.bloom i.dir) {name realPath : List UInt8}
    {tree : Nat} {version : Int} :
    ∀ i ∈ is ++ [⟨realPath, tree, .new [] name, version, 0, .none⟩], i.removed = false →
      Covers env (s.bloom.add (env.lowerName name)) i.dir := by
  intro i hi hremoved
  rcases List.mem_append.mp hi with hi | hi
  · exact (his i hi hremoved).mono (BloomFilter.le_add _ _)
  · rw [List.mem_singleton.mp hi]
    exact covers_new (BloomFilter.matchString_add_self _ _)

theorem loadShare [Inhabited TTH] (h : BloomInv env s) (realPath virtualAttr : List UInt8)
    (isExist : Bool) : BloomInv env (s.loadShare env realPath virtualAttr isExist) := by
  unfold ShareManager.loadShare
  split
  · exact h
  dsimp only
  generalize validateVirtual _ = virtualName
  split
  · exact h
  · exact h.of_shares rfl (live_append h.live)

theorem loadSharedDir [Inhabited TTH] (h : BloomInv env s) (filename : List UInt8) (data : Bool) :
    BloomInv env (s.loadSharedDir env filename data) := by
  unfold ShareManager.loadSharedDir
  split
  · exact h.of_shares rfl h.live
  · have hlive := h.live_mono (BloomFilter.le_add s.bloom (env.lowerName filename))
    have hmatch := BloomFilter.matchString_add_self s.bloom (env.lowerName filename)
    dsimp only
    split
    · exact h.of_shares rfl hlive
    · apply h.of_shares
      · rfl
      · apply live_modifyTree hlive
        · exact fun d hd => covers_insertDir hmatch _ hd
        · exact SharedDir.shareRemoved_modifyAt (fun c => by cases c; rfl) _
  · split
    · exact h.of_shares rfl h.live
    split
    · exact h.of_shares rfl h.live
    · exact h

theorem loadSharedFile [Inhabited TTH] (h : BloomInv env s) (attr : SharedItemAttribs TTH) :
    BloomInv env (s.loadSharedFile env attr) := by
  unfold ShareManager.loadSharedFile
  split
  · have hlive := h.live_mono (BloomFilter.le_add s.bloom (env.lowerName attr.name))
    have hmatch := BloomFilter.matchString_add_self s.bloom (env.lowerName attr.name)
    dsimp only
    split
    · apply h.of_shares
      · rfl
      · apply live_modifyTree hlive
        · intro d hd
          refine SharedDir.all_modifyAt (fun c hc => SharedDir.all_mapNode hc ?_) _ hd
          refine covered_files (n := c.node) ?_ ?_ hc.node
          · rfl
          intro kf hkf
          rcases mem_insertFile hkf with hkf | rfl
          · exact .inl hkf
          · exact .inr hmatch
        · exact SharedDir.shareRemoved_modifyAt (fun c => by cases c; rfl) _
    · exact h.of_shares rfl hlive
  · exact h

private theorem live_addLoaded (h : BloomInv env s) (tree : Nat) (p : DirPath) (types : Nat)
    (size : Int) :
    ∀ i ∈ (s.modifyTree tree (SharedDir.modifyAt p (addLoaded types size))).shares,
      i.removed = false → Covers env s.bloom i.dir := by
  apply live_modifyTree h.live
  · intro d hd
    apply SharedDir.all_modifyAt _ p hd
    exact fun c hc =>
      SharedDir.all_mapNode_of (ofContents_covered _ _) (by exact fun _ => ⟨rfl, rfl⟩) hc
  · exact SharedDir.shareRemoved_modifyAt (fun c => by cases c; rfl) _

theorem loadDirEnd (h : BloomInv env s) (data : Bool) : BloomInv env (s.loadDirEnd data) := by
  unfold ShareManager.loadDirEnd
  split
  · exact h
  · exact h.of_shares rfl h.live
  · exact h.of_shares rfl h.live
  · exact h.of_shares rfl h.live
  · exact h.of_shares rfl (h.live_addLoaded _ _ _ _)
  · split
    · apply h.of_shares
      · rfl
      · apply h.live_map
        intro i
        split
        · exact .inl rfl
        · exact .inl rfl
    · split
      · exact h.of_shares rfl h.live
      · exact h.of_shares rfl (h.live_addLoaded _ _ _ _)

/-! ### Operations -/

theorem addDirectory [Inhabited TTH] (h : BloomInv env s) (realPath virtualName : List UInt8)
    (accepted : Bool) : BloomInv env (s.addDirectory env realPath virtualName accepted) := by
  unfold ShareManager.addDirectory
  split
  · exact h
  split
  · exact h
  split
  · exact h
  · apply h.of_shares
    · rfl
    · apply live_append
      apply h.live_map
      intro i
      split
      · right
        cases hdir : i.dir
        simp [ShareListItem.removed, SharedDir.mapNode]
      · exact .inl rfl

theorem removeDirectory [Inhabited TTH] (h : BloomInv env s) (realPath : List UInt8) :
    BloomInv env (s.removeDirectory env realPath) := by
  unfold ShareManager.removeDirectory
  split
  · exact h
  split
  · exact h
  · apply h.of_shares
    · rfl
    · apply h.live_map
      intro i
      split
      · right
        cases hdir : i.dir
        simp [ShareListItem.removed, SharedDir.mapNode]
      · exact .inl rfl

theorem renameDirectory (h : BloomInv env s) (realPath virtualName : List UInt8) :
    BloomInv env (s.renameDirectory env realPath virtualName) := by
  unfold ShareManager.renameDirectory
  dsimp only
  split
  · exact h
  split
  · exact h
  split
  · exact h
  · exact h.of_shares rfl live_updateBloomL

theorem addFile (h : BloomInv env s) (path : List UInt8) (root : TTH) (found : Option (Nat × Int))
    (currentTime : Nat) : BloomInv env (s.addFile env path root found currentTime) := by
  unfold ShareManager.addFile
  split
  · split
    · exact h
    dsimp only
    split
    · exact h
    split
    · exact h
    · generalize path.drop _ = fileName
      have hlive := h.live_mono (BloomFilter.le_add s.bloom (env.lowerName fileName))
      have hmatch := BloomFilter.matchString_add_self s.bloom (env.lowerName fileName)
      have hof := ofContents_covered env (s.bloom.add (env.lowerName fileName))
      apply h.of_shares
      · rfl
      · dsimp only
        apply live_modifyTree (s := s.newFile _) hlive
        · intro d hd
          apply SharedDir.all_updateTypes hof
          apply SharedDir.all_updateSize hof
          apply covers_modifyFiles _ _ hd
          intro files kf hkf
          rcases mem_insertFile hkf with hkf | rfl
          · exact .inl hkf
          · exact .inr hmatch
        · intro d
          rw [SharedDir.shareRemoved_updateTypes, SharedDir.shareRemoved_updateSize]
          exact SharedDir.shareRemoved_modifyAt (fun c => by cases c; rfl) _ d
  · exact h

theorem fileHashed (h : BloomInv env s) (n : Nat) (root : TTH) (mediaInfo : Option MediaInfo)
    (currentTime : Nat) : BloomInv env (s.fileHashed env n root mediaInfo currentTime) := by
  unfold ShareManager.fileHashed
  split
  · exact h
  dsimp only
  split
  · exact h.of_shares rfl h.live
  · exact h.of_shares rfl h.live

theorem hashingError (h : BloomInv env s) (n : Nat) : BloomInv env (s.hashingError env n) := by
  unfold ShareManager.hashingError
  split
  · exact h
  dsimp only
  split
  · exact h.of_shares rfl h.live
  · apply h.of_shares
    · rfl
    · apply live_modifyTree h.live
      · intro d hd
        apply covers_modifyFiles _ _ hd
        exact fun files kf hkf => .inl (List.mem_filter.mp hkf).1
      · exact SharedDir.shareRemoved_modifyAt (fun c => by cases c; rfl) _

/-! ### Scanning -/

private theorem rebuilds_none {sc : Scan TTH} (h : sc.active = none) :
    sc.rebuilds = sc.scanAllFlags.rebuildBloom := by
  rw [Scan.rebuilds, h]
  rfl

private theorem rebuilds_some {sc : Scan TTH} {a : ActiveShare} (h : sc.active = some a) :
    sc.rebuilds = sc.scanShareFlags.rebuildBloom := by
  rw [Scan.rebuilds, h]
  rfl

private theorem forall_newShares {sc : Scan TTH} {P : ShareListItem → Prop} :
    (∀ j ∈ sc.newShares, P j) ↔
      (∀ j ∈ sc.scanned, P j) ∧ (∀ a, sc.active = some a → P a.item) ∧ ∀ j ∈ sc.pending, P j := by
  unfold Scan.newShares
  rw [List.forall_mem_append, List.forall_mem_append, and_assoc]
  cases sc.active with
  | none => simp
  | some a => simp

/-- What a scan with an active share has to satisfy. -/
private theorem copied_active {sc : Scan TTH} {a : ActiveShare} (ha : sc.active = some a)
    (h : sc.scanShareFlags.rebuildBloom = false →
      (∀ j ∈ sc.scanned, Covers env sc.bloomNew j.dir) ∧ Covers env sc.bloomNew a.item.dir ∧
        ∀ j ∈ sc.pending, Covers env sc.bloomNew j.dir) :
    sc.rebuilds = false → ∀ j ∈ sc.newShares, Covers env sc.bloomNew j.dir := by
  intro hrebuilds
  rw [rebuilds_some ha] at hrebuilds
  obtain ⟨hscanned, hitem, hpending⟩ := h hrebuilds
  rw [forall_newShares]
  refine ⟨hscanned, ?_, hpending⟩
  intro b hb
  rw [ha] at hb
  cases hb
  exact hitem

private theorem of_copied_active (h : BloomInv env s) {sc : Scan TTH} (hsc : s.scan = some sc)
    {a : ActiveShare} (ha : sc.active = some a)
    (hflag : sc.scanShareFlags.rebuildBloom = false) :
    (∀ j ∈ sc.scanned, Covers env sc.bloomNew j.dir) ∧ Covers env sc.bloomNew a.item.dir ∧
      ∀ j ∈ sc.pending, Covers env sc.bloomNew j.dir := by
  have hnew := h.copied sc hsc ((rebuilds_some ha).trans hflag)
  rw [forall_newShares] at hnew
  exact ⟨hnew.1, hnew.2.1 a ha, hnew.2.2⟩

private theorem covers_copyShares {bloom : Bloom} (is : List ShareListItem)
    (h : ∀ i ∈ is, i.removed = false → Covers env bloom i.dir) (n : Nat) :
    ∀ j ∈ copyShares n is, Covers env bloom j.dir := by
  intro j hj
  obtain ⟨i, hi, hremoved, hdir⟩ := mem_copyShares hj
  rw [hdir]
  exact SharedDir.all_copyTree (ofContents_covered _ _) (h i hi hremoved)

theorem scanStart (h : BloomInv env s) (force : Bool) (types : Nat) :
    BloomInv env (s.scanStart force types) := by
  unfold ShareManager.scanStart
  split
  · exact h
  · apply h.of_scan
    · rfl
    · rfl
    intro sc hsc _
    cases hsc
    rw [forall_newShares]
    refine ⟨fun j hj => absurd hj List.not_mem_nil, fun a ha => ?_, covers_copyShares _ h.live _⟩
    cases ha

theorem covers_setDirsNotFound {bloom : Bloom} {d : SharedDir} (h : Covers env bloom d) :
    Covers env bloom d.setDirsNotFound := by
  apply SharedDir.all_mapDirs h
  intro c hc
  obtain ⟨e, he, rfl⟩ := List.mem_map.mp hc
  exact SharedDir.all_mapNode_of (ofContents_covered _ _) (by exact fun _ => ⟨rfl, rfl⟩)
    (h.dirs e he)

theorem covers_clearDirNotFound {bloom : Bloom} (key : List UInt8) {d : SharedDir}
    (h : Covers env bloom d) : Covers env bloom (d.clearDirNotFound key) := by
  apply SharedDir.all_mapDirs h
  apply SharedDir.all_modifyChild _ h.dirs
  exact fun c hc =>
    SharedDir.all_mapNode_of (ofContents_covered _ _) (by exact fun _ => ⟨rfl, rfl⟩) hc

/-- Entering a directory only sets flags. -/
theorem enterDir (h : BloomInv env s) {sc : Scan TTH} {a : ActiveShare}
    (hcopied : sc.scanShareFlags.rebuildBloom = false →
      (∀ j ∈ sc.scanned, Covers env sc.bloomNew j.dir) ∧ Covers env sc.bloomNew a.item.dir ∧
        ∀ j ∈ sc.pending, Covers env sc.bloomNew j.dir) (dirPath : DirPath) (path : List UInt8) :
    BloomInv env (s.enterDir sc a dirPath path) := by
  unfold ShareManager.enterDir
  split
  · exact h
  · apply h.of_scan
    · rfl
    · rfl
    intro sc' hsc'
    cases hsc'
    apply copied_active rfl
    intro hflag
    obtain ⟨hscanned, hitem, hpending⟩ := hcopied hflag
    exact ⟨hscanned, SharedDir.all_modifyAt (fun _ => covers_setDirsNotFound) dirPath hitem,
      hpending⟩

theorem scanShare (h : BloomInv env s) : BloomInv env s.scanShare := by
  unfold ShareManager.scanShare
  split
  · next sc hsc =>
    split
    · next sli rest hactive hpending =>
      split
      · exact h
      · have h' : BloomInv env { s with fileCounter := 0 } := h.of_shares rfl h.live
        apply h'.enterDir
        intro hflag
        have hnew := h.copied sc hsc ((rebuilds_none hactive).trans hflag)
        rw [forall_newShares, hpending, List.forall_mem_cons] at hnew
        exact ⟨hnew.1, hnew.2.2⟩
    · exact h
  · exact h

theorem scanNewFile [Inhabited TTH] (h : BloomInv env s) {sc : Scan TTH} {a : ActiveShare}
    (hsc : s.scan = some sc) (ha : sc.active = some a) (fr : Frame) (frs : List Frame)
    (e : FileFindItem) (oldSize : Int) :
    BloomInv env (s.scanNewFile env sc a fr frs e oldSize) := by
  unfold ShareManager.scanNewFile
  apply h.of_scan
  · rfl
  · rfl
  intro sc' hsc'
  cases hsc'
  apply copied_active rfl
  intro hflag
  have hflag : sc.scanShareFlags.rebuildBloom = false := hflag
  obtain ⟨hscanned, hitem, hpending⟩ := h.of_copied_active hsc ha hflag
  have hle := BloomFilter.le_add sc.bloomNew (env.lowerName e.fileName)
  simp only [hflag, Bool.false_eq_true, if_false]
  refine ⟨fun j hj => (hscanned j hj).mono hle, ?_, fun j hj => (hpending j hj).mono hle⟩
  apply covers_modifyFiles _ _ (hitem.mono hle)
  intro files kf hkf
  rcases mem_assignFile hkf with hkf | rfl
  · exact .inl hkf
  · exact .inr (BloomFilter.matchString_add_self _ _)

theorem scanFile [Inhabited TTH] (h : BloomInv env s) {sc : Scan TTH} {a : ActiveShare}
    (hsc : s.scan = some sc) (ha : sc.active = some a) (fr : Frame) (frs : List Frame)
    (dir : SharedDir) (e : FileFindItem) :
    BloomInv env (s.scanFile env sc a fr frs dir e) := by
  have h' : BloomInv env { s with fileCounter := s.fileCounter + 1 } := h.of_shares rfl h.live
  unfold ShareManager.scanFile
  dsimp only
  split
  · exact h'.scanNewFile hsc ha fr frs e 0
  split
  · apply h.of_scan
    · rfl
    · rfl
    intro sc' hsc'
    cases hsc'
    have hcopied := h.of_copied_active hsc ha
    apply copied_active rfl
    intro hflag
    exact hcopied hflag
  · exact h'.scanNewFile hsc ha _ frs e _

end BloomInv

/-! ### The steps that may miss a name -/

/-- The directory an entry introduces is matched already, unless the filter will be built anew. -/
def NewSubdirMatched {TTH : Type} (env : Env) (s : ShareManager TTH) (e : FileFindItem) : Prop :=
  ∀ sc a fr frs dir, s.scan = some sc → sc.active = some a → a.frames = fr :: frs →
    (s.stopScanning || e.skipped || e.fileName = []) = false →
    a.item.dir.find? fr.dirPath = some dir → e.isDirectory = true →
    sc.isDirectoryExcludedL (fr.path ++ e.fileName ++ [pathSeparator]) = false →
    dir.child? (env.toLower e.fileName) = none → sc.scanShareFlags.rebuildBloom = false →
    sc.bloomNew.matchString (env.lowerName e.fileName) = true

/-- What has been added to the filter since it was copied is in the copy, unless the filter is
built anew. -/
def PublishKeeps {TTH : Type} (env : Env) (s : ShareManager TTH) : Prop :=
  ∀ sc, s.scan = some sc → sc.active = none →
    (s.publishedFlags env sc).rebuildBloom = false → s.bloom ≤ sc.bloomNew

namespace BloomInv

variable {TTH : Type} {s : ShareManager TTH}

theorem scanSubdir (h : BloomInv env s) {sc : Scan TTH} {a : ActiveShare}
    {fr : Frame} {frs : List Frame} {dir : SharedDir} {e : FileFindItem}
    (hsc : s.scan = some sc) (ha : sc.active = some a)
    (hnew : sc.isDirectoryExcludedL (fr.path ++ e.fileName ++ [pathSeparator]) = false →
      dir.child? (env.toLower e.fileName) = none → sc.scanShareFlags.rebuildBloom = false →
      sc.bloomNew.matchString (env.lowerName e.fileName) = true) :
    BloomInv env (s.scanSubdir env sc a fr frs dir e) := by
  unfold ShareManager.scanSubdir
  dsimp only
  split
  · exact h
  next hexcluded =>
  rw [Bool.not_eq_true] at hexcluded
  split
  · apply h.enterDir
    intro hflag
    obtain ⟨hscanned, hitem, hpending⟩ := h.of_copied_active hsc ha hflag
    exact ⟨hscanned, SharedDir.all_modifyAt (fun _ => covers_clearDirNotFound _) _ hitem, hpending⟩
  · next hchild =>
    apply h.enterDir
    intro hflag
    have hflag : sc.scanShareFlags.rebuildBloom = false := hflag
    obtain ⟨hscanned, hitem, hpending⟩ := h.of_copied_active hsc ha hflag
    have hle := BloomFilter.le_add sc.bloomNew (env.lowerName dir.node.name)
    have hmatch := BloomFilter.matchString_mono hle (hnew hexcluded hchild hflag)
    simp only [hflag, Bool.false_eq_true, if_false]
    exact ⟨fun j hj => (hscanned j hj).mono hle, covers_insertDir hmatch _ (hitem.mono hle),
      fun j hj => (hpending j hj).mono hle⟩

theorem scanEntry [Inhabited TTH] (h : BloomInv env s) {e : FileFindItem}
    (hok : NewSubdirMatched env s e) : BloomInv env (s.scanEntry env e) := by
  unfold ShareManager.scanEntry
  split
  · exact h
  next sc hsc =>
  split
  · next a ha =>
    split
    · next fr frs hframes =>
      split
      · exact h
      next hlooks =>
      rw [Bool.not_eq_true] at hlooks
      split
      · exact h
      next dir hdir =>
      split
      · next hisdir =>
        exact h.scanSubdir hsc ha (hok sc a fr frs dir hsc ha hframes hlooks hdir hisdir)
      · exact h.scanFile hsc ha fr frs dir e
    · exact h
  · exact h

private theorem covers_eraseNotFound {bloom : Bloom} {dir : SharedDir}
    (h : Covers env bloom dir) (sc : Scan TTH) (fr : Frame) :
    Covers env bloom (ShareManager.eraseNotFound s sc fr dir).dir := by
  unfold ShareManager.eraseNotFound
  dsimp only
  refine SharedDir.all_mk.mpr ⟨?_, ?_⟩
  · refine covered_files (n := dir.node) ?_ ?_ h.node
    · rfl
    · intro kf hkf
      left
      dsimp only at hkf
      split at hkf
      · exact (List.mem_filter.mp hkf).1
      · exact hkf
  · intro c hc
    split at hc
    · exact h.dirs c (List.mem_filter.mp hc).1
    · exact h.dirs c hc

private theorem rebuild_of_erased {dir : SharedDir} {sc : Scan TTH} {fr : Frame}
    (h : (ShareManager.eraseNotFound s sc fr dir).flags.rebuildBloom = false) :
    sc.scanShareFlags.rebuildBloom = false := (Bool.or_eq_false_iff.mp h).1

private theorem covers_closeDir {bloom : Bloom} {fr : Frame} {erased : ShareManager.Erased}
    {root : SharedDir} (h : Covers env bloom root) (hdir : Covers env bloom erased.dir) :
    Covers env bloom (ShareManager.closeDir fr erased root) := by
  have hof := ofContents_covered env bloom
  have hmodified := SharedDir.all_modifyAt (fun _ _ => hdir) fr.dirPath h
  have hsize : Covers env bloom
      (if erased.deltaSize = 0 then SharedDir.modifyAt fr.dirPath (fun _ => erased.dir) root
        else SharedDir.updateSize erased.deltaSize fr.dirPath
          (SharedDir.modifyAt fr.dirPath (fun _ => erased.dir) root)) := by
    split
    · exact hmodified
    · exact SharedDir.all_updateSize hof _ _ hmodified
  unfold ShareManager.closeDir
  dsimp only
  split
  · exact SharedDir.all_updateTypes hof _ _ _ hsize
  · exact SharedDir.all_addTypes hof _ _ _ hsize

theorem scanDirEnd (h : BloomInv env s) : BloomInv env s.scanDirEnd := by
  unfold ShareManager.scanDirEnd
  split
  · exact h
  next sc hsc =>
  split
  · next a ha =>
    split
    · next fr frs hframes =>
      split
      · exact h
      next dir hdir =>
      have hroot : ∀ bloom : Bloom, Covers env bloom a.item.dir →
          Covers env bloom
            (ShareManager.closeDir fr (s.eraseNotFound sc fr dir) a.item.dir) := by
        intro bloom hitem
        exact covers_closeDir hitem (covers_eraseNotFound (SharedDir.all_find? hdir hitem) sc fr)
      dsimp only
      split
      · apply h.of_scan
        · rfl
        · rfl
        intro sc' hsc'
        cases hsc'
        apply copied_active rfl
        intro hflag
        obtain ⟨hscanned, hitem, hpending⟩ :=
          h.of_copied_active hsc ha (rebuild_of_erased hflag)
        exact ⟨hscanned, hroot _ hitem, hpending⟩
      · apply h.of_scan
        · rfl
        · rfl
        intro sc' hsc' hrebuilds
        cases hsc'
        have hflag : (s.eraseNotFound sc fr dir).flags.rebuildBloom = false := by
          rw [rebuilds_none rfl] at hrebuilds
          exact (Bool.or_eq_false_iff.mp hrebuilds).2
        obtain ⟨hscanned, hitem, hpending⟩ :=
          h.of_copied_active hsc ha (rebuild_of_erased hflag)
        rw [forall_newShares]
        refine ⟨?_, ?_, hpending⟩
        · intro j hj
          rcases List.mem_append.mp hj with hj | hj
          · exact hscanned j hj
          · rw [List.mem_singleton.mp hj]
            exact hroot _ hitem
        · intro b hb
          cases hb
    · exact h
  · exact h

/-- A share that is published has its old tree or one of the scan. -/
theorem mem_publishShares {is js : List ShareListItem} {upd : Bool} {i : ShareListItem}
    (hi : i ∈ (publishShares env is js upd).shares) :
    (∃ k ∈ is, k.removed = false ∧ i.dir = k.dir) ∨ ∃ j ∈ js, i.dir = j.dir := by
  induction is generalizing js upd with
  | nil => cases hi
  | cons k is ih =>
    have htail : ∀ {js' : List ShareListItem} {upd' : Bool}, js' ⊆ js →
        i ∈ (publishShares env is js' upd').shares →
        (∃ l ∈ k :: is, l.removed = false ∧ i.dir = l.dir) ∨ ∃ j ∈ js, i.dir = j.dir := by
      intro js' upd' hsub hi
      rcases ih hi with ⟨l, hl, hdir⟩ | ⟨j, hj, hdir⟩
      · exact .inl ⟨l, List.mem_cons_of_mem k hl, hdir⟩
      · exact .inr ⟨j, hsub hj, hdir⟩
    rw [publishShares] at hi
    split at hi
    · exact htail (List.Subset.refl js) hi
    next hremoved =>
    rw [Bool.not_eq_true] at hremoved
    split at hi
    · rcases List.mem_cons.mp hi with rfl | hi
      · exact .inl ⟨_, List.mem_cons_self, hremoved, rfl⟩
      · exact htail (List.Subset.refl js) hi
    · next j hj =>
      split at hi
      · rcases List.mem_cons.mp hi with rfl | hi
        · exact .inr ⟨j, List.mem_of_find?_eq_some hj, rfl⟩
        · exact htail List.eraseP_subset hi
      · rcases List.mem_cons.mp hi with rfl | hi
        · exact .inl ⟨_, List.mem_cons_self, hremoved, rfl⟩
        · exact htail List.eraseP_subset hi

private theorem rebuilds_of_published {sc : Scan TTH} (hactive : sc.active = none)
    (h : (s.publishedFlags env sc).rebuildBloom = false) : sc.rebuilds = false := by
  rw [rebuilds_none hactive]
  unfold ShareManager.publishedFlags at h
  split at h
  · exact h
  · exact (Bool.or_eq_false_iff.mp h).1

theorem publish (h : BloomInv env s) {sc : Scan TTH} (hsc : s.scan = some sc)
    (hactive : sc.active = none)
    (hok : (s.publishedFlags env sc).rebuildBloom = false → s.bloom ≤ sc.bloomNew) :
    BloomInv env (s.publish env sc) := by
  unfold ShareManager.publish
  dsimp only
  split
  · constructor
    · exact live_updateBloomL
    · intro sc' hsc'
      cases hsc'
  · next hflag =>
    rw [Bool.not_eq_true] at hflag
    constructor
    · intro i hi _
      rcases mem_publishShares hi with ⟨k, hk, hremoved, hdir⟩ | ⟨j, hj, hdir⟩
      · rw [hdir]
        exact (h.live k hk hremoved).mono (hok hflag)
      · rw [hdir]
        exact h.copied sc hsc (rebuilds_of_published hactive hflag) j hj
    · intro sc' hsc'
      cases hsc'

theorem scanPublish (h : BloomInv env s) (hok : PublishKeeps env s) :
    BloomInv env (s.scanPublish env) := by
  unfold ShareManager.scanPublish
  split
  · exact h
  next sc hsc =>
  split
  · next hready =>
    have hactive : sc.active = none := by
      rw [Bool.and_eq_true, Option.isNone_iff_eq_none] at hready
      exact hready.1
    exact h.publish hsc hactive (hok sc hsc hactive)
  · exact h

/-! ### Runs -/

theorem new [Inhabited TTH] : BloomInv env (ShareManager.new : ShareManager TTH) where
  live := fun _ hi => absurd hi List.not_mem_nil
  copied := fun _ hsc => by cases hsc

end BloomInv

/-- The condition on an event under which the filter keeps matching every name. -/
def KeepsNames {TTH : Type} (env : Env) (s : ShareManager TTH) : Event TTH → Prop
  | .op (.scanEntry e) => NewSubdirMatched env s e
  | .op .scanPublish => PublishKeeps env s
  | _ => True

theorem BloomInv.perform {TTH : Type} [Inhabited TTH] {s : ShareManager TTH} (h : BloomInv env s)
    (o : Op TTH) (hok : KeepsNames env s (.op o)) : BloomInv env (s.perform env o) := by
  cases o with
  | addDirectory realPath virtualName accepted => exact h.addDirectory realPath virtualName accepted
  | removeDirectory realPath => exact h.removeDirectory realPath
  | renameDirectory realPath virtualName => exact h.renameDirectory realPath virtualName
  | addExcludeFolder path => exact h.addExcludeFolder path
  | removeExcludeFolder path => exact h.removeExcludeFolder path
  | addFile path root found currentTime => exact h.addFile path root found currentTime
  | scanStart force types => exact h.scanStart force types
  | scanShare => exact h.scanShare
  | scanEntry e => exact h.scanEntry hok
  | scanDirEnd => exact h.scanDirEnd
  | scanPublish => exact h.scanPublish hok
  | fileHashed n root mediaInfo currentTime => exact h.fileHashed n root mediaInfo currentTime
  | hashingError n => exact h.hashingError n
  | hashingStopped n => exact h.of_shares rfl h.live
  | shutdown => exact h.of_shares rfl h.live

theorem BloomInv.step {TTH : Type} [Inhabited TTH] {s : ShareManager TTH} (h : BloomInv env s)
    (e : Event TTH) (hok : KeepsNames env s e) : BloomInv env (s.step env e) := by
  cases e with
  | loadShare realPath virtualAttr isExist => exact h.loadShare realPath virtualAttr isExist
  | loadExclude path => exact h.loadExclude _
  | loadDir filename data => exact h.loadSharedDir filename data
  | loadFile attr => exact h.loadSharedFile attr
  | loadDirEnd data => exact h.loadDirEnd data
  | op o => exact h.perform o hok

theorem BloomInv.run {TTH : Type} [Inhabited TTH] {es : List (Event TTH)}
    (h : Within (KeepsNames env) (ShareManager.step env) ShareManager.new es) :
    BloomInv env (Base.run (ShareManager.step env) ShareManager.new es) :=
  h.invariant (BloomInv env) (fun _ e hs hok => BloomInv.step hs e hok) BloomInv.new

/-! ### Names and searches -/

/-- The filter matches every string that occurs in a lower case name of a share. -/
def NamesMatched {TTH : Type} (env : Env) (s : ShareManager TTH) : Prop :=
  ∀ i ∈ s.shares, i.removed = false → ∀ name ∈ i.dir.names env, ∀ t, t <:+: name →
    s.bloom.matchString t = true

/-- A search the filter turns down finds nothing in the trees, in an NMDC hub or in an ADC one. -/
def NeverSuppresses {TTH : Type} [Inhabited TTH] (env : Env) (s : ShareManager TTH) : Prop :=
  (∀ sp : NmdcSearchParam, s.bloom.matchList (ShareManager.filterTokens env sp.filter) = false →
    s.searchTrees env sp = []) ∧
  ∀ sp : AdcSearchParam, (∃ k ∈ sp.included, s.bloom.matchString k.pattern = false) →
    s.searchAdcTrees env sp = []

namespace BloomInv

variable {TTH : Type} {s : ShareManager TTH}

theorem namesMatched (h : BloomInv env s) : NamesMatched env s := by
  intro i hi hremoved name hname t ht
  exact BloomFilter.matchString_of_infix ht (covers_iff.mp (h.live i hi hremoved) name hname)

/-- A pattern that is not matched is in no name of the shares of a group. -/
private theorem misses (h : BloomInv env s) {k : StringSearch}
    (hk : s.bloom.matchString k.pattern = false) (sg : ShareGroup TTH) :
    ∀ sli ∈ s.groupShares env sg, sli.dir.All (DirNode.Misses env k) := by
  intro sli hsli
  obtain ⟨hsli, hgroup⟩ := List.mem_filter.mp hsli
  rw [Bool.and_eq_true, Bool.not_eq_true'] at hgroup
  refine SharedDir.All.imp ?_ (h.live sli hsli hgroup.1)
  intro n hn name hname hinfix
  rw [BloomFilter.matchString_of_infix hinfix (hn name hname)] at hk
  cases hk

theorem neverSuppresses [Inhabited TTH] (hT : Text.LowersCase env.towlower) (h : BloomInv env s) :
    NeverSuppresses env s := by
  constructor
  · intro sp hsp
    have hex : ∃ t ∈ ShareManager.filterTokens env sp.filter, s.bloom.matchString t = false := by
      rw [← Bool.not_eq_true, BloomFilter.matchList_iff] at hsp
      push Not at hsp
      obtain ⟨t, ht, hmatch⟩ := hsp
      exact ⟨t, ht, (Bool.not_eq_true _).mp hmatch⟩
    obtain ⟨t, ht, hmatch⟩ := hex
    have hpattern : StringSearch.new env t = ⟨t⟩ := by
      rw [StringSearch.new, Env.toLower, Text.toLower_of_mem_tokens hT (by decide) ht]
    have hne : t ≠ [] := by
      rintro rfl
      cases hmatch
    have hmem : (⟨t⟩ : StringSearch) ∈ ShareManager.filterPatterns env sp.filter := by
      rw [← hpattern]
      exact List.mem_map.mpr ⟨t, List.mem_filter.mpr ⟨ht, by simpa using hne⟩, rfl⟩
    unfold ShareManager.searchTrees
    split
    · rfl
    · rfl
    · next sg _ _ => exact searchShares_of_misses (h.misses hmatch sg) hmem []
  · rintro sp ⟨k, hk, hmatch⟩
    unfold ShareManager.searchAdcTrees
    split
    · rfl
    · next sg _ => exact (searchAdcShares_of_misses (h.misses hmatch sg) ⟨[], sp⟩ hk).1

end BloomInv

/-- In every run where a new subdirectory is matched already and no name is added to the filter
between its copy and the publication of that, the filter matches every string that occurs in a name,
and turns down no search that would find something. -/
theorem namesMatched_run {TTH : Type} [Inhabited TTH] (env : Env)
    (hT : Text.LowersCase env.towlower) (es : List (Event TTH))
    (h : Within (KeepsNames env) (ShareManager.step env) ShareManager.new es) :
    NamesMatched env (Base.run (ShareManager.step env) ShareManager.new es) ∧
      NeverSuppresses env (Base.run (ShareManager.step env) ShareManager.new es) :=
  ⟨(BloomInv.run h).namesMatched, (BloomInv.run h).neverSuppresses hT⟩

/-! ### A new subdirectory -/

/-- A scan of a share with a new subdirectory. -/
def scanOfSubdir (name : List UInt8) : List (Event Nat) :=
  [.loadShare (Text.ascii "/data/") (Text.ascii "Share") true, .op (.scanStart false 0),
    .op .scanShare, .op (.scanEntry ⟨name, true, false, 0, 0⟩), .op .scanDirEnd, .op .scanDirEnd,
    .op .scanPublish]

/-- The name of the directory a new subdirectory is in is added to the filter, its own is not. -/
theorem not_namesMatched_new_subdirectory :
    ¬ NamesMatched Env.ascii
      (Base.run (ShareManager.step Env.ascii) ShareManager.new
        (scanOfSubdir (Text.ascii "Music"))) := by
  intro h
  have hname : (Base.run (ShareManager.step Env.ascii) ShareManager.new
      (scanOfSubdir (Text.ascii "Music"))).shares.any (fun i =>
        !i.removed && (i.dir.names Env.ascii).contains (Text.ascii "music")) = true := by
    decide +kernel
  have hmiss : (Base.run (ShareManager.step Env.ascii) ShareManager.new
      (scanOfSubdir (Text.ascii "Music"))).bloom.matchString (Text.ascii "music") = false := by
    rfl
  obtain ⟨i, hi, hmem⟩ := List.any_eq_true.mp hname
  rw [Bool.and_eq_true, Bool.not_eq_true', List.contains_iff_mem] at hmem
  rw [h i hi hmem.1 _ hmem.2 _ List.infix_rfl] at hmiss
  cases hmiss

/-- A short name is always matched, so the scan of a subdirectory with one meets the condition. -/
theorem namesMatched_run_short_name :
    NamesMatched Env.ascii
        (Base.run (ShareManager.step Env.ascii) ShareManager.new
          (scanOfSubdir (Text.ascii "Live"))) ∧
      NeverSuppresses Env.ascii
        (Base.run (ShareManager.step Env.ascii) ShareManager.new
          (scanOfSubdir (Text.ascii "Live"))) := by
  apply namesMatched_run Env.ascii Env.lowersCase_ascii
  refine ⟨trivial, trivial, trivial, ?_, trivial, trivial, ?_, trivial⟩
  · intro sc a fr frs dir _ _ _ _ _ _ _ _ _
    rfl
  · intro sc hsc _ _
    injection hsc with hsc
    rw [← hsc]
    exact BloomFilter.le_add (BloomFilter.empty.add (Text.ascii "share")) (Text.ascii "share")

end Blacklink.Share
