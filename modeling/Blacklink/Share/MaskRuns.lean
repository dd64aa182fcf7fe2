import Blacklink.Share.BloomCovers
import Blacklink.Share.ScanMasks
import Blacklink.Share.ShareListRuns

/-!
# The type masks in every run

Whatever is loaded and scanned, the masks of the shares have the types of all that is in them, as
long as two things do not happen: that share data end while a subdirectory is open, whose types the
directories above it then never learn, and that a scan of a share that has lost something counts
everything in a directory as found while something there is still marked
(`client/ShareManager.cpp:447-560, 2786-3119`). A file that is added by itself sets the masks of its
directory to its own types (`client/ShareManager.cpp:1188-1230`); it is no part of this.
-/

namespace Blacklink.Share

open Blacklink.Base SharedDir

/-! ### What is known of the state -/

/-- What is known of a share while share data are loaded. -/
def Loaded (cursor : Option LoadCursor) (i : ShareListItem) : Prop :=
  match cursor with
  | some (.dir ptr _) => if i.tree = ptr.tree then Loading ptr.path i.dir else Covered i.dir
  | _ => Covered i.dir

namespace ShareManager

variable {TTH : Type} (s : ShareManager TTH)

/-- No subdirectory of a share is being loaded. -/
def AtRoot : Prop :=
  match s.cursor with
  | some (.dir ptr _) => ptr.path = []
  | _ => True

instance : Decidable s.AtRoot := by
  unfold AtRoot
  cases s.cursor with
  | none => exact instDecidableTrue
  | some c =>
    cases c with
    | dir ptr _ => exact inferInstanceAs (Decidable (_ = _))
    | lost _ => exact instDecidableTrue

/-- The directory whose end is next, with its activation. -/
def closing : Option (Scan TTH × Frame × SharedDir) :=
  s.scan.bind fun sc => sc.active.bind fun a => a.frames.head?.bind fun fr =>
    (a.item.dir.find? fr.dirPath).map fun dir => (sc, fr, dir)

/-- When masks are set at the end of a directory, the counters are right. -/
def CountersHold : Prop :=
  ∀ x ∈ s.closing, (s.eraseNotFound x.1 x.2.1 x.2.2).flags.removed = true →
    CountsRight (fun id => (s.fileState id).notFound) x.2.1 x.2.2

instance : Decidable s.CountersHold := inferInstanceAs (Decidable (∀ x ∈ s.closing, _))

/-- Which files are marked, with the places of all. -/
def marks (owner : Nat → Option (DirPath × Nat)) : Marks :=
  ⟨owner, fun id => (s.fileState id).notFound⟩

variable {s}

theorem AtRoot.loaded_iff (h : s.AtRoot) (i : ShareListItem) :
    Loaded s.cursor i ↔ Covered i.dir := by
  unfold AtRoot at h
  unfold Loaded
  split
  · next ptr _ hcursor =>
    rw [hcursor] at h
    rw [show ptr.path = [] from h]
    change (if i.tree = ptr.tree then Covered i.dir else Covered i.dir) ↔ Covered i.dir
    rw [ite_self]
  · exact Iff.rfl

end ShareManager

/-- The masks of the shares and of their copies have the types of all that is in them, but for the
directories that are being loaded or scanned; `owner` says where each file is and its types. -/
structure MasksKept {TTH : Type} (owner : Nat → Option (DirPath × Nat)) (s : ShareManager TTH) :
    Prop where
  unused : ∀ id, s.nextFile ≤ id → owner id = none
  shares : ∀ i ∈ s.shares, Loaded s.cursor i ∧ Owned owner i.dir
  copies : ∀ sc, s.scan = some sc →
    ∀ i ∈ sc.scanned ++ sc.pending, Covered i.dir ∧ Owned owner i.dir
  active : ∀ sc a, s.scan = some sc → sc.active = some a → Active (s.marks owner) a

namespace MasksKept

open ShareManager

variable {TTH : Type} {owner owner' : Nat → Option (DirPath × Nat)} {s s' : ShareManager TTH}
  {env : Env}

theorem new [Inhabited TTH] : MasksKept (fun _ => none) (ShareManager.new : ShareManager TTH) where
  unused _ _ := rfl
  shares _ hi := absurd hi List.not_mem_nil
  copies _ hsc := by cases hsc
  active _ _ hsc := by cases hsc

/-- What is known of the scan stays when only new files get a place. -/
theorem of_scan (h : MasksKept owner s) (hscan : s'.scan = s.scan)
    (howner : ∀ id v, owner id = some v → owner' id = some v)
    (hunused : ∀ id, s'.nextFile ≤ id → owner' id = none)
    (hstate : ∀ id < s.nextFile, (s'.fileState id).notFound = (s.fileState id).notFound)
    (hshares : ∀ i ∈ s'.shares, Loaded s'.cursor i ∧ Owned owner' i.dir) : MasksKept owner' s' where
  unused := hunused
  shares := hshares
  copies sc hsc i hi := by
    rw [hscan] at hsc
    obtain ⟨hcovered, howned⟩ := h.copies sc hsc i hi
    exact ⟨hcovered, howned.mono howner⟩
  active sc a hsc ha := by
    rw [hscan] at hsc
    refine (h.active sc a hsc ha).marks howner ?_
    intro id v hid hfound
    have hlt : id < s.nextFile := by
      by_contra hge
      have hnone := h.unused id (Nat.not_lt.mp hge)
      rw [show owner id = some v from hid] at hnone
      cases hnone
    exact (hstate id hlt).symm.trans hfound

/-- Only the shares have changed. -/
theorem of_shares (h : MasksKept owner s) (hscan : s'.scan = s.scan)
    (hnext : s'.nextFile = s.nextFile)
    (hstate : ∀ id, (s'.fileState id).notFound = (s.fileState id).notFound)
    (hshares : ∀ i ∈ s'.shares, Loaded s'.cursor i ∧ Owned owner i.dir) : MasksKept owner s' :=
  h.of_scan hscan (fun _ _ hid => hid) (fun id hid => h.unused id (hnext ▸ hid))
    (fun id _ => hstate id) hshares

/-! ### Loading -/

/-- The directory at an address is the one of the only share with the tree. -/
private theorem dir?_eq (hd : Distinct env s) {i : ShareListItem} (hi : i ∈ s.shares) {ptr : DirPtr}
    (htree : i.tree = ptr.tree) : s.dir? ptr = i.dir.find? ptr.path := by
  have hfind : (s.shares.find? fun i => i.tree = ptr.tree) = some i := by
    cases hfound : s.shares.find? fun i => i.tree = ptr.tree with
    | none => exact absurd (decide_eq_true htree) (List.find?_eq_none.mp hfound i hi)
    | some j =>
      have hj : j.tree = ptr.tree := by simpa using List.find?_some hfound
      have heq := hd.share_eq_of_tree (List.mem_of_find?_eq_some hfound) hi (hj.trans htree.symm)
      rw [heq]
  rw [ShareManager.dir?, hfind]
  rfl

/-- The directory that is loaded, or where a subdirectory of it is loaded next, is changed. -/
private theorem loaded_modifyTree (h : MasksKept owner s) {ptr : DirPtr} {ds ds' : List DetachedDir}
    (hcursor : s.cursor = some (.dir ptr ds)) {p : DirPath} {f : SharedDir → SharedDir}
    (hf : ∀ i ∈ s.shares, i.tree = ptr.tree → Loading ptr.path i.dir → Owned owner i.dir →
      Loading p (f i.dir) ∧ Owned owner' (f i.dir))
    (howner : ∀ id v, owner id = some v → owner' id = some v) :
    ∀ i ∈ (s.modifyTree ptr.tree f).shares,
      Loaded (some (.dir ⟨ptr.tree, p⟩ ds')) i ∧ Owned owner' i.dir := by
  intro j hj
  obtain ⟨i, hi, rfl⟩ := List.mem_map.mp hj
  obtain ⟨hloaded, howned⟩ := h.shares i hi
  rw [hcursor, Loaded] at hloaded
  split
  · next htree =>
    rw [if_pos htree] at hloaded
    obtain ⟨hloading, howned⟩ := hf i hi htree hloaded howned
    exact ⟨(if_pos htree).mpr hloading, howned⟩
  · next htree =>
    rw [if_neg htree] at hloaded
    exact ⟨(if_neg htree).mpr hloaded, howned.mono howner⟩

theorem loadSharedDir [Inhabited TTH] (h : MasksKept owner s) (hd : Distinct env s)
    (filename : List UInt8) (data : Bool) :
    MasksKept owner (s.loadSharedDir env filename data) := by
  unfold ShareManager.loadSharedDir
  split
  · next depth hcursor =>
    refine h.of_shares rfl rfl (fun _ => rfl) fun i hi => ?_
    have hi := h.shares i hi
    rw [hcursor] at hi
    exact hi
  · next ptr detached hcursor =>
    dsimp only
    split
    · refine h.of_shares rfl rfl (fun _ => rfl) fun i hi => ?_
      have hi := h.shares i hi
      rw [hcursor] at hi
      exact hi
    · next hnew =>
      refine h.of_shares rfl rfl (fun _ => rfl) ?_
      refine h.loaded_modifyTree hcursor ?_ fun _ _ hid => hid
      intro i hi htree hloading howned
      have hnone : ∀ e, i.dir.find? ptr.path = some e →
          e.child? (env.lowerName filename) = none := by
        intro e he
        rw [Bool.or_eq_true, not_or] at hnew
        have hchild := hnew.2
        change ¬ ((s.dir? ptr).bind fun d => d.child? (env.lowerName filename)).isSome = true
          at hchild
        rw [dir?_eq hd hi htree, he, Option.bind_some, Option.not_isSome_iff_eq_none] at hchild
        exact hchild
      constructor
      · exact hloading.insertDir hnone
      · rw [Owned, placed_modifyAt_insertDir (placed_new _ _)]
        exact howned
  · next hcursor =>
    split
    · next share hshare =>
      refine h.of_shares rfl rfl (fun _ => rfl) fun i hi => ?_
      have hi := h.shares i hi
      rw [hcursor] at hi
      refine ⟨?_, hi.2⟩
      have hroot : ShareManager.AtRoot { s with cursor := some (.dir ⟨share.tree, []⟩ []) } := rfl
      exact (hroot.loaded_iff i).mpr hi.1
    · next hshare =>
      split
      · refine h.of_shares rfl rfl (fun _ => rfl) fun i hi => ?_
        have hi := h.shares i hi
        rw [hcursor] at hi
        exact hi
      · exact h

/-- A new file gets a place. -/
private theorem owner_newFile (h : MasksKept owner s) (v : DirPath × Nat) :
    (∀ id w, owner id = some w → Function.update owner s.nextFile (some v) id = some w) ∧
      ∀ id, s.nextFile + 1 ≤ id → Function.update owner s.nextFile (some v) id = none := by
  constructor
  · intro id w hid
    rw [Function.update_of_ne]
    · exact hid
    · rintro rfl
      rw [h.unused s.nextFile le_rfl] at hid
      cases hid
  · intro id hid
    rw [Function.update_of_ne (by omega)]
    exact h.unused id (by omega)

theorem loadSharedFile [Inhabited TTH] (h : MasksKept owner s)
    (attr : SharedItemAttribs TTH) :
    ∃ owner', MasksKept owner' (s.loadSharedFile env attr) := by
  unfold ShareManager.loadSharedFile
  split
  · next ptr detached hcursor =>
    obtain ⟨howner, hunused⟩ := h.owner_newFile (ptr.path, env.getFileTypes attr.name)
    have hstate : ∀ id < s.nextFile, ∀ st : FileState TTH,
        (Function.update s.fileState s.nextFile st id).notFound = (s.fileState id).notFound := by
      intro id hid st
      rw [Function.update_of_ne (Nat.ne_of_lt hid)]
    refine ⟨_, h.of_scan ?_ howner ?_ ?_ ?_⟩
    · split <;> rfl
    · split <;> exact hunused
    · intro id hid
      split <;> exact hstate id hid _
    split
    · change ∀ i ∈ _, Loaded s.cursor i ∧ _
      rw [hcursor]
      refine h.loaded_modifyTree hcursor ?_ howner
      intro i hi htree hloading howned
      constructor
      · apply hloading.modifyAt
        intro c hc
        refine ⟨by cases c; rfl, hc.mapNode ?_ (bitsIn_or_left _ _) (BitsIn.refl _)⟩
        intro kf hkf
        refine (mem_insertFile hkf).imp id fun hnew => ?_
        rw [hnew]
        exact bitsIn_or_right _ _
      · refine howned.modifyNode (by exact fun _ => rfl) howner ?_
        intro n kf hkf
        refine (mem_insertFile hkf).imp id fun hnew => ?_
        rw [hnew]
        exact Function.update_self _ _ _
    · intro i hi
      obtain ⟨hloaded, howned⟩ := h.shares i hi
      rw [hcursor] at hloaded
      exact ⟨hloaded, howned.mono howner⟩
  · exact ⟨owner, h⟩

theorem loadDirEnd (h : MasksKept owner s) (hd : Distinct env s) (data : Bool) :
    MasksKept owner (s.loadDirEnd data) := by
  have hsame : ∀ cursor, (∀ i, Loaded s.cursor i → Loaded cursor i) →
      MasksKept owner { s with cursor := cursor } := by
    intro cursor hcursor
    exact h.of_shares rfl rfl (fun _ => rfl) fun i hi => (h.shares i hi).imp_left (hcursor i)
  unfold ShareManager.loadDirEnd
  split
  · exact h
  · next hcursor => exact hsame _ fun i hi => by rwa [hcursor] at hi
  · next hcursor => exact hsame _ fun i hi => by rwa [hcursor] at hi
  · next hcursor => exact hsame _ fun i hi => by rwa [hcursor] at hi
  · next ptr d hcursor =>
    refine h.of_shares rfl rfl (fun _ => rfl) ?_
    refine h.loaded_modifyTree hcursor ?_ fun _ _ hid => hid
    intro i hi htree hloading howned
    constructor
    · apply hloading.modifyAt
      intro c hc
      refine ⟨by cases c; rfl, ?_⟩
      exact hc.mapNode (fun _ hkf => .inl hkf) (BitsIn.refl _) (bitsIn_or_left _ _)
    · exact howned.modifyNode (by exact fun _ => rfl) (fun _ _ hid => hid) fun _ _ hkf => .inl hkf
  · next ptr hcursor =>
    split
    · next hpath =>
      refine h.of_shares rfl rfl (fun _ => rfl) ?_
      intro j hj
      obtain ⟨i, hi, rfl⟩ := List.mem_map.mp hj
      have hroot : s.AtRoot := by
        rw [AtRoot, hcursor]
        exact hpath
      have hi := h.shares i hi
      rw [hroot.loaded_iff] at hi
      split
      · exact hi
      · exact hi
    · next hpath =>
      have hconcat : ptr.path = ptr.path.dropLast ++ [ptr.path.getLast hpath] :=
        (List.dropLast_concat_getLast hpath).symm
      split
      · next hnone =>
        refine h.of_shares rfl rfl (fun _ => rfl) fun i hi => ?_
        obtain ⟨hloaded, howned⟩ := h.shares i hi
        refine ⟨?_, howned⟩
        rw [hcursor, Loaded] at hloaded
        by_cases htree : i.tree = ptr.tree
        · rw [if_pos htree] at hloaded
          obtain ⟨c, hc, -⟩ := Along.find? hloaded
          rw [pathOf_loading, ← dir?_eq hd hi htree, hnone] at hc
          cases hc
        · rw [if_neg htree] at hloaded
          exact (if_neg htree).mpr hloaded
      · next d hdir =>
        refine h.of_shares rfl rfl (fun _ => rfl) ?_
        refine h.loaded_modifyTree hcursor ?_ fun _ _ hid => hid
        intro i hi htree hloading howned
        rw [dir?_eq hd hi htree, hconcat] at hdir
        rw [hconcat] at hloading
        constructor
        · exact hloading.dirEnd hdir _
        · exact howned.modifyNode (by exact fun _ ↦ rfl) (fun _ _ hid ↦ hid) fun _ _ hkf ↦ .inl hkf

/-! ### Operations -/

/-- While no subdirectory is being loaded, all shares are covered. -/
theorem rest (h : MasksKept owner s) (hroot : s.AtRoot) :
    ∀ i ∈ s.shares, Covered i.dir ∧ Owned owner i.dir :=
  fun i hi => (h.shares i hi).imp_left (hroot.loaded_iff i).mp

theorem of_rest (h : MasksKept owner s) (hroot : s.AtRoot) (hcursor : s'.cursor = s.cursor)
    (hscan : s'.scan = s.scan) (hnext : s'.nextFile = s.nextFile)
    (hstate : ∀ id, (s'.fileState id).notFound = (s.fileState id).notFound)
    (hshares : ∀ i ∈ s'.shares, Covered i.dir ∧ Owned owner i.dir) : MasksKept owner s' :=
  h.of_shares hscan hnext hstate fun i hi =>
    (hshares i hi).imp_left fun hc => hcursor ▸ (hroot.loaded_iff i).mpr hc

/-- The name or the flags of a directory are changed. -/
private theorem rest_mapNode {d : SharedDir} (h : Covered d ∧ Owned owner d)
    {f : DirNode → DirNode} (hkeeps : ∀ n, (f n).key = n.key ∧ (f n).files = n.files)
    (hmasks : ∀ n,
      (f n).filesTypesMask = n.filesTypesMask ∧ (f n).dirsTypesMask = n.dirsTypesMask) :
    Covered (d.mapNode f) ∧ Owned owner (d.mapNode f) := by
  refine ⟨h.1.mapNode ?_ ?_ ?_, h.2.of_keepsContents (keepsContents_mapNode hkeeps)⟩
  · exact fun kf hkf => .inl ((hkeeps d.node).2 ▸ hkf)
  · exact BitsIn.of_eq (hmasks d.node).1.symm
  · exact BitsIn.of_eq (hmasks d.node).2.symm

private theorem rest_new (key name : List UInt8) :
    Covered (.new key name) ∧ Owned owner (.new key name) :=
  ⟨Covered.new key name, fun _ hx => absurd hx List.not_mem_nil⟩

theorem updateVersion (h : MasksKept owner s) (hroot : s.AtRoot) (share : ShareListItem) :
    MasksKept owner (s.updateVersion share) := by
  refine h.of_rest hroot rfl rfl rfl (fun _ => rfl) fun j hj => ?_
  obtain ⟨i, hi, rfl⟩ := List.mem_map.mp hj
  split
  · exact h.rest hroot i hi
  · exact h.rest hroot i hi

theorem addExcludeFolderL (h : MasksKept owner s) (hroot : s.AtRoot) {path : List UInt8}
    (hs' : s.addExcludeFolderL path = some s') : MasksKept owner s' := by
  unfold ShareManager.addExcludeFolderL at hs'
  split at hs'
  · cases hs'
  split at hs'
  · cases hs'
  split at hs'
  · cases hs'
  · next share _ _ _ =>
    cases hs'
    have hversion := h.updateVersion hroot share
    exact hversion.of_rest hroot rfl rfl rfl (fun _ => rfl) (hversion.rest hroot)

theorem addExcludeFolder (h : MasksKept owner s) (hroot : s.AtRoot) (path : List UInt8) :
    MasksKept owner (s.addExcludeFolder path) := by
  unfold ShareManager.addExcludeFolder
  split
  · exact h
  · next s' hs' =>
    have h' := h.addExcludeFolderL hroot hs'
    exact h'.of_shares rfl rfl (fun _ => rfl) h'.shares

theorem removeExcludeFolder (h : MasksKept owner s) (hroot : s.AtRoot) (path : List UInt8) :
    MasksKept owner (s.removeExcludeFolder path) := by
  unfold ShareManager.removeExcludeFolder
  dsimp only
  split
  · have herased : MasksKept owner { s with
        notShared := s.notShared.eraseP fun j =>
          j.length = path.length && strnicmpEq path j path.length
        shareListChanged := true } := h.of_shares rfl rfl (fun _ => rfl) h.shares
    split
    · exact herased
    · exact herased.updateVersion hroot _
  · exact h

theorem loadShare [Inhabited TTH] (h : MasksKept owner s) (hroot : s.AtRoot)
    (realPath virtualAttr : List UInt8) (isExist : Bool) :
    MasksKept owner (s.loadShare env realPath virtualAttr isExist) := by
  unfold ShareManager.loadShare
  split
  · exact h
  dsimp only
  generalize validateVirtual _ = virtualName
  split
  · exact h
  · refine h.of_rest hroot rfl rfl rfl (fun _ => rfl) fun i hi => ?_
    rcases List.mem_append.mp hi with hi | hi
    · exact h.rest hroot i hi
    · rw [List.mem_singleton.mp hi]
      exact rest_new _ _

theorem addDirectory [Inhabited TTH] (h : MasksKept owner s) (hroot : s.AtRoot)
    (realPath virtualName : List UInt8) (accepted : Bool) :
    MasksKept owner (s.addDirectory env realPath virtualName accepted) := by
  unfold ShareManager.addDirectory
  split
  · exact h
  split
  · exact h
  split
  · exact h
  · refine h.of_rest hroot rfl rfl rfl (fun _ => rfl) fun i hi => ?_
    rcases List.mem_append.mp hi with hi | hi
    · obtain ⟨j, hj, rfl⟩ := List.mem_map.mp hi
      split
      · exact rest_mapNode (h.rest hroot j hj) (by exact fun _ => ⟨rfl, rfl⟩)
          (by exact fun _ => ⟨rfl, rfl⟩)
      · exact h.rest hroot j hj
    · rw [List.mem_singleton.mp hi]
      exact rest_new _ _

theorem removeDirectory (h : MasksKept owner s) (hroot : s.AtRoot) (realPath : List UInt8) :
    MasksKept owner (s.removeDirectory env realPath) := by
  unfold ShareManager.removeDirectory
  split
  · exact h
  split
  · exact h
  · refine h.of_rest hroot rfl rfl rfl (fun _ => rfl) fun i hi => ?_
    obtain ⟨j, hj, rfl⟩ := List.mem_map.mp hi
    split
    · exact rest_mapNode (h.rest hroot j hj) (by exact fun _ => ⟨rfl, rfl⟩)
        (by exact fun _ => ⟨rfl, rfl⟩)
    · exact h.rest hroot j hj

theorem renameDirectory (h : MasksKept owner s) (hroot : s.AtRoot)
    (realPath virtualName : List UInt8) :
    MasksKept owner (s.renameDirectory env realPath virtualName) := by
  unfold ShareManager.renameDirectory
  dsimp only
  split
  · exact h
  split
  · exact h
  split
  · exact h
  · refine h.of_rest hroot rfl rfl rfl (fun _ => rfl) fun i hi => ?_
    obtain ⟨j, hj, rfl⟩ := List.mem_map.mp hi
    split
    · exact rest_mapNode (h.rest hroot j hj) (by exact fun _ => ⟨rfl, rfl⟩)
        (by exact fun _ => ⟨rfl, rfl⟩)
    · exact h.rest hroot j hj

theorem fileHashed (h : MasksKept owner s) (hroot : s.AtRoot) (n : Nat) (root : TTH)
    (mediaInfo : Option MediaInfo) (currentTime : Nat) :
    MasksKept owner (s.fileHashed env n root mediaInfo currentTime) := by
  unfold ShareManager.fileHashed
  split
  · exact h
  · next file path _ =>
    have hstate : ∀ st : FileState TTH, ∀ id, st.notFound = (s.fileState file.id).notFound →
        (Function.update s.fileState file.id st id).notFound = (s.fileState id).notFound := by
      intro st id hst
      by_cases hid : id = file.id
      · rw [hid, Function.update_self, hst]
      · rw [Function.update_of_ne hid]
    dsimp only
    split
    · exact h.of_rest hroot rfl rfl rfl (fun id => hstate _ id rfl) (h.rest hroot)
    · exact h.of_rest hroot rfl rfl rfl (fun id => hstate _ id rfl) (h.rest hroot)

theorem hashingError (h : MasksKept owner s) (hroot : s.AtRoot) (n : Nat) :
    MasksKept owner (s.hashingError env n) := by
  unfold ShareManager.hashingError
  split
  · exact h
  dsimp only
  split
  · exact h.of_rest hroot rfl rfl rfl (fun _ => rfl) (h.rest hroot)
  · refine h.of_rest hroot rfl rfl rfl (fun _ => rfl) fun i hi => ?_
    obtain ⟨j, hj, rfl⟩ := List.mem_map.mp hi
    obtain ⟨hcovered, howned⟩ := h.rest hroot j hj
    have herase : ∀ (key : List UInt8) (files : List (List UInt8 × SharedFile)),
        ∀ kf ∈ eraseFile key files, kf ∈ files := fun key files kf hkf => (List.mem_filter.mp hkf).1
    split
    · constructor
      · refine (hcovered.modifyAt (fun c hc => ?_) _).1
        refine ⟨?_, by cases c; rfl, by cases c; exact BitsIn.refl _⟩
        exact hc.mapNode (fun kf hkf => .inl (herase _ _ kf hkf)) (BitsIn.refl _) (BitsIn.refl _)
      · exact howned.modifyFiles (fun _ _ hid => hid) fun files kf hkf => .inl (herase _ _ kf hkf)
    · exact ⟨hcovered, howned⟩

/-! ### Scanning -/

/-- The scan goes on. -/
private theorem of_active (h : MasksKept owner s) (hshares : s'.shares = s.shares)
    (hcursor : s'.cursor = s.cursor) (howner : ∀ id v, owner id = some v → owner' id = some v)
    (hunused : ∀ id, s'.nextFile ≤ id → owner' id = none) {sc : Scan TTH}
    (hscan : s'.scan = some sc)
    (hcopies : ∀ i ∈ sc.scanned ++ sc.pending, Covered i.dir ∧ Owned owner i.dir)
    (hactive : ∀ a, sc.active = some a → Active (s'.marks owner') a) : MasksKept owner' s' where
  unused := hunused
  shares i hi := by
    rw [hshares] at hi
    rw [hcursor]
    exact (h.shares i hi).imp_right fun howned => howned.mono howner
  copies sc' hsc i hi := by
    rw [hscan] at hsc
    cases hsc
    exact (hcopies i hi).imp_right fun howned => howned.mono howner
  active sc' a hsc ha := by
    rw [hscan] at hsc
    cases hsc
    exact hactive a ha

theorem scanStart [Inhabited TTH] (h : MasksKept owner s) (hroot : s.AtRoot) (force : Bool)
    (types : Nat) : MasksKept owner (s.scanStart force types) := by
  unfold ShareManager.scanStart
  split
  · exact h
  · refine h.of_active rfl rfl (fun _ _ hid => hid) h.unused rfl ?_ fun a ha => by cases ha
    intro j hj
    obtain ⟨i, hi, -, hdir⟩ := mem_copyShares hj
    obtain ⟨hcovered, howned⟩ := h.rest hroot i hi
    rw [hdir]
    exact ⟨hcovered.copyTree, howned.of_keepsContents keepsContents_copyTree⟩

/-- A directory is entered, be it the one of the share or below those of the activations. -/
private theorem enterDir (h : MasksKept owner s) {sc : Scan TTH}
    (hcopies : ∀ i ∈ sc.scanned ++ sc.pending, Covered i.dir ∧ Owned owner i.dir) {a : ActiveShare}
    (ls : List (Frame × List UInt8)) (hstack : Stack a.frames ls)
    (halong : Along (ScanLevel (s.marks owner)) Covered ls a.item.dir)
    (howned : Owned owner a.item.dir) {dirPath : DirPath} (hpath : dirPath = pathOf ls)
    (path : List UInt8) : MasksKept owner (s.enterDir sc a dirPath path) := by
  unfold ShareManager.enterDir
  split
  · exact h
  · next dir hdir =>
    refine h.of_active rfl rfl (fun _ _ hid => hid) h.unused rfl hcopies ?_
    intro b hb
    cases hb
    refine ⟨howned.of_keepsContents (keepsContents_modifyAt keepsContents_setDirsNotFound dirPath),
      ls, _, a.frames, rfl, hstack, hpath, ?_⟩
    refine along_enterDir halong howned hpath hdir rfl rfl ?_ rfl
    intro id hfound
    change (if id ∈ dir.node.files.map (fun kf => kf.2.id) then _ else s.fileState id).notFound = _
      at hfound
    split at hfound
    · cases hfound
    · next hid => exact ⟨hfound, hid⟩

theorem scanShare (h : MasksKept owner s) : MasksKept owner s.scanShare := by
  unfold ShareManager.scanShare
  split
  · next sc hsc =>
    split
    · next sli rest _ hpending =>
      split
      · exact h
      · have hcopies := h.copies sc hsc
        rw [hpending] at hcopies
        obtain ⟨hcovered, howned⟩ :=
          hcopies sli (List.mem_append_right _ List.mem_cons_self)
        have hcounted : MasksKept owner { s with fileCounter := 0 } :=
          ⟨h.unused, h.shares, h.copies, h.active⟩
        apply hcounted.enterDir ?_ []
        · exact Stack.nil
        · exact hcovered
        · exact howned
        · rfl
        · intro i hi
          apply hcopies i
          exact (List.sublist_cons_self sli rest).append_left sc.scanned |>.subset hi
    · exact h
  · exact h

theorem scanSubdir (h : MasksKept owner s) {sc : Scan TTH} (hsc : s.scan = some sc)
    {a : ActiveShare} (ha : sc.active = some a) {fr : Frame} {frs : List Frame}
    (hframes : a.frames = fr :: frs)
    {dir : SharedDir} (hdir : a.item.dir.find? fr.dirPath = some dir) (e : FileFindItem) :
    MasksKept owner (s.scanSubdir env sc a fr frs dir e) := by
  obtain ⟨howned, ls, fr', frs', hframes', hstack, hpath, halong⟩ := h.active sc a hsc ha
  rw [hframes] at hframes'
  cases hframes'
  unfold ShareManager.scanSubdir
  dsimp only
  split
  · exact h
  split
  · next sub hsub =>
    apply h.enterDir ?_
      (ls ++ [({ fr with foundDirs := fr.foundDirs + 1 }, env.toLower e.fileName)])
    · exact hstack.call { fr with foundDirs := fr.foundDirs + 1 } hpath _
    · exact along_scanSubdir_some halong hpath hdir hsub rfl
    · exact howned.of_keepsContents (keepsContents_modifyAt (keepsContents_clearDirNotFound _) _)
    · rw [pathOf_append, hpath]
    · exact h.copies sc hsc
  · next hsub =>
    apply h.enterDir ?_ (ls ++ [(fr, env.toLower e.fileName)])
    · exact hstack.call _ hpath _
    · exact along_scanSubdir_none halong hpath hdir hsub
    · rw [Owned, placed_modifyAt_insertDir (placed_new _ _)]
      exact howned
    · rw [pathOf_append, hpath]
    · exact h.copies sc hsc

/-- What the scan of a file makes of the activation and of the directory. -/
private theorem of_scanFile (h : MasksKept owner s) {sc sc' : Scan TTH} (hsc : s.scan = some sc)
    {a : ActiveShare} (ha : sc.active = some a) {fr fr' : Frame} {frs : List Frame}
    (hframes : a.frames = fr :: frs) (hshares : s'.shares = s.shares)
    (hcursor : s'.cursor = s.cursor) (hscan : s'.scan = some sc')
    (hsame : sc'.scanned = sc.scanned ∧ sc'.pending = sc.pending)
    (f : List (List UInt8 × SharedFile) → List (List UInt8 × SharedFile)) {item : ShareListItem}
    (hitem : item.dir = a.item.dir.modifyFiles fr.dirPath f)
    (hactive : sc'.active = some ⟨item, fr' :: frs⟩)
    (hfr : fr'.dirPath = fr.dirPath ∧ fr'.dirsTypesMask = fr.dirsTypesMask)
    (hfiles : BitsIn fr.filesTypesMask fr'.filesTypesMask)
    (howner : ∀ id v, owner id = some v → owner' id = some v)
    (hunused : ∀ id, s'.nextFile ≤ id → owner' id = none)
    (hfound : ∀ id p t, owner id = some (p, t) → (s'.fileState id).notFound = false →
      (s.fileState id).notFound = false ∨ p = fr.dirPath ∧ BitsIn t fr'.filesTypesMask)
    (hf : ∀ files, ∀ kf ∈ f files, kf ∈ files ∨
      owner' kf.2.id = some (fr.dirPath, kf.2.typesMask) ∧
        BitsIn kf.2.typesMask fr'.filesTypesMask) : MasksKept owner' s' := by
  obtain ⟨howned, ls, fr₀, frs₀, hframes₀, hstack, hpath, halong⟩ := h.active sc a hsc ha
  rw [hframes] at hframes₀
  cases hframes₀
  refine h.of_active hshares hcursor howner hunused hscan ?_ ?_
  · rw [hsame.1, hsame.2]
    exact h.copies sc hsc
  · intro b hb
    rw [hactive] at hb
    cases hb
    refine ⟨?_, ls, fr', frs, rfl, hstack, hfr.1.trans hpath, ?_⟩
    · rw [hitem]
      exact howned.modifyFiles howner fun files kf hkf => (hf files kf hkf).imp_right And.left
    · rw [hitem]
      apply along_files halong hpath hfr.1 hfr.2 hfiles
      · exact howner
      · exact hfound
      · exact hf
      · exact hstack.dirPath_ne

theorem scanNewFile [Inhabited TTH] (h : MasksKept owner s) {sc : Scan TTH}
    (hsc : s.scan = some sc) {a : ActiveShare} (ha : sc.active = some a) {fr fr' : Frame}
    {frs : List Frame} (hframes : a.frames = fr :: frs)
    (hfr : fr'.dirPath = fr.dirPath ∧ fr'.dirsTypesMask = fr.dirsTypesMask)
    (hfiles : BitsIn fr.filesTypesMask fr'.filesTypesMask) (e : FileFindItem) (oldSize : Int) :
    ∃ owner', MasksKept owner' (s.scanNewFile env sc a fr' frs e oldSize) := by
  obtain ⟨howner, hunused⟩ := h.owner_newFile (fr.dirPath, env.getFileTypes e.fileName)
  refine ⟨_, h.of_scanFile hsc ha hframes rfl rfl rfl ⟨rfl, rfl⟩
    (assignFile (env.toLower e.fileName)
      ⟨s.nextFile, e.fileName, e.size, env.getFileTypes e.fileName, e.timestamp⟩)
    ?_ rfl hfr ?_ howner hunused ?_ ?_⟩
  · rw [← hfr.1]
  · exact hfiles.or_left _
  · intro id p t hid hnow
    have hne : id ≠ s.nextFile := by
      rintro rfl
      rw [h.unused s.nextFile le_rfl] at hid
      cases hid
    change (Function.update s.fileState s.nextFile _ id).notFound = false at hnow
    rw [Function.update_of_ne hne] at hnow
    exact .inl hnow
  · intro files kf hkf
    refine (mem_assignFile hkf).imp_right fun hnew => ?_
    rw [hnew]
    exact ⟨Function.update_self _ _ _, bitsIn_or_right _ _⟩

theorem scanFile [Inhabited TTH] (h : MasksKept owner s) {sc : Scan TTH} (hsc : s.scan = some sc)
    {a : ActiveShare} (ha : sc.active = some a) {fr : Frame} {frs : List Frame}
    (hframes : a.frames = fr :: frs) {dir : SharedDir}
    (hdir : a.item.dir.find? fr.dirPath = some dir) (e : FileFindItem) :
    ∃ owner', MasksKept owner' (s.scanFile env sc a fr frs dir e) := by
  have hcounted : MasksKept owner { s with fileCounter := s.fileCounter + 1 } :=
    ⟨h.unused, h.shares, h.copies, h.active⟩
  unfold ShareManager.scanFile
  dsimp only
  split
  · exact hcounted.scanNewFile hsc ha hframes ⟨rfl, rfl⟩ (BitsIn.refl _) e 0
  · next file hfile =>
    split
    · obtain ⟨kf, hkf, rfl⟩ := Option.map_eq_some_iff.mp hfile
      have howned := (h.active sc a hsc ha).owned.files hdir kf (List.mem_of_find?_eq_some hkf)
      refine ⟨owner, h.of_scanFile hsc ha hframes rfl rfl rfl ⟨rfl, rfl⟩ id ?_ rfl ⟨rfl, rfl⟩
        (bitsIn_or_left _ _) (fun _ _ hid => hid) h.unused ?_ ?_⟩
      · exact (modifyAt_eq_self (fun c => by cases c; rfl) _ _).symm
      · intro id p t hid hnow
        by_cases heq : id = kf.2.id
        · -- the types of the file are those of its object
          rw [heq] at hid
          cases hid.symm.trans howned
          exact .inr ⟨rfl, bitsIn_or_right _ _⟩
        · change (Function.update s.fileState kf.2.id _ id).notFound = false at hnow
          rw [Function.update_of_ne heq] at hnow
          exact .inl hnow
      · exact fun files kf hkf => .inl hkf
    · apply hcounted.scanNewFile hsc ha hframes
      · exact ⟨rfl, rfl⟩
      · exact bitsIn_or_left _ _

theorem scanEntry [Inhabited TTH] (h : MasksKept owner s) (e : FileFindItem) :
    ∃ owner', MasksKept owner' (s.scanEntry env e) := by
  unfold ShareManager.scanEntry
  split
  · exact ⟨owner, h⟩
  next sc hsc =>
  split
  · next a ha =>
    split
    · next fr frs hframes =>
      split
      · exact ⟨owner, h⟩
      split
      · exact ⟨owner, h⟩
      · next dir hdir =>
        split
        · exact ⟨owner, h.scanSubdir hsc ha hframes hdir e⟩
        · exact h.scanFile hsc ha hframes hdir e
    · exact ⟨owner, h⟩
  · exact ⟨owner, h⟩

theorem scanDirEnd (h : MasksKept owner s) (hcounts : s.CountersHold) :
    MasksKept owner s.scanDirEnd := by
  unfold ShareManager.scanDirEnd
  split
  · exact h
  next sc hsc =>
  split
  · next a ha =>
    split
    · next fr frs hframes =>
      split
      · exact h
      next dir hdir =>
      obtain ⟨howned, ls, fr₀, frs₀, hframes₀, hstack, hpath, halong⟩ := h.active sc a hsc ha
      rw [hframes] at hframes₀
      cases hframes₀
      obtain ⟨c, hc, hinner⟩ := Along.find? halong
      rw [← hpath, hdir] at hc
      cases hc
      have hcounts := hcounts (sc, fr, dir) (by simp [closing, hsc, ha, hframes, hdir])
      obtain ⟨herased, hkey, htypes⟩ := eraseNotFound_inner rfl hinner hcounts
      have hclosed := along_closeDir halong hpath hdir herased hkey htypes
      have howned' : Owned owner (closeDir fr (s.eraseNotFound sc fr dir) a.item.dir) :=
        owned_closeDir howned hdir
      dsimp only
      split
      · next parent frs =>
        cases hstack with
        | @call _ ls hstack _ hparent k =>
          refine h.of_active rfl rfl (fun _ _ hid => hid) h.unused rfl (h.copies sc hsc) ?_
          intro b hb
          cases hb
          refine ⟨howned', ls, _, frs, rfl, hstack, hparent, ?_⟩
          refine along_return hclosed ?_ rfl
          intro c hc
          rw [hpath, hc]
          rfl
      · cases hstack
        refine h.of_active rfl rfl (fun _ _ hid => hid) h.unused rfl ?_ fun b hb => by cases hb
        intro i hi
        rw [List.append_assoc, List.mem_append] at hi
        rcases hi with hi | hi
        · exact h.copies sc hsc i (List.mem_append_left _ hi)
        · rcases List.mem_cons.mp hi with rfl | hi
          · exact ⟨hclosed, howned'⟩
          · exact h.copies sc hsc i (List.mem_append_right _ hi)
    · exact h
  · exact h

theorem scanPublish (h : MasksKept owner s) (hroot : s.AtRoot) :
    MasksKept owner (s.scanPublish env) := by
  cases hready : s.publishing with
  | none =>
    rw [scanPublish_of_not_publishing hready]
    exact h
  | some sc =>
    obtain ⟨hsc, hpublish⟩ := scanPublish_of_publishing env hready
    obtain ⟨-, hidle⟩ := Option.filter_eq_some_iff.mp hready
    rw [Bool.and_eq_true, Option.isNone_iff_eq_none] at hidle
    have hcopies := h.copies sc hsc
    have hshares : ∀ i ∈ (s.published env sc).shares, Covered i.dir ∧ Owned owner i.dir := by
      intro i hi
      rcases BloomInv.mem_publishShares hi with ⟨k, hk, -, hdir⟩ | ⟨j, hj, hdir⟩
      · rw [hdir]
        exact h.rest hroot k hk
      · rw [hdir]
        apply hcopies j
        rw [Scan.newShares, hidle.1] at hj
        simpa using hj
    rw [hpublish]
    have hrest : ∀ t : ShareManager TTH, t.cursor = s.cursor → t.nextFile = s.nextFile →
        t.scan = none → t.shares = (s.published env sc).shares → MasksKept owner t := by
      intro t hcursor hnext hscan hsh
      constructor
      · rw [hnext]
        exact h.unused
      · intro i hi
        rw [hsh] at hi
        rw [hcursor, hroot.loaded_iff]
        exact hshares i hi
      · rw [hscan]
        exact fun sc hsc => by cases hsc
      · rw [hscan]
        exact fun sc a hsc => by cases hsc
    unfold ShareManager.publish
    dsimp only
    split
    · exact hrest _ rfl rfl rfl rfl
    · exact hrest _ rfl rfl rfl rfl

end MasksKept

/-! ### Runs -/

/-- The condition on an event: nothing but more share data comes while a subdirectory is loaded, and
the counters are right where masks are set. -/
def KeepsMasks (s : ShareManager TTHValue) : ShareChange → Prop
  | .share (.loadDir _ _) | .share (.loadFile _) | .share (.loadDirEnd _) => True
  | .share (.op (.addFile ..)) => False
  | .share (.op .scanDirEnd) => s.AtRoot ∧ s.CountersHold
  | _ => s.AtRoot

instance (s : ShareManager TTHValue) (e : ShareChange) : Decidable (KeepsMasks s e) := by
  unfold KeepsMasks
  split
  · exact instDecidableTrue
  · exact instDecidableTrue
  · exact instDecidableTrue
  · exact instDecidableFalse
  · exact instDecidableAnd
  · exact inferInstance

namespace MasksKept

open ShareManager

variable {env : Env} {s : ShareManager TTHValue} {owner : Nat → Option (DirPath × Nat)}

theorem change (h : MasksKept owner s) (hd : Distinct env s) {e : ShareChange}
    (hok : KeepsMasks s e) : ∃ owner', MasksKept owner' (s.change env e) := by
  cases e with
  | group g =>
    obtain ⟨groups, hgroups⟩ := s.performGroup_eq env g
    rw [ShareManager.change, hgroups]
    exact ⟨owner, h.unused, h.shares, h.copies, h.active⟩
  | share e =>
    cases e with
    | loadShare realPath virtualAttr isExist =>
      exact ⟨owner, h.loadShare hok realPath virtualAttr isExist⟩
    | loadExclude path =>
      refine ⟨owner, ?_⟩
      rw [ShareManager.change, ShareManager.step]
      cases hs' : s.addExcludeFolderL (appendPathSeparator path) with
      | none => exact h
      | some s' => exact h.addExcludeFolderL hok hs'
    | loadDir filename data => exact ⟨owner, h.loadSharedDir hd filename data⟩
    | loadFile attr => exact h.loadSharedFile attr
    | loadDirEnd data => exact ⟨owner, h.loadDirEnd hd data⟩
    | op o =>
      cases o with
      | addDirectory realPath virtualName accepted =>
        exact ⟨owner, h.addDirectory hok realPath virtualName accepted⟩
      | removeDirectory realPath => exact ⟨owner, h.removeDirectory hok realPath⟩
      | renameDirectory realPath virtualName =>
        exact ⟨owner, h.renameDirectory hok realPath virtualName⟩
      | addExcludeFolder path => exact ⟨owner, h.addExcludeFolder hok path⟩
      | removeExcludeFolder path => exact ⟨owner, h.removeExcludeFolder hok path⟩
      | addFile path root found currentTime => exact hok.elim
      | scanStart force types => exact ⟨owner, h.scanStart hok force types⟩
      | scanShare => exact ⟨owner, h.scanShare⟩
      | scanEntry e => exact h.scanEntry e
      | scanDirEnd => exact ⟨owner, h.scanDirEnd hok.2⟩
      | scanPublish => exact ⟨owner, h.scanPublish hok⟩
      | fileHashed n root mediaInfo currentTime =>
        exact ⟨owner, h.fileHashed hok n root mediaInfo currentTime⟩
      | hashingError n => exact ⟨owner, h.hashingError hok n⟩
      | hashingStopped n => exact ⟨owner, h.unused, h.shares, h.copies, h.active⟩
      | shutdown => exact ⟨owner, h.unused, h.shares, h.copies, h.active⟩

end MasksKept

theorem Distinct.change {env : Env} {s : ShareManager TTHValue} (h : Distinct env s)
    (e : ShareChange) : Distinct env (s.change env e) := by
  cases e with
  | share e => exact h.step e
  | group g =>
    obtain ⟨groups, hgroups⟩ := s.performGroup_eq env g
    rw [ShareManager.change, hgroups]
    exact h.of_shares rfl rfl rfl

/-- In a run that meets the condition, the masks of all shares are kept. -/
theorem masksKept_run {env : Env} {es : List ShareChange}
    (h : Within KeepsMasks (ShareManager.change env) .new es) :
    ∃ owner, MasksKept owner (run (ShareManager.change env) .new es) := by
  have hinv := h.invariant (fun s => Distinct env s ∧ ∃ owner, MasksKept owner s)
    (fun s e hs hok => ⟨hs.1.change e, ?_⟩) ⟨Distinct.new, _, MasksKept.new⟩
  · exact hinv.2
  · obtain ⟨owner, howner⟩ := hs.2
    exact howner.change hs.1 hok

end Blacklink.Share
