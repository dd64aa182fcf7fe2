import Blacklink.Base.BitMasks
import Blacklink.Share.OpenPath
import Blacklink.Share.Contents

/-!
# The type masks of a tree

A search leaves out directories whose masks say that there is nothing of its type
(`client/ShareManagerItems.cpp:10-46`). It finds everything in trees that are `Covered`: the masks
of every directory have the types of all that is in it. While a directory is loaded or scanned, the
masks of those above it have not been set yet; what is said of them then is `LoadLevel` and
`ScanLevel`.
-/

namespace Blacklink.Share

open Blacklink.Base

/-! ### Covered trees -/

/-- `filesTypesMask` has the types of the files. -/
def DirNode.CoversFiles (n : DirNode) : Prop :=
  ∀ kf ∈ n.files, BitsIn kf.2.typesMask n.filesTypesMask

/-- `dirsTypesMask` has the types of the subdirectories, whose keys are apart. -/
structure CoversDirs (n : DirNode) (ds : List SharedDir) : Prop where
  keys : (SharedDir.keys ds).Nodup
  types : ∀ c ∈ ds, BitsIn c.getTypes n.dirsTypesMask

/-- The masks of all directories have the types of all that is in them. -/
inductive Covered : SharedDir → Prop where
  | mk {n : DirNode} {ds : List SharedDir} (files : n.CoversFiles) (subdirs : CoversDirs n ds)
    (dirs : ∀ c ∈ ds, Covered c) : Covered (.mk n ds)

theorem covered_iff (d : SharedDir) :
    Covered d ↔ d.node.CoversFiles ∧ CoversDirs d.node d.dirs ∧ ∀ c ∈ d.dirs, Covered c := by
  constructor
  · rintro ⟨hfiles, hsub, hdirs⟩
    exact ⟨hfiles, hsub, hdirs⟩
  · cases d
    rintro ⟨hfiles, hsub, hdirs⟩
    exact .mk hfiles hsub hdirs

namespace Covered

variable {d : SharedDir}

theorem files (h : Covered d) : d.node.CoversFiles := ((covered_iff d).mp h).1

theorem subdirs (h : Covered d) : CoversDirs d.node d.dirs := ((covered_iff d).mp h).2.1

theorem dirs (h : Covered d) : ∀ c ∈ d.dirs, Covered c := ((covered_iff d).mp h).2.2

theorem new (key name : List UInt8) : Covered (.new key name) := by
  constructor
  · exact fun _ hkf => absurd hkf List.not_mem_nil
  · exact ⟨List.nodup_nil, fun _ hc => absurd hc List.not_mem_nil⟩
  · exact fun _ hc => absurd hc List.not_mem_nil

/-- A directory with fewer files, or wider masks, or another name. -/
theorem mapNode (h : Covered d) {f : DirNode → DirNode}
    (hfiles : ∀ kf ∈ (f d.node).files, kf ∈ d.node.files ∨
      BitsIn kf.2.typesMask (f d.node).filesTypesMask)
    (hfilesMask : BitsIn d.node.filesTypesMask (f d.node).filesTypesMask)
    (hdirsMask : BitsIn d.node.dirsTypesMask (f d.node).dirsTypesMask) :
    Covered (d.mapNode f) := by
  cases d with
  | mk n ds =>
    constructor
    · intro kf hkf
      rcases hfiles kf hkf with hold | hnew
      · exact (h.files kf hold).trans hfilesMask
      · exact hnew
    · exact ⟨h.subdirs.keys, fun c hc => (h.subdirs.types c hc).trans hdirsMask⟩
    · exact h.dirs

private theorem mem_modifyChild_cases {k : List UInt8} {f : SharedDir → SharedDir}
    {ds : List SharedDir} {e : SharedDir} (he : e ∈ SharedDir.modifyChild k f ds) :
    e ∈ ds ∨ ∃ c ∈ ds, e = f c := by
  induction ds with
  | nil => cases he
  | cons d ds ih =>
    rw [SharedDir.modifyChild] at he
    split at he
    · rcases List.mem_cons.mp he with rfl | he
      · exact .inr ⟨d, List.mem_cons_self, rfl⟩
      · exact .inl (List.mem_cons_of_mem d he)
    · rcases List.mem_cons.mp he with rfl | he
      · exact .inl List.mem_cons_self
      · rcases ih he with he | ⟨c, hc, rfl⟩
        · exact .inl (List.mem_cons_of_mem d he)
        · exact .inr ⟨c, List.mem_cons_of_mem d hc, rfl⟩

private theorem keys_modifyChild_of {k : List UInt8} {f : SharedDir → SharedDir}
    {ds : List SharedDir} (hf : ∀ c ∈ ds, (f c).node.key = c.node.key) :
    SharedDir.keys (SharedDir.modifyChild k f ds) = SharedDir.keys ds := by
  induction ds with
  | nil => rfl
  | cons d ds ih =>
    rw [List.forall_mem_cons] at hf
    rw [SharedDir.modifyChild]
    split
    · rw [SharedDir.keys, SharedDir.keys, List.map_cons, List.map_cons, hf.1]
    · rw [SharedDir.keys, SharedDir.keys, List.map_cons, List.map_cons]
      exact congrArg _ (ih hf.2)

/-- A change of one directory that adds no types. -/
theorem modifyAt {f : SharedDir → SharedDir}
    (hf : ∀ c, Covered c → Covered (f c) ∧ (f c).node.key = c.node.key ∧
      BitsIn (f c).getTypes c.getTypes) (p : DirPath) (h : Covered d) :
    Covered (SharedDir.modifyAt p f d) ∧ (SharedDir.modifyAt p f d).node.key = d.node.key ∧
      BitsIn (SharedDir.modifyAt p f d).getTypes d.getTypes := by
  induction p generalizing d with
  | nil => exact hf d h
  | cons k p ih =>
    cases d with
    | mk n ds =>
      have hkeys : SharedDir.keys (SharedDir.modifyChild k (SharedDir.modifyAt p f) ds) =
          SharedDir.keys ds := keys_modifyChild_of fun c hc => (ih (h.dirs c hc)).2.1
      refine ⟨.mk h.files ⟨?_, ?_⟩ ?_, rfl, BitsIn.refl _⟩
      · rw [hkeys]
        exact h.subdirs.keys
      · intro e he
        rcases mem_modifyChild_cases he with he | ⟨c, hc, rfl⟩
        · exact h.subdirs.types e he
        · exact (ih (h.dirs c hc)).2.2.trans (h.subdirs.types c hc)
      · intro e he
        rcases mem_modifyChild_cases he with he | ⟨c, hc, rfl⟩
        · exact h.dirs e he
        · exact (ih (h.dirs c hc)).1

theorem copyTree (h : Covered d) : Covered d.copyTree := by
  have hmap : ∀ ds : List SharedDir, SharedDir.copyTrees ds = ds.map SharedDir.copyTree := by
    intro ds
    induction ds with
    | nil => rfl
    | cons d ds ih => rw [SharedDir.copyTrees, ih, List.map_cons]
  have hnode : ∀ c : SharedDir, c.copyTree.node.key = c.node.key ∧
      c.copyTree.getTypes = c.getTypes := by
    intro c
    cases c
    exact ⟨rfl, rfl⟩
  induction h with
  | @mk n ds hfiles hsub _ ih =>
    have hkeys : SharedDir.keys (ds.map SharedDir.copyTree) = SharedDir.keys ds := by
      rw [SharedDir.keys, SharedDir.keys, List.map_map]
      exact List.map_congr_left fun c _ => (hnode c).1
    rw [SharedDir.copyTree, hmap]
    refine .mk hfiles ⟨?_, ?_⟩ ?_
    · rw [hkeys]
      exact hsub.keys
    · intro e he
      obtain ⟨c, hc, rfl⟩ := List.mem_map.mp he
      rw [(hnode c).2]
      exact hsub.types c hc
    · intro e he
      obtain ⟨c, hc, rfl⟩ := List.mem_map.mp he
      exact ih c hc

end Covered

/-! ### A directory that is loaded -/

/-- What holds of a directory below which something is loaded: all but the subdirectory with the key
is covered. -/
structure LoadLevel (_ : Unit) (k : List UInt8) (d : SharedDir) : Prop where
  files : d.node.CoversFiles
  keys : (SharedDir.keys d.dirs).Nodup
  others : ∀ c ∈ d.dirs, c.node.key ≠ k → BitsIn c.getTypes d.node.dirsTypesMask ∧ Covered c

/-- A tree of which the directory at the path is loaded. -/
def Loading (p : DirPath) : SharedDir → Prop :=
  SharedDir.Along LoadLevel Covered (p.map fun k => ((), k))

theorem pathOf_loading (p : DirPath) : SharedDir.pathOf (p.map fun k => ((), k)) = p := by
  rw [SharedDir.pathOf, List.map_map]
  exact List.map_id p

theorem replaces_loadLevel : SharedDir.Replaces LoadLevel fun _ _ => True := by
  intro _ k n ds c f h hc hkey _
  constructor
  · exact h.files
  · have hkeys : SharedDir.keys (SharedDir.modifyChild k f ds) = SharedDir.keys ds :=
      SharedDir.keys_modifyChild hc hkey
    exact hkeys.symm ▸ h.keys
  · intro e he hek
    rcases SharedDir.mem_modifyChild h.keys hc he with rfl | ⟨he, -⟩
    · exact absurd (hkey.trans (SharedDir.mem_of_child? hc).2) hek
    · exact h.others e he hek

/-- The directory that is loaded is changed. -/
theorem Loading.modifyAt {p : DirPath} {d : SharedDir} (h : Loading p d)
    {f : SharedDir → SharedDir}
    (hf : ∀ c, Covered c → (f c).node.key = c.node.key ∧ Covered (f c)) :
    Loading p (SharedDir.modifyAt p f d) := by
  have halong := SharedDir.Along.modifyAt replaces_loadLevel (fun _ => True.intro) h []
    fun c hc => ⟨(hf c hc).1, True.intro, (hf c hc).2⟩
  rw [pathOf_loading, List.append_nil] at halong
  exact halong.1

/-- A new subdirectory is loaded. -/
theorem LoadLevel.insertDir {k name : List UInt8} {d : SharedDir} (h : Covered d)
    (hk : d.child? k = none) :
    LoadLevel () k (d.mapDirs (SharedDir.insertDir (.new k name))) ∧
      (d.mapDirs (SharedDir.insertDir (.new k name))).child? k = some (.new k name) := by
  cases d with
  | mk n ds =>
    have hfind : (ds.find? fun d => d.node.key = (SharedDir.new k name).node.key) = none := hk
    refine ⟨⟨h.files, ?_, ?_⟩, SharedDir.find?_insertDir hfind⟩
    · apply (SharedDir.keys_insertDir (.new k name) ds).nodup_iff.mpr
      refine List.nodup_cons.mpr ⟨?_, h.subdirs.keys⟩
      intro hmem
      obtain ⟨c, hc, hck⟩ := List.mem_map.mp hmem
      exact List.find?_eq_none.mp hfind c hc (by simpa using hck)
    · intro c hc hck
      rcases SharedDir.mem_insertDir.mp hc with rfl | hc
      · exact absurd rfl hck
      · exact ⟨h.subdirs.types c hc, h.dirs c hc⟩

theorem Loading.insertDir {p : DirPath} {k name : List UInt8} {d : SharedDir} (h : Loading p d)
    (hk : ∀ c, d.find? p = some c → c.child? k = none) :
    Loading (p ++ [k])
      (SharedDir.modifyAt p (fun c => c.mapDirs (SharedDir.insertDir (.new k name))) d) := by
  have hfound := SharedDir.Along.found h
  rw [pathOf_loading] at hfound
  have hinserted : ∀ c, Covered c ∧ d.find? p = some c →
      (c.mapDirs (SharedDir.insertDir (.new k name))).node.key = c.node.key ∧ True ∧
        SharedDir.Along LoadLevel Covered [((), k)]
          (c.mapDirs (SharedDir.insertDir (.new k name))) := by
    intro c hc
    obtain ⟨hlevel, hchild⟩ := LoadLevel.insertDir hc.1 (hk c hc.2)
    exact ⟨by cases c; rfl, True.intro, hlevel, _, hchild, Covered.new k name⟩
  have halong := SharedDir.Along.modifyAt replaces_loadLevel (fun _ => True.intro) hfound [((), k)]
    hinserted
  rw [pathOf_loading] at halong
  rw [Loading, List.map_append]
  exact halong.1

/-- The directory above a directory that has been loaded learns its types. -/
theorem Loading.dirEnd {p : DirPath} {k : List UInt8} {d c : SharedDir} (h : Loading (p ++ [k]) d)
    (hc : d.find? (p ++ [k]) = some c) (size : Int) :
    Loading p (SharedDir.modifyAt p (ShareManager.addLoaded c.getTypes size) d) := by
  rw [Loading, List.map_append, SharedDir.along_append] at h
  have hfound := SharedDir.Along.found h
  rw [pathOf_loading] at hfound
  have hadded : ∀ e, SharedDir.Along LoadLevel Covered [((), k)] e ∧ d.find? p = some e →
      (ShareManager.addLoaded c.getTypes size e).node.key = e.node.key ∧ True ∧
        SharedDir.Along LoadLevel Covered [] (ShareManager.addLoaded c.getTypes size e) := by
    rintro ⟨n, ds⟩ ⟨⟨hlevel, e, he, hcovered⟩, hfind⟩
    have hec : e = c := by
      rw [SharedDir.find?_append, hfind, Option.bind_some] at hc
      change (SharedDir.child? _ k).bind (SharedDir.find? []) = some c at hc
      rw [he] at hc
      exact Option.some.inj hc
    subst hec
    refine ⟨rfl, True.intro, .mk hlevel.files ⟨hlevel.keys, ?_⟩ ?_⟩
    · intro e' he'
      by_cases hek : e'.node.key = k
      · rw [SharedDir.eq_of_child? hlevel.keys he he' hek]
        exact bitsIn_or_right _ _
      · exact (hlevel.others e' he' hek).1.or_left _
    · intro e' he'
      by_cases hek : e'.node.key = k
      · rw [SharedDir.eq_of_child? hlevel.keys he he' hek]
        exact hcovered
      · exact (hlevel.others e' he' hek).2
  have halong := SharedDir.Along.modifyAt replaces_loadLevel (fun _ => True.intro) hfound [] hadded
  rw [pathOf_loading, List.append_nil] at halong
  exact halong.1

/-! ### A directory that is scanned -/

/-- What is known of the objects of files: where each one is and its types, and which are marked. -/
structure Marks where
  owner : Nat → Option (DirPath × Nat)
  notFound : Nat → Bool

/-- The files of a directory that is scanned: the masks of the directory and of the activation have
the types of all, and the one of the activation has those of the files that were found. -/
structure OpenFiles (m : Marks) (fr : Frame) (n : DirNode) : Prop where
  owned : ∀ kf ∈ n.files, m.owner kf.2.id = some (fr.dirPath, kf.2.typesMask)
  covered : ∀ kf ∈ n.files, BitsIn kf.2.typesMask (n.filesTypesMask ||| fr.filesTypesMask)
  found : ∀ kf ∈ n.files, m.notFound kf.2.id = false → BitsIn kf.2.typesMask fr.filesTypesMask

/-- A subdirectory that is not being scanned: if it was found, the mask of the activation has its
types. -/
structure Scanned (fr : Frame) (c : SharedDir) : Prop where
  covered : Covered c
  found : c.node.notFound = false → BitsIn c.getTypes fr.dirsTypesMask

/-- What holds of a directory below which a directory is scanned. -/
structure ScanLevel (m : Marks) (fr : Frame) (k : List UInt8) (d : SharedDir) : Prop where
  files : OpenFiles m fr d.node
  subdirs : CoversDirs d.node d.dirs
  others : ∀ c ∈ d.dirs, c.node.key ≠ k → Scanned fr c

/-- What holds of the directory that is scanned. -/
structure ScanInner (m : Marks) (fr : Frame) (d : SharedDir) : Prop where
  files : OpenFiles m fr d.node
  subdirs : CoversDirs d.node d.dirs
  dirs : ∀ c ∈ d.dirs, Scanned fr c

/-- The subdirectory on the path is replaced, and `dirsTypesMask` may become another one. -/
theorem ScanLevel.replace {m : Marks} {fr : Frame} {k : List UInt8} {n n' : DirNode}
    {ds : List SharedDir} {c : SharedDir} {f : SharedDir → SharedDir}
    (h : ScanLevel m fr k (.mk n ds)) (hc : (SharedDir.mk n ds).child? k = some c)
    (hkey : (f c).node.key = c.node.key) (hfiles : n'.files = n.files)
    (hmask : n'.filesTypesMask = n.filesTypesMask)
    (htypes : BitsIn (f c).getTypes n'.dirsTypesMask)
    (hothers : ∀ e ∈ ds, e.node.key ≠ k → BitsIn e.getTypes n'.dirsTypesMask) :
    ScanLevel m fr k (.mk n' (SharedDir.modifyChild k f ds)) := by
  have hkeys : SharedDir.keys (SharedDir.modifyChild k f ds) = SharedDir.keys ds :=
    SharedDir.keys_modifyChild hc hkey
  constructor
  · constructor
    · exact fun kf hkf => h.files.owned kf (hfiles ▸ hkf)
    · intro kf hkf
      rw [show (SharedDir.mk n' (SharedDir.modifyChild k f ds)).node.filesTypesMask =
        n.filesTypesMask from hmask]
      exact h.files.covered kf (hfiles ▸ hkf)
    · exact fun kf hkf => h.files.found kf (hfiles ▸ hkf)
  · refine ⟨hkeys.symm ▸ h.subdirs.keys, ?_⟩
    intro e he
    rcases SharedDir.mem_modifyChild h.subdirs.keys hc he with rfl | ⟨he, hek⟩
    · exact htypes
    · exact hothers e he hek
  · intro e he hek
    rcases SharedDir.mem_modifyChild h.subdirs.keys hc he with rfl | ⟨he, -⟩
    · exact absurd (hkey.trans (SharedDir.mem_of_child? hc).2) hek
    · exact h.others e he hek

/-- The types of a directory. -/
def SameTypes (n n' : DirNode) : Prop :=
  n'.filesTypesMask ||| n'.dirsTypesMask = n.filesTypesMask ||| n.dirsTypesMask

theorem replaces_scanLevel (m : Marks) : SharedDir.Replaces (ScanLevel m) SameTypes := by
  intro fr k n ds c f h hc hkey htypes
  apply h.replace hc hkey rfl rfl
  · rw [show (f c).getTypes = c.getTypes from htypes]
    exact h.subdirs.types c (SharedDir.mem_of_child? hc).1
  · exact fun e he _ => h.subdirs.types e he

/-! ### The end of a directory -/

variable {m : Marks} {I I' : SharedDir → Prop} {ls : List (Frame × List UInt8)} {d : SharedDir}

theorem along_updateSize (deltaSize : Int) (h : SharedDir.Along (ScanLevel m) I ls d)
    (hI : ∀ c, I c → I' (c.mapNode fun n => { n with totalSize := n.totalSize + deltaSize })) :
    SharedDir.Along (ScanLevel m) I' ls (d.updateSize deltaSize (SharedDir.pathOf ls)) ∧
      (d.updateSize deltaSize (SharedDir.pathOf ls)).node.key = d.node.key ∧
      SameTypes d.node (d.updateSize deltaSize (SharedDir.pathOf ls)).node := by
  induction ls generalizing d with
  | nil =>
    cases d
    exact ⟨hI _ h, rfl, rfl⟩
  | cons lk ls ih =>
    obtain ⟨hd, c, hc, h⟩ := h
    obtain ⟨halong, hkey, htypes⟩ := ih h
    cases d with
    | mk n ds =>
      refine ⟨⟨hd.replace hc hkey rfl rfl ?_ ?_, _, SharedDir.find?_modifyChild_of_find? hc hkey,
        halong⟩, rfl, rfl⟩
      · exact (BitsIn.of_eq htypes).trans (hd.subdirs.types c (SharedDir.mem_of_child? hc).1)
      · exact fun e he _ => hd.subdirs.types e he

private theorem addTypes_cons (filesMask dirsMask : Nat) {k : List UInt8} {p : DirPath}
    {n : DirNode} {ds : List SharedDir} {c : SharedDir}
    (hc : (SharedDir.mk n ds).child? k = some c) :
    (SharedDir.mk n ds).addTypes filesMask dirsMask (k :: p) =
      let ds' := SharedDir.modifyChild k (fun c => (c.addTypes filesMask dirsMask p).1) ds
      let mask := n.dirsTypesMask ||| (filesMask ||| dirsMask)
      if !(c.addTypes filesMask dirsMask p).2 || mask = n.dirsTypesMask then (.mk n ds', false)
      else (.mk { n with dirsTypesMask := mask } ds', true) := by
  rw [SharedDir.addTypes, hc]
  rfl

/-- What `addTypes` adds is in the masks of all directories above, also where it stops. -/
theorem along_addTypes (filesMask dirsMask : Nat) (h : SharedDir.Along (ScanLevel m) I ls d)
    (hI : ∀ c, I c → I' (c.addTypes filesMask dirsMask []).1) :
    let r := d.addTypes filesMask dirsMask (SharedDir.pathOf ls)
    SharedDir.Along (ScanLevel m) I' ls r.1 ∧ r.1.node.key = d.node.key ∧
      BitsIn r.1.getTypes (d.getTypes ||| (filesMask ||| dirsMask)) ∧
      (r.2 = false → SameTypes d.node r.1.node) := by
  induction ls generalizing d with
  | nil =>
    refine ⟨hI d h, ?_⟩
    rw [show SharedDir.pathOf ([] : List (Frame × List UInt8)) = [] from rfl, SharedDir.addTypes]
    split
    · exact ⟨rfl, bitsIn_or_left _ _, fun _ => rfl⟩
    · cases d with
      | mk n ds =>
        refine ⟨rfl, ?_, fun hfalse => Bool.noConfusion hfalse⟩
        apply or_bitsIn_iff.mpr
        constructor
        · exact (bitsIn_or_left _ _).or (bitsIn_or_left _ _)
        · exact (bitsIn_or_right _ _).or (bitsIn_or_right _ _)
  | cons lk ls ih =>
    obtain ⟨hd, c, hc, h⟩ := h
    obtain ⟨halong, hkey, htypes, hsame⟩ := ih h
    have hmem := (SharedDir.mem_of_child? hc).1
    cases d with
    | mk n ds =>
      have hfind := SharedDir.find?_modifyChild_of_find?
        (f := fun c => (c.addTypes filesMask dirsMask (SharedDir.pathOf ls)).1) hc hkey
      have hold := hd.subdirs.types
      rw [show SharedDir.pathOf (lk :: ls) = lk.2 :: SharedDir.pathOf ls from rfl,
        addTypes_cons filesMask dirsMask hc]
      dsimp only
      split
      · next hstop =>
        refine ⟨⟨hd.replace hc hkey rfl rfl ?_ fun e he _ => hold e he, _, hfind, halong⟩, rfl,
          bitsIn_or_left _ _, fun _ => rfl⟩
        rw [Bool.or_eq_true, Bool.not_eq_true', decide_eq_true_eq] at hstop
        rcases hstop with hstop | hmask
        · exact (BitsIn.of_eq (hsame hstop)).trans (hold c hmem)
        · exact htypes.trans (or_bitsIn_iff.mpr ⟨hold c hmem, bitsIn_iff.mpr hmask⟩)
      · refine ⟨⟨hd.replace hc hkey rfl rfl ?_ ?_, _, hfind, halong⟩, rfl, ?_,
          fun hfalse => Bool.noConfusion hfalse⟩
        · exact htypes.trans ((hold c hmem).or (BitsIn.refl _))
        · exact fun e he _ => (hold e he).or_left _
        · exact BitsIn.of_eq (Nat.or_assoc _ _ _).symm

private theorem updateTypes_cons (filesMask dirsMask : Nat) {k : List UInt8} {p : DirPath}
    {n : DirNode} {ds : List SharedDir} {c : SharedDir}
    (hc : (SharedDir.mk n ds).child? k = some c) :
    (SharedDir.mk n ds).updateTypes filesMask dirsMask (k :: p) =
      let ds' := SharedDir.modifyChild k (fun c => (c.updateTypes filesMask dirsMask p).1) ds
      let newMask := ds'.foldl (fun mask c => mask ||| c.getTypes) 0
      if !(c.updateTypes filesMask dirsMask p).2 || newMask = n.dirsTypesMask then
        (.mk n ds', false)
      else (.mk { n with dirsTypesMask := newMask } ds', true) := by
  rw [SharedDir.updateTypes, hc]
  rfl

/-- `updateTypes` makes the masks of the directories above anew, as far as it goes. -/
theorem along_updateTypes (filesMask dirsMask : Nat) (h : SharedDir.Along (ScanLevel m) I ls d)
    (hI : ∀ c, I c → I' (c.updateTypes filesMask dirsMask []).1) :
    let r := d.updateTypes filesMask dirsMask (SharedDir.pathOf ls)
    SharedDir.Along (ScanLevel m) I' ls r.1 ∧ r.1.node.key = d.node.key ∧
      (r.2 = false → SameTypes d.node r.1.node) := by
  induction ls generalizing d with
  | nil =>
    refine ⟨hI d h, ?_⟩
    rw [show SharedDir.pathOf ([] : List (Frame × List UInt8)) = [] from rfl, SharedDir.updateTypes]
    split
    · exact ⟨rfl, fun _ => rfl⟩
    · cases d
      exact ⟨rfl, fun hfalse => Bool.noConfusion hfalse⟩
  | cons lk ls ih =>
    obtain ⟨hd, c, hc, h⟩ := h
    obtain ⟨halong, hkey, hsame⟩ := ih h
    cases d with
    | mk n ds =>
      have hfind := SharedDir.find?_modifyChild_of_find?
        (f := fun c => (c.updateTypes filesMask dirsMask (SharedDir.pathOf ls)).1) hc hkey
      have hchild := List.mem_of_find?_eq_some hfind
      rw [show SharedDir.pathOf (lk :: ls) = lk.2 :: SharedDir.pathOf ls from rfl,
        updateTypes_cons filesMask dirsMask hc]
      dsimp only
      split
      · next hstop =>
        refine ⟨⟨hd.replace hc hkey rfl rfl ?_ fun e he _ => hd.subdirs.types e he, _, hfind,
          halong⟩, rfl, fun _ => rfl⟩
        rw [Bool.or_eq_true, Bool.not_eq_true', decide_eq_true_eq] at hstop
        rcases hstop with hstop | hmask
        · exact (BitsIn.of_eq (hsame hstop)).trans
            (hd.subdirs.types c (SharedDir.mem_of_child? hc).1)
        · exact hmask ▸ bitsIn_foldl hchild 0
      · refine ⟨⟨hd.replace hc hkey rfl rfl ?_ ?_, _, hfind, halong⟩, rfl,
          fun hfalse => Bool.noConfusion hfalse⟩
        · exact bitsIn_foldl hchild 0
        · exact fun e he hek => bitsIn_foldl (SharedDir.mem_modifyChild_of_ne he hek) 0

end Blacklink.Share
