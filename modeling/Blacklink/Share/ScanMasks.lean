import Blacklink.Share.TypeMasks

/-!
# The type masks during a scan

The activations of `scanDir` (`client/ShareManager.cpp:2786-2970`) are the directories from the
share to the one that is scanned. At the end of a directory its masks are widened, or set to the
types that were found when something of the share is gone. That is enough for what stays, unless the
counters say that everything was found while something is still marked.
-/

namespace Blacklink.Share

open Blacklink.Base SharedDir

variable {m m' : Marks} {fr fr' : Frame} {k : List UInt8} {ls : List (Frame × List UInt8)}
  {d c : SharedDir} {I : SharedDir → Prop}

/-! ### Where files are -/

/-- Each file of the tree is where its owner says, with its types. -/
def Owned (owner : Nat → Option (DirPath × Nat)) (d : SharedDir) : Prop :=
  ∀ x ∈ d.placed, owner x.file.id = some (x.path, x.file.typesMask)

variable {owner owner' : Nat → Option (DirPath × Nat)}

theorem Owned.mono (h : Owned owner d) (hle : ∀ id v, owner id = some v → owner' id = some v) :
    Owned owner' d := fun x hx => hle _ _ (h x hx)

theorem Owned.of_keepsContents {f : SharedDir → SharedDir} (hf : KeepsContents f)
    (h : Owned owner d) : Owned owner (f d) := by
  rw [Owned, hf.placed]
  exact h

private theorem placed_node (n : DirNode) (p : DirPath) {kf : List UInt8 × SharedFile}
    (hkf : kf ∈ n.files) : (⟨p, kf.1, kf.2⟩ : Placed) ∈ n.placed p :=
  List.mem_map.mpr ⟨kf, hkf, rfl⟩

/-- The files of a directory are at its path. -/
theorem Owned.files {p : DirPath} (h : Owned owner d) (hc : d.find? p = some c) :
    ∀ kf ∈ c.node.files, owner kf.2.id = some (p, kf.2.typesMask) := by
  intro kf hkf
  obtain ⟨l, r, hplaced, -⟩ := placed_modifyFiles hc id
  apply h ⟨p, kf.1, kf.2⟩
  rw [hplaced]
  exact List.mem_append_left r (List.mem_append_right l (placed_node c.node p hkf))

/-- One directory is changed, but for its key and its subdirectories. -/
theorem Owned.modifyNode {p : DirPath} (h : Owned owner d) {f : DirNode → DirNode}
    (hkey : ∀ n, (f n).key = n.key) (hle : ∀ id v, owner id = some v → owner' id = some v)
    (hf : ∀ n, ∀ kf ∈ (f n).files, kf ∈ n.files ∨ owner' kf.2.id = some (p, kf.2.typesMask)) :
    Owned owner' (d.modifyAt p fun d => d.mapNode f) := by
  cases hc : d.find? p with
  | none =>
    rw [modifyAt_of_none hc]
    exact h.mono hle
  | some c =>
    have hkey' : (c.mapNode f).node.key = c.node.key := by
      cases c
      exact hkey _
    obtain ⟨l, r, hplaced, hplaced'⟩ := placed_modifyAt hc hkey'
    have hold : ∀ x ∈ d.placed, owner' x.file.id = some (x.path, x.file.typesMask) :=
      h.mono hle
    intro x hx
    rw [hplaced', List.append_assoc, List.mem_append, List.mem_append] at hx
    rcases hx with hx | hx | hx
    · exact hold x (by rw [hplaced]; simp [hx])
    · obtain ⟨y, hy, rfl⟩ := List.mem_map.mp hx
      cases c with
      | mk n ds =>
        rw [SharedDir.mapNode, placed_mk, List.mem_append] at hy
        rcases hy with hy | hy
        · obtain ⟨kf, hkf, rfl⟩ := List.mem_map.mp hy
          rw [show Placed.under p ⟨[], kf.1, kf.2⟩ = ⟨p, kf.1, kf.2⟩ by
            rw [Placed.under, List.append_nil]]
          exact (hf n kf hkf).elim (fun hkf => hle _ _ (h.files hc kf hkf)) id
        · apply hold
          rw [hplaced, placed_mk]
          apply List.mem_append_left
          apply List.mem_append_right
          exact List.mem_map_of_mem (List.mem_append_right _ hy)
    · exact hold x (by rw [hplaced]; simp [hx])

/-- The files of one directory are changed. -/
theorem Owned.modifyFiles {p : DirPath} (h : Owned owner d)
    {f : List (List UInt8 × SharedFile) → List (List UInt8 × SharedFile)}
    (hle : ∀ id v, owner id = some v → owner' id = some v)
    (hf : ∀ files, ∀ kf ∈ f files, kf ∈ files ∨ owner' kf.2.id = some (p, kf.2.typesMask)) :
    Owned owner' (SharedDir.modifyFiles p f d) :=
  h.modifyNode (f := fun n => { n with files := f n.files }) (fun _ => rfl) hle fun n => hf n.files

/-- A directory is replaced by one that has some of its files. -/
theorem Owned.replace {p : DirPath} (h : Owned owner d) (hc : d.find? p = some c) {e : SharedDir}
    (hkey : e.node.key = c.node.key) (hsub : ∀ x ∈ e.placed, x ∈ c.placed) :
    Owned owner (d.modifyAt p fun _ => e) := by
  obtain ⟨l, r, hplaced, hplaced'⟩ := placed_modifyAt hc (f := fun _ => e) hkey
  intro x hx
  apply h x
  rw [hplaced', List.append_assoc, List.mem_append, List.mem_append] at hx
  rw [hplaced, List.append_assoc, List.mem_append, List.mem_append]
  refine hx.imp_right (Or.imp_left fun hx => ?_)
  obtain ⟨y, hy, rfl⟩ := List.mem_map.mp hx
  exact List.mem_map_of_mem (hsub y hy)

/-! ### Other marks -/

/-- The marks may be other ones for files that are somewhere else, and more may be marked. -/
theorem OpenFiles.marks {n : DirNode} (h : OpenFiles m fr n)
    (howner : ∀ id v, m.owner id = some v → m'.owner id = some v)
    (hfound : ∀ id t, m.owner id = some (fr.dirPath, t) → m'.notFound id = false →
      m.notFound id = false) : OpenFiles m' fr n where
  owned kf hkf := howner _ _ (h.owned kf hkf)
  covered := h.covered
  found kf hkf hkf' := h.found kf hkf (hfound _ _ (h.owned kf hkf) hkf')

theorem ScanLevel.marks (h : ScanLevel m fr k d)
    (howner : ∀ id v, m.owner id = some v → m'.owner id = some v)
    (hfound : ∀ id t, m.owner id = some (fr.dirPath, t) → m'.notFound id = false →
      m.notFound id = false) : ScanLevel m' fr k d :=
  ⟨h.files.marks howner hfound, h.subdirs, h.others⟩

/-! ### The activations -/

/-- The activations but for the innermost one, and the directories they are of with the keys of
those that they have called `scanDir` for. -/
inductive Stack : List Frame → List (Frame × List UInt8) → Prop where
  | nil : Stack [] []
  | call {frs : List Frame} {ls : List (Frame × List UInt8)} (h : Stack frs ls) (fr : Frame)
    (hpath : fr.dirPath = pathOf ls) (k : List UInt8) : Stack (fr :: frs) (ls ++ [(fr, k)])

theorem pathOf_append (ls : List (Frame × List UInt8)) (fr : Frame) (k : List UInt8) :
    pathOf (ls ++ [(fr, k)]) = pathOf ls ++ [k] := by
  rw [pathOf, List.map_append]
  rfl

/-- An outer activation is of another directory. -/
theorem Stack.dirPath_ne {frs : List Frame} (h : Stack frs ls) :
    ∀ lk ∈ ls, lk.1.dirPath ≠ pathOf ls := by
  have hlen : ∀ lk ∈ ls, lk.1.dirPath.length < ls.length := by
    induction h with
    | nil => exact fun lk hlk => absurd hlk List.not_mem_nil
    | call _ fr hpath k ih =>
      intro lk hlk
      rw [List.length_append, List.length_singleton]
      rcases List.mem_append.mp hlk with hlk | hlk
      · exact (ih lk hlk).trans (Nat.lt_succ_self _)
      · rw [List.mem_singleton.mp hlk]
        dsimp only
        rw [hpath, pathOf, List.length_map]
        exact Nat.lt_succ_self _
  intro lk hlk heq
  have := hlen lk hlk
  rw [heq, pathOf, List.length_map] at this
  exact Nat.lt_irrefl _ this

/-- The share that is scanned: what is said of the directories of the activations. -/
structure Active (m : Marks) (a : ActiveShare) : Prop where
  owned : Owned m.owner a.item.dir
  open_ : ∃ ls fr frs, a.frames = fr :: frs ∧ Stack frs ls ∧ fr.dirPath = pathOf ls ∧
    Along (ScanLevel m) (ScanInner m fr) ls a.item.dir

theorem Active.marks {a : ActiveShare} (h : Active m a)
    (howner : ∀ id v, m.owner id = some v → m'.owner id = some v)
    (hfound : ∀ id v, m.owner id = some v → m'.notFound id = false → m.notFound id = false) :
    Active m' a := by
  obtain ⟨ls, fr, frs, hframes, hstack, hpath, halong⟩ := h.open_
  refine ⟨h.owned.mono howner, ls, fr, frs, hframes, hstack, hpath, ?_⟩
  refine halong.imp (fun _ _ d hd => hd.marks howner fun id t => hfound id _) fun c hc => ?_
  exact ⟨hc.files.marks howner fun id t => hfound id _, hc.subdirs, hc.dirs⟩

/-! ### The end of a directory -/

/-- Either something is left to be found, or nothing is marked any more. -/
def CountsRight (notFound : Nat → Bool) (fr : Frame) (dir : SharedDir) : Prop :=
  (fr.countFiles ≤ fr.foundFiles → ∀ kf ∈ dir.node.files, notFound kf.2.id = false) ∧
    (fr.countDirs ≤ fr.foundDirs → ∀ c ∈ dir.dirs, c.node.notFound = false)

instance (notFound : Nat → Bool) (fr : Frame) (dir : SharedDir) :
    Decidable (CountsRight notFound fr dir) := inferInstanceAs (Decidable (_ ∧ _))

/-- The directory after the loops at the end of `scanDir`; `removed` is that the masks are set. -/
structure ErasedInner (fr : Frame) (removed : Bool) (c : SharedDir) : Prop where
  files : ∀ kf ∈ c.node.files, BitsIn kf.2.typesMask (c.node.filesTypesMask ||| fr.filesTypesMask)
  subdirs : CoversDirs c.node c.dirs
  dirs : ∀ e ∈ c.dirs, Covered e
  filesFound : removed = true → ∀ kf ∈ c.node.files, BitsIn kf.2.typesMask fr.filesTypesMask
  dirsFound : removed = true → ∀ e ∈ c.dirs, BitsIn e.getTypes fr.dirsTypesMask

private theorem keys_sublist {ds ds' : List SharedDir} (h : ds'.Sublist ds)
    (hnodup : (keys ds).Nodup) : (keys ds').Nodup := (h.map _).nodup hnodup

/-- What the loops leave. -/
theorem eraseNotFound_inner {TTH : Type} {s : ShareManager TTH} {sc : Scan TTH}
    (hm : m.notFound = fun id => (s.fileState id).notFound) (h : ScanInner m fr d)
    (hcounts : (s.eraseNotFound sc fr d).flags.removed = true → CountsRight m.notFound fr d) :
    ErasedInner fr (s.eraseNotFound sc fr d).flags.removed (s.eraseNotFound sc fr d).dir ∧
      (s.eraseNotFound sc fr d).dir.node.key = d.node.key ∧
      SameTypes d.node (s.eraseNotFound sc fr d).dir.node := by
  have hfiles : ∀ kf ∈ (s.eraseNotFound sc fr d).dir.node.files, kf ∈ d.node.files ∧
      (CountsRight m.notFound fr d → m.notFound kf.2.id = false) := by
    intro kf hkf
    unfold ShareManager.eraseNotFound at hkf
    dsimp only [node_mk] at hkf
    split at hkf
    · obtain ⟨hkf, hnot⟩ := List.mem_filter.mp hkf
      refine ⟨hkf, fun _ => ?_⟩
      rw [hm]
      simpa using hnot
    · next hcount => exact ⟨hkf, fun hright => hright.1 (Nat.not_lt.mp hcount) kf hkf⟩
  have hsub : (s.eraseNotFound sc fr d).dir.dirs.Sublist d.dirs := by
    unfold ShareManager.eraseNotFound
    dsimp only [dirs_mk]
    split
    · exact List.filter_sublist
    · exact List.Sublist.refl _
  have hdirs : ∀ e ∈ (s.eraseNotFound sc fr d).dir.dirs,
      CountsRight m.notFound fr d → e.node.notFound = false := by
    intro e he hright
    unfold ShareManager.eraseNotFound at he
    dsimp only [dirs_mk] at he
    split at he
    · simpa using (List.mem_filter.mp he).2
    · next hcount => exact hright.2 (Nat.not_lt.mp hcount) e he
  refine ⟨⟨?_, ⟨?_, ?_⟩, ?_, ?_, ?_⟩, rfl, rfl⟩
  · exact fun kf hkf => h.files.covered kf (hfiles kf hkf).1
  · exact keys_sublist hsub h.subdirs.keys
  · exact fun e he => h.subdirs.types e (hsub.subset he)
  · exact fun e he => (h.dirs e (hsub.subset he)).covered
  · intro hremoved kf hkf
    exact h.files.found kf (hfiles kf hkf).1 ((hfiles kf hkf).2 (hcounts hremoved))
  · intro hremoved e he
    exact (h.dirs e (hsub.subset he)).found (hdirs e he (hcounts hremoved))

theorem ErasedInner.addTypes {removed : Bool} (h : ErasedInner fr removed c) :
    Covered (c.addTypes fr.filesTypesMask fr.dirsTypesMask []).1 := by
  rw [SharedDir.addTypes]
  split
  · next hsame =>
    cases c with
    | mk n ds =>
      refine .mk (fun kf hkf => ?_) h.subdirs h.dirs
      have hfiles := h.files kf hkf
      rwa [show (SharedDir.mk n ds).node = n from rfl, show n.filesTypesMask ||| fr.filesTypesMask =
        n.filesTypesMask from hsame.1] at hfiles
  · cases c with
    | mk n ds =>
      refine .mk h.files ⟨h.subdirs.keys, fun e he => ?_⟩ h.dirs
      exact (h.subdirs.types e he).or_left _

theorem ErasedInner.updateTypes (h : ErasedInner fr true c) :
    Covered (c.updateTypes fr.filesTypesMask fr.dirsTypesMask []).1 := by
  rw [SharedDir.updateTypes]
  split
  · next hsame =>
    cases c with
    | mk n ds =>
      refine .mk (fun kf hkf => ?_) h.subdirs h.dirs
      rw [show n.filesTypesMask = fr.filesTypesMask from hsame.1]
      exact h.filesFound rfl kf hkf
  · cases c with
    | mk n ds =>
      exact .mk (h.filesFound rfl) ⟨h.subdirs.keys, h.dirsFound rfl⟩ h.dirs

/-- After the end of a directory it is covered like the others. -/
theorem along_closeDir {erased : ShareManager.Erased} {root dir : SharedDir}
    (h : Along (ScanLevel m) (ScanInner m fr) ls root) (hpath : fr.dirPath = pathOf ls)
    (hdir : root.find? fr.dirPath = some dir)
    (herased : ErasedInner fr erased.flags.removed erased.dir)
    (hkey : erased.dir.node.key = dir.node.key) (htypes : SameTypes dir.node erased.dir.node) :
    Along (ScanLevel m) Covered ls (ShareManager.closeDir fr erased root) := by
  have hmodified : Along (ScanLevel m) (ErasedInner fr erased.flags.removed) ls
      (root.modifyAt (pathOf ls) fun _ => erased.dir) := by
    have hreplaced : ∀ c, ScanInner m fr c ∧ root.find? (pathOf ls) = some c →
        erased.dir.node.key = c.node.key ∧ SameTypes c.node erased.dir.node ∧
          Along (ScanLevel m) (ErasedInner fr erased.flags.removed) [] erased.dir := by
      rintro c ⟨-, hc⟩
      rw [← hpath, hdir] at hc
      cases hc
      exact ⟨hkey, htypes, herased⟩
    have halong := Along.modifyAt (replaces_scanLevel m) (fun _ => rfl) h.found []
      (f := fun _ => erased.dir) hreplaced
    rw [List.append_nil] at halong
    exact halong.1
  rw [hpath] at hdir
  unfold ShareManager.closeDir
  rw [hpath]
  dsimp only
  have hsized : Along (ScanLevel m) (ErasedInner fr erased.flags.removed) ls
      (if erased.deltaSize = 0 then root.modifyAt (pathOf ls) fun _ => erased.dir
        else
          (root.modifyAt (pathOf ls) fun _ => erased.dir).updateSize erased.deltaSize
            (pathOf ls)) := by
    split
    · exact hmodified
    · refine (along_updateSize erased.deltaSize hmodified ?_).1
      rintro ⟨n, ds⟩ hc
      exact ⟨hc.files, ⟨hc.subdirs.keys, hc.subdirs.types⟩, hc.dirs, hc.filesFound, hc.dirsFound⟩
  split
  · next hremoved =>
    rw [hremoved] at hsized
    exact (along_updateTypes _ _ hsized fun c hc => hc.updateTypes).1
  · exact (along_addTypes _ _ hsized fun c hc => hc.addTypes).1

/-! ### The beginning of a directory -/

private theorem getTypes_setNotFound (b : Bool) (d : SharedDir) :
    (d.mapNode fun n => { n with notFound := b }).getTypes = d.getTypes := by
  cases d
  rfl

private theorem covered_setNotFound (b : Bool) (h : Covered d) :
    Covered (d.mapNode fun n => { n with notFound := b }) :=
  h.mapNode (fun _ hkf => .inl hkf) (BitsIn.refl _) (BitsIn.refl _)

/-- The files of a directory are marked when it is entered. -/
theorem along_enterDir {ids : List Nat} {dirPath : DirPath} {dir root : SharedDir}
    (h : Along (ScanLevel m) Covered ls root)
    (howned : Owned m.owner root) (hpath : dirPath = pathOf ls)
    (hdir : root.find? dirPath = some dir) (hids : ids = dir.node.files.map fun kf => kf.2.id)
    (howner : m'.owner = m.owner)
    (hmarked : ∀ id, m'.notFound id = false → m.notFound id = false ∧ id ∉ ids)
    (hfr : fr.dirPath = dirPath) :
    Along (ScanLevel m') (ScanInner m' fr) ls
      (root.modifyAt dirPath SharedDir.setDirsNotFound) := by
  subst hpath
  have hlevels : Along (ScanLevel m') (fun c => Covered c ∧ root.find? (pathOf ls) = some c) ls
      root := by
    refine h.found.imp (fun lk _ d hd => ?_) fun c hc => hc
    exact hd.marks (fun id v hv => howner ▸ hv) fun id _ _ hid => (hmarked id hid).1
  have hentered : ∀ c, Covered c ∧ root.find? (pathOf ls) = some c →
      c.setDirsNotFound.node.key = c.node.key ∧ SameTypes c.node c.setDirsNotFound.node ∧
        Along (ScanLevel m') (ScanInner m' fr) [] c.setDirsNotFound := by
    rintro c ⟨hc, hfind⟩
    rw [hdir] at hfind
    cases hfind
    cases dir with
    | mk n ds =>
      refine ⟨rfl, rfl, ⟨?_, ?_, ?_⟩, ⟨?_, ?_⟩, ?_⟩
      · intro kf hkf
        rw [howner, hfr]
        exact howned.files hdir kf hkf
      · exact fun kf hkf => (hc.files kf hkf).or_left _
      · intro kf hkf hfound
        refine absurd ?_ (hmarked _ hfound).2
        rw [hids]
        exact List.mem_map_of_mem hkf
      · have hkeys : keys (ds.map (SharedDir.mapNode fun n => { n with notFound := true })) =
            keys ds := by
          rw [keys, keys, List.map_map]
          exact List.map_congr_left fun e _ => by cases e; rfl
        exact hkeys.symm ▸ hc.subdirs.keys
      · intro e he
        obtain ⟨sub, hsub, rfl⟩ := List.mem_map.mp he
        rw [getTypes_setNotFound]
        exact hc.subdirs.types sub hsub
      · intro e he
        obtain ⟨⟨n', ds'⟩, hsub, rfl⟩ := List.mem_map.mp he
        exact ⟨covered_setNotFound true (hc.dirs _ hsub), fun hfound => Bool.noConfusion hfound⟩
  have halong := Along.modifyAt (replaces_scanLevel m') (fun _ => rfl) hlevels [] hentered
  rw [List.append_nil] at halong
  exact halong.1

/-- A subdirectory that is there is entered. -/
theorem along_scanSubdir_some {root dir sub : SharedDir}
    (h : Along (ScanLevel m) (ScanInner m fr) ls root) (hpath : fr.dirPath = pathOf ls)
    (hdir : root.find? fr.dirPath = some dir) (hsub : dir.child? k = some sub) {foundDirs : Nat}
    (hfr : fr' = { fr with foundDirs := foundDirs }) :
    Along (ScanLevel m) Covered (ls ++ [(fr', k)])
      (root.modifyAt fr.dirPath (SharedDir.clearDirNotFound k)) := by
  rw [hpath] at hdir ⊢
  subst hfr
  refine (Along.modifyAt (replaces_scanLevel m) (fun _ => rfl) h.found _ ?_).1
  rintro c ⟨hc, hfind⟩
  rw [hdir] at hfind
  cases hfind
  cases dir with
  | mk n ds =>
    have hmem := (mem_of_child? hsub).1
    have hkey : (sub.mapNode fun n => { n with notFound := false }).node.key = sub.node.key := by
      cases sub
      rfl
    have hkeys : keys (SharedDir.modifyChild k
        (SharedDir.mapNode fun n => { n with notFound := false }) ds) = keys ds :=
      keys_modifyChild hsub hkey
    refine ⟨rfl, rfl, ⟨⟨hc.files.owned, hc.files.covered, hc.files.found⟩, ⟨?_, ?_⟩, ?_⟩,
      _, find?_modifyChild_of_find? hsub hkey, covered_setNotFound false (hc.dirs sub hmem).covered⟩
    · exact hkeys.symm ▸ hc.subdirs.keys
    · intro e he
      rcases mem_modifyChild hc.subdirs.keys hsub he with rfl | ⟨he, -⟩
      · rw [getTypes_setNotFound]
        exact hc.subdirs.types sub hmem
      · exact hc.subdirs.types e he
    · intro e he hek
      rcases mem_modifyChild hc.subdirs.keys hsub he with rfl | ⟨he, -⟩
      · exact absurd (hkey.trans (mem_of_child? hsub).2) hek
      · exact ⟨(hc.dirs e he).covered, (hc.dirs e he).found⟩

/-- A new subdirectory is entered. -/
theorem along_scanSubdir_none {root dir : SharedDir} {name : List UInt8}
    (h : Along (ScanLevel m) (ScanInner m fr) ls root) (hpath : fr.dirPath = pathOf ls)
    (hdir : root.find? fr.dirPath = some dir) (hsub : dir.child? k = none) :
    Along (ScanLevel m) Covered (ls ++ [(fr, k)])
      (root.modifyAt fr.dirPath fun d => d.mapDirs (SharedDir.insertDir (.new k name))) := by
  rw [hpath] at hdir ⊢
  refine (Along.modifyAt (replaces_scanLevel m) (fun _ => rfl) h.found _ ?_).1
  rintro c ⟨hc, hfind⟩
  rw [hdir] at hfind
  cases hfind
  cases dir with
  | mk n ds =>
    have hkeys := keys_insertDir (.new k name) ds
    refine ⟨rfl, rfl, ⟨⟨hc.files.owned, hc.files.covered, hc.files.found⟩, ⟨?_, ?_⟩, ?_⟩,
      .new k name, ?_, Covered.new k name⟩
    · refine hkeys.nodup_iff.mpr (List.nodup_cons.mpr ⟨?_, hc.subdirs.keys⟩)
      intro hmem
      obtain ⟨e, he, hek⟩ := List.mem_map.mp hmem
      exact List.find?_eq_none.mp hsub e he (decide_eq_true hek)
    · intro e he
      rcases mem_insertDir.mp he with rfl | he
      · rw [show (SharedDir.new k name).getTypes = 0 from Nat.or_self 0]
        exact bitsIn_zero _
      · exact hc.subdirs.types e he
    · intro e he hek
      rcases mem_insertDir.mp he with rfl | he
      · exact absurd rfl hek
      · exact hc.dirs e he
    · exact find?_insertDir (c := .new k name) hsub

/-! ### A file -/

/-- The files of the directory have changed: those there are now were there or are new ones, and the
activation has seen what is found now. -/
theorem along_files {root : SharedDir} (h : Along (ScanLevel m) (ScanInner m fr) ls root)
    (hpath : fr.dirPath = pathOf ls) (hfr : fr'.dirPath = fr.dirPath)
    (hdirs : fr'.dirsTypesMask = fr.dirsTypesMask)
    (hfiles : BitsIn fr.filesTypesMask fr'.filesTypesMask)
    (howner : ∀ id v, m.owner id = some v → m'.owner id = some v)
    (hfound : ∀ id p t, m.owner id = some (p, t) → m'.notFound id = false →
      m.notFound id = false ∨ p = fr.dirPath ∧ BitsIn t fr'.filesTypesMask)
    {f : List (List UInt8 × SharedFile) → List (List UInt8 × SharedFile)}
    (hf : ∀ files, ∀ kf ∈ f files, kf ∈ files ∨
      m'.owner kf.2.id = some (fr.dirPath, kf.2.typesMask) ∧
        BitsIn kf.2.typesMask fr'.filesTypesMask)
    (houter : ∀ lk ∈ ls, lk.1.dirPath ≠ pathOf ls) :
    Along (ScanLevel m') (ScanInner m' fr') ls (root.modifyFiles fr.dirPath f) := by
  have hlevels : Along (ScanLevel m') (ScanInner m fr) ls root := by
    refine h.imp (fun lk hlk d hd => ?_) fun c hc => hc
    apply hd.marks howner
    intro id t hid hid'
    refine (hfound id _ t hid hid').resolve_right fun hopen => houter lk hlk ?_
    exact hopen.1.trans hpath
  have hchanged : ∀ c, ScanInner m fr c →
      (c.mapNode fun n => { n with files := f n.files }).node.key = c.node.key ∧
        SameTypes c.node (c.mapNode fun n => { n with files := f n.files }).node ∧
        Along (ScanLevel m') (ScanInner m' fr') []
          (c.mapNode fun n => { n with files := f n.files }) := by
    rintro ⟨n, ds⟩ hc
    refine ⟨rfl, rfl, ⟨?_, ?_, ?_⟩, ⟨hc.subdirs.keys, hc.subdirs.types⟩, ?_⟩
    · intro kf hkf
      rw [hfr]
      exact (hf _ kf hkf).elim (fun hold => howner _ _ (hc.files.owned kf hold)) And.left
    · intro kf hkf
      rcases hf _ kf hkf with hold | hnew
      · exact (hc.files.covered kf hold).trans ((BitsIn.refl _).or hfiles)
      · exact hnew.2.or_right _
    · intro kf hkf hnow
      rcases hf _ kf hkf with hold | hnew
      · rcases hfound _ _ _ (hc.files.owned kf hold) hnow with hbefore | hseen
        · exact (hc.files.found kf hold hbefore).trans hfiles
        · exact hseen.2
      · exact hnew.2
    · intro e he
      refine ⟨(hc.dirs e he).covered, fun hnow => ?_⟩
      rw [hdirs]
      exact (hc.dirs e he).found hnow
  have halong := Along.modifyAt (replaces_scanLevel m') (fun _ => rfl) hlevels [] hchanged
  rw [List.append_nil, ← hpath] at halong
  exact halong.1

/-! ### Back in the directory above -/

/-- The activation of the directory above learns the types of the one that was scanned. -/
theorem along_return {root : SharedDir} {types : Nat}
    (h : Along (ScanLevel m) Covered (ls ++ [(fr, k)]) root)
    (htypes : ∀ c, root.find? (pathOf (ls ++ [(fr, k)])) = some c → types = c.getTypes)
    (hfr : fr' = { fr with dirsTypesMask := fr.dirsTypesMask ||| types }) :
    Along (ScanLevel m) (ScanInner m fr') ls root := by
  subst hfr
  refine ((along_append ls _ root).mp h).found.imp (fun _ _ _ hd => hd) ?_
  rintro d ⟨⟨hd, c, hc, hcovered⟩, hfind⟩
  have htypes' : types = c.getTypes := by
    apply htypes
    rw [pathOf_append, find?_append, hfind]
    exact congrArg (Option.bind · (SharedDir.find? [])) hc
  refine ⟨⟨hd.files.owned, hd.files.covered, hd.files.found⟩, hd.subdirs, ?_⟩
  intro e he
  by_cases hek : e.node.key = k
  · rw [eq_of_child? hd.subdirs.keys hc he hek]
    exact ⟨hcovered, fun _ => (BitsIn.of_eq htypes'.symm).or_right _⟩
  · exact ⟨(hd.others e he hek).covered, fun hfound ↦ ((hd.others e he hek).found hfound).or_left _⟩

/-! ### The files at the end of a directory -/

theorem owned_closeDir {TTH : Type} {s : ShareManager TTH} {sc : Scan TTH} {root dir : SharedDir}
    (h : Owned owner root) (hdir : root.find? fr.dirPath = some dir) :
    Owned owner (ShareManager.closeDir fr (s.eraseNotFound sc fr dir) root) := by
  have hsub : ∀ x ∈ (s.eraseNotFound sc fr dir).dir.placed, x ∈ dir.placed := by
    cases dir with
    | mk n ds =>
      intro x hx
      unfold ShareManager.eraseNotFound at hx
      dsimp only [node_mk, dirs_mk] at hx
      rw [placed_mk, List.mem_append] at hx
      rw [placed_mk, List.mem_append]
      refine hx.imp (fun hx => ?_) fun hx => ?_
      · obtain ⟨kf, hkf, rfl⟩ := List.mem_map.mp hx
        refine List.mem_map_of_mem ?_
        split at hkf
        · exact (List.mem_filter.mp hkf).1
        · exact hkf
      · obtain ⟨e, he, hx⟩ := List.mem_flatMap.mp hx
        refine List.mem_flatMap.mpr ⟨e, ?_, hx⟩
        split at he
        · exact (List.mem_filter.mp he).1
        · exact he
  have hreplaced := h.replace hdir (e := (s.eraseNotFound sc fr dir).dir) rfl hsub
  unfold ShareManager.closeDir
  generalize s.eraseNotFound sc fr dir = erased at hreplaced
  dsimp only
  have hsized : Owned owner (if erased.deltaSize = 0 then
      root.modifyAt fr.dirPath fun _ => erased.dir
    else (root.modifyAt fr.dirPath fun _ ↦ erased.dir).updateSize erased.deltaSize fr.dirPath) := by
    split
    · exact hreplaced
    · exact hreplaced.of_keepsContents (keepsContents_updateSize _ _)
  split
  · exact hsized.of_keepsContents (keepsContents_updateTypes _ _ _)
  · exact hsized.of_keepsContents (keepsContents_addTypes _ _ _)

end Blacklink.Share
