import Mathlib.Algebra.BigOperators.Group.List.Basic
import Mathlib.Tactic.Abel
import Blacklink.Listing.Found

/-!
# Files that are filtered and copied

Model of `filterList`, of `SearchContext::match` with a destination, and of `addDclstSelf`
(`client/DirectoryListing.cpp:740-782, 1217-1267, 1283-1330, 1728-1742`), with the sums that the
directories of a listing should have. A copy of a matched directory is addressed by the indexes of
the directories that lead to it.
-/

namespace Blacklink.Listing

open Blacklink.Base
open Blacklink.Share (TTHValue)

/-! ### Filtering -/

/-- What `filterList` subtracts for files. -/
def removedTotals (files : List File) : Totals :=
  ⟨files.length, 0, (files.map fun f => BitVec.ofInt 64 f.size).sum, 0⟩

/-- There is neither a file nor a directory in it. -/
def isEmptyDir (dir : Directory) : Bool := dir.value.files.isEmpty && dir.children.isEmpty

/-- `filterList`, with what is subtracted from the sums of the parents too. -/
def filterList (l : List TTHValue) : Directory → Directory × Totals :=
  RoseTree.para fun d dirs =>
    let subs := dirs.map fun dir => dir.2.1
    let removed := (dirs.map fun dir => dir.2.2).sum
    let emptied := subs.filter isEmptyDir
    let gone := d.files.filter fun f => f.tth ∈ l
    let removed := removed + ⟨0, emptied.length, 0, 0⟩ + removedTotals gone
    (.node
      { d with
        totals := d.totals - removed
        files := d.files.filter fun f => f.tth ∉ l }
      (subs.filter fun dir => !isEmptyDir dir), removed)

/-! ### Copying -/

/-- `File::clone`, with the flags that are set then. -/
def File.clone (f : File) : File := { f with flags := f.flags ∩ fileStatusFlags }

/-- `Directory::clone`, with the flags that are set then. -/
def DirInfo.clone (src : DirInfo) : DirInfo :=
  { DirInfo.new src.name true with adls := src.adls, flags := src.flags ∩ dirStatusFlags }

/-- The directories with files that match, in the order of the search: each with the indexes of the
directories that lead to it, and them. -/
def matchedDirs (sq : SearchQuery) : Directory → List (List (Nat × DirInfo) × List File) :=
  RoseTree.para fun d dirs =>
    let files := d.files.filter sq.matchFile
    (if files = [] then [] else [([], files)]) ++
      dirs.zipIdx.flatMap fun dir =>
        dir.1.2.map fun m => ((dir.2, dir.1.1.value) :: m.1, m.2)

/-- `createCopiedPath`, `addFile` for the files, and `updateInfo`. `copiedPath` has the indexes of
the directories in the source and in the destination; what is below the first one that is another
has to be copied. The last part of the result tells whether `updateInfo` goes on. -/
def copyFiles (files : List File) : Bool → List (Nat × DirInfo) → List (Nat × Nat) → Directory →
    Directory × List (Nat × Nat) × Bool
  | _, [], _, .node d dirs => (.node (files.foldl (fun d f => d.addFile f.clone) d) dirs, [], true)
  | isRoot, (i, src) :: path, copiedPath, .node d dirs =>
    let known : Option (Nat × Directory × List (Nat × Nat)) :=
      match copiedPath with
      | [] => none
      | (i', j) :: rest => if i' = i then dirs[j]?.map fun copy => (j, copy, rest) else none
    let r := known.getD (dirs.length, .node src.clone [], [])
    let u := copyFiles files false path r.2.2 r.2.1
    let dirs := if known.isSome then dirs.set r.1 u.1 else dirs ++ [u.1]
    let copiedPath := (i, r.1) :: u.2.1
    if u.2.2 then
      let v := d.updateInfo isRoot dirs
      (.node v.1 dirs, copiedPath, v.2)
    else (.node d dirs, copiedPath, false)

/-- The destination of `match`: the matches in a listing that is new. -/
def copyMatches (sq : SearchQuery) (root : Directory) : Directory :=
  ((matchedDirs sq root).foldl
    (fun st m =>
      let r := copyFiles m.2 true m.1 st.2 st.1
      (r.1, r.2.1))
    (DirectoryListing.new.root, [])).1

/-- `addDclstSelf` with the file. -/
def addDclstSelf (f : File) : Directory → Directory
  | .node root [] => .node root []
  | .node root (.node d subs :: dirs) =>
    .node root (.node ((d.addFile (f.setFlag .dclstSelf)).setFlag .hasOther) subs :: dirs)

/-! ### Sums -/

/-- What the directories add to the sums of their parent. -/
def dirTotals (dirs : List Directory) : Totals :=
  ((dirs.filter fun dir => !dir.value.adls).map fun dir => dir.value.totals + oneDir).sum

/-- The sums over all that is below a directory, except for ADL directories. -/
def sums : Directory → Totals :=
  RoseTree.para fun d dirs =>
    (d.files.map File.totals).sum +
      ((dirs.filter fun dir => !dir.1.value.adls).map fun dir => dir.2 + oneDir).sum

/-- A directory has the sums that it should. -/
def DirInfo.Counted (d : DirInfo) (dirs : List Directory) : Prop := d.totals = sums (.node d dirs)

instance (d : DirInfo) (dirs : List Directory) : Decidable (d.Counted dirs) :=
  inferInstanceAs (Decidable (_ = _))

/-- All directories have the sums that they should. -/
def Counted : Directory → Prop := RoseTree.Everywhere DirInfo.Counted

instance (dir : Directory) : Decidable (Counted dir) :=
  inferInstanceAs (Decidable (RoseTree.Everywhere _ dir))

/-- No directory is from an ADL search, and the sums are right one level at a time. -/
structure DirInfo.Sound (d : DirInfo) (dirs : List Directory) : Prop where
  adls : d.adls = false
  totals : d.totals = (d.files.map File.totals).sum + dirTotals dirs

/-- The same for all directories. -/
def Sound : Directory → Prop := RoseTree.Everywhere DirInfo.Sound

theorem sound_node {d : DirInfo} {dirs : List Directory} :
    Sound (.node d dirs) ↔ d.Sound dirs ∧ ∀ dir ∈ dirs, Sound dir := RoseTree.everywhere_node

theorem Sound.counted {dir : Directory} (h : Sound dir) : Counted dir := by
  induction dir using RoseTree.induction with
  | node d dirs ih =>
    obtain ⟨hnode, hdirs⟩ := sound_node.mp h
    refine RoseTree.everywhere_node.mpr ⟨?_, fun dir hdir => ih dir hdir (hdirs dir hdir)⟩
    show d.totals = sums _
    rw [sums, RoseTree.para_node, hnode.totals, dirTotals, List.filter_map, List.map_map, ← sums]
    congr 2
    refine List.map_congr_left fun dir hdir => ?_
    have hmem := (List.mem_filter.mp hdir).1
    have hcounted := ih dir hmem (hdirs dir hmem)
    cases dir with
    | node s subs =>
      have hs : s.totals = sums (.node s subs) := (RoseTree.everywhere_node.mp hcounted).1
      show s.totals + oneDir = sums (.node s subs) + oneDir
      rw [hs]

theorem Sound.adls {dir : Directory} (h : Sound dir) : dir.value.adls = false := by
  cases dir with
  | node d dirs => exact (sound_node.mp h).1.adls

theorem dirTotals_nil : dirTotals [] = 0 := rfl

theorem dirTotals_cons {dir : Directory} {dirs : List Directory} (h : dir.value.adls = false) :
    dirTotals (dir :: dirs) = dir.value.totals + oneDir + dirTotals dirs := by
  rw [dirTotals, List.filter_cons_of_pos (by rw [h]; rfl), List.map_cons, List.sum_cons]
  rfl

theorem dirTotals_perm {dirs dirs' : List Directory} (h : dirs.Perm dirs') :
    dirTotals dirs = dirTotals dirs' := ((h.filter _).map _).sum_eq

/-! ### Sums made anew -/

/-- What a file adds to the sums when it is added to a directory. -/
def sizeTotals (f : File) : Totals := ⟨0, 0, BitVec.ofInt 64 f.size, f.uploadCount⟩

theorem totals_addSize (d : DirInfo) (f : File) :
    (d.addSize f).totals = d.totals + sizeTotals f := by
  rw [Totals.add_def]
  ext1
  · exact (add_zero _).symm
  · exact (add_zero _).symm
  · rfl
  · rfl

theorem totals_addFile (d : DirInfo) (f : File) : (d.addFile f).totals = d.totals + sizeTotals f :=
  totals_addSize { d with files := d.files ++ [f] } f

/-- The number of the files comes on top. -/
theorem sum_totals (files : List File) :
    (files.map File.totals).sum = (files.map sizeTotals).sum + ⟨files.length, 0, 0, 0⟩ := by
  induction files with
  | nil => rfl
  | cons f files ih =>
    have hone : f.totals + ⟨(files.length : Int), 0, 0, 0⟩ =
        sizeTotals f + ⟨((f :: files).length : Int), 0, 0, 0⟩ := by
      rw [Totals.add_def, Totals.add_def]
      ext1
      · show (1 : Int) + files.length = 0 + ((files.length + 1 : Nat) : Int)
        omega
      · rfl
      · rfl
      · rfl
    rw [List.map_cons, List.sum_cons, ih, List.map_cons, List.sum_cons, add_left_comm, hone]
    abel

theorem totals_updateFiles (d : DirInfo) :
    d.updateFiles.1.totals = d.totals + (d.files.map sizeTotals).sum := by
  have hfold (files : List File) (d : DirInfo) :
      (files.foldl (fun d f => (d.addSize f).widenFile f) d).totals =
        d.totals + (files.map sizeTotals).sum := by
    induction files generalizing d with
    | nil => exact (add_zero _).symm
    | cons f files ih =>
      rw [List.foldl_cons, ih, List.map_cons, List.sum_cons, ← add_assoc]
      exact congrArg (· + _) (totals_addSize d f)
  exact hfold d.files d

theorem totals_updateSubDirs (d : DirInfo) (dirs : List Directory) :
    (d.updateSubDirs dirs).1.totals = d.totals + dirTotals dirs + ⟨d.files.length, 0, 0, 0⟩ := by
  have hfold (dirs : List DirInfo) (d : DirInfo) :
      (dirs.foldl (fun d dir =>
        { d.widen dir.maxTS dir.minBitrate dir.maxBitrate with
          totals := d.totals + dir.totals + oneDir }) d).totals =
        d.totals + (dirs.map fun dir => dir.totals + oneDir).sum := by
    induction dirs generalizing d with
    | nil => exact (add_zero _).symm
    | cons dir dirs ih =>
      rw [List.foldl_cons, ih, List.map_cons, List.sum_cons, ← add_assoc, ← add_assoc]
  have htotals : dirTotals dirs =
      (((dirs.map RoseTree.value).filter fun dir => !dir.adls).map
        fun dir => dir.totals + oneDir).sum := by
    rw [List.filter_map, List.map_map]
    rfl
  have hadd (x : Totals) (n : Int) :
      ({ x with totalFileCount := x.totalFileCount + n } : Totals) = x + ⟨n, 0, 0, 0⟩ := by
    rw [Totals.add_def]
    ext1
    · rfl
    · exact (add_zero _).symm
    · exact (add_zero _).symm
    · exact (add_zero _).symm
  unfold DirInfo.updateSubDirs
  dsimp only
  rw [hadd, hfold, ← htotals]
  exact congrArg (fun files : List File => d.totals + dirTotals dirs + ⟨files.length, 0, 0, 0⟩)
    (DirInfo.keeps_updateSubDirs d dirs).files

/-- When nothing was added before, the sums are those that there should be. -/
theorem totals_close {d : DirInfo} {dirs : List Directory}
    (h : d.totals = (d.files.map sizeTotals).sum) :
    (d.updateSubDirs dirs).1.totals = (d.files.map File.totals).sum + dirTotals dirs := by
  rw [totals_updateSubDirs, h, sum_totals]
  abel

theorem totals_updateInfo (isRoot : Bool) (d : DirInfo) (dirs : List Directory) :
    (d.updateInfo isRoot dirs).1.totals = (d.files.map File.totals).sum + dirTotals dirs := by
  have hkeeps := DirInfo.keeps_updateFiles d.reset
  have htotals : (d.reset.updateFiles.1.updateSubDirs dirs).1.totals =
      (d.files.map File.totals).sum + dirTotals dirs := by
    have hclose := @totals_close d.reset.updateFiles.1 dirs (by
      rw [totals_updateFiles, hkeeps.files]
      exact zero_add _)
    rwa [hkeeps.files] at hclose
  cases isRoot with
  | true => exact htotals
  | false => exact htotals

/-- `updateInfo` stops only where the sums have not changed. -/
theorem totals_of_stop {isRoot : Bool} {d : DirInfo} {dirs : List Directory}
    (h : (d.updateInfo isRoot dirs).2 = false) :
    (d.updateInfo isRoot dirs).1.totals = d.totals := by
  have htotals : (d.reset.updateFiles.1.updateSubDirs dirs).1.totals = d.totals := by
    by_contra hne
    have : (d.updateInfo isRoot dirs).2 = true := by
      unfold DirInfo.updateInfo
      simp [hne]
    rw [this] at h
    cases h
  cases isRoot with
  | true => exact htotals
  | false => exact htotals

/-! ### Merging -/

theorem counts_files (files : List File) :
    (files.map File.totals).sum.totalFileCount = files.length ∧
      (files.map File.totals).sum.totalDirCount = 0 := by
  induction files with
  | nil => exact ⟨rfl, rfl⟩
  | cons f files ih =>
    rw [List.map_cons, List.sum_cons, Totals.add_def, ih.1, ih.2]
    constructor
    · show (1 : Int) + files.length = ((files.length + 1 : Nat) : Int)
      omega
    · rfl

theorem counts_dirs {dirs : List Directory} (hadls : ∀ dir ∈ dirs, dir.value.adls = false)
    (h : ∀ dir ∈ dirs,
      0 ≤ dir.value.totals.totalFileCount ∧ 0 ≤ dir.value.totals.totalDirCount) :
    0 ≤ (dirTotals dirs).totalFileCount ∧ dirs.length ≤ (dirTotals dirs).totalDirCount := by
  induction dirs with
  | nil => exact ⟨le_rfl, le_rfl⟩
  | cons dir dirs ih =>
    rw [List.forall_mem_cons] at hadls h
    obtain ⟨hfiles, hdirs⟩ := ih hadls.2 h.2
    rw [dirTotals_cons hadls.1, Totals.add_def, Totals.add_def]
    constructor
    · show 0 ≤ dir.value.totals.totalFileCount + 0 + (dirTotals dirs).totalFileCount
      omega
    · show ((dirs.length + 1 : Nat) : Int) ≤
        dir.value.totals.totalDirCount + 1 + (dirTotals dirs).totalDirCount
      omega

/-- There are at least as many files and directories below as there are in a directory. -/
theorem Sound.le_counts {dir : Directory} (h : Sound dir) :
    dir.value.files.length ≤ dir.value.totals.totalFileCount ∧
      dir.children.length ≤ dir.value.totals.totalDirCount := by
  induction dir using RoseTree.induction with
  | node d dirs ih =>
    obtain ⟨hnode, hdirs⟩ := sound_node.mp h
    have hcounts := counts_dirs (fun dir hdir => (hdirs dir hdir).adls) fun dir hdir => by
      have := ih dir hdir (hdirs dir hdir)
      omega
    show (d.files.length : Int) ≤ d.totals.totalFileCount ∧ _ ≤ d.totals.totalDirCount
    rw [hnode.totals, Totals.add_def, (counts_files _).1, (counts_files _).2]
    show (d.files.length : Int) ≤ d.files.length + (dirTotals dirs).totalFileCount ∧
      (dirs.length : Int) ≤ 0 + (dirTotals dirs).totalDirCount
    omega

theorem totals_of_isEmptyDir {dir : Directory} (h : Sound dir) (hempty : isEmptyDir dir) :
    dir.value.totals = 0 := by
  cases dir with
  | node d dirs =>
    rw [isEmptyDir, Bool.and_eq_true, List.isEmpty_iff, List.isEmpty_iff] at hempty
    have hfiles : d.files = [] := hempty.1
    have hdirs : dirs = [] := hempty.2
    show d.totals = 0
    rw [(sound_node.mp h).1.totals, hfiles, hdirs]
    rfl

theorem sound_updateInfo {isRoot : Bool} {d : DirInfo} {dirs : List Directory}
    (hadls : d.adls = false) (h : ∀ dir ∈ dirs, Sound dir) :
    Sound (.node (d.updateInfo isRoot dirs).1 dirs) := by
  refine sound_node.mpr ⟨⟨(DirInfo.adls_updateInfo _ _ _).trans hadls, ?_⟩, h⟩
  rw [totals_updateInfo, DirInfo.files_updateInfo]

theorem sound_rename {name : List UInt8} {dir : Directory} (h : Sound dir) :
    Sound (rename name dir) := by
  cases dir with
  | node d dirs =>
    obtain ⟨hnode, hdirs⟩ := sound_node.mp h
    exact sound_node.mpr ⟨⟨hnode.adls, hnode.totals⟩, hdirs⟩

theorem sound_new (name : List UInt8) (complete : Bool) :
    Sound (.node (.new name complete) []) :=
  sound_node.mpr ⟨⟨rfl, rfl⟩, fun _ h => absurd h List.not_mem_nil⟩

theorem sound_putDir {src : Directory} (hsrc : Sound src) (name : List UInt8)
    {dirs : List Directory} (h : ∀ dir ∈ dirs, Sound dir) :
    ∀ dir ∈ putDir src name dirs, Sound dir := by
  induction dirs with
  | nil => exact List.forall_mem_singleton.mpr hsrc
  | cons dir dirs ih =>
    obtain ⟨hdir, hdirs⟩ := List.forall_mem_cons.mp h
    unfold putDir
    split
    · exact List.forall_mem_cons.mpr ⟨hsrc, hdirs⟩
    · exact List.forall_mem_cons.mpr ⟨hdir, ih hdirs⟩

/-- The directory that is entered, or made, keeps its sums if the loop stops there. -/
theorem sound_inDir {f : Directory → Directory × Bool} {name : List UInt8}
    (hf : ∀ dir, Sound dir →
      Sound (f dir).1 ∧ ((f dir).2 = false → (f dir).1.value.totals = dir.value.totals))
    (hnew : (f (.node (.new name false) [])).2 = true) {dirs : List Directory}
    (h : ∀ dir ∈ dirs, Sound dir) :
    (∀ dir ∈ (inDir f name dirs).1, Sound dir) ∧
      ((inDir f name dirs).2 = false → dirTotals (inDir f name dirs).1 = dirTotals dirs) := by
  induction dirs with
  | nil =>
    refine ⟨List.forall_mem_singleton.mpr (hf _ (sound_new _ _)).1, fun hstop => ?_⟩
    have hstop : (f (.node (.new name false) [])).2 = false := hstop
    rw [hnew] at hstop
    cases hstop
  | cons dir dirs ih =>
    obtain ⟨hdir, hdirs⟩ := List.forall_mem_cons.mp h
    obtain ⟨hsound, hstop⟩ := hf dir hdir
    obtain ⟨hrest, hrestStop⟩ := ih hdirs
    unfold inDir
    split
    · refine ⟨List.forall_mem_cons.mpr ⟨hsound, hdirs⟩, fun h => ?_⟩
      dsimp only at h ⊢
      rw [dirTotals_cons hsound.adls, dirTotals_cons hdir.adls, hstop h]
    · refine ⟨List.forall_mem_cons.mpr ⟨hdir, hrest⟩, fun h => ?_⟩
      dsimp only at h ⊢
      rw [dirTotals_cons hdir.adls, dirTotals_cons hdir.adls, hrestStop h]

theorem children_spliceDir (src : Directory) (dirName : List UInt8) (isRoot : Bool)
    (tokens : List (List UInt8)) (dir : Directory) :
    (spliceDir src dirName isRoot tokens dir).1.children ≠ [] := by
  have hin (f : Directory → Directory × Bool) (name : List UInt8) (dirs : List Directory) :
      (inDir f name dirs).1 ≠ [] := by
    cases dirs with
    | nil => exact List.cons_ne_nil _ _
    | cons dir dirs =>
      unfold inDir
      split <;> exact List.cons_ne_nil _ _
  cases dir with
  | node d dirs =>
    cases tokens with
    | nil =>
      show putDir _ _ dirs ≠ []
      cases dirs with
      | nil => exact List.cons_ne_nil _ _
      | cons dir dirs =>
        unfold putDir
        split <;> exact List.cons_ne_nil _ _
    | cons token tokens =>
      unfold spliceDir
      dsimp only
      split <;> exact hin _ _ _

/-- Where nothing changes on the way back, nothing would change further up. -/
theorem sound_spliceDir {src : Directory} (hsrc : Sound src) (dirName : List UInt8)
    (isRoot : Bool) (tokens : List (List UInt8)) {dir : Directory} (h : Sound dir) :
    Sound (spliceDir src dirName isRoot tokens dir).1 ∧
      ((spliceDir src dirName isRoot tokens dir).2 = false →
        (spliceDir src dirName isRoot tokens dir).1.value.totals = dir.value.totals) := by
  induction tokens generalizing isRoot dir with
  | nil =>
    cases dir with
    | node d dirs =>
      obtain ⟨hnode, hdirs⟩ := sound_node.mp h
      exact ⟨sound_updateInfo hnode.adls (sound_putDir (sound_rename hsrc) dirName hdirs),
        totals_of_stop⟩
  | cons token tokens ih =>
    have hnew : (spliceDir src dirName false tokens (.node (.new token false) [])).2 = true := by
      by_contra hstop
      obtain ⟨hsound, htotals⟩ := ih false (sound_new token false)
      have hcount := hsound.le_counts.2
      rw [htotals (Bool.eq_false_of_not_eq_true hstop)] at hcount
      have hne := List.length_pos_iff.mpr (children_spliceDir src dirName false tokens
        (.node (.new token false) []))
      have hzero : (RoseTree.node (DirInfo.new token false) []).value.totals.totalDirCount = 0 :=
        rfl
      omega
    cases dir with
    | node d dirs =>
      obtain ⟨hnode, hdirs⟩ := sound_node.mp h
      obtain ⟨hsubs, hstop⟩ := sound_inDir (fun dir hdir => ih false hdir) hnew hdirs
      unfold spliceDir
      dsimp only
      generalize hd : (if (isRoot && _) = true then { d with complete := false } else d) = d'
      have hkeep : d'.adls = d.adls ∧ d'.files = d.files ∧ d'.totals = d.totals := by
        rw [← hd]
        split <;> exact ⟨rfl, rfl, rfl⟩
      split
      · refine ⟨sound_updateInfo (hkeep.1.trans hnode.adls) hsubs, fun h => ?_⟩
        exact (totals_of_stop h).trans hkeep.2.2
      · next hgo =>
        refine ⟨sound_node.mpr ⟨⟨hkeep.1.trans hnode.adls, ?_⟩, hsubs⟩, fun _ => hkeep.2.2⟩
        rw [hkeep.2.2, hkeep.2.1, hnode.totals, hstop (Bool.eq_false_of_not_eq_true hgo)]

theorem sound_spliceTree {l tree : DirectoryListing} (htree : Sound tree.root)
    (h : Sound l.root) : Sound (l.spliceTree tree).root := by
  unfold DirectoryListing.spliceTree
  dsimp only
  split
  · exact htree
  · exact (sound_spliceDir htree _ true _ h).1

end Blacklink.Listing
