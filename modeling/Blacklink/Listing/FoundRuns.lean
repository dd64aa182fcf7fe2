import Blacklink.Base.Run
import Blacklink.Listing.Found

/-!
# Marks over whole runs

The flags of the directories stay right through searches, comparisons and clearing, and through
merges as long as nothing is marked: `updateInfo` makes the flags of a directory anew. The window of
a listing clears the matches before it merges a list (`windows/DirectoryListingFrm.cpp:2410-2415`).
-/

namespace Blacklink.Listing

open Blacklink.Base Blacklink.Text
open Blacklink.Share (TTHValue)

/-- Flags without marks. -/
def Flags.Clear (flags : Flags) : Prop := .found ∉ flags ∧ .hasFound ∉ flags

theorem Flags.Clear.union {a b : Flags} (ha : a.Clear) (hb : Flags.Clear b) :
    Flags.Clear (a ∪ b) :=
  ⟨by simp [ha.1, hb.1], by simp [ha.2, hb.2]⟩

theorem Flags.clear_empty : Flags.Clear ∅ := ⟨by simp, by simp⟩

theorem clear_foldl_union {α : Type} {part : α → Flags} (l : List α)
    (hpart : ∀ a ∈ l, (part a).Clear) {flags : Flags} (h : flags.Clear) :
    Flags.Clear (l.foldl (fun flags a => flags ∪ part a) flags) := by
  induction l generalizing flags with
  | nil => exact h
  | cons a l ih =>
    rw [List.forall_mem_cons] at hpart
    exact ih hpart.2 (h.union hpart.1)

/-! ### Merging -/

theorem clear_statusOf (f : File) : Flags.Clear {DirInfo.statusOf f} := by
  unfold DirInfo.statusOf
  split_ifs <;> exact ⟨by decide, by decide⟩

theorem clear_updateFiles (d : DirInfo) : d.updateFiles.2.Clear := by
  show Flags.Clear (d.files.foldl _ ∅)
  generalize d.files = files
  have hfold (flags : Flags) (h : flags.Clear) : Flags.Clear (files.foldl (fun flags f =>
      (if .queued ∈ f.flags then insert .hasQueued flags else flags) ∪ {DirInfo.statusOf f})
      flags) := by
    induction files generalizing flags with
    | nil => exact h
    | cons f files ih =>
      refine ih _ (Flags.Clear.union ?_ (clear_statusOf f))
      split
      · exact ⟨by simp [h.1], by simp [h.2]⟩
      · exact h
  exact hfold ∅ Flags.clear_empty

theorem clear_updateSubDirs (d : DirInfo) (dirs : List Directory) :
    (d.updateSubDirs dirs).2.Clear :=
  clear_foldl_union _ (fun _ _ => ⟨by simp [dirStatusFlags], by simp [dirStatusFlags]⟩)
    Flags.clear_empty

theorem clear_updateInfo (d : DirInfo) (dirs : List Directory) :
    (d.updateInfo false dirs).1.flags.Clear := by
  rw [(DirInfo.updateInfo_keeps d dirs).flags]
  exact (clear_updateFiles _).union (clear_updateSubDirs _ _)

theorem unmarked_rename {name : List UInt8} {dir : Directory} :
    Unmarked (rename name dir) ↔ Unmarked dir := by
  cases dir with
  | node d dirs =>
    show Unmarked (.node { d with name } dirs) ↔ _
    rw [unmarked_node, unmarked_node]
    refine and_congr_left fun _ => ⟨fun h => ⟨h.1, h.2, h.3⟩, fun h => ⟨h.1, h.2, h.3⟩⟩

theorem unmarked_putDir {src : Directory} (hsrc : Unmarked src) (name : List UInt8)
    {dirs : List Directory} (h : ∀ dir ∈ dirs, Unmarked dir) :
    ∀ dir ∈ putDir src name dirs, Unmarked dir := by
  induction dirs with
  | nil => exact List.forall_mem_singleton.mpr hsrc
  | cons dir dirs ih =>
    obtain ⟨hdir, hdirs⟩ := List.forall_mem_cons.mp h
    unfold putDir
    split
    · exact List.forall_mem_cons.mpr ⟨hsrc, hdirs⟩
    · exact List.forall_mem_cons.mpr ⟨hdir, ih hdirs⟩

theorem unmarked_inDir {f : Directory → Directory × Bool}
    (hf : ∀ dir, Unmarked dir → Unmarked (f dir).1) (name : List UInt8) {dirs : List Directory}
    (h : ∀ dir ∈ dirs, Unmarked dir) : ∀ dir ∈ (inDir f name dirs).1, Unmarked dir := by
  induction dirs with
  | nil =>
    refine List.forall_mem_singleton.mpr (hf _ (unmarked_node.mpr ⟨⟨by simp [DirInfo.new],
      by simp [DirInfo.new], by simp [DirInfo.new]⟩, by simp⟩))
  | cons dir dirs ih =>
    obtain ⟨hdir, hdirs⟩ := List.forall_mem_cons.mp h
    unfold inDir
    split
    · exact List.forall_mem_cons.mpr ⟨hf dir hdir, hdirs⟩
    · exact List.forall_mem_cons.mpr ⟨hdir, ih hdirs⟩

/-- Nothing is marked by a merge. The flags of the root are not changed at all. -/
theorem unmarked_spliceDir {src : Directory} (hsrc : Unmarked src) (dirName : List UInt8)
    (isRoot : Bool) (tokens : List (List UInt8)) {dir : Directory} (h : UnmarkedBelow dir) :
    UnmarkedBelow (spliceDir src dirName isRoot tokens dir).1 ∧
      (if isRoot then (spliceDir src dirName isRoot tokens dir).1.value.flags = dir.value.flags
      else dir.value.flags.Clear →
        (spliceDir src dirName isRoot tokens dir).1.value.flags.Clear) := by
  have hflags (d : DirInfo) (dirs : List Directory) :
      if isRoot then (d.updateInfo isRoot dirs).1.flags = d.flags
      else d.flags.Clear → (d.updateInfo isRoot dirs).1.flags.Clear := by
    cases isRoot with
    | true => exact (DirInfo.keeps_updateInfo_root d dirs).flags
    | false => exact fun _ => clear_updateInfo d dirs
  induction tokens generalizing isRoot dir with
  | nil =>
    cases dir with
    | node d dirs =>
      refine ⟨⟨?_, unmarked_putDir (unmarked_rename.mpr hsrc) dirName h.2⟩, hflags d _⟩
      show ∀ f ∈ (d.updateInfo _ _).1.files, _
      rw [DirInfo.files_updateInfo]
      exact h.1
  | cons token tokens ih =>
    cases dir with
    | node d dirs =>
      have hsub (dir : Directory) (hdir : Unmarked dir) :
          Unmarked (spliceDir src dirName false tokens dir).1 := by
        have hbelow := @ih false dir (by
          cases dir with
          | node s subs => exact ⟨(unmarked_node.mp hdir).1.files, (unmarked_node.mp hdir).2⟩)
          (fun d dirs _ => clear_updateInfo d dirs)
        have hclear := hbelow.2 hdir.not_found
        cases hr : (spliceDir src dirName false tokens dir).1 with
        | node s subs =>
          rw [hr] at hbelow hclear
          exact unmarked_node.mpr ⟨⟨hclear.1, hclear.2, hbelow.1.1⟩, hbelow.1.2⟩
      have hdirs := unmarked_inDir hsub token h.2
      unfold spliceDir
      dsimp only
      generalize hd : (if (isRoot && _) = true then { d with complete := false } else d) = d'
      have hkeep : d'.files = d.files ∧ d'.flags = d.flags := by
        rw [← hd]
        split <;> exact ⟨rfl, rfl⟩
      split
      · refine ⟨⟨?_, hdirs⟩, ?_⟩
        · show ∀ f ∈ (d'.updateInfo _ _).1.files, _
          rw [DirInfo.files_updateInfo, hkeep.1]
          exact h.1
        · have := hflags d' (inDir (spliceDir src dirName false tokens) token dirs).1
          rwa [hkeep.2] at this
      · refine ⟨⟨?_, hdirs⟩, ?_⟩
        · show ∀ f ∈ d'.files, _
          rw [hkeep.1]
          exact h.1
        · show if isRoot = true then d'.flags = d.flags else d.flags.Clear → d'.flags.Clear
          rw [hkeep.2]
          cases isRoot with
          | true => exact rfl
          | false => exact id

theorem marked_spliceTree {l tree : DirectoryListing} (htree : Unmarked tree.root)
    (h : Marked l.root) (hflag : .hasFound ∉ l.root.value.flags) :
    Marked (l.spliceTree tree).root := by
  unfold DirectoryListing.spliceTree
  dsimp only
  split
  · exact htree.marked
  · obtain ⟨hbelow, hflags⟩ := unmarked_spliceDir htree (takeDirName tree.basePath).2 true
      (pathTokens [] (takeDirName tree.basePath).1) (h.unmarkedBelow hflag)
    apply hbelow.marked
    rw [if_pos rfl] at hflags
    rwa [hflags]

/-! ### Loading -/

/-- There are no marks in a directory that is being loaded. -/
def OpenDir.Unmarked (d : OpenDir) : Prop := d.info.Unmarked ∧ ∀ dir ∈ d.dirs, Listing.Unmarked dir

theorem clear_fileFlags (env : LoadEnv) (tth : TTHValue) :
    (env.fileFlags tth).1.Clear ∧ (env.fileFlags tth).2.Clear := by
  unfold LoadEnv.fileFlags
  dsimp only
  have hunion {p q : Flags × Flags} (hp : p.1.Clear ∧ p.2.Clear) (hq : q.1.Clear ∧ q.2.Clear) :
      (p.1 ∪ q.1).Clear ∧ (p.2 ∪ q.2).Clear := ⟨hp.1.union hq.1, hp.2.union hq.2⟩
  apply hunion
  · split
    · exact ⟨⟨by decide, by decide⟩, by decide, by decide⟩
    · exact ⟨⟨by decide, by decide⟩, by decide, by decide⟩
  · split
    · exact ⟨⟨by decide, by decide⟩, by decide, by decide⟩
    · split
      · split
        · split_ifs <;> exact ⟨⟨by decide, by decide⟩, by decide, by decide⟩
        · exact ⟨⟨by decide, by decide⟩, by decide, by decide⟩
      · exact ⟨⟨by decide, by decide⟩, by decide, by decide⟩

theorem unmarked_addFile (env : LoadEnv) (attribs) {d : DirInfo} (h : d.Unmarked) :
    (env.addFile attribs d).Unmarked := by
  unfold LoadEnv.addFile
  split
  · exact h
  · next name size tth _ =>
    have hclear : (if size ≠ 0 ∧ env.ownList = false then env.fileFlags tth else (∅, ∅)).1.Clear ∧
        (if size ≠ 0 ∧ env.ownList = false then env.fileFlags tth else (∅, ∅)).2.Clear := by
      split
      · exact clear_fileFlags env tth
      · exact ⟨Flags.clear_empty, Flags.clear_empty⟩
    have hflags := Flags.Clear.union ⟨h.not_found, h.not_hasFound⟩ hclear.2
    refine ⟨hflags.1, hflags.2, ?_⟩
    show ∀ f ∈ d.files ++ [_], _
    rw [List.forall_mem_append, List.forall_mem_singleton]
    exact ⟨h.files, hclear.1.1⟩

theorem unmarked_readDirectory (counter : Nat) (attribs) :
    OpenDir.Unmarked ⟨(ListLoader.readDirectory counter attribs).1, []⟩ := by
  refine ⟨?_, fun _ h => absurd h List.not_mem_nil⟩
  obtain ⟨hfiles, -, -, hflags⟩ := ListLoader.readDirectory_spec counter attribs
  have hflag {flag : Flag} (hne : flag ≠ .dirTimestamp) :
      flag ∉ (ListLoader.readDirectory counter attribs).1.flags := fun hmem =>
    hne (Finset.mem_singleton.mp (hflags hmem))
  refine ⟨hflag (by decide), hflag (by decide), fun f hf => ?_⟩
  rw [hfiles] at hf
  cases hf

theorem unmarked_close (env : LoadEnv) {d : OpenDir} (h : d.Unmarked) : Unmarked (d.close env) := by
  have hkeeps := DirInfo.keeps_updateSubDirs d.info d.dirs
  have hflags : (d.info.updateSubDirs d.dirs).1.flags.Clear := by
    rw [hkeeps.flags]
    exact ⟨h.1.not_found, h.1.not_hasFound⟩
  have hnew := Flags.Clear.union (a := (d.info.updateSubDirs d.dirs).1.flags \ {.dirTimestamp})
    ⟨fun hmem => hflags.1 (Finset.mem_sdiff.mp hmem).1,
      fun hmem => hflags.2 (Finset.mem_sdiff.mp hmem).1⟩ (clear_updateSubDirs d.info d.dirs)
  refine unmarked_node.mpr ⟨⟨hnew.1, hnew.2, fun f hf => ?_⟩, fun dir hdir => ?_⟩
  · rw [(env.sorting.files_perm _).mem_iff, hkeeps.files] at hf
    exact h.1.files f hf
  · rw [(env.sorting.dirs_perm _).mem_iff] at hdir
    exact h.2 dir hdir

theorem unmarked_closeListing (env : LoadEnv) {d : OpenDir} (h : d.Unmarked) :
    (d.closeListing env).Unmarked := by
  have hkeeps := DirInfo.keeps_updateSubDirs d.info d.dirs
  refine ⟨⟨?_, ?_, ?_⟩, fun dir hdir => h.2 dir ((env.sorting.dirs_perm _).mem_iff.mp hdir)⟩
  · exact hkeeps.flags.symm ▸ h.1.not_found
  · exact hkeeps.flags.symm ▸ h.1.not_hasFound
  · exact hkeeps.files.symm ▸ h.1.files

theorem unmarked_attach {opened : List OpenDir} (hopened : ∀ d ∈ opened, d.Unmarked)
    {sub : List Directory} (hsub : ∀ dir ∈ sub, Unmarked dir) {root : OpenDir}
    (hroot : root.Unmarked) : Unmarked (attach opened sub root) := by
  induction opened generalizing sub with
  | nil => exact unmarked_node.mpr ⟨hroot.1, List.forall_mem_append.mpr ⟨hroot.2, hsub⟩⟩
  | cons d outer ih =>
    obtain ⟨hd, houter⟩ := List.forall_mem_cons.mp hopened
    apply ih houter
    rw [List.forall_mem_singleton, unmarked_node, List.forall_mem_append]
    exact ⟨hd.1, hd.2, hsub⟩

/-- A list that is loaded has no marks. -/
theorem unmarked_loadXML (env : LoadEnv) (doc : Document) : Unmarked (loadXML env doc).root := by
  have hnew : ListLoader.new.Forall OpenDir.Unmarked :=
    ⟨⟨⟨by decide, by decide, fun _ h => absurd h List.not_mem_nil⟩,
      fun _ h => absurd h List.not_mem_nil⟩, fun _ h => absurd h List.not_mem_nil⟩
  have hrun : (loader env doc).Forall OpenDir.Unmarked := by
    refine run_invariant (ListLoader.Forall OpenDir.Unmarked) (fun st e h => ?_) hnew doc.events
    refine h.step env ?_ unmarked_readDirectory ?_ ?_ e
    · exact fun attribs d hd => ⟨unmarked_addFile env attribs hd.1, hd.2⟩
    · intro cur d hcur hd
      refine ⟨hcur.1, List.forall_mem_append.mpr ⟨hcur.2, ?_⟩⟩
      exact List.forall_mem_singleton.mpr (unmarked_close env hd)
    · exact fun d hd => unmarked_closeListing env hd
  exact unmarked_attach hrun.2 (fun _ h => absurd h List.not_mem_nil) hrun.1

/-! ### Runs -/

/-- What is done with a listing. -/
inductive MatchEvent where
  | load (env : LoadEnv) (doc : Document)
  | search (sq : SearchQuery)
  | findDuplicates (order : KeyOrder) (minSize : Int)
  | matchTTHSet (l : List TTHValue)
  | matchTTHSetBelow (l : List TTHValue)
  | clearMatches
  | splice (env : LoadEnv) (doc : Document)

/-- What becomes of the listing. -/
def MatchEvent.apply (l : DirectoryListing) : MatchEvent → DirectoryListing
  | .load env doc => loadXML env doc
  | .search sq => { l with root := sq.search l.root }
  | .findDuplicates order minSize => { l with root := Listing.findDuplicates order minSize l.root }
  | .matchTTHSet t => { l with root := Listing.matchTTHSet t l.root }
  | .matchTTHSetBelow t => { l with root := Listing.matchTTHSetBelow t l.root }
  | .clearMatches => { l with root := Listing.clearMatches l.root }
  | .splice env doc => l.spliceTree (loadXML env doc)

/-- A list is merged only when the root is not marked. -/
def MatchEvent.Allowed (l : DirectoryListing) : MatchEvent → Prop
  | .splice _ _ => .hasFound ∉ l.root.value.flags
  | _ => True

instance (l : DirectoryListing) (e : MatchEvent) : Decidable (e.Allowed l) := by
  cases e <;> unfold MatchEvent.Allowed <;> infer_instance

theorem marked_apply {l : DirectoryListing} (h : Marked l.root) {e : MatchEvent}
    (hallowed : e.Allowed l) : Marked (e.apply l).root := by
  cases e with
  | load env doc => exact (unmarked_loadXML env doc).marked
  | search sq => exact marked_search sq l.root
  | findDuplicates order minSize => exact marked_findDuplicates order minSize h
  | matchTTHSet t => exact marked_matchTTHSet t h
  | matchTTHSetBelow t => exact marked_matchTTHSetBelow t h
  | clearMatches => exact (unmarked_clearMatches h).marked
  | splice env doc => exact marked_spliceTree (unmarked_loadXML env doc) h hallowed

/-- In every state a directory is marked exactly when something below it is found, and clearing the
root then clears all. -/
theorem marked_run {l : DirectoryListing} (hl : Marked l.root) {es : List MatchEvent}
    (h : Within MatchEvent.Allowed MatchEvent.apply l es) :
    Marked (run MatchEvent.apply l es).root ∧
      Unmarked (clearMatches (run MatchEvent.apply l es).root) := by
  have hrun : Marked (run MatchEvent.apply l es).root :=
    h.invariant (fun l => Marked l.root) (fun _ _ hl he => marked_apply hl he) hl
  exact ⟨hrun, unmarked_clearMatches hrun⟩

/-- The window clears what was found, merges a list and searches again. -/
theorem marked_run_merge :
    Marked DirectoryListing.new.root ∧
      Within MatchEvent.Allowed MatchEvent.apply .new
        [.load .plain nestedList, .search (searchFor (ascii "x")), .clearMatches,
          .splice .plain (emptyListAt (ascii "/a/c/")), .search (searchFor (ascii "x"))] ∧
      Marked (run MatchEvent.apply .new [.load .plain nestedList, .search (searchFor (ascii "x")),
        .clearMatches, .splice .plain (emptyListAt (ascii "/a/c/")),
        .search (searchFor (ascii "x"))]).root := by
  have hwithin : Within MatchEvent.Allowed MatchEvent.apply .new
      [.load .plain nestedList, .search (searchFor (ascii "x")), .clearMatches,
        .splice .plain (emptyListAt (ascii "/a/c/")), .search (searchFor (ascii "x"))] := by
    decide
  have hnew : Marked DirectoryListing.new.root := by decide
  exact ⟨hnew, hwithin, (marked_run hnew hwithin).1⟩

/-- Merged without clearing, the directory `a` is no longer marked, and clearing the root does not
get to the file in `a/b`. -/
theorem not_marked_merge :
    ¬ Marked (run MatchEvent.apply .new [.load .plain nestedList,
      .search (searchFor (ascii "x")), .splice .plain (emptyListAt (ascii "/a/c/"))]).root ∧
    ¬ Unmarked (clearMatches (run MatchEvent.apply .new [.load .plain nestedList,
      .search (searchFor (ascii "x")), .splice .plain (emptyListAt (ascii "/a/c/"))]).root) := by
  constructor
  · decide
  · decide

end Blacklink.Listing
