import Blacklink.Listing.SpliceTree

/-!
# Marks of what was found in a listing

Model of what sets and clears `FLAG_FOUND` and `FLAG_HAS_FOUND`
(`client/DirectoryListing.cpp:784-895, 1269-1361, 1716-1726`). Which files and directories a query
matches is a parameter; what a `SearchContext` remembers of a search and the copies it makes are
left out.
-/

namespace Blacklink.Listing

open Blacklink.Base
open Blacklink.Share (TTHValue)

/-- `SearchQuery`, as `File::match` and `Directory::match` see it. -/
structure SearchQuery where
  matchFile : File → Bool
  matchDirectory : List UInt8 → Bool

/-- A search for files with the name. -/
def searchFor (name : List UInt8) : SearchQuery := ⟨fun f => f.name = name, fun _ => false⟩

/-- `setFlag` of a file. -/
def File.setFlag (f : File) (flag : Flag) : File := { f with flags := insert flag f.flags }

/-- `unsetFlag` of a file. -/
def File.unsetFlag (f : File) (flag : Flag) : File := { f with flags := f.flags.erase flag }

/-- `setFlag` of a directory. -/
def DirInfo.setFlag (d : DirInfo) (flag : Flag) : DirInfo := { d with flags := insert flag d.flags }

/-- `setFlag` of a directory. -/
def setDirFlag (flag : Flag) : Directory → Directory
  | .node d dirs => .node (d.setFlag flag) dirs

/-- The files of a directory after `match`. -/
def SearchQuery.markFile (sq : SearchQuery) (f : File) : File :=
  if sq.matchFile f then f.setFlag .found else f.unsetFlag .found

/-- `SearchContext::match`, without the destination. The flags of a directory are cleared when it is
entered, and what it has been matched with itself is set in its parent. -/
def SearchQuery.search (sq : SearchQuery) : Directory → Directory :=
  RoseTree.para fun d dirs =>
    let hasFound : Bool :=
      d.files.any sq.matchFile || dirs.any (fun dir => sq.matchDirectory dir.1.value.name) ||
        dirs.any fun dir => .hasFound ∈ dir.2.value.flags
    let flags := d.flags \ foundFlags
    .node
      { d with
        files := d.files.map sq.markFile
        flags := if hasFound then insert .hasFound flags else flags }
      (dirs.map fun dir =>
        if sq.matchDirectory dir.1.value.name then setDirFlag .found dir.2 else dir.2)

/-- `clearMatches`. -/
def clearMatches : Directory → Directory :=
  RoseTree.para fun d dirs =>
    let flags := d.flags \ foundFlags
    if .hasFound ∈ d.flags then
      .node { d with flags, files := d.files.map fun f => f.unsetFlag .found } (dirs.map Prod.snd)
    else .node { d with flags } (dirs.map Prod.fst)

/-- The address of a file: the indexes of the directories that lead to it, and its own. -/
structure FilePtr where
  dirs : List Nat
  index : Nat

/-- `markAsFound`. The second part tells whether the loop goes on with the parent. -/
def markBelow (index : Nat) : List Nat → Directory → Directory × Bool
  | [], .node d dirs =>
    let files := d.files.modify index fun f => f.setFlag .found
    (.node { d with files, flags := insert .hasFound d.flags } dirs, .hasFound ∉ d.flags)
  | i :: path, .node d dirs =>
    match dirs[i]? with
    | none => (.node d dirs, false)
    | some dir =>
      let r := markBelow index path dir
      let dirs := dirs.set i r.1
      if r.2 then (.node (d.setFlag .hasFound) dirs, .hasFound ∉ d.flags)
      else (.node d dirs, false)

/-- `markAsFound`. -/
def markAsFound (root : Directory) (f : FilePtr) : Directory := (markBelow f.index f.dirs root).1

/-- The files that the walk over the directories that are not from an ADL search comes to. -/
def filesBelow : Directory → List (FilePtr × File) :=
  RoseTree.para fun d dirs =>
    (d.files.zipIdx.map fun f => (⟨[], f.2⟩, f.1)) ++
      dirs.zipIdx.flatMap fun dir =>
        if dir.1.1.value.adls then []
        else dir.1.2.map fun f => ({ f.1 with dirs := dir.2 :: f.1.dirs }, f.2)

/-- `Directory::matchTTHSet` of the root. -/
def matchTTHSetBelow (l : List TTHValue) (root : Directory) : Directory :=
  (((filesBelow root).filter fun f => f.2.tth ∈ l).map Prod.fst).foldl markAsFound root

/-- `DirectoryListing::matchTTHSet`. -/
def matchTTHSet (l : List TTHValue) (root : Directory) : Directory :=
  matchTTHSetBelow l (clearMatches root)

/-- The order in which an `unordered_map` has the keys. -/
structure KeyOrder where
  keys : List TTHValue → List TTHValue
  keys_perm : ∀ l, (keys l).Perm l

/-- `DirectoryListing::findDuplicates`. -/
def findDuplicates (order : KeyOrder) (minSize : Int) (root : Directory) : Directory :=
  let root := clearMatches root
  let tmp := (filesBelow root).filter fun f => f.2.size ≥ minSize
  (order.keys (tmp.map fun f => f.2.tth).dedup).foldl
    (fun root key =>
      let files := tmp.filter fun f => f.2.tth = key
      if files.length > 1 then (files.map Prod.fst).foldl markAsFound root else root)
    root

/-! ### What is marked -/

/-- Something strictly below a directory is found. -/
def foundBelow : Directory → Bool :=
  RoseTree.para fun d dirs =>
    d.files.any (fun f => .found ∈ f.flags) ||
      dirs.any fun dir => .found ∈ dir.1.value.flags || dir.2

/-- The flag of a directory tells whether something below it is found. -/
def DirInfo.Marked (d : DirInfo) (dirs : List Directory) : Prop :=
  .hasFound ∈ d.flags ↔ foundBelow (.node d dirs) = true

instance (d : DirInfo) (dirs : List Directory) : Decidable (d.Marked dirs) :=
  inferInstanceAs (Decidable (_ ↔ _))

/-- The flags of all directories tell whether something below them is found. -/
def Marked : Directory → Prop := RoseTree.Everywhere DirInfo.Marked

instance (dir : Directory) : Decidable (Marked dir) :=
  inferInstanceAs (Decidable (RoseTree.Everywhere _ dir))

/-- Neither a directory nor a file in it has a mark. -/
structure DirInfo.Unmarked (d : DirInfo) : Prop where
  not_found : .found ∉ d.flags
  not_hasFound : .hasFound ∉ d.flags
  files : ∀ f ∈ d.files, .found ∉ f.flags

instance (d : DirInfo) : Decidable d.Unmarked :=
  decidable_of_iff
    (.found ∉ d.flags ∧ .hasFound ∉ d.flags ∧ ∀ f ∈ d.files, .found ∉ f.flags)
    ⟨fun h => ⟨h.1, h.2.1, h.2.2⟩, fun h => ⟨h.1, h.2, h.3⟩⟩

/-- There are no marks in a tree. -/
def Unmarked : Directory → Prop := RoseTree.Everywhere fun d _ => d.Unmarked

instance (dir : Directory) : Decidable (Unmarked dir) :=
  inferInstanceAs (Decidable (RoseTree.Everywhere _ dir))

theorem foundBelow_node {d : DirInfo} {dirs : List Directory} :
    foundBelow (.node d dirs) = true ↔
      (∃ f ∈ d.files, .found ∈ f.flags) ∨
        ∃ dir ∈ dirs, .found ∈ dir.value.flags ∨ foundBelow dir = true := by
  rw [foundBelow, RoseTree.para_node]
  simp

/-- One level at a time: the flags of the directories below stand for what they have below. -/
theorem marked_node {d : DirInfo} {dirs : List Directory} :
    Marked (.node d dirs) ↔
      (.hasFound ∈ d.flags ↔ (∃ f ∈ d.files, .found ∈ f.flags) ∨
          ∃ dir ∈ dirs, .found ∈ dir.value.flags ∨ .hasFound ∈ dir.value.flags) ∧
        ∀ dir ∈ dirs, Marked dir := by
  rw [Marked, RoseTree.everywhere_node, DirInfo.Marked, foundBelow_node]
  refine and_congr_left fun hdirs => ?_
  have hbelow : ∀ dir ∈ dirs, (foundBelow dir = true ↔ .hasFound ∈ dir.value.flags) := by
    intro dir hdir
    cases dir with
    | node s subs => exact ((RoseTree.everywhere_node.mp (hdirs _ hdir)).1).symm
  have hex : (∃ dir ∈ dirs, .found ∈ dir.value.flags ∨ foundBelow dir = true) ↔
      ∃ dir ∈ dirs, .found ∈ dir.value.flags ∨ .hasFound ∈ dir.value.flags := by
    refine exists_congr fun dir => and_congr_right fun hdir => ?_
    rw [hbelow dir hdir]
  rw [hex]

theorem unmarked_node {d : DirInfo} {dirs : List Directory} :
    Unmarked (.node d dirs) ↔ d.Unmarked ∧ ∀ dir ∈ dirs, Unmarked dir :=
  RoseTree.everywhere_node

theorem Unmarked.not_found {dir : Directory} (h : Unmarked dir) :
    .found ∉ dir.value.flags ∧ .hasFound ∉ dir.value.flags := by
  cases dir with
  | node d dirs => exact ⟨(unmarked_node.mp h).1.not_found, (unmarked_node.mp h).1.not_hasFound⟩

/-- Nothing strictly below a directory is marked. -/
def UnmarkedBelow (dir : Directory) : Prop :=
  (∀ f ∈ dir.value.files, .found ∉ f.flags) ∧ ∀ sub ∈ dir.children, Unmarked sub

theorem UnmarkedBelow.marked {dir : Directory} (h : UnmarkedBelow dir)
    (hflag : .hasFound ∉ dir.value.flags) : Marked dir := by
  induction dir using RoseTree.induction with
  | node d dirs ih =>
    rw [marked_node]
    constructor
    · refine iff_of_false hflag ?_
      rintro (⟨f, hf, hfound⟩ | ⟨dir, hdir, hfound⟩)
      · exact h.1 f hf hfound
      · have := (h.2 dir hdir).not_found
        tauto
    · intro dir hdir
      have hunmarked := h.2 dir hdir
      apply ih dir hdir _ hunmarked.not_found.2
      cases dir with
      | node s subs => exact ⟨(unmarked_node.mp hunmarked).1.files, (unmarked_node.mp hunmarked).2⟩

/-- Where the flag is not set nothing below is marked. -/
theorem Marked.unmarkedBelow {dir : Directory} (h : Marked dir)
    (hflag : .hasFound ∉ dir.value.flags) : UnmarkedBelow dir := by
  induction dir using RoseTree.induction with
  | node d dirs ih =>
    obtain ⟨hnode, hdirs⟩ := marked_node.mp h
    have hnone := mt hnode.mpr hflag
    rw [not_or] at hnone
    refine ⟨fun f hf hfound => hnone.1 ⟨f, hf, hfound⟩, fun dir hdir => ?_⟩
    have hfound : .found ∉ dir.value.flags := fun hfound => hnone.2 ⟨dir, hdir, .inl hfound⟩
    have hhas : .hasFound ∉ dir.value.flags := fun hhas => hnone.2 ⟨dir, hdir, .inr hhas⟩
    have hbelow := ih dir hdir (hdirs dir hdir) hhas
    cases dir with
    | node s subs => exact unmarked_node.mpr ⟨⟨hfound, hhas, hbelow.1⟩, hbelow.2⟩

theorem Unmarked.marked {dir : Directory} (h : Unmarked dir) : Marked dir := by
  apply UnmarkedBelow.marked _ h.not_found.2
  cases dir with
  | node d dirs => exact ⟨(unmarked_node.mp h).1.files, (unmarked_node.mp h).2⟩

/-! ### Searches -/

theorem setDirFlag_found (dir : Directory) :
    .found ∈ (setDirFlag .found dir).value.flags ∧
      (.hasFound ∈ (setDirFlag .found dir).value.flags ↔ .hasFound ∈ dir.value.flags) := by
  cases dir with
  | node d dirs => simp [setDirFlag, DirInfo.setFlag, RoseTree.value]

theorem marked_setDirFlag {dir : Directory} : Marked (setDirFlag .found dir) ↔ Marked dir := by
  cases dir with
  | node d dirs =>
    show Marked (.node (d.setFlag .found) dirs) ↔ _
    rw [marked_node, marked_node]
    simp [DirInfo.setFlag]

theorem found_markFile (sq : SearchQuery) (f : File) :
    .found ∈ (sq.markFile f).flags ↔ sq.matchFile f = true := by
  unfold SearchQuery.markFile
  split
  · next h => simp [File.setFlag, h]
  · next h => simp [File.unsetFlag, h]

theorem search_node (sq : SearchQuery) (d : DirInfo) (dirs : List Directory) :
    ∃ flags files, sq.search (.node d dirs) = .node { d with files, flags }
        (dirs.map fun dir =>
          if sq.matchDirectory dir.value.name then setDirFlag .found (sq.search dir)
          else sq.search dir) ∧
      files = d.files.map sq.markFile ∧ .found ∉ flags ∧
      (.hasFound ∈ flags ↔ (∃ f ∈ d.files, sq.matchFile f = true) ∨
        ∃ dir ∈ dirs, sq.matchDirectory dir.value.name = true ∨
          .hasFound ∈ (sq.search dir).value.flags) := by
  rw [SearchQuery.search, RoseTree.para_node, ← SearchQuery.search]
  simp only [List.map_map, List.any_map, Function.comp_def]
  refine ⟨_, _, rfl, rfl, ?_, ?_⟩
  · split <;> simp [foundFlags]
  · split
    · next h =>
      rw [Bool.or_eq_true, Bool.or_eq_true, List.any_eq_true, List.any_eq_true,
        List.any_eq_true] at h
      simp only [Finset.mem_insert, true_or, true_iff]
      rcases h with (h | ⟨dir, hdir, h⟩) | ⟨dir, hdir, h⟩
      · exact .inl h
      · exact .inr ⟨dir, hdir, .inl h⟩
      · exact .inr ⟨dir, hdir, .inr (of_decide_eq_true h)⟩
    · next h =>
      rw [Bool.or_eq_true, Bool.or_eq_true, List.any_eq_true, List.any_eq_true,
        List.any_eq_true] at h
      refine iff_of_false (by simp [foundFlags]) ?_
      rintro (hfile | ⟨dir, hdir, hname | hbelow⟩)
      · exact h (.inl (.inl hfile))
      · exact h (.inl (.inr ⟨dir, hdir, hname⟩))
      · exact h (.inr ⟨dir, hdir, decide_eq_true hbelow⟩)

/-- A search leaves the flags right, whatever they have been. -/
theorem not_found_search (sq : SearchQuery) (dir : Directory) :
    .found ∉ (sq.search dir).value.flags := by
  cases dir with
  | node d dirs =>
    obtain ⟨flags, files, heq, -, hfound, -⟩ := search_node sq d dirs
    rw [heq]
    exact hfound

theorem marked_search (sq : SearchQuery) (dir : Directory) : Marked (sq.search dir) := by
  induction dir using RoseTree.induction with
  | node d dirs ih =>
    obtain ⟨flags, files, heq, hfiles, -, hflags⟩ := search_node sq d dirs
    rw [heq, marked_node]
    constructor
    · show .hasFound ∈ flags ↔ (∃ f ∈ files, _) ∨ _
      rw [hflags, hfiles]
      apply or_congr
      · simp only [List.mem_map, exists_exists_and_eq_and, found_markFile]
      · simp only [List.mem_map, exists_exists_and_eq_and]
        refine exists_congr fun dir => and_congr_right fun hdir => ?_
        by_cases hname : sq.matchDirectory dir.value.name = true
        · rw [if_pos hname]
          exact iff_of_true (.inl hname) (.inl (setDirFlag_found _).1)
        · rw [if_neg hname, or_iff_right hname, or_iff_right (not_found_search sq dir)]
    · intro sub hsub
      obtain ⟨dir, hdir, rfl⟩ := List.mem_map.mp hsub
      split
      · exact marked_setDirFlag.mpr (ih dir hdir)
      · exact ih dir hdir

/-! ### Clearing -/

theorem clearMatches_node (d : DirInfo) (dirs : List Directory) :
    clearMatches (.node d dirs) =
      if .hasFound ∈ d.flags then
        .node { d with flags := d.flags \ foundFlags, files := d.files.map (·.unsetFlag .found) }
          (dirs.map clearMatches)
      else .node { d with flags := d.flags \ foundFlags } dirs := by
  rw [clearMatches, RoseTree.para_node]
  simp only [List.map_map, Function.comp_def, List.map_id']

/-- With right flags clearing leaves no mark. -/
theorem unmarked_clearMatches {dir : Directory} (h : Marked dir) : Unmarked (clearMatches dir) := by
  induction dir using RoseTree.induction with
  | node d dirs ih =>
    rw [clearMatches_node]
    split
    · rw [unmarked_node]
      refine ⟨⟨by simp [foundFlags], by simp [foundFlags], ?_⟩, ?_⟩
      · intro f hf
        obtain ⟨f, -, rfl⟩ := List.mem_map.mp hf
        exact Finset.notMem_erase _ _
      · intro sub hsub
        obtain ⟨dir, hdir, rfl⟩ := List.mem_map.mp hsub
        exact ih dir hdir ((marked_node.mp h).2 dir hdir)
    · next hflag =>
      obtain ⟨hfiles, hdirs⟩ := h.unmarkedBelow hflag
      exact unmarked_node.mpr ⟨⟨by simp [foundFlags], by simp [foundFlags], hfiles⟩, hdirs⟩

/-! ### Marking a file -/

/-- The file is there. -/
def HasFile (index : Nat) : List Nat → Directory → Prop
  | [], .node d _ => index < d.files.length
  | i :: path, .node _ dirs => ∃ dir, dirs[i]? = some dir ∧ HasFile index path dir

theorem hasFile_filesBelow {dir : Directory} {f : FilePtr × File} (h : f ∈ filesBelow dir) :
    HasFile f.1.index f.1.dirs dir := by
  induction dir using RoseTree.induction generalizing f with
  | node d dirs ih =>
    rw [filesBelow, RoseTree.para_node] at h
    rcases List.mem_append.mp h with h | h
    · obtain ⟨⟨file, i⟩, hfile, rfl⟩ := List.mem_map.mp h
      exact (List.mem_zipIdx' hfile).1
    · obtain ⟨⟨⟨dir, below⟩, i⟩, hdir, h⟩ := List.mem_flatMap.mp h
      split at h
      · cases h
      · obtain ⟨g, hg, rfl⟩ := List.mem_map.mp h
        obtain ⟨hi, heq⟩ := List.mem_zipIdx' hdir
        rw [List.getElem_map] at heq
        injection heq with _ hbelow
        rw [List.length_map] at hi
        have hg : g ∈ below := hg
        rw [hbelow] at hg
        exact ⟨dirs[i], List.getElem?_eq_getElem hi, ih _ (List.getElem_mem hi) hg⟩

theorem hasFile_markBelow {index : Nat} {path : List Nat} {dir : Directory} {index' : Nat}
    {path' : List Nat} (h : HasFile index' path' dir) :
    HasFile index' path' (markBelow index path dir).1 := by
  induction path generalizing path' dir with
  | nil =>
    cases dir with
    | node d dirs =>
      cases path' with
      | nil =>
        show index' < (d.files.modify index _).length
        rwa [List.length_modify]
      | cons j path' => exact h
  | cons i path ih =>
    cases dir with
    | node d dirs =>
      unfold markBelow
      cases hi : dirs[i]? with
      | none => exact h
      | some sub =>
        have hset : HasFile index' path' (.node d (dirs.set i (markBelow index path sub).1)) := by
          cases path' with
          | nil => exact h
          | cons j path' =>
            obtain ⟨dir, hj, hdir⟩ := h
            by_cases hij : i = j
            · subst hij
              rw [hi] at hj
              cases hj
              refine ⟨_, List.getElem?_set_self ?_, ih hdir⟩
              exact (List.getElem?_eq_some_iff.mp hi).1
            · exact ⟨dir, (List.getElem?_set_ne hij).trans hj, hdir⟩
        dsimp only
        split
        · cases path' with
          | nil => exact hset
          | cons j path' => exact hset
        · exact hset

/-- The loop stops where the flag is set, and there all the parents have it. -/
theorem marked_markBelow {index : Nat} {path : List Nat} {dir : Directory} (h : Marked dir)
    (hfile : HasFile index path dir) :
    Marked (markBelow index path dir).1 ∧
      .hasFound ∈ (markBelow index path dir).1.value.flags ∧
      ((markBelow index path dir).2 = false → .hasFound ∈ dir.value.flags) := by
  induction path generalizing dir with
  | nil =>
    cases dir with
    | node d dirs =>
      have hflags : .hasFound ∈ insert .hasFound d.flags := Finset.mem_insert_self _ _
      refine ⟨marked_node.mpr ⟨iff_of_true hflags (.inl ?_), (marked_node.mp h).2⟩, hflags, ?_⟩
      · have hlt : index < d.files.length := hfile
        refine ⟨d.files[index].setFlag .found, ?_, Finset.mem_insert_self _ _⟩
        rw [List.mem_iff_getElem?]
        exact ⟨index, by simp [List.getElem?_eq_getElem hlt]⟩
      · intro hstop
        exact not_not.mp (of_decide_eq_false hstop)
  | cons i path ih =>
    cases dir with
    | node d dirs =>
      obtain ⟨sub, hi, hfile⟩ := hfile
      obtain ⟨hlt, hsub⟩ := List.getElem?_eq_some_iff.mp hi
      have hmem : sub ∈ dirs := hsub ▸ List.getElem_mem hlt
      obtain ⟨hflags, hdirs⟩ := marked_node.mp h
      obtain ⟨hmarked, hhas, hstop⟩ := ih (hdirs sub hmem) hfile
      have hset : ∀ dir ∈ dirs.set i (markBelow index path sub).1, Marked dir := by
        intro dir hdir
        rcases List.mem_or_eq_of_mem_set hdir with hdir | rfl
        · exact hdirs dir hdir
        · exact hmarked
      have hnew : (markBelow index path sub).1 ∈ dirs.set i (markBelow index path sub).1 :=
        List.mem_set hlt _
      unfold markBelow
      rw [hi]
      dsimp only
      split
      · refine ⟨marked_node.mpr ⟨?_, hset⟩, Finset.mem_insert_self _ _, ?_⟩
        · exact iff_of_true (Finset.mem_insert_self _ _) (.inr ⟨_, hnew, .inr hhas⟩)
        · intro hstop
          exact not_not.mp (of_decide_eq_false hstop)
      · next hgo =>
        have hparent : .hasFound ∈ d.flags :=
          hflags.mpr (.inr ⟨sub, hmem, .inr (hstop (Bool.eq_false_of_not_eq_true hgo))⟩)
        refine ⟨marked_node.mpr ⟨?_, hset⟩, hparent, fun _ => hparent⟩
        exact iff_of_true hparent (.inr ⟨_, hnew, .inr hhas⟩)

theorem marked_foldl_markAsFound {files : List FilePtr} {root : Directory} (h : Marked root)
    (hfiles : ∀ f ∈ files, HasFile f.index f.dirs root) :
    Marked (files.foldl markAsFound root) ∧
      ∀ index path, HasFile index path root →
        HasFile index path (files.foldl markAsFound root) := by
  induction files generalizing root with
  | nil => exact ⟨h, fun _ _ h => h⟩
  | cons f files ih =>
    obtain ⟨hf, hfiles⟩ := List.forall_mem_cons.mp hfiles
    obtain ⟨hmarked, hkeeps⟩ := ih (marked_markBelow h hf).1 fun g hg =>
      hasFile_markBelow (hfiles g hg)
    exact ⟨hmarked, fun index path hfile => hkeeps index path (hasFile_markBelow hfile)⟩

theorem marked_matchTTHSetBelow (l : List TTHValue) {root : Directory} (h : Marked root) :
    Marked (matchTTHSetBelow l root) := by
  refine (marked_foldl_markAsFound h fun f hf => ?_).1
  obtain ⟨g, hg, rfl⟩ := List.mem_map.mp hf
  exact hasFile_filesBelow (List.mem_filter.mp hg).1

theorem marked_matchTTHSet (l : List TTHValue) {root : Directory} (h : Marked root) :
    Marked (matchTTHSet l root) :=
  marked_matchTTHSetBelow l (unmarked_clearMatches h).marked

theorem marked_findDuplicates (order : KeyOrder) (minSize : Int) {root : Directory}
    (h : Marked root) : Marked (findDuplicates order minSize root) := by
  unfold findDuplicates
  dsimp only
  generalize hroot : clearMatches root = cleared
  have hmarked : Marked cleared := hroot ▸ (unmarked_clearMatches h).marked
  generalize order.keys _ = keys
  have hfiles : ∀ f ∈ filesBelow cleared, HasFile f.1.index f.1.dirs cleared := fun f hf =>
    hasFile_filesBelow hf
  generalize filesBelow cleared = files at hfiles
  clear hroot
  induction keys generalizing cleared with
  | nil => exact hmarked
  | cons key keys ih =>
    rw [List.foldl_cons]
    split
    · have hkey : ∀ f ∈ (((files.filter fun f => f.2.size ≥ minSize).filter
          fun f => f.2.tth = key).map Prod.fst), HasFile f.index f.dirs cleared := by
        intro f hf
        obtain ⟨g, hg, rfl⟩ := List.mem_map.mp hf
        exact hfiles g (List.mem_filter.mp (List.mem_filter.mp hg).1).1
      obtain ⟨hnext, hkeeps⟩ := marked_foldl_markAsFound hmarked hkey
      exact ih _ hnext fun f hf => hkeeps _ _ (hfiles f hf)
    · exact ih _ hmarked hfiles

end Blacklink.Listing
