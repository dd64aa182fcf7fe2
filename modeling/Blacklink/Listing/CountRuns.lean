import Blacklink.Base.Run
import Blacklink.Listing.Counts

/-!
# Sums over whole runs

The sums in a listing stay right through loading, merging, searching and filtering as long as a list
ends once, and nothing that was uploaded is filtered out. No match is copied, and no list adds
itself, without leaving the number of files behind.
-/

namespace Blacklink.Listing

open Blacklink.Base Blacklink.Text Blacklink.Xml
open Blacklink.Share (TTHValue)

/-! ### Filtering -/

/-- No file in a directory that is filtered out was ever uploaded. -/
def DirInfo.NoneUploaded (l : List TTHValue) (d : DirInfo) (_ : List Directory) : Prop :=
  ∀ f ∈ d.files, f.tth ∈ l → f.uploadCount = 0

/-- No file that is filtered out was ever uploaded. -/
def NoneUploaded (l : List TTHValue) : Directory → Prop :=
  RoseTree.Everywhere (DirInfo.NoneUploaded l)

instance (l : List TTHValue) (d : DirInfo) (dirs : List Directory) :
    Decidable (d.NoneUploaded l dirs) :=
  inferInstanceAs (Decidable (∀ f ∈ d.files, f.tth ∈ l → f.uploadCount = 0))

instance (l : List TTHValue) (dir : Directory) : Decidable (NoneUploaded l dir) :=
  inferInstanceAs (Decidable (RoseTree.Everywhere _ dir))

theorem filterList_node (l : List TTHValue) (d : DirInfo) (dirs : List Directory) :
    filterList l (.node d dirs) =
      let subs := dirs.map fun dir => (filterList l dir).1
      let removed := (dirs.map fun dir => (filterList l dir).2).sum +
        ⟨0, (subs.filter isEmptyDir).length, 0, 0⟩ +
        removedTotals (d.files.filter fun f => f.tth ∈ l)
      (.node { d with totals := d.totals - removed, files := d.files.filter fun f => f.tth ∉ l }
        (subs.filter fun dir => !isEmptyDir dir), removed) := by
  rw [filterList, RoseTree.para_node, ← filterList]
  simp only [List.map_map, Function.comp_def]

/-- What is subtracted from the parents is what the directory has less. -/
theorem filterList_value (l : List TTHValue) (dir : Directory) :
    (filterList l dir).1.value.totals = dir.value.totals - (filterList l dir).2 ∧
      (filterList l dir).1.value.adls = dir.value.adls := by
  cases dir with
  | node d dirs =>
    rw [filterList_node]
    exact ⟨rfl, rfl⟩

theorem totals_filter_files {l : List TTHValue} {files : List File}
    (h : ∀ f ∈ files, f.tth ∈ l → f.uploadCount = 0) :
    ((files.filter fun f => f.tth ∉ l).map File.totals).sum =
      (files.map File.totals).sum - removedTotals (files.filter fun f => f.tth ∈ l) := by
  induction files with
  | nil => exact (sub_zero (0 : Totals)).symm
  | cons f files ih =>
    obtain ⟨hf, hfiles⟩ := List.forall_mem_cons.mp h
    rw [List.map_cons, List.sum_cons]
    by_cases hmem : f.tth ∈ l
    · have hremoved : removedTotals (f :: files.filter fun f => f.tth ∈ l) =
          f.totals + removedTotals (files.filter fun f => f.tth ∈ l) := by
        rw [Totals.add_def]
        ext1
        · show (((files.filter fun f => f.tth ∈ l).length + 1 : Nat) : Int) =
            1 + ((files.filter fun f => f.tth ∈ l).length : Nat)
          omega
        · rfl
        · rfl
        · show (0 : BitVec 32) = f.uploadCount + 0
          rw [hf hmem, add_zero]
      rw [List.filter_cons_of_neg (by simpa using hmem),
        List.filter_cons_of_pos (by simpa using hmem), ih hfiles, hremoved]
      abel
    · rw [List.filter_cons_of_pos (by simpa using hmem),
        List.filter_cons_of_neg (by simpa using hmem), List.map_cons, List.sum_cons,
        ih hfiles, add_sub_assoc]

theorem dirTotals_filter {l : List TTHValue} {dirs : List Directory}
    (h : ∀ dir ∈ dirs, Sound (filterList l dir).1) :
    dirTotals ((dirs.map fun dir => (filterList l dir).1).filter fun dir => !isEmptyDir dir) =
      dirTotals dirs - (dirs.map fun dir => (filterList l dir).2).sum -
        ⟨0, ((dirs.map fun dir => (filterList l dir).1).filter isEmptyDir).length, 0, 0⟩ := by
  induction dirs with
  | nil =>
    show (0 : Totals) = 0 - 0 - 0
    rw [sub_zero, sub_zero]
  | cons dir dirs ih =>
    obtain ⟨hdir, hdirs⟩ := List.forall_mem_cons.mp h
    obtain ⟨htotals, hadls⟩ := filterList_value l dir
    have hdirAdls := hadls.symm.trans hdir.adls
    rw [dirTotals_cons hdirAdls, List.map_cons, List.map_cons, List.sum_cons]
    by_cases hempty : isEmptyDir (filterList l dir).1 = true
    · rw [List.filter_cons_of_neg (by simp [hempty]), List.filter_cons_of_pos hempty, ih hdirs]
      have hzero := totals_of_isEmptyDir hdir hempty
      rw [htotals, sub_eq_zero] at hzero
      have hone (n : Nat) : (⟨0, ((n + 1 : Nat) : Int), 0, 0⟩ : Totals) =
          oneDir + ⟨0, (n : Int), 0, 0⟩ := by
        rw [Totals.add_def]
        ext1
        · rfl
        · show ((n + 1 : Nat) : Int) = 1 + n
          omega
        · rfl
        · rfl
      rw [List.length_cons, hone, hzero]
      abel
    · rw [List.filter_cons_of_pos (by simp [hempty]), List.filter_cons_of_neg hempty,
        dirTotals_cons hdir.adls, ih hdirs, htotals]
      abel

theorem sound_filterList {l : List TTHValue} {dir : Directory} (h : Sound dir)
    (huploaded : NoneUploaded l dir) : Sound (filterList l dir).1 := by
  induction dir using RoseTree.induction with
  | node d dirs ih =>
    obtain ⟨hnode, hdirs⟩ := sound_node.mp h
    obtain ⟨hfiles, hbelow⟩ := RoseTree.everywhere_node.mp huploaded
    have hsubs : ∀ dir ∈ dirs, Sound (filterList l dir).1 := fun dir hdir =>
      ih dir hdir (hdirs dir hdir) (hbelow dir hdir)
    rw [filterList_node]
    refine sound_node.mpr ⟨⟨hnode.adls, ?_⟩, ?_⟩
    · dsimp only
      rw [hnode.totals, totals_filter_files hfiles, dirTotals_filter hsubs]
      abel
    · intro sub hsub
      obtain ⟨dir, hdir, rfl⟩ := List.mem_map.mp (List.mem_filter.mp hsub).1
      exact hsubs dir hdir

/-! ### Searching -/

theorem sound_search (sq : SearchQuery) {dir : Directory} (h : Sound dir) :
    Sound (sq.search dir) ∧ (sq.search dir).value.totals = dir.value.totals := by
  have hmark (f : File) : (sq.markFile f).totals = f.totals := by
    unfold SearchQuery.markFile
    split <;> rfl
  have hset (dir : Directory) : (setDirFlag .found dir).value.totals = dir.value.totals ∧
      (Sound dir → Sound (setDirFlag .found dir)) := by
    cases dir with
    | node d dirs =>
      refine ⟨rfl, fun h => ?_⟩
      obtain ⟨hnode, hdirs⟩ := sound_node.mp h
      exact sound_node.mpr ⟨⟨hnode.adls, hnode.totals⟩, hdirs⟩
  induction dir using RoseTree.induction with
  | node d dirs ih =>
    obtain ⟨hnode, hdirs⟩ := sound_node.mp h
    obtain ⟨flags, files, heq, hfiles, -, -⟩ := search_node sq d dirs
    rw [heq]
    have hsub : ∀ dir ∈ dirs,
        Sound (if sq.matchDirectory dir.value.name then setDirFlag .found (sq.search dir)
          else sq.search dir) ∧
        (if sq.matchDirectory dir.value.name then setDirFlag .found (sq.search dir)
          else sq.search dir).value.totals = dir.value.totals := by
      intro dir hdir
      obtain ⟨hsound, htotals⟩ := ih dir hdir (hdirs dir hdir)
      split
      · exact ⟨(hset _).2 hsound, (hset _).1.trans htotals⟩
      · exact ⟨hsound, htotals⟩
    have htotals : dirTotals (dirs.map fun dir =>
        if sq.matchDirectory dir.value.name then setDirFlag .found (sq.search dir)
        else sq.search dir) = dirTotals dirs := by
      clear heq ih hnode h hfiles
      induction dirs with
      | nil => rfl
      | cons dir dirs ih =>
        rw [List.forall_mem_cons] at hsub hdirs
        rw [List.map_cons, dirTotals_cons hsub.1.1.adls, dirTotals_cons hdirs.1.adls, hsub.1.2,
          ih hdirs.2 hsub.2]
    refine ⟨sound_node.mpr ⟨⟨hnode.adls, ?_⟩, ?_⟩, rfl⟩
    · show d.totals = (files.map File.totals).sum + _
      rw [htotals, hfiles, List.map_map, hnode.totals]
      simp only [Function.comp_def, hmark]
    · intro sub hmem
      obtain ⟨dir, hdir, rfl⟩ := List.mem_map.mp hmem
      exact (hsub dir hdir).1

/-! ### Loading -/

/-- The list ends in the root, and the directories were not added up before. -/
structure ListLoader.EndsOnce (st : ListLoader) : Prop where
  opened : st.open_ = []
  files : st.root.info.totals.totalFileCount = 0
  dirs : st.root.info.totals.totalDirCount = 0

instance (st : ListLoader) : Decidable st.EndsOnce :=
  decidable_of_iff
    (st.open_.isEmpty = true ∧ st.root.info.totals.totalFileCount = 0 ∧
      st.root.info.totals.totalDirCount = 0)
    ⟨fun h => ⟨List.isEmpty_iff.mp h.1, h.2.1, h.2.2⟩,
      fun h => ⟨List.isEmpty_iff.mpr h.1, h.2, h.3⟩⟩

/-- A call that ends the list does so for the first time. -/
def ListLoader.Once (st : ListLoader) : Event → Prop
  | .startTag name _ simple =>
    st.inListing = false → name = ascii "FileListing" → simple = true → st.EndsOnce
  | .endTag name _ => st.inListing = true → name = ascii "FileListing" → st.EndsOnce

instance (st : ListLoader) (e : Event) : Decidable (st.Once e) := by
  cases e <;> unfold ListLoader.Once <;> infer_instance

/-- What is in a directory that is being loaded. -/
structure OpenDir.Sound (d : OpenDir) : Prop where
  adls : d.info.adls = false
  dirs : ∀ dir ∈ d.dirs, Listing.Sound dir

/-- Only the files were added up. -/
def OpenDir.Fresh (d : OpenDir) : Prop := d.info.totals = (d.info.files.map sizeTotals).sum

/-- The sums while a list is loaded: those of the root are there when the list has ended. -/
structure ListLoader.Sound (st : ListLoader) : Prop where
  opened : ∀ d ∈ st.open_, d.Sound ∧ d.Fresh
  root : st.root.Sound
  fresh : st.root.info.totals.totalFileCount = 0 → st.root.info.totals.totalDirCount = 0 →
    st.root.Fresh
  ended : st.inListing = false → st.open_ = [] ∧
    st.root.info.totals = (st.root.info.files.map File.totals).sum + dirTotals st.root.dirs

theorem addFile_cases (env : LoadEnv) (attribs : StringPairList) (d : DirInfo) :
    env.addFile attribs d = d ∨
      ∃ f flags, env.addFile attribs d = { d.addFile f with flags := flags } := by
  unfold LoadEnv.addFile
  split
  · exact .inl rfl
  · exact .inr ⟨_, _, rfl⟩

/-- A file is added to the sums, but not to the number of files. -/
theorem sound_addFile {env : LoadEnv} (attribs : StringPairList) {d : OpenDir} (h : d.Sound) :
    OpenDir.Sound { d with info := env.addFile attribs d.info } ∧
      (d.Fresh → OpenDir.Fresh { d with info := env.addFile attribs d.info }) ∧
      (env.addFile attribs d.info).totals.totalFileCount = d.info.totals.totalFileCount ∧
      (env.addFile attribs d.info).totals.totalDirCount = d.info.totals.totalDirCount := by
  rcases addFile_cases env attribs d.info with heq | ⟨f, flags, heq⟩
  · rw [heq]
    exact ⟨h, id, rfl, rfl⟩
  · rw [heq]
    refine ⟨⟨h.adls, h.dirs⟩, fun hfresh => ?_, rfl, rfl⟩
    show (d.info.addFile f).totals = ((d.info.files ++ [f]).map sizeTotals).sum
    rw [totals_addFile, hfresh, List.map_append, List.sum_append]
    simp

theorem sound_close {env : LoadEnv} {d : OpenDir} (h : d.Sound) (hfresh : d.Fresh) :
    Listing.Sound (d.close env) := by
  have hkeeps := DirInfo.keeps_updateSubDirs d.info d.dirs
  refine sound_node.mpr ⟨⟨hkeeps.adls.trans h.adls, ?_⟩, fun dir hdir => ?_⟩
  · show (d.info.updateSubDirs d.dirs).1.totals = _
    rw [dirTotals_perm (env.sorting.dirs_perm _), ((env.sorting.files_perm _).map _).sum_eq,
      hkeeps.files]
    exact totals_close hfresh
  · exact h.dirs dir ((env.sorting.dirs_perm _).mem_iff.mp hdir)

namespace ListLoader

variable {env : LoadEnv} {st : ListLoader}

theorem Sound.addFile (h : st.Sound) (hin : st.inListing = true) (attribs : StringPairList) :
    (st.modifyCurrent fun cur => { cur with info := env.addFile attribs cur.info }).Sound := by
  unfold modifyCurrent
  cases hopen : st.open_ with
  | nil =>
    obtain ⟨hsound, hfresh, hfiles, hdirs⟩ := @sound_addFile env attribs _ h.root
    refine ⟨fun d hd => absurd hd List.not_mem_nil, hsound, fun hf hd => ?_, fun hout => ?_⟩
    · exact hfresh (h.fresh (hfiles.symm.trans hf) (hdirs.symm.trans hd))
    · rw [hin] at hout
      cases hout
  | cons d outer =>
    have hopened := h.opened
    rw [hopen, List.forall_mem_cons] at hopened
    obtain ⟨hsound, hfresh, -, -⟩ := @sound_addFile env attribs _ hopened.1.1
    refine ⟨List.forall_mem_cons.mpr ⟨⟨hsound, hfresh hopened.1.2⟩, hopened.2⟩, h.root, h.fresh,
      fun hout => ?_⟩
    rw [hin] at hout
    cases hout

theorem Sound.openDirectory (h : st.Sound) (hin : st.inListing = true)
    (attribs : StringPairList) : (st.openDirectory attribs).Sound := by
  obtain ⟨hfiles, htotals, hadls, -⟩ := readDirectory_spec st.emptyFileNameCounter attribs
  refine ⟨List.forall_mem_cons.mpr ⟨⟨⟨hadls, fun _ hd => absurd hd List.not_mem_nil⟩, ?_⟩,
    h.opened⟩, h.root, h.fresh, fun hout => ?_⟩
  · show (readDirectory _ _).1.totals = ((readDirectory _ _).1.files.map sizeTotals).sum
    rw [htotals, hfiles]
    rfl
  · rw [show (st.openDirectory attribs).inListing = st.inListing from rfl, hin] at hout
    cases hout

theorem Sound.closeDirectory (h : st.Sound) (hin : st.inListing = true) :
    (st.closeDirectory env).Sound := by
  unfold ListLoader.closeDirectory
  cases hopen : st.open_ with
  | nil => exact h
  | cons d outer =>
    have hopened := h.opened
    rw [hopen, List.forall_mem_cons] at hopened
    have hclosed := @sound_close env _ hopened.1.1 hopened.1.2
    have hdirs {cur : OpenDir} (hcur : cur.Sound) :
        OpenDir.Sound { cur with dirs := cur.dirs ++ [d.close env] } :=
      ⟨hcur.adls, List.forall_mem_append.mpr ⟨hcur.dirs, List.forall_mem_singleton.mpr hclosed⟩⟩
    cases outer with
    | nil =>
      refine ⟨fun _ hd => absurd hd List.not_mem_nil, hdirs h.root, h.fresh, fun hout => ?_⟩
      have hout : st.inListing = false := hout
      rw [hin] at hout
      cases hout
    | cons cur outer =>
      obtain ⟨hcur, houter⟩ := List.forall_mem_cons.mp hopened.2
      refine ⟨List.forall_mem_cons.mpr ⟨⟨hdirs hcur.1, hcur.2⟩, houter⟩, h.root, h.fresh,
        fun hout => ?_⟩
      have hout : st.inListing = false := hout
      rw [hin] at hout
      cases hout

theorem Sound.endListing (h : st.Sound) (honce : st.EndsOnce) :
    ListLoader.Sound
      { st.modifyCurrent (OpenDir.closeListing env) with inListing := false } := by
  have hkeeps := DirInfo.keeps_updateSubDirs st.root.info st.root.dirs
  unfold modifyCurrent
  rw [honce.opened]
  have htotals : (st.root.closeListing env).info.totals =
      ((st.root.closeListing env).info.files.map File.totals).sum +
        dirTotals (st.root.closeListing env).dirs := by
    show (st.root.info.updateSubDirs st.root.dirs).1.totals =
      ((st.root.info.updateSubDirs st.root.dirs).1.files.map File.totals).sum +
        dirTotals (env.sorting.dirs st.root.dirs)
    rw [hkeeps.files, dirTotals_perm (env.sorting.dirs_perm _)]
    exact totals_close (h.fresh honce.files honce.dirs)
  have hroot : (st.root.closeListing env).Sound :=
    ⟨hkeeps.adls.trans h.root.adls, fun dir hdir =>
      h.root.dirs dir ((env.sorting.dirs_perm _).mem_iff.mp hdir)⟩
  refine ⟨fun _ hd => absurd hd List.not_mem_nil, hroot, fun hfiles hdirs => ?_,
    fun _ => ⟨rfl, htotals⟩⟩
  -- without a file or a directory the sums are zero
  have hsound : Listing.Sound (.node (st.root.closeListing env).info
      (st.root.closeListing env).dirs) := sound_node.mpr ⟨⟨hroot.adls, htotals⟩, hroot.dirs⟩
  obtain ⟨hlefiles, hledirs⟩ := hsound.le_counts
  have hnofiles : (st.root.closeListing env).info.files = [] := by
    apply List.eq_nil_of_length_eq_zero
    have hlefiles : ((st.root.closeListing env).info.files.length : Int) ≤
      (st.root.closeListing env).info.totals.totalFileCount := hlefiles
    have hfiles : (st.root.closeListing env).info.totals.totalFileCount = 0 := hfiles
    omega
  have hnodirs : (st.root.closeListing env).dirs = [] := by
    apply List.eq_nil_of_length_eq_zero
    have hledirs : ((st.root.closeListing env).dirs.length : Int) ≤
      (st.root.closeListing env).info.totals.totalDirCount := hledirs
    have hdirs : (st.root.closeListing env).info.totals.totalDirCount = 0 := hdirs
    omega
  show (st.root.closeListing env).info.totals =
    ((st.root.closeListing env).info.files.map sizeTotals).sum
  rw [htotals, hnofiles, hnodirs]
  rfl

theorem Sound.endTag (h : st.Sound) {name : List UInt8}
    (honce : st.inListing = true → name = ascii "FileListing" → st.EndsOnce) :
    (st.endTag env name).Sound := by
  unfold ListLoader.endTag
  split
  · exact h
  · next hin =>
    have hin := Bool.eq_true_of_not_eq_false hin
    split
    · exact h.closeDirectory hin
    · split
      · next hname => exact h.endListing (honce hin hname)
      · exact h

/-- A call keeps the sums right if it does not end the list once more. -/
theorem Sound.step (h : st.Sound) {e : Event} (honce : st.Once e) : (st.step env e).Sound := by
  cases e with
  | endTag name data => exact h.endTag honce
  | startTag name attribs simple =>
    show (st.startTag env name attribs simple).Sound
    unfold startTag
    split
    · next hin =>
      split
      · exact h.addFile hin attribs
      · split
        · next hname =>
          have hopen := h.openDirectory hin attribs
          dsimp only
          split
          · refine hopen.endTag fun _ hlisting => ?_
            rw [hname] at hlisting
            exact absurd hlisting (by decide)
          · exact hopen
        · exact h
    · next hin =>
      have hin := Bool.eq_false_of_not_eq_true hin
      split
      · next hname =>
        have hopen : (st.openListing attribs).Sound :=
          ⟨h.opened, h.root, h.fresh, fun hout => by cases hout⟩
        dsimp only
        split
        · next hsimple =>
          refine hopen.endTag fun _ _ => ?_
          obtain ⟨hopened, hfiles, hdirs⟩ := honce hin hname hsimple
          exact ⟨hopened, hfiles, hdirs⟩
        · exact hopen
      · exact h

theorem inListing_modifyCurrent (f : OpenDir → OpenDir) :
    (st.modifyCurrent f).inListing = st.inListing := by
  unfold modifyCurrent
  split <;> rfl

theorem inListing_endTag (name : List UInt8) :
    (st.endTag env name).inListing =
      (st.inListing && !decide (name = ascii "FileListing")) := by
  unfold endTag
  cases hin : st.inListing with
  | false =>
    rw [if_pos rfl, hin]
    rfl
  | true =>
    rw [if_neg (Ne.symm Bool.false_ne_true), Bool.true_and]
    split
    · next hname =>
      have hclose : (st.closeDirectory env).inListing = st.inListing := by
        unfold closeDirectory
        split
        · rfl
        · exact inListing_modifyCurrent _
      rw [hclose, hin, hname]
      decide
    · split
      · next hname => simp [hname]
      · next hname => simp [hname, hin]

/-- Outside of the list only its tag begins it. -/
theorem inListing_startTag (hout : st.inListing = false) (name : List UInt8)
    (attribs : StringPairList) (simple : Bool) :
    (st.startTag env name attribs simple).inListing =
      (decide (name = ascii "FileListing") && !simple) := by
  unfold startTag
  rw [if_neg (by rw [hout]; exact Bool.false_ne_true)]
  split
  · next hname =>
    cases simple with
    | true =>
      show ((st.openListing attribs).endTag env name).inListing = _
      rw [inListing_endTag]
      simp [hname]
    | false =>
      rw [hname]
      rfl
  · next hname =>
    rw [hout]
    simp [hname]

/-- Behind elements that are all closed no list is open. -/
theorem not_inListing_nested {es : List Event} (hes : Nested es) (hout : st.inListing = false) :
    (es.foldl (step env) st).inListing = false := by
  induction hes generalizing st with
  | nil => exact hout
  | simple name attribs rest ih =>
    refine ih ?_
    show (st.startTag env name attribs true).inListing = false
    rw [inListing_startTag hout, Bool.not_true, Bool.and_false]
  | element name attribs data content rest ihContent ihRest =>
    rw [List.foldl_cons, List.foldl_append, List.foldl_cons]
    refine ihRest ?_
    show (endTag env _ name).inListing = false
    rw [inListing_endTag]
    by_cases hname : name = ascii "FileListing"
    · rw [hname, decide_eq_true rfl, Bool.not_true, Bool.and_false]
    · rw [ihContent, Bool.false_and]
      show (st.startTag env name attribs false).inListing = false
      rw [inListing_startTag hout, decide_eq_false hname, Bool.false_and]

end ListLoader

/-- A list that ends once is loaded with the right sums. -/
theorem sound_loadXML {env : LoadEnv} {doc : Document}
    (h : Within ListLoader.Once (ListLoader.step env) .new doc.events) :
    Sound (loadXML env doc).root := by
  have hnew : ListLoader.new.Sound :=
    ⟨fun _ hd => absurd hd List.not_mem_nil, ⟨rfl, fun _ hd => absurd hd List.not_mem_nil⟩,
      fun _ _ => rfl, fun _ => ⟨rfl, rfl⟩⟩
  have hloader : (loader env doc).Sound :=
    h.invariant ListLoader.Sound (fun _ _ hst honce => hst.step honce) hnew
  obtain ⟨hopened, htotals⟩ := hloader.ended (ListLoader.not_inListing_nested doc.nested rfl)
  show Sound (attach (loader env doc).open_ [] (loader env doc).root)
  rw [hopened, attach, List.append_nil]
  exact sound_node.mpr ⟨⟨hloader.root.adls, htotals⟩, hloader.root.dirs⟩

/-! ### Runs -/

/-- What is done with a listing, or with a new one that the matches are copied to. -/
inductive CountEvent where
  | load (env : LoadEnv) (doc : Document)
  | splice (env : LoadEnv) (doc : Document)
  | search (sq : SearchQuery)
  | copyMatches (sq : SearchQuery)
  | filterList (l : List TTHValue)
  | addDclstSelf (f : File)

/-- The listing then, or the new one. -/
def CountEvent.apply (l : DirectoryListing) : CountEvent → DirectoryListing
  | .load env doc => loadXML env doc
  | .splice env doc => l.spliceTree (loadXML env doc)
  | .search sq => { l with root := sq.search l.root }
  | .copyMatches sq => { l with root := Listing.copyMatches sq l.root }
  | .filterList t => { l with root := (Listing.filterList t l.root).1 }
  | .addDclstSelf f => { l with root := Listing.addDclstSelf f l.root }

/-- Nothing in a listing matches. -/
def NoneMatches (sq : SearchQuery) : Directory → Prop :=
  RoseTree.Everywhere fun d _ => ∀ f ∈ d.files, sq.matchFile f = false

instance (sq : SearchQuery) (dir : Directory) : Decidable (NoneMatches sq dir) :=
  inferInstanceAs (Decidable (RoseTree.Everywhere _ dir))

/-- What keeps the sums right: a list ends once, no file that matches is copied, no file that is
filtered out was uploaded, and there is no directory for a list to add itself to. -/
def CountEvent.Exact (l : DirectoryListing) : CountEvent → Prop
  | .load env doc => Within ListLoader.Once (ListLoader.step env) .new doc.events
  | .splice env doc => Within ListLoader.Once (ListLoader.step env) .new doc.events
  | .search _ => True
  | .copyMatches sq => NoneMatches sq l.root
  | .filterList t => NoneUploaded t l.root
  | .addDclstSelf _ => l.root.children = []

instance (l : DirectoryListing) (e : CountEvent) : Decidable (e.Exact l) := by
  cases e with
  | addDclstSelf f =>
    exact decidable_of_iff (l.root.children.isEmpty = true) List.isEmpty_iff
  | _ => unfold CountEvent.Exact; infer_instance

theorem matchedDirs_eq_nil {sq : SearchQuery} {dir : Directory} (h : NoneMatches sq dir) :
    matchedDirs sq dir = [] := by
  induction dir using RoseTree.induction with
  | node d dirs ih =>
    obtain ⟨hfiles, hdirs⟩ := RoseTree.everywhere_node.mp h
    have hnone : d.files.filter sq.matchFile = [] := by
      rw [List.filter_eq_nil_iff]
      intro f hf
      rw [hfiles f hf]
      exact Bool.false_ne_true
    rw [matchedDirs, RoseTree.para_node, ← matchedDirs]
    dsimp only
    rw [hnone, if_pos rfl, List.nil_append, List.flatMap_eq_nil_iff]
    rintro ⟨⟨dir, below⟩, i⟩ hmem
    obtain ⟨hi, heq⟩ := List.mem_zipIdx' hmem
    rw [List.getElem_map] at heq
    injection heq with _ hbelow
    rw [List.length_map] at hi
    dsimp only
    rw [hbelow, ih _ (List.getElem_mem hi) (hdirs _ (List.getElem_mem hi)), List.map_nil]

theorem sound_apply {l : DirectoryListing} (h : Sound l.root) {e : CountEvent} (he : e.Exact l) :
    Sound (e.apply l).root := by
  cases e with
  | load env doc => exact sound_loadXML he
  | splice env doc => exact sound_spliceTree (sound_loadXML he) h
  | search sq => exact (sound_search sq h).1
  | copyMatches sq =>
    show Sound (copyMatches sq l.root)
    rw [copyMatches, matchedDirs_eq_nil he]
    exact sound_new _ _
  | filterList t => exact sound_filterList h he
  | addDclstSelf f =>
    show Sound (Listing.addDclstSelf f l.root)
    cases hroot : l.root with
    | node d dirs =>
      rw [← hroot]
      have hdirs : dirs = [] := by
        have hchildren : l.root.children = [] := he
        rwa [hroot] at hchildren
      have hsame : addDclstSelf f l.root = l.root := by
        rw [hroot, hdirs]
        rfl
      rw [hsame]
      exact h

/-- In every state each directory has the sums over all that is below it. -/
theorem sums_run {es : List CountEvent}
    (h : Within CountEvent.Exact CountEvent.apply .new es) :
    Counted (run CountEvent.apply .new es).root := by
  have hnew : Sound DirectoryListing.new.root := sound_new _ _
  exact Sound.counted (h.invariant (fun l ↦ Sound l.root) (fun _ _ hl he ↦ sound_apply hl he) hnew)

/-- The hash of the file in the lists. -/
def listedTTH : TTHValue := (tthOfBase32 (List.replicate 39 0x42)).getD default

/-- A list is loaded, one is merged, the file is searched for and filtered out, and no match is
copied. -/
theorem sums_run_filter :
    Within CountEvent.Exact CountEvent.apply .new
      [.load .plain nestedList, .splice .plain (emptyListAt (ascii "/a/c/")),
        .search (searchFor (ascii "x")), .filterList [listedTTH],
        .copyMatches (searchFor (ascii "y"))] ∧
      Counted (run CountEvent.apply .new
        [.load .plain nestedList, .splice .plain (emptyListAt (ascii "/a/c/")),
          .search (searchFor (ascii "x")), .filterList [listedTTH],
          .copyMatches (searchFor (ascii "y"))]).root := by
  have hwithin : Within CountEvent.Exact CountEvent.apply .new
      [.load .plain nestedList, .splice .plain (emptyListAt (ascii "/a/c/")),
        .search (searchFor (ascii "x")), .filterList [listedTTH],
        .copyMatches (searchFor (ascii "y"))] := by
    decide
  exact ⟨hwithin, sums_run hwithin⟩

/-- A list with one file that was uploaded three times. -/
def uploadedList : Document where
  events :=
    listTags (ascii "/")
      [.startTag (ascii "File")
        [(ascii "Name", ascii "x"), (ascii "Size", ascii "1"),
          (ascii "TTH", List.replicate 39 0x42), (ascii "HIT", ascii "3")] true]
  nested := .element _ _ _ (.simple _ _ .nil) .nil

theorem Nested.append {es fs : List Event} (hes : Nested es) (hfs : Nested fs) :
    Nested (es ++ fs) := by
  induction hes with
  | nil => exact hfs
  | simple name attribs rest ih => exact .simple name attribs ih
  | element name attribs data content rest _ ih =>
    rw [List.cons_append, List.append_assoc, List.cons_append]
    exact .element name attribs data content ih

/-- The list with the file `a/b/x` twice in an element. -/
def twiceList : Document where
  events :=
    .startTag (ascii "Lists") [] false ::
      ((nestedList.events ++ nestedList.events) ++ [.endTag (ascii "Lists") []])
  nested := .element _ _ _ (nestedList.nested.append nestedList.nested) .nil

/-- A file that was uploaded is filtered out, a match is copied, a list adds itself to its first
directory, and a list comes twice in its document. -/
theorem not_sums_run :
    ¬ Counted (run CountEvent.apply .new
      [.load .plain uploadedList, .filterList [listedTTH]]).root ∧
    ¬ Counted (run CountEvent.apply .new
      [.load .plain nestedList, .copyMatches (searchFor (ascii "x"))]).root ∧
    ¬ Counted (run CountEvent.apply .new
      [.load .plain nestedList,
        .addDclstSelf ⟨ascii "x.dcls", 5, default, 0, 0, 0, ∅⟩]).root ∧
    ¬ Counted (run CountEvent.apply .new [.load .plain twiceList]).root := by
  refine ⟨?_, ?_, ?_, ?_⟩
  · decide
  · decide
  · decide
  · decide

end Blacklink.Listing
