import Blacklink.Base.Run
import Blacklink.Listing.SpliceTree

/-!
# Names of files and directories in a listing

What `DirectoryListing::download` (`client/DirectoryListing.cpp:677-703`) makes of the names in a
listing stays below the target as long as the names are valid. Names of elements are checked, but
not the hash that stands in for the name of a file, nor the names in the path of a list that is
merged.
-/

namespace Blacklink.Listing

open Blacklink.Base Blacklink.Text Blacklink.Xml

/-- A name that is a part of a path and leads down by one. -/
structure IsPlain (name : List UInt8) : Prop where
  ne_nil : name ≠ []
  ne_dot : name ≠ ascii "."
  ne_dotDot : name ≠ ascii ".."
  no_slash : '/'.toUInt8 ∉ name
  no_backslash : '\\'.toUInt8 ∉ name

theorem isValidName_iff {name : List UInt8} : isValidName name ↔ IsPlain name := by
  unfold isValidName
  constructor
  · intro h
    split_ifs at h with hnil hdots hslashes
    rw [not_or] at hdots hslashes
    exact ⟨hnil, hdots.1, hdots.2, hslashes.1, hslashes.2⟩
  · intro h
    rw [if_neg h.ne_nil, if_neg (not_or.mpr ⟨h.ne_dot, h.ne_dotDot⟩),
      if_neg (not_or.mpr ⟨h.no_slash, h.no_backslash⟩)]

instance (name : List UInt8) : Decidable (IsPlain name) := decidable_of_iff _ isValidName_iff

/-- The names in a directory. -/
def DirInfo.NamesPlain (d : DirInfo) (dirs : List Directory) : Prop :=
  (∀ f ∈ d.files, IsPlain f.name) ∧ ∀ dir ∈ dirs, IsPlain dir.value.name

instance (d : DirInfo) (dirs : List Directory) : Decidable (d.NamesPlain dirs) :=
  inferInstanceAs
    (Decidable ((∀ f ∈ d.files, IsPlain f.name) ∧ ∀ dir ∈ dirs, IsPlain dir.value.name))

/-- All names below a directory can be parts of a path. -/
def NamesPlain : Directory → Prop := RoseTree.Everywhere DirInfo.NamesPlain

instance (dir : Directory) : Decidable (NamesPlain dir) :=
  inferInstanceAs (Decidable (RoseTree.Everywhere _ dir))

/-- The names below directories, and theirs. -/
def AllPlain (dirs : List Directory) : Prop := ∀ dir ∈ dirs, IsPlain dir.value.name ∧ NamesPlain dir

theorem namesPlain_node {d : DirInfo} {dirs : List Directory} :
    NamesPlain (.node d dirs) ↔ (∀ f ∈ d.files, IsPlain f.name) ∧ AllPlain dirs := by
  rw [NamesPlain, RoseTree.everywhere_node, DirInfo.NamesPlain, and_assoc]
  exact and_congr_right fun _ => forall₂_and.symm

theorem allPlain_append {dirs dirs' : List Directory} :
    AllPlain (dirs ++ dirs') ↔ AllPlain dirs ∧ AllPlain dirs' := List.forall_mem_append

theorem allPlain_singleton {dir : Directory} :
    AllPlain [dir] ↔ IsPlain dir.value.name ∧ NamesPlain dir := List.forall_mem_singleton

theorem allPlain_congr {dirs dirs' : List Directory} (h : dirs.Perm dirs') :
    AllPlain dirs ↔ AllPlain dirs' := by
  unfold AllPlain
  simp only [h.mem_iff]

/-! ### Downloads -/

/-- The targets that `download` of a directory in a listing adds to the queue. -/
def downloadDir (separator : UInt8) : Directory → List UInt8 → List (List UInt8) :=
  RoseTree.para fun d dirs target =>
    let dirTarget := target ++ d.name ++ [separator]
    if d.complete = false then [dirTarget]
    else (dirs.flatMap fun dir => dir.2 dirTarget) ++ d.files.map fun f => dirTarget ++ f.name

/-- The targets that `download` of the root adds. -/
def download (separator : UInt8) (l : DirectoryListing) (target : List UInt8) :
    List (List UInt8) :=
  if l.root.value.complete = false then [target]
  else
    (l.root.children.flatMap fun dir => downloadDir separator dir target) ++
      l.root.value.files.map fun f => target ++ f.name

/-- What is reached from the target by going down, with a separator behind each directory. -/
def IsBelow (separator : UInt8) (target path : List UInt8) : Prop :=
  ∃ dirs : List (List UInt8), (∀ name ∈ dirs, IsPlain name) ∧
    (path = target ++ dirs.flatMap (· ++ [separator]) ∨
      ∃ name, IsPlain name ∧ path = target ++ dirs.flatMap (· ++ [separator]) ++ name)

theorem IsBelow.of_dir {separator : UInt8} {target name path : List UInt8} (hname : IsPlain name)
    (h : IsBelow separator (target ++ name ++ [separator]) path) :
    IsBelow separator target path := by
  obtain ⟨dirs, hdirs, h⟩ := h
  refine ⟨name :: dirs, List.forall_mem_cons.mpr ⟨hname, hdirs⟩, ?_⟩
  rw [List.flatMap_cons]
  simpa only [List.append_assoc] using h

theorem isBelow_self (separator : UInt8) (target : List UInt8) : IsBelow separator target target :=
  ⟨[], by simp, .inl (by simp)⟩

theorem isBelow_name {separator : UInt8} {target name : List UInt8} (h : IsPlain name) :
    IsBelow separator target (target ++ name) := ⟨[], by simp, .inr ⟨name, h, by simp⟩⟩

theorem isBelow_downloadDir {separator : UInt8} {dir : Directory} (h : NamesPlain dir)
    (hname : IsPlain dir.value.name) {target path : List UInt8}
    (hpath : path ∈ downloadDir separator dir target) : IsBelow separator target path := by
  induction dir using RoseTree.induction generalizing target with
  | node d dirs ih =>
    rw [namesPlain_node] at h
    rw [downloadDir, RoseTree.para_node] at hpath
    apply IsBelow.of_dir hname
    show IsBelow _ (target ++ d.name ++ [separator]) path
    split at hpath
    · rw [List.mem_singleton] at hpath
      rw [hpath]
      exact isBelow_self _ _
    · rcases List.mem_append.mp hpath with hpath | hpath
      · rw [List.flatMap_map] at hpath
        obtain ⟨dir, hdir, hpath⟩ := List.mem_flatMap.mp hpath
        exact ih dir hdir (h.2 dir hdir).2 (h.2 dir hdir).1 hpath
      · obtain ⟨f, hf, rfl⟩ := List.mem_map.mp hpath
        exact isBelow_name (h.1 f hf)

/-- A listing that can be downloaded: its names are parts of paths, and the targets are below the
one that is chosen. -/
structure IsSafe (l : DirectoryListing) : Prop where
  names : NamesPlain l.root
  targets : ∀ separator target, ∀ path ∈ download separator l target, IsBelow separator target path

theorem isSafe_iff {l : DirectoryListing} : IsSafe l ↔ NamesPlain l.root := by
  constructor
  · exact IsSafe.names
  · intro h
    refine ⟨h, fun separator target path hpath => ?_⟩
    cases hroot : l.root with
    | node d dirs =>
      rw [hroot, namesPlain_node] at h
      rw [download, hroot] at hpath
      split at hpath
      · rw [List.mem_singleton] at hpath
        rw [hpath]
        exact isBelow_self _ _
      · rcases List.mem_append.mp hpath with hpath | hpath
        · obtain ⟨dir, hdir, hpath⟩ := List.mem_flatMap.mp hpath
          exact isBelow_downloadDir (h.2 dir hdir).2 (h.2 dir hdir).1 hpath
        · obtain ⟨f, hf, rfl⟩ := List.mem_map.mp hpath
          exact isBelow_name (h.1 f hf)

/-! ### Loading -/

/-- The names in a directory that is being loaded. -/
def OpenDir.NamesPlain (d : OpenDir) : Prop :=
  (∀ f ∈ d.info.files, IsPlain f.name) ∧ AllPlain d.dirs

/-- The names that are loaded so far. -/
def ListLoader.NamesPlain (st : ListLoader) : Prop :=
  st.root.NamesPlain ∧ ∀ d ∈ st.open_, IsPlain d.info.name ∧ d.NamesPlain

/-- The file of a tag has a valid name, or the text of its hash can be one. -/
def FilePlain (ownList : Bool) (attribs : StringPairList) : Prop :=
  (readFile ownList attribs).isSome →
    (∃ valFilename ∈ lastValue attribs [ascii "Name"], isValidName valFilename) ∨
      ∀ valTTH ∈ lastValue attribs [ascii "TTH"],
        '/'.toUInt8 ∉ valTTH ∧ '\\'.toUInt8 ∉ valTTH

/-- What the loader is called with does not take a hash with a slash for a name. -/
def ListLoader.FilePlain (env : LoadEnv) (st : ListLoader) : Event → Prop
  | .startTag name attribs _ =>
    st.inListing → name = ascii "File" → Listing.FilePlain env.ownList attribs
  | .endTag _ _ => True

theorem isPlain_of_long {name : List UInt8} (hlength : 2 < name.length) :
    IsPlain name ↔ '/'.toUInt8 ∉ name ∧ '\\'.toUInt8 ∉ name := by
  constructor
  · intro h
    exact ⟨h.no_slash, h.no_backslash⟩
  · rintro ⟨hslash, hbackslash⟩
    refine ⟨?_, ?_, ?_, hslash, hbackslash⟩ <;> rintro rfl <;> exact absurd hlength (by decide)

/-- What a file is added for, and under which name. -/
theorem readFile_cases {ownList : Bool} {attribs : StringPairList} {r}
    (h : readFile ownList attribs = some r) :
    ∃ valTTH, lastValue attribs [ascii "TTH"] = some valTTH ∧ valTTH.length = 39 ∧
      ((∃ valFilename ∈ lastValue attribs [ascii "Name"],
          isValidName valFilename ∧ r.1 = valFilename) ∨
        (∀ valFilename ∈ lastValue attribs [ascii "Name"], ¬ isValidName valFilename) ∧
          r.1 = valTTH) := by
  unfold readFile at h
  generalize ascii "Size" = sizeName, ascii "TTH" = tthName, ascii "Name" = nameName at h ⊢
  cases hsize : lastValue attribs [sizeName] with
  | none => rw [hsize] at h; cases h
  | some valSize =>
    cases htth : lastValue attribs [tthName] with
    | none => rw [hsize, htth] at h; cases h
    | some valTTH =>
      rw [hsize, htth] at h
      simp only [Option.bind_eq_bind, Option.bind_some] at h
      refine ⟨valTTH, rfl, ?_⟩
      by_cases hlength : valTTH.length ≠ 39
      · rw [if_pos hlength] at h
        cases h
      · rw [if_neg hlength] at h
        refine ⟨not_not.mp hlength, ?_⟩
        obtain ⟨tth, -, h⟩ := Option.bind_eq_some_iff.mp h
        split at h
        · cases h
        · split at h
          · cases h
          · cases hname : lastValue attribs [nameName] with
            | none =>
              rw [hname] at h
              cases h
              exact .inr ⟨fun _ hmem => absurd hmem (Option.not_mem_none _), rfl⟩
            | some valFilename =>
              rw [hname] at h
              simp only [Option.some.injEq] at h
              subst h
              by_cases hvalid : isValidName valFilename
              · exact .inl ⟨valFilename, rfl, hvalid, if_pos hvalid⟩
              · exact .inr ⟨fun _ hmem => (by cases hmem; exact hvalid), if_neg hvalid⟩

theorem filePlain_iff {ownList : Bool} {attribs : StringPairList} {r}
    (h : readFile ownList attribs = some r) : FilePlain ownList attribs ↔ IsPlain r.1 := by
  obtain ⟨valTTH, htth, hlength, hname⟩ := readFile_cases h
  rw [FilePlain, h, htth]
  rcases hname with ⟨valFilename, hmem, hvalid, hname⟩ | ⟨hinvalid, hname⟩
  · rw [hname]
    exact iff_of_true (fun _ => .inl ⟨valFilename, hmem, hvalid⟩) (isValidName_iff.mp hvalid)
  · rw [hname, isPlain_of_long (by omega)]
    constructor
    · intro h
      rcases h rfl with ⟨valFilename, hmem, hvalid⟩ | h
      · exact absurd hvalid (hinvalid valFilename hmem)
      · exact h valTTH rfl
    · rintro h -
      refine .inr fun _ hmem => ?_
      cases hmem
      exact h

theorem namesPlain_addFile {env : LoadEnv} {attribs : StringPairList} {d : DirInfo} :
    (∀ f ∈ (env.addFile attribs d).files, IsPlain f.name) ↔
      (∀ f ∈ d.files, IsPlain f.name) ∧ FilePlain env.ownList attribs := by
  unfold LoadEnv.addFile
  cases h : readFile env.ownList attribs with
  | none =>
    refine (and_iff_left ?_).symm
    intro hsome
    rw [h] at hsome
    cases hsome
  | some r =>
    rw [filePlain_iff h]
    show (∀ f ∈ d.files ++ [_], _) ↔ _
    rw [List.forall_mem_append, List.forall_mem_singleton]

theorem name_addFile (env : LoadEnv) (attribs : StringPairList) (d : DirInfo) :
    (env.addFile attribs d).name = d.name := by
  unfold LoadEnv.addFile
  split <;> rfl

theorem namesPlain_close {env : LoadEnv} {d : OpenDir} :
    AllPlain [d.close env] ↔ IsPlain d.info.name ∧ d.NamesPlain := by
  rw [allPlain_singleton, OpenDir.close, namesPlain_node, OpenDir.NamesPlain]
  show IsPlain (d.info.updateSubDirs d.dirs).1.name ∧ _ ∧ _ ↔ _
  rw [(DirInfo.keeps_updateSubDirs _ _).name, allPlain_congr (env.sorting.dirs_perm _)]
  simp only [(env.sorting.files_perm _).mem_iff, (DirInfo.keeps_updateSubDirs _ _).files]

theorem namesPlain_closeListing {env : LoadEnv} {d : OpenDir} :
    (d.closeListing env).NamesPlain ↔ d.NamesPlain := by
  rw [OpenDir.NamesPlain, OpenDir.NamesPlain, OpenDir.closeListing,
    allPlain_congr (env.sorting.dirs_perm _)]
  simp only [(DirInfo.keeps_updateSubDirs _ _).files]

namespace ListLoader

variable {env : LoadEnv} {st : ListLoader}

/-- A change of the directory that is being loaded adds the names that the change adds. -/
theorem namesPlain_modifyCurrent {f : OpenDir → OpenDir} {Q : Prop}
    (hname : ∀ d, (f d).info.name = d.info.name) (h : ∀ d, (f d).NamesPlain ↔ d.NamesPlain ∧ Q) :
    (st.modifyCurrent f).NamesPlain ↔ st.NamesPlain ∧ Q := by
  unfold modifyCurrent NamesPlain
  cases st.open_ with
  | nil =>
    dsimp only
    rw [h]
    tauto
  | cons d outer =>
    simp only [List.forall_mem_cons, h, hname]
    tauto

theorem namesPlain_closeDirectory : (st.closeDirectory env).NamesPlain ↔ st.NamesPlain := by
  unfold closeDirectory
  cases hopen : st.open_ with
  | nil => rfl
  | cons d outer =>
    have hdirs (cur : OpenDir) :
        OpenDir.NamesPlain { cur with dirs := cur.dirs ++ [d.close env] } ↔
          cur.NamesPlain ∧ IsPlain d.info.name ∧ d.NamesPlain := by
      show _ ∧ AllPlain (cur.dirs ++ [d.close env]) ↔ _
      rw [allPlain_append, namesPlain_close, ← and_assoc]
      rfl
    refine (namesPlain_modifyCurrent (f := fun cur ↦ { cur with dirs := cur.dirs ++ [d.close env] })
      (fun _ => rfl) hdirs).trans ?_
    rw [NamesPlain, NamesPlain, hopen, List.forall_mem_cons]
    tauto

theorem namesPlain_endTag {name : List UInt8} :
    (st.endTag env name).NamesPlain ↔ st.NamesPlain := by
  unfold endTag
  split
  · rfl
  · split
    · exact namesPlain_closeDirectory
    · split
      · refine (namesPlain_modifyCurrent (f := OpenDir.closeListing env) (Q := True)
          (fun d => (DirInfo.keeps_updateSubDirs _ _).name) fun d => ?_).trans
          (iff_of_eq (and_true _))
        rw [namesPlain_closeListing, and_true]
      · rfl

/-- The name that a directory gets without a valid one. -/
theorem isPlain_invalidFolderName (n : Nat) :
    IsPlain (ascii "invalid_folder_name_" ++ natToString n) := by
  rw [isPlain_of_long (by rw [List.length_append]; exact Nat.lt_add_right _ (by decide)),
    List.mem_append, List.mem_append, not_or, not_or]
  refine ⟨⟨by decide, fun h => ?_⟩, by decide, fun h => ?_⟩
  · exact absurd (digit_of_mem_natToString h) (by decide)
  · exact absurd (digit_of_mem_natToString h) (by decide)

theorem isPlain_readDirectory (counter : Nat) (attribs : StringPairList) :
    IsPlain (readDirectory counter attribs).1.name := by
  unfold readDirectory
  by_cases hvalid : isValidName (getAttrib attribs (ascii "Name") 0)
  · simp only [if_pos hvalid]
    split
    · exact isValidName_iff.mp hvalid
    · exact isValidName_iff.mp hvalid
  · simp only [if_neg hvalid]
    split
    · exact isPlain_invalidFolderName _
    · exact isPlain_invalidFolderName _

theorem namesPlain_openDirectory {attribs : StringPairList} :
    (st.openDirectory attribs).NamesPlain ↔ st.NamesPlain := by
  have hname := isPlain_readDirectory st.emptyFileNameCounter attribs
  unfold openDirectory NamesPlain
  rw [List.forall_mem_cons]
  have hnew : OpenDir.NamesPlain ⟨(readDirectory st.emptyFileNameCounter attribs).1, []⟩ := by
    refine ⟨?_, fun _ hdir => absurd hdir List.not_mem_nil⟩
    intro f hf
    rw [(readDirectory_spec _ _).1] at hf
    cases hf
  tauto

/-- A call adds no other names than the one of a file that is accepted. -/
theorem namesPlain_step (e : Event) :
    (st.step env e).NamesPlain ↔ st.NamesPlain ∧ st.FilePlain env e := by
  cases e with
  | endTag name data => exact namesPlain_endTag.trans (iff_of_eq (and_true _)).symm
  | startTag name attribs simple =>
    show (st.startTag env name attribs simple).NamesPlain ↔
      _ ∧ (st.inListing → name = ascii "File" → Listing.FilePlain env.ownList attribs)
    unfold startTag
    split
    · next hin =>
      split
      · next hfile =>
        rw [namesPlain_modifyCurrent (Q := Listing.FilePlain env.ownList attribs)
          (fun d => name_addFile _ _ _)]
        · simp only [hin, hfile, true_imp_iff]
        · intro d
          show _ ∧ _ ↔ _
          rw [namesPlain_addFile, OpenDir.NamesPlain]
          tauto
      · next hfile =>
        rw [and_iff_left fun _ h => absurd h hfile]
        split
        · dsimp only
          split
          · rw [namesPlain_endTag, namesPlain_openDirectory]
          · exact namesPlain_openDirectory
        · rfl
    · next hin =>
      rw [and_iff_left fun h => absurd h hin]
      split
      · dsimp only
        split
        · rw [namesPlain_endTag]
          rfl
        · rfl
      · rfl

end ListLoader

theorem namesPlain_attach {opened : List OpenDir} {sub : List Directory} {root : OpenDir} :
    NamesPlain (attach opened sub root) ↔
      (root.NamesPlain ∧ ∀ d ∈ opened, IsPlain d.info.name ∧ d.NamesPlain) ∧ AllPlain sub := by
  induction opened generalizing sub with
  | nil =>
    rw [attach, namesPlain_node, allPlain_append, OpenDir.NamesPlain]
    simp only [List.not_mem_nil, false_imp_iff, implies_true, and_true, and_assoc]
  | cons d outer ih =>
    rw [attach, ih, allPlain_singleton, namesPlain_node, allPlain_append, List.forall_mem_cons,
      OpenDir.NamesPlain, OpenDir.NamesPlain]
    show _ ∧ IsPlain d.info.name ∧ _ ↔ _
    tauto

/-- The names of a list are good exactly if no file is called by a hash that is none. -/
theorem namesPlain_loadXML (env : LoadEnv) (doc : Document) :
    NamesPlain (loadXML env doc).root ↔
      Within (ListLoader.FilePlain env) (ListLoader.step env) .new doc.events := by
  have hrun (st : ListLoader) (es : List Event) :
      (es.foldl (ListLoader.step env) st).NamesPlain ↔
        st.NamesPlain ∧ Within (ListLoader.FilePlain env) (ListLoader.step env) st es := by
    induction es generalizing st with
    | nil => exact (iff_of_eq (and_true _)).symm
    | cons e es ih =>
      rw [List.foldl_cons, ih, ListLoader.namesPlain_step, within_cons, and_assoc]
  show NamesPlain (attach _ [] _) ↔ _
  rw [namesPlain_attach, and_iff_left (show AllPlain [] from fun _ h => absurd h List.not_mem_nil)]
  refine (hrun .new doc.events).trans (and_iff_right ?_)
  refine ⟨⟨?_, ?_⟩, ?_⟩ <;> exact fun _ h => absurd h List.not_mem_nil

/-! ### Merging -/

theorem namesPlain_updateInfo {isRoot : Bool} {d : DirInfo} {dirs : List Directory} :
    NamesPlain (.node (d.updateInfo isRoot dirs).1 dirs) ↔ NamesPlain (.node d dirs) := by
  rw [namesPlain_node, namesPlain_node, DirInfo.files_updateInfo]

theorem allPlain_putDir {src : Directory} {name : List UInt8} {dirs : List Directory}
    (h : AllPlain dirs) :
    AllPlain (putDir src name dirs) ↔ IsPlain src.value.name ∧ NamesPlain src := by
  induction dirs with
  | nil => exact allPlain_singleton
  | cons dir dirs ih =>
    obtain ⟨hdir, hdirs⟩ := List.forall_mem_cons.mp h
    unfold putDir
    split
    · exact List.forall_mem_cons.trans (and_iff_left hdirs)
    · exact List.forall_mem_cons.trans ((and_iff_right hdir).trans (ih hdirs))

theorem allPlain_inDir {f : Directory → Directory × Bool} {name : List UInt8}
    {dirs : List Directory} {Q : Prop} (hname : ∀ dir, (f dir).1.value.name = dir.value.name)
    (hf : ∀ dir, NamesPlain dir → (NamesPlain (f dir).1 ↔ Q)) (h : AllPlain dirs) :
    AllPlain (inDir f name dirs).1 ↔ IsPlain name ∧ Q := by
  induction dirs with
  | nil =>
    show AllPlain [_] ↔ _
    rw [allPlain_singleton, hname, hf]
    · rfl
    · rw [namesPlain_node]
      exact ⟨fun _ h => absurd h List.not_mem_nil, fun _ h => absurd h List.not_mem_nil⟩
  | cons dir dirs ih =>
    obtain ⟨hdir, hdirs⟩ := List.forall_mem_cons.mp h
    unfold inDir
    split
    · next heq =>
      refine List.forall_mem_cons.trans ((and_iff_left hdirs).trans ?_)
      rw [hname, hf dir hdir.2, heq]
    · exact List.forall_mem_cons.trans ((and_iff_right hdir).trans (ih hdirs))

theorem name_spliceDir (src : Directory) (dirName : List UInt8) (isRoot : Bool)
    (tokens : List (List UInt8)) (dir : Directory) :
    (spliceDir src dirName isRoot tokens dir).1.value.name = dir.value.name := by
  cases dir with
  | node d dirs =>
    cases tokens with
    | nil => exact DirInfo.name_updateInfo _ _ _
    | cons token tokens =>
      unfold spliceDir
      dsimp only
      split
      · refine (DirInfo.name_updateInfo _ _ _).trans ?_
        split <;> rfl
      · show (if _ then _ else _ : DirInfo).name = _
        split <;> rfl

theorem namesPlain_rename (name : List UInt8) (dir : Directory) :
    (rename name dir).value.name = name ∧ (NamesPlain (rename name dir) ↔ NamesPlain dir) := by
  cases dir with
  | node d dirs => exact ⟨rfl, Iff.rfl⟩

theorem namesPlain_spliceDir {src : Directory} {dirName : List UInt8} (isRoot : Bool)
    (tokens : List (List UInt8)) {dir : Directory} (h : NamesPlain dir) :
    NamesPlain (spliceDir src dirName isRoot tokens dir).1 ↔
      (∀ token ∈ tokens, IsPlain token) ∧ IsPlain dirName ∧ NamesPlain src := by
  induction tokens generalizing isRoot dir with
  | nil =>
    cases dir with
    | node d dirs =>
      rw [namesPlain_node] at h
      show NamesPlain (.node (d.updateInfo _ _).1 _) ↔ _
      rw [namesPlain_updateInfo, namesPlain_node, and_iff_right h.1, allPlain_putDir h.2,
        (namesPlain_rename _ _).1, (namesPlain_rename _ _).2]
      exact (and_iff_right fun _ h => absurd h List.not_mem_nil).symm
  | cons token tokens ih =>
    cases dir with
    | node d dirs =>
      rw [namesPlain_node] at h
      have hdirs : AllPlain (inDir (spliceDir src dirName false tokens) token dirs).1 ↔
          IsPlain token ∧ (∀ token ∈ tokens, IsPlain token) ∧ IsPlain dirName ∧ NamesPlain src :=
        allPlain_inDir (name_spliceDir _ _ _ _) (fun dir hdir => ih false hdir) h.2
      rw [List.forall_mem_cons, and_assoc, ← hdirs]
      unfold spliceDir
      dsimp only
      generalize hd : (if (isRoot && _) = true then { d with complete := false } else d) = d'
      have hfiles : d'.files = d.files := by
        rw [← hd]
        split <;> rfl
      split
      · rw [namesPlain_updateInfo, namesPlain_node, hfiles, and_iff_right h.1]
      · rw [namesPlain_node, hfiles, and_iff_right h.1]

/-! ### Paths -/

theorem pathTokens_append (token x y : List UInt8) :
    pathTokens token (x ++ '/'.toUInt8 :: y) = pathTokens token x ++ pathTokens [] y := by
  induction x generalizing token with
  | nil =>
    rw [List.nil_append, pathTokens, pathTokens, if_pos rfl]
    split <;> rfl
  | cons c x ih =>
    rw [List.cons_append, pathTokens, pathTokens]
    split
    · split
      · exact ih []
      · rw [ih [], List.cons_append]
    · exact ih _

theorem pathTokens_of_no_slash {token x : List UInt8} (h : '/'.toUInt8 ∉ x) :
    pathTokens token x = if token ++ x = [] then [] else [token ++ x] := by
  induction x generalizing token with
  | nil => rw [pathTokens, List.append_nil]
  | cons c x ih =>
    rw [List.mem_cons, not_or] at h
    rw [pathTokens, if_neg (Ne.symm h.1), ih h.2]
    simp

theorem pathTokens_rdropWhile (path : List UInt8) :
    pathTokens [] (path.rdropWhile (· = '/'.toUInt8)) = pathTokens [] path := by
  induction path using List.reverseRecOn with
  | nil => rfl
  | append_singleton path c ih =>
    rw [List.rdropWhile_concat]
    split
    · next hc =>
      rw [ih, of_decide_eq_true hc, pathTokens_append]
      exact (List.append_nil _).symm
    · rfl

/-- The names in a path are those that lead to its last one, and that one. -/
theorem pathTokens_takeDirName {path : List UInt8} (h : ∀ c ∈ path.head?, c = '/'.toUInt8) :
    takeDirName path = ([], []) ∧ pathTokens [] path = [] ∨
      (takeDirName path).2 ≠ [] ∧
        pathTokens [] path = pathTokens [] (takeDirName path).1 ++ [(takeDirName path).2] := by
  rw [← pathTokens_rdropWhile path]
  unfold takeDirName
  cases hsplit : splitLast '/'.toUInt8 (path.rdropWhile (· = '/'.toUInt8)) with
  | none =>
    have hnil : path.rdropWhile (· = '/'.toUInt8) = [] := by
      cases hp : path.rdropWhile (· = '/'.toUInt8) with
      | nil => rfl
      | cons c p =>
        obtain ⟨rest, hrest⟩ := List.rdropWhile_prefix (fun c => decide (c = '/'.toUInt8)) path
        rw [hp] at hsplit hrest
        have hc : c = '/'.toUInt8 := h c (by rw [← hrest]; rfl)
        exact absurd (hc ▸ List.mem_cons_self) (not_mem_of_splitLast hsplit)
    rw [hnil]
    exact .inl ⟨rfl, rfl⟩
  | some r =>
    obtain ⟨front, back⟩ := r
    obtain ⟨hp, hback⟩ := splitLast_eq_some hsplit
    have hne : back ≠ [] := by
      rintro rfl
      have hlast := List.rdropWhile_last_not (fun c => decide (c = '/'.toUInt8)) path (by simp [hp])
      simp [hp] at hlast
    refine .inr ⟨hne, ?_⟩
    rw [hp, pathTokens_append, pathTokens_of_no_slash hback, List.nil_append, if_neg hne]

/-! ### Runs -/

/-- A list that is loaded into a new listing, or into one that is then merged. -/
inductive ListEvent where
  | load (env : LoadEnv) (doc : Document)
  | splice (env : LoadEnv) (doc : Document)

/-- What becomes of the listing. -/
def ListEvent.apply (l : DirectoryListing) : ListEvent → DirectoryListing
  | .load env doc => loadXML env doc
  | .splice env doc => l.spliceTree (loadXML env doc)

/-- No hash with a slash or a backslash is taken for a name in the document, and a path that it is
merged at has names that are valid. -/
def ListEvent.Plain (_ : DirectoryListing) : ListEvent → Prop
  | .load env doc => Within (ListLoader.FilePlain env) (ListLoader.step env) .new doc.events
  | .splice env doc =>
    Within (ListLoader.FilePlain env) (ListLoader.step env) .new doc.events ∧
      ∀ token ∈ pathTokens [] (loadXML env doc).basePath, isValidName token

/-- The path of a list begins with a slash. -/
theorem head_basePath (env : LoadEnv) (doc : Document) :
    ∀ c ∈ (loadXML env doc).basePath.head?, c = '/'.toUInt8 := by
  have hcurrent (st : ListLoader) (f : OpenDir → OpenDir) :
      (st.modifyCurrent f).basePath = st.basePath := by
    unfold ListLoader.modifyCurrent
    split <;> rfl
  have hend (st : ListLoader) (name : List UInt8) :
      (st.endTag env name).basePath = st.basePath := by
    unfold ListLoader.endTag
    split
    · rfl
    · split
      · unfold ListLoader.closeDirectory
        split
        · rfl
        · exact hcurrent _ _
      · split
        · exact hcurrent _ _
        · rfl
  have hstep (st : ListLoader) (e : Event) (h : ∀ c ∈ st.basePath.head?, c = '/'.toUInt8) :
      ∀ c ∈ (st.step env e).basePath.head?, c = '/'.toUInt8 := by
    cases e with
    | endTag name data =>
      show ∀ c ∈ (st.endTag env name).basePath.head?, _
      rwa [hend]
    | startTag name attribs simple =>
      show ∀ c ∈ (st.startTag env name attribs simple).basePath.head?, _
      have hlisting : ∀ c ∈ (st.openListing attribs).basePath.head?, c = '/'.toUInt8 := by
        unfold ListLoader.openListing
        dsimp only
        split
        · next hpath =>
          rw [Bool.and_eq_true, decide_eq_true_eq] at hpath
          intro c hc
          rw [hpath.1] at hc
          exact (Option.some.inj hc).symm
        · exact h
      unfold ListLoader.startTag
      split
      · split
        · rwa [hcurrent]
        · split
          · dsimp only
            split
            · rwa [hend]
            · exact h
          · exact h
      · split
        · dsimp only
          split
          · rwa [hend]
          · exact hlisting
        · exact h
  exact run_invariant (fun st : ListLoader => ∀ c ∈ st.basePath.head?, c = '/'.toUInt8) hstep
    (s := .new) (fun _ hc => (Option.some.inj hc).symm) doc.events

theorem namesPlain_spliceTree {l tree : DirectoryListing} (h : NamesPlain l.root)
    (hbase : ∀ c ∈ tree.basePath.head?, c = '/'.toUInt8) :
    NamesPlain (l.spliceTree tree).root ↔
      NamesPlain tree.root ∧ ∀ token ∈ pathTokens [] tree.basePath, isValidName token := by
  simp only [isValidName_iff]
  unfold DirectoryListing.spliceTree
  dsimp only
  rcases pathTokens_takeDirName hbase with ⟨htake, htokens⟩ | ⟨hne, htokens⟩
  · rw [htake, if_pos ⟨rfl, rfl⟩, htokens]
    exact (and_iff_left fun _ h => absurd h List.not_mem_nil).symm
  · rw [if_neg fun hnil => hne hnil.2, htokens]
    refine (namesPlain_spliceDir _ _ h).trans ?_
    rw [List.forall_mem_append, List.forall_mem_singleton]
    tauto

/-- A listing is safe in every state of a run exactly if what it is made of is plain. -/
theorem isSafe_run_iff (es : List ListEvent) :
    (∀ pre, pre <+: es → IsSafe (run ListEvent.apply .new pre)) ↔
      Within ListEvent.Plain ListEvent.apply .new es := by
  apply forall_prefix_iff_within
  · exact isSafe_iff.mpr (by decide)
  · intro es e _ hsafe
    rw [run_append, run_cons, run_nil, isSafe_iff]
    rw [isSafe_iff] at hsafe
    cases e with
    | load env doc => exact namesPlain_loadXML env doc
    | splice env doc =>
      refine (namesPlain_spliceTree hsafe (head_basePath env doc)).trans ?_
      rw [namesPlain_loadXML]
      rfl

/-- A list with one file that has the text for its hash and no name. -/
def fileList (tth : List UInt8) : Document where
  events :=
    listTags (ascii "/")
      [.startTag (ascii "File") [(ascii "Size", ascii "1"), (ascii "TTH", tth)] true]
  nested := .element _ _ _ (.simple _ _ .nil) .nil

/-- A list that is merged at `/../`, and a hash that goes on behind a 0. -/
theorem not_isSafe_dotDot :
    ¬ IsSafe (run ListEvent.apply .new
      [.load .plain (emptyListAt (ascii "/")), .splice .plain (emptyListAt (ascii "/../"))]) ∧
    ¬ IsSafe (run ListEvent.apply .new
      [.load .plain
        (fileList (ascii "7" ++ 0 :: ascii "/../../../.config/autostart/x.desktop"))]) := by
  rw [isSafe_iff, isSafe_iff]
  constructor
  · decide
  · decide

end Blacklink.Listing
