import Blacklink.Listing.Names

/-!
# What merging a partial list changes

The directories of a listing before and after `spliceTree`
(`client/DirectoryListing.cpp:1118-1215`): the one at the base path, those on the way to it, and all
others.
-/

namespace Blacklink.Listing

open Blacklink.Base Blacklink.Text

/-- The directory that names lead to. -/
def follow : List (List UInt8) → Directory → Option Directory
  | [], dir => some dir
  | name :: names, dir =>
    (dir.children.find? fun sub => sub.value.name = name).bind (follow names)

/-- One directory is put among others: it replaces the first one with its name, or comes last. -/
inductive PutAmong (sub' : Directory) :
    List Directory → Option Directory → List Directory → Prop where
  | replaced {A B : List Directory} {sub : Directory}
      (hA : ∀ a ∈ A, a.value.name ≠ sub'.value.name) (hsub : sub.value.name = sub'.value.name) :
      PutAmong sub' (A ++ sub :: B) (some sub) (A ++ sub' :: B)
  | added {dirs : List Directory} (h : ∀ dir ∈ dirs, dir.value.name ≠ sub'.value.name) :
      PutAmong sub' dirs none (dirs ++ [sub'])

/-- A directory into which another one was put: its name and files are the same, and so are its
other directories, in their order. -/
structure EntryPut (entry : List UInt8) (dir dir' : Directory) : Prop where
  name : dir'.value.name = dir.value.name
  files : dir'.value.files = dir.value.files
  dirs : ∃ sub' old, sub'.value.name = entry ∧ PutAmong sub' dir.children old dir'.children

/-- A directory before and after `target` was put at the path below it. -/
structure Spliced (target : Directory) (path : List (List UInt8)) (dir dir' : Directory) :
    Prop where
  target : follow path dir' = some target
  off_path : ∀ names, ¬ names <+: path → ¬ path <+: names → follow names dir' = follow names dir
  on_path : ∀ names name, names ++ [name] <+: path → ∀ d, follow names dir = some d →
    ∃ d', follow names dir' = some d' ∧ EntryPut name d d'
  created : ∀ names name, names ++ [name] <+: path → follow names dir = none →
    ∃ d', follow names dir' = some d' ∧ d'.value.complete = false ∧ d'.value.files = [] ∧
      ∃ sub', sub'.value.name = name ∧ d'.children = [sub']

/-! ### One directory -/

/-- A list is cut at the first element with the property. -/
theorem exists_first {α : Type} (P : α → Prop) [DecidablePred P] (l : List α) :
    (∀ a ∈ l, ¬ P a) ∨ ∃ A a B, l = A ++ a :: B ∧ (∀ x ∈ A, ¬ P x) ∧ P a := by
  cases h : l.find? fun a => P a with
  | none => exact .inl fun a ha => by simpa using List.find?_eq_none.mp h a ha
  | some a =>
    obtain ⟨ha, A, B, rfl, hA⟩ := List.find?_eq_some_iff_append.mp h
    exact .inr ⟨A, a, B, rfl, fun x hx => by simpa using hA x hx, of_decide_eq_true ha⟩

theorem putDir_of_found {src dir : Directory} {name : List UInt8} {A B : List Directory}
    (hA : ∀ a ∈ A, a.value.name ≠ name) (hdir : dir.value.name = name) :
    putDir src name (A ++ dir :: B) = A ++ src :: B := by
  induction A with
  | nil => rw [List.nil_append, putDir, if_pos hdir, List.nil_append]
  | cons a A ih =>
    rw [List.forall_mem_cons] at hA
    rw [List.cons_append, putDir, if_neg hA.1, ih hA.2, List.cons_append]

theorem putDir_of_new {src : Directory} {name : List UInt8} {dirs : List Directory}
    (h : ∀ dir ∈ dirs, dir.value.name ≠ name) : putDir src name dirs = dirs ++ [src] := by
  induction dirs with
  | nil => rfl
  | cons dir dirs ih =>
    rw [List.forall_mem_cons] at h
    rw [putDir, if_neg h.1, ih h.2, List.cons_append]

theorem inDir_of_found {f : Directory → Directory × Bool} {dir : Directory} {name : List UInt8}
    {A B : List Directory} (hA : ∀ a ∈ A, a.value.name ≠ name) (hdir : dir.value.name = name) :
    inDir f name (A ++ dir :: B) = (A ++ (f dir).1 :: B, (f dir).2) := by
  induction A with
  | nil => rw [List.nil_append, inDir, if_pos hdir, List.nil_append]
  | cons a A ih =>
    rw [List.forall_mem_cons] at hA
    rw [List.cons_append, inDir, if_neg hA.1, ih hA.2, List.cons_append]

theorem inDir_of_new {f : Directory → Directory × Bool} {name : List UInt8}
    {dirs : List Directory} (h : ∀ dir ∈ dirs, dir.value.name ≠ name) :
    inDir f name dirs =
      (dirs ++ [(f (.node (.new name false) [])).1], (f (.node (.new name false) [])).2) := by
  induction dirs with
  | nil => rfl
  | cons dir dirs ih =>
    rw [List.forall_mem_cons] at h
    rw [inDir, if_neg h.1, ih h.2, List.cons_append]

/-- The directory with the changed directories in it, whose sums are made anew if need be. -/
def withDirs (isRoot update : Bool) (d : DirInfo) (dirs : List Directory) : Directory × Bool :=
  if update then (.node (d.updateInfo isRoot dirs).1 dirs, (d.updateInfo isRoot dirs).2)
  else (.node d dirs, false)

theorem spliceDir_nil (src : Directory) (dirName : List UInt8) (isRoot : Bool) (d : DirInfo)
    (dirs : List Directory) :
    spliceDir src dirName isRoot [] (.node d dirs) =
      withDirs isRoot true d (putDir (rename dirName src) dirName dirs) := by
  rw [spliceDir, withDirs, if_pos rfl]

theorem spliceDir_of_found {src dir : Directory} {dirName token : List UInt8} {isRoot : Bool}
    {tokens : List (List UInt8)} {d : DirInfo} {A B : List Directory}
    (hA : ∀ a ∈ A, a.value.name ≠ token) (hdir : dir.value.name = token) :
    spliceDir src dirName isRoot (token :: tokens) (.node d (A ++ dir :: B)) =
      withDirs isRoot (spliceDir src dirName false tokens dir).2 d
        (A ++ (spliceDir src dirName false tokens dir).1 :: B) := by
  have hnew : ((A ++ dir :: B).all fun dir => dir.value.name ≠ token) = false := by
    simp [hdir]
  rw [spliceDir, hnew, Bool.and_false, inDir_of_found hA hdir]
  rfl

theorem spliceDir_of_new {src : Directory} {dirName token : List UInt8} {isRoot : Bool}
    {tokens : List (List UInt8)} {d : DirInfo} {dirs : List Directory}
    (h : ∀ dir ∈ dirs, dir.value.name ≠ token) :
    spliceDir src dirName isRoot (token :: tokens) (.node d dirs) =
      withDirs isRoot
        (spliceDir src dirName false tokens (.node (.new token false) [])).2
        (if isRoot then { d with complete := false } else d)
        (dirs ++ [(spliceDir src dirName false tokens (.node (.new token false) [])).1]) := by
  have hnew : (dirs.all fun dir => dir.value.name ≠ token) = true := by
    simpa using h
  rw [spliceDir, hnew, Bool.and_true, inDir_of_new h]
  rfl

theorem children_withDirs (isRoot update : Bool) (d : DirInfo) (dirs : List Directory) :
    (withDirs isRoot update d dirs).1.children = dirs := by
  rw [withDirs]
  split <;> rfl

theorem value_withDirs (isRoot update : Bool) (d : DirInfo) (dirs : List Directory) :
    (withDirs isRoot update d dirs).1.value.name = d.name ∧
      (withDirs isRoot update d dirs).1.value.files = d.files ∧
      (withDirs isRoot update d dirs).1.value.complete = d.complete := by
  rw [withDirs]
  cases update with
  | true => exact ⟨DirInfo.name_updateInfo _ _ _, DirInfo.files_updateInfo _ _ _,
      DirInfo.complete_updateInfo _ _ _⟩
  | false => exact ⟨rfl, rfl, rfl⟩

/-! ### All directories -/

theorem PutAmong.find?_new {sub' : Directory} {old : Option Directory}
    {dirs dirs' : List Directory} (h : PutAmong sub' dirs old dirs') :
    (dirs'.find? fun sub => sub.value.name = sub'.value.name) = some sub' := by
  cases h with
  | replaced hA hsub =>
    rw [List.find?_append, List.find?_eq_none.mpr (by simpa using hA), Option.none_or,
      List.find?_cons_of_pos (by simp)]
  | added h =>
    rw [List.find?_append, List.find?_eq_none.mpr (by simpa using h), Option.none_or,
      List.find?_cons_of_pos (by simp)]

theorem PutAmong.find?_old {sub' : Directory} {old : Option Directory}
    {dirs dirs' : List Directory} (h : PutAmong sub' dirs old dirs') :
    (dirs.find? fun sub => sub.value.name = sub'.value.name) = old := by
  cases h with
  | replaced hA hsub =>
    rw [List.find?_append, List.find?_eq_none.mpr (by simpa using hA), Option.none_or,
      List.find?_cons_of_pos (by simpa using hsub)]
  | added h => exact List.find?_eq_none.mpr (by simpa using h)

theorem PutAmong.find?_other {sub' : Directory} {old : Option Directory}
    {dirs dirs' : List Directory} (h : PutAmong sub' dirs old dirs') {name : List UInt8}
    (hname : sub'.value.name ≠ name) :
    (dirs'.find? fun sub ↦ sub.value.name = name) = dirs.find? fun sub ↦ sub.value.name = name := by
  cases h with
  | replaced hA hsub =>
    rw [List.find?_append, List.find?_append, List.find?_cons_of_neg (by simpa using hname),
      List.find?_cons_of_neg (by simpa [hsub] using hname)]
  | added h =>
    rw [List.find?_append, List.find?_cons_of_neg (by simpa using hname), List.find?_nil,
      Option.or_none]

theorem PutAmong.of_nil {sub' : Directory} {old : Option Directory} {dirs : List Directory}
    (h : PutAmong sub' [] old dirs) : dirs = [sub'] := by
  generalize hnil : ([] : List Directory) = start at h
  cases h with
  | replaced hA hsub => simp at hnil
  | added h => rw [← hnil, List.nil_append]

/-- At the end of the path there is what was put. -/
theorem Spliced.nil (target dir : Directory) : Spliced target [] dir target where
  target := rfl
  off_path _ _ h := absurd List.nil_prefix h
  on_path names name h := absurd (List.prefix_nil.mp h) (by simp)
  created names name h := absurd (List.prefix_nil.mp h) (by simp)

/-- What was put below a directory was put below the one it is in. -/
theorem Spliced.cons {target dir dir' sub' : Directory} {old : Option Directory}
    {path : List (List UInt8)}
    (hname : dir'.value.name = dir.value.name) (hfiles : dir'.value.files = dir.value.files)
    (hput : PutAmong sub' dir.children old dir'.children)
    (hcomplete : old = none → path ≠ [] → sub'.value.complete = false)
    (h : Spliced target path (old.getD (.node (.new sub'.value.name false) [])) sub') :
    Spliced target (sub'.value.name :: path) dir dir' where
  target := by
    rw [follow, hput.find?_new, Option.bind_some]
    exact h.target
  off_path names hbefore hafter := by
    cases names with
    | nil => exact absurd List.nil_prefix hbefore
    | cons name names =>
      rw [follow, follow]
      by_cases heq : sub'.value.name = name
      · subst heq
        rw [List.cons_prefix_cons] at hbefore hafter
        have hsub := h.off_path names (fun hp => hbefore ⟨rfl, hp⟩) fun hp => hafter ⟨rfl, hp⟩
        rw [hput.find?_new, hput.find?_old, Option.bind_some, hsub]
        cases old with
        | some sub => rfl
        | none =>
          cases names with
          | nil => exact absurd ⟨rfl, List.nil_prefix⟩ hbefore
          | cons name names => rfl
      · rw [hput.find?_other heq]
  on_path names name hp d hd := by
    cases names with
    | nil =>
      cases hd
      obtain ⟨rfl, -⟩ := List.cons_prefix_cons.mp hp
      exact ⟨dir', rfl, hname, hfiles, sub', old, rfl, hput⟩
    | cons first names =>
      obtain ⟨rfl, hbelow⟩ := List.cons_prefix_cons.mp hp
      rw [follow, hput.find?_old] at hd
      rw [follow, hput.find?_new, Option.bind_some]
      cases old with
      | some sub => exact h.on_path names name hbelow d hd
      | none => cases hd
  created names name hp hd := by
    cases names with
    | nil => cases hd
    | cons first names =>
      obtain ⟨rfl, hbelow⟩ := List.cons_prefix_cons.mp hp
      rw [follow, hput.find?_old] at hd
      rw [follow, hput.find?_new, Option.bind_some]
      cases old with
      | some sub => exact h.created names name hbelow hd
      | none =>
        cases names with
        | nil =>
          obtain ⟨d', hd', hentry⟩ := h.on_path [] name hbelow _ rfl
          cases hd'
          obtain ⟨sub'', old, hsub, hdirs⟩ := hentry.dirs
          refine ⟨sub', rfl, hcomplete rfl ?_, hentry.files, sub'', hsub, hdirs.of_nil⟩
          rintro rfl
          cases List.prefix_nil.mp hbelow
        | cons next names => exact h.created _ name hbelow rfl

theorem name_rename (name : List UInt8) (src : Directory) :
    (rename name src).value.name = name := by
  cases src
  rfl

/-- `spliceDir` puts the partial list, under its new name, at the end of the path. -/
theorem spliced_spliceDir (src : Directory) (dirName : List UInt8) (isRoot : Bool)
    (tokens : List (List UInt8)) (dir : Directory) :
    Spliced (rename dirName src) (tokens ++ [dirName]) dir
        (spliceDir src dirName isRoot tokens dir).1 ∧
      (isRoot = false →
        (spliceDir src dirName isRoot tokens dir).1.value.complete = dir.value.complete) := by
  induction tokens generalizing isRoot dir with
  | nil =>
    cases dir with
    | node d dirs =>
      rw [spliceDir_nil]
      obtain ⟨hname, hfiles, hcomplete⟩ := value_withDirs isRoot true d
        (putDir (rename dirName src) dirName dirs)
      refine ⟨?_, fun _ => hcomplete⟩
      have hput : ∃ old, PutAmong (rename dirName src) (RoseTree.node d dirs).children old
          (withDirs isRoot true d (putDir (rename dirName src) dirName dirs)).1.children := by
        rw [children_withDirs, RoseTree.children]
        rcases exists_first (fun dir => dir.value.name = dirName) dirs with
          hnew | ⟨A, sub, B, rfl, hA, hsub⟩
        · rw [putDir_of_new hnew]
          exact ⟨none, .added (by rwa [name_rename])⟩
        · rw [putDir_of_found hA hsub]
          exact ⟨some sub, .replaced (by rwa [name_rename]) (by rwa [name_rename])⟩
      obtain ⟨old, hput⟩ := hput
      have hcons := Spliced.cons hname hfiles hput (fun _ h => absurd rfl h) (.nil _ _)
      rwa [name_rename] at hcons
  | cons token tokens ih =>
    cases dir with
    | node d dirs =>
      rw [List.cons_append]
      rcases exists_first (fun dir => dir.value.name = token) dirs with
        hnew | ⟨A, sub, B, rfl, hA, hsub⟩
      · obtain ⟨hbelow, hcomplete⟩ := ih false (.node (.new token false) [])
        have hname := name_spliceDir src dirName false tokens (.node (.new token false) [])
        rw [spliceDir_of_new hnew]
        generalize spliceDir src dirName false tokens (.node (.new token false) []) = r at *
        obtain rfl : r.1.value.name = token := hname
        obtain ⟨hd, hfiles, hd'⟩ := value_withDirs isRoot r.2
          (if isRoot then { d with complete := false } else d) (dirs ++ [r.1])
        have hput : PutAmong r.1 (RoseTree.node d dirs).children none (withDirs isRoot r.2
            (if isRoot then { d with complete := false } else d) (dirs ++ [r.1])).1.children := by
          rw [children_withDirs]
          exact .added hnew
        constructor
        · refine .cons (hd.trans ?_) (hfiles.trans ?_) hput (fun _ _ => hcomplete rfl) hbelow
          · split <;> rfl
          · split <;> rfl
        · rintro rfl
          exact hd'
      · obtain ⟨hbelow, -⟩ := ih false sub
        have hname := name_spliceDir src dirName false tokens sub
        rw [spliceDir_of_found hA hsub]
        generalize spliceDir src dirName false tokens sub = r at *
        obtain rfl : r.1.value.name = token := hname.trans hsub
        obtain ⟨hd, hfiles, hcomplete⟩ := value_withDirs isRoot r.2 d (A ++ r.1 :: B)
        have hput : PutAmong r.1 (RoseTree.node d (A ++ sub :: B)).children (some sub)
            (withDirs isRoot r.2 d (A ++ r.1 :: B)).1.children := by
          rw [children_withDirs]
          exact .replaced hA hsub
        exact ⟨.cons hd hfiles hput nofun hbelow, fun _ => hcomplete⟩

/-- What `spliceTree` makes of a listing: at the path there is the partial list, whose root has
been given the last name of the path. -/
theorem spliced_spliceTree {l tree : DirectoryListing}
    (hbase : ∀ c ∈ tree.basePath.head?, c = '/'.toUInt8) :
    let path := pathTokens [] tree.basePath
    Spliced (path.getLast?.elim tree.root fun name => rename name tree.root) path l.root
      (l.spliceTree tree).root := by
  intro path
  unfold DirectoryListing.spliceTree
  dsimp only
  rcases pathTokens_takeDirName hbase with ⟨htake, htokens⟩ | ⟨hne, htokens⟩
  · have hpath : path = [] := htokens
    rw [hpath, htake, if_pos ⟨rfl, rfl⟩]
    exact .nil _ _
  · have hpath : path = _ := htokens
    rw [hpath, List.getLast?_concat, Option.elim_some, if_neg (fun h => hne h.2)]
    exact (spliced_spliceDir _ _ _ _ _).1

end Blacklink.Listing
