import Mathlib.Data.List.Perm.Subperm
import Blacklink.Share.Scan
import Blacklink.Share.Trees

/-!
# The files of a tree and where they are

A change of one directory changes the list of the directories in one place, and leaves what is
before and behind it. What a step does to the files of a tree follows from what it does to those of
one directory.
-/

namespace Blacklink.Share

/-- The place of a file in a tree, and the file. -/
structure Placed where
  path : DirPath
  key : List UInt8
  file : SharedFile
  deriving DecidableEq

/-- A place found below a directory. -/
def Placed.under (p : DirPath) (x : Placed) : Placed := { x with path := p ++ x.path }

/-- The files of a directory with the path. -/
def DirNode.placed (path : DirPath) (n : DirNode) : List Placed :=
  n.files.map fun kf => ⟨path, kf.1, kf.2⟩

namespace SharedDir

/-- The files of a tree. -/
def placed (d : SharedDir) : List Placed := d.nodes.flatMap fun pn => pn.2.placed pn.1

/-- A directory found below another one. -/
def under (p : DirPath) (pn : DirPath × DirNode) : DirPath × DirNode := (p ++ pn.1, pn.2)

theorem map_under_nil (l : List (DirPath × DirNode)) : l.map (under []) = l :=
  List.map_id'' (fun _ => rfl) l

theorem map_under_cons (k : List UInt8) (p : DirPath) (l : List (DirPath × DirNode)) :
    (l.map (under p)).map (fun pn => (k :: pn.1, pn.2)) = l.map (under (k :: p)) := by
  rw [List.map_map]
  rfl

theorem nodesOf_cons (d : SharedDir) (ds : List SharedDir) :
    nodesOf (d :: ds) = d.nodes.map (fun pn => (d.node.key :: pn.1, pn.2)) ++ nodesOf ds := by
  rw [nodesOf]

/-- A child that is changed is in one place of the list of directories. -/
private theorem nodesOf_modifyChild {k : List UInt8} {f : SharedDir → SharedDir}
    {ds : List SharedDir} {c : SharedDir} (hc : (ds.find? fun c => c.node.key = k) = some c)
    (hkey : (f c).node.key = c.node.key) :
    ∃ l r, nodesOf ds = l ++ c.nodes.map (fun pn => (k :: pn.1, pn.2)) ++ r ∧
      nodesOf (modifyChild k f ds) = l ++ (f c).nodes.map (fun pn => (k :: pn.1, pn.2)) ++ r := by
  induction ds with
  | nil => cases hc
  | cons d ds ih =>
    by_cases hd : d.node.key = k
    · rw [List.find?_cons_of_pos (by simpa using hd)] at hc
      cases hc
      refine ⟨[], nodesOf ds, ?_, ?_⟩
      · rw [nodesOf_cons, hd, List.nil_append]
      · rw [modifyChild, if_pos hd, nodesOf_cons, hkey, hd, List.nil_append]
    · rw [List.find?_cons_of_neg (by simpa using hd)] at hc
      obtain ⟨l, r, hold, hnew⟩ := ih hc
      refine ⟨d.nodes.map (fun pn => (d.node.key :: pn.1, pn.2)) ++ l, r, ?_, ?_⟩
      · rw [nodesOf_cons, hold]
        simp only [List.append_assoc]
      · rw [modifyChild, if_neg hd, nodesOf_cons, hnew]
        simp only [List.append_assoc]

/-- A directory that is changed is in one place of the list of directories. -/
theorem nodes_modifyAt {p : DirPath} {d c : SharedDir} (hc : find? p d = some c)
    {f : SharedDir → SharedDir} (hkey : (f c).node.key = c.node.key) :
    ∃ l r, d.nodes = l ++ c.nodes.map (under p) ++ r ∧
      (modifyAt p f d).nodes = l ++ (f c).nodes.map (under p) ++ r := by
  induction p generalizing d with
  | nil =>
    cases hc
    refine ⟨[], [], ?_, ?_⟩
    · rw [map_under_nil, List.nil_append, List.append_nil]
    · rw [map_under_nil, List.nil_append, List.append_nil]
      rfl
  | cons k p ih =>
    obtain ⟨e, he, hc⟩ := Option.bind_eq_some_iff.mp hc
    obtain ⟨l, r, hold, hnew⟩ := ih hc
    have hkey' : (modifyAt p f e).node.key = e.node.key := by
      cases p with
      | nil =>
        cases hc
        exact hkey
      | cons k' p =>
        cases e
        rfl
    obtain ⟨l', r', hold', hnew'⟩ := nodesOf_modifyChild (f := modifyAt p f) he hkey'
    cases d with
    | mk n ds =>
      refine ⟨([], n) :: (l' ++ l.map (fun pn => (k :: pn.1, pn.2))),
        r.map (fun pn => (k :: pn.1, pn.2)) ++ r', ?_, ?_⟩
      · change ([], n) :: nodesOf ds = _
        rw [show nodesOf ds = _ from hold', hold, List.map_append, List.map_append, map_under_cons]
        simp only [List.append_assoc, List.cons_append]
      · change ([], n) :: nodesOf (modifyChild k (modifyAt p f) ds) = _
        rw [show nodesOf (modifyChild k (modifyAt p f) ds) = _ from hnew', hnew, List.map_append,
          List.map_append, map_under_cons]
        simp only [List.append_assoc, List.cons_append]

/-- Where there is no directory, nothing is changed. -/
theorem modifyAt_of_none {p : DirPath} {d : SharedDir} (hc : find? p d = none)
    (f : SharedDir → SharedDir) : modifyAt p f d = d := by
  have hchild : ∀ (k : List UInt8) (g : SharedDir → SharedDir) (ds : List SharedDir),
      (∀ e, (ds.find? fun c => c.node.key = k) = some e → g e = e) → modifyChild k g ds = ds := by
    intro k g ds h
    induction ds with
    | nil => rfl
    | cons d ds ih =>
      by_cases hd : d.node.key = k
      · rw [modifyChild, if_pos hd, h d (List.find?_cons_of_pos (by simpa using hd))]
      · rw [modifyChild, if_neg hd, ih]
        intro e he
        exact h e ((List.find?_cons_of_neg (by simpa using hd)).trans he)
  induction p generalizing d with
  | nil => cases hc
  | cons k p ih =>
    cases d with
    | mk n ds =>
      rw [modifyAt, mapDirs, hchild k (modifyAt p f) ds]
      intro e he
      have hchild' : (mk n ds).child? k = some e := he
      rw [find?, hchild'] at hc
      exact ih hc

/-- The paths of the directories with their files. -/
def contents (d : SharedDir) : List (DirPath × List (List UInt8 × SharedFile)) :=
  d.nodes.map fun pn => (pn.1, pn.2.files)

theorem contents_mk (n : DirNode) (ds : List SharedDir) :
    (mk n ds).contents =
      ([], n.files) :: ds.flatMap fun d => d.contents.map fun pf => (d.node.key :: pf.1, pf.2) := by
  rw [contents, nodes_mk, List.map_cons, List.map_flatMap]
  congr 2
  funext d
  rw [contents, List.map_map, List.map_map]
  rfl

theorem placed_eq (d : SharedDir) :
    d.placed = d.contents.flatMap fun pf => pf.2.map fun kf => ⟨pf.1, kf.1, kf.2⟩ := by
  rw [contents, List.flatMap_map]
  rfl

/-- A change of a tree that leaves its directories and their files as they are. -/
def KeepsContents (f : SharedDir → SharedDir) : Prop :=
  ∀ d, (f d).node.key = d.node.key ∧ (f d).contents = d.contents

theorem KeepsContents.placed {f : SharedDir → SharedDir} (hf : KeepsContents f) (d : SharedDir) :
    (f d).placed = d.placed := by
  rw [placed_eq, placed_eq, (hf d).2]

theorem keepsContents_mapNode {f : DirNode → DirNode}
    (hf : ∀ n, (f n).key = n.key ∧ (f n).files = n.files) : KeepsContents (mapNode f) := by
  intro d
  cases d with
  | mk n ds =>
    rw [mapNode, contents_mk, contents_mk, (hf n).2]
    exact ⟨(hf n).1, rfl⟩

theorem KeepsContents.comp {f g : SharedDir → SharedDir} (hf : KeepsContents f)
    (hg : KeepsContents g) : KeepsContents fun d => f (g d) := by
  intro d
  rw [(hf _).1, (hf _).2]
  exact hg d

theorem keepsContents_modifyChild {f : SharedDir → SharedDir} (hf : KeepsContents f)
    (k : List UInt8) : KeepsContents (mapDirs (modifyChild k f)) := by
  intro d
  cases d with
  | mk n ds =>
    rw [mapDirs, contents_mk, contents_mk]
    refine ⟨rfl, ?_⟩
    congr 1
    induction ds with
    | nil => rfl
    | cons d ds ih =>
      rw [modifyChild]
      split
      · rw [List.flatMap_cons, List.flatMap_cons, (hf d).1, (hf d).2]
      · rw [List.flatMap_cons, List.flatMap_cons, ih]

theorem keepsContents_modifyAt {f : SharedDir → SharedDir} (hf : KeepsContents f) (p : DirPath) :
    KeepsContents (modifyAt p f) := by
  induction p with
  | nil => exact hf
  | cons k p ih => exact keepsContents_modifyChild ih k

theorem keepsContents_updateSize (deltaSize : Int) (p : DirPath) :
    KeepsContents (updateSize deltaSize p) := by
  induction p with
  | nil => exact keepsContents_mapNode (by exact fun _ => ⟨rfl, rfl⟩)
  | cons k p ih =>
    intro d
    have hdirs := keepsContents_modifyChild ih k
    exact (keepsContents_mapNode (by exact fun _ => ⟨rfl, rfl⟩)).comp hdirs d

theorem keepsContents_updateTypes (filesMask dirsMask : Nat) (p : DirPath) :
    KeepsContents fun d => (updateTypes filesMask dirsMask p d).1 := by
  induction p with
  | nil =>
    intro d
    dsimp only [updateTypes]
    split
    · exact ⟨rfl, rfl⟩
    · exact keepsContents_mapNode (by exact fun _ => ⟨rfl, rfl⟩) d
  | cons k p ih =>
    intro d
    have hdirs := keepsContents_modifyChild ih k
    dsimp only [updateTypes]
    split
    · exact hdirs d
    · exact (keepsContents_mapNode (by exact fun _ => ⟨rfl, rfl⟩)).comp hdirs d

theorem keepsContents_addTypes (filesMask dirsMask : Nat) (p : DirPath) :
    KeepsContents fun d => (addTypes filesMask dirsMask p d).1 := by
  induction p with
  | nil =>
    intro d
    dsimp only [addTypes]
    split
    · exact ⟨rfl, rfl⟩
    · exact keepsContents_mapNode (by exact fun _ => ⟨rfl, rfl⟩) d
  | cons k p ih =>
    intro d
    have hdirs := keepsContents_modifyChild ih k
    dsimp only [addTypes]
    split
    · exact hdirs d
    · exact (keepsContents_mapNode (by exact fun _ => ⟨rfl, rfl⟩)).comp hdirs d

theorem keepsContents_copyTree : KeepsContents copyTree := by
  intro d
  induction d with
  | mk n ds ih =>
    rw [copyTree, contents_mk, contents_mk]
    refine ⟨rfl, ?_⟩
    congr 1
    induction ds with
    | nil => rfl
    | cons d ds ihs =>
      have hd := ih d List.mem_cons_self
      rw [copyTrees, List.flatMap_cons, List.flatMap_cons, hd.1, hd.2,
        ihs fun c hc => ih c (List.mem_cons_of_mem d hc)]

theorem keepsContents_clearDirNotFound (key : List UInt8) :
    KeepsContents (clearDirNotFound key) :=
  keepsContents_modifyChild (keepsContents_mapNode (by exact fun _ => ⟨rfl, rfl⟩)) key

theorem keepsContents_setDirsNotFound : KeepsContents setDirsNotFound := by
  intro d
  cases d with
  | mk n ds =>
    have hmarked : KeepsContents (mapNode fun n => { n with notFound := true }) :=
      keepsContents_mapNode (by exact fun _ => ⟨rfl, rfl⟩)
    rw [setDirsNotFound, mapDirs, contents_mk, contents_mk, List.flatMap_map]
    refine ⟨rfl, congrArg _ ?_⟩
    congr 1
    funext c
    rw [(hmarked c).1, (hmarked c).2]

/-! ### What one directory has -/

theorem placed_under (p : DirPath) (l : List (DirPath × DirNode)) :
    (l.map (under p)).flatMap (fun pn => pn.2.placed pn.1) =
      (l.flatMap fun pn => pn.2.placed pn.1).map (Placed.under p) := by
  rw [List.flatMap_map, List.map_flatMap]
  congr 1
  funext pn
  rw [DirNode.placed, DirNode.placed, List.map_map]
  rfl

/-- The files of a directory that is changed are in one place of the list. -/
theorem placed_modifyAt {p : DirPath} {d c : SharedDir} (hc : find? p d = some c)
    {f : SharedDir → SharedDir} (hkey : (f c).node.key = c.node.key) :
    ∃ l r, d.placed = l ++ c.placed.map (Placed.under p) ++ r ∧
      (modifyAt p f d).placed = l ++ (f c).placed.map (Placed.under p) ++ r := by
  obtain ⟨l, r, hold, hnew⟩ := nodes_modifyAt hc hkey
  refine ⟨l.flatMap fun pn => pn.2.placed pn.1, r.flatMap fun pn => pn.2.placed pn.1, ?_, ?_⟩
  · rw [placed, hold, List.flatMap_append, List.flatMap_append, placed_under, placed]
  · rw [placed, hnew, List.flatMap_append, List.flatMap_append, placed_under, placed]

theorem placed_mk (n : DirNode) (ds : List SharedDir) :
    (mk n ds).placed =
      n.placed [] ++ ds.flatMap fun d => d.placed.map (Placed.under [d.node.key]) := by
  rw [placed, nodes_mk, List.flatMap_cons, List.flatMap_assoc]
  congr 2
  funext d
  exact placed_under [d.node.key] d.nodes

theorem placed_modifyFiles {p : DirPath} {d c : SharedDir} (hc : find? p d = some c)
    (f : List (List UInt8 × SharedFile) → List (List UInt8 × SharedFile)) :
    ∃ l r, d.placed = l ++ c.node.placed p ++ r ∧
      (modifyFiles p f d).placed =
        l ++ DirNode.placed p { c.node with files := f c.node.files } ++ r := by
  obtain ⟨l, r, hold, hnew⟩ := placed_modifyAt hc
    (f := fun d => d.mapNode fun n => { n with files := f n.files }) (by cases c; rfl)
  cases c with
  | mk n ds =>
    have hunder : ∀ n : DirNode, (n.placed []).map (Placed.under p) = n.placed p := by
      intro n
      rw [DirNode.placed, List.map_map, DirNode.placed]
      apply List.map_congr_left
      intro kf _
      rw [Function.comp_apply, Placed.under, List.append_nil]
    rw [placed_mk, List.map_append, hunder] at hold
    rw [mapNode, placed_mk, List.map_append, hunder] at hnew
    refine ⟨l, (ds.flatMap fun d => d.placed.map (Placed.under [d.node.key])).map
      (Placed.under p) ++ r, ?_, ?_⟩
    · rw [hold]
      simp only [List.append_assoc, node_mk]
    · rw [modifyFiles, hnew]
      simp only [List.append_assoc, node_mk]

theorem placed_insertDir {c : SharedDir} (hc : c.placed = []) (d : SharedDir) :
    (d.mapDirs (insertDir c)).placed = d.placed := by
  cases d with
  | mk n ds =>
    rw [mapDirs, placed_mk, placed_mk]
    congr 1
    induction ds with
    | nil =>
      rw [insertDir, List.flatMap_cons, hc]
      rfl
    | cons d ds ih =>
      rw [insertDir]
      split
      · rw [List.flatMap_cons, hc]
        rfl
      · rw [List.flatMap_cons, List.flatMap_cons, ih]

theorem placed_new (key name : List UInt8) : (new key name).placed = [] := rfl

theorem placed_modifyAt_insertDir {c : SharedDir} (hc : c.placed = []) (p : DirPath)
    (d : SharedDir) : (modifyAt p (mapDirs (insertDir c)) d).placed = d.placed := by
  cases hfind : find? p d with
  | none => rw [modifyAt_of_none hfind]
  | some e =>
    obtain ⟨l, r, hold, hnew⟩ :=
      placed_modifyAt hfind (f := mapDirs (insertDir c)) (by cases e; rfl)
    rw [hnew, placed_insertDir hc, ← hold]

end SharedDir

end Blacklink.Share
