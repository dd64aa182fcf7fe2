import Mathlib.Data.List.Basic
import Blacklink.Share.SharedDir

/-!
# What holds of every directory of a tree

`SharedDir.All` says that each directory of a tree has a property of its members. Here is what the
operations on trees have to preserve for that: those that change one directory only that directory,
and those that keep sizes and types up to date nothing, for a property of names and files.
-/

namespace Blacklink.Share

namespace SharedDir

theorem nodesOf_eq (ds : List SharedDir) :
    nodesOf ds = ds.flatMap fun d => d.nodes.map fun pn => (d.node.key :: pn.1, pn.2) := by
  induction ds with
  | nil => rfl
  | cons d ds ih => rw [nodesOf, ih, List.flatMap_cons]

theorem nodes_mk (n : DirNode) (ds : List SharedDir) :
    (mk n ds).nodes =
      ([], n) :: ds.flatMap fun d => d.nodes.map fun pn => (d.node.key :: pn.1, pn.2) := by
  rw [nodes, nodesOf_eq]

/-- Every directory of the tree has the property. -/
def All (Q : DirNode → Prop) (d : SharedDir) : Prop := ∀ pn ∈ d.nodes, Q pn.2

variable {Q : DirNode → Prop}

theorem all_mk {n : DirNode} {ds : List SharedDir} :
    All Q (mk n ds) ↔ Q n ∧ ∀ d ∈ ds, All Q d := by
  unfold All
  rw [nodes_mk]
  constructor
  · intro h
    constructor
    · exact h ([], n) List.mem_cons_self
    · intro d hd pn hpn
      apply h (d.node.key :: pn.1, pn.2)
      apply List.mem_cons_of_mem
      exact List.mem_flatMap.mpr ⟨d, hd, List.mem_map.mpr ⟨pn, hpn, rfl⟩⟩
  · rintro ⟨hn, hds⟩ pn hpn
    cases hpn with
    | head => exact hn
    | tail _ hpn =>
      obtain ⟨d, hd, hpn⟩ := List.mem_flatMap.mp hpn
      obtain ⟨qn, hqn, rfl⟩ := List.mem_map.mp hpn
      exact hds d hd qn hqn

theorem all_iff (d : SharedDir) : All Q d ↔ Q d.node ∧ ∀ c ∈ d.dirs, All Q c := by
  cases d with
  | mk n ds => exact all_mk

theorem All.node {d : SharedDir} (h : All Q d) : Q d.node := ((all_iff d).mp h).1

theorem All.dirs {d : SharedDir} (h : All Q d) : ∀ c ∈ d.dirs, All Q c := ((all_iff d).mp h).2

theorem All.imp {R : DirNode → Prop} (hQR : ∀ n, Q n → R n) {d : SharedDir} (h : All Q d) :
    All R d := fun pn hpn => hQR _ (h pn hpn)

theorem all_new {key name : List UInt8} (h : Q (new key name).node) : All Q (new key name) :=
  all_mk.mpr ⟨h, fun _ hc => absurd hc List.not_mem_nil⟩

theorem all_mapNode {f : DirNode → DirNode} {d : SharedDir} (h : All Q d) (hf : Q (f d.node)) :
    All Q (d.mapNode f) := by
  cases d with
  | mk n ds => exact all_mk.mpr ⟨hf, h.dirs⟩

theorem all_mapDirs {f : List SharedDir → List SharedDir} {d : SharedDir} (h : All Q d)
    (hf : ∀ c ∈ f d.dirs, All Q c) : All Q (d.mapDirs f) := by
  cases d with
  | mk n ds => exact all_mk.mpr ⟨h.node, hf⟩

theorem all_modifyChild (key : List UInt8) {f : SharedDir → SharedDir} {ds : List SharedDir}
    (h : ∀ c ∈ ds, All Q c) (hf : ∀ c, All Q c → All Q (f c)) :
    ∀ c ∈ modifyChild key f ds, All Q c := by
  induction ds with
  | nil => exact h
  | cons d ds ih =>
    rw [List.forall_mem_cons] at h
    rw [modifyChild]
    split
    · exact List.forall_mem_cons.mpr ⟨hf d h.1, h.2⟩
    · exact List.forall_mem_cons.mpr ⟨h.1, ih h.2⟩

/-- A change of one directory only has to preserve the property there. -/
theorem all_modifyAt {f : SharedDir → SharedDir} (hf : ∀ c, All Q c → All Q (f c)) (p : DirPath)
    {d : SharedDir} (h : All Q d) : All Q (modifyAt p f d) := by
  induction p generalizing d with
  | nil => exact hf d h
  | cons k p ih => exact all_mapDirs h (all_modifyChild k h.dirs fun c hc => ih hc)

theorem mem_insertDir {d c : SharedDir} {ds : List SharedDir} :
    c ∈ insertDir d ds ↔ c = d ∨ c ∈ ds := by
  induction ds with
  | nil => simp [insertDir]
  | cons e ds ih =>
    rw [insertDir]
    split
    · rw [List.mem_cons]
    · rw [List.mem_cons, ih, List.mem_cons]
      tauto

theorem all_insertDir {c d : SharedDir} (hc : All Q c) (hd : All Q d) :
    All Q (d.mapDirs (insertDir c)) := by
  apply all_mapDirs hd
  intro e he
  rcases mem_insertDir.mp he with rfl | he
  · exact hc
  · exact hd.dirs e he

theorem all_find? {p : DirPath} {d c : SharedDir} (hc : find? p d = some c) (h : All Q d) :
    All Q c := by
  induction p generalizing d with
  | nil =>
    cases hc
    exact h
  | cons k p ih =>
    obtain ⟨e, he, hc⟩ := Option.bind_eq_some_iff.mp hc
    exact ih hc (h.dirs e (List.mem_of_find?_eq_some he))

section Bookkeeping

/-- The property is one of the name and the files of a directory. -/
def OfContents (Q : DirNode → Prop) : Prop :=
  ∀ n m : DirNode, n.name = m.name → n.files = m.files → Q n → Q m

variable (hQ : OfContents Q)

include hQ

theorem all_mapNode_of {f : DirNode → DirNode}
    (hf : ∀ n, (f n).name = n.name ∧ (f n).files = n.files) {d : SharedDir} (h : All Q d) :
    All Q (d.mapNode f) :=
  all_mapNode h (hQ d.node _ (hf d.node).1.symm (hf d.node).2.symm h.node)

theorem all_updateSize (deltaSize : Int) (p : DirPath) {d : SharedDir} (h : All Q d) :
    All Q (updateSize deltaSize p d) := by
  induction p generalizing d with
  | nil => exact all_mapNode_of hQ (by exact fun _ => ⟨rfl, rfl⟩) h
  | cons k p ih =>
    have hdirs := all_mapDirs h (all_modifyChild k h.dirs fun c hc => ih hc)
    exact all_mapNode_of hQ (by exact fun _ => ⟨rfl, rfl⟩) hdirs

theorem all_addTypes (filesMask dirsMask : Nat) (p : DirPath) {d : SharedDir} (h : All Q d) :
    All Q (addTypes filesMask dirsMask p d).1 := by
  induction p generalizing d with
  | nil =>
    rw [addTypes]
    split
    · exact h
    · exact all_mapNode_of hQ (by exact fun _ => ⟨rfl, rfl⟩) h
  | cons k p ih =>
    have hdirs := all_mapDirs h (all_modifyChild k h.dirs fun c hc => ih hc)
    rw [addTypes]
    split
    · exact hdirs
    · exact all_mapNode_of hQ (by exact fun _ => ⟨rfl, rfl⟩) hdirs

theorem all_updateTypes (filesMask dirsMask : Nat) (p : DirPath) {d : SharedDir} (h : All Q d) :
    All Q (updateTypes filesMask dirsMask p d).1 := by
  induction p generalizing d with
  | nil =>
    rw [updateTypes]
    split
    · exact h
    · exact all_mapNode_of hQ (by exact fun _ => ⟨rfl, rfl⟩) h
  | cons k p ih =>
    have hdirs := all_mapDirs h (all_modifyChild k h.dirs fun c hc => ih hc)
    rw [updateTypes]
    split
    · exact hdirs
    · exact all_mapNode_of hQ (by exact fun _ => ⟨rfl, rfl⟩) hdirs

theorem all_copyTree {d : SharedDir} (h : All Q d) : All Q d.copyTree := by
  induction d with
  | mk n ds ih =>
    have htrees : ∀ cs : List SharedDir, (∀ c ∈ cs, All Q c.copyTree) →
        ∀ c ∈ copyTrees cs, All Q c := by
      intro cs hcs
      induction cs with
      | nil => exact fun c hc => absurd hc List.not_mem_nil
      | cons c cs ihcs =>
        rw [List.forall_mem_cons] at hcs
        rw [copyTrees, List.forall_mem_cons]
        exact ⟨hcs.1, ihcs hcs.2⟩
    rw [copyTree, all_mk]
    exact ⟨hQ n _ rfl rfl h.node, htrees ds fun c hc => ih c hc (h.dirs c hc)⟩

end Bookkeeping

end SharedDir

end Blacklink.Share
