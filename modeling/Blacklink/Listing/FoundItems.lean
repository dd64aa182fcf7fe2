import Blacklink.Listing.SearchContext

/-!
# The found items of a listing

The items of a marked tree as one list, cut at a place or at an item of it: what comes before, the
item, and what comes after.
-/

namespace Blacklink.Listing

open Blacklink.Base

/-- The directory as an item, if it is found. -/
def ownItem (dir : Directory) (p : Place) : List Item :=
  if .found ∈ dir.value.flags then [.dir p] else []

/-- The found files with the indexes. -/
def filesOf (dir : Directory) (p : Place) (l : List Nat) : List Item :=
  (l.filter (isFoundFile dir)).map (.file p)

/-- A directory of `dir` with what is below it. -/
def itemsAt (dir : Directory) (p : Place) (i : Nat) : List Item :=
  dir.children[i]?.elim [] fun sub => ownItem sub (i :: p) ++ foundItems sub (i :: p)

/-- The directories of `dir` with the indexes, and what is below them. -/
def dirsOf (dir : Directory) (p : Place) (l : List Nat) : List Item := l.flatMap (itemsAt dir p)

/-- What comes before what is below the directory at a place. -/
def itemsBefore (root : Directory) : Place → List Item
  | [] => []
  | i :: p =>
    itemsBefore root p ++ (dirAt root p).elim [] fun dir =>
      filesOf dir p (List.range dir.value.files.length) ++ (dirsOf dir p (List.range i) ++
        dir.children[i]?.elim [] fun sub => ownItem sub (i :: p))

/-- What comes after the directory at a place and what is below it. -/
def itemsAfter (root : Directory) : Place → List Item
  | [] => []
  | i :: p =>
    ((dirAt root p).elim [] fun dir =>
      dirsOf dir p (List.range' (i + 1) (dir.children.length - (i + 1)))) ++ itemsAfter root p

theorem itemsOf_node (P : File → Bool) (Q : DirInfo → Bool) (d : DirInfo) (dirs : List Directory)
    (p : Place) :
    itemsOf P Q (.node d dirs) p =
      ((List.range d.files.length).filter (isFile P d)).map (.file p) ++
        (List.range dirs.length).flatMap fun i =>
          dirs[i]?.elim [] fun dir =>
            (if Q dir.value then [.dir (i :: p)] else []) ++ itemsOf P Q dir (i :: p) := by
  rw [itemsOf, RoseTree.para_node, List.length_map]
  congr 1
  apply List.flatMap_congr
  intro i hi
  rw [List.getElem?_map]
  cases dirs[i]? with
  | none => rfl
  | some dir => rfl

theorem foundItems_eq (dir : Directory) (p : Place) :
    foundItems dir p = filesOf dir p (List.range dir.value.files.length) ++
      dirsOf dir p (List.range dir.children.length) := by
  cases dir with
  | node d dirs =>
    rw [foundItems, itemsOf_node]
    congr 1
    apply List.flatMap_congr
    intro i hi
    simp [itemsAt, RoseTree.children, ownItem, foundItems]

/-! ### What a search leaves -/

theorem isFile_search (sq : SearchQuery) (d : DirInfo) (flags : Flags) :
    isFile (fun f => .found ∈ f.flags) { d with files := d.files.map sq.markFile, flags } =
      isFile sq.matchFile d := by
  ext i
  rw [isFile, isFile, List.getElem?_map]
  cases d.files[i]? with
  | none => rfl
  | some f =>
    rw [Bool.eq_iff_iff]
    simpa using found_markFile sq f

/-- What a search marks is what the query matches. -/
theorem foundItems_search (sq : SearchQuery) (root : Directory) (p : Place) :
    foundItems (sq.search root) p =
      itemsOf sq.matchFile (fun d => sq.matchDirectory d.name) root p := by
  induction root using RoseTree.induction generalizing p with
  | node d dirs ih =>
    obtain ⟨flags, files, heq, hfiles, -⟩ := search_node sq d dirs
    rw [heq, foundItems, itemsOf_node, itemsOf_node]
    subst hfiles
    rw [isFile_search, List.length_map, List.length_map]
    congr 1
    apply List.flatMap_congr
    intro i hi
    have hlt := List.mem_range.mp hi
    rw [List.getElem?_map, List.getElem?_eq_getElem hlt, Option.map_some, Option.elim_some,
      Option.elim_some]
    have hsub := ih dirs[i] (List.getElem_mem hlt) (i :: p)
    by_cases hname : sq.matchDirectory dirs[i].value.name = true
    · rw [if_pos hname, if_pos hname, if_pos (decide_eq_true (setDirFlag_found _).1), ← hsub]
      cases sq.search dirs[i] with
      | node s subs => rw [setDirFlag, foundItems, itemsOf_node, itemsOf_node]; rfl
    · rw [if_neg hname, if_neg hname, if_neg (by simp [not_found_search]), ← hsub]
      rfl

/-! ### Places -/

theorem dirAt_cons {root dir sub : Directory} {p : Place} {i : Nat}
    (h : dirAt root p = some dir) (hi : dir.children[i]? = some sub) :
    dirAt root (i :: p) = some sub := by
  rw [dirAt, h, Option.bind_some, hi]

theorem dirAt_cons_eq_some {root sub : Directory} {p : Place} {i : Nat}
    (h : dirAt root (i :: p) = some sub) :
    ∃ dir, dirAt root p = some dir ∧ dir.children[i]? = some sub :=
  Option.bind_eq_some_iff.mp h

theorem Marked.child {dir sub : Directory} {i : Nat} (h : Marked dir)
    (hi : dir.children[i]? = some sub) : Marked sub := by
  cases dir with
  | node d dirs => exact (marked_node.mp h).2 sub (List.mem_of_getElem? hi)

theorem Marked.dirAt {root dir : Directory} {p : Place} (h : Marked root)
    (hp : dirAt root p = some dir) : Marked dir := by
  induction p generalizing dir with
  | nil =>
    cases hp
    exact h
  | cons i p ih =>
    obtain ⟨parent, hparent, hi⟩ := dirAt_cons_eq_some hp
    exact (ih hparent).child hi

theorem range_split {i n : Nat} (h : i < n) :
    List.range n = List.range i ++ i :: List.range' (i + 1) (n - (i + 1)) := by
  rw [List.range_eq_range', List.range_eq_range', ← List.range'_succ]
  have := List.range'_append_1 (s := 0) (m := i) (n := n - (i + 1) + 1)
  rw [Nat.zero_add] at this
  rw [this]
  congr 1
  omega

theorem dirsOf_split {dir sub : Directory} {p : Place} {i : Nat}
    (h : dir.children[i]? = some sub) :
    dirsOf dir p (List.range dir.children.length) =
      dirsOf dir p (List.range i) ++ (ownItem sub (i :: p) ++ foundItems sub (i :: p)) ++
        dirsOf dir p (List.range' (i + 1) (dir.children.length - (i + 1))) := by
  have hlt := (List.getElem?_eq_some_iff.mp h).1
  rw [range_split hlt]
  simp [dirsOf, itemsAt, h]

theorem filesOf_split {dir : Directory} {p : Place} {i : Nat} (h : isFoundFile dir i = true) :
    filesOf dir p (List.range dir.value.files.length) =
      filesOf dir p (List.range i) ++ .file p i ::
        filesOf dir p (List.range' (i + 1) (dir.value.files.length - (i + 1))) := by
  have hlt : i < dir.value.files.length := by
    rw [isFoundFile, isFile, Option.any_eq_true] at h
    obtain ⟨f, hf, -⟩ := h
    exact (List.getElem?_eq_some_iff.mp hf).1
  rw [range_split hlt]
  simp [filesOf, h]

/-- The items before a place, those below it, and those after it. -/
theorem foundItems_split {root dir : Directory} {p : Place} (h : dirAt root p = some dir) :
    foundItems root [] = itemsBefore root p ++ foundItems dir p ++ itemsAfter root p := by
  induction p generalizing dir with
  | nil =>
    cases h
    simp [itemsBefore, itemsAfter]
  | cons i p ih =>
    obtain ⟨parent, hparent, hi⟩ := dirAt_cons_eq_some h
    rw [ih hparent, foundItems_eq parent p, dirsOf_split hi, itemsBefore, itemsAfter, hparent]
    simp only [Option.elim_some, hi, List.append_assoc]

/-! ### Every found item once -/

/-- An item that is below the directory at a place. -/
def Item.Below (p : Place) : Item → Prop
  | .file q _ => p <:+ q
  | .dir q => ∃ i, i :: p <:+ q

theorem Item.Below.of_cons {p : Place} {i : Nat} {x : Item} (h : x.Below (i :: p)) : x.Below p := by
  cases x with
  | file q j => exact (List.suffix_cons i p).trans h
  | dir q =>
    obtain ⟨j, hj⟩ := h
    exact ⟨i, (List.suffix_cons j (i :: p)).trans hj⟩

theorem mem_filesOf {dir : Directory} {p : Place} {l : List Nat} {x : Item} :
    x ∈ filesOf dir p l ↔ ∃ i ∈ l, isFoundFile dir i = true ∧ x = .file p i := by
  simp only [filesOf, List.mem_map, List.mem_filter, and_assoc, eq_comm]

theorem mem_itemsAt {dir : Directory} {p : Place} {i : Nat} {x : Item} :
    x ∈ itemsAt dir p i ↔ ∃ sub, dir.children[i]? = some sub ∧
      (.found ∈ sub.value.flags ∧ x = .dir (i :: p) ∨ x ∈ foundItems sub (i :: p)) := by
  rw [itemsAt]
  cases dir.children[i]? with
  | none => simp
  | some sub =>
    rw [Option.elim_some, List.mem_append, ownItem]
    split
    · next hfound => simp [hfound]
    · next hfound => simp [hfound]

theorem below_of_mem {dir : Directory} {p : Place} {x : Item} (h : x ∈ foundItems dir p) :
    x.Below p := by
  induction dir using RoseTree.induction generalizing p with
  | node d dirs ih =>
    rw [foundItems_eq, List.mem_append] at h
    cases h with
    | inl h =>
      obtain ⟨i, -, -, rfl⟩ := mem_filesOf.mp h
      exact List.suffix_refl p
    | inr h =>
      obtain ⟨i, -, h⟩ := List.mem_flatMap.mp h
      obtain ⟨sub, hi, ⟨-, rfl⟩ | h⟩ := mem_itemsAt.mp h
      · exact ⟨i, List.suffix_refl _⟩
      · exact (ih sub (List.mem_of_getElem? hi) h).of_cons

/-- What a directory with an index and the items below it have in common. -/
theorem suffix_of_mem_itemsAt {dir : Directory} {p : Place} {i : Nat} {x : Item}
    (h : x ∈ itemsAt dir p i) : ∃ q, (x = .dir q ∨ ∃ j, x = .file q j) ∧ i :: p <:+ q := by
  obtain ⟨sub, -, ⟨-, rfl⟩ | h⟩ := mem_itemsAt.mp h
  · exact ⟨i :: p, .inl rfl, List.suffix_refl _⟩
  · have hbelow := below_of_mem h
    cases x with
    | file q j => exact ⟨q, .inr ⟨j, rfl⟩, hbelow⟩
    | dir q =>
      obtain ⟨j, hj⟩ := hbelow
      exact ⟨q, .inl rfl, (List.suffix_cons j _).trans hj⟩

theorem itemsAt_disjoint {dir : Directory} {p : Place} {i j : Nat} (hij : i ≠ j) :
    List.Disjoint (itemsAt dir p i) (itemsAt dir p j) := by
  intro x hi hj
  obtain ⟨q, hq, hi⟩ := suffix_of_mem_itemsAt hi
  obtain ⟨r, hr, hj⟩ := suffix_of_mem_itemsAt hj
  have hqr : q = r := by
    rcases hq with rfl | ⟨a, rfl⟩
    · rcases hr with hr | ⟨b, hr⟩
      · cases hr; rfl
      · cases hr
    · rcases hr with hr | ⟨b, hr⟩
      · cases hr
      · cases hr; rfl
  subst hqr
  have heq := (List.suffix_of_suffix_length_le hi hj (Nat.le_refl _)).eq_of_length rfl
  injection heq with heq
  exact hij heq

theorem nodup_foundItems (dir : Directory) (p : Place) : (foundItems dir p).Nodup := by
  induction dir using RoseTree.induction generalizing p with
  | node d dirs ih =>
    rw [foundItems_eq, List.nodup_append']
    refine ⟨?_, ?_, ?_⟩
    · apply List.Nodup.map
      · intro i j hij
        cases hij
        rfl
      · exact List.nodup_range.filter _
    · rw [dirsOf, List.nodup_flatMap]
      refine ⟨fun i _ => ?_, List.nodup_range.imp fun hij => itemsAt_disjoint hij⟩
      rw [itemsAt]
      cases hi : (RoseTree.node d dirs).children[i]? with
      | none => exact List.nodup_nil
      | some sub =>
        rw [Option.elim_some, List.nodup_append']
        refine ⟨?_, ih sub (List.mem_of_getElem? hi) _, ?_⟩
        · rw [ownItem]
          split
          · exact List.nodup_singleton _
          · exact List.nodup_nil
        · intro x hown hx
          have hx := below_of_mem hx
          rw [ownItem] at hown
          split at hown
          · obtain rfl := List.mem_singleton.mp hown
            obtain ⟨j, hj⟩ := hx
            exact absurd hj.length_le (Nat.not_succ_le_self _)
          · cases hown
    · intro x hfile hdir
      obtain ⟨i, -, -, rfl⟩ := mem_filesOf.mp hfile
      obtain ⟨j, -, hdir⟩ := List.mem_flatMap.mp hdir
      obtain ⟨q, hq, hsuffix⟩ := suffix_of_mem_itemsAt hdir
      rcases hq with hq | ⟨a, hq⟩
      · cases hq
      · cases hq
        exact absurd hsuffix.length_le (Nat.not_succ_le_self _)

theorem isFound_of_mem {root dir : Directory} {p : Place} {x : Item}
    (hp : dirAt root p = some dir) (h : x ∈ foundItems dir p) : x.IsFound root := by
  induction dir using RoseTree.induction generalizing p with
  | node d dirs ih =>
    rw [foundItems_eq, List.mem_append] at h
    cases h with
    | inl h =>
      obtain ⟨i, -, hfile, rfl⟩ := mem_filesOf.mp h
      rw [isFoundFile, isFile, Option.any_eq_true] at hfile
      obtain ⟨f, hf, hfound⟩ := hfile
      exact ⟨_, hp, f, hf, of_decide_eq_true hfound⟩
    | inr h =>
      obtain ⟨i, -, h⟩ := List.mem_flatMap.mp h
      obtain ⟨sub, hi, ⟨hfound, rfl⟩ | h⟩ := mem_itemsAt.mp h
      · exact ⟨sub, dirAt_cons hp hi, hfound⟩
      · exact ih sub (List.mem_of_getElem? hi) (dirAt_cons hp hi) h

theorem isFoundFile_iff {dir : Directory} {i : Nat} :
    isFoundFile dir i = true ↔ ∃ f, dir.value.files[i]? = some f ∧ .found ∈ f.flags := by
  simp [isFoundFile, isFile, Option.any_eq_true]

/-- Where a found file is among the items. -/
theorem foundItems_split_file {root dir : Directory} {p : Place} {i : Nat}
    (hp : dirAt root p = some dir) (hi : isFoundFile dir i = true) :
    foundItems root [] = (itemsBefore root p ++ filesOf dir p (List.range i)) ++ .file p i ::
      (filesOf dir p (List.range' (i + 1) (dir.value.files.length - (i + 1))) ++
        dirsOf dir p (List.range dir.children.length) ++ itemsAfter root p) := by
  rw [foundItems_split hp, foundItems_eq, filesOf_split hi]
  simp only [List.append_assoc, List.cons_append]

/-- Where a found directory is among the items. -/
theorem foundItems_split_dir {root dir sub : Directory} {p : Place} {i : Nat}
    (hp : dirAt root p = some dir) (hi : dir.children[i]? = some sub)
    (hfound : .found ∈ sub.value.flags) :
    foundItems root [] = (itemsBefore root p ++
        filesOf dir p (List.range dir.value.files.length) ++ dirsOf dir p (List.range i)) ++
      .dir (i :: p) :: (foundItems sub (i :: p) ++ itemsAfter root (i :: p)) := by
  rw [foundItems_split (dirAt_cons hp hi), itemsBefore, hp, Option.elim_some, hi, Option.elim_some,
    ownItem, if_pos hfound]
  simp only [List.append_assoc, List.cons_append, List.nil_append]

/-- The items are the files and directories of the tree that are found. -/
theorem mem_foundItems {root : Directory} (hroot : .found ∉ root.value.flags) {x : Item} :
    x ∈ foundItems root [] ↔ x.IsFound root := by
  refine ⟨isFound_of_mem rfl, fun h => ?_⟩
  cases x with
  | file p i =>
    obtain ⟨dir, hp, hfile⟩ := h
    rw [foundItems_split_file hp (isFoundFile_iff.mpr hfile)]
    exact List.mem_append_right _ List.mem_cons_self
  | dir p =>
    obtain ⟨sub, hp, hfound⟩ := h
    cases p with
    | nil =>
      cases hp
      exact absurd hfound hroot
    | cons i p =>
      obtain ⟨dir, hparent, hi⟩ := dirAt_cons_eq_some hp
      rw [foundItems_split_dir hparent hi hfound]
      exact List.mem_append_right _ List.mem_cons_self

end Blacklink.Listing
