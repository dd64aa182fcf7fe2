import Blacklink.Listing.FoundItems

/-!
# The order in which found items are visited

What `next` and `prev` lead to from an item of a marked tree
(`client/DirectoryListing.cpp:1409-1572`): the item that comes after or before it. Both loops stop
at once at a file of the root, whose `dirIndex` is empty.
-/

namespace Blacklink.Listing

open Blacklink.Base Blacklink.Text

/-! ### The marks -/

/-- What is found of a list when it is where a function has a value. -/
theorem findSome?_eq_bind_find? {α β : Type} {P : α → Bool} {f : α → Option β} {l : List α}
    (h : ∀ a, P a = (f a).isSome) : l.findSome? f = (l.find? P).bind f := by
  induction l with
  | nil => rfl
  | cons a l ih =>
    rw [List.findSome?_cons, List.find?_cons, h a]
    cases hf : f a with
    | none => exact ih
    | some b => exact hf.symm

theorem head?_filesOf {dir : Directory} {p : Place} {l : List Nat} :
    (filesOf dir p l).head? = (l.find? (isFoundFile dir)).map (.file p) := by
  rw [filesOf, List.head?_map, List.head?_filter]

theorem getLast?_filesOf {dir : Directory} {p : Place} {l : List Nat} :
    (filesOf dir p l).getLast? = (l.reverse.find? (isFoundFile dir)).map (.file p) := by
  rw [filesOf, List.getLast?_map, List.getLast?_filter]

/-- The flag of a directory tells whether there are items below it. -/
theorem foundItems_eq_nil_iff {dir : Directory} (h : Marked dir) (p : Place) :
    foundItems dir p = [] ↔ .hasFound ∉ dir.value.flags := by
  induction dir using RoseTree.induction generalizing p with
  | node d dirs ih =>
    obtain ⟨hflag, hdirs⟩ := marked_node.mp h
    rw [← not_iff_not, not_not, RoseTree.value, hflag]
    constructor
    · intro hne
      obtain ⟨x, hx⟩ := List.exists_mem_of_ne_nil _ hne
      rw [foundItems_eq, List.mem_append] at hx
      cases hx with
      | inl hx =>
        obtain ⟨i, -, hfile, -⟩ := mem_filesOf.mp hx
        obtain ⟨f, hf, hfound⟩ := isFoundFile_iff.mp hfile
        exact .inl ⟨f, List.mem_of_getElem? hf, hfound⟩
      | inr hx =>
        obtain ⟨i, -, hx⟩ := List.mem_flatMap.mp hx
        obtain ⟨sub, hi, hsub⟩ := mem_itemsAt.mp hx
        have hmem : sub ∈ dirs := List.mem_of_getElem? hi
        refine .inr ⟨sub, hmem, hsub.imp And.left fun hx => ?_⟩
        have := (ih sub hmem (hdirs sub hmem) (i :: p)).not.mp (List.ne_nil_of_mem hx)
        exact not_not.mp this
    · rintro (⟨f, hf, hfound⟩ | ⟨sub, hmem, hsub⟩)
      · obtain ⟨i, hi⟩ := List.mem_iff_getElem?.mp hf
        have hfile : isFoundFile (.node d dirs) i = true := isFoundFile_iff.mpr ⟨f, hi, hfound⟩
        rw [foundItems_eq, filesOf_split hfile]
        simp
      · obtain ⟨i, hi⟩ := List.mem_iff_getElem?.mp hmem
        have hi' : (RoseTree.node d dirs).children[i]? = some sub := hi
        have hne : ownItem sub (i :: p) ++ foundItems sub (i :: p) ≠ [] := by
          rw [ne_eq, List.append_eq_nil_iff, ih sub hmem (hdirs sub hmem), ownItem]
          rcases hsub with hfound | hhas
          · simp [hfound]
          · exact fun h => h.2 hhas
        rw [foundItems_eq, dirsOf_split hi']
        intro hnil
        rw [List.append_eq_nil_iff, List.append_eq_nil_iff, List.append_eq_nil_iff] at hnil
        exact hne hnil.2.1.2

theorem itemsAt_eq {dir sub : Directory} {i : Nat} (hi : dir.children[i]? = some sub)
    (p : Place) : itemsAt dir p i = ownItem sub (i :: p) ++ foundItems sub (i :: p) := by
  rw [itemsAt, hi, Option.elim_some]

/-- The loops over directories stop where there is an item. -/
theorem isMarkedDir_iff {dir : Directory} (h : Marked dir) (p : Place) (i : Nat) :
    isMarkedDir dir i = true ↔ itemsAt dir p i ≠ [] := by
  rw [isMarkedDir]
  cases hi : dir.children[i]? with
  | none => simp [itemsAt, hi]
  | some sub =>
    rw [itemsAt_eq hi, ne_eq, List.append_eq_nil_iff, foundItems_eq_nil_iff (h.child hi), ownItem]
    by_cases hfound : .found ∈ sub.value.flags <;> simp [hfound]

theorem head?_dirsOf {dir : Directory} (h : Marked dir) (p : Place) (l : List Nat) :
    (dirsOf dir p l).head? =
      (l.find? (isMarkedDir dir)).bind fun i => (itemsAt dir p i).head? := by
  rw [dirsOf, List.head?_flatMap]
  apply findSome?_eq_bind_find?
  intro i
  rw [Bool.eq_iff_iff, isMarkedDir_iff h p, List.isSome_head?]

theorem getLast?_dirsOf {dir : Directory} (h : Marked dir) (p : Place) (l : List Nat) :
    (dirsOf dir p l).getLast? =
      (l.reverse.find? (isMarkedDir dir)).bind fun i => (itemsAt dir p i).getLast? := by
  rw [dirsOf, List.getLast?_flatMap]
  apply findSome?_eq_bind_find?
  intro i
  rw [Bool.eq_iff_iff, isMarkedDir_iff h p, List.getLast?_isSome]

/-- The directory that a loop stops at. -/
theorem exists_of_isMarkedDir {dir : Directory} {i : Nat} (h : isMarkedDir dir i = true) :
    ∃ sub, dir.children[i]? = some sub ∧
      (.found ∈ sub.value.flags ∨ .hasFound ∈ sub.value.flags) := by
  rw [isMarkedDir, Option.any_eq_true] at h
  obtain ⟨sub, hi, h⟩ := h
  exact ⟨sub, hi, by simpa using h⟩

/-! ### Forwards -/

section Next

variable {root : Directory}

/-- A place as an index vector. -/
abbrev indexOf (p : Place) : List Int := p.map Int.ofNat

/-- The loop of `next` comes to the item, or to the end. -/
def NextLeads (root : Directory) (w : Walk) (x : Option Item) : Prop :=
  Ends (loop (nextPass root)) w (x.map .atItem)

theorem nextPass_fuelMono : FuelMono (nextPass root) := fun _ _ _ _ _ h => h

theorem NextLeads.again {w w' : Walk} {x : Option Item}
    (h : nextPass root 0 w = some (.again w')) (h' : NextLeads root w' x) :
    NextLeads root w x := Ends.again nextPass_fuelMono ⟨0, h⟩ h'

theorem NextLeads.done {w : Walk} {x : Option Item}
    (h : nextPass root 0 w = some (.done (x.map .atItem))) : NextLeads root w x :=
  Ends.done ⟨0, h⟩

/-- The loop at the directories of the directory at `p`, from the one with the index `k` on. -/
def nextAt (p : Place) (k : Nat) : Walk := ⟨false, (k : Int) :: indexOf p, 0, some p⟩

theorem nextPass_nextAt {dir : Directory} {p : Place} (hp : dirAt root p = some dir) (k : Nat) :
    nextPass root 0 (nextAt p k) =
      match (List.range' k (dir.children.length - k)).find? (isMarkedDir dir) with
      | some i => do
        let dirEntry ← dir.children[i]?
        if .found ∈ dirEntry.value.flags then some (.done (some (.atItem (.dir (i :: p)))))
        else some (.again ⟨true, indexOf (i :: p), 0, some (i :: p)⟩)
      | none => some (.again ⟨false, (indexOf p).modifyHead (· + 1), 0, getParent p⟩) := by
  rw [nextAt, nextPass, if_neg (List.cons_ne_nil _ _), if_neg Bool.false_ne_true, nextDirs]
  dsimp only
  rw [hp]
  rfl

/-- The loop goes into the first directory that has an item, or stops at it. -/
theorem nextLeads_dir {dir : Directory} {p : Place} {k i : Nat} (hmarked : Marked dir)
    (hp : dirAt root p = some dir)
    (hfind : (List.range' k (dir.children.length - k)).find? (isMarkedDir dir) = some i)
    (hdown : ∀ sub x, dir.children[i]? = some sub → (foundItems sub (i :: p)).head? = some x →
      NextLeads root ⟨true, indexOf (i :: p), 0, some (i :: p)⟩ (some x)) :
    NextLeads root (nextAt p k) (itemsAt dir p i).head? := by
  obtain ⟨sub, hi, hsub⟩ := exists_of_isMarkedDir (List.find?_some hfind)
  have hpass := nextPass_nextAt hp k
  simp only [hfind, hi, Option.bind_eq_bind, Option.bind_some] at hpass
  rw [itemsAt_eq hi, ownItem]
  by_cases hfound : .found ∈ sub.value.flags
  · rw [if_pos hfound] at hpass ⊢
    exact .done hpass
  · rw [if_neg hfound] at hpass ⊢
    have hne := (foundItems_eq_nil_iff (hmarked.child hi) (i :: p)).not_left.mpr
      (hsub.resolve_left hfound)
    obtain ⟨x, hx⟩ := Option.isSome_iff_exists.mp (List.isSome_head?.mpr hne)
    rw [List.nil_append, hx]
    exact .again hpass (hdown sub x hi hx)

/-- A pass at the files of a directory. -/
theorem nextPass_files {dir : Directory} {p : Place} (hne : p ≠ []) (hp : dirAt root p = some dir)
    (k fuel : Nat) :
    nextPass root fuel ⟨true, indexOf p, k, some p⟩ =
      match (List.range' k (dir.value.files.length - k)).find? (isFoundFile dir) with
      | some i => some (.done (some (.atItem (.file p i))))
      | none => nextPass root fuel (nextAt p 0) := by
  have hne' : indexOf p ≠ [] := by simpa using hne
  rw [nextPass, if_neg hne', if_pos rfl, Option.bind_eq_bind, Option.bind_some, hp]
  rfl

/-- The files come first, then what the loop leads to from the first directory on. -/
theorem nextLeads_files {dir : Directory} {p : Place} {x : Option Item} (hne : p ≠ [])
    (hp : dirAt root p = some dir) (k : Nat)
    (hrest : (List.range' k (dir.value.files.length - k)).find? (isFoundFile dir) = none →
      NextLeads root (nextAt p 0) x) :
    NextLeads root ⟨true, indexOf p, k, some p⟩
      ((filesOf dir p (List.range' k (dir.value.files.length - k))).head?.or x) := by
  have hpass := nextPass_files hne hp k
  rw [head?_filesOf]
  cases hfind : (List.range' k (dir.value.files.length - k)).find? (isFoundFile dir) with
  | some i =>
    rw [hfind] at hpass
    exact .done (hpass 0)
  | none =>
    rw [hfind] at hpass
    exact (hrest hfind).of_pass_eq hpass

/-- The loop goes into a directory where there are items and comes to the first one. -/
theorem nextLeads_below {dir : Directory} {p : Place} {x : Item} (hmarked : Marked dir)
    (hne : p ≠ []) (hp : dirAt root p = some dir) (hx : (foundItems dir p).head? = some x) :
    NextLeads root ⟨true, indexOf p, 0, some p⟩ (some x) := by
  induction dir using RoseTree.induction generalizing p x with
  | node d dirs ih =>
    rw [foundItems_eq, List.head?_append, List.range_eq_range', List.range_eq_range'] at hx
    rw [← hx]
    apply nextLeads_files hne hp 0
    intro hfiles
    rw [head?_filesOf] at hx
    rw [head?_dirsOf hmarked] at hx ⊢
    cases hfind : (List.range' 0 (RoseTree.node d dirs).children.length).find?
        (isMarkedDir (.node d dirs)) with
    | some i =>
      apply nextLeads_dir hmarked hp hfind
      intro sub y hi hy
      exact ih sub (List.mem_of_getElem? hi) (hmarked.child hi) (List.cons_ne_nil _ _)
        (dirAt_cons hp hi) hy
    | none =>
      rw [hfind] at hx
      rw [Nat.sub_zero] at hfiles
      rw [hfiles] at hx
      cases hx

/-- What is below the directories comes first, then what the loop goes on with. -/
theorem nextLeads_dirs {dir : Directory} {p : Place} {x : Option Item} (hmarked : Marked dir)
    (hp : dirAt root p = some dir) (k : Nat)
    (hrest : (List.range' k (dir.children.length - k)).find? (isMarkedDir dir) = none →
      NextLeads root (nextAt p k) x) :
    NextLeads root (nextAt p k)
      ((dirsOf dir p (List.range' k (dir.children.length - k))).head?.or x) := by
  rw [head?_dirsOf hmarked]
  cases hfind : (List.range' k (dir.children.length - k)).find? (isMarkedDir dir) with
  | some i =>
    have hne := (isMarkedDir_iff hmarked p i).mp (List.find?_some hfind)
    rw [Option.bind_some, Option.or_of_isSome (List.isSome_head?.mpr hne)]
    apply nextLeads_dir hmarked hp hfind
    intro sub y hi hy
    exact nextLeads_below (hmarked.child hi) (List.cons_ne_nil _ _) (dirAt_cons hp hi) hy
  | none => exact hrest hfind

/-- Behind the directories of a directory the loop goes on with its parent. -/
theorem nextLeads_after (hroot : Marked root) {dir : Directory} {p : Place}
    (hp : dirAt root p = some dir) (k : Nat) :
    NextLeads root (nextAt p k)
      (dirsOf dir p (List.range' k (dir.children.length - k)) ++ itemsAfter root p).head? := by
  induction p generalizing dir k with
  | nil =>
    rw [List.head?_append]
    apply nextLeads_dirs (hroot.dirAt hp) hp
    intro hfind
    have hpass := nextPass_nextAt hp k
    rw [hfind] at hpass
    exact .again hpass (.done rfl)
  | cons j p ih =>
    obtain ⟨parent, hparent, hi⟩ := dirAt_cons_eq_some hp
    rw [List.head?_append, itemsAfter, hparent, Option.elim_some]
    apply nextLeads_dirs (hroot.dirAt hp) hp
    intro hfind
    have hpass := nextPass_nextAt hp k
    rw [hfind] at hpass
    exact .again hpass (ih hparent (j + 1))

theorem ends_next {c : SearchContext} {w : Walk} {x : Option Item}
    (hstart : nextStart root c = some (.again w)) (h : NextLeads root w x) :
    Ends (next root) c (x.map .atItem) := by
  obtain ⟨fuel, h⟩ := h
  refine ⟨fuel, ?_⟩
  rw [next, hstart]
  exact h

/-- From a file `next` leads to the item after it, unless the file is one of the root. -/
theorem next_file (hroot : Marked root) {dir : Directory} {p : Place} (hne : p ≠ [])
    (hp : dirAt root p = some dir) (i : Nat) :
    Ends (next root) (.atItem (.file p i))
      ((filesOf dir p (List.range' (i + 1) (dir.value.files.length - (i + 1))) ++
        dirsOf dir p (List.range dir.children.length) ++ itemsAfter root p).head?.map .atItem) := by
  apply ends_next rfl
  rw [List.append_assoc, List.head?_append]
  apply nextLeads_files hne hp (i + 1)
  intro _
  rw [List.range_eq_range']
  exact nextLeads_after hroot hp 0

/-- From a directory `next` leads to the first item below it or else to the one after it. -/
theorem next_dir (hroot : Marked root) {sub : Directory} {p : Place} {i : Nat}
    (hp : dirAt root (i :: p) = some sub) :
    Ends (next root) (.atItem (.dir (i :: p)))
      ((foundItems sub (i :: p) ++ itemsAfter root (i :: p)).head?.map .atItem) := by
  have hstart : nextStart root (.atItem (.dir (i :: p))) =
      if .hasFound ∈ sub.value.flags then
        some (.again ⟨true, indexOf (i :: p), 0, some (i :: p)⟩)
      else some (.again (nextAt p (i + 1))) := by
    rw [nextStart, SearchContext.atItem, Option.bind_eq_bind, Option.bind_some, hp]
    rfl
  have hnil := foundItems_eq_nil_iff (hroot.dirAt hp) (i :: p)
  by_cases hhas : .hasFound ∈ sub.value.flags
  · rw [if_pos hhas] at hstart
    apply ends_next hstart
    rw [foundItems_eq, List.append_assoc, List.head?_append, List.range_eq_range',
      List.range_eq_range']
    apply nextLeads_files (List.cons_ne_nil _ _) hp 0
    intro _
    exact nextLeads_after hroot hp 0
  · rw [if_neg hhas] at hstart
    apply ends_next hstart
    rw [hnil.mpr hhas, List.nil_append]
    obtain ⟨parent, hparent, -⟩ := dirAt_cons_eq_some hp
    rw [itemsAfter, hparent]
    exact nextLeads_after hroot hparent (i + 1)

/-- At a file of the root `next` returns false. -/
theorem next_file_root (i : Nat) : Ends (next root) (.atItem (.file [] i)) none := ⟨1, rfl⟩

end Next

/-! ### Backwards -/

section Prev

variable {root : Directory}

/-- The loop of `prev` comes to the item, or to the end. -/
def PrevLeads (root : Directory) (w : Walk) (x : Option Item) : Prop :=
  Ends (loop (prevPass root)) w (x.map .atItem)

theorem prevPass_fuelMono : FuelMono (prevPass root) := fun _ _ _ _ _ h => h

theorem PrevLeads.again {w w' : Walk} {x : Option Item}
    (h : prevPass root 0 w = some (.again w')) (h' : PrevLeads root w' x) :
    PrevLeads root w x := Ends.again prevPass_fuelMono ⟨0, h⟩ h'

theorem PrevLeads.done {w : Walk} {x : Option Item}
    (h : prevPass root 0 w = some (.done (x.map .atItem))) : PrevLeads root w x :=
  Ends.done ⟨0, h⟩

/-- The loop at the first `m` directories of the directory at `p`. -/
def prevAt (p : Place) (m : Nat) (newFileIndex : Int) : Walk :=
  ⟨false, (m - 1 : Int) :: indexOf p, newFileIndex, some p⟩

/-- The loop at the first `m` files of the directory at `p`. -/
def prevFilesAt (p : Place) (m : Nat) : Walk := ⟨true, indexOf p, (m - 1 : Int), some p⟩

theorem lastIndex_sub_one (P : Nat → Bool) (m : Nat) :
    lastIndex P (m - 1 : Int) = (List.range m).reverse.find? P := by
  rw [lastIndex, Int.sub_add_cancel, Int.toNat_natCast]

theorem prevPass_prevAt {dir : Directory} {p : Place} (hp : dirAt root p = some dir) (m : Nat)
    (newFileIndex : Int) :
    prevPass root 0 (prevAt p m newFileIndex) =
      match (List.range m).reverse.find? (isMarkedDir dir) with
      | some i => do
        let dirEntry ← dir.children[i]?
        if .hasFound ∈ dirEntry.value.flags then
          some (.again (prevAt (i :: p) dirEntry.children.length newFileIndex))
        else some (.done (some (.atItem (.dir (i :: p)))))
      | none => some (.again (prevFilesAt p dir.value.files.length)) := by
  rw [prevAt, prevPass, if_neg (List.cons_ne_nil _ _), if_neg Bool.false_ne_true, prevDirs]
  dsimp only
  rw [hp, ← lastIndex_sub_one]
  rfl

/-- A pass at the files of a directory, which goes on with the directories before it. -/
theorem prevPass_files {dir : Directory} {p : Place} {j : Nat}
    (hp : dirAt root (j :: p) = some dir) (m fuel : Nat) :
    prevPass root fuel (prevFilesAt (j :: p) m) =
      match (List.range m).reverse.find? (isFoundFile dir) with
      | some i => some (.done (some (.atItem (.file (j :: p) i))))
      | none =>
        if .found ∈ dir.value.flags then some (.done (some (.atItem (.dir (j :: p)))))
        else prevPass root fuel (prevAt p j 0) := by
  have hne : indexOf (j :: p) ≠ [] := List.cons_ne_nil _ _
  rw [prevFilesAt, prevPass, if_neg hne, if_pos rfl, Option.bind_eq_bind, Option.bind_some, hp,
    ← lastIndex_sub_one]
  rfl

/-- The loop goes into the last directory that has an item below it, or stops at one that is an
item itself. -/
theorem prevLeads_dir {dir : Directory} {p : Place} {m i : Nat} {newFileIndex : Int}
    (hmarked : Marked dir) (hp : dirAt root p = some dir)
    (hfind : (List.range m).reverse.find? (isMarkedDir dir) = some i)
    (hdown : ∀ sub x, dir.children[i]? = some sub → (foundItems sub (i :: p)).getLast? = some x →
      PrevLeads root (prevAt (i :: p) sub.children.length newFileIndex) (some x)) :
    PrevLeads root (prevAt p m newFileIndex) (itemsAt dir p i).getLast? := by
  obtain ⟨sub, hi, hsub⟩ := exists_of_isMarkedDir (List.find?_some hfind)
  have hpass := prevPass_prevAt hp m newFileIndex
  simp only [hfind, hi, Option.bind_eq_bind, Option.bind_some] at hpass
  have hnil := foundItems_eq_nil_iff (hmarked.child hi) (i :: p)
  rw [itemsAt_eq hi, List.getLast?_append]
  by_cases hhas : .hasFound ∈ sub.value.flags
  · rw [if_pos hhas] at hpass
    have hsome := List.getLast?_isSome.mpr (hnil.not_left.mpr hhas)
    obtain ⟨x, hx⟩ := Option.isSome_iff_exists.mp hsome
    rw [Option.or_of_isSome hsome, hx]
    exact .again hpass (hdown sub x hi hx)
  · rw [if_neg hhas] at hpass
    rw [hnil.mpr hhas, ownItem, if_pos (hsub.resolve_right hhas)]
    exact .done hpass

/-- The files come first, then the directory itself, then what the loop goes on with. -/
theorem prevLeads_files {dir : Directory} {p : Place} {j : Nat} {x : Option Item}
    (hp : dirAt root (j :: p) = some dir) (m : Nat)
    (hrest : (List.range m).reverse.find? (isFoundFile dir) = none →
      .found ∉ dir.value.flags → PrevLeads root (prevAt p j 0) x) :
    PrevLeads root (prevFilesAt (j :: p) m)
      ((filesOf dir (j :: p) (List.range m)).getLast?.or
        ((ownItem dir (j :: p)).getLast?.or x)) := by
  have hpass := prevPass_files hp m
  rw [getLast?_filesOf]
  cases hfind : (List.range m).reverse.find? (isFoundFile dir) with
  | some i =>
    rw [hfind] at hpass
    exact .done (hpass 0)
  | none =>
    simp only [hfind] at hpass
    rw [ownItem]
    by_cases hfound : .found ∈ dir.value.flags
    · simp only [if_pos hfound] at hpass ⊢
      exact .done (hpass 0)
    · simp only [if_neg hfound] at hpass ⊢
      exact (hrest hfind hfound).of_pass_eq hpass

/-- The loop goes into a directory where there are items and comes to the last one. -/
theorem prevLeads_below {dir : Directory} {p : Place} {j : Nat} {x : Item} {newFileIndex : Int}
    (hmarked : Marked dir) (hp : dirAt root (j :: p) = some dir)
    (hx : (foundItems dir (j :: p)).getLast? = some x) :
    PrevLeads root (prevAt (j :: p) dir.children.length newFileIndex) (some x) := by
  induction dir using RoseTree.induction generalizing j p x with
  | node d dirs ih =>
    rw [foundItems_eq, List.getLast?_append] at hx
    rw [← hx]
    rw [getLast?_dirsOf hmarked] at hx ⊢
    cases hfind : (List.range (RoseTree.node d dirs).children.length).reverse.find?
        (isMarkedDir (.node d dirs)) with
    | some i =>
      have hne := (isMarkedDir_iff hmarked (j :: p) i).mp (List.find?_some hfind)
      rw [Option.bind_some, Option.or_of_isSome (List.getLast?_isSome.mpr hne)]
      apply prevLeads_dir hmarked hp hfind
      intro sub y hi hy
      exact ih sub (List.mem_of_getElem? hi) (hmarked.child hi) (dirAt_cons hp hi) hy
    | none =>
      rw [hfind, Option.bind_none, Option.none_or] at hx
      have hpass := prevPass_prevAt hp (RoseTree.node d dirs).children.length newFileIndex
      rw [hfind] at hpass
      apply PrevLeads.again hpass
      have hor : (filesOf (.node d dirs) (j :: p) _).getLast?.or
          ((ownItem (.node d dirs) (j :: p)).getLast?.or none) = _ :=
        Option.or_of_isSome (Option.isSome_of_eq_some hx)
      rw [Option.bind_none, Option.none_or, ← hor]
      apply prevLeads_files hp
      intro hfiles
      rw [getLast?_filesOf, hfiles] at hx
      cases hx

/-- What is below the directories comes first, then what the loop goes on with. -/
theorem prevLeads_dirs {dir : Directory} {p : Place} {x : Option Item} (hmarked : Marked dir)
    (hp : dirAt root p = some dir) (m : Nat) (newFileIndex : Int)
    (hrest : (List.range m).reverse.find? (isMarkedDir dir) = none →
      PrevLeads root (prevAt p m newFileIndex) x) :
    PrevLeads root (prevAt p m newFileIndex) ((dirsOf dir p (List.range m)).getLast?.or x) := by
  rw [getLast?_dirsOf hmarked]
  cases hfind : (List.range m).reverse.find? (isMarkedDir dir) with
  | some i =>
    have hne := (isMarkedDir_iff hmarked p i).mp (List.find?_some hfind)
    rw [Option.bind_some, Option.or_of_isSome (List.getLast?_isSome.mpr hne)]
    apply prevLeads_dir hmarked hp hfind
    intro sub y hi hy
    exact prevLeads_below (hmarked.child hi) (dirAt_cons hp hi) hy
  | none => exact hrest hfind

/-- Before the directories of a directory the loop goes on with its files, then with itself and
its parent. The files of the root are never looked at. -/
theorem prevLeads_before (hroot : Marked root)
    (hfiles : filesOf root [] (List.range root.value.files.length) = []) {dir : Directory}
    {p : Place} (hp : dirAt root p = some dir) (m : Nat) (newFileIndex : Int) :
    PrevLeads root (prevAt p m newFileIndex)
      (itemsBefore root p ++ (filesOf dir p (List.range dir.value.files.length) ++
        dirsOf dir p (List.range m))).getLast? := by
  induction p generalizing dir m newFileIndex with
  | nil =>
    cases hp
    rw [hfiles, itemsBefore, List.nil_append, List.nil_append,
      ← Option.or_none (o := List.getLast? _)]
    have hp : dirAt root [] = some root := rfl
    apply prevLeads_dirs hroot hp
    intro hfind
    have hpass := prevPass_prevAt hp m newFileIndex
    rw [hfind] at hpass
    exact .again hpass (.done rfl)
  | cons j p ih =>
    obtain ⟨parent, hparent, hi⟩ := dirAt_cons_eq_some hp
    rw [List.getLast?_append, List.getLast?_append, Option.or_assoc]
    apply prevLeads_dirs (hroot.dirAt hp) hp
    intro hfind
    have hpass := prevPass_prevAt hp m newFileIndex
    rw [hfind] at hpass
    apply PrevLeads.again hpass
    rw [itemsBefore, hparent, Option.elim_some, hi, Option.elim_some, ← List.append_assoc,
      ← List.append_assoc, List.getLast?_append]
    apply prevLeads_files hp
    intro _ _
    rw [List.append_assoc]
    exact ih hparent j 0

theorem ends_prev {c : SearchContext} {w : Walk} {x : Option Item}
    (hstart : prevStart c = some (.again w)) (h : PrevLeads root w x) :
    Ends (prev root) c (x.map .atItem) := by
  obtain ⟨fuel, h⟩ := h
  refine ⟨fuel, ?_⟩
  rw [prev, hstart]
  exact h

/-- From a file `prev` leads to the item before it when no file of the root is found. -/
theorem prev_file (hroot : Marked root)
    (hfiles : filesOf root [] (List.range root.value.files.length) = []) {dir : Directory}
    {p : Place} {j : Nat} (hp : dirAt root (j :: p) = some dir) (i : Nat) :
    Ends (prev root) (.atItem (.file (j :: p) i))
      ((itemsBefore root (j :: p) ++
        filesOf dir (j :: p) (List.range i)).getLast?.map .atItem) := by
  obtain ⟨parent, hparent, hi⟩ := dirAt_cons_eq_some hp
  apply ends_prev (w := prevFilesAt (j :: p) i) rfl
  rw [List.getLast?_append, itemsBefore, hparent, Option.elim_some, hi, Option.elim_some,
    ← List.append_assoc, ← List.append_assoc, List.getLast?_append]
  apply prevLeads_files hp
  intro _ _
  rw [List.append_assoc]
  exact prevLeads_before hroot hfiles hparent j 0

/-- From a directory `prev` leads to the item before it when no file of the root is found. -/
theorem prev_dir (hroot : Marked root)
    (hfiles : filesOf root [] (List.range root.value.files.length) = []) {dir : Directory}
    {p : Place} (hp : dirAt root p = some dir) (i : Nat) :
    Ends (prev root) (.atItem (.dir (i :: p)))
      ((itemsBefore root p ++ filesOf dir p (List.range dir.value.files.length) ++
        dirsOf dir p (List.range i)).getLast?.map .atItem) := by
  apply ends_prev (w := prevAt p i 0) rfl
  rw [List.append_assoc]
  exact prevLeads_before hroot hfiles hp i 0

/-- At a file of the root `prev` returns false. -/
theorem prev_file_root (i : Nat) : Ends (prev root) (.atItem (.file [] i)) none := ⟨1, rfl⟩

end Prev

/-! ### All the items -/

/-- What a match leaves is right: every found item is in the list of items once, `next` called
until it returns false goes through the list, and `prev` goes back through it. -/
structure GoesThrough (sq : SearchQuery) (root : Directory) (c : SearchContext) : Prop where
  once : (foundItems (sq.search root) []).Nodup
  all : ∀ x, x ∈ foundItems (sq.search root) [] ↔ x.IsFound (sq.search root)
  visits : ∃ cs, Visits (next (sq.search root)) (c.matchQuery sq root) cs ∧
    cs.filterMap SearchContext.item? = foundItems (sq.search root) [] ∧
    ∀ last ∈ cs.getLast?, Visits (prev (sq.search root)) last cs.reverse

theorem item?_atItem (x : Item) : (SearchContext.atItem x).item? = some x := by
  cases x <;> rfl

/-- The whole list is visited when every item leads to the one after it. -/
theorem visits_of_leads {call : Nat → SearchContext → Option (Option SearchContext)}
    {items : List Item}
    (h : ∀ A x B, items = A ++ x :: B → Ends call (.atItem x) (B.head?.map .atItem))
    {A B : List Item} {x : Item} (hsplit : items = A ++ x :: B) :
    Visits call (.atItem x) ((x :: B).map .atItem) := by
  have hcall := h A x B hsplit
  induction B generalizing A x with
  | nil => exact .stop hcall
  | cons y B ih =>
    have hrest : items = (A ++ [x]) ++ y :: B := by
      rw [hsplit, List.append_assoc, List.singleton_append]
    exact .go hcall (ih hrest (h _ y B hrest))

/-- Every item leads to its neighbours in the list when no file of the root is found. -/
theorem leads_of_no_files {root : Directory} (hmarked : Marked root)
    (hroot : .found ∉ root.value.flags)
    (hfiles : filesOf root [] (List.range root.value.files.length) = []) {A B : List Item}
    {x : Item} (hsplit : foundItems root [] = A ++ x :: B) :
    Ends (next root) (.atItem x) (B.head?.map .atItem) ∧
      Ends (prev root) (.atItem x) (A.getLast?.map .atItem) := by
  have hnodup := nodup_foundItems root []
  have hx : x ∈ foundItems root [] := hsplit ▸ List.mem_append_right _ List.mem_cons_self
  have hunique : ∀ {A' B'}, foundItems root [] = A' ++ x :: B' → A' = A ∧ B' = B := by
    intro A' B' h
    rw [hsplit, List.nodup_middle, List.nodup_cons, List.mem_append, not_or] at hnodup
    obtain ⟨hA, -, hB⟩ := (List.append_cons_inj_of_notMem hnodup.1.1 hnodup.1.2).mp
      (hsplit.symm.trans h)
    exact ⟨hA.symm, hB.symm⟩
  have hfound := (mem_foundItems hroot).mp hx
  cases x with
  | file p i =>
    obtain ⟨dir, hp, hfile⟩ := hfound
    have hfile := isFoundFile_iff.mpr hfile
    obtain ⟨rfl, rfl⟩ := hunique (foundItems_split_file hp hfile)
    cases p with
    | nil =>
      cases hp
      rw [filesOf_split hfile] at hfiles
      simp at hfiles
    | cons j p => exact ⟨next_file hmarked (List.cons_ne_nil _ _) hp i,
        prev_file hmarked hfiles hp i⟩
  | dir p =>
    obtain ⟨sub, hp, hflag⟩ := hfound
    cases p with
    | nil =>
      cases hp
      exact absurd hflag hroot
    | cons i p =>
      obtain ⟨dir, hparent, hi⟩ := dirAt_cons_eq_some hp
      obtain ⟨rfl, rfl⟩ := hunique (foundItems_split_dir hparent hi hflag)
      exact ⟨next_dir hmarked hp, prev_dir hmarked hfiles hparent i⟩

theorem next_fuelMono (root : Directory) : FuelMono (next root) := by
  intro m n c x hmn h
  rw [next] at h ⊢
  cases hstart : nextStart root c with
  | none =>
    rw [hstart] at h
    cases h
  | some pass =>
    rw [hstart] at h
    cases pass with
    | done result => exact h
    | again w => exact loop_fuelMono nextPass_fuelMono hmn h

/-- The files of the root that a search finds. -/
theorem filesOf_search_eq_nil_iff (sq : SearchQuery) (root : Directory) :
    filesOf (sq.search root) [] (List.range (sq.search root).value.files.length) = [] ↔
      ∀ f ∈ root.value.files, sq.matchFile f = false := by
  cases root with
  | node d dirs =>
    obtain ⟨flags, files, heq, hfiles, -⟩ := search_node sq d dirs
    subst hfiles
    rw [heq, filesOf, List.map_eq_nil_iff, List.filter_eq_nil_iff]
    simp only [RoseTree.value, isFoundFile, isFile_search, List.length_map, List.mem_range]
    constructor
    · intro h f hf
      obtain ⟨i, hi⟩ := List.mem_iff_getElem?.mp hf
      have := h i (List.getElem?_eq_some_iff.mp hi).1
      rw [isFile, hi] at this
      exact Bool.eq_false_of_not_eq_true this
    · intro h i hi hmatch
      rw [isFile, List.getElem?_eq_getElem hi] at hmatch
      exact Bool.eq_false_iff.mp (h _ (List.getElem_mem hi)) hmatch

/-- Found files of the root are the first items. -/
theorem foundItems_of_root_file {root : Directory}
    (h : filesOf root [] (List.range root.value.files.length) ≠ []) :
    ∃ i items, foundItems root [] = .file [] i :: items := by
  obtain ⟨x, files, hfiles⟩ := List.exists_cons_of_ne_nil h
  obtain ⟨i, -, -, rfl⟩ := mem_filesOf.mp (hfiles ▸ List.mem_cons_self)
  refine ⟨i, files ++ dirsOf root [] (List.range root.children.length), ?_⟩
  rw [foundItems_eq, hfiles, List.cons_append]

/-- Where every item leads to its neighbours all of them are visited, in both directions. -/
theorem goesThrough_of_leads {sq : SearchQuery} {root : Directory} {c : SearchContext}
    (hlead : ∀ A x B, foundItems (sq.search root) [] = A ++ x :: B →
      Ends (next (sq.search root)) (.atItem x) (B.head?.map .atItem) ∧
        Ends (prev (sq.search root)) (.atItem x) (A.getLast?.map .atItem)) :
    GoesThrough sq root c := by
  refine ⟨nodup_foundItems _ _, fun x => mem_foundItems (not_found_search sq root), ?_⟩
  rw [SearchContext.matchQuery, SearchQuery.items, ← foundItems_search]
  generalize hitems : foundItems (sq.search root) [] = items at hlead ⊢
  cases items with
  | nil =>
    refine ⟨_, .stop ⟨0, rfl⟩, rfl, fun last hlast => ?_⟩
    cases hlast
    exact .stop ⟨0, rfl⟩
  | cons x B =>
    have hnext := visits_of_leads (fun A x B h => (hlead A x B h).1) (List.nil_append (x :: B)).symm
    refine ⟨(x :: B).map .atItem, hnext, ?_, ?_⟩
    · rw [List.filterMap_map]
      exact (List.filterMap_congr fun y _ => item?_atItem y).trans (List.filterMap_some)
    · intro last hlast
      rw [List.getLast?_map, Option.mem_map] at hlast
      obtain ⟨y, hy, rfl⟩ := hlast
      obtain ⟨A, hA⟩ := List.getLast?_eq_some_iff.mp hy
      have hreverse : (x :: B).reverse = [] ++ y :: A.reverse := by
        rw [hA, List.reverse_append, List.reverse_singleton]
        rfl
      rw [← List.map_reverse, hreverse]
      apply visits_of_leads _ hreverse
      intro A' z B' h
      have hsplit : x :: B = B'.reverse ++ z :: A'.reverse := by
        rw [← List.reverse_reverse (x :: B), h]
        simp
      rw [← List.getLast?_reverse]
      exact (hlead _ z _ hsplit).2

/-- At a file of the root `next` does not go on to the other items. -/
theorem GoesThrough.no_root_file {sq : SearchQuery} {root : Directory} {c : SearchContext}
    (h : GoesThrough sq root c) :
    (∀ f ∈ root.value.files, sq.matchFile f = false) ∨ (sq.items root).length ≤ 1 := by
  obtain ⟨-, -, cs, hvisits, hcs, -⟩ := h
  by_contra hnot
  rw [not_or, ← filesOf_search_eq_nil_iff] at hnot
  obtain ⟨i, items, hitems⟩ := foundItems_of_root_file hnot.1
  rw [SearchContext.matchQuery, SearchQuery.items, ← foundItems_search, hitems] at hvisits
  cases hvisits with
  | stop hstop =>
    apply hnot.2
    rw [SearchQuery.items, ← foundItems_search, ← hcs]
    exact List.length_filterMap_le _ _
  | go hgo hrest => cases (next_file_root i).unique (next_fuelMono _) hgo

/-- `next` and `prev` go through what was found unless there is more than one item and one of them
is a file of the root. -/
theorem goesThrough_iff (sq : SearchQuery) (root : Directory) (c : SearchContext) :
    GoesThrough sq root c ↔
      (∀ f ∈ root.value.files, sq.matchFile f = false) ∨ (sq.items root).length ≤ 1 := by
  refine ⟨GoesThrough.no_root_file, fun hcond => ?_⟩
  rw [← filesOf_search_eq_nil_iff, SearchQuery.items, ← foundItems_search] at hcond
  apply goesThrough_of_leads
  intro A x B hsplit
  by_cases hfiles :
      filesOf (sq.search root) [] (List.range (sq.search root).value.files.length) = []
  · exact leads_of_no_files (marked_search sq root) (not_found_search sq root) hfiles hsplit
  · have hlength := hcond.resolve_left hfiles
    obtain ⟨i, items, hitems⟩ := foundItems_of_root_file hfiles
    rw [hitems, List.length_cons] at hlength
    obtain rfl := List.eq_nil_of_length_eq_zero (Nat.le_zero.mp (Nat.le_of_succ_le_succ hlength))
    rw [hitems] at hsplit
    cases A with
    | nil =>
      cases hsplit
      exact ⟨next_file_root i, prev_file_root i⟩
    | cons y A => simp at hsplit

/-- A listing with a file in the root and one in a directory. -/
def twoFiles : Directory :=
  let file : File := ⟨ascii "x", 1, default, 0, 0, 0, ∅⟩
  .node { DirInfo.new [] true with files := [file] }
    [.node { DirInfo.new (ascii "a") true with files := [file] } []]

/-- Both files are found and `next` returns false at the first. -/
theorem not_goesThrough_twoFiles :
    ¬ ∀ (sq : SearchQuery) (root : Directory) (c : SearchContext), GoesThrough sq root c := by
  intro h
  have hcond := (h (searchFor (ascii "x")) twoFiles ⟨0, .nothing, none, none, []⟩).no_root_file
  revert hcond
  decide

end Blacklink.Listing
