import Blacklink.Base.Loop
import Blacklink.Listing.Found

/-!
# Going through what was found in a listing

Model of what a `SearchContext` remembers of a search, and of `next` and `prev`
(`client/DirectoryListing.cpp:1269-1361, 1409-1572`). A pointer to a directory is the place of the
directory in the tree, and a `vector<int>` of indexes has its `back` as the head. What would follow
a null pointer or read outside of a vector has no result. The counts of what was matched and the
copies are left out; the marks are those of `SearchQuery.search`.
-/

namespace Blacklink.Listing

open Blacklink.Base

/-- A `Directory*`: the index of the directory in its parent, then the place of the parent. -/
abbrev Place := List Nat

/-- The directory at a place. -/
def dirAt (root : Directory) : Place → Option Directory
  | [] => some root
  | i :: p => (dirAt root p).bind fun dir => dir.children[i]?

/-- `getParent`. -/
def getParent : Place → Option Place
  | [] => none
  | _ :: p => some p

/-- A file or a directory of a listing. -/
inductive Item where
  | file (dir : Place) (index : Nat)
  | dir (place : Place)
  deriving DecidableEq

/-! ### The items in order -/

/-- A file that there is has the property. -/
def isFile (P : File → Bool) (d : DirInfo) (i : Nat) : Bool := d.files[i]?.any P

/-- The files and directories with the properties that are below a directory: its files, then each
of its directories, with what is below it. The second argument is the place of the directory. -/
def itemsOf (P : File → Bool) (Q : DirInfo → Bool) : Directory → Place → List Item :=
  RoseTree.para fun d dirs p =>
    ((List.range d.files.length).filter (isFile P d)).map (.file p) ++
      (List.range dirs.length).flatMap fun i =>
        dirs[i]?.elim [] fun dir =>
          (if Q dir.1.value then [.dir (i :: p)] else []) ++ dir.2 (i :: p)

/-- What a query matches, in the order in which `match` comes to it. -/
def SearchQuery.items (sq : SearchQuery) (root : Directory) : List Item :=
  itemsOf sq.matchFile (fun d => sq.matchDirectory d.name) root []

/-- The items that are marked as found. -/
def foundItems : Directory → Place → List Item :=
  itemsOf (fun f => .found ∈ f.flags) fun d => .found ∈ d.flags

/-- An item of the tree that is marked as found. -/
def Item.IsFound (root : Directory) : Item → Prop
  | .file p i => ∃ dir, dirAt root p = some dir ∧
      ∃ f, dir.value.files[i]? = some f ∧ .found ∈ f.flags
  | .dir p => ∃ dir, dirAt root p = some dir ∧ .found ∈ dir.value.flags

/-! ### The context -/

/-- The kinds of what a `SearchContext` is at. -/
inductive WhatFound where
  | nothing | file | dir
  deriving DecidableEq

/-- `SearchContext`. -/
structure SearchContext where
  fileIndex : Int
  whatFound : WhatFound
  dir : Option Place
  file : Option (Place × Nat)
  dirIndex : List Int
  deriving DecidableEq

/-- A context at an item. -/
def SearchContext.atItem : Item → SearchContext
  | .file p i => ⟨i, .file, some p, some (p, i), p.map Int.ofNat⟩
  | .dir p => ⟨0, .dir, some p, none, p.map Int.ofNat⟩

/-- The item that a context is at. -/
def SearchContext.item? (c : SearchContext) : Option Item :=
  match c.whatFound with
  | .nothing => none
  | .file => c.file.map fun f => .file f.1 f.2
  | .dir => c.dir.map .dir

/-- What `match` leaves of a context: it is at the first item that the query matches. -/
def SearchContext.matchQuery (c : SearchContext) (sq : SearchQuery) (root : Directory) :
    SearchContext :=
  match (sq.items root).head? with
  | none => { c with whatFound := .nothing, dir := none, file := none }
  | some x => .atItem x

/-! ### `next` and `prev` -/

/-- The variables of the loops in `next` and `prev`. -/
structure Walk where
  searchFiles : Bool
  newIndex : List Int
  newFileIndex : Int
  newDir : Option Place

/-- What `next` or `prev` does: there is more to go through, or it returns, and then the context
is at another item or the result is false. -/
abbrev WalkPass := Option (Pass Walk (Option SearchContext))

/-- The first index from `i` on, below `n`, with the property. -/
def firstIndex (P : Nat → Bool) (i : Int) (n : Nat) : Option Nat :=
  (List.range' i.toNat (n - i.toNat)).find? P

/-- The last index up to `i` with the property. -/
def lastIndex (P : Nat → Bool) (i : Int) : Option Nat :=
  (List.range (i + 1).toNat).reverse.find? P

/-- The file with the index is marked. -/
def isFoundFile (dir : Directory) : Nat → Bool := isFile (fun f => .found ∈ f.flags) dir.value

/-- The directory with the index is marked, or something below it. -/
def isMarkedDir (dir : Directory) (i : Nat) : Bool :=
  dir.children[i]?.any fun dirEntry =>
    .found ∈ dirEntry.value.flags || .hasFound ∈ dirEntry.value.flags

/-- The loop over the directories in `next`, and what follows it. -/
def nextDirs (root : Directory) (w : Walk) : WalkPass :=
  match w.newIndex, w.newDir with
  | newDirIndex :: index, some newDir => do
    let dir ← dirAt root newDir
    match firstIndex (isMarkedDir dir) newDirIndex dir.children.length with
    | some i => do
      let dirEntry ← dir.children[i]?
      if .found ∈ dirEntry.value.flags then
        some (.done (some ⟨0, .dir, some (i :: newDir), none, i :: index⟩))
      else some (.again ⟨true, i :: index, w.newFileIndex, some (i :: newDir)⟩)
    | none =>
      some (.again ⟨false, index.modifyHead (· + 1), w.newFileIndex, getParent newDir⟩)
  | _, _ => none

/-- A pass of the loop of `next`. -/
def nextPass (root : Directory) (_ : Nat) (w : Walk) : WalkPass :=
  if w.newIndex = [] then some (.done none)
  else if w.searchFiles then do
    let newDir ← w.newDir
    let dir ← dirAt root newDir
    match firstIndex (isFoundFile dir) w.newFileIndex dir.value.files.length with
    | some i => some (.done (some ⟨i, .file, some newDir, some (newDir, i), w.newIndex⟩))
    | none => nextDirs root ⟨false, 0 :: w.newIndex, 0, newDir⟩
  else nextDirs root w

/-- What `next` does before its loop. -/
def nextStart (root : Directory) (c : SearchContext) : WalkPass :=
  match c.whatFound with
  | .nothing => some (.done none)
  | .dir => do
    let dir ← c.dir
    let found ← dirAt root dir
    if .hasFound ∈ found.value.flags then some (.again ⟨true, c.dirIndex, 0, dir⟩)
    else if c.dirIndex = [] then some (.done none)
    else some (.again ⟨false, c.dirIndex.modifyHead (· + 1), 0, getParent dir⟩)
  | .file => some (.again ⟨true, c.dirIndex, c.fileIndex + 1, c.dir⟩)

/-- The loop over the directories in `prev`, and what follows it. -/
def prevDirs (root : Directory) (w : Walk) : WalkPass :=
  match w.newIndex, w.newDir with
  | newDirIndex :: index, some newDir => do
    let dir ← dirAt root newDir
    match lastIndex (isMarkedDir dir) newDirIndex with
    | some i => do
      let dirEntry ← dir.children[i]?
      if .hasFound ∈ dirEntry.value.flags then
        some (.again ⟨false, (dirEntry.children.length - 1 : Int) :: i :: index, w.newFileIndex,
          some (i :: newDir)⟩)
      else some (.done (some ⟨0, .dir, some (i :: newDir), none, i :: index⟩))
    | none => some (.again ⟨true, index, dir.value.files.length - 1, newDir⟩)
  | _, _ => none

/-- A pass of the loop of `prev`. -/
def prevPass (root : Directory) (_ : Nat) (w : Walk) : WalkPass :=
  if w.newIndex = [] then some (.done none)
  else if w.searchFiles then do
    let newDir ← w.newDir
    let dir ← dirAt root newDir
    match lastIndex (isFoundFile dir) w.newFileIndex with
    | some i => some (.done (some ⟨i, .file, some newDir, some (newDir, i), w.newIndex⟩))
    | none =>
      if .found ∈ dir.value.flags then
        some (.done (some ⟨0, .dir, some newDir, none, w.newIndex⟩))
      else
        match getParent newDir with
        | none => some (.done none)
        | some parent => prevDirs root ⟨true, w.newIndex.modifyHead (· - 1), 0, parent⟩
  else prevDirs root w

/-- What `prev` does before its loop. -/
def prevStart (c : SearchContext) : WalkPass :=
  match c.whatFound with
  | .nothing => some (.done none)
  | .dir =>
    if c.dirIndex = [] then some (.done none)
    else do
      let dir ← c.dir
      some (.again ⟨false, c.dirIndex.modifyHead (· - 1), 0, getParent dir⟩)
  | .file => some (.again ⟨true, c.dirIndex, c.fileIndex - 1, c.dir⟩)

/-- What comes after the start. -/
def goOn (pass : Nat → Walk → WalkPass) (fuel : Nat) : WalkPass → Option (Option SearchContext)
  | none => none
  | some (.done result) => some result
  | some (.again w) => loop pass fuel w

/-- `next`. -/
def next (root : Directory) (fuel : Nat) (c : SearchContext) : Option (Option SearchContext) :=
  goOn (nextPass root) fuel (nextStart root c)

/-- `prev`. -/
def prev (root : Directory) (fuel : Nat) (c : SearchContext) : Option (Option SearchContext) :=
  goOn (prevPass root) fuel (prevStart c)

/-- What a context is at when one of them is called until it returns false. -/
inductive Visits (call : Nat → SearchContext → Option (Option SearchContext)) :
    SearchContext → List SearchContext → Prop where
  | stop {c : SearchContext} (hstop : Ends call c none) : Visits call c [c]
  | go {c c' : SearchContext} {cs : List SearchContext} (hgo : Ends call c (some c'))
      (hrest : Visits call c' cs) : Visits call c (c :: cs)

end Blacklink.Listing
