import Blacklink.Base.LinkedTree
import Blacklink.Listing.SpliceTree

/-!
# Merging a partial list, with pointers

Model of `DirectoryListing::spliceTree` (`client/DirectoryListing.cpp:998-1037, 1118-1215`) on the
`Directory` objects themselves, each with the pointers to its directories and to its parent. A
pointer to an object that does not exist (any more) is not followed: what would do so has no result.
The `SpliceTreeResult` and the user data of windows are left out.
-/

namespace Blacklink.Listing

open Blacklink.Base

/-- The `Directory` objects, and the address of the next one that is made. -/
structure Heap where
  objects : Memory DirInfo
  unused : Ptr

/-- An object is written. -/
def Heap.write (h : Heap) (p : Ptr) (o : LinkedNode DirInfo) : Heap :=
  { h with objects := Function.update h.objects p (some o) }

@[simp] theorem objects_write_self (h : Heap) (p : Ptr) (o : LinkedNode DirInfo) :
    (h.write p o).objects p = some o := Function.update_self _ _ _

theorem objects_write_of_ne (h : Heap) {p q : Ptr} (o : LinkedNode DirInfo) (hq : q ≠ p) :
    (h.write p o).objects q = h.objects q := Function.update_of_ne hq _ _

/-- `new Directory`. -/
def Heap.newDirectory (h : Heap) (parent : Ptr) (name : List UInt8) (complete : Bool) :
    Heap × Ptr :=
  ({ objects := (h.write h.unused ⟨.new name complete, [], some parent⟩).objects
     unused := h.unused + 1 }, h.unused)

/-- `delete` of a directory, whose destructor deletes its directories. -/
def Heap.delete (fuel : Nat) (h : Heap) (p : Ptr) : Option Heap :=
  (loop freePass fuel (h.objects, [p])).map fun objects => { h with objects }

/-- The first of the directories with the name. -/
def Heap.findDirectory (h : Heap) (name : List UInt8) (directories : List Ptr) : Option Ptr :=
  directories.find? fun p => (h.objects p).any fun o => o.value.name = name

/-- The loop that enters the directories that there are. The tokenizer is set back to the first
token for which there is no directory. -/
def Heap.enter (h : Heap) : List (List UInt8) → Ptr → Option (Ptr × List (List UInt8))
  | [], dir => some (dir, [])
  | token :: tokens, dir => do
    let o ← h.objects dir
    match h.findDirectory token o.children with
    | none => some (dir, token :: tokens)
    | some nextDir => h.enter tokens nextDir

/-- The loop that makes the other directories. -/
def Heap.create (root : Ptr) : Heap → List (List UInt8) → Ptr → Option (Heap × Ptr)
  | h, [], dir => some (h, dir)
  | h, token :: tokens, dir => do
    let (h, newDir) := h.newDirectory dir token false
    let o ← h.objects dir
    let value := if dir = root then { o.value with complete := false } else o.value
    create root (h.write dir ⟨value, o.children ++ [newDir], o.parent⟩) tokens newDir

/-- A turn of the loop of `updateInfo`. -/
def updatePass (_ : Nat) (s : Heap × Ptr) : Option (Pass (Heap × Ptr) Heap) := do
  let o ← s.1.objects s.2
  match o.parent with
  | none => some (.done s.1)
  | some dir => do
    let d ← s.1.objects dir
    let dirs := d.children.filterMap s.1.objects
    let u := d.value.updateInfo d.parent.isNone (dirs.map fun o => .node o.value [])
    let h := s.1.write dir { d with value := u.1 }
    some (if u.2 then .again (h, dir) else .done h)

/-- What `spliceTree` does with the directory in which `src` is put. -/
def Heap.put (fuel : Nat) (h : Heap) (src dir : Ptr) (dirName : List UInt8) : Option Heap := do
  let o ← h.objects dir
  match h.findDirectory dirName o.children with
  | some dest => do
    let h ← (h.write dir { o with children := o.children.replace dest src }).delete fuel dest
    let s ← h.objects src
    some (h.write src { s with value.name := dirName, parent := dir })
  | none => do
    let s ← h.objects src
    let h := h.write src { s with value.name := dirName, parent := dir }
    let o ← h.objects dir
    some (h.write dir { o with children := o.children ++ [src] })

/-- `spliceTree`, with the root of the listing, and the root and the base path of the partial one.
The result is the root of the listing. -/
def Heap.spliceTree (fuel : Nat) (h : Heap) (root treeRoot : Ptr) (basePath : List UInt8) :
    Option (Heap × Ptr) := do
  let (path, dirName) := takeDirName basePath
  let (dir, tokens) ← h.enter (pathTokens [] path) root
  let (h, dir) ← h.create root tokens dir
  if dir = root ∧ dirName = [] then do
    let h ← h.delete fuel root
    let o ← h.objects treeRoot
    some (h.write treeRoot { o with parent := none }, treeRoot)
  else do
    let h ← h.put fuel treeRoot dir dirName
    let h ← loop updatePass fuel (h, treeRoot)
    some (h, root)

end Blacklink.Listing
