import Mathlib.Data.List.Basic
import Blacklink.Text.ToLower

/-!
# Trees of shared directories

Model of `SharedFile` and `SharedDir` (`client/ShareManagerItems.h`, `ShareManagerItems.cpp`). An
address is a number for a file, and for a directory the number of its tree with the keys that lead
to it. The members of a `SharedFile` that change after it was made are in a `FileState`. A lower
case name is always the one of the name, so it is not kept.
-/

namespace Blacklink.Share

/-- What is outside of the repository, or a table: `towlower` and `getFileTypesFromFileName`. -/
structure Env where
  towlower : Nat → Nat
  getFileTypes : List UInt8 → Nat

/-- `Text::toLower`. -/
def Env.toLower (env : Env) (s : List UInt8) : List UInt8 := Text.toLower env.towlower s

/-- `BaseDirItem::getLowerName` of an item with the name. -/
def Env.lowerName (env : Env) (name : List UInt8) : List UInt8 :=
  if env.toLower name = [] then name else env.toLower name

/-- `towlower` for ASCII; no file has a type. -/
def Env.ascii : Env where
  towlower := fun c => if 0x41 ≤ c ∧ c ≤ 0x5a then c + 0x20 else c
  getFileTypes := fun _ => 0

theorem Env.lowersCase_ascii : Text.LowersCase Env.ascii.towlower := by
  constructor
  · intro c hc
    unfold Text.IsScalar at hc ⊢
    dsimp only [Env.ascii]
    split <;> omega
  · intro c _
    dsimp only [Env.ascii]
    split
    · rw [if_neg (by omega)]
    · rfl

/-- `PATH_SEPARATOR`. -/
def pathSeparator : UInt8 := 0x2f

/-- The keys of `dirs` that lead to a directory. -/
abbrev DirPath := List (List UInt8)

/-- The address of a `SharedDir`. -/
structure DirPtr where
  tree : Nat
  path : DirPath
  deriving DecidableEq

/-- The members of `SharedFile` that never change; `id` is its address. -/
structure SharedFile where
  id : Nat
  name : List UInt8
  size : Int
  typesMask : Nat
  timestamp : Nat
  deriving DecidableEq

/-- `MediaInfoUtil::Info`. -/
structure MediaInfo where
  width : Nat
  height : Nat
  bitrate : Nat
  audio : List UInt8
  video : List UInt8
  deriving DecidableEq

/-- `hasData`. -/
def MediaInfo.hasData (info : MediaInfo) : Bool := info.audio ≠ [] || info.video ≠ []

/-- The other members of `SharedFile`. `hashFile` and `notFound` are flags. -/
structure FileState (TTH : Type) where
  tth : TTH
  hashFile : Bool
  notFound : Bool
  timeShared : Nat
  mediaInfo : Option MediaInfo

/-- `SharedFile::hasType`; the first type is `FILE_TYPE_ANY`. -/
def SharedFile.hasType (f : SharedFile) (type : Nat) : Bool :=
  type == 0 || f.typesMask.testBit type

/-- `SharedDir` without its `dirs`, `key` is its key in those of its parent. -/
structure DirNode where
  key : List UInt8
  name : List UInt8
  files : List (List UInt8 × SharedFile)
  totalSize : Int
  filesTypesMask : Nat
  dirsTypesMask : Nat
  notFound : Bool
  shareRemoved : Bool

/-- `SharedDir`, the subdirectories in the order of their keys. -/
inductive SharedDir where
  | mk (node : DirNode) (dirs : List SharedDir)

namespace SharedDir

def node : SharedDir → DirNode
  | mk node _ => node

def dirs : SharedDir → List SharedDir
  | mk _ dirs => dirs

@[simp] theorem node_mk (n : DirNode) (ds : List SharedDir) : (mk n ds).node = n := rfl

@[simp] theorem dirs_mk (n : DirNode) (ds : List SharedDir) : (mk n ds).dirs = ds := rfl

/-- The rule for induction over a tree: what its subdirectories have, a directory has. -/
@[elab_as_elim, induction_eliminator]
theorem induct {motive : SharedDir → Prop}
    (mk : ∀ n ds, (∀ d ∈ ds, motive d) → motive (mk n ds)) (d : SharedDir) : motive d :=
  @SharedDir.rec motive (fun ds => ∀ d ∈ ds, motive d)
    (fun n ds ih => mk n ds ih) (fun _ hd => absurd hd List.not_mem_nil)
    (fun _ _ hhead htail _ hd => (List.mem_cons.mp hd).elim (· ▸ hhead) (htail _)) d

/-- `SharedDir(name, parent)`. -/
def new (key name : List UInt8) : SharedDir :=
  mk { key := key, name := name, files := [], totalSize := 0, filesTypesMask := 0
       dirsTypesMask := 0, notFound := false, shareRemoved := false } []

/-- Change the members other than `dirs`. -/
def mapNode (f : DirNode → DirNode) : SharedDir → SharedDir
  | mk n ds => mk (f n) ds

/-- Change `dirs`. -/
def mapDirs (f : List SharedDir → List SharedDir) : SharedDir → SharedDir
  | mk n ds => mk n (f ds)

/-- `getTypes`. -/
def getTypes (d : SharedDir) : Nat := d.node.filesTypesMask ||| d.node.dirsTypesMask

/-- `SharedDir::hasType`. -/
def hasType (d : SharedDir) (type : Nat) : Bool := type == 0 || d.getTypes.testBit type

/-- `dirs.find(key)->second`. -/
def child? (d : SharedDir) (key : List UInt8) : Option SharedDir :=
  d.dirs.find? fun c => c.node.key = key

/-- `files.find(key)->second`. -/
def file? (d : SharedDir) (key : List UInt8) : Option SharedFile :=
  (d.node.files.find? fun kf => kf.1 = key).map Prod.snd

/-- The directory the keys lead to. -/
def find? : DirPath → SharedDir → Option SharedDir
  | [], d => some d
  | k :: p, d => (d.child? k).bind (find? p)

theorem find?_append (p q : DirPath) (d : SharedDir) :
    find? (p ++ q) d = (find? p d).bind (find? q) := by
  induction p generalizing d with
  | nil => rfl
  | cons k p ih =>
    rw [List.cons_append, find?, find?, Option.bind_assoc]
    congr 1
    funext c
    exact ih c

/-- Change the subdirectory with the key. -/
def modifyChild (key : List UInt8) (f : SharedDir → SharedDir) : List SharedDir → List SharedDir
  | [] => []
  | d :: ds => if d.node.key = key then f d :: ds else d :: modifyChild key f ds

/-- Change the directory the keys lead to. -/
def modifyAt : DirPath → (SharedDir → SharedDir) → SharedDir → SharedDir
  | [], f, d => f d
  | k :: p, f, d => d.mapDirs (modifyChild k (modifyAt p f))

/-- `dirs.insert(make_pair(key, dir))` when there is no such key. -/
def insertDir (d : SharedDir) : List SharedDir → List SharedDir
  | [] => [d]
  | c :: cs => if d.node.key < c.node.key then d :: c :: cs else c :: insertDir d cs

/-- `updateSize`, of the directory the keys lead to. -/
def updateSize (deltaSize : Int) : DirPath → SharedDir → SharedDir
  | [], d => d.mapNode fun n => { n with totalSize := n.totalSize + deltaSize }
  | k :: p, d =>
    (d.mapDirs (modifyChild k (updateSize deltaSize p))).mapNode
      fun n => { n with totalSize := n.totalSize + deltaSize }

/-- `addTypes`, of the directory the keys lead to; the loop goes on while a mask changes. -/
def addTypes (filesMask dirsMask : Nat) : DirPath → SharedDir → SharedDir × Bool
  | [], d =>
    if d.node.filesTypesMask ||| filesMask = d.node.filesTypesMask ∧
        d.node.dirsTypesMask ||| dirsMask = d.node.dirsTypesMask then (d, false)
    else
      (d.mapNode fun n ↦ { n with filesTypesMask := n.filesTypesMask ||| filesMask
                                  dirsTypesMask := n.dirsTypesMask ||| dirsMask }, true)
  | k :: p, d =>
    let goesOn := ((d.child? k).map fun c => (addTypes filesMask dirsMask p c).2).getD false
    let d := d.mapDirs (modifyChild k fun c => (addTypes filesMask dirsMask p c).1)
    let mask := d.node.dirsTypesMask ||| (filesMask ||| dirsMask)
    if !goesOn || mask = d.node.dirsTypesMask then (d, false)
    else (d.mapNode fun n => { n with dirsTypesMask := mask }, true)

/-- `updateTypes`, of the directory the keys lead to; the loop goes on while a mask changes. -/
def updateTypes (filesMask dirsMask : Nat) : DirPath → SharedDir → SharedDir × Bool
  | [], d =>
    if d.node.filesTypesMask = filesMask ∧ d.node.dirsTypesMask = dirsMask then (d, false)
    else (d.mapNode fun n ↦ { n with filesTypesMask := filesMask, dirsTypesMask := dirsMask }, true)
  | k :: p, d =>
    let goesOn := ((d.child? k).map fun c => (updateTypes filesMask dirsMask p c).2).getD false
    let d := d.mapDirs (modifyChild k fun c => (updateTypes filesMask dirsMask p c).1)
    let newMask := d.dirs.foldl (fun mask c => mask ||| c.getTypes) 0
    if !goesOn || newMask = d.node.dirsTypesMask then (d, false)
    else (d.mapNode fun n => { n with dirsTypesMask := newMask }, true)

mutual

/-- `copyTree`: flags are not copied. The copy of `files` holds the same objects. -/
def copyTree : SharedDir → SharedDir
  | mk n ds => mk { n with notFound := false, shareRemoved := false } (copyTrees ds)

/-- `copyTree` of each subdirectory. -/
def copyTrees : List SharedDir → List SharedDir
  | [] => []
  | d :: ds => copyTree d :: copyTrees ds

end

mutual

/-- The directories of a tree with the keys that lead to them, each before its subdirectories. -/
def nodes : SharedDir → List (DirPath × DirNode)
  | mk n ds => ([], n) :: nodesOf ds

/-- The directories below those of a list. -/
def nodesOf : List SharedDir → List (DirPath × DirNode)
  | [] => []
  | d :: ds => (nodes d).map (fun pn => (d.node.key :: pn.1, pn.2)) ++ nodesOf ds

end

end SharedDir

end Blacklink.Share
