import Mathlib.Logic.Function.Basic
import Blacklink.Share.BloomFilter
import Blacklink.Share.SharedDir

/-!
# The share

Model of the state of `ShareManager` and of what changes it (`client/ShareManager.cpp:193-345,
429-627, 742-947, 960-1010, 1188-1230, 1276-1320, 1590-1640, 2786-3119, 3201-3217, 3419-3457`).
Every critical section on `csShare` is one step, and so is every entry of a directory that the
thread of `scanDirs` goes through. What the disk and the settings decide is part of the event. The
versions of the lists, the counters for display and the caches of finished searches are left out.
-/

namespace Blacklink.Share

open Blacklink.Text (ascii)

/-! ### Paths -/

/-- `strnicmp(a, b, n) == 0` in the C locale. -/
def strnicmpEq (a b : List UInt8) (n : Nat) : Bool :=
  let lower := fun c : UInt8 => if 0x41 ≤ c ∧ c ≤ 0x5a then c + 0x20 else c
  (a.take n).map lower = (b.take n).map lower

/-- `isSubDir`. -/
def isSubDir (dir parent : List UInt8) : Bool :=
  parent.length < dir.length && strnicmpEq parent dir parent.length

/-- `isSubDirOrSame`. -/
def isSubDirOrSame (dir parent : List UInt8) : Bool :=
  parent.length ≤ dir.length && strnicmpEq parent dir parent.length

/-- `Util::appendPathSeparator`. -/
def appendPathSeparator (path : List UInt8) : List UInt8 :=
  if path = [] ∨ path.getLast? = some pathSeparator then path else path ++ [pathSeparator]

/-- `rfind(PATH_SEPARATOR)`. -/
def rfindSeparator (path : List UInt8) : Option Nat :=
  (path.reverse.findIdx? (· = pathSeparator)).map fun i => path.length - 1 - i

/-- `Util::getLastDir`. At 0 the second search starts from the end again. -/
def getLastDir (path : List UInt8) : List UInt8 :=
  match rfindSeparator path with
  | none => []
  | some 0 => path.drop 1
  | some i =>
    match rfindSeparator (path.take i) with
    | none => path
    | some j => (path.drop (j + 1)).take (i - j - 1)

/-- `validateVirtual`. -/
def validateVirtual (virt : List UInt8) : List UInt8 :=
  virt.map fun c => if c = 0x2f ∨ c = 0x5c then 0x5f else c

/-- The loop of `findByRealPathL`: the directories of a path and what is behind the last separator;
`cur` is the part that has begun. -/
def pathParts : List UInt8 → List UInt8 → DirPath × List UInt8
  | [], cur => ([], cur)
  | c :: cs, cur =>
    if c = pathSeparator then
      if cur = [] then pathParts cs [] else ((cur :: (pathParts cs []).1), (pathParts cs []).2)
    else pathParts cs (cur ++ [c])

/-! ### State -/

/-- `Bloom`, with the size both filters are made with. -/
abbrev Bloom := BloomFilter 5 1048576

/-- `CID`. -/
abbrev CID := List UInt8

/-- `CID()`. -/
def CID.zero : CID := List.replicate 24 0

/-- The `SCAN_SHARE_FLAG_` bits. -/
structure ScanFlags where
  added : Bool
  removed : Bool
  rebuildBloom : Bool
  deriving DecidableEq

/-- No bit is set. -/
def ScanFlags.none : ScanFlags := ⟨false, false, false⟩

/-- `|` of the bits. -/
def ScanFlags.or (a b : ScanFlags) : ScanFlags :=
  ⟨a.added || b.added, a.removed || b.removed, a.rebuildBloom || b.rebuildBloom⟩

/-- `ShareListItem`; `tree` is the address of `dir`. -/
structure ShareListItem where
  realPath : List UInt8
  tree : Nat
  dir : SharedDir
  version : Int
  totalFiles : Nat
  flags : ScanFlags

/-- `FLAG_SHARE_REMOVED` is set. -/
def ShareListItem.removed (sli : ShareListItem) : Bool := sli.dir.node.shareRemoved

/-- `FileAttr`. -/
structure FileAttr (TTH : Type) where
  root : TTH
  size : Int

/-- `ShareGroup`; `shares` are the names of the items. -/
structure ShareGroup (TTH : Type) where
  id : CID
  name : List UInt8
  shares : List (List UInt8)
  attrComp : FileAttr TTH
  attrUncomp : FileAttr TTH
  tempXmlFile : List UInt8

/-- `ShareGroup::hasShare`. -/
def ShareGroup.hasShare {TTH : Type} (env : Env) (sg : ShareGroup TTH) (share : ShareListItem) :
    Bool := sg.shares.any fun item => env.lowerName share.realPath = env.lowerName item

/-- An entry of the TTH index, with its key. -/
structure TTHMapItem (TTH : Type) where
  tth : TTH
  dir : DirPtr
  file : SharedFile
  deriving DecidableEq

/-- An activation of `scanDir`; `dirPath` are the keys that lead to `dir`. -/
structure Frame where
  dirPath : DirPath
  path : List UInt8
  deltaSize : Int
  filesTypesMask : Nat
  dirsTypesMask : Nat
  countFiles : Nat
  countDirs : Nat
  foundFiles : Nat
  foundDirs : Nat

/-- The share that is being scanned, with the activations of `scanDir`, the innermost first. -/
structure ActiveShare where
  item : ShareListItem
  frames : List Frame

/-- The thread of `scanDirs`. The elements of `newShares` are in `scanned`, `active` and `pending`.
`optionForceUpdateMediaInfo` and `mediaInfoFileTypes` are read when it starts. -/
structure Scan (TTH : Type) where
  forceUpdateMediaInfo : Bool
  mediaInfoFileTypes : Nat
  scanned : List ShareListItem
  active : Option ActiveShare
  pending : List ShareListItem
  newNotShared : List (List UInt8)
  bloomNew : Bloom
  tthIndexNew : List (TTHMapItem TTH)
  scanShareFlags : ScanFlags
  scanAllFlags : ScanFlags
  filesToHash : List (SharedFile × List UInt8)

/-- A directory that was not inserted because of its name, or one below it. -/
structure DetachedDir where
  tree : Nat
  types : Nat
  totalSize : Int

/-- The directory that is being loaded: one of a share, where `detached` are those below it that
have not been inserted, or one of a share that is lost. -/
inductive LoadCursor where
  | dir (ptr : DirPtr) (detached : List DetachedDir)
  | lost (depth : Nat)

/-- `ShareManager`. The objects `fileState` is about are numbered as they are made, and so are the
roots of trees; `hashQueue` are the files `HashManager` was given and has not reported yet. -/
structure ShareManager (TTH : Type) where
  shares : List ShareListItem
  notShared : List (List UInt8)
  shareGroups : List (ShareGroup TTH)
  versionCounter : Int
  shareListChanged : Bool
  tthIndex : List (TTHMapItem TTH)
  bloom : Bloom
  fileCounter : Nat
  stopScanning : Bool
  scan : Option (Scan TTH)
  cursor : Option LoadCursor
  fileState : Nat → FileState TTH
  nextFile : Nat
  nextTree : Nat
  hashQueue : List (SharedFile × List UInt8)

/-- `ShareManager()`. -/
def ShareManager.new {TTH : Type} [Inhabited TTH] : ShareManager TTH where
  shares := []
  notShared := []
  shareGroups := []
  versionCounter := 0
  shareListChanged := false
  tthIndex := []
  bloom := .empty
  fileCounter := 0
  stopScanning := false
  scan := none
  cursor := none
  fileState := fun _ => ⟨default, false, false, 0, none⟩
  nextFile := 0
  nextTree := 0
  hashQueue := []

/-! ### Names and files of a tree -/

/-- The lower case names in a directory. -/
def DirNode.names (env : Env) (n : DirNode) : List (List UInt8) :=
  env.lowerName n.name :: n.files.map fun kf => env.lowerName kf.2.name

/-- The lower case names in a tree. -/
def SharedDir.names (env : Env) (d : SharedDir) : List (List UInt8) :=
  d.nodes.flatMap fun pn => pn.2.names env

/-- `files.insert(make_pair(key, file))`. -/
def insertFile (key : List UInt8) (file : SharedFile) (files : List (List UInt8 × SharedFile)) :
    List (List UInt8 × SharedFile) :=
  if files.any fun kf => kf.1 = key then files else files ++ [(key, file)]

/-- `files.insert_or_assign(key, file)`. -/
def assignFile (key : List UInt8) (file : SharedFile) (files : List (List UInt8 × SharedFile)) :
    List (List UInt8 × SharedFile) :=
  (files.filter fun kf => kf.1 ≠ key) ++ [(key, file)]

/-- `files.erase(key)`. -/
def eraseFile (key : List UInt8) (files : List (List UInt8 × SharedFile)) :
    List (List UInt8 × SharedFile) :=
  files.filter fun kf => kf.1 ≠ key

/-- Change the `files` of the directory the keys lead to. -/
def SharedDir.modifyFiles (p : DirPath)
    (f : List (List UInt8 × SharedFile) → List (List UInt8 × SharedFile)) :
    SharedDir → SharedDir :=
  SharedDir.modifyAt p fun d => d.mapNode fun n => { n with files := f n.files }

/-- `updateBloomDirL`. -/
def updateBloomDirL (env : Env) (bloom : Bloom) (d : SharedDir) : Bloom :=
  (d.names env).foldl BloomFilter.add bloom

/-- The entries `updateIndexDirL` inserts for a tree. -/
def updateIndexDirL {TTH : Type} (fileState : Nat → FileState TTH) (tree : Nat) (d : SharedDir) :
    List (TTHMapItem TTH) :=
  d.nodes.flatMap fun pn => pn.2.files.filterMap fun kf =>
    if (fileState kf.2.id).hashFile then none
    else some ⟨(fileState kf.2.id).tth, ⟨tree, pn.1⟩, kf.2⟩

namespace ShareManager

variable {TTH : Type} (env : Env) (s : ShareManager TTH)

/-! ### Lookups -/

/-- `getByVirtualL`. -/
def getByVirtualL (virtualName : List UInt8) : Option ShareListItem :=
  s.shares.find? fun i => !i.removed && env.lowerName i.dir.node.name = env.toLower virtualName

/-- `getByRealL`. -/
def getByRealL (realName : List UInt8) : Option ShareListItem :=
  s.shares.find? fun i => !i.removed && env.lowerName i.realPath = env.toLower realName

/-- `hasShareL`. -/
def hasShareL (virtualName realName : List UInt8) : Bool :=
  s.shares.any fun i => !i.removed && (env.lowerName i.realPath = env.toLower realName ||
    env.lowerName i.dir.node.name = env.toLower virtualName)

/-- `findByRealPathL` of a directory: its address and what is behind the last separator. -/
def findByRealPathL (pathLower : List UInt8) : Option (DirPtr × List UInt8) :=
  match s.shares.find? fun i => !i.removed && (env.lowerName i.realPath).isPrefixOf pathLower with
  | none => none
  | some i =>
    let parts := pathParts (pathLower.drop (env.lowerName i.realPath).length) []
    (i.dir.find? parts.1).map fun _ => (⟨i.tree, parts.1⟩, parts.2)

/-- The directory with the address. -/
def dir? (ptr : DirPtr) : Option SharedDir :=
  (s.shares.find? fun i => i.tree = ptr.tree).bind fun i => i.dir.find? ptr.path

/-- `findByRealPathL` of a file. -/
def findFileByRealPathL (pathLower : List UInt8) : Option (DirPtr × SharedFile) :=
  (findByRealPathL env s pathLower).bind fun found =>
    ((s.dir? found.1).bind fun d => d.file? found.2).map fun file => (found.1, file)

/-- Change the tree with the address. -/
def modifyTree (tree : Nat) (f : SharedDir → SharedDir) : ShareManager TTH :=
  { s with
    shares := s.shares.map fun i => if i.tree = tree then { i with dir := f i.dir } else i }

/-- Change the state of a file. -/
def modifyFile (id : Nat) (f : FileState TTH → FileState TTH) : ShareManager TTH :=
  { s with fileState := Function.update s.fileState id (f (s.fileState id)) }

/-- `make_shared<SharedFile>` in the state, the object being number `nextFile`. -/
def newFile (state : FileState TTH) : ShareManager TTH :=
  { s with
    fileState := Function.update s.fileState s.nextFile state
    nextFile := s.nextFile + 1 }

/-- `updateBloomL`. -/
def updateBloomL : ShareManager TTH :=
  { s with
    bloom := (s.shares.filter fun i => !i.removed).foldl
      (fun bloom i => updateBloomDirL env bloom i.dir) .empty }

end ShareManager

end Blacklink.Share
