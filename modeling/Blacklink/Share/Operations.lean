import Mathlib.Logic.Function.Basic
import Blacklink.Share.ShareManager

/-!
# Loading and changing the share

Model of what loads the share list and the share data (`client/ShareManager.cpp:116-315, 429-560`)
and of the operations on shared directories and files (`client/ShareManager.cpp:778-1055,
1188-1230`). Share data are loaded from `Share.dat` or from a file list; where these differ, `data`
says that it is `Share.dat`. What a loader throws for ends the loading and changes nothing.
-/

namespace Blacklink.Share

namespace ShareManager

variable {TTH : Type} [Inhabited TTH] (env : Env) (s : ShareManager TTH)

/-! ### Excluded directories -/

/-- A share gets the next version. -/
def updateVersion (share : ShareListItem) : ShareManager TTH :=
  { s with
    shares := s.shares.map fun i =>
      if i.tree = share.tree then { i with version := s.versionCounter + 1 } else i
    versionCounter := s.versionCounter + 1 }

/-- `addExcludeFolderL`, when it returns true. -/
def addExcludeFolderL (path : List UInt8) : Option (ShareManager TTH) :=
  match s.shares.find? fun i => !i.removed && isSubDirOrSame path i.realPath with
  | none => none
  | some share =>
    if path.length = share.realPath.length then none
    else if s.notShared.any fun j => isSubDirOrSame path j then none
    else
      some { s.updateVersion share with
        notShared := (s.notShared.filter fun j => !isSubDir j path) ++ [path] }

/-- `addExcludeFolder`. -/
def addExcludeFolder (path : List UInt8) : ShareManager TTH :=
  match addExcludeFolderL s path with
  | none => s
  | some s => { s with shareListChanged := true }

/-- `removeExcludeFolder`. -/
def removeExcludeFolder (path : List UInt8) : ShareManager TTH :=
  let same := fun j : List UInt8 => j.length = path.length && strnicmpEq path j path.length
  if s.notShared.any same then
    let s := { s with notShared := s.notShared.eraseP same, shareListChanged := true }
    match s.shares.find? fun i => !i.removed && isSubDirOrSame path i.realPath with
    | none => s
    | some share => s.updateVersion share
  else s

/-! ### Loading -/

/-- `loadShareList` for one share; `isExist` is what `File::isExist` returns. -/
def loadShare (realPath virtualAttr : List UInt8) (isExist : Bool) : ShareManager TTH :=
  if realPath = [] then s
  else
    let realPath := appendPathSeparator realPath
    let virtualName :=
      validateVirtual (if virtualAttr = [] then getLastDir realPath else virtualAttr)
    if hasShareL env s virtualName realPath || !isExist then s
    else
      { s with
        shares := s.shares ++
          [⟨realPath, s.nextTree, .new [] virtualName, 0, 0, .none⟩]
        nextTree := s.nextTree + 1
        bloom := s.bloom.add (env.lowerName virtualName) }

/-- `loadSharedDir`, and what `loadShareData` does when there is no such share. -/
def loadSharedDir (filename : List UInt8) (data : Bool) : ShareManager TTH :=
  match s.cursor with
  | some (.lost depth) => { s with cursor := some (.lost (depth + 1)) }
  | some (.dir ptr detached) =>
    let key := env.lowerName filename
    let s := { s with bloom := s.bloom.add key }
    if detached ≠ [] || ((s.dir? ptr).bind fun d => d.child? key).isSome then
      { s with
        cursor := some (.dir ptr (⟨s.nextTree, 0, 0⟩ :: detached))
        nextTree := s.nextTree + 1 }
    else
      { s.modifyTree ptr.tree
          (SharedDir.modifyAt ptr.path fun d => d.mapDirs (SharedDir.insertDir (.new key filename)))
        with cursor := some (.dir ⟨ptr.tree, ptr.path ++ [key]⟩ []) }
  | none =>
    match getByVirtualL env s filename with
    | some share => { s with cursor := some (.dir ⟨share.tree, []⟩ []), fileCounter := 0 }
    | none => if data then { s with cursor := some (.lost 0) } else s

/-- `SharedItemAttribs`, as far as they are used for a file. -/
structure SharedItemAttribs (TTH : Type) where
  name : List UInt8
  tth : TTH
  fileSize : Int
  timestamp : Nat
  timeShared : Nat
  mediaInfo : Option MediaInfo

/-- `loadSharedFile`. -/
def loadSharedFile (attr : SharedItemAttribs TTH) : ShareManager TTH :=
  match s.cursor with
  | some (.dir ptr detached) =>
    let file : SharedFile :=
      ⟨s.nextFile, attr.name, attr.fileSize, env.getFileTypes attr.name, attr.timestamp⟩
    let key := env.lowerName attr.name
    let dir := (detached.head?.map fun d => DirPtr.mk d.tree []).getD ptr
    let s := s.newFile ⟨attr.tth, false, false, attr.timeShared, attr.mediaInfo⟩
    let s :=
      { s with
        fileCounter := s.fileCounter + 1
        bloom := s.bloom.add key
        tthIndex := s.tthIndex ++ [TTHMapItem.mk attr.tth dir file] }
    match detached with
    | [] =>
      s.modifyTree ptr.tree <| SharedDir.modifyAt ptr.path fun d => d.mapNode fun n =>
        { n with
          files := insertFile key file n.files
          filesTypesMask := n.filesTypesMask ||| file.typesMask
          totalSize := n.totalSize + file.size }
    | d :: ds =>
      { s with
        cursor := some (.dir ptr
          ({ d with types := d.types ||| file.typesMask, totalSize := d.totalSize + file.size } ::
            ds)) }
  | _ => s

/-- The types and the size of a subdirectory are added to a directory. -/
def addLoaded (types : Nat) (size : Int) (d : SharedDir) : SharedDir :=
  d.mapNode fun n =>
    { n with dirsTypesMask := n.dirsTypesMask ||| types, totalSize := n.totalSize + size }

/-- The end of a directory; only `loadShareData` sets `totalFiles`. -/
def loadDirEnd (data : Bool) : ShareManager TTH :=
  match s.cursor with
  | none => s
  | some (.lost 0) => { s with cursor := none }
  | some (.lost (depth + 1)) => { s with cursor := some (.lost depth) }
  | some (.dir ptr (d :: parent :: ds)) =>
    { s with
      cursor := some (.dir ptr
        ({ parent with
            types := parent.types ||| d.types, totalSize := parent.totalSize + d.totalSize } ::
          ds)) }
  | some (.dir ptr [d]) =>
    { s.modifyTree ptr.tree (SharedDir.modifyAt ptr.path (addLoaded d.types d.totalSize)) with
      cursor := some (.dir ptr []) }
  | some (.dir ptr []) =>
    if ptr.path = [] then
      { s with
        shares := s.shares.map fun i =>
          if data ∧ i.tree = ptr.tree then { i with totalFiles := s.fileCounter } else i
        cursor := none }
    else
      match s.dir? ptr with
      | none => { s with cursor := some (.dir ⟨ptr.tree, ptr.path.dropLast⟩ []) }
      | some d =>
        { s.modifyTree ptr.tree
            (SharedDir.modifyAt ptr.path.dropLast (addLoaded d.getTypes d.node.totalSize)) with
          cursor := some (.dir ⟨ptr.tree, ptr.path.dropLast⟩ []) }

/-! ### Operations -/

/-- `addDirectory`. `accepted` is that the directory exists and may be shared. -/
def addDirectory (realPath virtualName : List UInt8) (accepted : Bool) : ShareManager TTH :=
  if realPath = [] ∨ virtualName = [] ∨ accepted = false then s
  else if hasShareL env s virtualName realPath then s
  else if s.shares.any fun i => !i.removed && isSubDir realPath i.realPath then s
  else
    { s with
      shares :=
        (s.shares.map fun i =>
          if !i.removed && isSubDir i.realPath realPath then
            { i with dir := i.dir.mapNode fun n => { n with shareRemoved := true } }
          else i) ++
        [⟨realPath, s.nextTree, .new [] virtualName, s.versionCounter + 1, 0, .none⟩]
      nextTree := s.nextTree + 1
      versionCounter := s.versionCounter + 1
      shareListChanged := true
      bloom := s.bloom.add (env.lowerName virtualName) }

/-- `removeDirectory`. -/
def removeDirectory (realPath : List UInt8) : ShareManager TTH :=
  if realPath = [] then s
  else
    match s.shares.find? fun i => !i.removed && env.lowerName i.realPath = env.toLower realPath with
    | none => s
    | some share =>
      { s with
        shares := s.shares.map fun i =>
          if i.tree = share.tree then
            { i with dir := i.dir.mapNode fun n => { n with shareRemoved := true } }
          else i
        shareGroups := s.shareGroups.map fun sg =>
          { sg with
            shares := sg.shares.eraseP fun item => env.lowerName item = env.toLower realPath }
        notShared := s.notShared.filter fun j => !isSubDirOrSame j realPath
        shareListChanged := true }

/-- `renameDirectory`. -/
def renameDirectory (realPath virtualName : List UInt8) : ShareManager TTH :=
  let isDir := fun i : ShareListItem => env.lowerName i.realPath = env.toLower realPath
  if s.shares.any fun i =>
      !i.removed && !isDir i && env.toLower i.dir.node.name = env.toLower virtualName then s
  else
    match s.shares.reverse.find? fun i => !i.removed && isDir i with
    | none => s
    | some share =>
      if virtualName = share.dir.node.name then s
      else
        updateBloomL env <| s.modifyTree share.tree fun d =>
          d.mapNode fun n => { n with name := virtualName }

/-- `addFile`. `found` are the time stamp and the size of the file on the disk, if it is there. -/
def addFile (path : List UInt8) (root : TTH) (found : Option (Nat × Int)) (currentTime : Nat) :
    ShareManager TTH :=
  match rfindSeparator path, found with
  | some pos, some (timestamp, size) =>
    if pos = path.length - 1 then s
    else
      let fileName := path.drop (pos + 1)
      match findByRealPathL env s (env.toLower path) with
      | none => s
      | some (ptr, _) =>
        let file : SharedFile :=
          ⟨s.nextFile, fileName, size, env.getFileTypes fileName, timestamp⟩
        let key := env.lowerName fileName
        if ((s.dir? ptr).bind fun d => d.file? key).isSome then s
        else
          let s := s.newFile ⟨root, false, false, currentTime, none⟩
          let s := s.modifyTree ptr.tree fun d =>
            ((d.modifyFiles ptr.path (insertFile key file)).updateSize size ptr.path |>.updateTypes
              file.typesMask 0 ptr.path).1
          { s with
            tthIndex := s.tthIndex ++ [⟨root, ptr, file⟩]
            bloom := s.bloom.add key }
  | _, _ => s

end ShareManager

end Blacklink.Share
