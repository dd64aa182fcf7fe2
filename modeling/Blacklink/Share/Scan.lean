import Mathlib.Algebra.Ring.Int.Defs
import Blacklink.Share.Operations

/-!
# Scanning the share

Model of `scanDirs` and `scanDir` (`client/ShareManager.cpp:2786-3119, 3167-3179`) and of what comes
back from `HashManager` (`client/ShareManager.cpp:3419-3457`). The thread copies the trees in one
critical section, goes through the directories of the copies without one, and publishes them in
another one.
-/

namespace Blacklink.Share

/-- An entry `FileFindIter` finds. `skipped` is that an attribute, an option, a reserved name or the
skip list excludes it. -/
structure FileFindItem where
  fileName : List UInt8
  isDirectory : Bool
  skipped : Bool
  size : Int
  timestamp : Nat
  deriving DecidableEq

/-- Set `FLAG_NOT_FOUND` of the subdirectories. -/
def SharedDir.setDirsNotFound (d : SharedDir) : SharedDir :=
  d.mapDirs fun ds => ds.map (SharedDir.mapNode fun n => { n with notFound := true })

/-- Clear `FLAG_NOT_FOUND` of a subdirectory. -/
def SharedDir.clearDirNotFound (key : List UInt8) (d : SharedDir) : SharedDir :=
  d.mapDirs (SharedDir.modifyChild key (SharedDir.mapNode fun n => { n with notFound := false }))

/-- The copies of the shares that are not removed, their trees numbered from `n` on. -/
def copyShares : Nat → List ShareListItem → List ShareListItem
  | _, [] => []
  | n, i :: is =>
    if i.removed then copyShares n is
    else
      { i with tree := n, dir := i.dir.copyTree, totalFiles := 0, flags := .none } ::
        copyShares (n + 1) is

/-- What the loop of the publication leaves: the shares, the elements left in `newShares` and
`updateIndex`, which it sets together with `shareListChanged`. -/
structure Published where
  shares : List ShareListItem
  newShares : List ShareListItem
  updateIndex : Bool

/-- The loop of the publication over `shares`. -/
def publishShares (env : Env) :
    List ShareListItem → List ShareListItem → Bool → Published
  | [], newShares, updateIndex => ⟨[], newShares, updateIndex⟩
  | i :: is, newShares, updateIndex =>
    let same := fun j : ShareListItem => env.lowerName i.realPath = env.lowerName j.realPath
    if i.removed then publishShares env is newShares updateIndex
    else
      match newShares.find? same with
      | none =>
        let rest := publishShares env is newShares updateIndex
        { rest with shares := i :: rest.shares }
      | some j =>
        if i.version = j.version then
          let rest := publishShares env is (newShares.eraseP same) updateIndex
          let changed := j.flags.added || j.flags.removed
          { rest with
            shares :=
              { i with
                tree := j.tree, dir := j.dir, totalFiles := j.totalFiles
                version := if changed then i.version + 1 else i.version } :: rest.shares }
        else
          let rest := publishShares env is (newShares.eraseP same) true
          { rest with shares := i :: rest.shares }

namespace Scan

variable {TTH : Type}

/-- `newShares`. -/
def newShares (sc : Scan TTH) : List ShareListItem :=
  sc.scanned ++ (sc.active.map ActiveShare.item).toList ++ sc.pending

/-- `isDirectoryExcludedL`. -/
def isDirectoryExcludedL (sc : Scan TTH) (path : List UInt8) : Bool :=
  sc.newNotShared.any fun j => isSubDirOrSame path j

end Scan

namespace ShareManager

variable {TTH : Type} [Inhabited TTH] (env : Env) (s : ShareManager TTH)

/-- `scanDirs` up to its first critical section and with it, when no scan is in progress. -/
def scanStart (forceUpdateMediaInfo : Bool) (mediaInfoFileTypes : Nat) : ShareManager TTH :=
  match s.scan with
  | some _ => s
  | none =>
    let removed := s.shares.any ShareListItem.removed
    { s with
      nextTree := s.nextTree + s.shares.length
      scan := some
        { forceUpdateMediaInfo := forceUpdateMediaInfo
          mediaInfoFileTypes := mediaInfoFileTypes
          scanned := []
          active := none
          pending := copyShares s.nextTree s.shares
          newNotShared := s.notShared
          bloomNew := s.bloom
          tthIndexNew := []
          scanShareFlags := .none
          scanAllFlags := ⟨false, removed, removed⟩
          filesToHash := [] } }

/-- `refreshShareIfChanged`, when no scan is in progress. -/
def refreshShareIfChanged (forceUpdateMediaInfo : Bool) (mediaInfoFileTypes : Nat) :
    ShareManager TTH :=
  if s.shareListChanged then scanStart s forceUpdateMediaInfo mediaInfoFileTypes else s

/-- The beginning of `scanDir(dir, path)`: everything is marked as not found. -/
def enterDir (sc : Scan TTH) (a : ActiveShare) (dirPath : DirPath) (path : List UInt8) :
    ShareManager TTH :=
  match a.item.dir.find? dirPath with
  | none => s
  | some dir =>
    let ids := dir.node.files.map fun kf => kf.2.id
    let frame : Frame :=
      { dirPath := dirPath, path := path, deltaSize := 0, filesTypesMask := 0, dirsTypesMask := 0
        countFiles := dir.node.files.length, countDirs := dir.dirs.length
        foundFiles := 0, foundDirs := 0 }
    let item :=
      { a.item with dir := a.item.dir.modifyAt dirPath SharedDir.setDirsNotFound }
    { s with
      fileState := fun id =>
        if id ∈ ids then { s.fileState id with notFound := true } else s.fileState id
      scan := some { sc with active := some ⟨item, frame :: a.frames⟩ } }

/-- The loop of `scanDirs` takes the next share. -/
def scanShare : ShareManager TTH :=
  match s.scan with
  | some sc =>
    match sc.active, sc.pending with
    | none, sli :: rest =>
      if s.stopScanning then s
      else
        let sc :=
          { sc with
            pending := rest
            scanShareFlags := ⟨false, false, sc.scanAllFlags.rebuildBloom⟩ }
        enterDir { s with fileCounter := 0 } sc ⟨sli, []⟩ [] sli.realPath
    | _, _ => s
  | none => s

/-- `scanDir` for an entry that is a directory: `fr` is the activation and `dir` its directory. -/
def scanSubdir (sc : Scan TTH) (a : ActiveShare) (fr : Frame) (frs : List Frame) (dir : SharedDir)
    (e : FileFindItem) : ShareManager TTH :=
  let lowerName := env.toLower e.fileName
  let fullPath := fr.path ++ e.fileName ++ [pathSeparator]
  if sc.isDirectoryExcludedL fullPath then s
  else
    match dir.child? lowerName with
    | some _ =>
      let fr := { fr with foundDirs := fr.foundDirs + 1 }
      let item :=
        { a.item with dir := a.item.dir.modifyAt fr.dirPath (SharedDir.clearDirNotFound lowerName) }
      enterDir s sc ⟨item, fr :: frs⟩ (fr.dirPath ++ [lowerName]) fullPath
    | none =>
      let item :=
        { a.item with
          dir := a.item.dir.modifyAt fr.dirPath fun d =>
            d.mapDirs (SharedDir.insertDir (.new lowerName e.fileName)) }
      let sc :=
        { sc with
          -- the name that is added is the one of `dir`, not of the new directory
          bloomNew :=
            if sc.scanShareFlags.rebuildBloom then sc.bloomNew
            else sc.bloomNew.add (env.lowerName dir.node.name)
          scanShareFlags := { sc.scanShareFlags with added := true } }
      enterDir s sc ⟨item, fr :: frs⟩ (fr.dirPath ++ [lowerName]) fullPath

/-- The file is the one of the entry, and it has been looked at already. -/
def isUnchanged (sc : Scan TTH) (file : SharedFile) (e : FileFindItem) : Bool :=
  file.size = e.size && file.timestamp = e.timestamp &&
    (!sc.forceUpdateMediaInfo || (s.fileState file.id).mediaInfo.isSome ||
      sc.mediaInfoFileTypes &&& file.typesMask = 0)

/-- `scanDir` for an entry that is a file which is new or has changed. -/
def scanNewFile (sc : Scan TTH) (a : ActiveShare) (fr : Frame) (frs : List Frame)
    (e : FileFindItem) (oldSize : Int) : ShareManager TTH :=
  let lowerName := env.toLower e.fileName
  let types := env.getFileTypes e.fileName
  let file : SharedFile := ⟨s.nextFile, e.fileName, e.size, types, e.timestamp⟩
  let fr :=
    { fr with
      filesTypesMask := fr.filesTypesMask ||| types
      deltaSize := fr.deltaSize + (e.size - oldSize) }
  let item :=
    { a.item with dir := a.item.dir.modifyFiles fr.dirPath (assignFile lowerName file) }
  let sc :=
    { sc with
      active := some ⟨item, fr :: frs⟩
      bloomNew :=
        if sc.scanShareFlags.rebuildBloom then sc.bloomNew
        else sc.bloomNew.add (env.lowerName e.fileName)
      filesToHash := sc.filesToHash ++ [(file, fr.path ++ e.fileName)]
      scanShareFlags := { sc.scanShareFlags with added := true } }
  { s.newFile ⟨default, true, false, 0, none⟩ with scan := some sc }

/-- `scanDir` for an entry that is a file. -/
def scanFile (sc : Scan TTH) (a : ActiveShare) (fr : Frame) (frs : List Frame) (dir : SharedDir)
    (e : FileFindItem) : ShareManager TTH :=
  let s := { s with fileCounter := s.fileCounter + 1 }
  match dir.file? (env.toLower e.fileName) with
  | none => scanNewFile env s sc a fr frs e 0
  | some file =>
    let fr :=
      { fr with
        foundFiles := fr.foundFiles + 1
        filesTypesMask := fr.filesTypesMask ||| file.typesMask }
    if isUnchanged s sc file e then
      let sc :=
        { sc with
          active := some ⟨a.item, fr :: frs⟩
          tthIndexNew := sc.tthIndexNew ++
            [⟨(s.fileState file.id).tth, ⟨a.item.tree, fr.dirPath⟩, file⟩] }
      { s.modifyFile file.id fun st => { st with notFound := false } with scan := some sc }
    else scanNewFile env s sc a fr frs e file.size

/-- The loop of `scanDir` takes an entry of the directory. -/
def scanEntry (e : FileFindItem) : ShareManager TTH :=
  match s.scan with
  | none => s
  | some sc =>
    match sc.active with
    | some a =>
      match a.frames with
      | fr :: frs =>
        if s.stopScanning || e.skipped || e.fileName = [] then s
        else
          match a.item.dir.find? fr.dirPath with
          | none => s
          | some dir =>
            if e.isDirectory then scanSubdir env s sc a fr frs dir e
            else scanFile env s sc a fr frs dir e
      | [] => s
    | none => s

/-- What the end of `scanDir` erases: the files and the subdirectories that were not found. -/
structure Erased where
  dir : SharedDir
  deltaSize : Int
  flags : ScanFlags

/-- The loops at the end of `scanDir` over `files` and `dirs`. -/
def eraseNotFound (sc : Scan TTH) (fr : Frame) (dir : SharedDir) : Erased :=
  let files := dir.node.files
  let lostFiles :=
    if fr.foundFiles < fr.countFiles then
      files.filter fun kf => (s.fileState kf.2.id).notFound
    else []
  let lostDirs :=
    if fr.foundDirs < fr.countDirs then dir.dirs.filter fun d => d.node.notFound else []
  let keptFiles :=
    if fr.foundFiles < fr.countFiles then
      files.filter fun kf => !(s.fileState kf.2.id).notFound
    else files
  let keptDirs :=
    if fr.foundDirs < fr.countDirs then dir.dirs.filter fun d => !d.node.notFound else dir.dirs
  let removed := lostFiles ≠ [] ∨ lostDirs ≠ []
  { dir := .mk { dir.node with files := keptFiles } keptDirs
    deltaSize :=
      fr.deltaSize - (lostFiles.map fun kf => kf.2.size).sum -
        (lostDirs.map fun d => d.node.totalSize).sum
    flags := sc.scanShareFlags.or ⟨false, removed, removed⟩ }

/-- The tree after the end of `scanDir`. -/
def closeDir (fr : Frame) (erased : Erased) (root : SharedDir) : SharedDir :=
  let root := root.modifyAt fr.dirPath fun _ => erased.dir
  let root := if erased.deltaSize = 0 then root else root.updateSize erased.deltaSize fr.dirPath
  if erased.flags.removed then (root.updateTypes fr.filesTypesMask fr.dirsTypesMask fr.dirPath).1
  else (root.addTypes fr.filesTypesMask fr.dirsTypesMask fr.dirPath).1

/-- The end of `scanDir`. -/
def scanDirEnd : ShareManager TTH :=
  match s.scan with
  | none => s
  | some sc =>
    match sc.active with
    | some a =>
      match a.frames with
      | fr :: frs =>
        match a.item.dir.find? fr.dirPath with
        | none => s
        | some dir =>
          let erased := eraseNotFound s sc fr dir
          let root := closeDir fr erased a.item.dir
          let types := ((root.find? fr.dirPath).map SharedDir.getTypes).getD 0
          match frs with
          | parent :: frs =>
            let parent := { parent with dirsTypesMask := parent.dirsTypesMask ||| types }
            { s with
              scan := some
                { sc with
                  active := some ⟨{ a.item with dir := root }, parent :: frs⟩
                  scanShareFlags := erased.flags } }
          | [] =>
            let item :=
              { a.item with
                dir := root, totalFiles := s.fileCounter
                flags := { erased.flags with rebuildBloom := false } }
            { s with
              scan := some
                { sc with
                  scanned := sc.scanned ++ [item]
                  active := none
                  scanShareFlags := erased.flags
                  scanAllFlags := sc.scanAllFlags.or erased.flags } }
      | [] => s
    | none => s

/-- What the loop of the publication leaves. -/
def published (sc : Scan TTH) : Published := publishShares env s.shares sc.newShares false

/-- `scanAllFlags` after the publication. -/
def publishedFlags (sc : Scan TTH) : ScanFlags :=
  if (published env s sc).newShares = [] then sc.scanAllFlags
  else sc.scanAllFlags.or ⟨false, true, true⟩

/-- The publication builds the TTH index anew. -/
def updatesIndex (sc : Scan TTH) : Bool :=
  (published env s sc).updateIndex || !(published env s sc).newShares.isEmpty

/-- The critical section of the publication, and the files that are given to `HashManager`. -/
def publish (sc : Scan TTH) : ShareManager TTH :=
  let shares := (published env s sc).shares
  let s' :=
    { s with
      shares := shares
      shareListChanged := (published env s sc).updateIndex
      tthIndex :=
        if updatesIndex env s sc then
          shares.flatMap fun i => updateIndexDirL s.fileState i.tree i.dir
        else sc.tthIndexNew
      hashQueue := s.hashQueue ++ sc.filesToHash
      scan := none }
  if (publishedFlags env s sc).rebuildBloom then updateBloomL env s'
  else { s' with bloom := sc.bloomNew }

/-- The scan that ends when it is published now. -/
def publishing : Option (Scan TTH) :=
  s.scan.filter fun sc => sc.active.isNone && (sc.pending.isEmpty || s.stopScanning)

/-- The end of `scanDirs`, when all shares have been scanned or the scan is stopped. -/
def scanPublish : ShareManager TTH :=
  match s.scan with
  | none => s
  | some sc =>
    if sc.active.isNone && (sc.pending.isEmpty || s.stopScanning) then publish env s sc else s

/-! ### What `HashManager` reports -/

/-- `on(FileHashed)`, of the file at a place of the queue. -/
def fileHashed (n : Nat) (root : TTH) (mediaInfo : Option MediaInfo) (currentTime : Nat) :
    ShareManager TTH :=
  match s.hashQueue[n]? with
  | none => s
  | some (file, path) =>
    let s := { s with hashQueue := s.hashQueue.eraseIdx n }
    let s := s.modifyFile file.id fun st =>
      { st with
        tth := root, hashFile := false, timeShared := currentTime
        mediaInfo := mediaInfo <|> st.mediaInfo }
    match findFileByRealPathL env s (env.toLower path) with
    | none => s
    | some (ptr, _) => { s with tthIndex := s.tthIndex ++ [⟨root, ptr, file⟩] }

/-- `on(HashingError)`, of the file at a place of the queue. -/
def hashingError (n : Nat) : ShareManager TTH :=
  match s.hashQueue[n]? with
  | none => s
  | some (_, path) =>
    let s := { s with hashQueue := s.hashQueue.eraseIdx n }
    match findFileByRealPathL env s (env.toLower path) with
    | none => s
    | some (ptr, stored) =>
      s.modifyTree ptr.tree
        (SharedDir.modifyFiles ptr.path (eraseFile (env.lowerName stored.name)))

/-- `HashManager` drops the file at a place of the queue. -/
def hashingStopped (n : Nat) : ShareManager TTH :=
  { s with hashQueue := s.hashQueue.eraseIdx n }

end ShareManager

/-- An operation of `ShareManager`, a step of the thread of `scanDirs` or a report of
`HashManager`. -/
inductive Op (TTH : Type) where
  | addDirectory (realPath virtualName : List UInt8) (accepted : Bool)
  | removeDirectory (realPath : List UInt8)
  | renameDirectory (realPath virtualName : List UInt8)
  | addExcludeFolder (path : List UInt8)
  | removeExcludeFolder (path : List UInt8)
  | addFile (path : List UInt8) (root : TTH) (found : Option (Nat × Int)) (currentTime : Nat)
  | scanStart (forceUpdateMediaInfo : Bool) (mediaInfoFileTypes : Nat)
  | scanShare
  | scanEntry (e : FileFindItem)
  | scanDirEnd
  | scanPublish
  | fileHashed (n : Nat) (root : TTH) (mediaInfo : Option MediaInfo) (currentTime : Nat)
  | hashingError (n : Nat)
  | hashingStopped (n : Nat)
  | shutdown

/-- A step of loading, or an operation. -/
inductive Event (TTH : Type) where
  | loadShare (realPath virtualAttr : List UInt8) (isExist : Bool)
  | loadExclude (path : List UInt8)
  | loadDir (filename : List UInt8) (data : Bool)
  | loadFile (attr : ShareManager.SharedItemAttribs TTH)
  | loadDirEnd (data : Bool)
  | op (o : Op TTH)

namespace ShareManager

variable {TTH : Type} [Inhabited TTH]

/-- What an operation does to the state. -/
def perform (env : Env) (s : ShareManager TTH) : Op TTH → ShareManager TTH
  | .addDirectory realPath virtualName accepted => addDirectory env s realPath virtualName accepted
  | .removeDirectory realPath => removeDirectory env s realPath
  | .renameDirectory realPath virtualName => renameDirectory env s realPath virtualName
  | .addExcludeFolder path => addExcludeFolder s path
  | .removeExcludeFolder path => removeExcludeFolder s path
  | .addFile path root found currentTime => addFile env s path root found currentTime
  | .scanStart force types => scanStart s force types
  | .scanShare => scanShare s
  | .scanEntry e => scanEntry env s e
  | .scanDirEnd => scanDirEnd s
  | .scanPublish => scanPublish env s
  | .fileHashed n root mediaInfo currentTime => fileHashed env s n root mediaInfo currentTime
  | .hashingError n => hashingError env s n
  | .hashingStopped n => hashingStopped s n
  | .shutdown => { s with stopScanning := s.stopScanning || s.scan.isSome }

/-- What an event does to the state. -/
def step (env : Env) (s : ShareManager TTH) : Event TTH → ShareManager TTH
  | .loadShare realPath virtualAttr isExist => loadShare env s realPath virtualAttr isExist
  | .loadExclude path => (addExcludeFolderL s (appendPathSeparator path)).getD s
  | .loadDir filename data => loadSharedDir env s filename data
  | .loadFile attr => loadSharedFile env s attr
  | .loadDirEnd data => loadDirEnd s data
  | .op o => perform env s o

end ShareManager

end Blacklink.Share
