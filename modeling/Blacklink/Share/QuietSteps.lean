import Blacklink.Share.FileList
import Blacklink.Share.Heads

/-!
# Steps that leave the shares alone

The thread of `scanDirs` goes through copies of the trees before it publishes them, so it changes
nothing that a list of files shows; and what is hashed, added or loaded changes files, but neither
the names nor the versions of the shares (`client/ShareManager.cpp:429-627, 1188-1230, 2786-3040,
3419-3457`).
-/

namespace Blacklink.Share

/-- A step of the thread of `scanDirs` before the publication, or one that stops something. -/
def Event.isQuiet {TTH : Type} : Event TTH → Bool
  | .op (.scanStart _ _) | .op .scanShare | .op (.scanEntry _) | .op .scanDirEnd
  | .op (.hashingStopped _) | .op .shutdown => true
  | _ => false

/-- A step that may change files, but neither names nor versions of shares. -/
def Event.changesFiles {TTH : Type} : Event TTH → Bool
  | .loadDir _ _ | .loadFile _ | .loadDirEnd _ | .op (.addFile _ _ _ _)
  | .op (.fileHashed _ _ _ _) | .op (.hashingError _) => true
  | _ => false

/-- The shares are the same, and so are the files there have been but for `FLAG_NOT_FOUND`. -/
structure QuietStep (s s' : ShareManager TTHValue) : Prop where
  shares : s'.shares = s.shares
  shareGroups : s'.shareGroups = s.shareGroups
  fileState : ∀ id, id < s.nextFile → (s'.fileState id).SameListed (s.fileState id)

namespace QuietStep

variable {env : Env} {s : ShareManager TTHValue}

theorem refl (s : ShareManager TTHValue) : QuietStep s s :=
  ⟨rfl, rfl, fun _ _ => ⟨rfl, rfl, rfl, rfl⟩⟩

/-- The number of files that have been seen does not matter. -/
theorem of_fileCounter {n : Nat} {s' : ShareManager TTHValue}
    (h : QuietStep { s with fileCounter := n } s') : QuietStep s s' :=
  ⟨h.shares, h.shareGroups, h.fileState⟩

theorem enterDir (s : ShareManager TTHValue) (sc : Scan TTHValue) (a : ActiveShare)
    (dirPath : DirPath) (path : List UInt8) : QuietStep s (s.enterDir sc a dirPath path) := by
  unfold ShareManager.enterDir
  split
  · exact refl s
  · constructor
    · rfl
    · rfl
    · intro id _
      dsimp only
      split <;> exact ⟨rfl, rfl, rfl, rfl⟩

theorem scanNewFile (sc : Scan TTHValue) (a : ActiveShare) (fr : Frame) (frs : List Frame)
    (e : FileFindItem) (oldSize : Int) :
    QuietStep s (s.scanNewFile env sc a fr frs e oldSize) := by
  unfold ShareManager.scanNewFile
  constructor
  · rfl
  · rfl
  · intro id hid
    dsimp only [ShareManager.newFile]
    rw [Function.update_of_ne hid.ne]
    exact ⟨rfl, rfl, rfl, rfl⟩

theorem scanFile (sc : Scan TTHValue) (a : ActiveShare) (fr : Frame) (frs : List Frame)
    (dir : SharedDir) (e : FileFindItem) :
    QuietStep s (s.scanFile env sc a fr frs dir e) := by
  unfold ShareManager.scanFile
  dsimp only
  split
  · exact of_fileCounter (scanNewFile sc a fr frs e 0)
  next file _ =>
  split
  · constructor
    · rfl
    · rfl
    · intro id _
      dsimp only [ShareManager.modifyFile]
      by_cases hid : id = file.id
      · rw [hid, Function.update_self]
        exact ⟨rfl, rfl, rfl, rfl⟩
      · rw [Function.update_of_ne hid]
        exact ⟨rfl, rfl, rfl, rfl⟩
  · exact of_fileCounter (scanNewFile sc a _ frs e _)

theorem scanSubdir (sc : Scan TTHValue) (a : ActiveShare) (fr : Frame) (frs : List Frame)
    (dir : SharedDir) (e : FileFindItem) :
    QuietStep s (s.scanSubdir env sc a fr frs dir e) := by
  unfold ShareManager.scanSubdir
  dsimp only
  split
  · exact refl s
  split
  · exact enterDir s _ _ _ _
  · exact enterDir s _ _ _ _

theorem scanEntry (e : FileFindItem) : QuietStep s (s.scanEntry env e) := by
  unfold ShareManager.scanEntry
  split
  · exact refl s
  split
  · split
    · split
      · exact refl s
      split
      · exact refl s
      split
      · exact scanSubdir _ _ _ _ _ e
      · exact scanFile _ _ _ _ _ e
    · exact refl s
  · exact refl s

theorem scanShare : QuietStep s s.scanShare := by
  unfold ShareManager.scanShare
  split
  · split
    · split
      · exact refl s
      · exact of_fileCounter (enterDir _ _ _ _ _)
    · exact refl s
  · exact refl s

theorem scanDirEnd : QuietStep s s.scanDirEnd := by
  unfold ShareManager.scanDirEnd
  split
  · exact refl s
  split
  · split
    · split
      · exact refl s
      · dsimp only
        split
        · exact ⟨rfl, rfl, fun _ _ => ⟨rfl, rfl, rfl, rfl⟩⟩
        · exact ⟨rfl, rfl, fun _ _ => ⟨rfl, rfl, rfl, rfl⟩⟩
    · exact refl s
  · exact refl s

theorem step {e : Event TTHValue} (he : e.isQuiet = true) : QuietStep s (s.step env e) := by
  match e with
  | .op (.scanStart force types) =>
    change QuietStep s (s.scanStart force types)
    unfold ShareManager.scanStart
    split
    · exact refl s
    · exact ⟨rfl, rfl, fun _ _ => ⟨rfl, rfl, rfl, rfl⟩⟩
  | .op .scanShare => exact scanShare
  | .op (.scanEntry e) => exact scanEntry e
  | .op .scanDirEnd => exact scanDirEnd
  | .op (.hashingStopped n) => exact ⟨rfl, rfl, fun _ _ => ⟨rfl, rfl, rfl, rfl⟩⟩
  | .op .shutdown => exact ⟨rfl, rfl, fun _ _ => ⟨rfl, rfl, rfl, rfl⟩⟩

end QuietStep

/-- A step that only changes files keeps the list of shares. -/
theorem keepsList_of_changesFiles (env : Env) (s : ShareManager TTHValue) {e : Event TTHValue}
    (he : e.changesFiles = true) : KeepsList s (s.step env e) := by
  match e with
  | .loadDir filename data => exact .loadSharedDir env s filename data
  | .loadFile attr => exact .loadSharedFile env s attr
  | .loadDirEnd data => exact .loadDirEnd s data
  | .op (.addFile path root found currentTime) => exact .addFile env s path root found currentTime
  | .op (.fileHashed n root mediaInfo currentTime) =>
    exact .fileHashed env s n root mediaInfo currentTime
  | .op (.hashingError n) => exact .hashingError env s n

end Blacklink.Share
