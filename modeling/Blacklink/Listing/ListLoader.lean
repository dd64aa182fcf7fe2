import Blacklink.Listing.Directory
import Blacklink.Text.Base32
import Blacklink.Xml.SimpleXMLReader

/-!
# Loading a file list

Model of `ListLoader` and `DirectoryListing::loadXML` (`client/DirectoryListing.cpp:177-639`) for a
listing that has a root. A document is what the reader calls back with, so it is one whose elements
are closed. The user of the list, `IncludeSelf`, `incomplete` and `hasTimestampsFlag`, the progress
and the requests to abort are left out.
-/

namespace Blacklink.Listing

open Blacklink.Base Blacklink.Text Blacklink.Xml
open Blacklink.Share (TTHValue)

/-- `sortList`: `std::sort` by names, as the platform compares them. -/
structure Sorting where
  dirs : List Directory → List Directory
  files : List File → List File
  dirs_perm : ∀ l, (dirs l).Perm l
  files_perm : ∀ l, (files l).Perm l

/-- What `HashDatabaseConnection::getFileInfo` gives: the flags and the upload counter. -/
structure HashFileInfo where
  shared : Bool
  downloaded : Bool
  canceled : Bool
  uploadCount : BitVec 32

/-- What a `ListLoader` finds out from elsewhere. The flags of the scan are the ones of
`scanOptions`, and `hashDb` is there if a connection was to be had. -/
structure LoadEnv where
  sorting : Sorting
  ownList : Bool
  useUploadCounter : Bool
  scanShared : Bool
  scanDownloaded : Bool
  scanCanceled : Bool
  isQueued : TTHValue → Bool
  isShared : TTHValue → Bool
  hashDb : Option (TTHValue → HashFileInfo)

/-- A directory that is being loaded, with the directories it has so far. -/
structure OpenDir where
  info : DirInfo
  dirs : List Directory

/-- `ListLoader` with the members of the listing it changes. `open_` are the directories from
`current` up to, but without, the root. -/
structure ListLoader where
  basePath : List UInt8
  root : OpenDir
  inListing : Bool
  emptyFileNameCounter : Nat
  open_ : List OpenDir

/-- `isValidName`. -/
def isValidName (name : List UInt8) : Bool :=
  if name = [] then false
  else if name = ascii "." ∨ name = ascii ".." then false
  else if '/'.toUInt8 ∈ name ∨ '\\'.toUInt8 ∈ name then false
  else true

/-- `SimpleXMLReader::CallBack::getAttrib`: the attributes from the hint on come first. -/
def getAttrib (attribs : StringPairList) (name : List UInt8) (hint : Nat) : List UInt8 :=
  match (attribs.drop hint).find? fun a => a.1 = name with
  | some a => a.2
  | none => (((attribs.take hint).find? fun a => a.1 = name).map Prod.snd).getD []

/-- The last value that is not empty of the attributes with one of the names. -/
def lastValue (attribs : StringPairList) (names : List (List UInt8)) : Option (List UInt8) :=
  (attribs.reverse.find? fun a => a.1 ∈ names ∧ a.2 ≠ []).map Prod.snd

/-- `toUInt32`. -/
def toUInt32 (s : List UInt8) : BitVec 32 :=
  match s.dropWhile isWhiteSpace with
  | 0x2b :: s => BitVec.ofNat 32 (digitsValue s)
  | s => BitVec.ofNat 32 (digitsValue s)

/-- `fromBase32` for a hash, if all the characters of the string are digits. -/
def tthOfBase32 (s : List UInt8) : Option TTHValue :=
  if (s.takeWhile (· ≠ 0)).all fun c => (base32Value c).isSome then
    some ⟨⟨(fromBase32 s 24).toArray, by simp [length_fromBase32]⟩⟩
  else none

/-- The name, size and hash that a tag stands for, if it is not passed over. -/
def readFile (ownList : Bool) (attribs : StringPairList) :
    Option (List UInt8 × Int × TTHValue) := do
  let valSize ← lastValue attribs [ascii "Size"]
  let valTTH ← lastValue attribs [ascii "TTH"]
  if valTTH.length ≠ 39 then none
  let tth ← tthOfBase32 valTTH
  if ownList = false ∧ tth = default then none
  if toInt64 valSize < 0 then none
  match lastValue attribs [ascii "Name"] with
  | some valFilename =>
    some (if isValidName valFilename then valFilename else valTTH, toInt64 valSize, tth)
  | none => some (valTTH, toInt64 valSize, tth)

/-- The date of a file in the directory. -/
def readShared (current : DirInfo) (attribs : StringPairList) : Int :=
  match lastValue attribs [ascii "Shared"] with
  | some valShared =>
    let val := Int.bmod (toInt64 valShared - 116444736000000000) (2 ^ 64)
    if val > 0 then val / 10000000 else 0
  | none =>
    match lastValue attribs [ascii "TS", ascii "Date"] with
    | some valTS => if toInt64 valTS > 0 then toInt64 valTS else 0
    | none => if .dirTimestamp ∈ current.flags then current.maxTS else 0

/-- The bitrate of a file, or 0. -/
def readBitrate (attribs : StringPairList) : Nat :=
  match lastValue attribs [ascii "BR"] with
  | some valBR => (toUInt32 valBR).toNat % 2 ^ 16
  | none => 0

namespace LoadEnv

variable (env : LoadEnv)

/-- The flags of a file that is not empty in the list of another user, and the ones its directory
gets with it. -/
def fileFlags (tth : TTHValue) : Flags × Flags :=
  let queued : Flags × Flags := if env.isQueued tth then ({.queued}, {.hasQueued}) else (∅, ∅)
  let status : Flags × Flags :=
    if env.scanShared && env.isShared tth then ({.shared}, {.hasShared})
    else if env.scanDownloaded || env.scanCanceled then
      match env.hashDb, decide (tth = default) with
      | some getFileInfo, false =>
        if (getFileInfo tth).shared && env.scanShared then ({.shared}, {.hasShared})
        else if (getFileInfo tth).downloaded && env.scanDownloaded then
          ({.downloaded}, {.hasDownloaded})
        else if (getFileInfo tth).canceled && env.scanCanceled then ({.canceled}, {.hasCanceled})
        else (∅, {.hasOther})
      | _, _ => (∅, {.hasOther})
    else (∅, {.hasOther})
  (queued.1 ∪ status.1, queued.2 ∪ status.2)

/-- The upload counter of a file: the one in the list, or one's own. -/
def uploadCount (attribs : StringPairList) (size : Int) (tth : TTHValue) : BitVec 32 :=
  if env.ownList then
    if size ≠ 0 && env.useUploadCounter && tth ≠ default then
      match env.hashDb with
      | some getFileInfo => (getFileInfo tth).uploadCount
      | none => 0
    else 0
  else
    match lastValue attribs [ascii "HIT"] with
    | some valHit => toUInt32 valHit
    | none => 0

/-- `startTag` for a file: it is added to the directory that is being loaded. -/
def addFile (attribs : StringPairList) (current : DirInfo) : DirInfo :=
  match readFile env.ownList attribs with
  | none => current
  | some (name, size, tth) =>
    let flags := if size ≠ 0 ∧ env.ownList = false then env.fileFlags tth else (∅, ∅)
    let f : File :=
      { name, size, tth
        uploadCount := env.uploadCount attribs size tth
        ts := readShared current attribs
        bitrate := readBitrate attribs
        flags := flags.1 }
    let d := current.addFile f
    { d with flags := d.flags ∪ flags.2 }

end LoadEnv

/-- The directory when its end tag is read. -/
def OpenDir.close (env : LoadEnv) (d : OpenDir) : Directory :=
  let u := d.info.updateSubDirs d.dirs
  .node
    { u.1 with
      flags := u.1.flags \ {.dirTimestamp} ∪ u.2
      files := env.sorting.files u.1.files }
    (env.sorting.dirs d.dirs)

/-- The directory when the end tag of the list is read. -/
def OpenDir.closeListing (env : LoadEnv) (d : OpenDir) : OpenDir :=
  ⟨(d.info.updateSubDirs d.dirs).1, env.sorting.dirs d.dirs⟩

namespace ListLoader

variable (env : LoadEnv)

/-- `ListLoader()` with an empty listing. -/
def new : ListLoader := ⟨ascii "/", ⟨.new [] true, []⟩, false, 0, []⟩

/-- Change the directory that is being loaded. -/
def modifyCurrent (f : OpenDir → OpenDir) (st : ListLoader) : ListLoader :=
  match st.open_ with
  | [] => { st with root := f st.root }
  | d :: outer => { st with open_ := f d :: outer }

/-- The directory that is being loaded. -/
def current (st : ListLoader) : OpenDir := st.open_.headD st.root

/-- `endTag` for a directory. There is one that is open, since every end tag has a start tag. -/
def closeDirectory (st : ListLoader) : ListLoader :=
  match st.open_ with
  | [] => st
  | d :: outer =>
    modifyCurrent (fun cur => { cur with dirs := cur.dirs ++ [d.close env] })
      { st with open_ := outer }

/-- `endTag`. -/
def endTag (st : ListLoader) (name : List UInt8) : ListLoader :=
  if st.inListing = false then st
  else if name = ascii "Directory" then closeDirectory env st
  else if name = ascii "FileListing" then
    { modifyCurrent (OpenDir.closeListing env) st with inListing := false }
  else st

/-- The directory that a start tag stands for, with its number if the name is replaced. -/
def readDirectory (counter : Nat) (attribs : StringPairList) : DirInfo × Nat :=
  let fileName := getAttrib attribs (ascii "Name") 0
  let incomp : Bool := getAttrib attribs (ascii "Incomplete") 1 = ascii "1"
  let valDate := getAttrib attribs (ascii "Date") 1
  let d : DirInfo × Nat :=
    if isValidName fileName then (.new fileName !incomp, counter)
    else (.new (ascii "invalid_folder_name_" ++ natToString (counter + 1)) !incomp, counter + 1)
  if valDate ≠ [] ∧ toInt64 valDate > 0 then
    ({ d.1 with maxTS := toInt64 valDate, flags := {.dirTimestamp} }, d.2)
  else d

/-- There is nothing in a directory that begins. -/
theorem readDirectory_spec (counter : Nat) (attribs : StringPairList) :
    (readDirectory counter attribs).1.files = [] ∧ (readDirectory counter attribs).1.totals = 0 ∧
      (readDirectory counter attribs).1.adls = false ∧
      (readDirectory counter attribs).1.flags ⊆ {.dirTimestamp} := by
  unfold readDirectory
  dsimp only
  split
  · split
    · exact ⟨rfl, rfl, rfl, subset_rfl⟩
    · exact ⟨rfl, rfl, rfl, subset_rfl⟩
  · split
    · exact ⟨rfl, rfl, rfl, Finset.empty_subset _⟩
    · exact ⟨rfl, rfl, rfl, Finset.empty_subset _⟩

/-- `startTag` for a directory. -/
def openDirectory (st : ListLoader) (attribs : StringPairList) : ListLoader :=
  let d := readDirectory st.emptyFileNameCounter attribs
  { st with open_ := ⟨d.1, []⟩ :: st.open_, emptyFileNameCounter := d.2 }

/-- `startTag` for the list. -/
def openListing (st : ListLoader) (attribs : StringPairList) : ListLoader :=
  let b := getAttrib attribs (ascii "Base") 2
  let isPath : Bool := b.head? = some '/'.toUInt8 && b.getLast? = some '/'.toUInt8
  { st with basePath := if isPath then b else st.basePath, inListing := true }

/-- `startTag`. -/
def startTag (st : ListLoader) (name : List UInt8) (attribs : StringPairList) (simple : Bool) :
    ListLoader :=
  if st.inListing then
    if name = ascii "File" then
      modifyCurrent (fun cur => { cur with info := env.addFile attribs cur.info }) st
    else if name = ascii "Directory" then
      let st := openDirectory st attribs
      if simple then endTag env st name else st
    else st
  else if name = ascii "FileListing" then
    let st := openListing st attribs
    if simple then endTag env st name else st
  else st

/-- A call of the `CallBack`. -/
def step (st : ListLoader) : Event → ListLoader
  | .startTag name attribs simple => startTag env st name attribs simple
  | .endTag name _ => endTag env st name

/-- What holds of all directories that are being loaded. -/
def Forall (P : OpenDir → Prop) (st : ListLoader) : Prop := P st.root ∧ ∀ d ∈ st.open_, P d

variable {env} in
theorem Forall.modifyCurrent {P : OpenDir → Prop} {f : OpenDir → OpenDir}
    (hf : ∀ d, P d → P (f d)) {st : ListLoader} (h : st.Forall P) :
    (st.modifyCurrent f).Forall P := by
  unfold ListLoader.modifyCurrent
  cases hopen : st.open_ with
  | nil =>
    exact ⟨hf _ h.1, fun _ hd => absurd hd List.not_mem_nil⟩
  | cons d outer =>
    have hopened := h.2
    rw [hopen, List.forall_mem_cons] at hopened
    exact ⟨h.1, List.forall_mem_cons.mpr ⟨hf d hopened.1, hopened.2⟩⟩

/-- What a call keeps of all directories that are being loaded: it is enough to look at a file that
is added, a new directory, one that is closed, and the end of the list. -/
theorem Forall.step {P : OpenDir → Prop}
    (hfile : ∀ attribs d, P d → P { d with info := env.addFile attribs d.info })
    (hnew : ∀ counter attribs, P ⟨(readDirectory counter attribs).1, []⟩)
    (hclose : ∀ cur d, P cur → P d → P { cur with dirs := cur.dirs ++ [d.close env] })
    (hlisting : ∀ d, P d → P (d.closeListing env)) {st : ListLoader} (h : st.Forall P)
    (e : Event) : (st.step env e).Forall P := by
  have hend {st : ListLoader} (h : st.Forall P) (name : List UInt8) :
      (st.endTag env name).Forall P := by
    unfold endTag
    split
    · exact h
    · split
      · unfold closeDirectory
        cases hopen : st.open_ with
        | nil => exact h
        | cons d outer =>
          have hopened := h.2
          rw [hopen, List.forall_mem_cons] at hopened
          refine Forall.modifyCurrent (fun cur hcur => hclose cur d hcur hopened.1) ?_
          exact ⟨h.1, hopened.2⟩
      · split
        · exact h.modifyCurrent hlisting
        · exact h
  cases e with
  | endTag name data => exact hend h name
  | startTag name attribs simple =>
    have hopen : (st.openDirectory attribs).Forall P :=
      ⟨h.1, List.forall_mem_cons.mpr ⟨hnew _ _, h.2⟩⟩
    show (st.startTag env name attribs simple).Forall P
    unfold startTag
    split
    · split
      · exact h.modifyCurrent (hfile attribs)
      · split
        · dsimp only
          split
          · exact hend hopen name
          · exact hopen
        · exact h
    · split
      · dsimp only
        split
        · exact @hend (st.openListing attribs) h name
        · exact h
      · exact h

end ListLoader

/-- The calls for elements that are all closed. -/
inductive Nested : List Event → Prop
  | nil : Nested []
  | simple (name : List UInt8) (attribs : StringPairList) {es : List Event} (rest : Nested es) :
    Nested (.startTag name attribs true :: es)
  | element (name : List UInt8) (attribs : StringPairList) (data : List UInt8)
    {inner es : List Event} (content : Nested inner) (rest : Nested es) :
    Nested (.startTag name attribs false :: (inner ++ .endTag name data :: es))

/-- A list of another user is loaded when nothing of it is known. -/
def LoadEnv.plain : LoadEnv where
  sorting := ⟨id, id, fun _ => .refl _, fun _ => .refl _⟩
  ownList := false
  useUploadCounter := false
  scanShared := false
  scanDownloaded := false
  scanCanceled := false
  isQueued := fun _ => false
  isShared := fun _ => false
  hashDb := none

/-- What a document that the reader does not throw on calls back with. -/
structure Document where
  events : List Event
  nested : Nested events

/-- A file with the name, of one byte. -/
def fileTag (name : List UInt8) : Event :=
  .startTag (ascii "File")
    [(ascii "Name", name), (ascii "Size", ascii "1"), (ascii "TTH", List.replicate 39 0x42)] true

/-- A directory of the name with what is in it. -/
def dirTags (name : List UInt8) (content : List Event) : List Event :=
  .startTag (ascii "Directory") [(ascii "Name", name)] false ::
    (content ++ [.endTag (ascii "Directory") []])

/-- A list with the path and the content. -/
def listTags (base : List UInt8) (content : List Event) : List Event :=
  .startTag (ascii "FileListing") [(ascii "Base", base)] false ::
    (content ++ [.endTag (ascii "FileListing") []])

/-- A list with the path and nothing in it. -/
def emptyListAt (base : List UInt8) : Document where
  events := listTags base []
  nested := .element _ _ _ .nil .nil

/-- A list with the file `a/b/x`. -/
def nestedList : Document where
  events := listTags (ascii "/") (dirTags (ascii "a") (dirTags (ascii "b") [fileTag (ascii "x")]))
  nested := .element _ _ _ (.element _ _ _ (.element _ _ _ (.simple _ _ .nil) .nil) .nil) .nil

/-- `DirectoryListing`. -/
structure DirectoryListing where
  basePath : List UInt8
  root : Directory

/-- `DirectoryListing()`. -/
def DirectoryListing.new : DirectoryListing := ⟨[], .node (.new [] true) []⟩

/-- The loader when all of a document is read. -/
def loader (env : LoadEnv) (doc : Document) : ListLoader :=
  doc.events.foldl (ListLoader.step env) .new

/-- The directories in what they have been opened in, with `sub` in the first of them. -/
def attach : List OpenDir → List Directory → OpenDir → Directory
  | [], sub, root => .node root.info (root.dirs ++ sub)
  | d :: outer, sub, root => attach outer [.node d.info (d.dirs ++ sub)] root

/-- `loadXML` into a listing that is empty. A directory is in its parent from its start tag on, so
those that are still open are there. -/
def loadXML (env : LoadEnv) (doc : Document) : DirectoryListing :=
  let st := loader env doc
  ⟨st.basePath, attach st.open_ [] st.root⟩

end Blacklink.Listing
