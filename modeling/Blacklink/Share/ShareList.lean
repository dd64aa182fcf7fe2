import Blacklink.Base.Appends
import Blacklink.Share.FileList
import Blacklink.Share.ListChanges
import Blacklink.Text.Base32

/-!
# The saved list of shares

Model of `saveShareList` (`client/ShareManager.cpp:1232-1269`) and of `loadShareList`
(`client/ShareManager.cpp:261-345`), as trees of XML. What is written and read is the path and the
virtual name of each share, the exclusions, and the id, the name and the paths of each group.
-/

namespace Blacklink.Share

open Blacklink.Base Blacklink.Text Blacklink.Xml

/-! ### Saving and loading -/

/-- `getAttrib`. -/
def getAttrib (attribs : StringPairList) (name : List UInt8) : List UInt8 :=
  ((attribs.find? fun a => a.1 = name).map Prod.snd).getD []

/-- The children of the first tag with the name; `findChild` and `stepIn`. -/
def stepInto (name : List UInt8) (tags : List Tag) : List Tag :=
  ((tags.find? fun t => t.name = name).map Tag.children).getD []

/-- The tags a loop over `findChild` goes through. -/
def findChildren (name : List UInt8) (tags : List Tag) : List Tag :=
  tags.filter fun t => t.name = name

/-- `CID::fromBase32`. A text with another length is cut off or filled with zeros. -/
def CID.fromBase32 (s : List UInt8) : CID :=
  Text.fromBase32 (s.take 39 ++ List.replicate (39 - s.length) 0) 24

/-- A tag with a directory. -/
def directoryTag (path : List UInt8) : Tag := .mk (ascii "Directory") [] path []

/-- The tag of a share. -/
def shareTag (realPath virtualName : List UInt8) : Tag :=
  .mk (ascii "Directory") [(ascii "Virtual", virtualName)] realPath []

namespace ShareManager

section

variable {TTH : Type} (s : ShareManager TTH)

/-- The shares `saveShareList` writes. The flag that is tested is the one of the item. -/
def savedShares : ShareNames :=
  (s.shares.filter fun i => !i.flags.removed).map fun i => (i.realPath, i.dir.node.name)

/-- The tag of a group. -/
def groupTag (sg : ShareGroup TTH) : Tag :=
  .mk (ascii "ShareGroup")
    (if sg.id = .zero then []
    else [(ascii "ID", toBase32 sg.id), (ascii "Name", sg.name)])
    [] (sg.shares.map directoryTag)

/-- `saveShareList`: the tags it adds. -/
def saveShareList : List Tag :=
  [.mk (ascii "Share") [] [] (s.savedShares.map fun n => shareTag n.1 n.2),
    .mk (ascii "NoShare") [] [] (s.notShared.map directoryTag),
    .mk (ascii "ShareGroups") [] [] (s.shareGroups.map groupTag)]

end

section

variable {TTH : Type} [Inhabited TTH] (env : Env) (isExist : List UInt8 → Bool)
  (readFileAttr : CID → Option (FileAttr TTH × FileAttr TTH))

/-- `loadShareList` for a tag below `Share`. -/
def loadShareTag (s : ShareManager TTH) (t : Tag) : ShareManager TTH :=
  s.loadShare env t.data (getAttrib t.attribs (ascii "Virtual"))
    (isExist (appendPathSeparator t.data))

/-- `loadShareList` for a tag below `NoShare`. -/
def loadExcludeTag (s : ShareManager TTH) (t : Tag) : ShareManager TTH :=
  (s.addExcludeFolderL (appendPathSeparator t.data)).getD s

/-- `loadShareList` for a tag below `ShareGroups`. -/
def loadGroupTag (s : ShareManager TTH) (t : Tag) : ShareManager TTH :=
  let id := getAttrib t.attribs (ascii "ID")
  let cid := if id = [] then CID.zero else CID.fromBase32 id
  s.loadShareGroup env (getAttrib t.attribs (ascii "Name")) cid
    ((findChildren (ascii "Directory") t.children).map Tag.data) (readFileAttr cid)

/-- `loadShareList`. -/
def loadShareList (tags : List Tag) (s : ShareManager TTH) : ShareManager TTH :=
  let s := (findChildren (ascii "Directory") (stepInto (ascii "Share") tags)).foldl
    (loadShareTag env isExist) s
  let s := (findChildren (ascii "Directory") (stepInto (ascii "NoShare") tags)).foldl
    loadExcludeTag s
  (findChildren (ascii "ShareGroup") (stepInto (ascii "ShareGroups") tags)).foldl
    (loadGroupTag env readFileAttr) s

end

end ShareManager

/-! ### What is to be saved -/

/-- The id, the name and the paths of a group. -/
def ShareGroup.key {TTH : Type} (sg : ShareGroup TTH) :
    CID × List UInt8 × List (List UInt8) := (sg.id, sg.name, sg.shares)

/-- The lists name the shares that are not removed and no other, in the settings and in the list of
each group, and what is loaded from the settings are the same shares, exclusions and groups. -/
structure SavedExactly (env : Env) (isExist : List UInt8 → Bool)
    (readFileAttr : CID → Option (FileAttr TTHValue × FileAttr TTHValue))
    (s : ShareManager TTHValue) : Prop where
  saved : s.savedShares = s.shareNames
  listed : ∀ sg ∈ s.shareGroups,
    s.writtenShares env (ShareManager.selectedShares env sg) = s.groupShares env sg
  names : (ShareManager.loadShareList env isExist readFileAttr s.saveShareList .new).shareNames =
    s.shareNames
  notShared : (ShareManager.loadShareList env isExist readFileAttr s.saveShareList .new).notShared =
    s.notShared
  groups : (ShareManager.loadShareList env isExist readFileAttr s.saveShareList
    .new).shareGroups.map ShareGroup.key = s.shareGroups.map ShareGroup.key

/-- A share that is loaded under its path and its name. -/
def Loadable (isExist : List UInt8 → Bool) (n : List UInt8 × List UInt8) : Prop :=
  n.1 ≠ [] ∧ appendPathSeparator n.1 = n.1 ∧
    validateVirtual (if n.2 = [] then getLastDir n.1 else n.2) = n.2 ∧ isExist n.1 = true

/-- An exclusion that is loaded: it is below the first of the shares that contains it. -/
def Excludable (names : ShareNames) (path : List UInt8) : Prop :=
  appendPathSeparator path = path ∧
    ∃ n, names.find? (fun n => isSubDirOrSame path n.1) = some n ∧ path.length ≠ n.1.length

/-- A group that is loaded with its id, its name and its paths. -/
def GroupLoadable (env : Env) (names : ShareNames)
    (key : CID × List UInt8 × List (List UInt8)) : Prop :=
  key.1.length = 24 ∧ (key.2.1 = [] ↔ key.1 = .zero) ∧
    ∀ dir ∈ key.2.2, appendPathSeparator dir = dir ∧
      ∃ n ∈ names, env.lowerName n.1 = env.lowerName dir

/-- The condition on the state when it is saved. No share is marked as removed. Names of shares
differ in lower case, and each share is loaded under its path and its name. Each exclusion is below
the first share that contains it. The groups are of shares there are, and only the default one has
no name. -/
structure Saveable (env : Env) (isExist : List UInt8 → Bool) (s : ShareManager TTHValue) :
    Prop where
  noneRemoved : ∀ i ∈ s.shares, i.removed = false
  distinct : s.shareNames.Pairwise fun m n => env.lowerName m.2 ≠ env.lowerName n.2
  shares : ∀ n ∈ s.shareNames, Loadable isExist n
  exclusions : ∀ path ∈ s.notShared, Excludable s.shareNames path
  groups : ∀ sg ∈ s.shareGroups, GroupLoadable env s.shareNames sg.key
  groupNames : s.shareGroups.Pairwise fun a b => stricmpEq b.name a.name = false

/-! ### The loops of loading -/

theorem CID.fromBase32_toBase32 {id : CID} (h : id.length = 24) :
    CID.fromBase32 (toBase32 id) = id := by
  have hlen : (toBase32 id).length = 39 := by
    rw [length_toBase32, h]
    rfl
  have hback := Text.fromBase32_toBase32 id
  rw [h] at hback
  rw [CID.fromBase32, List.take_of_length_le hlen.le, hlen]
  change Text.fromBase32 (toBase32 id ++ []) 24 = id
  rw [List.append_nil, hback]

namespace ShareManager

variable {env : Env} {isExist : List UInt8 → Bool}
  {readFileAttr : CID → Option (FileAttr TTHValue × FileAttr TTHValue)}
  {s : ShareManager TTHValue}

/-- Loading what has been saved. -/
theorem loadShareList_saveShareList (t : ShareManager TTHValue) :
    loadShareList env isExist readFileAttr s.saveShareList t =
      s.shareGroups.foldl (fun t sg => loadGroupTag env readFileAttr t (groupTag sg))
        (s.notShared.foldl (fun t path => (t.addExcludeFolderL (appendPathSeparator path)).getD t)
          (s.savedShares.foldl
            (fun t n => t.loadShare env n.1 n.2 (isExist (appendPathSeparator n.1))) t)) := by
  have hshare : findChildren (ascii "Directory") (stepInto (ascii "Share") s.saveShareList) =
      s.savedShares.map fun n => shareTag n.1 n.2 := by
    apply List.filter_eq_self.mpr
    intro tag htag
    obtain ⟨n, -, rfl⟩ := List.mem_map.mp htag
    rfl
  have hexclude : findChildren (ascii "Directory") (stepInto (ascii "NoShare") s.saveShareList) =
      s.notShared.map directoryTag := by
    apply List.filter_eq_self.mpr
    intro tag htag
    obtain ⟨path, -, rfl⟩ := List.mem_map.mp htag
    rfl
  have hgroup : findChildren (ascii "ShareGroup")
      (stepInto (ascii "ShareGroups") s.saveShareList) = s.shareGroups.map groupTag := by
    apply List.filter_eq_self.mpr
    intro tag htag
    obtain ⟨sg, -, rfl⟩ := List.mem_map.mp htag
    rfl
  unfold loadShareList
  rw [hshare, hexclude, hgroup, List.foldl_map, List.foldl_map, List.foldl_map]
  rfl

/-! ### Shares -/

private theorem load_eq (env : Env) (names : ShareNames) (realPath virtualAttr : List UInt8)
    (exist : Bool) :
    names.load env realPath virtualAttr exist = names ∨
      names.load env realPath virtualAttr exist = names ++ [(appendPathSeparator realPath,
        validateVirtual (if virtualAttr = [] then getLastDir (appendPathSeparator realPath)
          else virtualAttr))] := by
  unfold ShareNames.load
  split
  · exact .inl rfl
  dsimp only
  generalize validateVirtual _ = virtualName
  split
  · exact .inl rfl
  · exact .inr rfl

private theorem load_eq_append_iff (names : ShareNames) (realPath virtualAttr : List UInt8) :
    names.load env realPath virtualAttr (isExist (appendPathSeparator realPath)) =
        names ++ [(realPath, virtualAttr)] ↔
      Loadable isExist (realPath, virtualAttr) ∧
        ∀ n ∈ names, env.lowerName n.1 ≠ env.lowerName realPath ∧
          env.lowerName n.2 ≠ env.lowerName virtualAttr := by
  have hself : names ≠ names ++ [(realPath, virtualAttr)] := by
    intro h
    have hlen := congrArg List.length h
    rw [List.length_append, List.length_singleton] at hlen
    omega
  have hhas : names.has env virtualAttr realPath = false ↔
      ∀ n ∈ names, env.lowerName n.1 ≠ env.lowerName realPath ∧
        env.lowerName n.2 ≠ env.lowerName virtualAttr := by
    rw [ShareNames.has, List.any_eq_false]
    apply forall₂_congr
    intro n _
    rw [Bool.or_eq_true, not_or, decide_eq_true_iff, decide_eq_true_iff]
  rw [← hhas]
  unfold ShareNames.load Loadable
  split
  · next hnil => exact iff_of_false hself fun h => h.1.1 hnil
  next hne =>
  dsimp only
  generalize hname : validateVirtual (if virtualAttr = [] then
    getLastDir (appendPathSeparator realPath) else virtualAttr) = virtualName
  constructor
  · intro h
    split at h
    · exact absurd h hself
    next hok =>
    have hpair := List.append_cancel_left h
    rw [List.cons.injEq, Prod.mk.injEq] at hpair
    rw [hpair.1.1, hpair.1.2, Bool.or_eq_true, not_or, Bool.not_eq_true, Bool.not_eq_true,
      Bool.not_eq_false'] at hok
    rw [hpair.1.1, hpair.1.2] at hname
    exact ⟨⟨hne, hpair.1.1, hname, hok.2⟩, hok.1⟩
  · rintro ⟨⟨-, hpath, hvirtual, hexist⟩, hnot⟩
    rw [hpath, hvirtual] at hname
    rw [← hname, hpath, hnot, hexist]
    rfl

theorem appendsOne_loadShare (env : Env) (isExist : List UInt8 → Bool) : AppendsOne shareNames
    fun (t : ShareManager TTHValue) (n : List UInt8 × List UInt8) =>
      t.loadShare env n.1 n.2 (isExist (appendPathSeparator n.1)) := by
  intro t n
  rw [shareNames_loadShare]
  rcases load_eq env t.shareNames n.1 n.2 (isExist (appendPathSeparator n.1)) with h | h
  · exact ⟨t.shareNames, [], List.Sublist.refl _, Nat.zero_le _, by rw [h, List.append_nil]⟩
  · exact ⟨t.shareNames, _, List.Sublist.refl _, Nat.le_refl _, h⟩

/-- The loop of `loadShareList` over the shares. -/
def loadShares (env : Env) (isExist : List UInt8 → Bool) (names : ShareNames) :
    ShareManager TTHValue :=
  names.foldl (fun t n => t.loadShare env n.1 n.2 (isExist (appendPathSeparator n.1))) .new

private theorem loadShares_append {names : ShareNames} {n : List UInt8 × List UInt8}
    (h : (loadShares env isExist names).shareNames = names) :
    (loadShares env isExist (names ++ [n])).shareNames = names ++ [n] ↔
      Loadable isExist n ∧ ∀ m ∈ names, env.lowerName m.1 ≠ env.lowerName n.1 ∧
        env.lowerName m.2 ≠ env.lowerName n.2 := by
  rw [← load_eq_append_iff, loadShares, List.foldl_append]
  change ((loadShares env isExist names).loadShare env n.1 n.2 _).shareNames = _ ↔ _
  rw [shareNames_loadShare, h]

/-- The shares are loaded as they have been saved exactly when each of them would be, and no two of
them have a path or a name in common. -/
theorem shareNames_loadShares_iff (names : ShareNames) :
    (loadShares env isExist names).shareNames = names ↔
      (∀ n ∈ names, Loadable isExist n) ∧
      names.Pairwise fun m n => env.lowerName m.1 ≠ env.lowerName n.1 ∧
        env.lowerName m.2 ≠ env.lowerName n.2 := by
  have hfold := fun hstep => (appendsOne_loadShare env isExist).foldl_eq_map_iff (g := id)
    (s := .new) rfl (P := Loadable isExist)
    (R := fun m n => env.lowerName m.1 ≠ env.lowerName n.1 ∧ env.lowerName m.2 ≠ env.lowerName n.2)
    hstep names
  simp only [List.map_id] at hfold
  exact hfold fun pre n hpre => loadShares_append hpre

/-! ### Exclusions -/

/-- The loop of `loadShareList` over the exclusions. -/
def loadExclusions (t : ShareManager TTHValue) (paths : List (List UInt8)) :
    ShareManager TTHValue :=
  paths.foldl (fun t path => (t.addExcludeFolderL (appendPathSeparator path)).getD t) t

theorem shareNames_loadExclusions (t : ShareManager TTHValue) (paths : List (List UInt8)) :
    (loadExclusions t paths).shareNames = t.shareNames := by
  induction paths generalizing t with
  | nil => rfl
  | cons path paths ih =>
    rw [loadExclusions, List.foldl_cons]
    apply (ih _).trans
    cases h : t.addExcludeFolderL (appendPathSeparator path) with
    | none => rfl
    | some t' => exact shareNames_addExcludeFolderL h

private theorem find?_shareNames (t : ShareManager TTHValue) (P : List UInt8 → Bool) :
    t.shareNames.find? (fun n => P n.1) =
      (t.shares.find? fun i => !i.removed && P i.realPath).map
        fun i => (i.realPath, i.dir.node.name) := by
  rw [shareNames_eq, List.find?_map, live, List.find?_filter]
  simp only [Bool.decide_and, Bool.decide_eq_true]
  rfl

/-- What `addExcludeFolderL` makes of the exclusions. -/
private theorem notShared_addExcludeFolderL (t : ShareManager TTHValue) (path : List UInt8) :
    ((t.addExcludeFolderL path).getD t).notShared =
      if (∃ n, t.shareNames.find? (fun n => isSubDirOrSame path n.1) = some n ∧
          path.length ≠ n.1.length) ∧ (t.notShared.any fun j => isSubDirOrSame path j) = false then
        (t.notShared.filter fun j => !isSubDir j path) ++ [path]
      else t.notShared := by
  rw [find?_shareNames]
  unfold addExcludeFolderL
  cases hfind : t.shares.find? fun i => !i.removed && isSubDirOrSame path i.realPath with
  | none =>
    rw [if_neg]
    · rfl
    · rintro ⟨⟨n, hn, -⟩, -⟩
      cases hn
  | some share =>
    dsimp only
    by_cases hlen : path.length = share.realPath.length
    · rw [if_pos hlen, if_neg]
      · rfl
      · rintro ⟨⟨n, hn, hne⟩, -⟩
        cases hn
        exact hne hlen
    · rw [if_neg hlen]
      cases hany : t.notShared.any fun j => isSubDirOrSame path j with
      | true =>
        rw [if_pos rfl, if_neg]
        · rfl
        · rintro ⟨-, hfalse⟩
          cases hfalse
      | false =>
        rw [if_neg Bool.false_ne_true, if_pos ⟨⟨_, rfl, hlen⟩, rfl⟩]
        rfl

theorem appendsOne_addExcludeFolderL : AppendsOne ShareManager.notShared
    fun (t : ShareManager TTHValue) path =>
      (t.addExcludeFolderL (appendPathSeparator path)).getD t := by
  intro t path
  rw [notShared_addExcludeFolderL]
  split
  · exact ⟨_, [_], List.filter_sublist, Nat.le_refl _, rfl⟩
  · exact ⟨_, [], List.Sublist.refl _, Nat.zero_le _, (List.append_nil _).symm⟩

private theorem loadExclusions_append {t : ShareManager TTHValue} {paths : List (List UInt8)}
    {path : List UInt8} (h : (loadExclusions t paths).notShared = paths) :
    (loadExclusions t (paths ++ [path])).notShared = paths ++ [path] ↔
      Excludable t.shareNames path ∧
        ∀ j ∈ paths, isSubDirOrSame path j = false ∧ isSubDir j path = false := by
  have hself : paths ≠ paths ++ [path] := by
    intro heq
    have hlen := congrArg List.length heq
    rw [List.length_append, List.length_singleton] at hlen
    omega
  rw [loadExclusions, List.foldl_append]
  change (((loadExclusions t paths).addExcludeFolderL (appendPathSeparator path)).getD
    (loadExclusions t paths)).notShared = _ ↔ _
  rw [notShared_addExcludeFolderL, shareNames_loadExclusions, h]
  unfold Excludable
  constructor
  · intro heq
    split at heq
    · next hok =>
      obtain ⟨hfilter, hpath⟩ := List.append_inj' heq rfl
      rw [List.singleton_inj] at hpath
      rw [hpath] at hok hfilter
      rw [List.any_eq_false] at hok
      rw [List.filter_eq_self] at hfilter
      refine ⟨⟨hpath, hok.1⟩, ?_⟩
      intro j hj
      exact ⟨(Bool.not_eq_true _).mp (hok.2 j hj), (Bool.not_eq_true' _).mp (hfilter j hj)⟩
    · exact absurd heq hself
  · rintro ⟨⟨hpath, hfind⟩, hapart⟩
    rw [hpath, if_pos]
    · congr 1
      rw [List.filter_eq_self]
      intro j hj
      rw [(hapart j hj).2]
      rfl
    · refine ⟨hfind, ?_⟩
      rw [List.any_eq_false]
      intro j hj
      rw [(hapart j hj).1]
      decide

/-- The exclusions are loaded as they have been saved exactly when each of them would be, and none
of them is below another one. -/
theorem notShared_loadExclusions_iff {t : ShareManager TTHValue} (ht : t.notShared = [])
    (paths : List (List UInt8)) :
    (loadExclusions t paths).notShared = paths ↔
      (∀ path ∈ paths, Excludable t.shareNames path) ∧
      paths.Pairwise fun j path => isSubDirOrSame path j = false ∧ isSubDir j path = false := by
  have hfold := fun hstep => appendsOne_addExcludeFolderL.foldl_eq_map_iff (g := id) ht
    (P := Excludable t.shareNames)
    (R := fun j path => isSubDirOrSame path j = false ∧ isSubDir j path = false) hstep paths
  simp only [List.map_id] at hfold
  exact hfold fun pre path hpre => loadExclusions_append hpre

/-! ### Groups -/

/-- The loop of `loadShareList` over the groups. -/
def loadGroups (env : Env)
    (readFileAttr : CID → Option (FileAttr TTHValue × FileAttr TTHValue))
    (t : ShareManager TTHValue) (groups : List (ShareGroup TTHValue)) : ShareManager TTHValue :=
  groups.foldl (fun t sg => loadGroupTag env readFileAttr t (groupTag sg)) t

private theorem addShareGroupL_keeps (t : ShareManager TTHValue) (name : List UInt8) (id : CID)
    (shareList : List (List UInt8)) (attr : Option (FileAttr TTHValue × FileAttr TTHValue)) :
    (t.addShareGroupL name id shareList attr).shareNames = t.shareNames ∧
      (t.addShareGroupL name id shareList attr).notShared = t.notShared := by
  unfold addShareGroupL
  split
  · exact ⟨rfl, rfl⟩
  split
  · exact ⟨rfl, rfl⟩
  · exact ⟨rfl, rfl⟩

theorem loadGroups_keeps (t : ShareManager TTHValue) (groups : List (ShareGroup TTHValue)) :
    (loadGroups env readFileAttr t groups).shareNames = t.shareNames ∧
      (loadGroups env readFileAttr t groups).notShared = t.notShared := by
  induction groups generalizing t with
  | nil => exact ⟨rfl, rfl⟩
  | cons sg groups ih =>
    rw [loadGroups, List.foldl_cons]
    have hkeeps : (loadGroupTag env readFileAttr t (groupTag sg)).shareNames = t.shareNames ∧
        (loadGroupTag env readFileAttr t (groupTag sg)).notShared = t.notShared :=
      addShareGroupL_keeps t _ _ _ _
    exact ⟨(ih _).1.trans hkeeps.1, (ih _).2.trans hkeeps.2⟩

/-- The id that is read from the tag of a group. -/
def readId (id : CID) : CID :=
  if id = .zero then .zero
  else if toBase32 id = [] then .zero
  else .fromBase32 (toBase32 id)

private theorem readId_eq_iff (id : CID) : readId id = id ↔ id.length = 24 := by
  have hzero : CID.zero.length = 24 := List.length_replicate
  unfold readId
  split
  · next h =>
    rw [h]
    exact iff_of_true rfl hzero
  next hne =>
  split
  · next h =>
    apply iff_of_false (fun heq => hne heq.symm)
    intro hlen
    have hback := CID.fromBase32_toBase32 hlen
    rw [h] at hback
    apply hne
    rw [← hback]
    decide
  · constructor
    · intro h
      rw [← h]
      exact length_fromBase32 _ 24
    · exact CID.fromBase32_toBase32

/-- What `loadShareGroup` makes of the tag of a group. -/
private theorem loadGroupTag_groupTag (t : ShareManager TTHValue) (sg : ShareGroup TTHValue) :
    loadGroupTag env readFileAttr t (groupTag sg) =
      t.addShareGroupL (if sg.id = .zero then [] else sg.name) (readId sg.id)
        ((sg.shares.map appendPathSeparator).filter fun dir => (t.getByRealL env dir).isSome)
        (if readId sg.id = .zero then none else readFileAttr (readId sg.id)) := by
  have hdirs : (findChildren (ascii "Directory") (groupTag sg).children).map Tag.data =
      sg.shares := by
    have hall : findChildren (ascii "Directory") (sg.shares.map directoryTag) =
        sg.shares.map directoryTag := by
      apply List.filter_eq_self.mpr
      intro tag htag
      obtain ⟨path, -, rfl⟩ := List.mem_map.mp htag
      rfl
    change (findChildren (ascii "Directory") (sg.shares.map directoryTag)).map Tag.data = _
    rw [hall, List.map_map]
    exact List.map_id _
  by_cases hid : sg.id = .zero
  · unfold loadGroupTag loadShareGroup readId
    rw [hdirs, if_pos hid, if_pos hid]
    unfold groupTag
    rw [if_pos hid]
    rfl
  · unfold loadGroupTag loadShareGroup readId
    rw [hdirs, if_neg hid, if_neg hid]
    unfold groupTag
    rw [if_neg hid]
    rfl

private theorem isSome_getByRealL (t : ShareManager TTHValue) (dir : List UInt8) :
    (t.getByRealL env dir).isSome = true ↔
      ∃ n ∈ t.shareNames, env.lowerName n.1 = env.lowerName dir := by
  have hfind := find?_shareNames t fun p => env.lowerName p = env.toLower dir
  unfold getByRealL
  rw [← Option.isSome_map (f := fun i : ShareListItem => (i.realPath, i.dir.node.name)), ← hfind,
    List.find?_isSome]
  simp only [decide_eq_true_iff, env.lowerName_eq dir]

/-- What `addShareGroupL` makes of the groups. -/
private theorem shareGroups_addShareGroupL (t : ShareManager TTHValue) (name : List UInt8)
    (id : CID) (shareList : List (List UInt8))
    (attr : Option (FileAttr TTHValue × FileAttr TTHValue)) :
    (t.addShareGroupL name id shareList attr).shareGroups.map ShareGroup.key =
      if ¬ (name = [] ∧ id ≠ .zero) ∧
          (t.shareGroups.any fun sg => sg.id = id || stricmpEq name sg.name) = false then
        t.shareGroups.map ShareGroup.key ++ [(id, name, shareList)]
      else t.shareGroups.map ShareGroup.key := by
  unfold addShareGroupL
  by_cases hname : name = [] ∧ id ≠ .zero
  · rw [if_pos hname, if_neg fun h => h.1 hname]
  rw [if_neg hname]
  cases hany : t.shareGroups.any fun sg => sg.id = id || stricmpEq name sg.name with
  | true =>
    rw [if_pos rfl, if_neg]
    rintro ⟨-, hfalse⟩
    cases hfalse
  | false =>
    rw [if_neg Bool.false_ne_true, if_pos ⟨hname, rfl⟩]
    exact List.map_append

theorem appendsOne_loadGroupTag : AppendsOne
    (fun t : ShareManager TTHValue => t.shareGroups.map ShareGroup.key)
    fun t (sg : ShareGroup TTHValue) => loadGroupTag env readFileAttr t (groupTag sg) := by
  intro t sg
  dsimp only
  rw [loadGroupTag_groupTag, shareGroups_addShareGroupL]
  generalize (if sg.id = .zero then [] else sg.name) = name
  split
  · exact ⟨_, [_], List.Sublist.refl _, Nat.le_refl _, rfl⟩
  · exact ⟨_, [], List.Sublist.refl _, Nat.zero_le _, (List.append_nil _).symm⟩

private theorem filter_map_eq_self_iff {a : List UInt8 → List UInt8} {P : List UInt8 → Bool}
    {dirs : List (List UInt8)} :
    (dirs.map a).filter P = dirs ↔ ∀ dir ∈ dirs, a dir = dir ∧ P dir = true := by
  constructor
  · intro h
    have hall : (dirs.map a).filter P = dirs.map a := by
      apply List.filter_sublist.eq_of_length
      rw [h, List.length_map]
    have hmap : dirs.map a = dirs.map id := by rw [← hall, h, List.map_id]
    rw [List.map_inj_left] at hmap
    rw [List.filter_eq_self] at hall
    intro dir hdir
    have hself : a dir = dir := hmap dir hdir
    refine ⟨hself, ?_⟩
    rw [← hself]
    exact hall _ (List.mem_map_of_mem hdir)
  · intro h
    have hmap : dirs.map a = dirs := by
      conv_rhs => rw [← List.map_id dirs]
      exact List.map_congr_left fun dir hdir => (h dir hdir).1
    rw [hmap, List.filter_eq_self]
    exact fun dir hdir => (h dir hdir).2

private theorem loadGroups_append {t : ShareManager TTHValue}
    {groups : List (ShareGroup TTHValue)} {sg : ShareGroup TTHValue}
    (h : (loadGroups env readFileAttr t groups).shareGroups.map ShareGroup.key =
      groups.map ShareGroup.key) :
    (loadGroups env readFileAttr t (groups ++ [sg])).shareGroups.map ShareGroup.key =
        (groups ++ [sg]).map ShareGroup.key ↔
      GroupLoadable env t.shareNames sg.key ∧
        ∀ g ∈ groups, g.id ≠ sg.id ∧ stricmpEq sg.name g.name = false := by
  have hany : ∀ name id, ((loadGroups env readFileAttr t groups).shareGroups.any fun g =>
      g.id = id || stricmpEq name g.name) = false ↔
        ∀ g ∈ groups, g.id ≠ id ∧ stricmpEq name g.name = false := by
    intro name id
    have hkeys : ∀ gs : List (ShareGroup TTHValue), (gs.any fun g =>
        g.id = id || stricmpEq name g.name) =
          (gs.map ShareGroup.key).any fun k => k.1 = id || stricmpEq name k.2.1 := by
      intro gs
      rw [List.any_map]
      rfl
    rw [hkeys, h, ← hkeys, List.any_eq_false]
    apply forall₂_congr
    intro g _
    rw [Bool.or_eq_true, not_or, decide_eq_true_iff, Bool.not_eq_true]
  have hself : groups.map ShareGroup.key ≠ groups.map ShareGroup.key ++ [sg.key] := by
    intro heq
    have hlen := congrArg List.length heq
    rw [List.length_append, List.length_singleton] at hlen
    omega
  rw [loadGroups, List.foldl_append]
  change (loadGroupTag env readFileAttr (loadGroups env readFileAttr t groups)
    (groupTag sg)).shareGroups.map ShareGroup.key = _ ↔ _
  rw [loadGroupTag_groupTag, shareGroups_addShareGroupL, h, List.map_append, List.map_singleton]
  have hkey : (readId sg.id, (if sg.id = .zero then [] else sg.name),
      (sg.shares.map appendPathSeparator).filter fun dir =>
        ((loadGroups env readFileAttr t groups).getByRealL env dir).isSome) = sg.key ∧
      ¬ ((if sg.id = .zero then [] else sg.name) = [] ∧ readId sg.id ≠ .zero) ↔
      GroupLoadable env t.shareNames sg.key := by
    unfold ShareGroup.key GroupLoadable
    rw [Prod.mk.injEq, Prod.mk.injEq, readId_eq_iff, filter_map_eq_self_iff]
    simp only [isSome_getByRealL, (loadGroups_keeps _ _).1]
    by_cases hid : sg.id = .zero
    · have hread : readId sg.id = .zero := by rw [readId, if_pos hid]
      rw [if_pos hid, hread]
      constructor
      · rintro ⟨⟨hlen, hname, hdirs⟩, -⟩
        exact ⟨hlen, iff_of_true hname.symm hid, hdirs⟩
      · rintro ⟨hlen, hname, hdirs⟩
        exact ⟨⟨hlen, (hname.mpr hid).symm, hdirs⟩, fun h => h.2 rfl⟩
    · rw [if_neg hid]
      constructor
      · rintro ⟨⟨hlen, -, hdirs⟩, hname⟩
        rw [(readId_eq_iff sg.id).mpr hlen, not_and, not_not] at hname
        exact ⟨hlen, iff_of_false (fun h => hid (hname h)) hid, hdirs⟩
      · rintro ⟨hlen, hname, hdirs⟩
        exact ⟨⟨hlen, rfl, hdirs⟩, fun h => hid (hname.mp h.1)⟩
  rw [← hkey]
  generalize (if sg.id = .zero then [] else sg.name) = name
  generalize hdirs : (sg.shares.map appendPathSeparator).filter _ = dirs
  constructor
  · intro happend
    split at happend
    · next hok =>
      have hlast := (List.append_inj' happend rfl).2
      rw [List.singleton_inj] at hlast
      refine ⟨⟨hlast, hok.1⟩, ?_⟩
      rw [ShareGroup.key, Prod.mk.injEq, Prod.mk.injEq] at hlast
      have hapart := (hany _ _).mp hok.2
      rw [hlast.1, hlast.2.1] at hapart
      exact hapart
    · exact absurd happend hself
  · rintro ⟨⟨hlast, hname⟩, hapart⟩
    have hparts := hlast
    rw [ShareGroup.key, Prod.mk.injEq, Prod.mk.injEq] at hparts
    rw [if_pos]
    · rw [hlast]
    · refine ⟨hname, (hany _ _).mpr ?_⟩
      rw [hparts.1, hparts.2.1]
      exact hapart

/-- The groups are loaded as they have been saved exactly when each of them would be, and no two of
them have the id or the name in common. -/
theorem shareGroups_loadGroups_iff {t : ShareManager TTHValue} (ht : t.shareGroups = [])
    (groups : List (ShareGroup TTHValue)) :
    (loadGroups env readFileAttr t groups).shareGroups.map ShareGroup.key =
        groups.map ShareGroup.key ↔
      (∀ sg ∈ groups, GroupLoadable env t.shareNames sg.key) ∧
      groups.Pairwise fun g sg => g.id ≠ sg.id ∧ stricmpEq sg.name g.name = false := by
  apply appendsOne_loadGroupTag.foldl_eq_map_iff
  · rw [ht]
    rfl
  · exact fun pre sg hpre => loadGroups_append hpre

end ShareManager

end Blacklink.Share
