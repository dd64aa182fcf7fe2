import Blacklink.Base.Run
import Blacklink.Share.FileIds
import Blacklink.Share.QuietSteps

/-!
# When a file list is out of date

Model of `generateFileList` beside all that changes what is shared
(`client/ShareManager.cpp:1973-2073, 2075-2166, 3270-3293`). A generation decides for all groups in
one critical section which lists it writes, by the digests recorded with the groups. Then it writes
one list after the other, and for each it selects the shares in one critical section and writes
their trees in another.
-/

namespace Blacklink.Share

open Blacklink.Base

/-- The share and what is known of the lists: the digests recorded with the groups, the lists
written last, the groups in `updateGroups` and the one whose shares have been selected. -/
structure FileLists where
  share : ShareManager TTHValue
  hash : CID → TTHValue
  written : CID → Option (List UInt8)
  updateGroups : List CID
  selected : Option (CID × List (List UInt8))

/-- Something that happens to the share, or a step of a generation: it decides, where `missing` are
the groups whose list is not on the disk, it selects the shares of a group, writes its list or ends
with an exception. -/
inductive ListEvent where
  | share (e : Event TTHValue)
  | group (g : GroupOp TTHValue)
  | decide (missing : List CID)
  | select (n : Nat)
  | write
  | fail

namespace FileLists

variable (env : Env) (opts : ListOptions) (tiger : List UInt8 → TTHValue)

/-- Nothing is shared. -/
def new : FileLists := ⟨.new, fun _ => default, fun _ => none, [], none⟩

variable (s : FileLists)

/-- The digest of a group. -/
def digest (sg : ShareGroup TTHValue) : TTHValue := tiger (s.share.groupMessage env sg)

/-- What an event does. A group that has not been there has no digest. -/
def step : ListEvent → FileLists
  | .share e => { s with share := s.share.step env e }
  | .group g =>
    { s with
      share := s.share.performGroup env g
      hash := fun id => if (s.share.findGroup id).isSome then s.hash id else default }
  | .decide missing =>
    if s.updateGroups ≠ [] then s
    else
      let changed := s.share.shareGroups.filter fun sg => s.hash sg.id ≠ s.digest env tiger sg
      { s with
        hash := fun id =>
          ((changed.find? fun sg => sg.id = id).map (s.digest env tiger)).getD (s.hash id)
        updateGroups := (s.share.shareGroups.filter fun sg =>
          s.hash sg.id ≠ s.digest env tiger sg || missing.contains sg.id).map ShareGroup.id }
  | .select n =>
    match s.selected, s.updateGroups[n]? with
    | none, some id =>
      match s.share.findGroup id with
      | none => { s with updateGroups := s.updateGroups.eraseIdx n }
      | some sg => { s with selected := some (id, ShareManager.selectedShares env sg) }
    | _, _ => s
  | .write =>
    match s.selected with
    | none => s
    | some (id, selected) =>
      { s with
        written := Function.update s.written id (some (s.share.shareListText env opts selected))
        updateGroups := s.updateGroups.filter fun i => i ≠ id
        selected := none }
  | .fail => { s with updateGroups := [], selected := none }

/-- A group is not going to be written, and has the digest recorded with it. -/
def UpToDate (sg : ShareGroup TTHValue) : Prop :=
  sg ∈ s.share.shareGroups ∧ sg.id ∉ s.updateGroups ∧ s.hash sg.id = s.digest env tiger sg

/-- What a group shares now is in the list written last, if a generation would not write it. -/
def ListsFresh : Prop :=
  ∀ sg, s.UpToDate env tiger sg → s.written sg.id = some (s.share.groupText env opts sg)

end FileLists

/-! ### What a digest depends on -/

/-- What is hashed for a group depends on the heads of the shares. -/
theorem groupMessage_congr {env : Env} {s s' : ShareManager TTHValue}
    (h : s'.shares.map ShareListItem.head = s.shares.map ShareListItem.head)
    (sg : ShareGroup TTHValue) : s'.groupMessage env sg = s.groupMessage env sg := by
  have hmessage : ∀ t : ShareManager TTHValue, t.groupMessage env sg =
      sg.shares.flatMap fun item =>
        ((((t.shares.map ShareListItem.head).find? fun i =>
          !i.removed && env.lowerName i.realPath = env.lowerName item).map fun i =>
            env.lowerName item ++ ShareManager.int64Bytes i.version ++
              env.lowerName i.name).getD []) := by
    intro t
    apply List.flatMap_congr
    intro item _
    rw [List.find?_map, Option.map_map]
    unfold Function.comp
    cases hfind : t.shares.find? fun i =>
        !i.removed && env.lowerName i.realPath = env.lowerName item with
    | none =>
      have hnone : t.shares.find? (fun i =>
          !i.head.removed && env.lowerName i.head.realPath = env.lowerName item) = none := hfind
      rw [hnone]
      rfl
    | some i =>
      have hsome : t.shares.find? (fun i =>
          !i.head.removed && env.lowerName i.head.realPath = env.lowerName item) = some i := hfind
      rw [hsome]
      rfl
  rw [hmessage, hmessage, h]

namespace FileLists

variable (env : Env) (opts : ListOptions) (tiger : List UInt8 → TTHValue)

/-! ### The condition -/

/-- The condition on an event. One that changes files only leaves the lists of up-to-date groups as
they are. One that changes shares or groups leaves no group with the recorded digest that has
another list than the one written last. A list is written of the shares of its group, and no group
that waits has the recorded digest when a generation fails. -/
def KeepsFresh (s : FileLists) : ListEvent → Prop
  | .share e =>
    if e.isQuiet then True
    else if e.changesFiles then
      ∀ sg, s.UpToDate env tiger sg →
        (s.share.step env e).groupText env opts sg = s.share.groupText env opts sg
    else
      ∀ sg, (s.step env opts tiger (.share e)).UpToDate env tiger sg →
        s.written sg.id = some ((s.share.step env e).groupText env opts sg)
  | .group g =>
    ∀ sg, (s.step env opts tiger (.group g)).UpToDate env tiger sg →
      s.written sg.id = some ((s.share.performGroup env g).groupText env opts sg)
  | .write => ∀ id selected, s.selected = some (id, selected) →
    ∀ sg ∈ s.share.shareGroups, sg.id = id → s.hash id = s.digest env tiger sg →
      s.share.shareListText env opts selected = s.share.groupText env opts sg
  | .fail => ∀ sg ∈ s.share.shareGroups, sg.id ∈ s.updateGroups →
    s.hash sg.id = s.digest env tiger sg → s.written sg.id = some (s.share.groupText env opts sg)
  | .decide _ | .select _ => True

variable {env opts tiger} {s : FileLists}

private theorem listsFresh_quiet (h : s.ListsFresh env opts tiger) (hids : FileIds s.share)
    {e : Event TTHValue} (he : e.isQuiet = true) :
    (s.step env opts tiger (.share e)).ListsFresh env opts tiger := by
  have hquiet : QuietStep s.share (s.share.step env e) := .step he
  intro sg hsg
  have hmessage : (s.share.step env e).groupMessage env sg = s.share.groupMessage env sg := by
    apply groupMessage_congr
    rw [hquiet.shares]
  have htext : (s.share.step env e).groupText env opts sg = s.share.groupText env opts sg := by
    apply ShareManager.groupText_congr hquiet.shares
    intro i hi
    exact (hids.shares i hi).imp fun _ hn kf hkf => hquiet.fileState kf.2.id (hn kf hkf)
  change s.written sg.id = some ((s.share.step env e).groupText env opts sg)
  rw [htext]
  apply h sg
  refine ⟨?_, hsg.2.1, ?_⟩
  · rw [← hquiet.shareGroups]
    exact hsg.1
  · rw [digest, ← hmessage]
    exact hsg.2.2

private theorem listsFresh_changesFiles (h : s.ListsFresh env opts tiger) {e : Event TTHValue}
    (he : e.changesFiles = true) :
    (s.step env opts tiger (.share e)).ListsFresh env opts tiger ↔
      ∀ sg, s.UpToDate env tiger sg →
        (s.share.step env e).groupText env opts sg = s.share.groupText env opts sg := by
  have hkeeps := keepsList_of_changesFiles env s.share he
  apply forall_congr'
  intro sg
  have hup : (s.step env opts tiger (.share e)).UpToDate env tiger sg ↔
      s.UpToDate env tiger sg := by
    unfold UpToDate digest
    dsimp only [step]
    rw [groupMessage_congr hkeeps.heads, hkeeps.shareGroups]
  rw [hup]
  apply forall_congr'
  intro hsg
  change s.written sg.id = some ((s.share.step env e).groupText env opts sg) ↔ _
  rw [h sg hsg, Option.some_inj]
  exact eq_comm

private theorem listsFresh_decide (h : s.ListsFresh env opts tiger) (missing : List CID) :
    (s.step env opts tiger (.decide missing)).ListsFresh env opts tiger := by
  rw [step]
  split
  · exact h
  next hnone =>
  rw [not_not] at hnone
  rintro sg ⟨hsg, hid, hhash⟩
  have hsame : s.hash sg.id = s.digest env tiger sg := by
    by_contra hne
    apply hid
    apply List.mem_map_of_mem
    exact List.mem_filter.mpr ⟨hsg, Bool.or_eq_true_iff.mpr (.inl (decide_eq_true hne))⟩
  apply h sg
  refine ⟨hsg, ?_, hsame⟩
  rw [hnone]
  exact List.not_mem_nil

private theorem listsFresh_select (h : s.ListsFresh env opts tiger) (n : Nat) :
    (s.step env opts tiger (.select n)).ListsFresh env opts tiger := by
  rw [step]
  split
  · next id _ hid =>
    split
    · next hgroup =>
      rintro sg ⟨hsg, hnot, hhash⟩
      refine h sg ⟨hsg, ?_, hhash⟩
      intro hmem
      apply hnot
      obtain ⟨m, hm⟩ := List.mem_iff_getElem?.mp hmem
      have hne : m ≠ n := by
        rintro rfl
        rw [hid] at hm
        cases hm
        have hfound := List.find?_eq_none.mp hgroup sg hsg
        simp at hfound
      exact List.mem_eraseIdx_iff_getElem?.mpr ⟨m, hne, hm⟩
    · exact h
  · exact h

private theorem listsFresh_write (h : s.ListsFresh env opts tiger) :
    (s.step env opts tiger .write).ListsFresh env opts tiger ↔
      s.KeepsFresh env opts tiger .write := by
  rw [KeepsFresh, step]
  cases hselected : s.selected with
  | none => exact iff_of_true h nofun
  | some found =>
    obtain ⟨id, selected⟩ := found
    dsimp only
    constructor
    · rintro hfresh id' selected' heq sg hsg rfl hhash
      cases heq
      have hwritten := hfresh sg ⟨hsg, by simp, hhash⟩
      dsimp only at hwritten
      rw [Function.update_self] at hwritten
      exact Option.some_inj.mp hwritten
    · rintro hcond sg ⟨hsg, hnot, hhash⟩
      dsimp only
      by_cases hid : sg.id = id
      · rw [hid, Function.update_self, hcond id selected rfl sg hsg hid (hid ▸ hhash)]
      · rw [Function.update_of_ne hid]
        refine h sg ⟨hsg, ?_, hhash⟩
        intro hmem
        exact hnot (List.mem_filter.mpr ⟨hmem, decide_eq_true hid⟩)

private theorem listsFresh_fail (h : s.ListsFresh env opts tiger) :
    (s.step env opts tiger .fail).ListsFresh env opts tiger ↔
      s.KeepsFresh env opts tiger .fail := by
  rw [KeepsFresh, step]
  constructor
  · intro hfresh sg hsg _ hhash
    exact hfresh sg ⟨hsg, List.not_mem_nil, hhash⟩
  · rintro hcond sg ⟨hsg, _, hhash⟩
    by_cases hid : sg.id ∈ s.updateGroups
    · exact hcond sg hsg hid hhash
    · exact h sg ⟨hsg, hid, hhash⟩

/-- The lists go on being right exactly when the event meets the condition. -/
theorem listsFresh_step (h : s.ListsFresh env opts tiger) (hids : FileIds s.share)
    (e : ListEvent) :
    (s.step env opts tiger e).ListsFresh env opts tiger ↔ s.KeepsFresh env opts tiger e := by
  cases e with
  | share e =>
    rw [KeepsFresh]
    split
    · next he => exact iff_of_true (listsFresh_quiet h hids he) trivial
    split
    · next he => exact listsFresh_changesFiles h he
    · exact Iff.rfl
  | group g => exact Iff.rfl
  | decide missing => exact iff_of_true (listsFresh_decide h missing) trivial
  | select n => exact iff_of_true (listsFresh_select h n) trivial
  | write => exact listsFresh_write h
  | fail => exact listsFresh_fail h

/-! ### A list that is out of date -/

/-- The first bytes of what is hashed. -/
def firstBytes (msg : List UInt8) : TTHValue := ⟨Vector.ofFn fun i => msg.getD i 0⟩

/-- Nothing but names, sizes and roots is written. -/
def plainOptions : ListOptions := ⟨.zero, false, false, false, fun _ => 0⟩

/-- The list of a share is written, and then a file is added. -/
def addAfterList : List ListEvent :=
  [.share (.loadShare (Text.ascii "/data/") (Text.ascii "Share") true),
    .group (.initDefault (⟨default, 0⟩, ⟨default, 0⟩)), .decide [], .select 0, .write,
    .share (.op (.addFile (Text.ascii "/data/a.txt") default (some (1, 10)) 0))]

end FileLists

end Blacklink.Share
