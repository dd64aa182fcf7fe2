import Mathlib.Data.List.Induction
import Blacklink.HashDb.Entries
import Blacklink.HashDb.Resize
import Blacklink.HashDb.Updates

/-!
# Reading what was stored

A connection that works alone finds for every key the entry that its successful updates make one
after another: the flags are the union of those given, the path and the tree are the last ones, the
count is the number of increments. A file size is stored with a change only
(`client/HashDatabaseLMDB.cpp:497-500`), and a tree of the same file size with as many leaves as the
one that is there counts as that tree (`583-587`).
-/

namespace Blacklink.HashDb

open Blacklink.Base

namespace Lookup

/-! ### What the updates say -/

/-- The union of the flags that were given. -/
def allFlags (ops : List Op) : UInt32 :=
  ops.foldl (fun flags op =>
    match op with
    | .putFileInfo _ u => flags ||| u.flags
    | _ => flags) 0

/-- The last path that was given. -/
def lastPath (ops : List Op) : Option Bytes :=
  ops.foldl (fun path op =>
    match op with
    | .putFileInfo _ u => if u.path.isSome then u.path else path
    | _ => path) none

/-- How often the upload count was to be incremented. -/
def increments (ops : List Op) : Nat :=
  ops.foldl (fun count op =>
    match op with
    | .putFileInfo _ u => if u.incUploadCount then count + 1 else count
    | _ => count) 0

/-- The last tree that was given and not removed. A tree of one leaf is not stored. -/
def lastTree (ops : List Op) : Option (List TTHValue) :=
  ops.foldl (fun tree op =>
    match op with
    | .putTigerTree t => if t.leaves.length < 2 then tree else some t.leaves
    | .removeTigerTree _ => none
    | _ => tree) none

/-- Two trees that were given and have as many leaves are the same. They are trees of one root. -/
def TreesAgree (ops : List Op) : Prop :=
  ∀ t t', Op.putTigerTree t ∈ ops → Op.putTigerTree t' ∈ ops →
    t.leaves.length = t'.leaves.length → t.leaves = t'.leaves

/-- What the updates of one key make of it. -/
def entry (ops : List Op) : Option Entry := ops.foldl Entry.update none

/-- The size an operation gives. -/
def sizeGiven : Op → Option Nat
  | .putFileInfo _ u => some u.fileSize.toNat
  | .putTigerTree t => some (t.fileSize % 2 ^ 64)
  | _ => none

/-- The entry and the size after one more update. -/
def addSize (s : Option Entry × Option Nat) (op : Op) : Option Entry × Option Nat :=
  (Entry.update s.1 op,
    if Entry.update s.1 op = s.1 then s.2 else if (sizeGiven op).isSome then sizeGiven op else s.2)

/-- The last size that was given by an update that changed the entry. -/
def lastSize (ops : List Op) : Option Nat := (ops.foldl addSize (none, none)).2

/-- The entry sums up the updates. -/
structure Summary (ops : List Op) (e : Entry) : Prop where
  flags : e.flags = allFlags ops &&& 0xFFFF
  path : e.path = lastPath ops
  uploadCount : e.uploadCount.getD 0 = UInt32.ofNat (increments ops)
  tree : TreesAgree ops → e.tree = lastTree ops

private theorem and_or_and (a b m : UInt32) : (a &&& m ||| b) &&& m = (a ||| b) &&& m := by
  apply UInt32.toBitVec_inj.mp
  simp only [UInt32.toBitVec_and, UInt32.toBitVec_or]
  ext i hi
  simp only [BitVec.getElem_and, BitVec.getElem_or]
  cases a.toBitVec[i] <;> cases m.toBitVec[i] <;> simp

section PutFileInfo

variable (x : Option Entry) (u : FileUpdate)

/-- Where nothing is stored, nothing was to be changed. -/
private theorem putFileInfo_cases :
    (Entry.putFileInfo x u = x ∧ (x.getD .empty).flags ||| u.flags = (x.getD .empty).flags ∧
        (u.path.isSome → (x.getD .empty).path = u.path) ∧ u.incUploadCount = false) ∨
      Entry.putFileInfo x u = some
        { flags := ((x.getD .empty).flags ||| u.flags) &&& 0xFFFF
          fileSize := u.fileSize.toNat
          path := if u.path.isSome then u.path else (x.getD .empty).path
          uploadCount :=
            if u.incUploadCount then some ((x.getD .empty).uploadCount.getD 0 + 1)
            else (x.getD .empty).uploadCount
          tree := (x.getD .empty).tree } := by
  rw [Entry.putFileInfo]
  split
  · next hnothing =>
    refine .inl ⟨rfl, hnothing.1, fun hsome => ?_, hnothing.2.2⟩
    by_contra hne
    exact hnothing.2.1 ⟨hsome, hne⟩
  · exact .inr rfl

private theorem flags_putFileInfo (hflags : (x.getD .empty).flags &&& 0xFFFF =
    (x.getD .empty).flags) :
    ((Entry.putFileInfo x u).getD .empty).flags =
      ((x.getD .empty).flags ||| u.flags) &&& 0xFFFF := by
  rcases putFileInfo_cases x u with ⟨hsame, hor, -⟩ | hnew
  · rw [hsame, hor, hflags]
  · rw [hnew]
    rfl

private theorem path_putFileInfo :
    ((Entry.putFileInfo x u).getD .empty).path =
      if u.path.isSome then u.path else (x.getD .empty).path := by
  rcases putFileInfo_cases x u with ⟨hsame, -, hpath, -⟩ | hnew
  · rw [hsame]
    split
    · next hsome => exact hpath hsome
    · rfl
  · rw [hnew]
    rfl

private theorem uploadCount_putFileInfo :
    ((Entry.putFileInfo x u).getD .empty).uploadCount =
      if u.incUploadCount then some ((x.getD .empty).uploadCount.getD 0 + 1)
      else (x.getD .empty).uploadCount := by
  rcases putFileInfo_cases x u with ⟨hsame, -, -, hinc⟩ | hnew
  · rw [hsame, if_neg (by simp [hinc])]
  · rw [hnew]
    rfl

private theorem tree_putFileInfo :
    ((Entry.putFileInfo x u).getD .empty).tree = (x.getD .empty).tree := by
  rcases putFileInfo_cases x u with ⟨hsame, -⟩ | hnew
  · rw [hsame]
  · rw [hnew]
    rfl

end PutFileInfo

/-- A tree changes nothing but the file size and the tree. -/
private theorem putTigerTree_cases (x : Option Entry) (t : Hash.MerkleTree TTHValue) :
    (Entry.putTigerTree x t = x ∧
        (x.getD .empty).tree.map List.length = some t.leaves.length) ∨
      Entry.putTigerTree x t =
        some { x.getD .empty with fileSize := t.fileSize % 2 ^ 64, tree := some t.leaves } := by
  rw [Entry.putTigerTree]
  split
  · next hsame => exact .inl ⟨rfl, hsame.2.1⟩
  · exact .inr rfl

/-- Nothing but the tree and the file size is lost with the tree. -/
private theorem getD_removeTigerTree (x : Option Entry) :
    ∃ size, (Entry.removeTigerTree x).getD .empty =
      { x.getD .empty with fileSize := size, tree := none } := by
  cases x with
  | none => exact ⟨0, rfl⟩
  | some e =>
    rw [Entry.removeTigerTree]
    split_ifs with htree hempty
    · refine ⟨e.fileSize, ?_⟩
      rw [Option.getD_some, ← htree]
    · obtain ⟨hflags, hpath, hcount⟩ := hempty
      refine ⟨0, ?_⟩
      dsimp only [Option.getD_some]
      rw [hflags, hpath, hcount]
      rfl
    · exact ⟨e.fileSize, rfl⟩

private theorem summary_nil : Summary [] (Entry.empty) := ⟨by decide, rfl, rfl, fun _ => rfl⟩

/-- The tree is one of those that were given. -/
private theorem lastTree_mem {ops : List Op} {leaves : List TTHValue}
    (h : lastTree ops = some leaves) : ∃ t, Op.putTigerTree t ∈ ops ∧ t.leaves = leaves := by
  induction ops using List.reverseRecOn with
  | nil => cases h
  | append_singleton ops op ih =>
    have hold : lastTree ops = some leaves →
        ∃ t, Op.putTigerTree t ∈ ops ++ [op] ∧ t.leaves = leaves := by
      intro heq
      obtain ⟨t, hmem, hleaves⟩ := ih heq
      exact ⟨t, List.mem_append_left _ hmem, hleaves⟩
    rw [lastTree, List.foldl_concat, ← lastTree] at h
    cases op with
    | putTigerTree t =>
      dsimp only at h
      split at h
      · exact hold h
      · exact ⟨t, by simp, Option.some.inj h⟩
    | removeTigerTree tth => cases h
    | _ => exact hold h

private theorem treesAgree_append {ops : List Op} {op : Op} (h : TreesAgree (ops ++ [op])) :
    TreesAgree ops :=
  fun t t' ht ht' => h t t' (List.mem_append_left _ ht) (List.mem_append_left _ ht')

/-- One more update. -/
private theorem Summary.update {ops : List Op} {x : Option Entry} (h : Summary ops (x.getD .empty))
    (op : Op) : Summary (ops ++ [op]) ((Entry.update x op).getD .empty) := by
  have hmask : (x.getD .empty).flags &&& 0xFFFF = (x.getD .empty).flags := by
    rw [h.flags, UInt32.and_assoc, UInt32.and_self]
  have hstep : ∀ e : Entry, e.flags = (x.getD .empty).flags → e.path = (x.getD .empty).path →
      e.uploadCount = (x.getD .empty).uploadCount →
      (∀ tth u, op ≠ .putFileInfo tth u) →
      (TreesAgree (ops ++ [op]) → e.tree = lastTree (ops ++ [op])) → Summary (ops ++ [op]) e := by
    intro e hflags hpath hcount hop htree
    refine ⟨?_, ?_, ?_, htree⟩
    · rw [hflags, h.flags, allFlags, allFlags, List.foldl_concat]
      cases op <;> first | rfl | exact absurd rfl (hop _ _)
    · rw [hpath, h.path, lastPath, lastPath, List.foldl_concat]
      cases op <;> first | rfl | exact absurd rfl (hop _ _)
    · rw [hcount, h.uploadCount, increments, increments, List.foldl_concat]
      cases op <;> first | rfl | exact absurd rfl (hop _ _)
  have hlast : lastTree (ops ++ [op]) = _ := List.foldl_concat ..
  cases op with
  | putFileInfo tth u =>
    rw [Entry.update]
    refine ⟨?_, ?_, ?_, ?_⟩
    · rw [flags_putFileInfo x u hmask, h.flags, and_or_and, allFlags, allFlags, List.foldl_concat]
    · rw [path_putFileInfo, h.path, lastPath, lastPath, List.foldl_concat]
    · rw [uploadCount_putFileInfo, increments, List.foldl_concat, ← increments]
      dsimp only
      split
      · rw [Option.getD_some, h.uploadCount]
        exact (UInt32.ofNat_add _ _).symm
      · exact h.uploadCount
    · intro hagree
      rw [tree_putFileInfo, h.tree (treesAgree_append hagree), hlast]
      rfl
  | putTigerTree t =>
    rw [Entry.update]
    split
    · next hleaves =>
      refine hstep _ rfl rfl rfl (by simp) fun hagree => ?_
      rw [hlast]
      dsimp only
      rw [if_pos hleaves]
      exact h.tree (treesAgree_append hagree)
    · next hleaves =>
      rcases putTigerTree_cases x t with ⟨hsame, hlength⟩ | hnew
      · rw [hsame]
        refine hstep _ rfl rfl rfl (by simp) fun hagree => ?_
        rw [hlast]
        dsimp only
        rw [if_neg hleaves]
        rw [h.tree (treesAgree_append hagree)] at hlength ⊢
        obtain ⟨leaves, hleaves', hlen⟩ := Option.map_eq_some_iff.mp hlength
        obtain ⟨t', hmem, rfl⟩ := lastTree_mem hleaves'
        rw [hleaves', hagree t' t (List.mem_append_left _ hmem) (by simp) hlen]
      · rw [hnew]
        refine hstep _ rfl rfl rfl (by simp) fun _ => ?_
        rw [hlast]
        dsimp only
        rw [if_neg hleaves]
        rfl
  | removeTigerTree tth =>
    obtain ⟨size, heq⟩ := getD_removeTigerTree x
    rw [Entry.update, heq]
    exact hstep _ rfl rfl rfl (by simp) fun _ => hlast.symm
  | getFileInfo tth =>
    exact hstep _ rfl rfl rfl (by simp) fun hagree =>
      (h.tree (treesAgree_append hagree)).trans hlast.symm
  | getTigerTree tth =>
    exact hstep _ rfl rfl rfl (by simp) fun hagree =>
      (h.tree (treesAgree_append hagree)).trans hlast.symm
  | getDBInfo flags =>
    exact hstep _ rfl rfl rfl (by simp) fun hagree =>
      (h.tree (treesAgree_append hagree)).trans hlast.symm

/-- The updates of a key make what they say. -/
theorem summary_entry (ops : List Op) : Summary ops ((entry ops).getD .empty) := by
  induction ops using List.reverseRecOn with
  | nil => exact summary_nil
  | append_singleton ops op ih =>
    rw [entry, List.foldl_concat]
    exact ih.update op

private theorem foldl_addSize (ops : List Op) :
    (ops.foldl addSize (none, none)).1 = entry ops := by
  induction ops using List.reverseRecOn with
  | nil => rfl
  | append_singleton ops op ih =>
    rw [entry, List.foldl_concat, List.foldl_concat, addSize, ih, entry]

/-- The size of an entry that an update has changed. -/
private theorem fileSize_update {x : Option Entry} {op : Op} {e : Entry}
    (h : Entry.update x op = some e) (hne : Entry.update x op ≠ x) :
    sizeGiven op = some e.fileSize ∨
      sizeGiven op = none ∧ ∃ e', x = some e' ∧ e.fileSize = e'.fileSize := by
  cases op with
  | putFileInfo tth u =>
    rw [Entry.update] at h hne
    rcases putFileInfo_cases x u with ⟨hsame, -⟩ | hnew
    · exact absurd hsame hne
    · rw [hnew] at h
      cases h
      exact .inl rfl
  | putTigerTree t =>
    rw [Entry.update] at h hne
    split at h
    · next hleaves =>
      rw [if_pos hleaves] at hne
      exact absurd rfl hne
    · next hleaves =>
      rw [if_neg hleaves] at hne
      rcases putTigerTree_cases x t with ⟨hsame, -⟩ | hnew
      · exact absurd hsame hne
      · rw [hnew] at h
        cases h
        exact .inl rfl
  | removeTigerTree tth =>
    refine .inr ⟨rfl, ?_⟩
    cases x with
    | none => cases h
    | some e' =>
      rw [Entry.update, Entry.removeTigerTree] at h
      split_ifs at h <;> cases h <;> exact ⟨_, rfl, rfl⟩
  | _ => exact absurd rfl hne

/-- The size of the entry is the last one that was given with a change. -/
theorem lastSize_entry {ops : List Op} {e : Entry} (h : entry ops = some e) :
    lastSize ops = some e.fileSize := by
  induction ops using List.reverseRecOn generalizing e with
  | nil => cases h
  | append_singleton ops op ih =>
    rw [entry, List.foldl_concat, ← entry] at h
    rw [lastSize, List.foldl_concat, addSize, foldl_addSize]
    dsimp only
    split
    · next hsame =>
      rw [hsame] at h
      exact ih h
    · next hne =>
      rcases fileSize_update h hne with hgiven | ⟨hgiven, e', he', hsize⟩
      · rw [hgiven]
        rfl
      · rw [hgiven, hsize]
        exact ih he'

/-! ### One connection -/

/-- LMDB is a map: it is honest, as for any number of connections, and finds the database it was
opened with. Any other call may still fail. -/
def Lmdb (w : World Unit) (l : Local) : (a : Action) → a.Response → Prop
  | .dbiOpen _, error => error = 0
  | a, r => Updates.Honest w l a r

/-- The steps of a run with such an LMDB. -/
def Condition (w : World Unit) (e : Event Unit) : Prop := w.Relies (Lmdb w) e

private theorem Lmdb.honest {w : World Unit} {l : Local} {a : Action} {r : a.Response}
    (h : Lmdb w l a r) : Updates.Honest w l a r := by
  cases a <;> first | exact h | trivial

/-- The record that the update has read is still there. -/
def Fresh (db : TTHValue → Option Bytes) (l : Local) : Prop :=
  ∀ op key val buf, l.op = some op → op.key = some key → l.seen = some (val, buf) →
    l.applied = false → val = Updates.found db key

/-- The state is normal but for a resize of the connection itself. -/
def Normal (s : Shared) (l : Local) : Prop :=
  Resize.owner l.role = false → s.sharedState = .normal

private theorem seen_next {l : Local} {a : Action} (hget : ∀ tth, a ≠ .get tth)
    (hcommit : a ≠ .commit) (r : a.Response) :
    (l.next a r).seen = l.seen ∧ (l.next a r).applied = l.applied := by
  cases a <;> first
    | exact absurd rfl (hget _)
    | contradiction
    | exact ⟨rfl, rfl⟩
    | (simp only [Local.next, Local.enterResize, Local.note]; split_ifs <;> exact ⟨rfl, rfl⟩)

/-- Only the connection itself changes the record, and then its update is in effect. -/
private theorem Fresh.next {w : World Unit} (h : Fresh w.shared.db (w.conns ()).state) {a : Action}
    {r : a.Response} (hneed : Updates.need (w.conns ()).state a)
    (hhonest : Updates.Honest w (w.conns ()).state a r) :
    Fresh (w.shared.next (w.conns ()).state a r).db ((w.conns ()).state.next a r) := by
  intro op key val buf hop hkey hseen happlied
  rw [Updates.op_next] at hop
  by_cases hcommit : a = .commit
  · subst hcommit
    simp only [Local.next, Bool.or_eq_false_iff, decide_eq_false_iff_not] at happlied
    rw [Shared.next, if_neg happlied.2]
    refine h op key val buf hop hkey ?_ happlied.1
    simp only [Local.next, Local.note] at hseen
    split_ifs at hseen <;> exact hseen
  · rw [Updates.db_next hcommit]
    by_cases hget : ∃ tth, a = .get tth
    · obtain ⟨tth, rfl⟩ := hget
      have htth := hneed.2 op hop (by simp [hkey])
      have hval := hhonest op hop htth
      rw [hkey] at htth
      cases htth
      simp only [Local.next, Option.some.injEq, Prod.mk.injEq] at hseen
      rw [← hseen.1]
      exact hval
    · have hsame := seen_next (l := (w.conns ()).state) (fun tth heq => hget ⟨tth, heq⟩) hcommit r
      rw [hsame.1] at hseen
      rw [hsame.2] at happlied
      exact h op key val buf hop hkey hseen happlied

/-- The actions that change neither the state nor the role. -/
private def idle : Action → Bool
  | .releaseTransaction | .enterResize | .waitMayResize | .startResize | .notifyMayResize
  | .getSharedState | .completeResize | .notifyResizeComplete => false
  | _ => true

private theorem Normal.idle {s : Shared} {l : Local} (h : Normal s l) {a : Action}
    (ha : idle a = true) (r : a.Response) : Normal (s.next l a r) (l.next a r) := by
  have hstate : (s.next l a r).sharedState = s.sharedState := by
    cases a <;> first
      | contradiction
      | rfl
      | (simp only [Shared.next, Shared.commit]; (try split_ifs) <;> (try split) <;> rfl)
  have hrole : (l.next a r).role = l.role := by
    cases a <;> first
      | contradiction
      | rfl
      | (simp only [Local.next, Local.note]; split_ifs <;> rfl)
  rw [Normal, hstate, hrole]
  exact h

/-- The only connection that resizes the map is this one. -/
private theorem Normal.next {s : Shared} {l : Local} (h : Normal s l) {env : Env} {a : Action}
    {r : a.Response} (hneed : Resize.need l a) (hok : Resize.RoleOk s l.role)
    (hr : s.reply l env a = some r) : Normal (s.next l a r) (l.next a r) := by
  have hnormal : ∀ role, l.role = role → Resize.owner role = false → s.sharedState = .normal := by
    intro role hrole howner
    rw [← hrole] at howner
    exact h howner
  cases a with
  | releaseTransaction =>
    have hstate := hnormal .none hneed.role rfl
    exact fun _ => hstate
  | enterResize =>
    have hstate := hnormal .none hneed rfl
    cases hr
    intro howner
    simp only [Local.next, Local.enterResize, Shared.stateAfterEnter, hstate] at howner
    split_ifs at howner <;> simp_all [Resize.owner]
  | waitMayResize => exact fun howner => Bool.noConfusion howner
  | startResize =>
    have hgranted : l.role = .granted := hneed
    rw [hgranted] at hok
    cases hr
    intro howner
    simp [Local.next, hok.1, Resize.owner] at howner
  | notifyMayResize =>
    have hstate := hnormal .notifying hneed rfl
    exact fun _ => hstate
  | getSharedState =>
    cases hr
    rcases hneed with hwaiter | hresizing
    · exact fun _ => hnormal .waiter hwaiter rfl
    · rw [hresizing] at hok
      have hstate : s.sharedState = .resize := hok
      intro howner
      simp [Local.next, hstate, hresizing, Resize.owner] at howner
  | completeResize =>
    have hresizing : l.role = .resizing := hneed
    rw [hresizing] at hok
    have hstate : s.sharedState = .resize := hok
    intro _
    simp [Shared.next, hstate]
  | notifyResizeComplete =>
    have hstate := hnormal .completing hneed rfl
    exact fun _ => hstate
  | _ => exact h.idle rfl r

/-- What holds of a connection that works alone. -/
structure Alone (w : World Unit) : Prop where
  fresh : Fresh w.shared.db (w.conns ()).state
  normal : Normal w.shared (w.conns ()).state

private theorem alone_init (mapsize : Nat) (db : TTHValue → Option Bytes) :
    Alone (World.init Unit mapsize db) where
  fresh _ _ _ _ hop := by cases hop
  normal _ := rfl

private theorem Alone.step {w : World Unit} (h : Alone w) {e : Event Unit} (hcond : Condition w e)
    {db : TTHValue → Option Bytes} {log : List (Unit × Op × Bytes)} {oks : List (Unit × Op)}
    (hupdates : Updates.Inv db log oks w) (hresize : Resize.Inv w) : Alone (w.step e) := by
  cases e with
  | start i op =>
    rw [World.step]
    split
    · next hret =>
      obtain ⟨x, -, hrest⟩ := hresize.keeps.post hret
      have hstate := h.normal (by rw [hrest.role]; rfl)
      refine ⟨fun _ _ _ _ _ _ hseen => ?_, fun _ => hstate⟩
      simp [World.set, Local.start] at hseen
    · exact h
  | act i env =>
    rcases w.act_cases i env with heq | ⟨a, code, r, hcode, hr, heq⟩
    · rw [World.step, heq]
      exact h
    · have hhonest := (hcond a code r hcode hr).honest
      have hneed := hupdates.keeps i
      have hneed' := hresize.keeps i
      rw [hcode] at hneed hneed'
      rw [World.step, heq]
      exact ⟨h.fresh.next hneed.1 hhonest,
        h.normal.next hneed'.1 (hresize.protocol.role i) hr⟩
  | close i =>
    rw [World.step]
    split
    · exact ⟨fun op key val buf => h.fresh op key val buf, h.normal⟩
    · exact h

private theorem Alone.updates {w : World Unit} (h : Alone w) {e : Event Unit}
    (hcond : Condition w e) {db : TTHValue → Option Bytes} {log : List (Unit × Op × Bytes)}
    {oks : List (Unit × Op)} (hupdates : Updates.Inv db log oks w) : Updates.Condition w e := by
  cases e with
  | act i env =>
    intro a code r hcode hr
    refine ⟨(hcond a code r hcode hr).honest, ?_⟩
    cases a with
    | commit =>
      intro _ _ op key val buf hop hkey hseen
      have hneed := hupdates.keeps i
      rw [hcode] at hneed
      obtain ⟨_, _, _, _, _, hstaged⟩ := hneed.1
      exact (h.fresh op key val buf hop hkey hseen hstaged.applied).symm
    | _ => trivial
  | _ => trivial

private theorem Alone.resize {w : World Unit} (h : Alone w) {e : Event Unit}
    (hcond : Condition w e) : w.Relies Resize.Condition e := by
  cases e with
  | act i env =>
    intro a code r hcode hr
    have hlmdb := hcond a code r hcode hr
    cases a with
    | getSharedState =>
      intro hwaiter
      cases hr
      exact h.normal (by rw [hwaiter]; rfl)
    | dbiOpen write => exact hlmdb
    | _ => trivial
  | _ => trivial

/-- A connection that works alone meets the conditions under which no update is lost and the map is
resized by one thread. -/
theorem conditions {mapsize : Nat} {db : TTHValue → Option Bytes} {es : List (Event Unit)}
    (h : Within Condition World.step (World.init Unit mapsize db) es) :
    Within Updates.Condition World.step (World.init Unit mapsize db) es ∧
      Within (World.Relies Resize.Condition) World.step (World.init Unit mapsize db) es ∧
      Alone (run World.step (World.init Unit mapsize db) es) := by
  induction es using List.reverseRecOn with
  | nil => exact ⟨trivial, trivial, alone_init mapsize db⟩
  | append_singleton es e ih =>
    rw [within_append] at h
    obtain ⟨hupdates, hresize, halone⟩ := ih h.1
    have hinv := Updates.inv_init_run mapsize db es hupdates
    have hinv' := Resize.inv_init_run mapsize db es hresize
    rw [within_append, within_append, run_append]
    exact ⟨⟨hupdates, halone.updates h.2.1 hinv, trivial⟩,
      ⟨hresize, halone.resize h.2.1, trivial⟩, halone.step h.2.1 hinv hinv'⟩

/-! ### Reading -/

/-- LMDB answers without an error. -/
def answers : Env := ⟨0, [], [], (0, 0)⟩

/-- What LMDB answers to `mdb_get`. -/
def answersGet (val : Option Bytes) : Env :=
  match val with
  | some val => ⟨0, val, [], (0, 0)⟩
  | none => ⟨mdbNotFound, [], [], (0, 0)⟩

/-- A read of the key whose record is `val`, with the answers of LMDB to its calls. -/
def reading (op : Op) (val : Option Bytes) : List (Event Unit) :=
  .start () op :: [answers, answers, answers, answers, answersGet val, answers, answers].map
    (Event.act ())

/-- What the connection gives back when it reads the key in the state `w`. -/
def Gives (w : World Unit) (op : Op) (tth : TTHValue) (x : Answer) : Prop :=
  ((run World.step w (reading op (w.shared.db tth))).conns ()).code = .ret x

/-- The answer of the code, when its calls are answered by `envs`. -/
private def Ends (s : Shared) (l : Local) (code : Code Answer) (envs : List Env) (x : Answer) :
    Prop :=
  ((run World.step ⟨s, fun _ => ⟨code, l⟩⟩ (envs.map (Event.act ()))).conns ()).code = .ret x

private theorem ends_act {s : Shared} {l : Local} {a : Action} {code : a.Response → Code Answer}
    {env : Env} {envs : List Env} {x : Answer} (r : a.Response) (hr : s.reply l env a = some r)
    (h : Ends (s.next l a r) (l.next a r) (code r) envs x) :
    Ends s l (.act a code) (env :: envs) x := by
  have hstep : World.step (⟨s, fun _ => ⟨.act a code, l⟩⟩ : World Unit) (.act () env) =
      ⟨s.next l a r, fun _ => ⟨code r, l.next a r⟩⟩ := by
    simp only [World.step, World.act, hr]
    congr 1
  rw [Ends, List.map_cons, run_cons, hstep]
  exact h

private theorem gives_of_ends {w : World Unit} {op : Op} {tth : TTHValue} {x : Answer}
    (hret : (w.conns ()).code.returned = true)
    (h : Ends w.shared ((w.conns ()).state.start op) op.code
      [answers, answers, answers, answers, answersGet (w.shared.db tth), answers, answers] x) :
    Gives w op tth x := by
  have hstart : w.step (.start () op) =
      ⟨w.shared, fun _ => ⟨op.code, (w.conns ()).state.start op⟩⟩ := by
    rw [World.step, if_pos hret, World.set]
    congr 1
  rw [Gives, reading, run_cons, hstart]
  exact h

/-- The end of a read. -/
private theorem ends_completeReadTxn {s : Shared} {l : Local} {x : Answer}
    (hstate : s.sharedState = .normal) :
    Ends s l (completeReadTxn >>= fun _ => pure x) [answers, answers] x := by
  apply ends_act () rfl
  apply ends_act (s.sharedState, s.numTxn - 1) rfl
  rw [hstate]
  rfl

/-- A read up to `mdb_get`. -/
private theorem ends_read {s : Shared} {l : Local} {tth : TTHValue} {val : Option Bytes}
    {rest : Except Int Bytes → Code Answer} {x : Answer} (hstate : s.sharedState = .normal)
    (hrest : ∀ s' l', s'.sharedState = .normal →
      Ends s' l' (rest (Entry.lookup val)) [answers, answers] x) :
    Ends s l
      (do
        if (← createReadTxn) = false then pure .failed
        else
          let val ← call (.get tth)
          rest val)
      [answers, answers, answers, answers, answersGet val, answers, answers] x := by
  have hget : ∀ (s' : Shared) (l' : Local),
      s'.reply l' (answersGet val) (.get tth) = some (Entry.lookup val) := by
    intro s' l'
    cases val <;> rfl
  apply ends_act true
  · rw [Shared.reply, hstate]
  apply ends_act (decide (l.txnRead ≠ .null)) rfl
  by_cases hnull : l.txnRead = .null
  · have hdec : decide (l.txnRead ≠ .null) = false := by simp [hnull]
    rw [hdec]
    apply ends_act (0 : Int) rfl
    apply ends_act (0 : Int) rfl
    apply ends_act (Entry.lookup val) (hget _ _)
    exact hrest _ _ hstate
  · have hdec : decide (l.txnRead ≠ .null) = true := by simp [hnull]
    rw [hdec]
    apply ends_act (0 : Int) rfl
    apply ends_act (0 : Int) rfl
    apply ends_act (Entry.lookup val) (hget _ _)
    exact hrest _ _ hstate

/-- What `getFileInfo` gives for an entry. -/
def fileInfoAnswer : Option Entry → Answer
  | none => .failed
  | some e => .fileInfo e.info

/-- What `getTigerTree` gives for an entry. -/
def treeAnswer : Option Entry → Answer
  | some ⟨_, fileSize, _, _, some leaves⟩ => .tree fileSize (leaves.flatMap Subtype.val)
  | _ => .failed

section Gives

variable {w : World Unit} {x : Option Entry} {tth : TTHValue}

theorem gives_getFileInfo (hret : (w.conns ()).code.returned = true)
    (hstate : w.shared.sharedState = .normal) (h : Entry.Represents x (w.shared.db tth)) :
    Gives w (.getFileInfo tth) tth (fileInfoAnswer x) := by
  apply gives_of_ends hret
  apply ends_read hstate
  intro s' l' hstate'
  rw [h.recordOf]
  cases x with
  | none =>
    rw [h.eq_none]
    exact ends_completeReadTxn hstate'
  | some e =>
    obtain ⟨val, hval, hholds⟩ := h.eq_some
    rw [hval, fileInfoAnswer, ← hholds.fileInfoOf]
    exact ends_completeReadTxn hstate'

theorem gives_getTigerTree (hret : (w.conns ()).code.returned = true)
    (hstate : w.shared.sharedState = .normal) (h : Entry.Represents x (w.shared.db tth)) :
    Gives w (.getTigerTree tth) tth (treeAnswer x) := by
  apply gives_of_ends hret
  apply ends_read hstate
  intro s' l' hstate'
  rw [h.recordOf]
  cases x with
  | none =>
    rw [h.eq_none]
    exact ends_completeReadTxn hstate'
  | some e =>
    obtain ⟨val, hval, hholds⟩ := h.eq_some
    rw [hval]
    dsimp only
    rw [hholds.tigerTreeOf]
    obtain ⟨flags, fileSize, path, uploadCount, tree⟩ := e
    cases tree with
    | none => exact ends_completeReadTxn hstate'
    | some leaves =>
      have hsize := hholds.fileSizeOf
      dsimp only at hsize ⊢
      rw [hsize]
      exact ends_completeReadTxn hstate'

end Gives

/-! ### Runs -/

/-- The updates of a key, in order. -/
def ofKey (tth : TTHValue) (ops : List Op) : List Op := ops.filter fun op => op.key = some tth

/-- One update, seen from a key. -/
theorem represents_apply {x : Option Entry} {db : TTHValue → Option Bytes} {tth : TTHValue}
    (h : Entry.Represents x (db tth)) {op : Op} (hkey : op.key = some tth)
    (hsmall : Entry.Small op) (buf : Bytes) :
    Entry.Represents (Entry.update x op) (Updates.apply op buf db tth) := by
  have hafter : Updates.apply op buf db tth =
      Entry.after (db tth) (op.outcome buf (Entry.lookup (db tth))) := by
    have hfound : Updates.found db tth = Entry.lookup (db tth) := by
      rw [Updates.found]
      cases db tth <;> rfl
    rw [Updates.apply, hkey]
    dsimp only
    rw [hfound]
    cases op.outcome buf (Entry.lookup (db tth)) with
    | writes change => cases change <;> simp [Change.apply, Entry.after]
    | _ => rfl
  rw [hafter]
  exact Entry.represents_update h hsmall buf

private theorem apply_other {op : Op} {tth : TTHValue} (hkey : op.key ≠ some tth) (buf : Bytes)
    (db : TTHValue → Option Bytes) : Updates.apply op buf db tth = db tth := by
  rw [Updates.apply]
  cases hop : op.key with
  | none => rfl
  | some key =>
    have hne : tth ≠ key := by
      rintro rfl
      exact hkey hop
    dsimp only
    cases op.outcome buf (Updates.found db key) with
    | writes change => cases change <;> simp [Change.apply, hne]
    | _ => rfl

/-- The updates one after another, seen from a key. -/
private theorem represents_foldl {x : Option Entry} {db : TTHValue → Option Bytes} {tth : TTHValue}
    (h : Entry.Represents x (db tth)) (log : List (Unit × Op × Bytes))
    (hsmall : ∀ op ∈ ofKey tth (log.map fun e => e.2.1), Entry.Small op) :
    Entry.Represents ((ofKey tth (log.map fun e => e.2.1)).foldl Entry.update x)
      (log.foldl (fun db e => Updates.apply e.2.1 e.2.2 db) db tth) := by
  induction log generalizing x db with
  | nil => exact h
  | cons e log ih =>
    obtain ⟨i, op, buf⟩ := e
    by_cases hkey : op.key = some tth
    · have hcons : ofKey tth ((i, op, buf) :: log |>.map fun e => e.2.1) =
          op :: ofKey tth (log.map fun e => e.2.1) := by simp [ofKey, hkey]
      rw [hcons] at hsmall ⊢
      apply ih
      · exact represents_apply h hkey (hsmall op (by simp)) buf
      · exact fun op' hop' => hsmall op' (List.mem_cons_of_mem _ hop')
    · have hcons : ofKey tth ((i, op, buf) :: log |>.map fun e => e.2.1) =
          ofKey tth (log.map fun e => e.2.1) := by simp [ofKey, hkey]
      rw [hcons] at hsmall ⊢
      apply ih
      · dsimp only
        rw [apply_other hkey]
        exact h
      · exact hsmall

/-- The updates that have reported success to the connection in a run from the database `db`. -/
def successful (mapsize : Nat) (db : TTHValue → Option Bytes) (es : List (Event Unit)) : List Op :=
  (Updates.successes (World.init Unit mapsize db) es).map Prod.snd

/-- What the reads find in the state `w` after the updates `ops` of the key: the entry the updates
make, and each further update leaves the items alone that it is not about. -/
structure Reads (w : World Unit) (tth : TTHValue) (ops : List Op) : Prop where
  fileInfo : Gives w (.getFileInfo tth) tth (fileInfoAnswer (entry ops))
  tree : Gives w (.getTigerTree tth) tth (treeAnswer (entry ops))
  summary : Summary ops ((entry ops).getD .empty)
  fileSize : ∀ e, entry ops = some e → lastSize ops = some e.fileSize
  others : ∀ op buf type, Entry.Small op → op.key = some tth → type ∉ Entry.touched op →
    Entry.kindOf (Updates.apply op buf w.shared.db tth) type =
      Entry.kindOf (w.shared.db tth) type

/-- Reading a key after a run of one connection. -/
theorem reads_run (mapsize : Nat) (db : TTHValue → Option Bytes) (es : List (Event Unit))
    (tth : TTHValue) (hnew : db tth = none)
    (h : Within Condition World.step (World.init Unit mapsize db) es)
    (hret : ((run World.step (World.init Unit mapsize db) es).conns ()).code.returned = true)
    (hsmall : ∀ op ∈ ofKey tth (successful mapsize db es), Entry.Small op) :
    Reads (run World.step (World.init Unit mapsize db) es) tth
      (ofKey tth (successful mapsize db es)) := by
  obtain ⟨hupdates, hresize, halone⟩ := conditions h
  have hinv := Updates.inv_init_run mapsize db es hupdates
  have hrest := Resize.inv_init_run mapsize db es hresize
  have hstate : (run World.step (World.init Unit mapsize db) es).shared.sharedState = .normal := by
    obtain ⟨x, -, hx⟩ := hrest.keeps.post hret
    exact halone.normal (by rw [hx.role]; rfl)
  have hhistory : (Updates.history (World.init Unit mapsize db) es).map (fun e => e.2.1) =
      successful mapsize db es := by
    have hcomplete := hinv.complete ()
    rw [Updates.inFlight_returned hret, List.append_nil] at hcomplete
    simpa [Updates.ofConn, successful, Function.comp_def] using hcomplete
  rw [← hhistory] at hsmall ⊢
  have hrepresents : Entry.Represents
      (entry (ofKey tth ((Updates.history (World.init Unit mapsize db) es).map fun e => e.2.1)))
      ((run World.step (World.init Unit mapsize db) es).shared.db tth) := by
    rw [hinv.db]
    refine represents_foldl ?_ _ hsmall
    rw [hnew]
    trivial
  refine ⟨gives_getFileInfo hret hstate hrepresents, gives_getTigerTree hret hstate hrepresents,
    summary_entry _, fun _ => lastSize_entry, ?_⟩
  intro op buf type hop hkey htype
  rw [(represents_apply hrepresents hkey hop buf).kindOf, hrepresents.kindOf,
    Entry.item_update _ htype]

/-- The key of the runs below. -/
private def key : TTHValue := ⟨List.replicate 24 0, length_zeros⟩

/-- A file of 5 bytes that is shared is stored, then the same file with 7 bytes. -/
private def twoSizes : List (Event Unit) :=
  .start () (.putFileInfo key ⟨2, 5, none, false⟩) ::
    ([answers, answers, answers, answersGet none, answers, answers, answers, answers].map
      (Event.act ())) ++
  .start () (.putFileInfo key ⟨2, 7, none, false⟩) ::
    ([answers, answers, answers, answersGet (some [2, 0, 5, 0, 0, 0, 0, 0, 0, 0]), answers,
      answers].map (Event.act ()))

private theorem twoSizes_within :
    Within Condition World.step (World.init Unit 1024 fun _ => none) twoSizes := by
  refine ⟨trivial, ?_, ?_, ?_, ?_, ?_, ?_, ?_, ?_, trivial, ?_, ?_, ?_, ?_, ?_, ?_, trivial⟩
  all_goals
    intro a code r hcode hr
    cases hcode
    cases hr
    first | trivial | rfl | exact fun _ _ _ => rfl | exact fun _ _ => rfl

private theorem successful_twoSizes :
    successful 1024 (fun _ => none) twoSizes =
      [.putFileInfo key ⟨2, 5, none, false⟩, .putFileInfo key ⟨2, 7, none, false⟩] := rfl

/-- The reads after the two updates. -/
theorem reads_run_two_sizes :
    Within Condition World.step (World.init Unit 1024 fun _ => none) twoSizes ∧
      Reads (run World.step (World.init Unit 1024 fun _ => none) twoSizes) key
        (ofKey key (successful 1024 (fun _ => none) twoSizes)) := by
  refine ⟨twoSizes_within, reads_run 1024 (fun _ => none) twoSizes key rfl twoSizes_within rfl ?_⟩
  intro op hop
  rw [successful_twoSizes] at hop
  have hmem := List.mem_of_mem_filter hop
  rw [List.mem_pair] at hmem
  rcases hmem with rfl | rfl
  · exact fun path hpath => nomatch hpath
  · exact fun path hpath => nomatch hpath

/-- The second size is not stored, though the update reports success. -/
theorem size_not_last :
    Within Condition World.step (World.init Unit 1024 fun _ => none) twoSizes ∧
      successful 1024 (fun _ => none) twoSizes =
        [.putFileInfo key ⟨2, 5, none, false⟩, .putFileInfo key ⟨2, 7, none, false⟩] ∧
      Gives (run World.step (World.init Unit 1024 fun _ => none) twoSizes) (.getFileInfo key) key
        (.fileInfo ⟨2, 5, [], 0, 0⟩) ∧
      ∀ info, Gives (run World.step (World.init Unit 1024 fun _ => none) twoSizes)
        (.getFileInfo key) key (.fileInfo info) → info.fileSize ≠ 7 := by
  refine ⟨twoSizes_within, successful_twoSizes, rfl, ?_⟩
  intro info hgives
  rw [Answer.fileInfo.inj (Prog.ret.inj (hgives.symm.trans rfl))]
  decide

end Lookup

end Blacklink.HashDb
