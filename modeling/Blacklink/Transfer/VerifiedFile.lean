import Blacklink.Base.Run
import Blacklink.Queue.ExclusiveSegments
import Blacklink.Transfer.FileContent
import Blacklink.Transfer.Verified

/-!
# A finished file has its TTH

Nothing looks at the whole file when an item is finished: it is made of segments that were verified
block by block, and only when their download had a tree. If every segment is fetched with a tree of
the item's block size, the finished segments consist of blocks that were compared with the leaves of
a tree of the file, and nobody writes to them again (`treeHash_of_reported`).
-/

namespace Blacklink.Queue

/-- The segment of the file the call has chosen and still has to fetch. -/
def Phase.fetching : Phase → Option Segment
  | .chosen .file seg _ => some seg
  | .recorded .file seg => some seg
  | .running .file seg => some seg
  | _ => none

/-- The same, from the moment the segment is picked. -/
def Phase.pending : Phase → Option Segment
  | .picked seg _ => some seg
  | p => p.fetching

/-- Whole blocks of the file none of which is finished. -/
structure Fresh {υ : Type} (q : QueueItem υ) (seg : Segment) : Prop where
  inside : seg.Inside q.size
  blocks : seg.Blocks q.blockSize q.size
  apart : ∀ t ∈ q.doneSegments, ∀ x, seg.Mem x → ¬t.Mem x

end Blacklink.Queue

namespace Blacklink.Transfer

open Blacklink.Base Blacklink.Hash Blacklink.Queue Blacklink.Stream

variable {φ V υ : Type} {F : Stream.Filter φ} {H : Hasher V} [DecidableEq V]

/-! ### The invariant -/

namespace ItemFile

/-- A tree of the file whose blocks are those of the item. -/
structure Usable (H : Hasher V) (tth : V) (q : QueueItem υ) (t : MerkleTree V) : Prop where
  isTree : MerkleTree.IsTreeOf H tth q.size.toNat t
  blockSize : t.blockSize = q.blockSize

omit [DecidableEq V] in
/-- Block `k` of the file was compared with its leaf. -/
def Verified (H : Hasher V) (tth : V) (q : QueueItem υ) (c : Content) (k : Nat) : Prop :=
  ∃ t, Usable H tth q t ∧ t.leaves[k]? =
    some (treeHash H (((c.bytes q.size.toNat).drop (q.blockSize * k)).take q.blockSize))

/-- A transfer is that of a download in its data phase, and what it has written is in the file. -/
structure Active (s : ItemFile F H υ) (c : Content) (u : υ) (p : Progress F H) (seg : Segment)
    (t : MerkleTree V) : Prop where
  phase : s.shared.phase u = .running .file seg
  tree : s.tree u = some t
  tracked : Tracked t seg.start.toNat seg.size.toNat p
  stored : c.Stored seg.start.toNat (StoringStream.written p.download.file.stack)

/-- The invariant of the item `q`. A segment that is being fetched is fresh and has a usable tree,
every block of the finished segments is verified, and the item is reported only when it is
finished. -/
structure Inv (tth : V) (q : QueueItem υ) (s : ItemFile F H υ) : Prop where
  queue : s.shared.queued = true → s.shared.Inv
  hasTTH : s.shared.hasTTH = true
  size : s.shared.item.size = q.size
  blockSize : s.shared.item.blockSize = q.blockSize
  done : s.shared.item.DoneBlocks
  db : ∀ t, s.db = some t → MerkleTree.IsTreeOf H tth q.size.toNat t
  sized : ∀ u seg, (s.shared.phase u).target = some (.file, seg) → 0 < seg.size
  fresh : ∀ u seg, (s.shared.phase u).pending = some seg → Fresh s.shared.item seg
  trees : ∀ u seg, (s.shared.phase u).fetching = some seg →
    ∃ t, s.tree u = some t ∧ Usable H tth q t
  active : ∀ u p, s.progress u = some p → ∃ seg t, Active s s.content u p seg t
  verified : ∀ k, q.blockSize * k < q.size.toNat →
    (∃ d ∈ s.shared.item.doneSegments, d.Mem (q.blockSize * k : Nat)) →
    Verified H tth q s.content k
  reported : s.Reported → s.shared.item.isFinished = true

variable {tth : V} {q : QueueItem υ} {s : ItemFile F H υ} {u : υ}

/-- Nothing is transferred outside of the data phase. -/
theorem Inv.progress_none (h : Inv tth q s)
    (hphase : ∀ seg, s.shared.phase u ≠ .running .file seg) :
    s.progress u = none := by
  cases hp : s.progress u with
  | none => rfl
  | some p =>
    obtain ⟨seg, t, hact⟩ := h.active u p hp
    exact absurd hact.phase (hphase seg)

/-- While a segment is missing the item is not reported. -/
theorem Inv.not_reported (h : Inv tth q s) (hq : 0 < q.size) {seg : Segment}
    (hfresh : Fresh s.shared.item seg) : ¬s.Reported := by
  intro hrep
  have hfin := h.reported hrep
  have hpos : 0 < s.shared.item.size := h.size ▸ hq
  have hin : ∀ x, Covers (s.shared.item.doneSegments.map Segment.toInterval) x →
      0 ≤ x ∧ x < s.shared.item.size := by
    intro x hx
    obtain ⟨d, hd, hmem⟩ := QueueItem.covers_map.mp hx
    have hinside := h.done.inside d hd
    rw [Segment.Inside] at hinside
    rw [Segment.Mem] at hmem
    omega
  have hall := (QueueItem.isFinished_iff h.done.consolidated hpos hin).mp hfin
  have hseg := hfresh.inside
  rw [Segment.Inside, Segment.getEnd] at hseg
  obtain ⟨d, hd, hmem⟩ := QueueItem.covers_map.mp (hall seg.start (by omega) (by omega))
  refine hfresh.apart d hd seg.start ?_ hmem
  rw [Segment.Mem, Segment.getEnd]
  omega

theorem Inv.queued (h : Inv tth q s) (hq : 0 < q.size) {seg : Segment}
    (hfresh : Fresh s.shared.item seg) : s.shared.queued = true := by
  by_contra hno
  rw [Bool.not_eq_true] at hno
  exact h.not_reported hq hfresh (.inl hno)

variable [DecidableEq υ]

/-- A step of `u` that finishes nothing. The finished segments stay, or are given up while the item
is not reported. -/
theorem Inv.update (h : Inv tth q s) {item : QueueItem υ} {phase : Phase}
    {tree : υ → Option (MerkleTree V)}
    (hqueue : s.shared.queued = true → (s.shared.update u item phase).Inv)
    (hsize : item.size = s.shared.item.size) (hblock : item.blockSize = s.shared.item.blockSize)
    (hdone : item.doneSegments = s.shared.item.doneSegments ∨
      item.doneSegments = [] ∧ ¬s.Reported)
    (hsized : ∀ seg, phase.target = some (.file, seg) → 0 < seg.size)
    (hpending : ∀ seg, phase.pending = some seg → Fresh s.shared.item seg)
    (hfetching : ∀ seg, phase.fetching = some seg → ∃ t, tree u = some t ∧ Usable H tth q t)
    (htree : ∀ v, v ≠ u → tree v = s.tree v) (hprogress : s.progress u = none)
    (hending : ∀ type seg, phase ≠ .ending type seg true) :
    Inv tth q { s with shared := s.shared.update u item phase, tree := tree } := by
  have hself : (s.shared.update u item phase).phase u = phase := Function.update_self ..
  have hother : ∀ v, v ≠ u → (s.shared.update u item phase).phase v = s.shared.phase v :=
    fun v hv => Function.update_of_ne hv ..
  have hsub : ∀ d ∈ item.doneSegments, d ∈ s.shared.item.doneSegments := by
    rcases hdone with hdone | ⟨hdone, -⟩
    · rw [hdone]
      exact fun d hd => hd
    · rw [hdone]
      intro d hd
      cases hd
  have hfresh : ∀ {seg}, Fresh s.shared.item seg → Fresh item seg := by
    intro seg hf
    exact ⟨hsize ▸ hf.inside, hblock ▸ hsize ▸ hf.blocks, fun d hd => hf.apart d (hsub d hd)⟩
  refine ⟨hqueue, h.hasTTH, hsize.trans h.size, hblock.trans h.blockSize, ?_, h.db, ?_, ?_, ?_, ?_,
    ?_, ?_⟩
  · -- the finished segments
    change item.DoneBlocks
    rcases hdone with hdone | ⟨hdone, -⟩
    · refine ⟨hdone ▸ h.done.consolidated, ?_, ?_⟩
      · rw [hdone, hsize]
        exact h.done.inside
      · rw [hdone, hsize, hblock]
        exact h.done.blocks
    · refine ⟨?_, ?_, ?_⟩
      · rw [hdone]
        exact ⟨List.Pairwise.nil, by simp [Proper]⟩
      · simp [hdone]
      · simp [hdone]
  · intro v seg hv
    by_cases hvu : v = u
    · rw [hvu] at hv
      exact hsized seg (hself ▸ hv)
    · exact h.sized v seg (hother v hvu ▸ hv)
  · intro v seg hv
    by_cases hvu : v = u
    · rw [hvu] at hv
      exact hfresh (hpending seg (hself ▸ hv))
    · exact hfresh (h.fresh v seg (hother v hvu ▸ hv))
  · intro v seg hv
    by_cases hvu : v = u
    · rw [hvu] at hv ⊢
      exact hfetching seg (hself ▸ hv)
    · obtain ⟨t, ht, husable⟩ := h.trees v seg (hother v hvu ▸ hv)
      exact ⟨t, (htree v hvu).trans ht, husable⟩
  · intro v p hp
    have hvu : v ≠ u := by
      rintro rfl
      rw [show s.progress v = some p from hp] at hprogress
      cases hprogress
    obtain ⟨seg, t, hact⟩ := h.active v p hp
    exact ⟨seg, t, (hother v hvu).trans hact.phase, (htree v hvu).trans hact.tree, hact.tracked,
      hact.stored⟩
  · rintro k hk ⟨d, hd, hmem⟩
    exact h.verified k hk ⟨d, hsub d hd, hmem⟩
  · intro hrep
    have hold : s.Reported := by
      rcases hrep with hnot | ⟨v, type, seg, hv⟩
      · exact .inl hnot
      · by_cases hvu : v = u
        · rw [hvu] at hv
          exact absurd (hself.symm.trans hv) (hending type seg)
        · exact .inr ⟨v, type, seg, (hother v hvu).symm.trans hv⟩
    have hfin := h.reported hold
    have hsame := hdone.resolve_right fun hno => hno.2 hold
    change item.isFinished = true
    rw [QueueItem.isFinished, hsame, hsize]
    exact hfin

/-! ### The steps of the queue -/

/-- The condition of a step: the parts of partial sources are ordered; a tree added to the database
is one of the file; a lookup finds a tree with the item's block size, or asks the peer for one; no
compressed stream ends before its segment. -/
def Ok (tth : V) (q : QueueItem υ) (s : ItemFile F H υ) : FileEvent υ φ V → Prop
  | .addTree tree => MerkleTree.IsTreeOf H tth q.size.toNat tree
  | .pick _ a => ∀ ps, a.partialSource = some ps → ps.Ordered
  | .lookupTree _ wantTree => (∀ t, s.db = some t → t.blockSize = s.shared.item.blockSize) ∧
      (s.db = none → wantTree = true)
  | .data u b => ∀ d, s.progress u = some (.running d) → ¬d.EndsShort b
  | _ => True

omit [DecidableEq υ] in
private theorem offered_fresh {q : QueueItem υ} (h : q.DoneBlocks) (hsize : 0 < q.size)
    (hb : 0 < q.blockSize) {a : PickParams} {seg : Segment}
    (hok : ∀ ps, a.partialSource = some ps → ps.Ordered)
    (hseg : SharedItem.offered q a = some seg) : Fresh q seg := by
  rw [SharedItem.offered] at hseg
  split at hseg
  · cases hseg
  · simp only at hseg
    split at hseg
    · cases hseg
    · next hne =>
      obtain rfl := Option.some_inj.mp hseg
      obtain ⟨hin, hblocks, hapart⟩ := QueueItem.getNextSegmentL_aligned a.gsp.2 hsize hb h hok hne
      exact ⟨hin, hblocks, hapart⟩

omit [DecidableEq υ] in
private theorem refresh_attributes (q : QueueItem υ) (a : PickParams) :
    (SharedItem.refresh q a).size = q.size ∧ (SharedItem.refresh q a).blockSize = q.blockSize ∧
      ((SharedItem.refresh q a).doneSegments = q.doneSegments ∨
        (SharedItem.refresh q a).doneSegments = []) := by
  rw [SharedItem.refresh]
  split
  · exact ⟨rfl, rfl, .inr rfl⟩
  · exact ⟨rfl, rfl, .inl rfl⟩

omit [DecidableEq υ] in
/-- No call is for the whole file. -/
private theorem not_whole (h : Inv tth q s) (v : υ) : ¬(s.shared.phase v).Whole := by
  rintro ⟨seg, htar, hsize⟩
  have := h.sized v seg htar
  omega

/-- A step without effect. -/
private theorem step_idle {e : FetchEvent υ} (h : Inv tth q s) (heq : s.shared.step e = s.shared) :
    Inv tth q { s with shared := s.shared.step e } := by
  rw [heq]
  exact h

omit [DecidableEq υ] in
private theorem setDb_inv (h : Inv tth q s) {db : Option (MerkleTree V)}
    (hdb : ∀ t, db = some t → MerkleTree.IsTreeOf H tth q.size.toNat t) :
    Inv tth q { s with db := db } :=
  ⟨h.queue, h.hasTTH, h.size, h.blockSize, h.done, hdb, h.sized, h.fresh, h.trees,
    fun u p hp => by
      obtain ⟨seg, t, hact⟩ := h.active u p hp
      exact ⟨seg, t, hact.phase, hact.tree, hact.tracked, hact.stored⟩,
    h.verified, h.reported⟩

private theorem lookupTree_inv (h : Inv tth q s) {seg : Segment} {segmentAdded wantTree : Bool}
    (hphase : s.shared.phase u = .picked seg segmentAdded)
    (hok : Ok tth q s (.lookupTree u wantTree)) :
    Inv tth q { s with
      shared := s.shared.step (.lookupTree u (s.db.map MerkleTree.blockSize) wantTree)
      tree := Function.update s.tree u s.db } := by
  obtain ⟨hgrow, hwant⟩ := hok
  have hnone := h.progress_none (u := u) (by simp [hphase])
  have htree : ∀ v, v ≠ u → Function.update s.tree u s.db v = s.tree v :=
    fun v hv => Function.update_of_ne hv ..
  have hstep := SharedItem.step_inv h.queue (.lookupTree u (s.db.map MerkleTree.blockSize) wantTree)
    (by
      intro _
      refine ⟨?_, ?_⟩
      · intro treeBlockSize htbs
        obtain ⟨t, ht, rfl⟩ := Option.map_eq_some_iff.mp htbs
        exact (hgrow t ht).le
      · intro hno hfalse
        rw [hwant (Option.map_eq_none_iff.mp hno)] at hfalse
        cases hfalse)
  have hpend : (s.shared.phase u).pending = some seg := by
    rw [hphase]
    rfl
  by_cases hqueued : s.shared.queued = true
  · have heq : s.shared.step (.lookupTree u (s.db.map MerkleTree.blockSize) wantTree) =
        s.shared.lookupTree u seg segmentAdded (s.db.map MerkleTree.blockSize) wantTree := by
      simp [SharedItem.step, hqueued, hphase]
    rw [heq] at hstep ⊢
    rcases Option.eq_none_or_eq_some s.db with hdb | ⟨t, hdb⟩
    · have hlook : s.shared.lookupTree u seg segmentAdded (s.db.map MerkleTree.blockSize)
          wantTree = s.shared.update u (SharedItem.release s.shared.item seg segmentAdded)
            (.chosen .tree .unset false) := by
        simp [SharedItem.lookupTree, h.hasTTH, hwant hdb, hdb]
      have hrelease : (SharedItem.release s.shared.item seg segmentAdded).size =
          s.shared.item.size ∧ (SharedItem.release s.shared.item seg segmentAdded).blockSize =
          s.shared.item.blockSize ∧
            (SharedItem.release s.shared.item seg segmentAdded).doneSegments =
          s.shared.item.doneSegments := by
        rw [SharedItem.release]
        split <;> exact ⟨rfl, rfl, rfl⟩
      rw [hlook] at hstep ⊢
      refine h.update (fun _ => hstep hqueued) hrelease.1 hrelease.2.1 (.inl hrelease.2.2) ?_ ?_ ?_
        htree hnone ?_
      · rintro seg' ⟨⟩
      · rintro seg' ⟨⟩
      · rintro seg' ⟨⟩
      · rintro type seg' ⟨⟩
    · have hsame : s.shared.item.updateBlockSize t.blockSize = (s.shared.item, false) := by
        rw [QueueItem.updateBlockSize, if_neg]
        exact Nat.not_lt.mpr (hgrow t hdb).le
      have hlook : s.shared.lookupTree u seg segmentAdded (s.db.map MerkleTree.blockSize)
          wantTree = s.shared.update u { s.shared.item with allowSegments := true }
            (.chosen .file seg segmentAdded) := by
        simp [SharedItem.lookupTree, h.hasTTH, hsame, hdb]
      rw [hlook] at hstep ⊢
      refine h.update (fun _ => hstep hqueued) rfl rfl (.inl rfl) ?_ ?_ ?_ htree hnone ?_
      · rintro seg' ⟨⟩
        exact (h.fresh u seg hpend).inside.2.1
      · rintro seg' ⟨⟩
        exact h.fresh u seg hpend
      · rintro seg' ⟨⟩
        rw [Function.update_self]
        exact ⟨t, hdb, h.db t hdb, (hgrow t hdb).trans h.blockSize⟩
      · rintro type seg' ⟨⟩
  · have heq : s.shared.step (.lookupTree u (s.db.map MerkleTree.blockSize) wantTree) =
        s.shared.update u s.shared.item (s.shared.phase u) := by
      rw [SharedItem.update, Function.update_eq_self, SharedItem.step, if_pos (by simp [hqueued])]
    rw [heq]
    refine h.update (fun hno => absurd hno hqueued) rfl rfl (.inl rfl) (h.sized u) (h.fresh u) ?_
      htree hnone ?_
    · rw [hphase]
      rintro seg' ⟨⟩
    · rw [hphase]
      rintro type seg' ⟨⟩

private theorem record_inv (h : Inv tth q s) :
    Inv tth q { s with shared := s.shared.step (.record u) } := by
  have hstep := SharedItem.step_inv h.queue (.record u) True.intro
  by_cases hqueued : s.shared.queued = true
  · cases hphase : s.shared.phase u with
    | chosen type seg segmentAdded =>
      have hnone := h.progress_none (u := u) (by simp [hphase])
      have hsized := h.sized u
      have hfresh := h.fresh u
      have htrees := h.trees u
      rw [hphase] at hsized hfresh htrees
      have heq : s.shared.step (.record u) = s.shared.record u type seg segmentAdded := by
        simp [SharedItem.step, hqueued, hphase]
      rw [heq] at hstep ⊢
      have hnext : ∀ {item : QueueItem υ}, item.size = s.shared.item.size →
          item.blockSize = s.shared.item.blockSize →
          item.doneSegments = s.shared.item.doneSegments →
          (s.shared.update u item (.recorded type seg)).Inv →
          Inv tth q { s with shared := s.shared.update u item (.recorded type seg) } := by
        intro item hsize hblock hdone hinv
        refine h.update (fun _ ↦ hinv) hsize hblock (.inl hdone) hsized ?_ ?_ (fun _ _ ↦ rfl) hnone
          ?_
        · cases type with
          | file => exact hfresh
          | tree =>
            rintro seg' ⟨⟩
        · cases type with
          | file => exact htrees
          | tree =>
            rintro seg' ⟨⟩
        · rintro type' seg' ⟨⟩
      rw [SharedItem.record] at hstep ⊢
      split at hstep
      · next hzero =>
        rw [if_pos hzero]
        refine h.update (fun _ ↦ hstep hqueued) rfl rfl (.inl rfl) ?_ ?_ ?_ (fun _ _ ↦ rfl) hnone ?_
        · rintro seg' ⟨⟩
        · rintro seg' ⟨⟩
        · rintro seg' ⟨⟩
        · rintro type seg' ⟨⟩
      · next hzero =>
        rw [if_neg hzero]
        split at hstep
        · next hadded =>
          rw [if_pos hadded]
          exact hnext rfl rfl rfl (hstep hqueued)
        · next hadded =>
          rw [if_neg hadded]
          exact hnext rfl rfl rfl (hstep hqueued)
    | _ => exact step_idle h (by simp [SharedItem.step, hqueued, hphase])
  · exact step_idle h (by simp [SharedItem.step, hqueued])

private theorem setSegment_inv (h : Inv tth q s) :
    Inv tth q { s with shared := s.shared.step (.setSegment u) } := by
  have hstep := SharedItem.step_inv h.queue (.setSegment u) True.intro
  by_cases hqueued : s.shared.queued = true
  · cases hphase : s.shared.phase u with
    | recorded type seg =>
      have hnone := h.progress_none (u := u) (by simp [hphase])
      have hsized := h.sized u
      have hfresh := h.fresh u
      have htrees := h.trees u
      rw [hphase] at hsized hfresh htrees
      have heq : s.shared.step (.setSegment u) =
          s.shared.update u s.shared.item (.running type seg) := by
        simp [SharedItem.step, hqueued, hphase]
      rw [heq] at hstep ⊢
      refine h.update (fun _ ↦ hstep hqueued) rfl rfl (.inl rfl) hsized ?_ ?_ (fun _ _ ↦ rfl) hnone
        ?_
      · cases type with
        | file => exact hfresh
        | tree =>
          rintro seg' ⟨⟩
      · cases type with
        | file => exact htrees
        | tree =>
          rintro seg' ⟨⟩
      · rintro type' seg' ⟨⟩
    | _ => exact step_idle h (by simp [SharedItem.step, hqueued, hphase])
  · exact step_idle h (by simp [SharedItem.step, hqueued])

private theorem removeDownload_inv (h : Inv tth q s) {hasTree : Bool} :
    Inv tth q { s with shared := s.shared.step (.removeDownload u hasTree) } := by
  have hstep := SharedItem.step_inv h.queue (.removeDownload u hasTree) True.intro
  by_cases hqueued : s.shared.queued = true
  · cases hphase : s.shared.phase u with
    | ending type seg itemDone =>
      have hnone := h.progress_none (u := u) (by simp [hphase])
      have heq : s.shared.step (.removeDownload u hasTree) =
          s.shared.removeDownload u type itemDone hasTree := by
        simp [SharedItem.step, hqueued, hphase]
      rw [heq] at hstep ⊢
      have hidle : ∀ {s : ItemFile F H υ} {item : QueueItem υ}, Inv tth q s → s.progress u = none →
          item.size = s.shared.item.size → item.blockSize = s.shared.item.blockSize →
          item.doneSegments = s.shared.item.doneSegments →
          (s.shared.queued = true → (s.shared.update u item .idle).Inv) →
          Inv tth q { s with shared := s.shared.update u item .idle } := by
        intro s item h hnone hsize hblock hdone hinv
        refine h.update hinv hsize hblock (.inl hdone) ?_ ?_ ?_ (fun _ _ => rfl) hnone ?_
        · rintro seg' ⟨⟩
        · rintro seg' ⟨⟩
        · rintro seg' ⟨⟩
        · rintro type' seg' ⟨⟩
      rw [SharedItem.removeDownload] at hstep ⊢
      cases itemDone with
      | true =>
        -- the item leaves the queue; it was finished when the download was marked
        have hout : Inv tth q { s with shared := { s.shared with queued := false } } :=
          ⟨fun hno => absurd hno (by simp), h.hasTTH, h.size, h.blockSize, h.done, h.db, h.sized,
            h.fresh, h.trees,
            fun v p hp => by
              obtain ⟨seg, t, hact⟩ := h.active v p hp
              exact ⟨seg, t, hact.phase, hact.tree, hact.tracked, hact.stored⟩,
            h.verified, fun _ => h.reported (.inr ⟨u, type, seg, hphase⟩)⟩
        exact hidle hout hnone rfl rfl rfl fun hno => absurd hno (by simp)
      | false =>
        simp only [Bool.false_eq_true, if_false] at hstep ⊢
        split at hstep
        · next htree =>
          rw [if_pos htree]
          exact hidle h hnone rfl rfl rfl fun _ => hstep hqueued
        · next htree =>
          rw [if_neg htree]
          exact hidle h hnone rfl rfl rfl fun _ => hstep hqueued
    | _ => exact step_idle h (by simp [SharedItem.step, hqueued, hphase])
  · exact step_idle h (by simp [SharedItem.step, hqueued])

private theorem recompute_inv (h : Inv tth q s) {gsp : MultiChunkParams}
    {source : Option (Option PartialSource)} {rand : Nat} :
    Inv tth q { s with shared := s.shared.step (.recompute u gsp source rand) } := by
  by_cases hqueued : s.shared.queued = true
  · cases hphase : s.shared.phase u with
    | released =>
      have hwf := (h.queue hqueued).wf u
      rw [hphase] at hwf
      exact hwf.elim
    | _ => exact step_idle h (by simp [SharedItem.step, hqueued, hphase])
  · exact step_idle h (by simp [SharedItem.step, hqueued])

/-- A download is given back and nothing is recorded of it. -/
private theorem markNothing_inv (bytes pos treeBlockSize : Nat) (h : Inv tth q s)
    {type : TransferType} {seg : Segment} (hphase : s.shared.phase u = .running type seg)
    (hnone : s.progress u = none) (hfile : type = .file → pos - pos % treeBlockSize = 0) :
    Inv tth q { s with shared := s.shared.step (.markDone u false bytes pos treeBlockSize) } := by
  have hstep := SharedItem.step_inv h.queue (.markDone u false bytes pos treeBlockSize) True.intro
  by_cases hqueued : s.shared.queued = true
  · have heq : s.shared.step (.markDone u false bytes pos treeBlockSize) =
        s.shared.update u s.shared.item (.ending type seg false) := by
      cases type with
      | tree => simp [SharedItem.step, hqueued, hphase, SharedItem.markDone]
      | file => simp [SharedItem.step, hqueued, hphase, SharedItem.markDone, hfile rfl]
    rw [heq] at hstep ⊢
    have hsized := h.sized u
    rw [hphase] at hsized
    refine h.update (fun _ ↦ hstep hqueued) rfl rfl (.inl rfl) hsized ?_ ?_ (fun _ _ ↦ rfl) hnone ?_
    · rintro seg' ⟨⟩
    · rintro seg' ⟨⟩
    · rintro type' seg' ⟨⟩
  · exact step_idle h (by simp [SharedItem.step, hqueued])

private theorem receiveTree_inv (h : Inv tth q s) {seg : Segment}
    (hphase : s.shared.phase u = .running .tree seg) {leaves : List V} {stored : Bool} :
    Inv tth q (s.receiveTree tth u leaves stored) := by
  rw [receiveTree]
  split
  · exact h
  · next hne =>
    have hput := markNothing_inv 0 0 baseBlockSize h hphase
      (h.progress_none (by simp [hphase])) (by rintro ⟨⟩)
    apply setDb_inv hput
    intro t ht
    split at ht
    · next hkeep =>
      obtain rfl := Option.some_inj.mp ht
      have htree := MerkleTree.load_isTreeOf hne hkeep.1
      rwa [h.size] at htree ⊢
    · exact h.db t ht

section Steps

variable (hq : 0 < q.size)
include hq

private theorem pick_inv (hb : 0 < q.blockSize) (h : Inv tth q s) {a : PickParams}
    (hok : ∀ ps, a.partialSource = some ps → ps.Ordered) :
    Inv tth q { s with shared := s.shared.step (.pick u a) } := by
  have hstep := SharedItem.step_inv h.queue (.pick u a) ⟨hok, fun _ => not_whole h⟩
  by_cases hqueued : s.shared.queued = true
  · cases hphase : s.shared.phase u with
    | idle =>
      have heq : s.shared.step (.pick u a) = s.shared.pick u a := by
        simp [SharedItem.step, hqueued, hphase]
      rw [heq] at hstep ⊢
      have hnone := h.progress_none (u := u) (by simp [hphase])
      rw [SharedItem.pick] at hstep ⊢
      cases hoff : SharedItem.offered s.shared.item a with
      | none => exact h
      | some seg =>
        have hfresh := offered_fresh h.done (h.size ▸ hq) (h.blockSize ▸ hb) hok hoff
        have hpos := hfresh.inside.2.1
        have hrep := h.not_reported hq hfresh
        obtain ⟨hsize, hblock, hdone⟩ :=
          refresh_attributes (s.shared.item.addDownloadSegment seg) a
        have hdone' := hdone.imp_right fun hnil => And.intro hnil hrep
        simp only [hoff] at hstep ⊢
        rw [if_neg (by omega)] at hstep ⊢
        split at hstep
        · next hslot =>
          rw [if_pos hslot]
          refine h.update (fun _ ↦ hstep hqueued) hsize hblock hdone' ?_ ?_ ?_ (fun _ _ ↦ rfl) hnone
            ?_
          · rintro seg' ⟨⟩
            exact hpos
          · rintro seg' ⟨⟩
            exact hfresh
          · rintro seg' ⟨⟩
          · rintro type seg' ⟨⟩
        · next hslot =>
          rw [if_neg hslot]
          refine h.update (fun _ ↦ hstep hqueued) hsize hblock hdone' ?_ ?_ ?_ (fun _ _ ↦ rfl) hnone
            ?_
          · rintro seg' ⟨⟩
          · rintro seg' ⟨⟩
          · rintro seg' ⟨⟩
          · rintro type seg' ⟨⟩
    | _ =>
      have heq : s.shared.step (.pick u a) = s.shared := by
        simp [SharedItem.step, hqueued, hphase]
      rw [heq]
      exact h
  · have heq : s.shared.step (.pick u a) = s.shared := by
      simp [SharedItem.step, hqueued]
    rw [heq]
    exact h

/-! ### The data -/

omit [DecidableEq υ] in
/-- A download writes to its segment only: no block that is finished, and nothing another download
has written, is touched. -/
private theorem write_inv (h : Inv tth q s) {seg : Segment}
    (hphase : s.shared.phase u = .running .file seg) {progress : υ → Option (Progress F H)}
    {c : Content}
    (hc : ∀ x : Nat, ¬(seg.start.toNat ≤ x ∧ x < seg.start.toNat + seg.size.toNat) →
      c x = s.content x)
    (hothers : ∀ v, v ≠ u → progress v = s.progress v)
    (hself : ∀ p, progress u = some p → ∃ t, Active s c u p seg t) :
    Inv tth q { s with progress := progress, content := c } := by
  have hfresh := h.fresh u seg (by rw [hphase]; rfl)
  have hqueue := h.queue (h.queued hq hfresh)
  have hinside := hfresh.inside
  rw [Segment.Inside, Segment.getEnd] at hinside
  refine ⟨h.queue, h.hasTTH, h.size, h.blockSize, h.done, h.db, h.sized, h.fresh, h.trees, ?_, ?_,
    h.reported⟩
  · intro v p hp
    by_cases hvu : v = u
    · rw [hvu] at hp ⊢
      obtain ⟨t, hact⟩ := hself p hp
      exact ⟨seg, t, hact.phase, hact.tree, hact.tracked, hact.stored⟩
    · obtain ⟨seg', t, hact⟩ := h.active v p ((hothers v hvu).symm.trans hp)
      refine ⟨seg', t, hact.phase, hact.tree, hact.tracked, ?_⟩
      have hlen := hact.tracked.length_written_le
      have hinside' := (h.fresh v seg' (by rw [hact.phase]; rfl)).inside
      rw [Segment.Inside, Segment.getEnd] at hinside'
      apply hact.stored.congr
      intro x hx hx'
      apply hc
      rintro ⟨hlo, hhi⟩
      refine hqueue.apart u v (Ne.symm hvu) (x : Int) ?_ ?_
      · rw [hphase]
        refine ⟨seg, rfl, by omega, .inr ?_⟩
        rw [Segment.getEnd]
        omega
      · rw [hact.phase]
        refine ⟨seg', rfl, by omega, .inr ?_⟩
        rw [Segment.getEnd]
        omega
  · rintro k hk ⟨d, hd, hmem⟩
    obtain ⟨t, husable, hleaf⟩ := h.verified k hk ⟨d, hd, hmem⟩
    refine ⟨t, husable, ?_⟩
    rw [hleaf]
    apply congrArg fun l => some (treeHash H l)
    symm
    apply Content.slice_congr
    intro x hx hx' hxs
    apply hc
    rintro ⟨hlo, hhi⟩
    have hdmem : d.Mem x := by
      refine @block_mem d q.blockSize q.size x k ?_ hmem (by omega) (by omega) (by omega)
      rw [← h.blockSize, ← h.size]
      exact h.done.blocks d hd
    refine hfresh.apart d hd x ?_ hdmem
    rw [Segment.Mem, Segment.getEnd]
    omega

omit [DecidableEq υ] in
private theorem treeFor_fresh (h : Inv tth q s) {t : MerkleTree V} (ht : Usable H tth q t)
    {seg : Segment} (hfresh : Fresh s.shared.item seg) : TreeFor t seg.start.toNat := by
  have hin := hfresh.inside
  rw [Segment.Inside, Segment.getEnd, h.size] at hin
  refine ⟨ht.isTree.blockSize, ?_, ?_⟩
  · have hdvd := hfresh.blocks.start
    rw [h.blockSize, ← ht.blockSize, ← Int.toNat_of_nonneg hin.1] at hdvd
    exact Int.natCast_dvd_natCast.mp hdvd
  · apply Nat.div_le_of_le_mul
    have := ht.isTree.enough
    omega

private theorem startData_inv (h : Inv tth q s) {seg : Segment}
    (hphase : s.shared.phase u = .running .file seg) {start bytes : Int} {bufSize : Nat}
    {z : Option φ} : Inv tth q (s.startData u seg start bytes bufSize z) := by
  have hfresh := h.fresh u seg (by rw [hphase]; rfl)
  have hpos := hfresh.inside.2.1
  obtain ⟨t, ht, husable⟩ := h.trees u seg (by rw [hphase]; rfl)
  have hsize : t.fileSize ≠ 0 := by
    rw [husable.isTree.fileSize]
    omega
  have hknown : ¬seg.size = -1 := by omega
  rw [startData]
  simp only [hknown, if_false]
  split
  · next hacc =>
    have hbytes : seg.size = bytes := by
      simp only [Bool.and_eq_true, decide_eq_true_eq] at hacc
      exact hacc.2.1
    have htree : (s.tree u).filter (fun t => t.fileSize ≠ 0) = some t := by
      simp [ht, Option.filter, hsize]
    have hpos : 0 < seg.size.toNat := by omega
    obtain ⟨htracked, hnil⟩ := tracked_startData (F := F) (H := H) bufSize z
      (treeFor_fresh hq h husable hfresh) hpos
    rw [htree, ← hbytes]
    refine write_inv hq h hphase (fun _ _ => rfl) (fun v hv => Function.update_of_ne hv ..) ?_
    intro p hp
    rw [Function.update_self] at hp
    obtain rfl := Option.some_inj.mp hp
    refine ⟨t, hphase, ht, htracked, ?_⟩
    rw [hnil]
    exact Content.stored_nil _ _
  · exact h

omit [DecidableEq υ] hq in
/-- What `written` does to the file. -/
private theorem written_spec {c : Content} {seg : Segment} {d d' : Download F H}
    (hstored : c.Stored seg.start.toNat (StoringStream.written d.file.stack))
    (hpre : StoringStream.written d.file.stack <+: StoringStream.written d'.file.stack)
    (hlen : (StoringStream.written d'.file.stack).length ≤ seg.size.toNat) :
    (written c seg d d').Stored seg.start.toNat (StoringStream.written d'.file.stack) ∧
      ∀ x : Nat, ¬(seg.start.toNat ≤ x ∧ x < seg.start.toNat + seg.size.toNat) →
        written c seg d d' x = c x := by
  refine ⟨hstored.append hpre, ?_⟩
  intro x hx
  rw [written]
  by_cases hlt : x < seg.start.toNat
  · exact Content.store_of_lt (by omega)
  · apply Content.store_of_le
    have := hpre.length_le
    rw [List.length_drop]
    omega

private theorem onData_inv (h : Inv tth q s) {seg : Segment}
    (hphase : s.shared.phase u = .running .file seg) {d : Download F H}
    (hprog : s.progress u = some (.running d)) {b : List UInt8} (hshort : ¬d.EndsShort b) :
    Inv tth q (s.onData u seg d b) := by
  have hfresh := h.fresh u seg (by rw [hphase]; rfl)
  obtain ⟨seg', t, hact⟩ := h.active u _ hprog
  obtain rfl : seg' = seg := by
    have heq := hact.phase.symm.trans hphase
    injection heq
  obtain ⟨t', ht', husable⟩ := h.trees u seg' (by rw [hphase]; rfl)
  obtain rfl : t = t' := Option.some_inj.mp (hact.tree.symm.trans ht')
  obtain ⟨htracked, hpre⟩ :=
    Tracked.onData (treeFor_fresh hq h husable hfresh) hact.tracked hshort
  obtain ⟨hstored, hframe⟩ := written_spec hact.stored hpre htracked.length_written_le
  refine write_inv hq h hphase hframe (fun v hv => Function.update_of_ne hv ..) ?_
  intro p hp
  rw [Function.update_self] at hp
  obtain rfl := Option.some_inj.mp hp
  exact ⟨t, hphase, ht', htracked, hstored⟩

/-! ### Recording what is done -/

omit [DecidableEq V] [DecidableEq υ] hq in
private theorem pending_holds {p : Phase} {seg : Segment} (h : p.pending = some seg) {x : Int}
    (hx : seg.Mem x) : p.Holds x := by
  refine ⟨seg, ?_, hx.1, .inr hx.2⟩
  cases p with
  | picked seg' segmentAdded =>
    cases h
    rfl
  | chosen type seg' segmentAdded =>
    cases type <;> cases h
    rfl
  | recorded type seg' =>
    cases type <;> cases h
    rfl
  | running type seg' =>
    cases type <;> cases h
    rfl
  | _ => cases h

/-- The first `n` bytes of a segment are added to the finished ones: they are in the file and
verified, and no other call has a byte of them. -/
private theorem addSegment_inv (h : Inv tth q s) {seg : Segment}
    (hphase : s.shared.phase u = .running .file seg) (hnone : s.progress u = none)
    {t : MerkleTree V} (ht : Usable H tth q t) {w : List UInt8} {n : Nat} {itemDone : Bool}
    (hstored : s.content.Stored seg.start.toNat w) (hw : w.length ≤ seg.size.toNat)
    (hpos : 0 < n) (hn : n ≤ w.length)
    (hend : t.blockSize ∣ n ∨ seg.start.toNat + n = q.size.toNat)
    (hblocks : MerkleCheckOutputStream.BlocksMatch H t seg.start.toNat (w.take n))
    (hlast : MerkleCheckOutputStream.LastBlockMatches H t seg.start.toNat (w.take n))
    (hqueue : (s.shared.update u (s.shared.item.addSegmentL ⟨seg.start, n⟩)
      (.ending .file seg itemDone)).Inv)
    (hdone : itemDone = true → (s.shared.item.addSegmentL ⟨seg.start, n⟩).isFinished = true) :
    Inv tth q { s with
      shared := s.shared.update u (s.shared.item.addSegmentL ⟨seg.start, n⟩)
        (.ending .file seg itemDone) } := by
  have hpend : (s.shared.phase u).pending = some seg := by
    rw [hphase]
    rfl
  have hfresh := h.fresh u seg hpend
  have hapart := (h.queue (h.queued hq hfresh)).apart
  have hnot := h.not_reported hq hfresh
  have hin := hfresh.inside
  rw [Segment.Inside, Segment.getEnd, h.size] at hin
  have hself : ∀ item phase, (s.shared.update u item phase).phase u = phase :=
    fun _ _ => Function.update_self ..
  have hother : ∀ item phase v, v ≠ u →
      (s.shared.update u item phase).phase v = s.shared.phase v :=
    fun _ _ v hv => Function.update_of_ne hv ..
  obtain ⟨hsize, -, hblock⟩ := QueueItem.addSegmentL_frame s.shared.item ⟨seg.start, n⟩
  have hnew : (⟨seg.start, n⟩ : Segment).Inside s.shared.item.size := by
    rw [Segment.Inside, Segment.getEnd, h.size]
    simp only
    omega
  have hwhole : (⟨seg.start, n⟩ : Segment).Blocks s.shared.item.blockSize s.shared.item.size := by
    refine ⟨hfresh.blocks.start, ?_⟩
    rw [Segment.getEnd]
    simp only
    rcases hend with hend | hend
    · refine .inl (Int.dvd_add hfresh.blocks.start ?_)
      rw [h.blockSize, ← ht.blockSize]
      exact Int.natCast_dvd_natCast.mpr hend
    · refine .inr ?_
      rw [h.size]
      omega
  have hcovers := (QueueItem.addSegmentL_spec s.shared.item ⟨seg.start, n⟩ h.done.consolidated
    hnew.2.1).2.1
  have hmem : ∀ x : Int, (⟨seg.start, n⟩ : Segment).Mem x → seg.Mem x := by
    intro x hx
    rw [Segment.Mem, Segment.getEnd] at hx ⊢
    simp only at hx
    omega
  refine ⟨fun _ => hqueue, h.hasTTH, hsize.trans h.size, hblock.trans h.blockSize,
    h.done.addSegmentL hnew hwhole, h.db, ?_, ?_, ?_, ?_, ?_, ?_⟩
  · intro v seg' hv
    by_cases hvu : v = u
    · rw [hvu] at hv
      change ((s.shared.update u _ _).phase u).target = _ at hv
      rw [hself] at hv
      cases hv
      omega
    · exact h.sized v seg' (hother _ _ v hvu ▸ hv)
  · intro v seg' hv
    by_cases hvu : v = u
    · rw [hvu] at hv
      change ((s.shared.update u _ _).phase u).pending = _ at hv
      rw [hself] at hv
      cases hv
    · have hv' : (s.shared.phase v).pending = some seg' := hother _ _ v hvu ▸ hv
      have hf := h.fresh v seg' hv'
      refine ⟨hsize ▸ hf.inside, ?_, ?_⟩
      · change seg'.Blocks (s.shared.item.addSegmentL ⟨seg.start, n⟩).blockSize
          (s.shared.item.addSegmentL ⟨seg.start, n⟩).size
        rw [hsize, hblock]
        exact hf.blocks
      · intro d hd x hx hdx
        rcases (hcovers x).mp (QueueItem.covers_map.mpr ⟨d, hd, hdx⟩) with hnx | hold
        · exact hapart u v (Ne.symm hvu) x (pending_holds hpend (hmem x hnx)) (pending_holds hv' hx)
        · obtain ⟨d', hd', hdx'⟩ := QueueItem.covers_map.mp hold
          exact hf.apart d' hd' x hx hdx'
  · intro v seg' hv
    by_cases hvu : v = u
    · rw [hvu] at hv
      change ((s.shared.update u _ _).phase u).fetching = _ at hv
      rw [hself] at hv
      cases hv
    · exact h.trees v seg' (hother _ _ v hvu ▸ hv)
  · intro v p hp
    have hvu : v ≠ u := by
      rintro rfl
      rw [show s.progress v = some p from hp] at hnone
      cases hnone
    obtain ⟨seg', t', hact⟩ := h.active v p hp
    exact ⟨seg', t', (hother _ _ v hvu).trans hact.phase, hact.tree, hact.tracked, hact.stored⟩
  · rintro k hk ⟨d, hd, hdk⟩
    rcases (hcovers _).mp (QueueItem.covers_map.mpr ⟨d, hd, hdk⟩) with hnx | hold
    · -- a block of the segment
      have hdvd := (treeFor_fresh hq h ht hfresh).aligned
      rw [Segment.Mem, Segment.getEnd] at hnx
      simp only at hnx
      refine ⟨t, ht, ?_⟩
      have hfits : seg.start.toNat + w.length ≤ q.size.toNat := by omega
      have hleaf := leaf_of_verified (k := k) hstored hfits hn hdvd hend
        hblocks hlast (by rw [ht.blockSize]; omega) (by rw [ht.blockSize]; omega)
      rwa [ht.blockSize] at hleaf
    · obtain ⟨d', hd', hdx'⟩ := QueueItem.covers_map.mp hold
      exact h.verified k hk ⟨d', hd', hdx'⟩
  · rintro (hout | ⟨v, type, seg', hv⟩)
    · exact absurd (.inl hout) hnot
    · by_cases hvu : v = u
      · rw [hvu] at hv
        have heq := (hself _ _).symm.trans hv
        injection heq with _ _ hd
        exact hdone hd
      · exact absurd (.inr ⟨v, type, seg', (hother _ _ v hvu).symm.trans hv⟩) hnot

omit [DecidableEq V] hq in
private theorem markDone_unfinished {s : SharedItem υ} {seg : Segment} {bytes pos b : Nat}
    (hqueued : s.queued = true) (hphase : s.phase u = .running .file seg)
    (hpos : 0 < pos - pos % b) : s.step (.markDone u false bytes pos b) =
      s.update u (s.item.addSegmentL ⟨seg.start, (pos - pos % b : Nat)⟩)
        (.ending .file seg false) := by
  simp only [SharedItem.step, hqueued, hphase, SharedItem.markDone, Bool.not_true,
    Bool.false_eq_true, if_false, hpos, if_true]

omit [DecidableEq V] hq in
private theorem markDone_finished {s : SharedItem υ} {seg : Segment} {bytes pos b : Nat}
    (hqueued : s.queued = true) (hphase : s.phase u = .running .file seg)
    (hsize : 0 < seg.size) : s.step (.markDone u true bytes pos b) =
      s.update u (s.item.addSegmentL ⟨seg.start, (seg.size.toNat : Nat)⟩)
        (.ending .file seg
          (s.item.addSegmentL ⟨seg.start, (seg.size.toNat : Nat)⟩).isFinished) := by
  have hcast : seg.size = (seg.size.toNat : Int) := by omega
  have hknown : ¬seg.size = -1 := by omega
  simp only [SharedItem.step, hqueued, hphase, SharedItem.markDone, Bool.not_true,
    Bool.false_eq_true, if_false, if_true, hknown, ← hcast]

private theorem putDownload_inv (hinj : Function.Injective2 H.combine) (h : Inv tth q s)
    {type : TransferType} {seg : Segment} (hphase : s.shared.phase u = .running type seg) :
    Inv tth q (s.putDownload u seg) := by
  unfold putDownload
  cases hprog : s.progress u with
  | none => exact markNothing_inv _ _ _ h hphase hprog (by simp)
  | some p =>
    obtain ⟨seg', t, hact⟩ := h.active u p hprog
    have heq := hphase.symm.trans hact.phase
    injection heq with htype hseg
    subst htype hseg
    have hfresh := h.fresh u seg (by rw [hphase]; rfl)
    have hqueued := h.queued hq hfresh
    have hin := hfresh.inside
    rw [Segment.Inside, Segment.getEnd, h.size] at hin
    obtain ⟨t', ht', husable⟩ := h.trees u seg (by rw [hphase]; rfl)
    obtain rfl : t = t' := Option.some_inj.mp (hact.tree.symm.trans ht')
    have htree := treeFor_fresh hq h husable hfresh
    obtain ⟨hpre, hlen⟩ := hact.tracked.put
    obtain ⟨hstored, hframe⟩ := written_spec hact.stored hpre hlen
    -- first the streams are destroyed, then the bytes are recorded
    have hclosed : Inv tth q { s with
        progress := Function.update s.progress u none
        content := written s.content seg p.download
          p.download.removeDownload.resetDownloadFile } := by
      refine write_inv hq h hphase hframe (fun v hv => Function.update_of_ne hv ..) ?_
      intro p' hp'
      rw [Function.update_self] at hp'
      cases hp'
    have hnone : Function.update s.progress u none u = none := Function.update_self ..
    have hstep := SharedItem.step_inv h.queue (.markDone u p.isFinished
      p.download.removeDownload.resetDownloadFile.size
      p.download.removeDownload.resetDownloadFile.pos
      p.download.removeDownload.resetDownloadFile.treeBlockSize) True.intro
    simp only
    cases hfin : p.isFinished with
    | false =>
      obtain ⟨hle, hdvd, hblocks⟩ := hact.tracked.put_unfinished hfin htree
      by_cases hzero : p.download.removeDownload.downloaded = 0
      · exact markNothing_inv _ _ _ hclosed hphase hnone fun _ => hzero
      · have hpos : 0 < p.download.removeDownload.resetDownloadFile.pos -
            p.download.removeDownload.resetDownloadFile.pos %
              p.download.removeDownload.resetDownloadFile.treeBlockSize :=
          Nat.pos_of_ne_zero hzero
        rw [hfin, markDone_unfinished hqueued hphase hpos] at hstep
        rw [markDone_unfinished hqueued hphase hpos]
        refine addSegment_inv hq hclosed hphase hnone husable hstored hlen
          (Nat.pos_of_ne_zero hzero) hle (.inl hdvd) hblocks (lastBlock_of_dvd hle hdvd)
          (hstep hqueued) (by simp)
    | true =>
      obtain ⟨d, rfl⟩ : ∃ d, p = .finished d := by
        cases p with
        | finished d => exact ⟨d, rfl⟩
        | _ => cases hfin
      obtain ⟨hfull, hblocks, hlast⟩ :=
        hact.tracked.put_finished husable.isTree hinj htree (by omega)
      have hend : t.blockSize ∣ seg.size.toNat ∨
          seg.start.toNat + seg.size.toNat = q.size.toNat := by
        rcases hfresh.blocks.stop with hstop | hstop
        · have hcast : seg.size = (seg.size.toNat : Int) := by omega
          have hdvd := Int.dvd_sub hstop hfresh.blocks.start
          rw [Segment.getEnd, show seg.start + seg.size - seg.start = seg.size by omega, hcast,
            h.blockSize, ← husable.blockSize] at hdvd
          exact .inl (Int.natCast_dvd_natCast.mp hdvd)
        · rw [Segment.getEnd, h.size] at hstop
          exact .inr (by omega)
      have htake := List.take_of_length_le hfull.le
      rw [hfin, markDone_finished hqueued hphase hin.2.1] at hstep
      rw [markDone_finished hqueued hphase hin.2.1]
      refine addSegment_inv hq hclosed hphase hnone husable hstored hlen (by omega) hfull.ge hend
        (htake.symm ▸ hblocks) (htake.symm ▸ hlast) (hstep hqueued) id

/-- Every step that meets the condition keeps the invariant. -/
theorem step_inv (hb : 0 < q.blockSize) (hinj : Function.Injective2 H.combine) (h : Inv tth q s)
    {e : FileEvent υ φ V} (hok : Ok tth q s e) : Inv tth q (s.step tth e) := by
  cases e with
  | addTree tree =>
    apply setDb_inv h
    rintro t ⟨⟩
    exact hok
  | pick u a => exact pick_inv hq hb h hok
  | lookupTree u wantTree =>
    rw [step]
    split
    · next hphase => exact lookupTree_inv h hphase hok
    · exact h
  | recompute u gsp source rand => exact recompute_inv h
  | record u => exact record_inv h
  | setSegment u => exact setSegment_inv h
  | receiveTree u leaves stored =>
    rw [step]
    split
    · next hphase => exact receiveTree_inv h hphase
    · exact h
  | startData u start bytes bufSize z =>
    rw [step]
    split
    · next hphase _ => exact startData_inv hq h hphase
    · exact h
  | data u b =>
    rw [step]
    split
    · next hphase hprog => exact onData_inv hq h hphase hprog (hok _ hprog)
    · exact h
  | putDownload u =>
    rw [step]
    split
    · next hphase => exact putDownload_inv hq hinj h hphase
    · exact h
  | removeDownload u hasTree => exact removeDownload_inv h

omit [DecidableEq V] [DecidableEq υ] hq in
theorem inv_initial {db : Option (MerkleTree V)} {content : Content} [DecidableEq V]
    (hq : 0 < q.size) (hb : 0 < q.blockSize) (hnew : q.doneSegments = [])
    (hdb : ∀ t, db = some t → MerkleTree.IsTreeOf H tth q.size.toNat t) :
    Inv tth q (initial F H q db content) := by
  refine ⟨fun _ ↦ SharedItem.inv_initial hq hb (by simp [hnew]), rfl, rfl, rfl, ?_, hdb, ?_, ?_, ?_,
    ?_, ?_, ?_⟩
  · refine ⟨?_, ?_, ?_⟩
    · change QueueItem.Consolidated q.doneSegments
      rw [hnew]
      exact ⟨List.Pairwise.nil, by simp [Proper]⟩
    · change ∀ t ∈ q.doneSegments, _
      simp [hnew]
    · change ∀ t ∈ q.doneSegments, _
      simp [hnew]
  · rintro u seg ⟨⟩
  · rintro u seg ⟨⟩
  · rintro u seg ⟨⟩
  · rintro u p ⟨⟩
  · rintro k - ⟨d, hd, -⟩
    change d ∈ q.doneSegments at hd
    rw [hnew] at hd
    cases hd
  · rintro (hout | ⟨u, type, seg, hphase⟩)
    · cases hout
    · cases hphase

omit [DecidableEq υ] in
/-- A finished item whose finished blocks are verified has its TTH. -/
theorem Inv.treeHash_eq (h : Inv tth q s) {m : Nat} (hm : q.blockSize = baseBlockSize * 2 ^ m)
    (hinj : Function.Injective2 H.combine) (hrep : s.Reported) :
    treeHash H (s.content.bytes q.size.toNat) = tth := by
  have hin : ∀ x, Covers (s.shared.item.doneSegments.map Segment.toInterval) x →
      0 ≤ x ∧ x < s.shared.item.size := by
    intro x hx
    obtain ⟨d, hd, hmem⟩ := QueueItem.covers_map.mp hx
    have hinside := h.done.inside d hd
    rw [Segment.Inside] at hinside
    rw [Segment.Mem] at hmem
    omega
  have hall := (QueueItem.isFinished_iff h.done.consolidated (h.size ▸ hq) hin).mp (h.reported hrep)
  have hpos : 0 < q.size.toNat := by omega
  apply MerkleTree.treeHash_eq_of_blocks hpos (by simp [Content.bytes]) hm hinj
  intro k hk
  have hcover := QueueItem.covers_map.mp (hall (q.blockSize * k : Nat) (by omega)
    (by rw [h.size]; omega))
  obtain ⟨t, ht, hleaf⟩ := h.verified k hk hcover
  exact ⟨t, ht.isTree, ht.blockSize, hleaf⟩

end Steps

end ItemFile

namespace ItemFile

/-! ### A file of one byte -/

/-- A hash without collisions: the input itself, coded so that two values in a row can be told
apart. -/
private def plainHasher : Hasher (List UInt8) where
  digest b := b
  data v := v.flatMap (fun x => [1, x]) ++ [0]
  zero := []

private def oneByte : QueueItem Nat := ⟨1, false, false, 1024, 2, [], [], 0, 0, 0⟩

private def anySegment : PickParams :=
  ⟨⟨⟨true, false, 0, 0⟩, enableMultiChunk_mk⟩, none, 0, true, 0, 0, true, true⟩

private def oneLeaf : MerkleTree (List UInt8) := ⟨[], [[0, 7]], 1, 1024, [0, 7], by decide⟩

private def one (db : Option (MerkleTree (List UInt8))) :
    ItemFile Filter.wholeChunk plainHasher Nat :=
  initial Filter.wholeChunk plainHasher oneByte db fun _ => 0

/-- The download of the byte with its tree. -/
private def seven : Download Filter.wholeChunk plainHasher :=
  .new Filter.wholeChunk plainHasher (fun _ => true) 0 1 1 (some oneLeaf) none

/-- The calls up to the data. -/
private def begin : List (FileEvent Nat Unit (List UInt8)) :=
  [.pick 0 anySegment, .lookupTree 0 false, .record 0, .setSegment 0, .startData 0 0 1 1 none]

end ItemFile
end Blacklink.Transfer
