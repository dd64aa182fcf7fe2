import Mathlib.Data.List.Nodup
import Blacklink.Base.Run
import Blacklink.Queue.DoneSegments
import Blacklink.Queue.GetDownload

/-!
# No byte is handed out twice

The calls of the users interleave, and the list of running segments is all they share. As long as
no call gives up what it has reserved for bytes of the file, the list holds exactly what the calls
have, and the search keeps them apart (`exclusive_of_within`).
-/

namespace Blacklink.Queue

open Blacklink.Base

namespace Phase

variable {υ : Type}

/-- The entry of the item's list that belongs to the call. -/
def entry (u : υ) : Phase → Option (RunningSegment υ)
  | .picked seg true => some ⟨seg, none⟩
  | .chosen _ seg true => some ⟨seg, none⟩
  | .recorded _ seg => some ⟨seg, some u⟩
  | .running _ seg => some ⟨seg, some u⟩
  | .ending _ seg _ => some ⟨seg, some u⟩
  | _ => none

/-- What the call is for. -/
def target : Phase → Option (TransferType × Segment)
  | .picked seg _ => some (.file, seg)
  | .chosen type seg _ => some (type, seg)
  | .recorded type seg => some (type, seg)
  | .running type seg => some (type, seg)
  | .ending type seg _ => some (type, seg)
  | _ => none

/-- The running download and what it was given. -/
def given : Phase → Option (TransferType × Segment)
  | .running type seg => some (type, seg)
  | .ending type seg _ => some (type, seg)
  | _ => none

/-- The bytes of the file the call is for; size `-1` is the rest of the file. -/
def Holds (p : Phase) (x : Int) : Prop :=
  ∃ seg, p.target = some (.file, seg) ∧ seg.start ≤ x ∧ (seg.size = -1 ∨ x < seg.getEnd)

/-- The call is for the whole file. -/
def Whole (p : Phase) : Prop := ∃ seg, p.target = some (.file, seg) ∧ seg.size = -1

/-- What the phases of a call carry: a reserved segment has bytes, without a reservation the
segment is the default one, and so is that of a tree. -/
def Wf : Phase → Prop
  | .idle => True
  | .picked seg segmentAdded => segmentAdded = true ∧ 0 < seg.size
  | .released => False
  | .chosen type seg segmentAdded =>
    if segmentAdded then type = .file ∧ 0 < seg.size else seg = .unset
  | .recorded type seg => seg = .unset ∨ type = .file ∧ 0 < seg.size
  | .running type seg => seg = .unset ∨ type = .file ∧ 0 < seg.size
  | .ending type seg _ => seg = .unset ∨ type = .file ∧ 0 < seg.size

end Phase

namespace SharedItem

variable {υ : Type}

/-- The running downloads are recorded with exactly what they were given, everything else in the
list is what a call in progress has reserved, and no byte is given or recorded twice. -/
structure Exclusive (s : SharedItem υ) : Prop where
  recorded : ∀ u type seg, (s.phase u).given = some (type, seg) →
    ⟨seg, some u⟩ ∈ s.item.downloads ∧ ∀ r ∈ s.item.downloads, r.d = some u → r.seg = seg
  reserved : ∀ r ∈ s.item.downloads, ∃ u, (s.phase u).entry u = some r
  once : s.item.downloads.Nodup
  apart : ∀ u v, u ≠ v → ∀ x, (s.phase u).Holds x → ¬(s.phase v).Holds x

variable [DecidableEq υ]

/-- The lists of partial sources are ordered; no tree makes the block size grow; a download that
gets the whole file because it has no tree is the only one that holds bytes of the file, and no
segment is picked while there is one. -/
def Ok (s : SharedItem υ) : FetchEvent υ → Prop
  | .pick _ a => (∀ ps, a.partialSource = some ps → ps.Ordered) ∧
      (s.item.isWaiting = true ∨ s.item.allowSegments = true → ∀ v, ¬(s.phase v).Whole)
  | .lookupTree u tree wantTree => s.hasTTH = true →
      (∀ treeBlockSize, tree = some treeBlockSize → treeBlockSize ≤ s.item.blockSize) ∧
      (tree = none → wantTree = false → ∀ v, v ≠ u → ∀ x, ¬(s.phase v).Holds x)
  | _ => True

omit [DecidableEq υ] in
/-- The invariant. -/
structure Inv (s : SharedItem υ) : Prop where
  size : 0 < s.item.size
  blockSize : 0 < s.item.blockSize
  done : ∀ t ∈ s.item.doneSegments, 0 ≤ t.size
  entries : ∀ r, r ∈ s.item.downloads ↔ ∃ u, (s.phase u).entry u = some r
  once : s.item.downloads.Nodup
  apart : ∀ u v, u ≠ v → ∀ x, (s.phase u).Holds x → ¬(s.phase v).Holds x
  wf : ∀ u, (s.phase u).Wf

/-! ### The list of running segments -/

private theorem eraseP_eq_erase {α : Type} [DecidableEq α] {p : α → Bool} {a : α} :
    ∀ {l : List α}, (∀ b ∈ l, p b = true ↔ b = a) → l.eraseP p = l.erase a
  | [], _ => rfl
  | b :: l, h => by
    have hb := h b (List.mem_cons_self)
    rw [List.eraseP_cons, List.erase_cons]
    by_cases hba : b = a
    · rw [hb.mpr hba, hba]
      simp
    · rw [Bool.eq_false_iff.mpr fun hp => hba (hb.mp hp),
        eraseP_eq_erase fun c hc => h c (List.mem_cons_of_mem _ hc)]
      simp [hba]

omit [DecidableEq υ] in
/-- The entry without a download gets one. -/
private theorem setFirst_spec {seg : Segment} {d : υ} :
    ∀ {l : List (RunningSegment υ)}, (∀ r ∈ l, r.seg = seg ↔ r = ⟨seg, none⟩) →
      ⟨seg, none⟩ ∈ l → l.Nodup →
      (QueueItem.setFirst seg d l).Nodup ∧
        ∀ r, r ∈ QueueItem.setFirst seg d l ↔ r = ⟨seg, some d⟩ ∨ r ∈ l ∧ r ≠ ⟨seg, none⟩
  | [], _, hmem, _ => absurd hmem (List.not_mem_nil)
  | a :: l, h, hmem, hnodup => by
    obtain ⟨hnot, hnodup⟩ := List.nodup_cons.mp hnodup
    have hl : ∀ r ∈ l, r.seg = seg ↔ r = ⟨seg, none⟩ := fun r hr =>
      h r (List.mem_cons_of_mem _ hr)
    rw [QueueItem.setFirst]
    by_cases hseg : a.seg = seg
    · have ha := (h a List.mem_cons_self).mp hseg
      rw [if_pos hseg, ha]
      rw [ha] at hnot
      have hfresh : ∀ r ∈ l, r.seg ≠ seg := by
        intro r hr hrs
        rw [(hl r hr).mp hrs] at hr
        exact hnot hr
      refine ⟨List.nodup_cons.mpr ⟨fun hin => hfresh _ hin rfl, hnodup⟩, ?_⟩
      intro r
      simp only [List.mem_cons]
      constructor
      · rintro (rfl | hr)
        · exact .inl rfl
        · refine .inr ⟨.inr hr, ?_⟩
          rintro rfl
          exact hnot hr
      · rintro (rfl | ⟨rfl | hr, hne⟩)
        · exact .inl rfl
        · exact absurd rfl hne
        · exact .inr hr
    · rw [if_neg hseg]
      have hmem : ⟨seg, none⟩ ∈ l := by
        rcases List.mem_cons.mp hmem with rfl | hmem
        · exact absurd rfl hseg
        · exact hmem
      obtain ⟨hnd, hiff⟩ := setFirst_spec (d := d) hl hmem hnodup
      refine ⟨List.nodup_cons.mpr ⟨?_, hnd⟩, ?_⟩
      · intro hin
        rcases (hiff a).mp hin with rfl | ⟨hin, -⟩
        · exact hseg rfl
        · exact hnot hin
      · intro r
        rw [List.mem_cons, hiff, List.mem_cons]
        constructor
        · rintro (rfl | hr | hr)
          · refine .inr ⟨.inl rfl, ?_⟩
            rintro rfl
            exact hseg rfl
          · exact .inl hr
          · exact .inr ⟨.inr hr.1, hr.2⟩
        · rintro (hr | ⟨rfl | hr, hne⟩)
          · exact .inr (.inl hr)
          · exact .inl rfl
          · exact .inr (.inr ⟨hr, hne⟩)

/-! ### One step -/

omit [DecidableEq υ] in
/-- What an entry says of its call. -/
private theorem entry_cases {u : υ} {p : Phase} (hwf : p.Wf) {r : RunningSegment υ}
    (h : p.entry u = some r) :
    (r.d = none ∧ p.target = some (.file, r.seg) ∧ 0 < r.seg.size) ∨
      r.d = some u ∧ (r.seg = .unset ∨ p.target = some (.file, r.seg) ∧ 0 < r.seg.size) := by
  cases p with
  | idle => cases h
  | released => cases h
  | picked seg segmentAdded =>
    obtain ⟨rfl, hpos⟩ := hwf
    cases h
    exact .inl ⟨rfl, rfl, hpos⟩
  | chosen type seg segmentAdded =>
    cases segmentAdded with
    | false => cases h
    | true =>
      obtain ⟨rfl, hpos⟩ : type = .file ∧ 0 < seg.size := hwf
      cases h
      exact .inl ⟨rfl, rfl, hpos⟩
  | recorded type seg =>
    cases h
    rcases hwf with rfl | ⟨rfl, hpos⟩
    · exact .inr ⟨rfl, .inl rfl⟩
    · exact .inr ⟨rfl, .inr ⟨rfl, hpos⟩⟩
  | running type seg =>
    cases h
    rcases hwf with rfl | ⟨rfl, hpos⟩
    · exact .inr ⟨rfl, .inl rfl⟩
    · exact .inr ⟨rfl, .inr ⟨rfl, hpos⟩⟩
  | ending type seg itemDone =>
    cases h
    rcases hwf with rfl | ⟨rfl, hpos⟩
    · exact .inr ⟨rfl, .inl rfl⟩
    · exact .inr ⟨rfl, .inr ⟨rfl, hpos⟩⟩

omit [DecidableEq υ] in
private theorem holds_start {p : Phase} {seg : Segment} (h : p.target = some (.file, seg))
    (hpos : 0 < seg.size) : p.Holds seg.start := by
  refine ⟨seg, h, Int.le_refl _, .inr ?_⟩
  rw [Segment.getEnd]
  omega

variable {s : SharedItem υ} {u : υ}

omit [DecidableEq υ] in
/-- Two calls have different entries, also if only the bytes are compared. -/
private theorem eq_of_entry (h : s.Inv) {v : υ} {r r' : RunningSegment υ}
    (hu : (s.phase u).entry u = some r) (hv : (s.phase v).entry v = some r')
    (hpos : 0 < r.seg.size) (hseg : r'.seg = r.seg) : u = v := by
  have hunset : r'.seg ≠ .unset := by
    intro hun
    rw [hseg] at hun
    rw [hun] at hpos
    exact absurd hpos (by decide)
  have hfile : ∀ {w : υ} {t : RunningSegment υ}, (s.phase w).entry w = some t →
      t.seg = r.seg → (s.phase w).target = some (.file, r.seg) := by
    intro w t hw ht
    rcases entry_cases (h.wf w) hw with ⟨-, htar, -⟩ | ⟨-, hun | ⟨htar, -⟩⟩
    · rw [← ht]
      exact htar
    · exact absurd (hseg.trans (ht.symm.trans hun)) hunset
    · rw [← ht]
      exact htar
  by_contra hne
  exact h.apart u v hne r.seg.start (holds_start (hfile hu rfl) hpos)
    (holds_start (hfile hv hseg) hpos)

omit [DecidableEq υ] in
private theorem entry_inj (h : s.Inv) {v : υ} {r : RunningSegment υ}
    (hu : (s.phase u).entry u = some r) (hv : (s.phase v).entry v = some r) : u = v := by
  rcases entry_cases (h.wf u) hu with ⟨-, -, hpos⟩ | ⟨hd, -⟩
  · exact eq_of_entry h hu hv hpos rfl
  · rcases entry_cases (h.wf v) hv with ⟨hd', -, -⟩ | ⟨hd', -⟩
    · rw [hd] at hd'
      cases hd'
    · rw [hd, Option.some_inj] at hd'
      exact hd'

/-- The entry of another call. -/
def Other (s : SharedItem υ) (u : υ) (r : RunningSegment υ) : Prop :=
  ∃ v, v ≠ u ∧ (s.phase v).entry v = some r

private theorem mem_iff_other (h : s.Inv) (r : RunningSegment υ) :
    r ∈ s.item.downloads ↔ (s.phase u).entry u = some r ∨ s.Other u r := by
  rw [h.entries]
  constructor
  · rintro ⟨v, hv⟩
    by_cases hvu : v = u
    · subst hvu
      exact .inl hv
    · exact .inr ⟨v, hvu, hv⟩
  · rintro (hu | ⟨v, -, hv⟩)
    · exact ⟨u, hu⟩
    · exact ⟨v, hv⟩

/-- A step of `u` leaves the calls of the others. -/
private theorem update_inv (h : s.Inv) {item : QueueItem υ} {phase : Phase}
    (hsize : item.size = s.item.size) (hblock : 0 < item.blockSize)
    (hdone : ∀ t ∈ item.doneSegments, 0 ≤ t.size)
    (hentries : ∀ r, r ∈ item.downloads ↔ phase.entry u = some r ∨ s.Other u r)
    (honce : item.downloads.Nodup) (hwf : phase.Wf)
    (hapart : ∀ v, v ≠ u → ∀ x, phase.Holds x → ¬(s.phase v).Holds x) :
    (s.update u item phase).Inv := by
  have hself : (s.update u item phase).phase u = phase := Function.update_self ..
  have hother : ∀ v, v ≠ u → (s.update u item phase).phase v = s.phase v := fun v hv =>
    Function.update_of_ne hv ..
  refine ⟨hsize ▸ h.size, hblock, hdone, ?_, honce, ?_, ?_⟩
  · intro r
    change r ∈ item.downloads ↔ _
    rw [hentries r]
    constructor
    · rintro (hu | ⟨v, hvu, hv⟩)
      · exact ⟨u, by rw [hself]; exact hu⟩
      · exact ⟨v, by rw [hother v hvu]; exact hv⟩
    · rintro ⟨v, hv⟩
      by_cases hvu : v = u
      · rw [hvu, hself] at hv
        exact .inl hv
      · rw [hother v hvu] at hv
        exact .inr ⟨v, hvu, hv⟩
  · intro v w hvw x hv hw
    by_cases hvu : v = u
    · have hwu : w ≠ u := fun hwu => hvw (hvu.trans hwu.symm)
      rw [hvu, hself] at hv
      rw [hother w hwu] at hw
      exact hapart w hwu x hv hw
    · rw [hother v hvu] at hv
      by_cases hwu : w = u
      · rw [hwu, hself] at hw
        exact hapart v hvu x hw hv
      · rw [hother w hwu] at hw
        exact h.apart v w hvw x hv hw
  · intro v
    by_cases hvu : v = u
    · rw [hvu, hself]
      exact hwf
    · rw [hother v hvu]
      exact h.wf v

/-- What a step does to the attributes of the item the invariant mentions. -/
structure Frame (q q' : QueueItem υ) : Prop where
  size : q'.size = q.size
  blockSize : 0 < q.blockSize → 0 < q'.blockSize
  done : (∀ t ∈ q.doneSegments, 0 ≤ t.size) → ∀ t ∈ q'.doneSegments, 0 ≤ t.size

/-- The entry stays. -/
private theorem keep_inv (h : s.Inv) {item : QueueItem υ} {phase : Phase}
    (hframe : Frame s.item item) (hlist : item.downloads = s.item.downloads)
    (hentry : phase.entry u = (s.phase u).entry u) (hwf : phase.Wf)
    (hapart : ∀ v, v ≠ u → ∀ x, phase.Holds x → ¬(s.phase v).Holds x) :
    (s.update u item phase).Inv := by
  refine update_inv h hframe.size (hframe.blockSize h.blockSize) (hframe.done h.done) ?_
    (hlist ▸ h.once) hwf hapart
  intro r
  rw [hlist, hentry]
  exact mem_iff_other h r

/-- An entry is added. -/
private theorem add_inv (h : s.Inv) {item : QueueItem υ} {phase : Phase} {r : RunningSegment υ}
    (hframe : Frame s.item item) (hlist : item.downloads = s.item.downloads ++ [r])
    (hnone : (s.phase u).entry u = none) (hentry : phase.entry u = some r) (hwf : phase.Wf)
    (hfresh : r ∉ s.item.downloads)
    (hapart : ∀ v, v ≠ u → ∀ x, phase.Holds x → ¬(s.phase v).Holds x) :
    (s.update u item phase).Inv := by
  refine update_inv h hframe.size (hframe.blockSize h.blockSize) (hframe.done h.done) ?_ ?_ hwf
    hapart
  · intro r'
    rw [hlist, List.mem_append, List.mem_singleton, mem_iff_other (u := u) h, hnone, hentry,
      Option.some_inj]
    constructor
    · rintro ((hcon | hr) | rfl)
      · cases hcon
      · exact .inr hr
      · exact .inl rfl
    · rintro (rfl | hr)
      · exact .inr rfl
      · exact .inl (.inr hr)
  · rw [hlist]
    refine List.nodup_append.mpr ⟨h.once, List.nodup_singleton r, ?_⟩
    intro a ha b hb hab
    rw [hab, List.mem_singleton.mp hb] at ha
    exact hfresh ha

/-- The entry is erased. -/
private theorem erase_inv (h : s.Inv) {item : QueueItem υ} {phase : Phase} {r : RunningSegment υ}
    (hframe : Frame s.item item) (hlist : item.downloads = s.item.downloads.erase r)
    (hentry : (s.phase u).entry u = some r) (hnone : phase.entry u = none) (hwf : phase.Wf)
    (hapart : ∀ v, v ≠ u → ∀ x, phase.Holds x → ¬(s.phase v).Holds x) :
    (s.update u item phase).Inv := by
  refine update_inv h hframe.size (hframe.blockSize h.blockSize) (hframe.done h.done) ?_ ?_ hwf
    hapart
  · intro r'
    rw [hlist, h.once.mem_erase_iff, mem_iff_other (u := u) h, hnone, hentry, Option.some_inj]
    constructor
    · rintro ⟨hne, rfl | hr⟩
      · exact absurd rfl hne
      · exact .inr hr
    · rintro (hcon | ⟨v, hvu, hv⟩)
      · cases hcon
      · refine ⟨?_, .inr ⟨v, hvu, hv⟩⟩
        rintro rfl
        exact hvu (entry_inj h hv hentry)
  · rw [hlist]
    exact h.once.erase r

omit [DecidableEq υ] in
/-- The only entry with the bytes of a call is its own. -/
private theorem seg_iff (h : s.Inv) {r : RunningSegment υ} (hentry : (s.phase u).entry u = some r)
    (hpos : 0 < r.seg.size) (r' : RunningSegment υ) (hr' : r' ∈ s.item.downloads) :
    r'.seg = r.seg ↔ r' = r := by
  constructor
  · intro hseg
    obtain ⟨v, hv⟩ := (h.entries r').mp hr'
    have huv := eq_of_entry h hentry hv hpos hseg
    rw [← huv, hentry, Option.some_inj] at hv
    exact hv.symm
  · intro hr
    rw [hr]

private theorem removeSegment_list (h : s.Inv) {seg : Segment}
    (hentry : (s.phase u).entry u = some ⟨seg, none⟩) (hpos : 0 < seg.size) :
    (s.item.removeDownloadSegment seg).downloads = s.item.downloads.erase ⟨seg, none⟩ := by
  apply eraseP_eq_erase
  intro r hr
  rw [decide_eq_true_eq]
  exact seg_iff h hentry hpos r hr

private theorem removeUser_list (h : s.Inv) {seg : Segment}
    (hentry : (s.phase u).entry u = some ⟨seg, some u⟩) :
    (s.item.removeDownloadUser u).downloads = s.item.downloads.erase ⟨seg, some u⟩ := by
  apply eraseP_eq_erase
  intro r hr
  rw [decide_eq_true_eq]
  constructor
  · intro hd
    obtain ⟨v, hv⟩ := (h.entries r).mp hr
    rcases entry_cases (h.wf v) hv with ⟨hd', -, -⟩ | ⟨hd', -⟩
    · rw [hd] at hd'
      cases hd'
    · rw [hd, Option.some_inj] at hd'
      rw [← hd', hentry, Option.some_inj] at hv
      exact hv.symm
  · intro hr
    rw [hr]

omit [DecidableEq υ] in
/-- A call for bytes of the file has them in the list, unless it is for the whole file. -/
private theorem target_entry {p : Phase} (hwf : p.Wf) {seg : Segment}
    (h : p.target = some (.file, seg)) : seg.size = -1 ∨ ∃ d, p.entry u = some ⟨seg, d⟩ := by
  cases p with
  | idle => cases h
  | released => cases h
  | picked seg' segmentAdded =>
    obtain ⟨rfl, -⟩ := hwf
    cases h
    exact .inr ⟨none, rfl⟩
  | chosen type seg' segmentAdded =>
    cases segmentAdded with
    | false =>
      obtain rfl : seg' = .unset := hwf
      cases h
      exact .inl rfl
    | true =>
      cases h
      exact .inr ⟨none, rfl⟩
  | recorded type seg' =>
    cases h
    exact .inr ⟨some u, rfl⟩
  | running type seg' =>
    cases h
    exact .inr ⟨some u, rfl⟩
  | ending type seg' itemDone =>
    cases h
    exact .inr ⟨some u, rfl⟩

omit [DecidableEq υ] in
private theorem holds_of_target {p p' : Phase} (h : p'.target = p.target) {x : Int}
    (hx : p'.Holds x) : p.Holds x := by
  obtain ⟨seg, htar, hin⟩ := hx
  exact ⟨seg, h ▸ htar, hin⟩

/-- The call goes on with what it is for. -/
private theorem next_inv (h : s.Inv) {item : QueueItem υ} {phase : Phase}
    (hframe : Frame s.item item) (hlist : item.downloads = s.item.downloads)
    (hentry : phase.entry u = (s.phase u).entry u) (htarget : phase.target = (s.phase u).target)
    (hwf : phase.Wf) : (s.update u item phase).Inv := by
  apply keep_inv h hframe hlist hentry hwf
  intro v hvu x hx
  exact h.apart u v hvu.symm x (holds_of_target htarget hx)

omit [DecidableEq υ] in
private theorem refresh_frame (q : QueueItem υ) (a : PickParams) :
    Frame q (refresh q a) ∧ (refresh q a).downloads = q.downloads := by
  rw [refresh]
  split
  · exact ⟨⟨rfl, id, by simp [QueueItem.resetDownloadedL]⟩, rfl⟩
  · exact ⟨⟨rfl, id, id⟩, rfl⟩

omit [DecidableEq υ] in
/-- A segment that is offered has bytes nobody has. -/
private theorem offered_free (h : s.Inv) {a : PickParams} {seg : Segment}
    (hok : ∀ ps, a.partialSource = some ps → ps.Ordered) (hseg : offered s.item a = some seg) :
    (s.item.isWaiting = true ∨ s.item.allowSegments = true) ∧ 0 < seg.size ∧
      ∀ r ∈ s.item.downloads, ∀ x, seg.Mem x → ¬r.seg.Mem x := by
  rw [offered] at hseg
  split at hseg
  · cases hseg
  · next hcond =>
    simp only at hseg
    split at hseg
    · cases hseg
    · next hne =>
      obtain rfl := Option.some_inj.mp hseg
      refine ⟨?_, QueueItem.getNextSegmentL_free a.gsp.2 h.size h.blockSize h.done hok hne⟩
      by_contra hclosed
      apply hcond
      rw [not_or, Bool.not_eq_true, Bool.not_eq_true] at hclosed
      simp [hclosed.1, hclosed.2]

private theorem pick_inv (h : s.Inv) (hidle : s.phase u = .idle) {a : PickParams}
    (hok : Ok s (.pick u a)) : (s.pick u a).Inv := by
  rw [pick]
  split
  · exact h
  · next seg hseg =>
    obtain ⟨hopen, hpos, hfree⟩ := offered_free h hok.1 hseg
    have hwhole := hok.2 hopen
    have hmem : seg.Mem seg.start := by
      refine ⟨Int.le_refl _, ?_⟩
      rw [Segment.getEnd]
      omega
    have hnew : ∀ r ∈ s.item.downloads, r.seg ≠ seg := by
      intro r hr hrs
      exact hfree r hr seg.start hmem (hrs ▸ hmem)
    obtain ⟨hframe, hlist⟩ := refresh_frame (s.item.addDownloadSegment seg) a
    rw [if_neg (by omega)]
    simp only
    split
    · refine add_inv h (r := ⟨seg, none⟩) ⟨hframe.size, hframe.blockSize, hframe.done⟩ hlist
        (by rw [hidle]; rfl) rfl ⟨rfl, hpos⟩ (fun hin => hnew _ hin rfl) ?_
      rintro v - x ⟨seg', htar, hx⟩ ⟨seg'', htar', hx'⟩
      cases htar
      have hbytes : seg.Mem x := ⟨hx.1, hx.2.resolve_left (by omega)⟩
      rcases target_entry (u := v) (h.wf v) htar' with hsize | ⟨d, hentry⟩
      · exact hwhole v ⟨seg'', htar', hsize⟩
      · have hne : seg''.size ≠ -1 := fun hsize => hwhole v ⟨seg'', htar', hsize⟩
        exact hfree _ ((h.entries _).mpr ⟨v, hentry⟩) x hbytes ⟨hx'.1, hx'.2.resolve_left hne⟩
    · -- no slot: the reservation is taken back
      refine keep_inv h ⟨hframe.size, hframe.blockSize, hframe.done⟩ ?_ (by rw [hidle]) True.intro
        (by rintro v - x ⟨seg', htar, -⟩; cases htar)
      change ((refresh (s.item.addDownloadSegment seg) a).downloads).eraseP _ = _
      rw [hlist]
      change (s.item.downloads ++ [(⟨seg, none⟩ : RunningSegment υ)]).eraseP _ = _
      rw [List.eraseP_append_right]
      · simp
      · intro r hr
        simpa using hnew r hr

private theorem lookupTree_inv (h : s.Inv) {seg : Segment} {segmentAdded : Bool}
    (hpicked : s.phase u = .picked seg segmentAdded) {tree : Option Nat} {wantTree : Bool}
    (hok : Ok s (.lookupTree u tree wantTree)) :
    (s.lookupTree u seg segmentAdded tree wantTree).Inv := by
  have hwf := h.wf u
  rw [hpicked] at hwf
  obtain ⟨rfl, hpos⟩ := hwf
  have hentry : (s.phase u).entry u = some ⟨seg, none⟩ := by
    rw [hpicked]
    rfl
  unfold lookupTree
  split
  · exact next_inv h ⟨rfl, id, id⟩ rfl hentry.symm (by rw [hpicked]; rfl) ⟨rfl, hpos⟩
  · next htth =>
    obtain ⟨hgrow, halone⟩ := hok (by simpa using htth)
    split
    · next treeBlockSize =>
      have hsame : s.item.updateBlockSize treeBlockSize = (s.item, false) := by
        rw [QueueItem.updateBlockSize, if_neg]
        exact Nat.not_lt.mpr (hgrow treeBlockSize rfl)
      simp only [hsame, Bool.false_eq_true, if_false]
      exact next_inv h ⟨rfl, id, id⟩ rfl hentry.symm (by rw [hpicked]; rfl) ⟨rfl, hpos⟩
    · refine erase_inv h ⟨rfl, id, id⟩ (removeSegment_list h hentry hpos) hentry ?_ ?_ ?_
      · rfl
      · exact rfl
      · rintro v hvu x ⟨seg', htar, -⟩ hv
        cases wantTree with
        | true => cases htar
        | false => exact halone rfl rfl v hvu x hv

private theorem record_inv (h : s.Inv) {type : TransferType} {seg : Segment}
    {segmentAdded : Bool} (hchosen : s.phase u = .chosen type seg segmentAdded) :
    (s.record u type seg segmentAdded).Inv := by
  have hwf := h.wf u
  rw [hchosen] at hwf
  have hapart : ∀ v, v ≠ u → ∀ x, (Phase.recorded type seg).Holds x → ¬(s.phase v).Holds x := by
    intro v hvu x hx
    apply h.apart u v hvu.symm x
    rw [hchosen]
    exact holds_of_target rfl hx
  rw [record]
  cases segmentAdded with
  | true =>
    obtain ⟨rfl, hpos⟩ : type = .file ∧ 0 < seg.size := hwf
    have hentry : (s.phase u).entry u = some ⟨seg, none⟩ := by
      rw [hchosen]
      rfl
    have hmem : ⟨seg, none⟩ ∈ s.item.downloads := (h.entries _).mpr ⟨u, hentry⟩
    obtain ⟨honce, hiff⟩ := setFirst_spec (d := u) (seg_iff h hentry hpos) hmem h.once
    rw [if_neg (by omega), if_pos rfl]
    refine update_inv h rfl h.blockSize h.done ?_ honce (.inr ⟨rfl, hpos⟩) hapart
    intro r
    change r ∈ QueueItem.setFirst seg u s.item.downloads ↔ _
    rw [hiff, mem_iff_other (u := u) h, hentry]
    constructor
    · rintro (rfl | ⟨hr | hr, hne⟩)
      · exact .inl rfl
      · exact absurd (Option.some_inj.mp hr).symm hne
      · exact .inr hr
    · rintro (hr | ⟨v, hvu, hv⟩)
      · exact .inl (Option.some_inj.mp hr).symm
      · refine .inr ⟨.inr ⟨v, hvu, hv⟩, ?_⟩
        rintro rfl
        exact hvu (entry_inj h hv hentry)
  | false =>
    obtain rfl : seg = .unset := hwf
    have hnone : (s.phase u).entry u = none := by
      rw [hchosen]
      rfl
    rw [if_neg (by decide), if_neg (by decide)]
    refine add_inv h (r := ⟨.unset, some u⟩) ⟨rfl, id, id⟩ rfl hnone rfl (.inl rfl) ?_ hapart
    intro hin
    obtain ⟨v, hv⟩ := (h.entries _).mp hin
    rcases entry_cases (h.wf v) hv with ⟨hd, -, -⟩ | ⟨hd, -⟩
    · cases hd
    · obtain rfl := Option.some_inj.mp hd
      rw [hnone] at hv
      cases hv

omit [DecidableEq υ] in
private theorem addSegmentL_frame' (q : QueueItem υ) (seg : Segment) (hseg : 0 ≤ seg.size) :
    Frame q (q.addSegmentL seg) ∧ (q.addSegmentL seg).downloads = q.downloads := by
  obtain ⟨hsize, hlist, hblock⟩ := QueueItem.addSegmentL_frame q seg
  exact ⟨⟨hsize, fun hpos ↦ hblock ▸ hpos, fun hdone ↦ q.addSegmentL_nonneg seg hdone hseg⟩, hlist⟩

private theorem markDone_inv (h : s.Inv) {type : TransferType} {seg : Segment}
    (hrunning : s.phase u = .running type seg) (finished : Bool)
    (bytes pos treeBlockSize : Nat) :
    (s.markDone u type seg finished bytes pos treeBlockSize).Inv := by
  have hwf := h.wf u
  rw [hrunning] at hwf
  have hnext : ∀ {item : QueueItem υ} {itemDone : Bool}, Frame s.item item →
      item.downloads = s.item.downloads → (s.update u item (.ending type seg itemDone)).Inv := by
    intro item itemDone hframe hlist
    exact next_inv h hframe hlist (by rw [hrunning]; rfl) (by rw [hrunning]; rfl) hwf
  unfold markDone
  split
  · exact hnext ⟨rfl, id, id⟩ rfl
  · split
    · have hsize : 0 ≤ if seg.size = -1 then (bytes : Int) else seg.size := by
        split
        · exact Int.natCast_nonneg _
        · next hne =>
          rcases hwf with rfl | ⟨-, hpos⟩
          · exact absurd rfl hne
          · exact Int.le_of_lt hpos
      obtain ⟨hframe, hlist⟩ := addSegmentL_frame' s.item
        ⟨seg.start, if seg.size = -1 then (bytes : Int) else seg.size⟩ hsize
      exact hnext hframe hlist
    · simp only
      split
      · obtain ⟨hframe, hlist⟩ := addSegmentL_frame' s.item
          ⟨seg.start, ((pos - pos % treeBlockSize : Nat) : Int)⟩ (Int.natCast_nonneg _)
        exact hnext hframe hlist
      · exact hnext ⟨rfl, id, id⟩ rfl

private theorem removeDownload_inv (h : s.Inv) {type : TransferType} {seg : Segment}
    {itemDone : Bool} (hending : s.phase u = .ending type seg itemDone) (hasTree : Bool)
    (hqueued : (s.removeDownload u type itemDone hasTree).queued = true) :
    (s.removeDownload u type itemDone hasTree).Inv := by
  have hentry : (s.phase u).entry u = some ⟨seg, some u⟩ := by
    rw [hending]
    rfl
  rw [removeDownload] at hqueued ⊢
  cases itemDone with
  | true => cases hqueued
  | false =>
    rw [if_neg (by decide)]
    have hlist := removeUser_list h hentry
    have hapart : ∀ v, v ≠ u → ∀ x, Phase.idle.Holds x → ¬(s.phase v).Holds x := by
      rintro v - x ⟨seg', htar, -⟩
      cases htar
    simp only
    split
    · exact erase_inv h ⟨rfl, id, id⟩ hlist hentry rfl True.intro hapart
    · exact erase_inv h ⟨rfl, id, id⟩ hlist hentry rfl True.intro hapart

/-- A step keeps the invariant as long as the item is in the queue. -/
theorem step_inv (h : s.queued = true → s.Inv) (e : FetchEvent υ) (hok : Ok s e)
    (hqueued : (s.step e).queued = true) : (s.step e).Inv := by
  unfold step at hqueued ⊢
  split at hqueued
  · next hnot => simp [hqueued] at hnot
  · next hin =>
    have hinv := h (by simpa using hin)
    rw [if_neg hin]
    cases e with
    | pick u a =>
      simp only
      split
      · next hphase => exact pick_inv hinv hphase hok
      · exact hinv
    | lookupTree u tree wantTree =>
      simp only
      split
      · next hphase => exact lookupTree_inv hinv hphase hok
      · exact hinv
    | recompute u gsp source rand =>
      simp only
      split
      · next hphase =>
        have hwf := hinv.wf u
        rw [hphase] at hwf
        exact hwf.elim
      · exact hinv
    | record u =>
      simp only
      split
      · next hphase => exact record_inv hinv hphase
      · exact hinv
    | setSegment u =>
      simp only
      split
      · next hphase =>
        have hwf := hinv.wf u
        rw [hphase] at hwf
        exact next_inv hinv ⟨rfl, id, id⟩ rfl (by rw [hphase]; rfl) (by rw [hphase]; rfl) hwf
      · exact hinv
    | markDone u finished bytes pos treeBlockSize =>
      simp only
      split
      · next hphase => exact markDone_inv hinv hphase finished bytes pos treeBlockSize
      · exact hinv
    | removeDownload u hasTree =>
      simp only at hqueued ⊢
      split at hqueued
      · next hphase => exact removeDownload_inv hinv hphase hasTree hqueued
      · exact hinv

omit [DecidableEq υ] in
theorem inv_initial {q : QueueItem υ} {hasTTH : Bool} (hsize : 0 < q.size)
    (hblock : 0 < q.blockSize) (hdone : ∀ t ∈ q.doneSegments, 0 ≤ t.size) :
    (initial q hasTTH).Inv := by
  refine ⟨hsize, hblock, hdone, ?_, List.nodup_nil, ?_, ?_⟩
  · intro r
    constructor
    · intro hr
      cases hr
    · rintro ⟨u, hu⟩
      cases hu
  · rintro u v - x ⟨seg, htar, -⟩
    cases htar
  · intro u
    exact True.intro

omit [DecidableEq υ] in
theorem Inv.exclusive (h : s.Inv) : s.Exclusive := by
  refine ⟨?_, fun r hr => (h.entries r).mp hr, h.once, h.apart⟩
  intro u type seg hgiven
  have hentry : (s.phase u).entry u = some ⟨seg, some u⟩ := by
    cases hphase : s.phase u <;> rw [hphase] at hgiven <;> cases hgiven <;> rfl
  refine ⟨(h.entries _).mpr ⟨u, hentry⟩, ?_⟩
  intro r hr hd
  obtain ⟨v, hv⟩ := (h.entries r).mp hr
  rcases entry_cases (h.wf v) hv with ⟨hd', -, -⟩ | ⟨hd', -⟩
  · rw [hd] at hd'
    cases hd'
  · rw [hd, Option.some_inj] at hd'
    rw [← hd', hentry, Option.some_inj] at hv
    rw [← hv]

/-- In every run that meets the condition, as long as the item is in the queue, the recorded
segments are those of the running downloads and of the calls in progress, and no byte of the file
belongs to two of them. -/
theorem exclusive_of_within (q : QueueItem υ) (hasTTH : Bool) (hsize : 0 < q.size)
    (hblock : 0 < q.blockSize) (hdone : ∀ t ∈ q.doneSegments, 0 ≤ t.size)
    (es : List (FetchEvent υ)) (h : Within Ok step (initial q hasTTH) es)
    (pre : List (FetchEvent υ)) (hpre : pre <+: es)
    (hqueued : (run step (initial q hasTTH) pre).queued = true) :
    (run step (initial q hasTTH) pre).Exclusive := by
  obtain ⟨post, rfl⟩ := hpre
  have hw := ((within_append Ok step (initial q hasTTH) pre post).mp h).1
  have hinv := hw.invariant (fun s => s.queued = true → s.Inv)
    (fun _ e hs he => step_inv hs e he) fun _ => inv_initial hsize hblock hdone
  exact (hinv hqueued).exclusive

/-! ### A file of four blocks -/

private def fourBlocks : QueueItem Nat := ⟨262144, false, false, 65536, 2, [], [], 0, 0, 0⟩

private def oneBlock : PickParams :=
  ⟨⟨⟨true, false, 0, 0⟩, rfl⟩, none, 0, true, 0, 0, true, true⟩

/-- The first block is picked. -/
private theorem pick_fourBlocks : (initial fourBlocks true).pick 0 oneBlock =
    (initial fourBlocks true).update 0 (fourBlocks.addDownloadSegment ⟨0, 65536⟩)
      (.picked ⟨0, 65536⟩ true) := by
  simp [initial, pick, offered, refresh, fourBlocks, oneBlock, QueueItem.isWaiting,
    QueueItem.getNextSegmentL, QueueItem.search, QueueItem.searchSizes, QueueItem.targetSize,
    QueueItem.shouldSearchBackward, QueueItem.getNextSegmentForward, QueueItem.forwardStart,
    QueueItem.forwardLoop, QueueItem.blocked, QueueItem.addDownloadSegment]

/-- A call with a tree of the item's block size reserves the first block. -/
theorem exclusive_first_block :
    (run step (initial fourBlocks true) [.pick 0 oneBlock, .lookupTree 0 (some 65536) true,
      .record 0, .setSegment 0]).Exclusive := by
  have hstep : step (initial fourBlocks true) (.pick 0 oneBlock) = _ := pick_fourBlocks
  apply exclusive_of_within fourBlocks true (by decide) (by decide) (by simp [fourBlocks]) _ _ _
    List.prefix_rfl
  · rw [run_cons, hstep]
    decide
  · refine (within_cons ..).mpr ⟨⟨?_, ?_⟩, ?_⟩
    · intro ps hps
      cases hps
    · rintro - v ⟨seg, htar, -⟩
      cases htar
    · rw [hstep]
      refine ⟨?_, True.intro, True.intro, True.intro⟩
      intro _
      refine ⟨?_, ?_⟩
      · intro treeBlockSize htree
        cases htree
        exact Nat.le_refl _
      · intro htree
        cases htree

/-- A tree with larger blocks: the reserved segment is given up and computed again, the list gets
the default segment, and a second user is given the same bytes. -/
theorem not_exclusive_larger_blocks :
    ¬(run step (initial fourBlocks true) [.pick 0 oneBlock, .lookupTree 0 (some 131072) true,
      .recompute 0 oneBlock.gsp (some none) 0, .record 0, .setSegment 0, .pick 1 oneBlock,
      .lookupTree 1 (some 131072) true, .record 1, .setSegment 1]).Exclusive := by
  intro h
  have hphases : ∀ u < 2, ((run step (initial fourBlocks true) [.pick 0 oneBlock,
      .lookupTree 0 (some 131072) true, .recompute 0 oneBlock.gsp (some none) 0, .record 0,
      .setSegment 0, .pick 1 oneBlock, .lookupTree 1 (some 131072) true, .record 1,
      .setSegment 1]).phase u).target = some (.file, ⟨0, 131072⟩) := by
    intro u hu
    have hu : u = 0 ∨ u = 1 := by omega
    rcases hu with rfl | rfl <;>
    simp [step, initial, pick, offered, update, refresh, release, lookupTree, recompute, record,
      fourBlocks, oneBlock, QueueItem.isWaiting, QueueItem.getNextSegmentL, QueueItem.search,
      QueueItem.searchSizes, QueueItem.targetSize, QueueItem.shouldSearchBackward,
      QueueItem.getNextSegmentForward, QueueItem.forwardStart, QueueItem.forwardLoop,
      QueueItem.blocked, QueueItem.addDownloadSegment, QueueItem.removeDownloadSegment,
      QueueItem.addDownload, QueueItem.setDownloadForSegment, QueueItem.updateBlockSize,
      Segment.overlaps, Segment.unset, Segment.getEnd, Function.update, Phase.target]
  exact h.apart 0 1 (by decide) 0 ⟨_, hphases 0 (by decide), by decide, .inr (by decide)⟩
    ⟨_, hphases 1 (by decide), by decide, .inr (by decide)⟩

end SharedItem
end Blacklink.Queue
