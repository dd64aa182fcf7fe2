import Mathlib.Data.Set.Card
import Blacklink.Queue.DoneSegments

/-!
# Lists of parts

Model of `QueueItem::isNeededPart`, `getParts` and `countParts` (`client/QueueItem.cpp:778-842`). A
list of parts is what peers tell each other of the blocks they have: pairs of block indexes of 16
bits, from the first one to behind the last.
-/

namespace Blacklink.Queue

open Blacklink.Base

/-- `PartsInfo`. -/
abbrev PartsInfo := List UInt16

/-- The ranges of blocks that are listed. -/
def partRanges : PartsInfo → List (Int × Int)
  | s :: e :: rest => ((s.toNat : Int), (e.toNat : Int)) :: partRanges rest
  | _ => []

/-- `countParts`. -/
def countParts : PartsInfo → Int
  | s :: e :: rest => (e.toNat : Int) - s.toNat + countParts rest
  | _ => 0

/-- The ranges have blocks, do not meet and increase. -/
structure WellFormedParts (parts : PartsInfo) : Prop where
  even : parts.length % 2 = 0
  proper : Proper (partRanges parts)
  apart : Apart (partRanges parts)

/-! ### What a peer has to offer -/

/-- The loop of `isNeededPart`. `theirs` are the parts from index `i + 2` on, the last argument ours
from `j` on. -/
def isNeededLoop (start stop : UInt16) (theirs : PartsInfo) : PartsInfo → Bool
  | myStart :: myEnd :: ours =>
    if start < myStart then true
    else if myEnd ≤ start then isNeededLoop start stop theirs ours
    else if stop ≤ myEnd then
      match theirs with
      | s :: e :: theirs => isNeededLoop s e theirs (myStart :: myEnd :: ours)
      | _ => false
    else isNeededLoop myEnd stop theirs ours
  | _ => true
termination_by ours => theirs.length + ours.length

/-- `isNeededPart`. -/
def isNeededPart (theirParts ourParts : PartsInfo) : Bool :=
  if theirParts.length % 2 = 1 ∨ ourParts.length % 2 = 1 then false
  else
    match theirParts with
    | start :: stop :: theirs => isNeededLoop start stop theirs ourParts
    | _ => false

/-- The intervals of ours that are left out end before what is left of theirs, and so do not
matter. -/
theorem isNeededLoop_iff {start stop : UInt16} {theirs ours : PartsInfo}
    (hproper : Proper (partRanges (start :: stop :: theirs)))
    (happart : Apart (partRanges (start :: stop :: theirs))) (hproper' : Proper (partRanges ours))
    (happart' : Apart (partRanges ours)) :
    isNeededLoop start stop theirs ours = true ↔
      ∃ x, Covers (partRanges (start :: stop :: theirs)) x ∧ ¬ Covers (partRanges ours) x := by
  fun_induction isNeededLoop start stop theirs ours with
  | case1 start stop theirs myStart myEnd ours hlt =>
    have hfirst := hproper _ List.mem_cons_self
    have hmine := hproper' _ List.mem_cons_self
    rw [UInt16.lt_iff_toNat_lt] at hlt
    refine iff_of_true rfl ⟨start.toNat, (covers_cons _ _ _).mpr (.inl ⟨le_rfl, hfirst⟩), ?_⟩
    rw [partRanges, covers_cons]
    rintro (hmy | hlater)
    · have hle := hmy.1
      dsimp only at hle
      omega
    · have hle := happart'.le_of_covers hlater
      dsimp only at hle hmine
      omega
  | case2 start stop theirs myStart myEnd ours _ hend ih =>
    have hrest := ih hproper happart (fun i hi => hproper' i (List.mem_cons_of_mem _ hi))
      (List.pairwise_cons.mp happart').2
    have hfirst := hproper _ List.mem_cons_self
    rw [UInt16.le_iff_toNat_le] at hend
    rw [hrest]
    refine exists_congr fun x => and_congr_right fun hx => not_congr ?_
    have hle : (start.toNat : Int) ≤ x := by
      rcases (covers_cons _ _ _).mp hx with hx | hx
      · exact hx.1
      · exact (le_of_lt hfirst).trans (happart.le_of_covers hx)
    rw [partRanges, covers_cons_of_le (by dsimp only; omega)]
  | case3 start stop myStart myEnd ours hlt hend hstop s e theirs ih =>
    have hrest := ih (fun i hi => hproper i (List.mem_cons_of_mem _ hi))
      (List.pairwise_cons.mp happart).2 hproper' happart'
    rw [UInt16.lt_iff_toNat_lt] at hlt
    rw [UInt16.le_iff_toNat_le] at hstop
    rw [hrest]
    refine exists_congr fun x => ⟨fun ⟨hx, hno⟩ => ⟨(covers_cons _ _ _).mpr (.inr hx), hno⟩, ?_⟩
    rintro ⟨hx, hno⟩
    refine ⟨((covers_cons _ _ _).mp hx).resolve_left fun hin => hno ?_, hno⟩
    obtain ⟨hlow, hhigh⟩ := hin
    refine (covers_cons _ _ _).mpr (.inl ⟨?_, ?_⟩)
    · dsimp only at hlow ⊢
      omega
    · dsimp only at hhigh ⊢
      omega
  | case4 start stop theirs myStart myEnd ours hlt hend hstop hnone =>
    rw [UInt16.lt_iff_toNat_lt] at hlt
    rw [UInt16.le_iff_toNat_le] at hstop
    have hnil : partRanges theirs = [] := by
      unfold partRanges
      split
      · exact absurd rfl (hnone _ _ _)
      · rfl
    refine iff_of_false Bool.false_ne_true ?_
    rintro ⟨x, hx, hno⟩
    rw [partRanges, hnil, covers_cons, covers_nil, or_false] at hx
    obtain ⟨hlow, hhigh⟩ := hx
    refine hno ((covers_cons _ _ _).mpr (.inl ⟨?_, ?_⟩))
    · dsimp only at hlow ⊢
      omega
    · dsimp only at hhigh ⊢
      omega
  | case5 start stop theirs myStart myEnd ours hlt hend hstop ih =>
    rw [UInt16.lt_iff_toNat_lt] at hlt
    rw [UInt16.le_iff_toNat_le] at hend hstop
    have hproper'' : Proper (partRanges (myEnd :: stop :: theirs)) := by
      intro i hi
      rcases List.mem_cons.mp hi with rfl | hi
      · dsimp only
        omega
      · exact hproper i (List.mem_cons_of_mem _ hi)
    have happart'' : Apart (partRanges (myEnd :: stop :: theirs)) :=
      List.pairwise_cons.mpr (List.pairwise_cons.mp happart)
    have hrest := ih hproper'' happart'' (fun i hi => hproper' i (List.mem_cons_of_mem _ hi))
      (List.pairwise_cons.mp happart').2
    rw [hrest]
    constructor
    · rintro ⟨x, hx, hno⟩
      have hle : (myEnd.toNat : Int) ≤ x := by
        rcases (covers_cons _ _ _).mp hx with hx | hx
        · exact hx.1
        · exact le_trans (le_of_lt (hproper'' _ List.mem_cons_self)) (happart''.le_of_covers hx)
      refine ⟨x, ?_, fun hx' => hno ((covers_cons_of_le hle).mp hx')⟩
      refine (covers_cons _ _ _).mpr (((covers_cons _ _ _).mp hx).imp_left fun hin => ⟨?_, hin.2⟩)
      dsimp only
      omega
    · rintro ⟨x, hx, hno⟩
      rw [partRanges, covers_cons, not_or] at hno
      refine ⟨x, (covers_cons _ _ _).mpr (((covers_cons _ _ _).mp hx).imp_left fun hin ↦ ?_), hno.2⟩
      refine ⟨le_of_not_gt fun hlow => hno.1 ⟨?_, hlow⟩, hin.2⟩
      have hle := hin.1
      dsimp only at hle ⊢
      omega
  | case6 start stop theirs ours hnone =>
    have hnil : partRanges ours = [] := by
      unfold partRanges
      split
      · exact absurd rfl (hnone _ _ _)
      · rfl
    have hfirst := hproper _ List.mem_cons_self
    refine iff_of_true rfl ⟨start.toNat, (covers_cons _ _ _).mpr (.inl ⟨le_rfl, hfirst⟩), ?_⟩
    rw [hnil]
    exact (covers_nil _).mp

/-- A peer has a part that is needed exactly when it has a block that is not there yet. -/
theorem isNeededPart_iff {theirParts ourParts : PartsInfo} (h : WellFormedParts theirParts)
    (h' : WellFormedParts ourParts) :
    isNeededPart theirParts ourParts = true ↔
      ∃ x, Covers (partRanges theirParts) x ∧ ¬ Covers (partRanges ourParts) x := by
  have heven : ¬ (theirParts.length % 2 = 1 ∨ ourParts.length % 2 = 1) := by
    rw [h.even, h'.even]
    decide
  unfold isNeededPart
  rw [if_neg heven]
  cases theirParts with
  | nil => simp [partRanges]
  | cons start rest =>
    cases rest with
    | nil => exact absurd h.even Nat.one_ne_zero
    | cons stop theirs => exact isNeededLoop_iff h.proper h.apart h'.proper h'.apart

theorem isNeededPart_three :
    isNeededPart [0, 3, 5, 7] [0, 4, 4, 6] = true ↔
      ∃ x, Covers (partRanges [0, 3, 5, 7]) x ∧ ¬ Covers (partRanges [0, 4, 4, 6]) x :=
  isNeededPart_iff ⟨by decide, by simp [Proper, partRanges], by simp [Apart, partRanges]⟩
    ⟨by decide, by simp [Proper, partRanges], by simp [Apart, partRanges]⟩

/-! ### What is there -/

namespace QueueItem

variable {υ : Type} (q : QueueItem υ)

/-- The pair of a segment in `getParts`: the start rounded up, the end rounded down unless it is
the end of the file. -/
def partOf (blockSize : Nat) (i : Segment) : UInt16 × UInt16 :=
  let stop := if q.size ≤ i.getEnd then i.getEnd + blockSize - 1 else i.getEnd
  (((i.start + blockSize - 1) / blockSize).toNat.toUInt16, (stop / blockSize).toNat.toUInt16)

/-- The loop of `getParts`. -/
def getPartsLoop (blockSize maxSize : Nat) : List Segment → PartsInfo → PartsInfo
  | [], partialInfo => partialInfo
  | i :: is, partialInfo =>
    if partialInfo.length < maxSize then
      let part := q.partOf blockSize i
      getPartsLoop blockSize maxSize is (partialInfo ++ [part.1, part.2])
    else partialInfo

/-- `getParts`. -/
def getParts (blockSize : Nat) : PartsInfo :=
  if blockSize = 0 then []
  else getPartsLoop q blockSize (min (q.doneSegments.length * 2) 510) q.doneSegments []

/-- All bytes of a block are done; the last block may be short. -/
def BlockDone (blockSize : Nat) (k : Int) : Prop :=
  0 ≤ k ∧ k * blockSize < q.size ∧
    ∀ x, k * blockSize ≤ x → x < min q.size ((k + 1) * blockSize) → ∃ t ∈ q.doneSegments, t.Mem x

/-- A segment has all bytes of a block. -/
def HasBlock (blockSize : Nat) (t : Segment) : Prop :=
  ∃ k : Int, 0 ≤ k ∧ k * blockSize < q.size ∧ t.start ≤ k * blockSize ∧
    min q.size ((k + 1) * blockSize) ≤ t.getEnd

/-- The list is well formed, its ranges do not even touch, and it lists exactly the blocks that are
done. -/
structure ListsDone (blockSize : Nat) (parts : PartsInfo) : Prop where
  wellFormed : WellFormedParts parts
  separated : Separated (partRanges parts)
  done : ∀ k, Covers (partRanges parts) k ↔ q.BlockDone blockSize k
  count : countParts parts = {k | q.BlockDone blockSize k}.ncard

variable {q}

private theorem getPartsLoop_eq {blockSize maxSize : Nat} {l : List Segment} {parts : PartsInfo}
    (h : parts.length + l.length * 2 ≤ maxSize) :
    getPartsLoop q blockSize maxSize l parts =
      parts ++ l.flatMap fun i => [(q.partOf blockSize i).1, (q.partOf blockSize i).2] := by
  induction l generalizing parts with
  | nil => simp [getPartsLoop]
  | cons i l ih =>
    rw [List.length_cons] at h
    rw [getPartsLoop, if_pos (by omega)]
    dsimp only
    rw [ih (by simp; omega)]
    simp

private theorem partRanges_flatMap (f : Segment → UInt16 × UInt16) (l : List Segment) :
    partRanges (l.flatMap fun i => [(f i).1, (f i).2]) =
      l.map fun i => (((f i).1.toNat : Int), ((f i).2.toNat : Int)) := by
  induction l with
  | nil => rfl
  | cons i l ih => simp [partRanges, ih]

private theorem countParts_eq (parts : PartsInfo) :
    countParts parts = total (partRanges parts) := by
  fun_induction countParts parts with
  | case1 s e rest ih => simp [partRanges, total, ih]
  | case2 parts hnone =>
    unfold partRanges
    split
    · exact absurd rfl (hnone _ _ _)
    · rfl

/-- An index of a block fits into 16 bits. -/
private theorem toNat_index {x : Int} (hnonneg : 0 ≤ x) (hle : x ≤ 65535) :
    (x.toNat.toUInt16.toNat : Int) = x := by
  have hlt : x.toNat < UInt16.size := by
    change x.toNat < 65536
    omega
  rw [UInt16.toNat_ofNat_of_lt' hlt, Int.toNat_of_nonneg hnonneg]

section

variable {blockSize : Nat} (hb : 0 < blockSize) (hblocks : q.size ≤ 65535 * blockSize)

include hb hblocks

/-- The blocks between the numbers of a pair are those that the segment has. -/
theorem partOf_spec {t : Segment} (hin : t.Inside q.size) (k : Int) :
    (((q.partOf blockSize t).1.toNat : Int) ≤ k ↔ t.start ≤ k * blockSize) ∧
      (k < ((q.partOf blockSize t).2.toNat : Int) ↔
        k * blockSize < q.size ∧ min q.size ((k + 1) * blockSize) ≤ t.getEnd) := by
  obtain ⟨hstart, hsize, hend⟩ := hin
  have hpos : (0 : Int) < blockSize := Int.natCast_pos.mpr hb
  have hle : t.start ≤ t.getEnd := by
    rw [Segment.getEnd]
    omega
  have hsucc : (k + 1) * blockSize = k * blockSize + blockSize := by rw [add_mul, one_mul]
  constructor
  · have hindex : ((q.partOf blockSize t).1.toNat : Int) =
        (t.start + blockSize - 1) / blockSize := by
      apply toNat_index
      · exact Int.ediv_nonneg (by omega) hpos.le
      · rw [Int.ediv_le_iff_le_mul hpos]
        omega
    rw [hindex, Int.ediv_le_iff_le_mul hpos]
    omega
  · generalize hstop : (if q.size ≤ t.getEnd then t.getEnd + blockSize - 1 else t.getEnd) = stop
    have hbounds : 0 ≤ stop ∧ stop < 65535 * blockSize + blockSize := by
      rw [← hstop]
      split <;> omega
    have hindex : ((q.partOf blockSize t).2.toNat : Int) = stop / blockSize := by
      rw [← hstop]
      apply toNat_index
      · rw [hstop]
        exact Int.ediv_nonneg hbounds.1 hpos.le
      · rw [hstop, Int.ediv_le_iff_le_mul hpos]
        exact hbounds.2
    rw [hindex, ← Int.add_one_le_iff, Int.le_ediv_iff_mul_le hpos, hsucc, ← hstop]
    split <;> omega

/-- A pair has a block exactly when the segment has. -/
theorem partOf_proper_iff {t : Segment} (hin : t.Inside q.size) :
    ((q.partOf blockSize t).1.toNat : Int) < (q.partOf blockSize t).2.toNat ↔
      q.HasBlock blockSize t := by
  constructor
  · intro hlt
    obtain ⟨hstart, hstop⟩ := partOf_spec hb hblocks hin (q.partOf blockSize t).1.toNat
    obtain ⟨hsize, hend⟩ := hstop.mp hlt
    exact ⟨_, Int.natCast_nonneg _, hsize, hstart.mp le_rfl, hend⟩
  · rintro ⟨k, -, hsize, hstart, hend⟩
    obtain ⟨hstart', hstop'⟩ := partOf_spec hb hblocks hin k
    exact lt_of_le_of_lt (hstart'.mpr hstart) (hstop'.mpr ⟨hsize, hend⟩)

/-- The pairs of segments with a gap between them have a gap between them. -/
theorem partOf_separated {t t' : Segment} (hin : t.Inside q.size) (hin' : t'.Inside q.size)
    (hlt : t.getEnd < t'.start) :
    ((q.partOf blockSize t).2.toNat : Int) < (q.partOf blockSize t').1.toNat := by
  by_contra hge
  have hpos : (0 : Int) < blockSize := Int.natCast_pos.mpr hb
  obtain ⟨hstart, -⟩ := partOf_spec hb hblocks hin' (q.partOf blockSize t').1.toNat
  obtain ⟨-, hstop⟩ :=
    partOf_spec hb hblocks hin (((q.partOf blockSize t').1.toNat : Int) - 1)
  have hstart := hstart.mp le_rfl
  have hend := (hstop.mp (by omega)).2
  rw [Int.sub_add_cancel] at hend
  have hsize := hin'.2.1
  have hinside := hin'.2.2
  rw [Segment.getEnd] at hinside
  omega

/-- The list is right exactly when each of the finished segments has a whole block. -/
theorem listsDone_getParts_iff (h : Consolidated q.doneSegments)
    (hin : ∀ t ∈ q.doneSegments, t.Inside q.size) (hcount : q.doneSegments.length ≤ 255) :
    q.ListsDone blockSize (q.getParts blockSize) ↔
      ∀ t ∈ q.doneSegments, q.HasBlock blockSize t := by
  have hparts : q.getParts blockSize = q.doneSegments.flatMap fun i =>
      [(q.partOf blockSize i).1, (q.partOf blockSize i).2] := by
    unfold getParts
    rw [if_neg (Nat.ne_of_gt hb), getPartsLoop_eq (by rw [List.length_nil]; omega),
      List.nil_append]
  have hranges := partRanges_flatMap (q.partOf blockSize) q.doneSegments
  rw [← hparts] at hranges
  constructor
  · intro hlists t ht
    rw [← partOf_proper_iff hb hblocks (hin t ht)]
    apply hlists.wellFormed.proper
      (((q.partOf blockSize t).1.toNat : Int), ((q.partOf blockSize t).2.toNat : Int))
    rw [hranges]
    exact List.mem_map_of_mem ht
  · intro hall
    have hproper : Proper (partRanges (q.getParts blockSize)) := by
      intro i hi
      rw [hranges] at hi
      obtain ⟨t, ht, rfl⟩ := List.mem_map.mp hi
      exact (partOf_proper_iff hb hblocks (hin t ht)).mpr (hall t ht)
    have hseparated : Separated (partRanges (q.getParts blockSize)) := by
      rw [hranges]
      apply List.pairwise_map.mpr
      apply List.Pairwise.imp_of_mem _ (List.pairwise_map.mp h.separated)
      intro t t' ht ht' hlt
      exact partOf_separated hb hblocks (hin t ht) (hin t' ht') hlt
    have hdone (k : Int) :
        Covers (partRanges (q.getParts blockSize)) k ↔ q.BlockDone blockSize k := by
      have hpos : (0 : Int) < blockSize := Int.natCast_pos.mpr hb
      rw [hranges]
      constructor
      · rintro ⟨i, hi, hlow, hhigh⟩
        obtain ⟨t, ht, rfl⟩ := List.mem_map.mp hi
        obtain ⟨hstart, hstop⟩ := partOf_spec hb hblocks (hin t ht) k
        obtain ⟨hsize, hend⟩ := hstop.mp hhigh
        refine ⟨(Int.natCast_nonneg _).trans hlow, hsize, fun x hx hx' => ⟨t, ht, ?_, ?_⟩⟩
        · exact (hstart.mp hlow).trans hx
        · exact hx'.trans_le hend
      · rintro ⟨hnonneg, hsize, hall⟩
        have hlt : k * (blockSize : Int) < min q.size ((k + 1) * blockSize) := by
          rw [add_mul, one_mul]
          omega
        obtain ⟨i, hi, hlow, hhigh⟩ := h.separated.contains_of_covers h.proper hlt
          fun x hx hx' => covers_map.mpr (hall x hx hx')
        obtain ⟨t, ht, rfl⟩ := List.mem_map.mp hi
        obtain ⟨hstart, hstop⟩ := partOf_spec hb hblocks (hin t ht) k
        exact ⟨_, List.mem_map_of_mem ht, hstart.mpr hlow, hstop.mpr ⟨hsize, hhigh⟩⟩
    refine ⟨⟨?_, hproper, hseparated.apart⟩, hseparated, hdone, ?_⟩
    · rw [hparts]
      induction q.doneSegments with
      | nil => rfl
      | cons t l ih =>
        rw [List.flatMap_cons, List.length_append, List.length_cons, List.length_singleton]
        omega
    · have hset : {k | q.BlockDone blockSize k} =
          (points (partRanges (q.getParts blockSize)) : Set Int) := by
        ext k
        rw [Finset.mem_coe, mem_points, hdone]
        rfl
      rw [countParts_eq, hset, Set.ncard_coe_finset, hseparated.card_points hproper]

end

/-- A file of 400 bytes of which some are there. -/
def partItem (doneSegments : SegmentSet) : QueueItem Unit :=
  ⟨400, false, true, 100, 1, [], doneSegments, 0, 0, 0⟩

/-- The last block, and two before it. -/
theorem listsDone_getParts_partItem :
    (partItem [⟨0, 200⟩, ⟨250, 150⟩]).ListsDone 100
        ((partItem [⟨0, 200⟩, ⟨250, 150⟩]).getParts 100) ↔
      ∀ t ∈ (partItem [⟨0, 200⟩, ⟨250, 150⟩]).doneSegments,
        (partItem [⟨0, 200⟩, ⟨250, 150⟩]).HasBlock 100 t :=
  listsDone_getParts_iff (by decide) (by decide)
    ⟨by simp [partItem, Separated, Segment.toInterval, Segment.getEnd],
      by simp [partItem, Proper, Segment.toInterval, Segment.getEnd]⟩
    (by decide) (by decide)

/-- A segment without a whole block is listed as a range that ends before it begins. -/
theorem not_listsDone_partItem :
    ¬ (partItem [⟨0, 100⟩, ⟨110, 20⟩]).ListsDone 100
      ((partItem [⟨0, 100⟩, ⟨110, 20⟩]).getParts 100) := by
  intro h
  have hparts : partRanges ((partItem [⟨0, 100⟩, ⟨110, 20⟩]).getParts 100) = [(0, 1), (2, 1)] := by
    decide
  have hproper := h.wellFormed.proper
  rw [hparts] at hproper
  exact absurd (hproper (2, 1) (by decide)) (by decide)

end QueueItem

end Blacklink.Queue
