import Blacklink.Nmdc.SearchParse
import Blacklink.Queue.PartSegments

/-!
# Results of partial file sharing

Model of what `SearchManager::onPSR` reads and of the check it makes
(`client/SearchManager.cpp:606-656`). The ranges go into the `PartialSource` of a queue item as they
are: neither the lookup of the user nor `QueueManager::handlePartialResult`
(`client/QueueManager.cpp:3269-3366`), which refuses small files, compares the ends of a range.
-/

namespace Blacklink.Searches

open Blacklink.Text Blacklink.Nmdc Blacklink.Queue Blacklink.Base

/-- What `onPSR` has read. -/
structure PSRFields where
  udp4Port : UInt16
  udp6Port : UInt16
  partialCount : Nat
  tth : List UInt8
  hubIpPort : List UInt8
  nick : List UInt8
  partialInfo : PartsInfo
  deriving DecidableEq

/-- The conversion of a number to 16 bits. -/
def toUInt16 (s : List UInt8) : UInt16 := (toInt s % 2 ^ 16).toNat.toUInt16

/-- The loop of `onPSR` for one parameter. -/
def PSRFields.add (st : PSRFields) (str : List UInt8) : PSRFields :=
  let value := str.drop 2
  if str.length ≤ 2 then st
  else if str.take 2 = ascii "U4" then { st with udp4Port := toUInt16 value }
  else if str.take 2 = ascii "U6" then { st with udp6Port := toUInt16 value }
  else if str.take 2 = ascii "NI" then { st with nick := value }
  else if str.take 2 = ascii "HI" then { st with hubIpPort := value }
  else if str.take 2 = ascii "TR" then { st with tth := value }
  else if str.take 2 = ascii "PC" then
    { st with partialCount := Nmdc.toUInt32 value * 2 % 2 ^ 32 }
  else if str.take 2 = ascii "PI" then
    -- the tokens that are not empty, behind those of parameters before
    { st with partialInfo := st.partialInfo ++
        ((value.splitOn ','.toUInt8).filter (· ≠ [])).map toUInt16 }
  else st

/-- What `onPSR` makes of the parameters of a command, if it is not malformed. -/
def onPSR (params : List (List UInt8)) (skipCID : Bool) : Option PSRFields :=
  let st := (params.drop (if skipCID then 1 else 0)).foldl PSRFields.add ⟨0, 0, 0, [], [], [], []⟩
  if st.partialInfo.length ≠ st.partialCount ∨ st.partialCount = 0 then none else some st

/-- `PFS_MIN_FILE_SIZE`. -/
def pfsMinFileSize : Int := 20 * 1024 * 1024

private theorem PSRFields.ite_even {c : Prop} [Decidable c] {st st' : PSRFields}
    (h : st.partialCount % 2 = 0) (h' : st'.partialCount % 2 = 0) :
    (if c then st else st').partialCount % 2 = 0 := by
  split
  · exact h
  · exact h'

/-- The number of parameters that `PC` counts is even. -/
theorem PSRFields.add_even {st : PSRFields} (h : st.partialCount % 2 = 0) (str : List UInt8) :
    (st.add str).partialCount % 2 = 0 := by
  have hcount : Nmdc.toUInt32 (str.drop 2) * 2 % 2 ^ 32 % 2 = 0 := by omega
  exact ite_even h (ite_even h (ite_even h (ite_even h (ite_even h (ite_even h
    (ite_even hcount (ite_even h h)))))))

/-- An accepted list is made of pairs. -/
theorem onPSR_even {params : List (List UInt8)} {skipCID : Bool} {st : PSRFields}
    (h : onPSR params skipCID = some st) : st.partialInfo.length % 2 = 0 := by
  have heven : ∀ (l : List (List UInt8)) (st : PSRFields), st.partialCount % 2 = 0 →
      (l.foldl PSRFields.add st).partialCount % 2 = 0 := by
    intro l
    induction l with
    | nil => exact fun st h => h
    | cons str l ih => exact fun st h => ih _ (PSRFields.add_even h str)
  unfold onPSR at h
  dsimp only at h
  generalize params.drop (if skipCID then 1 else 0) = l at h
  split at h
  · exact absurd h (Option.some_ne_none _).symm
  · next hok =>
    rw [not_or, not_not] at hok
    rw [← Option.some.inj h, hok.1]
    exact heven _ _ rfl

theorem nonneg_of_mem_partRanges {parts : PartsInfo} {i : Int × Int} (hi : i ∈ partRanges parts) :
    0 ≤ i.1 := by
  fun_induction partRanges parts with
  | case1 s e rest ih =>
    rcases List.mem_cons.mp hi with rfl | hi
    · exact Int.natCast_nonneg _
    · exact ih hi
  | case2 parts hnone => exact absurd hi List.not_mem_nil

/-- For an accepted list the result is nothing or may be requested from the source, for every item
of a size and block size. -/
def OffersParts (υ : Type) (size : Int) (blockSize : Nat) (psBlockSize : Int) (parts : PartsInfo)
    (enableMultiChunk : Bool) : Prop :=
  ∀ (q : QueueItem υ) (gsp : GetSegmentParams) (rand : Nat), q.size = size →
    q.blockSize = blockSize → (∀ t ∈ q.doneSegments, t.Inside q.size) →
    QueueItem.Consolidated q.doneSegments → gsp.enableMultiChunk = enableMultiChunk →
    (q.getNextSegmentL gsp (some ⟨psBlockSize, parts.map UInt16.toNat⟩) rand).1 = ⟨-1, 0⟩ ∨
      q.PartSegment parts
        (q.getNextSegmentL gsp (some ⟨psBlockSize, parts.map UInt16.toNat⟩) rand).1

/-- No position is read outside the array, and what the source is asked for is right exactly when
segments are enabled and the ranges are in order. -/
theorem onPSR_offersParts_iff {υ : Type} {params : List (List UInt8)} {skipCID : Bool}
    {st : PSRFields} (h : onPSR params skipCID = some st) {size : Int} {blockSize : Nat}
    {psBlockSize : Int} {enableMultiChunk : Bool} (hb : 0 < blockSize)
    (hsize : pfsMinFileSize ≤ size)
    (hsingle : enableMultiChunk = true ∨ 2 ≤ blockSize ∧ blockSize < size) :
    (∀ j, j % 2 = 0 → j < st.partialInfo.length → j + 1 < st.partialInfo.length) ∧
      (OffersParts υ size blockSize psBlockSize st.partialInfo enableMultiChunk ↔
        enableMultiChunk = true ∧ (psBlockSize = blockSize →
          ∀ i ∈ partRanges st.partialInfo, PartOk size blockSize i)) := by
  have hlarge : 1024 * 1204 < size := lt_of_lt_of_le (by decide) hsize
  refine ⟨fun j hj hlt => ?_, fun hall => ?_, ?_⟩
  · have := onPSR_even h
    omega
  · cases enableMultiChunk with
    | false =>
      obtain ⟨hb', hlt⟩ := hsingle.resolve_left Bool.false_ne_true
      obtain ⟨q, hqs, hqb, hin, hcons, hne, hnot⟩ := QueueItem.exists_single_not_partSegment
        (υ := υ) hb' hlt st.partialInfo (some ⟨psBlockSize, st.partialInfo.map UInt16.toNat⟩)
      rcases hall q ⟨false, false, 0, 0⟩ 0 hqs hqb hin hcons rfl with hres | hres
      · exact absurd hres hne
      · exact absurd hres hnot
    | true =>
      refine ⟨rfl, ?_⟩
      rintro rfl i hi
      by_contra hbad
      obtain ⟨q, hqs, hqb, hin, hcons, rand, hne, hnot⟩ := QueueItem.exists_not_partSegment
        (υ := υ) hb hlarge hi (nonneg_of_mem_partRanges hi) hbad
      rcases hall q ⟨true, false, 0, 0⟩ rand hqs hqb hin hcons rfl with hres | hres
      · exact absurd hres hne
      · exact absurd hres hnot
  · rintro ⟨rfl, hok⟩ q gsp rand rfl rfl hin - hmulti
    exact QueueItem.getNextSegmentL_partSegment hmulti (lt_trans (by decide) hlarge) hb hin hok

theorem onPSR_offersParts_iff_pair :
    ∃ st, onPSR [ascii "PC1", ascii "PI2,5"] false = some st ∧
      (OffersParts Unit 20971520 65536 65536 st.partialInfo true ↔
        true = true ∧ ((65536 : Int) = (65536 : Nat) →
          ∀ i ∈ partRanges st.partialInfo, PartOk 20971520 (65536 : Nat) i)) := by
  have h : onPSR [ascii "PC1", ascii "PI2,5"] false = some ⟨0, 0, 2, [], [], [], [2, 5]⟩ := by
    decide
  exact ⟨_, h, (onPSR_offersParts_iff h (by decide) (by decide) (.inl rfl)).2⟩

/-- A range that ends before it begins is accepted. -/
theorem onPSR_not_offersParts : ∃ st, onPSR [ascii "PC1", ascii "PI5,2"] false = some st ∧
    ¬ OffersParts Unit 20971520 65536 65536 st.partialInfo true := by
  refine ⟨⟨0, 0, 2, [], [], [], [5, 2]⟩, by decide, fun hall => ?_⟩
  have hmem : ((5, 2) : Int × Int) ∈ partRanges [5, 2] := by decide
  have hbad : ¬ PartOk 20971520 (65536 : Nat) (5, 2) := by simp [PartOk]
  obtain ⟨q, hqs, hqb, hin, hcons, rand, hne, hnot⟩ := QueueItem.exists_not_partSegment
    (υ := Unit) (by decide) (by decide) hmem (by decide) hbad
  rcases hall q ⟨true, false, 0, 0⟩ rand hqs hqb hin hcons rfl with hres | hres
  · exact absurd hres hne
  · exact absurd hres hnot

end Blacklink.Searches
