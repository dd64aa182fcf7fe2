import Mathlib.Algebra.Order.BigOperators.Group.Finset
import Blacklink.Base.Run
import Blacklink.Base.SlidingWindow
import Blacklink.Http.Date

/-!
# Limiting a socket

Model of `ThrottleState` (`client/ThrottleState.h:6-26`, `client/ThrottleState.cpp:5-62`): the sizes
of the last `N` slots of ten milliseconds in a ring of samples, and their sum beside it. There is no
outcome where an `int` overflows. The callers, `BufferedSocket::writeThrottled` and `readThrottled`
(`client/BufferedSocket.cpp:1123-1164`), set the time, and then add no more than what they were told
is available.
-/

namespace Blacklink.Net

open Blacklink.Base
open Blacklink.Http (IsInt ints)

/-- `ThrottleState`. -/
structure ThrottleState where
  samples : List Int
  sum : Int
  startIndex : Nat
  endIndex : Nat
  startTime : Int
  deriving DecidableEq

namespace ThrottleState

/-- `ThrottleState::N`. -/
def N : Nat := 100

/-- `ThrottleState::clearSum`. -/
def clearSum (s : ThrottleState) : ThrottleState :=
  { s with samples := List.replicate N 0, sum := 0 }

/-- The constructor. -/
def new : ThrottleState := ⟨List.replicate N 0, 0, 0, 0, 0⟩

/-- One pass of `while (diff >= N)`, without the two counts. -/
def dropSample (s : ThrottleState) : Option ThrottleState :=
  let sum := s.sum - s.samples.getD s.startIndex 0
  ints [sum]
    { s with
      sum := sum
      samples := s.samples.set s.startIndex 0
      startIndex := (s.startIndex + 1) % N }

/-- The loop `while (diff >= N)`: what `diff` and `offset` come to. -/
def dropSamples : Nat → Nat → ThrottleState → Option (Nat × Nat × ThrottleState)
  | 0, offset, s => some (0, offset, s)
  | diff + 1, offset, s =>
    if N ≤ diff + 1 then do
      let s ← s.dropSample
      dropSamples diff (offset + 1) s
    else some (diff + 1, offset, s)

/-- `ThrottleState::setCurrentTick`. -/
def setCurrentTick (s : ThrottleState) (tick : Int) : Option ThrottleState :=
  let tick := tick.tdiv 10
  if tick < s.startTime then
    some { s.clearSum with startIndex := 0, endIndex := 0, startTime := tick }
  else if s.startTime + 2 * N - 1 ≤ tick then
    some { s.clearSum with startIndex := 0, endIndex := N - 1, startTime := tick - (N - 1) }
  else do
    let (diff, offset, s) ← dropSamples (tick - s.startTime).toNat 0 s
    some { s with startTime := s.startTime + offset, endIndex := (s.startIndex + diff) % N }

/-- `ThrottleState::addSize`. -/
def addSize (s : ThrottleState) (size : Int) : Option ThrottleState :=
  let sample := s.samples.getD s.endIndex 0 + size
  let sum := s.sum + size
  ints [sample, sum] { s with samples := s.samples.set s.endIndex sample, sum := sum }

/-- `ThrottleState::getAvailSize`. -/
def getAvailSize (s : ThrottleState) (maxSize : Int) : Option Int :=
  if maxSize ≤ 0 then some (2 ^ 31 - 1)
  else if maxSize ≤ s.sum then some 0
  else ints [maxSize - s.sum] (maxSize - s.sum)

/-! ### What has been added -/

/-- A call that changes the state. -/
inductive Call where
  | setCurrentTick (tick : Int)
  | addSize (size : Int)
  deriving DecidableEq

/-- The current slot of ten milliseconds, and the sizes added until now with their slots. A size
that is added before there is a time is in slot `0`. -/
structure History where
  now : Int
  sizes : List (Int × Int)
  deriving DecidableEq

namespace History

/-- No call until now. -/
def empty : History := ⟨0, []⟩

/-- What a call adds to the history. -/
def step (h : History) : Call → History
  | .setCurrentTick tick => { h with now := tick.tdiv 10 }
  | .addSize size => { h with sizes := h.sizes ++ [(h.now, size)] }

/-- What has been added in the last `N` slots, ending with `slot`. -/
def total (h : History) (slot : Int) : Int :=
  addedAt h.sizes fun t => slot - N < t ∧ t ≤ slot

end History

/-- A call of the code, and what it adds to the history. -/
def callStep (s : Option ThrottleState × History) (call : Call) :
    Option ThrottleState × History :=
  (s.1.bind fun state =>
    match call with
    | .setCurrentTick tick => state.setCurrentTick tick
    | .addSize size => state.addSize size, s.2.step call)

/-- The state and the history after some calls. -/
def afterCalls (calls : List Call) : Option ThrottleState × History :=
  run callStep (some new, History.empty) calls

/-- The time does not go back, unless nothing has been added. -/
def InOrder (s : Option ThrottleState × History) : Call → Prop
  | .setCurrentTick tick => s.2.sizes = [] ∨ s.2.now ≤ tick.tdiv 10
  | .addSize _ => True

/-- A size is positive, and the total of the last slots with it is an `int`. -/
def Fits (s : Option ThrottleState × History) : Call → Prop
  | .setCurrentTick _ => True
  | .addSize size => 0 < size ∧ s.2.total s.2.now + size < 2 ^ 31

/-- A size is positive, and not more than what is available. -/
def AtMostAvailable (maxSize : Int) (s : Option ThrottleState × History) : Call → Prop
  | .setCurrentTick _ => True
  | .addSize size => 0 < size ∧ ∃ state ∈ s.1, ∃ avail ∈ state.getAvailSize maxSize, size ≤ avail

/-- A call keeps the time in order and has a size that fits. -/
def Regular (s : Option ThrottleState × History) (call : Call) : Prop :=
  InOrder s call ∧ Fits s call

/-- A call keeps the time in order and adds no more than what is available. -/
def Granted (maxSize : Int) (s : Option ThrottleState × History) (call : Call) : Prop :=
  InOrder s call ∧ AtMostAvailable maxSize s call

section Decidable

variable (maxSize : Int) (s : Option ThrottleState × History)

instance : ∀ call, Decidable (InOrder s call)
  | .setCurrentTick _ => inferInstanceAs (Decidable (_ ∨ _))
  | .addSize _ => isTrue True.intro

instance : ∀ call, Decidable (Fits s call)
  | .setCurrentTick _ => isTrue True.intro
  | .addSize _ => inferInstanceAs (Decidable (_ ∧ _))

instance : ∀ call, Decidable (AtMostAvailable maxSize s call)
  | .setCurrentTick _ => isTrue True.intro
  | .addSize size =>
    inferInstanceAs (Decidable (0 < size ∧
      ∃ state ∈ s.1, ∃ avail ∈ state.getAvailSize maxSize, size ≤ avail))

instance (call : Call) : Decidable (Regular s call) := inferInstanceAs (Decidable (_ ∧ _))

instance (call : Call) : Decidable (Granted maxSize s call) := inferInstanceAs (Decidable (_ ∧ _))

end Decidable

/-! ### The ring of samples -/

/-- What has been added in a slot. -/
def History.inSlot (h : History) (slot : Int) : Int := addedAt h.sizes (· = slot)

/-- The samples are the values of the slots from `start` on, and the sum is theirs. -/
structure Sums (s : ThrottleState) (start : Int) (value : Int → Int) : Prop where
  ring : InRing N s.samples s.startIndex start value
  sum : s.sum = s.samples.sum
  sum_lt : s.sum < 2 ^ 31

section Sums

variable {s : ThrottleState} {start : Int} {value : Int → Int}

/-- The oldest sample is left out. The sum stays an `int` as long as no sample is negative. -/
theorem Sums.dropSample (h : Sums s start value) (hnonneg : ∀ t, 0 ≤ value t)
    (hvalue : value (start + N) = 0) :
    ∃ s', s.dropSample = some s' ∧ Sums s' (start + 1) value ∧ s'.startTime = s.startTime := by
  have hring := h.ring.dropFirst hvalue
  have hlt : s.startIndex < s.samples.length := by
    rw [h.ring.length]
    exact h.ring.first_lt
  have hsample : s.samples.getD s.startIndex 0 = value start := by
    have hget := h.ring.getD 0 (by decide)
    rwa [Nat.add_zero, Nat.mod_eq_of_lt h.ring.first_lt, Nat.cast_zero, Int.add_zero] at hget
  have hsum : s.sum - s.samples.getD s.startIndex 0 = (s.samples.set s.startIndex 0).sum := by
    rw [List.sum_set', dif_pos hlt, h.sum, List.getD_eq_getElem _ _ hlt]
    omega
  have hpos : 0 ≤ (s.samples.set s.startIndex 0).sum := by
    rw [hring.sum_slots]
    exact Finset.sum_nonneg fun t _ => hnonneg t
  have hstart := hnonneg start
  have hsum_lt := h.sum_lt
  have hint : ∀ n ∈ [s.sum - s.samples.getD s.startIndex 0], IsInt n := by
    intro n hn
    rw [List.mem_singleton] at hn
    constructor
    · omega
    · omega
  refine ⟨_, if_pos hint, ⟨hring, hsum, ?_⟩, rfl⟩
  show s.sum - s.samples.getD s.startIndex 0 < 2 ^ 31
  omega

/-- The loop leaves out the samples of as many slots as the time is behind the ring. -/
theorem Sums.dropSamples (h : Sums s start value) (hnonneg : ∀ t, 0 ≤ value t)
    (hvalue : ∀ t, start + N ≤ t → value t = 0) (diff offset : Nat) :
    ∃ s', ThrottleState.dropSamples diff offset s =
        some (min diff (N - 1), offset + (diff - (N - 1)), s') ∧
      Sums s' (start + (diff - (N - 1) : Nat)) value ∧ s'.startTime = s.startTime := by
  induction diff generalizing s start offset with
  | zero =>
    refine ⟨s, rfl, ?_, rfl⟩
    rwa [Nat.zero_sub, Nat.cast_zero, Int.add_zero]
  | succ diff ih =>
    rw [ThrottleState.dropSamples]
    by_cases hfar : N ≤ diff + 1
    · obtain ⟨s₁, hdrop, hsums₁, htime₁⟩ := h.dropSample hnonneg (hvalue _ (Int.le_refl _))
      obtain ⟨s', hrest, hsums, htime⟩ :=
        ih hsums₁ (fun t ht => hvalue t (by omega)) (offset + 1)
      refine ⟨s', ?_, ?_, htime.trans htime₁⟩
      · rw [if_pos hfar, hdrop]
        refine hrest.trans ?_
        congr 2
        · omega
        · congr 1
          omega
      · have hslot : start + 1 + ((diff - (N - 1) : Nat) : Int) =
            start + ((diff + 1 - (N - 1) : Nat) : Int) := by omega
        rwa [hslot] at hsums
    · refine ⟨s, ?_, ?_, rfl⟩
      · rw [if_neg hfar]
        congr 2
        · omega
        · congr 1
          omega
      · rwa [show diff + 1 - (N - 1) = 0 by omega, Nat.cast_zero, Int.add_zero]

/-- Without samples there is nothing in the slots. -/
theorem Sums.clear (hvalue : ∀ t, start ≤ t → value t = 0) (endIndex : Nat) (startTime : Int) :
    Sums ⟨List.replicate N 0, 0, 0, endIndex, startTime⟩ start value where
  ring := InRing.replicate (by decide) hvalue
  sum := by rw [List.sum_replicate, nsmul_zero]
  sum_lt := (by decide : (0 : Int) < 2 ^ 31)

end Sums

/-! ### The sum -/

/-- The state has the sizes of the slots up to the current one. -/
structure Holds (h : History) (s : ThrottleState) : Prop where
  nonneg : ∀ a ∈ h.sizes, 0 ≤ a.2
  sums : Sums s s.startTime h.inSlot
  spans : Spans N s.startTime h.now h.inSlot
  endIndex : s.endIndex = (s.startIndex + (h.now - s.startTime).toNat) % N

section Holds

variable {h : History} {s : ThrottleState}

theorem holds_new : Holds History.empty new where
  nonneg := List.forall_mem_nil _
  sums := Sums.clear (fun _ _ => addedAt_nil _) 0 0
  spans := Spans.zero (by decide) (fun _ => addedAt_nil _) 0
  endIndex := rfl

/-- The sum is the total of the last slots, ending with the current one. -/
theorem Holds.sum_eq (hs : Holds h s) : s.sum = h.total h.now := by
  rw [hs.sums.sum, hs.sums.ring.sum_eq hs.spans]
  exact sum_addedAt h.sizes (h.now - N) h.now

theorem Holds.inSlot_nonneg (hs : Holds h s) (slot : Int) : 0 ≤ h.inSlot slot :=
  addedAt_nonneg _ hs.nonneg

theorem Holds.total_nonneg (hs : Holds h s) (slot : Int) : 0 ≤ h.total slot :=
  addedAt_nonneg _ hs.nonneg

/-- The time goes on: within the ring, by slots that are left out, or behind all of them. -/
theorem Holds.setCurrentTick (hs : Holds h s) {tick : Int}
    (horder : h.sizes = [] ∨ h.now ≤ tick.tdiv 10) :
    ∃ s', s.setCurrentTick tick = some s' ∧ Holds (h.step (.setCurrentTick tick)) s' := by
  unfold ThrottleState.setCurrentTick
  dsimp only
  generalize hslot : tick.tdiv 10 = slot at horder ⊢
  have hstep : h.step (.setCurrentTick tick) = { h with now := slot } := by
    rw [← hslot]
    rfl
  rw [hstep]
  have hbefore : (slot < s.startTime ∧ ∀ t, h.inSlot t = 0) ∨
      ∃ now ≤ slot, Spans N s.startTime now h.inSlot := by
    rcases horder with hnil | hle
    · have hzero : ∀ t, h.inSlot t = 0 := by
        intro t
        rw [History.inSlot, hnil]
        exact addedAt_nil _
      by_cases hlt : slot < s.startTime
      · exact Or.inl ⟨hlt, hzero⟩
      · exact Or.inr ⟨s.startTime, Int.le_of_not_gt hlt, Spans.zero (by decide) hzero _⟩
    · exact Or.inr ⟨h.now, hle, hs.spans⟩
  rcases hbefore with ⟨hlt, hzero⟩ | ⟨now, hle, hspans⟩
  · rw [if_pos hlt]
    refine ⟨_, rfl, hs.nonneg, ?_, ?_, ?_⟩
    · exact Sums.clear (fun t _ => hzero t) 0 slot
    · exact Spans.zero (by decide) hzero slot
    · show 0 = (0 + (slot - slot).toNat) % N
      rw [Int.sub_self]
      rfl
  · have hstart := hspans.start_le
    have hnow := hspans.now_lt
    rw [if_neg (by omega)]
    by_cases hjump : s.startTime + 2 * N - 1 ≤ slot
    · rw [if_pos hjump]
      refine ⟨_, rfl, hs.nonneg, ?_, ?_, ?_⟩
      · exact Sums.clear (fun t ht => hspans.later t (by dsimp only at ht; omega)) _ _
      · exact hspans.last (by omega)
      · show N - 1 = (0 + (slot - (slot - (N - 1))).toNat) % N
        rw [show (slot - (slot - ((N : Int) - 1))).toNat = N - 1 by omega]
        rfl
    · rw [if_neg hjump]
      obtain ⟨s', hdrop, hsums, htime⟩ := hs.sums.dropSamples hs.inSlot_nonneg
        (fun t ht => hspans.later t (by omega)) (slot - s.startTime).toNat 0
      rw [hdrop]
      generalize hoffset : (slot - s.startTime).toNat - (N - 1) = offset at hsums
      have hstartTime :
          s'.startTime + ((0 + offset : Nat) : Int) = s.startTime + (offset : Int) := by
        rw [htime, Nat.zero_add]
      refine ⟨_, rfl, hs.nonneg, ⟨?_, hsums.sum, hsums.sum_lt⟩, ?_, ?_⟩
      · dsimp only
        rw [hstartTime]
        exact hsums.ring
      · dsimp only
        rw [hstartTime]
        by_cases hzero : offset = 0
        · rw [hzero, Nat.cast_zero, Int.add_zero]
          exact hspans.within hle (by omega)
        · have hlast : s.startTime + (offset : Int) = slot - (N - 1) := by omega
          rw [hlast]
          exact hspans.last (by omega)
      · dsimp only
        rw [hstartTime]
        congr 2
        omega

/-- A size is added to the sample of the current slot. -/
theorem Holds.addSize (hs : Holds h s) {size : Int} (hpos : 0 < size)
    (hlt : h.total h.now + size < 2 ^ 31) :
    ∃ s', s.addSize size = some s' ∧ Holds (h.step (.addSize size)) s' := by
  have hsample : s.samples.getD s.endIndex 0 = h.inSlot h.now := by
    rw [hs.endIndex]
    exact hs.sums.ring.getD_time hs.spans.start_le hs.spans.now_lt
  have hle : h.inSlot h.now ≤ h.total h.now := by
    apply addedAt_mono hs.nonneg
    intro a _ ha
    have hN : 0 < N := by decide
    omega
  have hnonneg := hs.inSlot_nonneg h.now
  have hsum := hs.sum_eq
  have hinSlot : ∀ t, (h.step (.addSize size)).inSlot t =
      h.inSlot t + if h.now = t then size else 0 := fun t => addedAt_append _ h.sizes h.now size
  have hvalue : ∀ t, t ≠ h.now → (h.step (.addSize size)).inSlot t = h.inSlot t := by
    intro t ht
    rw [hinSlot, if_neg (Ne.symm ht), Int.add_zero]
  have hvalueNow : (h.step (.addSize size)).inSlot h.now = s.samples.getD s.endIndex 0 + size := by
    rw [hinSlot, if_pos rfl, hsample]
  have hring := hs.sums.ring.set hs.spans.start_le hs.spans.now_lt hvalueNow hvalue
  rw [← hs.endIndex] at hring
  have hindex : s.endIndex < s.samples.length := by
    rw [hs.endIndex]
    exact hs.sums.ring.slot_lt _
  have hint : ∀ n ∈ [s.samples.getD s.endIndex 0 + size, s.sum + size], IsInt n := by
    intro n hn
    rw [List.mem_cons, List.mem_singleton] at hn
    constructor
    · omega
    · omega
  refine ⟨_, if_pos hint, ?_, ⟨hring, ?_, ?_⟩, hs.spans.congr hvalue, hs.endIndex⟩
  · intro a ha
    rcases List.mem_append.mp ha with hold | hnew
    · exact hs.nonneg a hold
    · rw [List.mem_singleton.mp hnew]
      exact Int.le_of_lt hpos
  · show s.sum + size = (s.samples.set s.endIndex (s.samples.getD s.endIndex 0 + size)).sum
    rw [List.sum_set', dif_pos hindex, hs.sums.sum, List.getD_eq_getElem _ _ hindex]
    omega
  · show s.sum + size < 2 ^ 31
    omega

/-- What is available is what the total of the last slots leaves of the maximum. -/
theorem Holds.getAvailSize_eq (hs : Holds h s) {maxSize : Int} (hpos : 0 < maxSize)
    (hlt : maxSize < 2 ^ 31) :
    s.getAvailSize maxSize = some (max 0 (maxSize - h.total h.now)) := by
  have hsum := hs.sum_eq
  have hnonneg := hs.total_nonneg h.now
  rw [getAvailSize, if_neg (Int.not_le.mpr hpos)]
  by_cases hfull : maxSize ≤ s.sum
  · rw [if_pos hfull, max_eq_left (by omega)]
  · have hint : ∀ n ∈ [maxSize - s.sum], IsInt n := by
      intro n hn
      rw [List.mem_singleton] at hn
      constructor
      · omega
      · omega
    rw [if_neg hfull, max_eq_right (by omega), ← hsum]
    exact if_pos hint

end Holds

/-! ### Histories of calls -/

/-- A call that keeps the time in order and has a size that fits has an outcome. -/
theorem holds_callStep {s : Option ThrottleState × History} {call : Call}
    (hs : ∃ state, s.1 = some state ∧ Holds s.2 state) (hcall : Regular s call) :
    ∃ state, (callStep s call).1 = some state ∧ Holds (callStep s call).2 state := by
  obtain ⟨state, hstate, hholds⟩ := hs
  rw [callStep, hstate]
  cases call with
  | setCurrentTick tick => exact hholds.setCurrentTick hcall.1
  | addSize size => exact hholds.addSize hcall.2.1 hcall.2.2

theorem holds_afterCalls {calls : List Call}
    (h : Within Regular callStep (some new, History.empty) calls) :
    ∃ state, (afterCalls calls).1 = some state ∧ Holds (afterCalls calls).2 state :=
  h.invariant (fun s => ∃ state, s.1 = some state ∧ Holds s.2 state)
    (fun _ _ => holds_callStep) ⟨new, rfl, holds_new⟩

/-- No window has more than a maximum, and nothing is in a slot to come. -/
structure Limited (maxSize : Int) (h : History) : Prop where
  le_now : ∀ a ∈ h.sizes, a.1 ≤ h.now
  total_le : ∀ slot, h.total slot ≤ maxSize

theorem limited_empty {maxSize : Int} (hmax : 0 ≤ maxSize) : Limited maxSize History.empty where
  le_now := List.forall_mem_nil _
  total_le _ := hmax

theorem Limited.setCurrentTick {maxSize : Int} {h : History} (hl : Limited maxSize h) {tick : Int}
    (horder : h.sizes = [] ∨ h.now ≤ tick.tdiv 10) :
    Limited maxSize (h.step (.setCurrentTick tick)) where
  le_now a ha := by
    rcases horder with hnil | hle
    · exact absurd (hnil ▸ ha : a ∈ []) List.not_mem_nil
    · exact (hl.le_now a ha).trans hle
  total_le := hl.total_le

/-- A size that leaves the current window under the maximum leaves every window under it: what a
later window has of the sizes until now is in the current window. -/
theorem Limited.addSize {maxSize : Int} {h : History} (hl : Limited maxSize h)
    (hnonneg : ∀ a ∈ h.sizes, 0 ≤ a.2) {size : Int} (hle : h.total h.now + size ≤ maxSize) :
    Limited maxSize (h.step (.addSize size)) where
  le_now a ha := by
    rcases List.mem_append.mp ha with hold | hnew
    · exact hl.le_now a hold
    · rw [List.mem_singleton.mp hnew]
      exact Int.le_refl _
  total_le slot := by
    have htotal : (h.step (.addSize size)).total slot =
        h.total slot + if slot - N < h.now ∧ h.now ≤ slot then size else 0 :=
      addedAt_append _ h.sizes h.now size
    rw [htotal]
    split
    · next hin =>
      have hwindow : h.total slot ≤ h.total h.now := by
        apply addedAt_mono hnonneg
        intro a ha hslot
        have hnow := hl.le_now a ha
        omega
      omega
    · have hslot := hl.total_le slot
      omega

/-- A size that is available fits, and leaves every window under the maximum. -/
theorem regular_of_available {maxSize : Int} (hpos : 0 < maxSize) (hlt : maxSize < 2 ^ 31)
    {s : Option ThrottleState × History} {state : ThrottleState} (hstate : s.1 = some state)
    (hholds : Holds s.2 state) (hl : Limited maxSize s.2) {call : Call} (horder : InOrder s call)
    (hcall : AtMostAvailable maxSize s call) :
    Regular s call ∧ Limited maxSize (callStep s call).2 := by
  cases call with
  | setCurrentTick tick => exact ⟨⟨horder, True.intro⟩, hl.setCurrentTick horder⟩
  | addSize size =>
    obtain ⟨hsize, state', hstate', avail, havail, hle⟩ := hcall
    have heq : state' = state := Option.some.inj (hstate'.symm.trans hstate)
    rw [heq, hholds.getAvailSize_eq hpos hlt] at havail
    have havail' := Option.some.inj havail
    have htotal : s.2.total s.2.now + size ≤ maxSize := by omega
    exact ⟨⟨horder, hsize, by omega⟩, hl.addSize hholds.nonneg htotal⟩

/-- When no more is added than what is available, every size fits, and no window has more than the
maximum. -/
theorem limited_afterCalls {maxSize : Int} (hpos : 0 < maxSize) (hlt : maxSize < 2 ^ 31)
    {calls : List Call}
    (h : Within (Granted maxSize) callStep (some new, History.empty) calls) :
    Within Regular callStep (some new, History.empty) calls ∧
      Limited maxSize (afterCalls calls).2 := by
  induction calls using List.reverseRecOn with
  | nil => exact ⟨within_nil _ _ _, limited_empty (Int.le_of_lt hpos)⟩
  | append_singleton calls call ih =>
    rw [within_append] at h
    obtain ⟨hregular, hl⟩ := ih h.1
    obtain ⟨state, hstate, hholds⟩ := holds_afterCalls hregular
    obtain ⟨hcall, hl'⟩ := regular_of_available hpos hlt hstate hholds hl h.2.1.1 h.2.1.2
    refine ⟨(within_append _ _ _ _ _).mpr ⟨hregular, hcall, True.intro⟩, ?_⟩
    rw [afterCalls, run_append]
    exact hl'

/-- Two sizes in one slot whose total is no `int`. -/
theorem not_sum_eq_total_of_last_slots :
    ¬ ∀ calls, Within InOrder callStep (some new, History.empty) calls →
      ∃ state, (afterCalls calls).1 = some state ∧
        state.sum = (afterCalls calls).2.total (afterCalls calls).2.now := by
  intro h
  obtain ⟨state, hstate, -⟩ := h [.setCurrentTick 0, .addSize 2147483647, .addSize 1]
    ⟨Or.inl rfl, True.intro, True.intro, True.intro⟩
  have hnone : (afterCalls [.setCurrentTick 0, .addSize 2147483647, .addSize 1]).1 = none := rfl
  rw [hnone] at hstate
  cases hstate

/-- The sum is the total of the last slots, ending with the current one, as long as the totals are
an `int`, and what is available is what this leaves of the maximum. When no more is added than
that, the totals are, and none of any window is above the maximum. -/
theorem sum_eq_total_of_last_slots :
    (∀ calls, Within Regular callStep (some new, History.empty) calls →
      ∃ state, (afterCalls calls).1 = some state ∧
        state.sum = (afterCalls calls).2.total (afterCalls calls).2.now ∧
        ∀ maxSize, 0 < maxSize → maxSize < 2 ^ 31 →
          state.getAvailSize maxSize =
            some (max 0 (maxSize - (afterCalls calls).2.total (afterCalls calls).2.now))) ∧
      ∀ maxSize calls, 0 < maxSize → maxSize < 2 ^ 31 →
        Within (Granted maxSize) callStep (some new, History.empty) calls →
        Within Regular callStep (some new, History.empty) calls ∧
          ∀ slot, (afterCalls calls).2.total slot ≤ maxSize := by
  constructor
  · intro calls hcalls
    obtain ⟨state, hstate, hholds⟩ := holds_afterCalls hcalls
    exact ⟨state, hstate, hholds.sum_eq, fun maxSize hpos hlt => hholds.getAvailSize_eq hpos hlt⟩
  · intro maxSize calls hpos hlt hcalls
    obtain ⟨hregular, hl⟩ := limited_afterCalls hpos hlt hcalls
    exact ⟨hregular, hl.total_le⟩

theorem sum_of_four_calls :
    ∃ state,
      (afterCalls [.setCurrentTick 5, .addSize 7, .setCurrentTick 1000, .addSize 9]).1 =
          some state ∧
        state.sum = 9 ∧ ∀ slot,
          (afterCalls [.setCurrentTick 5, .addSize 7, .setCurrentTick 1000, .addSize 9]).2.total
            slot ≤ 10 := by
  obtain ⟨hregular, hlimit⟩ := sum_eq_total_of_last_slots.2 10
    [.setCurrentTick 5, .addSize 7, .setCurrentTick 1000, .addSize 9] (by decide) (by decide)
    (by decide)
  obtain ⟨state, hstate, hsum, -⟩ := sum_eq_total_of_last_slots.1 _ hregular
  exact ⟨state, hstate, hsum.trans (by decide), hlimit⟩

end ThrottleState

end Blacklink.Net
