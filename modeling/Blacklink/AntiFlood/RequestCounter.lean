import Mathlib
import Blacklink.Base.Run
import Blacklink.Base.SlidingWindow

/-!
# Counting requests

Model of `RequestCounter<N>` (`client/RequestCounter.h:7-96`): the requests of the last `N` seconds
in a ring of `N` counters, one for each second. The number of all of them is kept beside the ring;
that it is the sum of the counters is the invariant the subtraction of `add` relies on.
-/

namespace Blacklink.AntiFlood

open Blacklink.Base

/-- `RequestCounter<N>`. -/
structure RequestCounter (N : Nat) where
  data : List UInt8
  first : Nat
  count : Int
  startTick : Int
  endTick : Int
  reqCount : Nat
  deriving DecidableEq

namespace RequestCounter

variable {N : Nat}

/-- `RequestCounter::clear`. -/
def clear (N : Nat) : RequestCounter N := ⟨List.replicate N 0, 0, 0, 0, 0, 0⟩

/-- `RequestCounter::reset`. -/
def reset (c : RequestCounter N) : RequestCounter N :=
  { c with first := 0, count := 0, data := List.replicate N 0 }

/-- One pass of `while (shift)`: the oldest second is left out. -/
def dropFirst (c : RequestCounter N) : RequestCounter N :=
  { c with
    count := c.count - (c.data.getD c.first 0).toNat
    data := c.data.set c.first 0
    first := (c.first + 1) % N }

/-- The loop `while (shift)`. -/
def dropSeconds : Nat → RequestCounter N → RequestCounter N
  | 0, c => c
  | shift + 1, c => dropSeconds shift c.dropFirst

/-- Room for the second, and where its counter is. -/
def makeRoom (c : RequestCounter N) (tick : Int) : RequestCounter N × Nat :=
  let offset := tick - c.startTick
  let pos := (offset.toNat + c.first) % N
  if N ≤ offset then
    let lshift := offset - (N - 1)
    if N ≤ lshift then ({ c.reset with startTick := tick }, 0)
    else (dropSeconds lshift.toNat { c with startTick := c.startTick + lshift }, pos)
  else (c, pos)

/-- The counter of a second is raised, up to 255. -/
def countAt (c : RequestCounter N) (pos : Nat) : RequestCounter N :=
  if c.data.getD pos 0 < 255 then
    { c with data := c.data.set pos (c.data.getD pos 0 + 1), count := c.count + 1 }
  else c

/-- `RequestCounter::add`. -/
def add (c : RequestCounter N) (tickMsec : Int) : RequestCounter N :=
  let tick := tickMsec.tdiv 1000
  let c : RequestCounter N :=
    if tick < c.startTick then { c.reset with startTick := tick, reqCount := 0 } else c
  let c : RequestCounter N := { c with reqCount := (c.reqCount + 1) % 2 ^ 64 }
  let room := c.makeRoom tick
  { room.1.countAt room.2 with endTick := tick }

/-- `RequestCounter::getReqCount`. -/
def getReqCount (c : RequestCounter N) : Int :=
  if c.reqCount < 2 ^ 63 then c.reqCount else c.reqCount - 2 ^ 64

/-- `RequestCounter::getAvgPerMinute`. -/
def getAvgPerMinute (c : RequestCounter N) : Nat :=
  if c.startTick ≥ c.endTick then 0
  else (60 * c.count % 2 ^ 32).toNat / ((c.endTick - c.startTick) % 2 ^ 32).toNat

/-! ### The number of requests -/

/-- The number is the sum of the counters. -/
structure Counted (c : RequestCounter N) : Prop where
  length : c.data.length = N
  first : c.first < N
  count : c.count = (c.data.map UInt8.toNat).sum

private theorem sum_set {l : List UInt8} {i : Nat} (h : i < l.length) (b : UInt8) :
    ((l.set i b).map UInt8.toNat).sum + (l.getD i 0).toNat = (l.map UInt8.toNat).sum + b.toNat := by
  induction l generalizing i with
  | nil => cases h
  | cons a l ih =>
    cases i with
    | zero =>
      rw [List.set_cons_zero, List.getD_cons_zero, List.map_cons, List.map_cons, List.sum_cons,
        List.sum_cons]
      omega
    | succ i =>
      have hrest := ih (Nat.lt_of_succ_lt_succ h)
      rw [List.set_cons_succ, List.getD_cons_succ, List.map_cons, List.map_cons, List.sum_cons,
        List.sum_cons]
      omega

private theorem sum_replicate_zero (n : Nat) :
    ((List.replicate n (0 : UInt8)).map UInt8.toNat).sum = 0 := by
  rw [List.map_replicate, List.sum_replicate]
  exact Nat.mul_zero n

/-- No counter is above the number of requests. -/
theorem Counted.getD_le {c : RequestCounter N} (h : c.Counted) {i : Nat} (hi : i < N) :
    ((c.data.getD i 0).toNat : Int) ≤ c.count := by
  have hlen : i < c.data.length := by
    rw [h.length]
    exact hi
  have hsum := sum_set hlen 0
  have hzero : (0 : UInt8).toNat = 0 := rfl
  rw [h.count]
  omega

theorem counted_clear (hN : 0 < N) : (clear N).Counted :=
  ⟨List.length_replicate, hN, (congrArg Nat.cast (sum_replicate_zero N)).symm⟩

theorem Counted.reset {c : RequestCounter N} (h : c.Counted) : c.reset.Counted :=
  ⟨List.length_replicate, Nat.zero_lt_of_lt h.first,
    (congrArg Nat.cast (sum_replicate_zero N)).symm⟩

/-- Leaving out the oldest second keeps the sum. -/
theorem Counted.dropFirst {c : RequestCounter N} (h : c.Counted) : c.dropFirst.Counted := by
  have hfirst : c.first < c.data.length := by
    rw [h.length]
    exact h.first
  have hsum := sum_set hfirst 0
  have hzero : (0 : UInt8).toNat = 0 := rfl
  have hcount := h.count
  constructor
  · exact List.length_set.trans h.length
  · exact Nat.mod_lt _ (Nat.zero_lt_of_lt h.first)
  · show c.count - _ = _
    change _ = (((c.data.set c.first 0).map UInt8.toNat).sum : Int)
    omega

theorem Counted.dropSeconds {c : RequestCounter N} (h : c.Counted) (shift : Nat) :
    (RequestCounter.dropSeconds shift c).Counted := by
  induction shift generalizing c with
  | zero => exact h
  | succ shift ih => exact ih h.dropFirst

private theorem Counted.makeRoom {c : RequestCounter N} (h : c.Counted) (tick : Int) :
    (c.makeRoom tick).1.Counted ∧ (c.makeRoom tick).2 < N := by
  have hpos := Nat.zero_lt_of_lt h.first
  unfold RequestCounter.makeRoom
  dsimp only
  split
  · split
    · exact ⟨⟨h.reset.length, h.reset.first, h.reset.count⟩, hpos⟩
    · have hstart : Counted { c with startTick := c.startTick + (tick - c.startTick - (N - 1)) } :=
        ⟨h.length, h.first, h.count⟩
      exact ⟨hstart.dropSeconds _, Nat.mod_lt _ hpos⟩
  · exact ⟨h, Nat.mod_lt _ hpos⟩

private theorem Counted.countAt {c : RequestCounter N} (h : c.Counted) {pos : Nat}
    (hpos : pos < N) :
    (c.countAt pos).Counted := by
  unfold RequestCounter.countAt
  split
  · next hlt =>
    have hlen : pos < c.data.length := by
      rw [h.length]
      exact hpos
    have hsum := sum_set hlen (c.data.getD pos 0 + 1)
    have hnat : (c.data.getD pos 0 + 1).toNat = (c.data.getD pos 0).toNat + 1 := by
      have hlt' : (c.data.getD pos 0).toNat < 255 := hlt
      rw [UInt8.toNat_add]
      exact Nat.mod_eq_of_lt (Nat.succ_lt_succ hlt')
    have hcount := h.count
    constructor
    · exact List.length_set.trans h.length
    · exact h.first
    · show c.count + 1 = (((c.data.set pos (c.data.getD pos 0 + 1)).map UInt8.toNat).sum : Int)
      omega
  · exact h

/-- A request keeps the sum. -/
theorem Counted.add {c : RequestCounter N} (h : c.Counted) (tickMsec : Int) :
    (c.add tickMsec).Counted := by
  unfold RequestCounter.add
  dsimp only
  generalize hc : (if tickMsec.tdiv 1000 < c.startTick then
    { c.reset with startTick := tickMsec.tdiv 1000, reqCount := 0 } else c) = c'
  have h' : c'.Counted := by
    rw [← hc]
    split
    · exact ⟨h.reset.length, h.reset.first, h.reset.count⟩
    · exact h
  have hcounted : Counted { c' with reqCount := (c'.reqCount + 1) % 2 ^ 64 } :=
    ⟨h'.length, h'.first, h'.count⟩
  obtain ⟨hroom, hlt⟩ := hcounted.makeRoom (tickMsec.tdiv 1000)
  have hadded := hroom.countAt hlt
  exact ⟨hadded.length, hadded.first, hadded.count⟩

/-- In every history the number is the sum of the counters. -/
theorem counts_run (hN : 0 < N) (ticks : List Int) : (run add (clear N) ticks).Counted :=
  run_invariant Counted (fun _ tick h => Counted.add h tick) (counted_clear hN) ticks

/-! ### The last seconds -/

/-- The requests in a second, as many as are counted. -/
def requestsIn (ticks : List Int) (second : Int) : Nat :=
  min 255 (ticks.countP fun tick => tick.tdiv 1000 = second)

theorem requestsIn_append (ticks : List Int) (tick second : Int) :
    requestsIn (ticks ++ [tick]) second =
      if tick.tdiv 1000 = second then min 255 (requestsIn ticks second + 1)
      else requestsIn ticks second := by
  rw [requestsIn, requestsIn, List.countP_append, List.countP_singleton]
  by_cases h : tick.tdiv 1000 = second
  · rw [if_pos h, if_pos (decide_eq_true h)]
    omega
  · rw [if_neg h, if_neg (by simpa using h)]
    rfl

/-- The counters are what is counted at each second of the ring, up to the current one. -/
structure Holds (c : RequestCounter N) (now : Int) (value : Int → Nat) : Prop where
  ring : InRing N (c.data.map UInt8.toNat) c.first c.startTick value
  spans : Spans N c.startTick now value

private theorem getD_toNat (data : List UInt8) (i : Nat) :
    (data.map UInt8.toNat).getD i 0 = (data.getD i 0).toNat :=
  List.getD_map data 0 UInt8.toNat

private theorem ring_zero (hN : 0 < N) {start : Int} {value : Int → Nat}
    (hvalue : ∀ t, start ≤ t → value t = 0) :
    InRing N ((List.replicate N (0 : UInt8)).map UInt8.toNat) 0 start value := by
  rw [List.map_replicate]
  exact InRing.replicate hN hvalue

/-- As many seconds as the loop has passes are left out, and nothing else changes. -/
theorem ring_dropSeconds {c : RequestCounter N} {start : Int} {value : Int → Nat}
    (h : InRing N (c.data.map UInt8.toNat) c.first start value) (shift : Nat)
    (hvalue : ∀ t, start + N ≤ t → t < start + N + shift → value t = 0) :
    InRing N ((dropSeconds shift c).data.map UInt8.toNat) ((c.first + shift) % N)
        (start + shift) value ∧
      (dropSeconds shift c).first = (c.first + shift) % N ∧
      (dropSeconds shift c).startTick = c.startTick ∧
      (dropSeconds shift c).reqCount = c.reqCount := by
  induction shift generalizing c start with
  | zero =>
    have hfirst : (c.first + 0) % N = c.first := Nat.mod_eq_of_lt h.first_lt
    rw [hfirst]
    exact ⟨by simpa [dropSeconds] using h, rfl, rfl, rfl⟩
  | succ shift ih =>
    have hdrop := h.dropFirst (hvalue _ (Int.le_refl _) (by omega))
    rw [show (0 : Nat) = UInt8.toNat 0 from rfl, ← List.map_set] at hdrop
    obtain ⟨hring, hfirst, hstart, hreq⟩ :=
      ih (c := c.dropFirst) hdrop fun t hle hlt => hvalue t (by omega) (by omega)
    have hslot : (c.dropFirst.first + shift) % N = (c.first + (shift + 1)) % N :=
      ring_slot_succ c.first shift
    have htime : start + 1 + (shift : Int) = start + ((shift + 1 : Nat) : Int) := by
      push_cast
      omega
    rw [hslot] at hring hfirst
    rw [htime] at hring
    exact ⟨hring, hfirst, hstart, hreq⟩

/-- Room is made for a second, in its slot, and nothing that is counted is lost. -/
theorem Holds.makeRoom {c : RequestCounter N} {now tick : Int} {value : Int → Nat}
    (h : c.Holds now value) (hle : now ≤ tick) :
    (c.makeRoom tick).1.Holds tick value ∧
      (c.makeRoom tick).2 =
        ((c.makeRoom tick).1.first + (tick - (c.makeRoom tick).1.startTick).toNat) % N ∧
      (c.makeRoom tick).1.reqCount = c.reqCount := by
  have hpos := Nat.zero_lt_of_lt h.ring.first_lt
  have hstart := h.spans.start_le
  have hnow := h.spans.now_lt
  unfold RequestCounter.makeRoom
  dsimp only
  split
  · next hfar =>
    split
    · next hjump =>
      have hspans : Spans N tick tick value := h.spans.only (by omega)
      have hlater : ∀ t, tick ≤ t → value t = 0 := fun t ht => h.spans.later t (by omega)
      refine ⟨⟨ring_zero hpos hlater, hspans⟩, ?_, rfl⟩
      · show 0 = (0 + (tick - tick).toNat) % N
        rw [Int.sub_self]
        exact (Nat.zero_mod N).symm
    · next hshift =>
      generalize hs : (tick - c.startTick - (N - 1)).toNat = shift
      have hshifted :
          c.startTick + (tick - c.startTick - (N - 1)) = c.startTick + (shift : Int) := by omega
      have hlast : c.startTick + (shift : Int) = tick - (N - 1) := by omega
      rw [hshifted]
      obtain ⟨hring, hfirst, htime, hreq⟩ :=
        ring_dropSeconds (c := { c with startTick := c.startTick + (shift : Int) }) h.ring shift
          fun t ht _ => h.spans.later t (by omega)
      dsimp only at hfirst htime ⊢
      refine ⟨⟨?_, ?_⟩, ?_, hreq⟩
      · rw [hfirst, htime]
        exact hring
      · rw [htime, hlast]
        exact h.spans.last (by omega)
      · rw [hfirst, htime, Nat.mod_add_mod]
        congr 1
        omega
  · refine ⟨⟨h.ring, h.spans.within hle (by omega)⟩, ?_, rfl⟩
    rw [Nat.add_comm]

/-- One request more is counted in its second. -/
theorem Holds.countAt {c : RequestCounter N} {now : Int} {value value' : Int → Nat}
    (h : c.Holds now value) (hnow : value' now = min 255 (value now + 1))
    (hvalue : ∀ t, t ≠ now → value' t = value t) :
    (c.countAt ((c.first + (now - c.startTick).toNat) % N)).Holds now value' ∧
      (c.countAt ((c.first + (now - c.startTick).toNat) % N)).reqCount = c.reqCount := by
  have hget := h.ring.getD_time h.spans.start_le h.spans.now_lt
  rw [getD_toNat] at hget
  generalize hpos : (c.first + (now - c.startTick).toNat) % N = pos at hget ⊢
  unfold RequestCounter.countAt
  split
  · next hlt =>
    have hlt' : (c.data.getD pos 0).toNat < 255 := hlt
    have hnat : (c.data.getD pos 0 + 1).toNat = (c.data.getD pos 0).toNat + 1 := by
      rw [UInt8.toNat_add]
      exact Nat.mod_eq_of_lt (Nat.succ_lt_succ hlt')
    have hvalue' : value' now = (c.data.getD pos 0 + 1).toNat := by
      rw [hnow, ← hget, hnat]
      omega
    have hring := h.ring.set h.spans.start_le h.spans.now_lt hvalue' hvalue
    rw [hpos, ← List.map_set] at hring
    exact ⟨⟨hring, h.spans.congr hvalue⟩, rfl⟩
  · next hge =>
    have hge' : ¬ (c.data.getD pos 0).toNat < 255 := hge
    have hsame : ∀ t, value' t = value t := by
      intro t
      by_cases ht : t = now
      · have hle := UInt8.toNat_lt (c.data.getD pos 0)
        rw [ht, hnow]
        omega
      · exact hvalue t ht
    exact ⟨⟨h.ring.congr fun t _ _ => hsame t, h.spans.congr fun t _ => hsame t⟩, rfl⟩

/-- What is counted after a history of requests. -/
structure Counts (ticks : List Int) (c : RequestCounter N) : Prop where
  holds : c.Holds c.endTick (requestsIn ticks)
  last : ticks = [] ∨ ∃ tick ∈ ticks, c.endTick = tick.tdiv 1000
  reqCount : c.reqCount = ticks.length % 2 ^ 64

theorem requestsIn_nil (second : Int) : requestsIn [] second = 0 := rfl

theorem counts_clear (hN : 0 < N) : Counts [] (clear N) :=
  ⟨⟨ring_zero hN fun _ _ => rfl, Spans.zero hN requestsIn_nil 0⟩, Or.inl rfl, rfl⟩

/-- A request that is not before the last one is counted at its second. -/
theorem Counts.add {ticks : List Int} {c : RequestCounter N} (h : Counts ticks c) {tick : Int}
    (hle : ∀ t ∈ ticks, t ≤ tick) : Counts (ticks ++ [tick]) (c.add tick) := by
  have hpos := Nat.zero_lt_of_lt h.holds.ring.first_lt
  unfold RequestCounter.add
  dsimp only
  generalize hc : (if tick.tdiv 1000 < c.startTick then
    { c.reset with startTick := tick.tdiv 1000, reqCount := 0 } else c) = c'
  -- only the first request can be before the seconds of the ring, which are empty then
  have hbefore : (∃ now ≤ tick.tdiv 1000, c'.Holds now (requestsIn ticks)) ∧
      c'.reqCount = ticks.length % 2 ^ 64 := by
    rw [← hc]
    rcases h.last with rfl | ⟨t, ht, hend⟩
    · split
      · exact ⟨⟨_, Int.le_refl _, ring_zero hpos fun _ _ => rfl, Spans.zero hpos requestsIn_nil _⟩,
          rfl⟩
      · next hge =>
        exact ⟨⟨c.startTick, by omega, h.holds.ring, Spans.zero hpos requestsIn_nil _⟩,
          h.reqCount⟩
    · have hsecond : c.endTick ≤ tick.tdiv 1000 := by
        rw [hend]
        exact Int.tdiv_le_tdiv (by decide) (hle t ht)
      have hstart := h.holds.spans.start_le
      rw [if_neg (by omega)]
      exact ⟨⟨c.endTick, hsecond, h.holds⟩, h.reqCount⟩
  obtain ⟨⟨now, hnow, hholds⟩, hreq⟩ := hbefore
  have hheld : Holds { c' with reqCount := (c'.reqCount + 1) % 2 ^ 64 } now (requestsIn ticks) :=
    ⟨hholds.ring, hholds.spans⟩
  obtain ⟨hroom, hslot, hroomReq⟩ := hheld.makeRoom hnow
  have hsame : requestsIn (ticks ++ [tick]) (tick.tdiv 1000) =
      min 255 (requestsIn ticks (tick.tdiv 1000) + 1) := by
    rw [requestsIn_append, if_pos rfl]
  obtain ⟨hcounted, hcountedReq⟩ := hroom.countAt hsame fun t ht => by
    rw [requestsIn_append, if_neg (Ne.symm ht)]
  rw [hslot]
  refine ⟨⟨hcounted.ring, hcounted.spans⟩, Or.inr ⟨tick, ?_, rfl⟩, ?_⟩
  · exact List.mem_append_right _ (List.mem_singleton_self _)
  · refine (hcountedReq.trans hroomReq).trans ?_
    show (c'.reqCount + 1) % 2 ^ 64 = _
    rw [hreq, Nat.mod_add_mod, List.length_append, List.length_singleton]

/-- What is counted after requests in the order of their times. -/
theorem counts_of_pairwise (hN : 0 < N) {ticks : List Int} (hticks : ticks.Pairwise (· ≤ ·)) :
    Counts ticks (run RequestCounter.add (clear N) ticks) := by
  induction ticks using List.reverseRecOn with
  | nil => exact counts_clear hN
  | append_singleton ticks tick ih =>
    obtain ⟨hbefore, -, hle⟩ := List.pairwise_append.mp hticks
    rw [run_append]
    exact (ih hbefore).add fun t ht => hle t ht tick (List.mem_singleton_self _)

/-- No second is counted more than 255 times. -/
theorem requestsIn_le (ticks : List Int) (second : Int) : requestsIn ticks second ≤ 255 :=
  Nat.min_le_left _ _

/-- The number of requests is what is counted in the last `N` seconds, up to that of the last
request. No counter is negative or wraps: a counter of the ring is what is counted in its second,
in no pass of the loop is the counter that is subtracted more than the number, and the number is at
most `255 * N`. -/
theorem count_eq_requests_of_last_seconds (hN : 0 < N) {ticks : List Int} {tick : Int}
    (hticks : (ticks ++ [tick]).Pairwise (· ≤ ·)) :
    let before := run RequestCounter.add (clear N) ticks
    let c := before.add tick
    c.count =
        (∑ second ∈ Finset.Ioc (tick.tdiv 1000 - N) (tick.tdiv 1000),
          requestsIn (ticks ++ [tick]) second : Nat) ∧
      (∀ second, c.startTick ≤ second → second < c.startTick + N →
        (c.data.getD ((c.first + (second - c.startTick).toNat) % N) 0).toNat =
          requestsIn (ticks ++ [tick]) second) ∧
      (∀ shift startTick,
        let passed : RequestCounter N := dropSeconds shift { before with startTick := startTick }
        ((passed.data.getD passed.first 0).toNat : Int) ≤ passed.count) ∧
      0 ≤ c.count ∧ c.count ≤ 255 * N ∧
      ((ticks ++ [tick]).length < 2 ^ 64 → c.reqCount = (ticks ++ [tick]).length) := by
  intro before c
  have hc : run RequestCounter.add (clear N) (ticks ++ [tick]) = c := by
    rw [run_append]
    rfl
  have hcounts : Counts (ticks ++ [tick]) c := hc ▸ counts_of_pairwise hN hticks
  have hbefore : before.Counted := counts_run hN ticks
  have hcounted : c.Counted := hbefore.add tick
  have hend : c.endTick = tick.tdiv 1000 := rfl
  have hsum := hcounts.holds.ring.sum_eq hcounts.holds.spans
  rw [hend] at hsum
  have hcount : c.count =
      (∑ second ∈ Finset.Ioc (tick.tdiv 1000 - N) (tick.tdiv 1000),
        requestsIn (ticks ++ [tick]) second : Nat) := by
    rw [hcounted.count, hsum]
  refine ⟨hcount, ?_, ?_, ?_, ?_, ?_⟩
  · intro second hle hlt
    rw [← getD_toNat]
    exact hcounts.holds.ring.getD_time hle hlt
  · intro shift startTick
    have hstart : Counted { before with startTick := startTick } :=
      ⟨hbefore.length, hbefore.first, hbefore.count⟩
    exact (hstart.dropSeconds shift).getD_le (hstart.dropSeconds shift).first
  · rw [hcount]
    exact Int.natCast_nonneg _
  · rw [hcount]
    have hle := Finset.sum_le_card_nsmul (Finset.Ioc (tick.tdiv 1000 - N) (tick.tdiv 1000)) _ 255
      fun second _ => requestsIn_le (ticks ++ [tick]) second
    rw [Int.card_Ioc, Nat.nsmul_eq_mul] at hle
    have hcard : (tick.tdiv 1000 - (tick.tdiv 1000 - N)).toNat = N := by omega
    rw [hcard, Nat.mul_comm] at hle
    exact_mod_cast hle
  · intro hlt
    rw [hcounts.reqCount, Nat.mod_eq_of_lt hlt]

theorem count_of_three_seconds :
    (run RequestCounter.add (clear 3) ([1000, 1900, 2500, 4200] ++ [4300])).count = 3 := by
  have hcount :=
    @count_eq_requests_of_last_seconds 3 (by decide) [1000, 1900, 2500, 4200] 4300 (by decide)
  exact hcount.1.trans (by decide)

end RequestCounter

end Blacklink.AntiFlood
