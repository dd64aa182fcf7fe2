import Mathlib.Algebra.Order.Field.Basic
import Mathlib.Data.Rat.Cast.Order
import Mathlib.Tactic.FieldSimp
import Mathlib.Tactic.Linarith
import Blacklink.Base.Run

/-!
# The size of the next chunk

Model of `UserConnection::updateChunkSize` (`client/UserConnection.cpp:766-814`), which is called
with every finished download (`client/DownloadManager.cpp:437`). Speeds and times are rational
numbers. The chunk size is the exact one; where it does not fit into 64 bits the program overflows.
-/

namespace Blacklink.Transfer

namespace ChunkSizes

open Blacklink.Base

/-- `SEGMENT_TIME`. -/
def segmentTime : Int := 120 * 1000

/-- `MIN_CHUNK_SIZE`. -/
def minChunkSize : Int := 64 * 1024

/-- A finished download: the sizes are positive numbers of 64 bits. -/
structure Call where
  leafSize : Int
  lastChunk : Int
  ticks : UInt64
  leafSize_pos : 0 < leafSize
  leafSize_lt : leafSize < 2 ^ 63
  lastChunk_pos : 0 < lastChunk
  lastChunk_lt : lastChunk < 2 ^ 63

/-- The chunk size behind `updateChunkSize`. -/
def nextChunkSize (chunkSize leafSize lastChunk : Int) (ticks : UInt64) : Int :=
  if chunkSize = 0 then max (64 * 1024) (min lastChunk (1024 * 1024))
  else if ticks ≤ 10 then chunkSize * 2
  else
    let lastSpeed : ℚ := 1000 * lastChunk / ticks.toNat
    let msecs : ℚ := 1000 * chunkSize / lastSpeed
    if msecs < (segmentTime / 4 : Int) then chunkSize * 2
    else if msecs < segmentTime / (5 / 4) then chunkSize + leafSize
    else if msecs < segmentTime * (5 / 4) then chunkSize
    else if msecs < (segmentTime * 4 : Int) then max minChunkSize (chunkSize - chunkSize)
    else max minChunkSize (chunkSize / 2)

/-- `updateChunkSize`. -/
def updateChunkSize (chunkSize : Int) (c : Call) : Int :=
  nextChunkSize chunkSize c.leafSize c.lastChunk c.ticks

/-- The chunk size fits, and a slower chunk would not have given a larger one. -/
structure Orderly (chunkSize : Int) (c : Call) : Prop where
  minChunkSize_le : minChunkSize ≤ updateChunkSize chunkSize c
  lt : updateChunkSize chunkSize c < 2 ^ 63
  antitone : ∀ t₁ t₂ : UInt64, t₁ ≤ t₂ →
    nextChunkSize chunkSize c.leafSize c.lastChunk t₂ ≤
      nextChunkSize chunkSize c.leafSize c.lastChunk t₁

/-! ### The speeds -/

section Speeds

variable (chunkSize lastChunk : Int) (ticks : UInt64)

/-- The chunk would take less than a quarter of the time, or the last one took 10 ticks at most. -/
def IsFast : Prop := ticks ≤ 10 ∨ chunkSize * ticks.toNat < 30000 * lastChunk

/-- The chunk would take less than four fifths of the time. -/
def IsGood : Prop :=
  10 < ticks ∧ 30000 * lastChunk ≤ chunkSize * ticks.toNat ∧
    chunkSize * ticks.toNat < 96000 * lastChunk

/-- The chunk would take five quarters of the time, and less than four times of it. -/
def IsSlow : Prop :=
  10 < ticks ∧ 150000 * lastChunk ≤ chunkSize * ticks.toNat ∧
    chunkSize * ticks.toNat < 480000 * lastChunk

/-- The chunk would take four times of the time. -/
def IsVerySlow : Prop := 10 < ticks ∧ 480000 * lastChunk ≤ chunkSize * ticks.toNat

end Speeds

/-- The double and the sum fit; the leaf is not larger than the chunk, or no time is good; and the
half of the chunk is not larger than the least size, or no time is slow, or none very slow. -/
structure Condition (chunkSize : Int) (c : Call) : Prop where
  double : IsFast chunkSize c.lastChunk c.ticks → chunkSize < 2 ^ 62
  sum : IsGood chunkSize c.lastChunk c.ticks → chunkSize + c.leafSize < 2 ^ 63
  leaf : chunkSize < c.leafSize → ∀ t, ¬ IsGood chunkSize c.lastChunk t
  half : minChunkSize < chunkSize / 2 →
    (∀ t, ¬ IsSlow chunkSize c.lastChunk t) ∨ ∀ t, ¬ IsVerySlow chunkSize c.lastChunk t

private theorem msecs_lt_iff (chunkSize : Int) {lastChunk : Int} {ticks : UInt64}
    (hlast : 0 < lastChunk) (hticks : ¬ ticks ≤ 10) (bound : ℚ) (n : Int) (hn : bound = n) :
    (1000 * chunkSize / (1000 * lastChunk / ticks.toNat) : ℚ) < bound ↔
      chunkSize * ticks.toNat < n * lastChunk := by
  have hlast' : (0 : ℚ) < lastChunk := Int.cast_pos.mpr hlast
  have hpos : 0 < ticks.toNat := by
    rw [UInt64.not_le, UInt64.lt_iff_toNat_lt] at hticks
    exact Nat.lt_of_le_of_lt (Nat.zero_le _) hticks
  have hticks' : (0 : ℚ) < ticks.toNat := Nat.cast_pos.mpr hpos
  have heq : (1000 * chunkSize / (1000 * lastChunk / ticks.toNat) : ℚ) =
      chunkSize * ticks.toNat / lastChunk := by
    field_simp
  rw [heq, div_lt_iff₀ hlast', hn]
  exact_mod_cast Iff.rfl

/-- The chunk size by the speed. -/
theorem nextChunkSize_eq {chunkSize leafSize lastChunk : Int} (hchunk : chunkSize ≠ 0)
    (hlast : 0 < lastChunk) (ticks : UInt64) :
    nextChunkSize chunkSize leafSize lastChunk ticks =
      if ticks ≤ 10 then chunkSize * 2
      else if chunkSize * ticks.toNat < 30000 * lastChunk then chunkSize * 2
      else if chunkSize * ticks.toNat < 96000 * lastChunk then chunkSize + leafSize
      else if chunkSize * ticks.toNat < 150000 * lastChunk then chunkSize
      else if chunkSize * ticks.toNat < 480000 * lastChunk then minChunkSize
      else max minChunkSize (chunkSize / 2) := by
  unfold nextChunkSize
  rw [if_neg hchunk]
  by_cases hticks : ticks ≤ 10
  · rw [if_pos hticks, if_pos hticks]
  · rw [if_neg hticks, if_neg hticks]
    dsimp only
    have h1 := msecs_lt_iff chunkSize hlast hticks (segmentTime / 4 : Int) 30000 rfl
    have h2 := msecs_lt_iff chunkSize hlast hticks (segmentTime / (5 / 4)) 96000
      (by norm_num [segmentTime])
    have h3 := msecs_lt_iff chunkSize hlast hticks (segmentTime * (5 / 4)) 150000
      (by norm_num [segmentTime])
    have h4 := msecs_lt_iff chunkSize hlast hticks (segmentTime * 4 : Int) 480000 rfl
    have hmin : max minChunkSize (chunkSize - chunkSize) = minChunkSize := by
      rw [Int.sub_self]
      rfl
    simp only [h1, h2, h3, h4, hmin]

/-! ### Each call -/

/-- The chunk sizes of a run: none yet, or one that fits. -/
def Fits (chunkSize : Int) : Prop :=
  chunkSize = 0 ∨ minChunkSize ≤ chunkSize ∧ chunkSize < 2 ^ 63

section Calls

variable {chunkSize leafSize lastChunk : Int} {ticks : UInt64}

theorem nextChunkSize_fast (hchunk : chunkSize ≠ 0) (hlast : 0 < lastChunk)
    (h : IsFast chunkSize lastChunk ticks) :
    nextChunkSize chunkSize leafSize lastChunk ticks = chunkSize * 2 := by
  rw [nextChunkSize_eq hchunk hlast]
  rcases h with h | h
  · rw [if_pos h]
  · rw [if_pos h, ite_self]

theorem nextChunkSize_good (hchunk : chunkSize ≠ 0) (hlast : 0 < lastChunk)
    (h : IsGood chunkSize lastChunk ticks) :
    nextChunkSize chunkSize leafSize lastChunk ticks = chunkSize + leafSize := by
  obtain ⟨hticks, hlow, hhigh⟩ := h
  rw [nextChunkSize_eq hchunk hlast, if_neg (UInt64.not_le.mpr hticks), if_neg (by omega),
    if_pos hhigh]

theorem nextChunkSize_slow (hchunk : chunkSize ≠ 0) (hlast : 0 < lastChunk)
    (h : IsSlow chunkSize lastChunk ticks) :
    nextChunkSize chunkSize leafSize lastChunk ticks = minChunkSize := by
  obtain ⟨hticks, hlow, hhigh⟩ := h
  rw [nextChunkSize_eq hchunk hlast, if_neg (UInt64.not_le.mpr hticks), if_neg (by omega),
    if_neg (by omega), if_neg (by omega), if_pos hhigh]

theorem nextChunkSize_verySlow (hchunk : chunkSize ≠ 0) (hlast : 0 < lastChunk)
    (h : IsVerySlow chunkSize lastChunk ticks) :
    nextChunkSize chunkSize leafSize lastChunk ticks = max minChunkSize (chunkSize / 2) := by
  obtain ⟨hticks, hlow⟩ := h
  rw [nextChunkSize_eq hchunk hlast, if_neg (UInt64.not_le.mpr hticks), if_neg (by omega),
    if_neg (by omega), if_neg (by omega), if_neg (by omega)]

/-- Every time is of one of the kinds, or leaves the chunk size as it is. -/
theorem nextChunkSize_cases (hchunk : chunkSize ≠ 0) (hlast : 0 < lastChunk) (leafSize : Int)
    (ticks : UInt64) :
    IsFast chunkSize lastChunk ticks ∨ IsGood chunkSize lastChunk ticks ∨
      nextChunkSize chunkSize leafSize lastChunk ticks = chunkSize ∨
      IsSlow chunkSize lastChunk ticks ∨ IsVerySlow chunkSize lastChunk ticks := by
  rw [nextChunkSize_eq hchunk hlast]
  by_cases hticks : ticks ≤ 10
  · exact .inl (.inl hticks)
  have hticks' := UInt64.not_le.mp hticks
  by_cases h1 : chunkSize * ticks.toNat < 30000 * lastChunk
  · exact .inl (.inr h1)
  by_cases h2 : chunkSize * ticks.toNat < 96000 * lastChunk
  · exact .inr (.inl ⟨hticks', by omega, h2⟩)
  by_cases h3 : chunkSize * ticks.toNat < 150000 * lastChunk
  · rw [if_neg hticks, if_neg h1, if_neg h2, if_pos h3]
    exact .inr (.inr (.inl rfl))
  by_cases h4 : chunkSize * ticks.toNat < 480000 * lastChunk
  · exact .inr (.inr (.inr (.inl ⟨hticks', by omega, h4⟩)))
  · exact .inr (.inr (.inr (.inr ⟨hticks', by omega⟩)))

end Calls

private theorem ite_le_ite {P Q : Prop} [Decidable P] [Decidable Q] {a b b' : Int}
    (hPQ : P → Q) (ha : ¬ P → Q → b ≤ a) (hb : ¬ P → ¬ Q → b ≤ b') :
    (if P then a else b) ≤ if Q then a else b' := by
  by_cases hP : P
  · rw [if_pos hP, if_pos (hPQ hP)]
  · by_cases hQ : Q
    · rw [if_neg hP, if_pos hQ]
      exact ha hP hQ
    · rw [if_neg hP, if_neg hQ]
      exact hb hP hQ

private theorem antitone_of_condition {chunkSize : Int} {c : Call}
    (hmin : minChunkSize ≤ chunkSize) (h : Condition chunkSize c) {t₁ t₂ : UInt64} (ht : t₁ ≤ t₂) :
    nextChunkSize chunkSize c.leafSize c.lastChunk t₂ ≤
      nextChunkSize chunkSize c.leafSize c.lastChunk t₁ := by
  have hleafPos := c.leafSize_pos
  have hminPos : 0 < minChunkSize := by decide
  have hchunk : chunkSize ≠ 0 := by omega
  have hmono : chunkSize * t₁.toNat ≤ chunkSize * t₂.toNat :=
    Int.mul_le_mul_of_nonneg_left (Int.ofNat_le.mpr (UInt64.le_iff_toNat_le.mp ht)) (by omega)
  have hticks : t₁.toNat ≤ t₂.toNat := UInt64.le_iff_toNat_le.mp ht
  have hleaf : IsGood chunkSize c.lastChunk t₂ → c.leafSize ≤ chunkSize := by
    intro hgood
    by_contra hgt
    exact h.leaf (by omega) t₂ hgood
  have hhalf : IsSlow chunkSize c.lastChunk t₁ → IsVerySlow chunkSize c.lastChunk t₂ →
      chunkSize / 2 ≤ minChunkSize := by
    intro hslow hvery
    by_contra hgt
    rcases h.half (by omega) with hnone | hnone
    · exact hnone t₁ hslow
    · exact hnone t₂ hvery
  rw [nextChunkSize_eq hchunk c.lastChunk_pos, nextChunkSize_eq hchunk c.lastChunk_pos]
  simp only [IsGood, IsSlow, IsVerySlow, UInt64.lt_iff_toNat_lt, UInt64.le_iff_toNat_le,
    UInt64.reduceToNat] at hleaf hhalf ⊢
  generalize chunkSize * (t₁.toNat : Int) = x₁ at hmono hhalf ⊢
  generalize chunkSize * (t₂.toNat : Int) = x₂ at hmono hhalf hleaf ⊢
  -- the slower time is behind the same bounds, and maybe behind more of them
  refine ite_le_ite (by omega) (fun _ _ => ?_) fun _ _ => ?_
  · split_ifs <;> omega
  refine ite_le_ite (by omega) (fun _ _ => ?_) fun _ _ => ?_
  · split_ifs <;> omega
  refine ite_le_ite (by omega) (fun _ _ => ?_) fun _ _ => ?_
  · split_ifs <;> omega
  refine ite_le_ite (by omega) (fun _ _ => ?_) fun _ _ => ?_
  · split_ifs <;> omega
  exact ite_le_ite (by omega) (fun _ _ => by omega) fun _ _ => le_refl _

/-- A call meets the condition exactly when its chunk size fits and no slower one is larger. -/
theorem orderly_iff {chunkSize : Int} (hfits : Fits chunkSize) (c : Call) :
    Orderly chunkSize c ↔ Condition chunkSize c := by
  have hleaf := c.leafSize_pos
  have hleafLt := c.leafSize_lt
  have hlast := c.lastChunk_pos
  have hminPos : 0 < minChunkSize := by decide
  have hminLt : minChunkSize < 2 ^ 63 := by decide
  rcases hfits with rfl | ⟨hmin, hlt⟩
  · -- the first call
    have hnext : ∀ t, nextChunkSize 0 c.leafSize c.lastChunk t =
        max (64 * 1024) (min c.lastChunk (1024 * 1024)) := fun t => if_pos rfl
    refine iff_of_true ⟨?_, ?_, fun t₁ t₂ _ => by rw [hnext, hnext]⟩ ⟨?_, ?_, ?_, ?_⟩
    · rw [updateChunkSize, hnext, minChunkSize]
      exact le_max_left _ _
    · rw [updateChunkSize, hnext]
      omega
    · exact fun _ => by decide
    · exact fun _ => by omega
    · rintro - t ⟨-, hlow, -⟩
      rw [Int.zero_mul] at hlow
      omega
    · intro hgt
      exact absurd hgt (by decide)
  have hchunk : chunkSize ≠ 0 := by omega
  constructor
  · rintro ⟨hle, hnext, hanti⟩
    refine ⟨?_, ?_, ?_, ?_⟩
    · intro hfast
      rw [updateChunkSize, nextChunkSize_fast hchunk hlast hfast] at hnext
      omega
    · intro hgood
      rwa [updateChunkSize, nextChunkSize_good hchunk hlast hgood] at hnext
    · intro hgt t hgood
      have := hanti 0 t (UInt64.zero_le)
      rw [nextChunkSize_good hchunk hlast hgood,
        nextChunkSize_fast hchunk hlast (.inl (UInt64.zero_le))] at this
      omega
    · intro hgt
      by_contra hboth
      push Not at hboth
      obtain ⟨⟨t₁, hslow⟩, t₂, hvery⟩ := hboth
      have hord : t₁ ≤ t₂ := by
        have hx : chunkSize * (t₁.toNat : Int) < chunkSize * t₂.toNat :=
          Int.lt_of_lt_of_le hslow.2.2 hvery.2
        have := Int.lt_of_mul_lt_mul_left hx (by omega)
        exact UInt64.le_iff_toNat_le.mpr (by omega)
      have := hanti t₁ t₂ hord
      rw [nextChunkSize_slow hchunk hlast hslow, nextChunkSize_verySlow hchunk hlast hvery,
        max_eq_right (Int.le_of_lt hgt)] at this
      omega
  · intro h
    have hbounds : minChunkSize ≤ updateChunkSize chunkSize c ∧
        updateChunkSize chunkSize c < 2 ^ 63 := by
      unfold updateChunkSize
      rcases nextChunkSize_cases hchunk hlast c.leafSize c.ticks with
        hfast | hgood | hsame | hslow | hvery
      · have := h.double hfast
        rw [nextChunkSize_fast hchunk hlast hfast]
        omega
      · have := h.sum hgood
        rw [nextChunkSize_good hchunk hlast hgood]
        omega
      · rw [hsame]
        exact ⟨hmin, hlt⟩
      · rw [nextChunkSize_slow hchunk hlast hslow]
        omega
      · rw [nextChunkSize_verySlow hchunk hlast hvery]
        omega
    exact ⟨hbounds.1, hbounds.2, fun t₁ t₂ ht => antitone_of_condition hmin h ht⟩

/-- The runs in which each call leaves a chunk size that fits and none that a slower chunk would
exceed are those whose calls meet the condition. -/
theorem chunkSizes_orderly_iff (calls : List Call) :
    Within Orderly updateChunkSize 0 calls ↔ Within Condition updateChunkSize 0 calls :=
  within_congr_of_ok Fits (fun _ _ _ h => .inr ⟨h.minChunkSize_le, h.lt⟩)
    (fun _ c hfits => orderly_iff hfits c) (.inl rfl) calls

/-- A first chunk of 1 MiB, and a second one in 200 seconds: in 500 seconds the next one would have
been eight times as large. -/
theorem not_chunkSizes_orderly :
    ¬ Within Orderly updateChunkSize 0
      [⟨65536, 1048576, 1000, by decide, by decide, by decide, by decide⟩,
        ⟨65536, 1048576, 200000, by decide, by decide, by decide, by decide⟩] := by
  rintro ⟨-, ⟨-, -, hanti⟩, -⟩
  have := hanti 200000 500000 (by decide)
  have hfirst : updateChunkSize 0
      ⟨65536, 1048576, 1000, by decide, by decide, by decide, by decide⟩ = 1048576 := by
    decide
  rw [hfirst, nextChunkSize_eq (by decide) (by decide),
    nextChunkSize_eq (by decide) (by decide)] at this
  exact absurd this (by decide)

end ChunkSizes

end Blacklink.Transfer
