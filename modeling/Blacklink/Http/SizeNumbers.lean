import Blacklink.Http.HttpConnection

/-!
# The numbers of body and chunk sizes

What `stringToInt` and `strtoul` make of a size that is written as it should be.
-/

namespace Blacklink.Http

open Blacklink.Text

/-! ### Body sizes -/

private theorem foldl_digits_lt (n : Nat) {s : List UInt8} (h : ∀ c ∈ s, isDigit c = true) :
    s.foldl (fun n c => n * 10 + (c.toNat - 0x30)) n < (n + 1) * 10 ^ s.length := by
  induction s generalizing n with
  | nil => simp
  | cons c s ih =>
    have hc := h c List.mem_cons_self
    simp only [isDigit, Bool.and_eq_true, decide_eq_true_eq, UInt8.le_iff_toNat_le] at hc
    have hdigit : c.toNat - 0x30 ≤ 9 := by
      have := hc.2
      change c.toNat ≤ 57 at this
      omega
    have hnext := ih (n * 10 + (c.toNat - 0x30)) fun c' hc' => h c' (List.mem_cons_of_mem c hc')
    rw [List.foldl_cons, List.length_cons, Nat.pow_succ]
    calc _ < (n * 10 + (c.toNat - 0x30) + 1) * 10 ^ s.length := hnext
      _ ≤ ((n + 1) * 10) * 10 ^ s.length := Nat.mul_le_mul_right _ (by omega)
      _ = (n + 1) * (10 ^ s.length * 10) := by rw [Nat.mul_assoc, Nat.mul_comm 10]

theorem digitsValue_lt (s : List UInt8) : digitsValue s < 10 ^ s.length := by
  have hlt := foldl_digits_lt 0 fun c (hc : c ∈ s.takeWhile isDigit) => List.mem_takeWhile_imp hc
  have hlen := (List.takeWhile_prefix isDigit (l := s)).length_le
  rw [Nat.zero_add, Nat.one_mul] at hlt
  exact hlt.trans_le (Nat.pow_le_pow_right (by decide) hlen)

/-- A number of digits only. -/
theorem readInt_digits {s : List UInt8} (hne : s ≠ []) (h : s.all isDigit = true) :
    Response.readInt s = ((digitsValue s : Int), s.length) := by
  have htake : s.takeWhile isDigit = s := by
    rw [List.takeWhile_eq_self_iff]
    exact List.all_eq_true.mp h
  cases s with
  | nil => exact absurd rfl hne
  | cons c s =>
    have hc : isDigit c = true := List.all_eq_true.mp h c List.mem_cons_self
    unfold Response.readInt
    split
    · next t heq =>
      cases heq
      exact absurd hc (by decide)
    · next t heq =>
      cases heq
      exact absurd hc (by decide)
    · rw [htake]

/-! ### Chunk sizes -/

private theorem ne_of_isHexDigit {c d : UInt8} (hc : isHexDigit c = true)
    (hd : isHexDigit d = false) : c ≠ d := by
  rintro rfl
  rw [hc] at hd
  cases hd

private theorem not_isWhiteSpace {c : UInt8} (hc : isHexDigit c = true) :
    isWhiteSpace c = false := by
  rw [← Bool.not_eq_true]
  intro h
  simp only [isWhiteSpace, Bool.or_eq_true, Bool.and_eq_true, decide_eq_true_eq,
    UInt8.le_iff_toNat_le] at h
  rcases h with rfl | ⟨hlow, hhigh⟩
  · exact absurd hc (by decide)
  · change 9 ≤ c.toNat at hlow
    change c.toNat ≤ 13 at hhigh
    simp only [isHexDigit, hexDigit, UInt8.le_iff_toNat_le] at hc
    change (if 48 ≤ c.toNat ∧ c.toNat ≤ 57 then some (c.toNat - 0x30)
      else if 65 ≤ c.toNat ∧ c.toNat ≤ 70 then some (c.toNat - 0x41 + 10)
      else if 97 ≤ c.toNat ∧ c.toNat ≤ 102 then some (c.toNat - 0x61 + 10)
      else none).isSome = true at hc
    rw [if_neg (by omega), if_neg (by omega), if_neg (by omega)] at hc
    cases hc

/-- Neither digit nor `x`. -/
def EndsNumber (c : UInt8) : Prop := isHexDigit c = false ∧ c ≠ 0x78 ∧ c ≠ 0x58

/-- `strtoul` of digits with something behind them. -/
theorem strtoul_append {digits rest : List UInt8} (hne : digits ≠ [])
    (h : ∀ c ∈ digits, isHexDigit c = true) (hrest : ∀ c ∈ rest.head?, EndsNumber c) :
    strtoul (digits ++ rest) = min (hexValue digits) (2 ^ 64 - 1) := by
  have htake : (digits ++ rest).takeWhile isHexDigit = digits := by
    rw [List.takeWhile_append_of_pos h]
    cases rest with
    | nil => exact List.append_nil digits
    | cons c rest =>
      have hc : isHexDigit c = false := (hrest c rfl).1
      rw [List.takeWhile_cons_of_neg (by rw [hc]; decide), List.append_nil]
  have hstart : numberStart (digits ++ rest) = (false, digits ++ rest) := by
    cases digits with
    | nil => exact absurd rfl hne
    | cons c digits =>
      have hc := h c List.mem_cons_self
      have hminus : c ≠ 0x2d := ne_of_isHexDigit hc (by decide)
      have hplus : c ≠ 0x2b := ne_of_isHexDigit hc (by decide)
      have hx : (digits ++ rest).getD 0 0 ≠ 0x78 ∧ (digits ++ rest).getD 0 0 ≠ 0x58 := by
        cases digits with
        | nil =>
          cases rest with
          | nil => exact ⟨by decide, by decide⟩
          | cons c' rest => exact (hrest c' rfl).2
        | cons c' digits =>
          have hc' := h c' (List.mem_cons_of_mem c List.mem_cons_self)
          exact ⟨ne_of_isHexDigit hc' (by decide), ne_of_isHexDigit hc' (by decide)⟩
      have hskip : (c :: (digits ++ rest)).dropWhile isWhiteSpace = c :: (digits ++ rest) := by
        rw [List.dropWhile_cons_of_neg (by rw [not_isWhiteSpace hc]; decide)]
      rw [List.cons_append, numberStart, hskip]
      simp only [List.head?_cons, Option.some.injEq, hminus, hplus, or_self, if_false,
        List.getD_cons_succ, hx.1, hx.2, false_and, and_false, decide_false]
  rw [strtoul, hstart, htake]
  dsimp only
  split
  · rw [Nat.min_eq_right (by omega)]
  · rw [if_neg Bool.false_ne_true, Nat.min_eq_left (by omega)]

/-- What `onDataLine` reads out of a chunk-size line that is well formed. -/
theorem strtoul_chunkSizeStr {line : List UInt8} {n : Nat} (h : chunkSizeOf line = some n) :
    1 < line.length ∧ strtoul (chunkSizeStr line) = min n (2 ^ 64 - 1) := by
  unfold chunkSizeOf at h
  dsimp only at h
  have hline := List.takeWhile_append_dropWhile (p := isHexDigit) (l := line)
  have hall : ∀ c ∈ line.takeWhile isHexDigit, isHexDigit c = true :=
    fun c hc => List.mem_takeWhile_imp hc
  generalize line.takeWhile isHexDigit = digits at h hline hall
  generalize line.dropWhile isHexDigit = rest at h hline
  subst hline
  by_cases hne : digits = []
  · rw [if_pos hne] at h
    cases h
  rw [if_neg hne] at h
  have hlen : 0 < digits.length := List.length_pos_iff.mpr hne
  have hsemi : ∀ c ∈ digits, c ≠ 0x3b := fun c hc => ne_of_isHexDigit (hall c hc) (by decide)
  split at h
  · next hrest =>
    cases h
    rcases hrest with rfl | ⟨hext, -⟩
    · -- no extension
      have hno : (0x3b : UInt8) ∉ digits ++ [0x0d] := by
        rw [List.mem_append]
        rintro (hmem | hmem)
        · exact hsemi _ hmem rfl
        · revert hmem
          decide
      rw [chunkSizeStr, if_neg hno, List.dropLast_concat, List.length_append]
      refine ⟨Nat.lt_add_of_pos_left hlen, ?_⟩
      have hvalue := strtoul_append hne hall (fun c (hc : c ∈ ([] : List UInt8).head?) ↦ nomatch hc)
      rwa [List.append_nil] at hvalue
    · have hblank : ∀ c ∈ rest.takeWhile isBlank, isBlank c = true :=
        fun c hc => List.mem_takeWhile_imp hc
      have hsplit := List.takeWhile_append_dropWhile (p := isBlank) (l := rest)
      generalize rest.takeWhile isBlank = blanks at hblank hsplit
      generalize rest.dropWhile isBlank = ext at hext hsplit
      subst hsplit
      obtain ⟨ext, rfl⟩ := List.head?_eq_some_iff.mp hext
      have hends : ∀ c : UInt8, isBlank c = true → EndsNumber c ∧ c ≠ 0x3b := by
        intro c hc
        simp only [isBlank, Bool.or_eq_true, decide_eq_true_eq] at hc
        rcases hc with rfl | rfl
        · exact ⟨⟨by decide, by decide, by decide⟩, by decide⟩
        · exact ⟨⟨by decide, by decide, by decide⟩, by decide⟩
      have hbefore : ∀ c ∈ digits ++ blanks, decide (c ≠ 0x3b) = true := by
        intro c hc
        rw [decide_eq_true_eq]
        rcases List.mem_append.mp hc with hmem | hmem
        · exact hsemi c hmem
        · exact (hends c (hblank c hmem)).2
      have hstr : chunkSizeStr (digits ++ (blanks ++ 0x3b :: ext)) = digits ++ blanks := by
        rw [chunkSizeStr, if_pos (by simp), ← List.append_assoc,
          List.takeWhile_append_of_pos hbefore, List.takeWhile_cons_of_neg (by decide),
          List.append_nil]
      rw [hstr]
      constructor
      · simp only [List.length_append, List.length_cons]
        omega
      · exact strtoul_append hne hall fun c hc => (hends c (hblank c (List.mem_of_mem_head? hc))).1
  · cases h

end Blacklink.Http
