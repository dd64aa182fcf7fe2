import Mathlib.Data.Int.Basic
import Mathlib.Data.List.TakeWhile
import Blacklink.Text.Utf8

/-!
# Numbers in texts

Model of `Util::stringToInt` (`client/StrUtil.h:23-91`), `Util::toString` of an unsigned number and
`Util::toBase32` (`client/Base32.cpp:43-83`).
-/

namespace Blacklink.Text

/-- `isWhiteSpace`. -/
def isWhiteSpace (c : UInt8) : Bool := c = 0x20 || 0x09 ≤ c && c ≤ 0x0d

/-- The value of the digits at the beginning. -/
def digitsValue (s : List UInt8) : Nat :=
  (s.takeWhile fun c => 0x30 ≤ c && c ≤ 0x39).foldl (fun n c => n * 10 + (c.toNat - 0x30)) 0

/-- `stringToInt` of a signed type with `w` bits, where a value that is too large wraps around. -/
def stringToInt (w : Nat) (s : List UInt8) : Int :=
  match s.dropWhile isWhiteSpace with
  | 0x2d :: s => Int.bmod (-(digitsValue s : Int)) (2 ^ w)
  | 0x2b :: s => Int.bmod (digitsValue s) (2 ^ w)
  | s => Int.bmod (digitsValue s) (2 ^ w)

/-- `toInt`. -/
def toInt (s : List UInt8) : Int := stringToInt 32 s

/-- `toInt64`. -/
def toInt64 (s : List UInt8) : Int := stringToInt 64 s

/-- `toString`. -/
def natToString (n : Nat) : List UInt8 := (Nat.toDigits 10 n).map Char.toUInt8

/-- `toString` of a signed number. -/
def intToString (n : Int) : List UInt8 :=
  if n < 0 then 0x2d :: natToString n.natAbs else natToString n.natAbs

/-- `base32Alphabet`. -/
def base32Alphabet : List UInt8 := ascii "ABCDEFGHIJKLMNOPQRSTUVWXYZ234567"

/-- A digit that begins at bit `index` of a byte and, from bit 4 on, ends in the next one. -/
def base32Digit (b next : UInt8) (index : Nat) : UInt8 :=
  let word :=
    if 3 < index then
      let rest := (index + 5) % 8
      (b &&& (0xff >>> index.toUInt8)) <<< rest.toUInt8 ||| next >>> (8 - rest).toUInt8
    else (b >>> (8 - (index + 5)).toUInt8) &&& 0x1f
  base32Alphabet.getD word.toNat 0

/-- The loop of `toBase32`, from bit `index` of the first byte on: one digit begins in it or two. -/
def toBase32Loop : List UInt8 → Nat → List UInt8
  | [], _ => []
  | b :: bs, index =>
    let digit := base32Digit b (bs.headD 0)
    if 3 ≤ index then digit index :: toBase32Loop bs ((index + 5) % 8)
    else digit index :: digit (index + 5) :: toBase32Loop bs ((index + 10) % 8)

/-- `toBase32`. -/
def toBase32 (src : List UInt8) : List UInt8 := toBase32Loop src 0

example : toBase32 (ascii "foobar") = ascii "MZXW6YTBOI" := by decide

/-! ### Digits -/

/-- The text of a number is made of digits. -/
theorem digit_of_mem_natToString {n : Nat} {c : UInt8} (h : c ∈ natToString n) :
    0x30 ≤ c ∧ c ≤ 0x39 := by
  obtain ⟨ch, hch, rfl⟩ := List.mem_map.mp h
  obtain ⟨hlow, hhigh⟩ :=
    Char.isDigit_iff_toNat.mp (Nat.isDigit_of_mem_toDigits (by decide) (by decide) hch)
  have hnat : ch.toUInt8.toNat = ch.toNat % 256 := UInt32.toNat_toUInt8 ch.val
  change 48 ≤ ch.toNat at hlow
  change ch.toNat ≤ 57 at hhigh
  rw [UInt8.le_iff_toNat_le, UInt8.le_iff_toNat_le, hnat]
  change 48 ≤ ch.toNat % 256 ∧ ch.toNat % 256 ≤ 57
  omega

theorem natToString_ne_nil (n : Nat) : natToString n ≠ [] := by
  unfold natToString
  rw [Ne, List.map_eq_nil_iff]
  exact Nat.toDigits_ne_nil

private theorem isDigit_natToString (n : Nat) :
    ∀ c ∈ natToString n, (0x30 ≤ c && c ≤ 0x39 : Bool) = true := by
  intro c hc
  obtain ⟨hlow, hhigh⟩ := digit_of_mem_natToString hc
  simp [hlow, hhigh]

/-- The digits of a number, before something that is no digit, give it back. -/
theorem digitsValue_natToString_append (n : Nat) {s : List UInt8}
    (h : ∀ c ∈ s.head?, ¬ (0x30 ≤ c ∧ c ≤ 0x39)) : digitsValue (natToString n ++ s) = n := by
  have hdigits : (natToString n ++ s).takeWhile (fun c => 0x30 ≤ c && c ≤ 0x39) =
      natToString n := by
    have hs : s.takeWhile (fun c => 0x30 ≤ c && c ≤ 0x39) = [] := by
      cases s with
      | nil => rfl
      | cons c s => exact List.takeWhile_cons_of_neg (by simpa using h c rfl)
    rw [List.takeWhile_append_of_pos (isDigit_natToString n), hs, List.append_nil]
  have hfold : ∀ (l : List Char) (acc : Nat), (∀ ch ∈ l, ch.isDigit = true) →
      (l.map Char.toUInt8).foldl (fun k c => k * 10 + (c.toNat - 0x30)) acc =
        Nat.ofDigitChars 10 l acc := by
    intro l
    induction l with
    | nil => exact fun _ _ => rfl
    | cons ch l ih =>
      intro acc hdigits
      rw [List.forall_mem_cons] at hdigits
      have hnat : ch.toUInt8.toNat = ch.toNat := by
        obtain ⟨-, hhigh⟩ := Char.isDigit_iff_toNat.mp hdigits.1
        change ch.toNat ≤ 57 at hhigh
        have hmod : ch.toUInt8.toNat = ch.toNat % 256 := UInt32.toNat_toUInt8 ch.val
        omega
      rw [List.map_cons, List.foldl_cons, ih _ hdigits.2, hnat, Nat.ofDigitChars_cons, Nat.mul_comm]
      rfl
  rw [digitsValue, hdigits, natToString, hfold _ _ fun ch hch =>
    Nat.isDigit_of_mem_toDigits (by decide) (by decide) hch, Nat.ofDigitChars_ten_toDigits]

/-- A digit is neither a white space nor a sign. -/
private theorem head_natToString (n : Nat) (s : List UInt8) :
    ∃ c u, natToString n ++ s = c :: u ∧ isWhiteSpace c = false ∧ c ≠ 0x2d ∧ c ≠ 0x2b := by
  obtain ⟨c, u, hcu⟩ := List.exists_cons_of_ne_nil (natToString_ne_nil n)
  obtain ⟨hlow, -⟩ := digit_of_mem_natToString (n := n) (c := c) (by rw [hcu]; simp)
  refine ⟨c, u ++ s, by rw [hcu, List.cons_append], ?_, ?_, ?_⟩
  · have hne : c ≠ 0x20 := by
      rintro rfl
      exact absurd hlow (by decide)
    have hgt : ¬ c ≤ 0x0d := fun hle => absurd (UInt8.le_trans hlow hle) (by decide)
    simp [isWhiteSpace, hne, hgt]
  · rintro rfl
    exact absurd hlow (by decide)
  · rintro rfl
    exact absurd hlow (by decide)

/-- The text of a number, before something that is no digit, gives it back. -/
theorem stringToInt_intToString_append (w : Nat) (n : Int) {s : List UInt8}
    (h : ∀ c ∈ s.head?, ¬ (0x30 ≤ c ∧ c ≤ 0x39)) :
    stringToInt w (intToString n ++ s) = Int.bmod n (2 ^ w) := by
  have hvalue := digitsValue_natToString_append n.natAbs h
  by_cases hneg : n < 0
  · have hminus : (intToString n ++ s).dropWhile isWhiteSpace =
        0x2d :: (natToString n.natAbs ++ s) := by
      rw [intToString, if_pos hneg]
      rfl
    have hn : -(n.natAbs : Int) = n := by omega
    rw [stringToInt, hminus]
    change Int.bmod (-(digitsValue (natToString n.natAbs ++ s) : Int)) (2 ^ w) = _
    rw [hvalue, hn]
  · have hn : (n.natAbs : Int) = n := by omega
    obtain ⟨c, u, hcu, hspace, hminus, hplus⟩ := head_natToString n.natAbs s
    have hdrop : (intToString n ++ s).dropWhile isWhiteSpace = c :: u := by
      rw [intToString, if_neg hneg, hcu, List.dropWhile_cons_of_neg (by simp [hspace])]
    rw [hcu] at hvalue
    rw [stringToInt, hdrop]
    split
    · next heq =>
      cases heq
      exact absurd rfl hminus
    · next heq =>
      cases heq
      exact absurd rfl hplus
    · rw [hvalue, hn]

/-- A number with 64 bits is read back. -/
theorem toInt64_intToString_append {n : Int} (hlow : -2 ^ 63 ≤ n) (hhigh : n < 2 ^ 63)
    {s : List UInt8} (h : ∀ c ∈ s.head?, ¬ (0x30 ≤ c ∧ c ≤ 0x39)) :
    toInt64 (intToString n ++ s) = n := by
  rw [toInt64, stringToInt_intToString_append 64 n h]
  exact Int.bmod_eq_of_le (by omega) (by omega)

/-- A number with 31 bits is read back. -/
theorem toInt_natToString_append {n : Nat} (hn : n < 2 ^ 31) {s : List UInt8}
    (h : ∀ c ∈ s.head?, ¬ (0x30 ≤ c ∧ c ≤ 0x39)) : toInt (natToString n ++ s) = n := by
  have htext : intToString n = natToString n := if_neg (by omega)
  rw [toInt, ← htext, stringToInt_intToString_append 32 n h]
  exact Int.bmod_eq_of_le (by omega) (by omega)

end Blacklink.Text
