import Mathlib.Algebra.Group.Nat.Defs
import Mathlib.Data.List.Basic
import Blacklink.Text.Utf8

/-!
# Lower case

Model of `Text::utf8ToWide`, `wideToUtf8` and `toLower` (`client/Text.cpp:343-362, 404-440,
510-536, 549-592`) where a `wchar_t` has four bytes, and of `StringTokenizer`
(`client/StringTokenizer.h:31-49`) with one separator. `towlower` is the one of the C library.
-/

namespace Blacklink.Text

/-- The `wc` of `utf8ToWc` for bytes it takes. -/
def wcValue (s : List UInt8) : Nat :=
  let c := s.getD 0 0
  if c &&& 0x80 = 0 then c.toNat
  else if c &&& 0xe0 = 0xc0 then bits c 0x1f <<< 6 ||| bits (s.getD 1 0) 0x3f
  else if c &&& 0xf0 = 0xe0 then
    bits c 0xf <<< 12 ||| bits (s.getD 1 0) 0x3f <<< 6 ||| bits (s.getD 2 0) 0x3f
  else
    bits c 0x7 <<< 18 ||| bits (s.getD 1 0) 0x3f <<< 12 ||| (bits (s.getD 2 0) 0x3f <<< 6 |||
      bits (s.getD 3 0) 0x3f)

/-- `ERROR_CHAR`. -/
def errorChar : Nat := 0xfffd

/-- The loop of `utf8ToWide`, of the bytes from `i` on. -/
def utf8ToWideLoop : Nat → List UInt8 → List Nat
  | 0, _ => []
  | n + 1, s =>
    match s with
    | [] => []
    | _ :: _ =>
      match utf8ToWc s with
      | .error k => errorChar :: utf8ToWideLoop n (s.drop k)
      | .ok k => wcValue s :: utf8ToWideLoop n (s.drop k)

/-- `utf8ToWide`. Every pass takes a byte at least. -/
def utf8ToWide (s : List UInt8) : List Nat := utf8ToWideLoop s.length s

/-- `wideToUtf8`. -/
def wideToUtf8 (ws : List Nat) : List UInt8 :=
  ws.flatMap fun value => wcToUtf8 (if value < 0x110000 then value else errorChar)

/-- `toLower`. -/
def toLower (towlower : Nat → Nat) (s : List UInt8) : List UInt8 :=
  wideToUtf8 ((utf8ToWide s).map towlower)

/-- The loop of `StringTokenizer::slice`; `cur` is the token that has begun. -/
def slice (tok : UInt8) : List UInt8 → List UInt8 → List (List UInt8)
  | [], cur => if cur = [] then [] else [cur]
  | c :: cs, cur => if c = tok then cur :: slice tok cs [] else slice tok cs (cur ++ [c])

/-- `StringTokenizer(str, tok).getTokens()`. -/
def tokens (tok : UInt8) (s : List UInt8) : List (List UInt8) := slice tok s []

/-- A Unicode scalar value. -/
def IsScalar (v : Nat) : Prop := v < 0xd800 ∨ 0xdfff < v ∧ v < 0x110000

/-- What is used of `towlower`: a character has a lower case character, and that has itself. -/
structure LowersCase (towlower : Nat → Nat) : Prop where
  isScalar : ∀ c, IsScalar c → IsScalar (towlower c)
  idem : ∀ c, IsScalar c → towlower (towlower c) = towlower c

/-- Only the empty string is empty in lower case. -/
theorem toLower_eq_nil {towlower : Nat → Nat} {s : List UInt8} :
    toLower towlower s = [] ↔ s = [] := by
  have hchar : ∀ v, wcToUtf8 v ≠ [] := by
    intro v
    unfold wcToUtf8
    split
    · simp
    split
    · simp
    split <;> simp
  constructor
  · intro h
    cases s with
    | nil => rfl
    | cons c cs =>
      have hwide : ∃ v ws, utf8ToWide (c :: cs) = v :: ws := by
        rw [utf8ToWide, List.length_cons, utf8ToWideLoop]
        split
        · exact ⟨_, _, rfl⟩
        · exact ⟨_, _, rfl⟩
      obtain ⟨v, ws, hwide⟩ := hwide
      rw [toLower, hwide, List.map_cons, wideToUtf8, List.flatMap_cons,
        List.append_eq_nil_iff] at h
      exact absurd h.1 (hchar _)
  · rintro rfl
    rfl

/-! ### Characters and their bytes -/

private theorem toNat_toUInt8 {n : Nat} (h : n < 256) : n.toUInt8.toNat = n := by
  rw [Nat.toUInt8, UInt8.toNat_ofNat', Nat.mod_eq_of_lt h]

theorem or_low {b i : Nat} (hb : b < 2 ^ i) (a : Nat) :
    2 ^ i * a ||| b = 2 ^ i * a + b := (Nat.two_pow_add_eq_or_of_lt hb a).symm

private theorem and_3f (v : Nat) : v &&& 0x3f = v % 64 := Nat.and_two_pow_sub_one_eq_mod v 6

private theorem or_80 (v : Nat) : 0x80 ||| v &&& 0x3f = 0x80 + v % 64 := by
  rw [and_3f]
  exact or_low (i := 6) (by omega) 2

/-- The bytes `wcToUtf8` puts out, as numbers. -/
theorem wcToUtf8_eq {v : Nat} (h : v < 0x110000) :
    wcToUtf8 v =
      if v < 0x80 then [v.toUInt8]
      else if v < 0x800 then [(0xc0 + v / 64).toUInt8, (0x80 + v % 64).toUInt8]
      else if v < 0x10000 then
        [(0xe0 + v / 4096).toUInt8, (0x80 + v / 64 % 64).toUInt8, (0x80 + v % 64).toUInt8]
      else
        [(0xf0 + v / 262144).toUInt8, (0x80 + v / 4096 % 64).toUInt8,
          (0x80 + v / 64 % 64).toUInt8, (0x80 + v % 64).toUInt8] := by
  have h6 : v >>> 6 = v / 64 := Nat.shiftRight_eq_div_pow v 6
  have h12 : v >>> 12 = v / 4096 := Nat.shiftRight_eq_div_pow v 12
  have h18 : v >>> 18 = v / 262144 := Nat.shiftRight_eq_div_pow v 18
  unfold wcToUtf8
  split
  · rfl
  split
  · have hc : 0xc0 ||| v >>> 6 = 0xc0 + v / 64 := by
      rw [h6]
      exact or_low (i := 5) (by omega) 6
    rw [hc, or_80]
  split
  · have he : 0xe0 ||| v >>> 12 = 0xe0 + v / 4096 := by
      rw [h12]
      exact or_low (i := 4) (by omega) 14
    rw [he, or_80, or_80, h6]
  · have hf : 0xf0 ||| v >>> 18 = 0xf0 + v / 262144 := by
      rw [h18]
      exact or_low (i := 3) (by omega) 30
    rw [hf, or_80, or_80, or_80, h6, h12]

theorem isChar_wcToUtf8 {v : Nat} (h : IsScalar v) : IsChar (wcToUtf8 v) := by
  rw [wcToUtf8_eq (by unfold IsScalar at h; omega)]
  unfold IsScalar at h
  split
  · next h1 =>
    apply IsChar.one
    rw [toNat_toUInt8] <;> omega
  split
  · next h1 h2 =>
    refine IsChar.two ?_ ?_ ⟨?_, ?_⟩
    all_goals rw [toNat_toUInt8 (by omega)]; omega
  split
  · next h1 h2 h3 =>
    refine IsChar.three ?_ ?_ ⟨?_, ?_⟩ ⟨?_, ?_⟩ ?_ ?_
    all_goals simp (disch := omega) only [toNat_toUInt8]
    all_goals omega
  · next h1 h2 h3 =>
    refine IsChar.four ?_ ?_ ⟨?_, ?_⟩ ⟨?_, ?_⟩ ⟨?_, ?_⟩ ?_ ?_
    all_goals simp (disch := omega) only [toNat_toUInt8]
    all_goals omega

private theorem wcValue_one {a : UInt8} (ha : a.toNat < 0x80) (rest : List UInt8) :
    wcValue (a :: rest) = a.toNat := if_pos ((and_80 a).mpr ha)

private theorem wcValue_two {a b : UInt8} (ha : 0xc0 ≤ a.toNat) (ha' : a.toNat < 0xe0)
    (rest : List UInt8) :
    wcValue (a :: b :: rest) = a.toNat % 32 * 64 + b.toNat % 64 := by
  simp only [wcValue, List.getD_cons_zero, List.getD_cons_succ, and_80, and_e0, wc_two]
  rw [if_neg (by omega), if_pos ⟨ha, ha'⟩]

private theorem wcValue_three {a b c : UInt8} (ha : 0xe0 ≤ a.toNat) (ha' : a.toNat < 0xf0)
    (rest : List UInt8) :
    wcValue (a :: b :: c :: rest) =
      a.toNat % 16 * 4096 + b.toNat % 64 * 64 + c.toNat % 64 := by
  simp only [wcValue, List.getD_cons_zero, List.getD_cons_succ, and_80, and_e0, and_f0, wc_three]
  rw [if_neg (by omega), if_neg (by omega), if_pos ⟨ha, ha'⟩]

private theorem wcValue_four {a b c d : UInt8} (ha : 0xf0 ≤ a.toNat) (rest : List UInt8) :
    wcValue (a :: b :: c :: d :: rest) =
      a.toNat % 8 * 262144 + b.toNat % 64 * 4096 + (c.toNat % 64 * 64 + d.toNat % 64) := by
  have hlow : bits c 0x3f <<< 6 ||| bits d 0x3f = c.toNat % 64 * 64 + d.toNat % 64 := by
    rw [bits_3f, bits_3f]
    exact shift_or (i := 6) (by omega) _
  have hhigh : (a.toNat % 8 * 262144 + b.toNat % 64 * 4096 : Nat) =
      2 ^ 12 * (a.toNat % 8 * 64 + b.toNat % 64) := by omega
  simp only [wcValue, List.getD_cons_zero, List.getD_cons_succ, and_80, and_e0, and_f0]
  rw [if_neg (by omega), if_neg (by omega), if_neg (by omega), wc_four, hlow, hhigh]
  exact or_low (i := 12) (by omega) _

/-- What `utf8ToWc` puts into `wc` is a character. -/
theorem isScalar_wcValue {e : List UInt8} (h : IsChar e) (rest : List UInt8) :
    IsScalar (wcValue (e ++ rest)) := by
  unfold IsScalar
  cases h with
  | @one a ha =>
    rw [List.singleton_append, wcValue_one ha]
    omega
  | @two a b ha ha' hb =>
    rw [List.cons_append, List.singleton_append, wcValue_two (by omega) ha']
    omega
  | @three a b c ha ha' hb hc he0 hed =>
    obtain ⟨hb1, hb2⟩ := hb
    obtain ⟨hc1, hc2⟩ := hc
    rw [List.cons_append, List.cons_append, List.singleton_append, wcValue_three ha ha']
    omega
  | @four a b c d ha ha' hb hc hd hf0 hf4 =>
    obtain ⟨hb1, hb2⟩ := hb
    obtain ⟨hc1, hc2⟩ := hc
    obtain ⟨hd1, hd2⟩ := hd
    rw [List.cons_append, List.cons_append, List.cons_append, List.singleton_append,
      wcValue_four ha]
    omega

/-- A character is read back. -/
theorem wcValue_wcToUtf8 {v : Nat} (h : IsScalar v) (rest : List UInt8) :
    wcValue (wcToUtf8 v ++ rest) = v := by
  rw [wcToUtf8_eq (by unfold IsScalar at h; omega)]
  unfold IsScalar at h
  split
  · next h1 =>
    rw [List.singleton_append, wcValue_one] <;> rw [toNat_toUInt8] <;> omega
  split
  · next h1 h2 =>
    rw [List.cons_append, List.singleton_append, wcValue_two]
    all_goals simp (disch := omega) only [toNat_toUInt8]
    all_goals omega
  split
  · next h1 h2 h3 =>
    rw [List.cons_append, List.cons_append, List.singleton_append, wcValue_three]
    all_goals simp (disch := omega) only [toNat_toUInt8]
    all_goals omega
  · next h1 h2 h3 =>
    rw [List.cons_append, List.cons_append, List.cons_append, List.singleton_append, wcValue_four]
    all_goals simp (disch := omega) only [toNat_toUInt8]
    all_goals omega

/-! ### Texts and their characters -/

theorem wideToUtf8_cons {v : Nat} (h : IsScalar v) (ws : List Nat) :
    wideToUtf8 (v :: ws) = wcToUtf8 v ++ wideToUtf8 ws := by
  rw [wideToUtf8, List.flatMap_cons, if_pos (by unfold IsScalar at h; omega)]
  rfl

private theorem utf8ToWideLoop_char {e : List UInt8} (h : IsChar e) (rest : List UInt8) (n : Nat) :
    utf8ToWideLoop (n + 1) (e ++ rest) = wcValue (e ++ rest) :: utf8ToWideLoop n rest := by
  have hok := utf8ToWc_of_isChar h rest
  have hdrop : (e ++ rest).drop e.length = rest := List.drop_left
  have hne : e ++ rest ≠ [] := List.append_ne_nil_of_left_ne_nil h.ne_nil rest
  cases hs : e ++ rest with
  | nil => exact absurd hs hne
  | cons c cs =>
    rw [hs] at hok hdrop
    simp only [utf8ToWideLoop, hok, hdrop]

private theorem utf8ToWideLoop_wideToUtf8 {ws : List Nat} (h : ∀ v ∈ ws, IsScalar v) (n : Nat)
    (hn : ws.length ≤ n) : utf8ToWideLoop n (wideToUtf8 ws) = ws := by
  induction ws generalizing n with
  | nil => cases n <;> rfl
  | cons v ws ih =>
    cases n with
    | zero => simp at hn
    | succ n =>
      have hv : IsScalar v := h v List.mem_cons_self
      rw [wideToUtf8_cons hv, utf8ToWideLoop_char (isChar_wcToUtf8 hv), wcValue_wcToUtf8 hv,
        ih (fun w hw => h w (List.mem_cons_of_mem v hw)) n (by simpa using hn)]

theorem length_wideToUtf8 {ws : List Nat} (h : ∀ v ∈ ws, IsScalar v) :
    ws.length ≤ (wideToUtf8 ws).length := by
  induction ws with
  | nil => exact Nat.zero_le _
  | cons v ws ih =>
    have hv : IsScalar v := h v List.mem_cons_self
    have hpos := List.length_pos_of_ne_nil (isChar_wcToUtf8 hv).ne_nil
    have htail := ih fun w hw => h w (List.mem_cons_of_mem v hw)
    rw [wideToUtf8_cons hv, List.length_append, List.length_cons]
    omega

/-- Encoded characters are read back. -/
theorem utf8ToWide_wideToUtf8 {ws : List Nat} (h : ∀ v ∈ ws, IsScalar v) :
    utf8ToWide (wideToUtf8 ws) = ws := utf8ToWideLoop_wideToUtf8 h _ (length_wideToUtf8 h)

theorem isScalar_utf8ToWideLoop (n : Nat) (s : List UInt8) :
    ∀ v ∈ utf8ToWideLoop n s, IsScalar v := by
  induction n generalizing s with
  | zero => simp [utf8ToWideLoop]
  | succ n ih =>
    cases s with
    | nil => simp [utf8ToWideLoop]
    | cons c cs =>
      simp only [utf8ToWideLoop]
      cases hwc : utf8ToWc (c :: cs) with
      | error k =>
        intro v hv
        cases hv with
        | head => exact .inr ⟨by decide, by decide⟩
        | tail _ hv => exact ih _ v hv
      | ok k =>
        intro v hv
        cases hv with
        | head =>
          obtain ⟨e, rest, hs, he, -⟩ := isChar_of_utf8ToWc (List.cons_ne_nil c cs) hwc
          rw [hs]
          exact isScalar_wcValue he rest
        | tail _ hv => exact ih _ v hv

theorem isScalar_utf8ToWide (s : List UInt8) : ∀ v ∈ utf8ToWide s, IsScalar v :=
  isScalar_utf8ToWideLoop _ s

/-! ### Tokens -/

private theorem slice_append {tok : UInt8} {bs : List UInt8} (h : tok ∉ bs)
    (rest cur : List UInt8) : slice tok (bs ++ rest) cur = slice tok rest (cur ++ bs) := by
  induction bs generalizing cur with
  | nil => simp
  | cons b bs ih =>
    rw [List.mem_cons, not_or] at h
    rw [List.cons_append, slice, if_neg (Ne.symm h.1), ih h.2, List.append_assoc,
      List.singleton_append]

private theorem mem_wcToUtf8 {v : Nat} (h : IsScalar v) {tok : UInt8} (htok : tok.toNat < 0x80)
    (hm : tok ∈ wcToUtf8 v) : wcToUtf8 v = [tok] := by
  have hchar := isChar_wcToUtf8 h
  cases hv : wcToUtf8 v with
  | nil => rw [hv] at hm; cases hm
  | cons a bs =>
    rw [hv] at hchar hm
    cases hchar with
    | one ha => rw [List.mem_singleton.mp hm]
    | two ha ha' hb =>
      obtain ⟨hb1, hb2⟩ := hb
      simp only [List.mem_cons, List.not_mem_nil, or_false] at hm
      obtain rfl | rfl := hm <;> omega
    | three ha ha' hb hc =>
      obtain ⟨hb1, hb2⟩ := hb
      obtain ⟨hc1, hc2⟩ := hc
      simp only [List.mem_cons, List.not_mem_nil, or_false] at hm
      obtain rfl | rfl | rfl := hm <;> omega
    | four ha ha' hb hc hd =>
      obtain ⟨hb1, hb2⟩ := hb
      obtain ⟨hc1, hc2⟩ := hc
      obtain ⟨hd1, hd2⟩ := hd
      simp only [List.mem_cons, List.not_mem_nil, or_false] at hm
      obtain rfl | rfl | rfl | rfl := hm <;> omega

theorem wideToUtf8_append (us ws : List Nat) :
    wideToUtf8 (us ++ ws) = wideToUtf8 us ++ wideToUtf8 ws := List.flatMap_append

/-- A token of a text is made of some of its characters. -/
private theorem exists_of_mem_slice {tok : UInt8} (htok : tok.toNat < 0x80) {P : Nat → Prop}
    {ws : List Nat} (us : List Nat) (hws : ∀ v ∈ ws, IsScalar v ∧ P v)
    (hus : ∀ v ∈ us, IsScalar v ∧ P v)
    {t : List UInt8} (ht : t ∈ slice tok (wideToUtf8 ws) (wideToUtf8 us)) :
    ∃ vs : List Nat, t = wideToUtf8 vs ∧ ∀ v ∈ vs, IsScalar v ∧ P v := by
  induction ws generalizing us with
  | nil =>
    rw [show wideToUtf8 [] = [] from rfl, slice] at ht
    split at ht
    · cases ht
    · rw [List.mem_singleton.mp ht]
      exact ⟨us, rfl, hus⟩
  | cons w ws ih =>
    have hw := hws w List.mem_cons_self
    have hrest := fun v hv => hws v (List.mem_cons_of_mem w hv)
    rw [wideToUtf8_cons hw.1] at ht
    by_cases hm : tok ∈ wcToUtf8 w
    · rw [mem_wcToUtf8 hw.1 htok hm, List.singleton_append, slice, if_pos rfl] at ht
      cases ht with
      | head => exact ⟨us, rfl, hus⟩
      | tail _ ht => exact ih [] hrest (by simp) ht
    · rw [slice_append hm, ← List.append_nil (wcToUtf8 w),
        ← show wideToUtf8 [] = [] from rfl, ← wideToUtf8_cons hw.1, ← wideToUtf8_append] at ht
      apply ih _ hrest ?_ ht
      intro v hv
      rcases List.mem_append.mp hv with hv | hv
      · exact hus v hv
      · rw [List.mem_singleton.mp hv]
        exact hw

/-- The pieces of a text in lower case are in lower case. -/
theorem toLower_of_mem_tokens {towlower : Nat → Nat} (hT : LowersCase towlower) {tok : UInt8}
    (htok : tok.toNat < 0x80) {s t : List UInt8} (ht : t ∈ tokens tok (toLower towlower s)) :
    toLower towlower t = t := by
  have hws : ∀ v ∈ (utf8ToWide s).map towlower, IsScalar v ∧ towlower v = v := by
    intro v hv
    obtain ⟨c, hc, rfl⟩ := List.mem_map.mp hv
    have hscalar := isScalar_utf8ToWide s c hc
    exact ⟨hT.isScalar c hscalar, hT.idem c hscalar⟩
  obtain ⟨vs, rfl, hvs⟩ := exists_of_mem_slice htok [] hws (by simp) ht
  have hmap : vs.map towlower = vs := by
    rw [List.map_congr_left fun v hv => (hvs v hv).2, List.map_id']
  rw [toLower, utf8ToWide_wideToUtf8 fun v hv => (hvs v hv).1, hmap]

end Blacklink.Text
