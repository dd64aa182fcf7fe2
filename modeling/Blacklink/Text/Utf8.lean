import Mathlib.Data.FinEnum
import Mathlib.Data.List.Basic

/-!
# UTF-8

Model of the conversions of `Text` (`client/Text.cpp:244-270, 404-453`), and what they have to do
with the encoding of characters: `validateUtf8` takes exactly the encoded texts.
-/

namespace Blacklink.Text

/-- The characters of a literal. -/
def ascii (s : String) : List UInt8 := s.toList.map Char.toUInt8

/-- `wcToUtf8`: the bytes put into `out`. -/
def wcToUtf8 (value : Nat) : List UInt8 :=
  if value < 0x80 then [value.toUInt8]
  else if value < 0x800 then
    [(0xc0 ||| value >>> 6).toUInt8, (0x80 ||| value &&& 0x3f).toUInt8]
  else if value < 0x10000 then
    [(0xe0 ||| value >>> 12).toUInt8, (0x80 ||| value >>> 6 &&& 0x3f).toUInt8,
      (0x80 ||| value &&& 0x3f).toUInt8]
  else
    [(0xf0 ||| value >>> 18).toUInt8, (0x80 ||| value >>> 12 &&& 0x3f).toUInt8,
      (0x80 ||| value >>> 6 &&& 0x3f).toUInt8, (0x80 ||| value &&& 0x3f).toUInt8]

/-- The bits of a byte behind the mask. -/
def bits (c mask : UInt8) : Nat := (c &&& mask).toNat

/-- The byte at the position is there and continues a character. -/
def continues (s : List UInt8) (n : Nat) : Bool :=
  match s[n]? with
  | none => false
  | some c => c &&& 0xc0 = 0x80

/-- `utf8ToWc`, of the bytes from `pos` on: the number of bytes, or of those to be skipped. The
character itself is not used by `validateUtf8`. -/
def utf8ToWc (s : List UInt8) : Except Nat Nat :=
  let c := s.getD 0 0
  if c &&& 0x80 = 0 then .ok 1
  else if c &&& 0xc0 = 0x80 then .error 1
  else if c &&& 0xe0 = 0xc0 then
    if !continues s 1 then .error 1
    else if bits c 0x1f <<< 6 ||| bits (s.getD 1 0) 0x3f < 0x80 then .error 1
    else .ok 2
  else if c &&& 0xf0 = 0xe0 then
    if !continues s 1 then .error 1
    else if !continues s 2 then .error 2
    else
      let wc := bits c 0xf <<< 12 ||| bits (s.getD 1 0) 0x3f <<< 6 ||| bits (s.getD 2 0) 0x3f
      if wc < 0x800 then .error 2
      else if 0xd800 ≤ wc ∧ wc ≤ 0xdfff then .error 2
      else .ok 3
  else if c &&& 0xf8 = 0xf0 then
    if !continues s 1 then .error 1
    else if 0x10ffff < bits c 0x7 <<< 18 then .error 1
    else if !continues s 2 then .error 2
    else
      let wc := bits c 0x7 <<< 18 ||| bits (s.getD 1 0) 0x3f <<< 12
      if 0x10ffff < wc ∨ wc < 0x10000 then .error 2
      else if !continues s 3 then .error 3
      else .ok 4
  else .error 1

/-- The loop of `validateUtf8`, of the bytes from `pos` on. -/
def validateLoop : Nat → List UInt8 → Bool
  | 0, s => s.isEmpty
  | n + 1, s =>
    match s with
    | [] => true
    | _ :: _ =>
      match utf8ToWc s with
      | .error _ => false
      | .ok b => validateLoop n (s.drop b)

/-- `validateUtf8`. Every pass takes a byte at least. -/
def validateUtf8 (s : List UInt8) : Bool := validateLoop s.length s

/-! ### Bytes as numbers -/

private theorem and_high : ∀ c : UInt8, (c &&& 0x80 = 0 ↔ c.toNat < 0x80) ∧
    (c &&& 0xc0 = 0x80 ↔ 0x80 ≤ c.toNat ∧ c.toNat < 0xc0) ∧
    (c &&& 0xe0 = 0xc0 ↔ 0xc0 ≤ c.toNat ∧ c.toNat < 0xe0) ∧
    (c &&& 0xf0 = 0xe0 ↔ 0xe0 ≤ c.toNat ∧ c.toNat < 0xf0) ∧
    (c &&& 0xf8 = 0xf0 ↔ 0xf0 ≤ c.toNat ∧ c.toNat < 0xf8) := by
  simp only [forall_and]
  refine ⟨?_, ?_, ?_, ?_, ?_⟩ <;> decide +kernel

theorem and_80 (c : UInt8) : c &&& 0x80 = 0 ↔ c.toNat < 0x80 := (and_high c).1

private theorem and_c0 (c : UInt8) : c &&& 0xc0 = 0x80 ↔ 0x80 ≤ c.toNat ∧ c.toNat < 0xc0 :=
  (and_high c).2.1

theorem and_e0 (c : UInt8) : c &&& 0xe0 = 0xc0 ↔ 0xc0 ≤ c.toNat ∧ c.toNat < 0xe0 :=
  (and_high c).2.2.1

theorem and_f0 (c : UInt8) : c &&& 0xf0 = 0xe0 ↔ 0xe0 ≤ c.toNat ∧ c.toNat < 0xf0 :=
  (and_high c).2.2.2.1

private theorem and_f8 (c : UInt8) : c &&& 0xf8 = 0xf0 ↔ 0xf0 ≤ c.toNat ∧ c.toNat < 0xf8 :=
  (and_high c).2.2.2.2

/-- A mask of the low bits takes a remainder. -/
private theorem bits_low {mask : UInt8} (k : Nat) (h : mask.toNat = 2 ^ k - 1) (c : UInt8) :
    bits c mask = c.toNat % 2 ^ k := by
  rw [bits, UInt8.toNat_and, h, Nat.and_two_pow_sub_one_eq_mod]

private theorem bits_1f (c : UInt8) : bits c 0x1f = c.toNat % 32 := bits_low 5 rfl c

theorem bits_3f (c : UInt8) : bits c 0x3f = c.toNat % 64 := bits_low 6 rfl c

private theorem bits_f (c : UInt8) : bits c 0xf = c.toNat % 16 := bits_low 4 rfl c

theorem bits_7 (c : UInt8) : bits c 0x7 = c.toNat % 8 := bits_low 3 rfl c

theorem shift_or {i b : Nat} (h : b < 2 ^ i) (a : Nat) :
    a <<< i ||| b = a * 2 ^ i + b := by
  rw [← Nat.shiftLeft_add_eq_or_of_lt h, Nat.shiftLeft_eq]

/-! ### Encoded characters -/

/-- The bytes are those of characters, one behind the other. -/
def IsUtf8 (s : List UInt8) : Prop := ∃ cs : List Char, s = cs.flatMap String.utf8EncodeChar

/-- The byte is behind the first one of a character. -/
def IsTail (c : UInt8) : Prop := 0x80 ≤ c.toNat ∧ c.toNat < 0xc0

/-- The bytes of one character. -/
inductive IsChar : List UInt8 → Prop where
  | one {a : UInt8} : a.toNat < 0x80 → IsChar [a]
  | two {a b : UInt8} : 0xc2 ≤ a.toNat → a.toNat < 0xe0 → IsTail b → IsChar [a, b]
  | three {a b c : UInt8} : 0xe0 ≤ a.toNat → a.toNat < 0xf0 → IsTail b → IsTail c →
    (a.toNat = 0xe0 → 0xa0 ≤ b.toNat) → (a.toNat = 0xed → b.toNat < 0xa0) → IsChar [a, b, c]
  | four {a b c d : UInt8} : 0xf0 ≤ a.toNat → a.toNat < 0xf5 → IsTail b → IsTail c → IsTail d →
    (a.toNat = 0xf0 → 0x90 ≤ b.toNat) → (a.toNat = 0xf4 → b.toNat < 0x90) → IsChar [a, b, c, d]

private theorem continues_of_isTail {s : List UInt8} {n : Nat} {c : UInt8} (hs : s[n]? = some c)
    (hc : IsTail c) : continues s n = true := by
  rw [continues, hs]
  exact decide_eq_true ((and_c0 c).mpr hc)

private theorem isTail_of_continues {p s : List UInt8}
    (h : continues (p ++ s) p.length = true) : ∃ c s', s = c :: s' ∧ IsTail c := by
  rw [continues, List.getElem?_append_right (Nat.le_refl _), Nat.sub_self] at h
  cases s with
  | nil => cases h
  | cons c s' => exact ⟨c, s', rfl, (and_c0 c).mp (of_decide_eq_true h)⟩

private theorem of_ite_ok {c : Prop} [Decidable c] {n : Nat} {x y : Except Nat Nat}
    (h : (if c then x else y) = .ok n) : c ∧ x = .ok n ∨ ¬ c ∧ y = .ok n := by
  split at h
  · next hc => exact .inl ⟨hc, h⟩
  · next hc => exact .inr ⟨hc, h⟩

private theorem of_ite_error {c : Prop} [Decidable c] {e n : Nat} {x : Except Nat Nat}
    (h : (if c then .error e else x) = .ok n) : ¬ c ∧ x = .ok n := by
  rcases of_ite_ok h with ⟨-, herror⟩ | hc
  · cases herror
  · exact hc

private theorem of_ite_not_continues {p s : List UInt8} {e n : Nat} {x : Except Nat Nat}
    (h : (if !continues (p ++ s) p.length then .error e else x) = .ok n) :
    (∃ c s', s = c :: s' ∧ IsTail c) ∧ x = .ok n := by
  obtain ⟨hc, hx⟩ := of_ite_error h
  rw [Bool.not_eq_true, Bool.not_eq_false'] at hc
  exact ⟨isTail_of_continues hc, hx⟩

theorem wc_two (a b : UInt8) :
    bits a 0x1f <<< 6 ||| bits b 0x3f = a.toNat % 32 * 64 + b.toNat % 64 := by
  rw [bits_1f, bits_3f, shift_or (show b.toNat % 64 < 2 ^ 6 by omega)]
  rfl

theorem wc_three (a b c : UInt8) :
    bits a 0xf <<< 12 ||| bits b 0x3f <<< 6 ||| bits c 0x3f =
      a.toNat % 16 * 4096 + b.toNat % 64 * 64 + c.toNat % 64 := by
  rw [bits_f, bits_3f, bits_3f, Nat.or_assoc, shift_or (show c.toNat % 64 < 2 ^ 6 by omega),
    shift_or (show b.toNat % 64 * 2 ^ 6 + c.toNat % 64 < 2 ^ 12 by omega)]
  omega

theorem wc_four (a b : UInt8) :
    bits a 0x7 <<< 18 ||| bits b 0x3f <<< 12 =
      a.toNat % 8 * 262144 + b.toNat % 64 * 4096 := by
  rw [bits_7, bits_3f, Nat.shiftLeft_eq _ 12,
    shift_or (show b.toNat % 64 * 2 ^ 12 < 2 ^ 18 by omega)]
  rfl

/-- `utf8ToWc` takes a character. -/
theorem utf8ToWc_of_isChar {e : List UInt8} (h : IsChar e) (rest : List UInt8) :
    utf8ToWc (e ++ rest) = .ok e.length := by
  cases h with
  | one ha => exact if_pos ((and_80 _).mpr ha)
  | @two a b ha ha' hb =>
    have h1 : continues (a :: b :: rest) 1 = true := continues_of_isTail rfl hb
    obtain ⟨hb1, hb2⟩ := hb
    show utf8ToWc (a :: b :: rest) = .ok 2
    simp only [utf8ToWc, h1, List.getD_cons_zero, List.getD_cons_succ, and_80, and_c0, and_e0,
      wc_two, Bool.not_true, Bool.false_eq_true, if_false]
    rw [if_neg (by omega), if_neg (by omega), if_pos (by omega), if_neg (by omega)]
  | @three a b c ha ha' hb hc he0 hed =>
    have h1 : continues (a :: b :: c :: rest) 1 = true := continues_of_isTail rfl hb
    have h2 : continues (a :: b :: c :: rest) 2 = true := continues_of_isTail rfl hc
    obtain ⟨hb1, hb2⟩ := hb
    obtain ⟨hc1, hc2⟩ := hc
    show utf8ToWc (a :: b :: c :: rest) = .ok 3
    simp only [utf8ToWc, h1, h2, List.getD_cons_zero, List.getD_cons_succ, and_80, and_c0, and_e0,
      and_f0, wc_three, Bool.not_true, Bool.false_eq_true, if_false]
    rw [if_neg (by omega), if_neg (by omega), if_neg (by omega), if_pos (by omega),
      if_neg (by omega), if_neg (by omega)]
  | @four a b c d ha ha' hb hc hd hf0 hf4 =>
    have h1 : continues (a :: b :: c :: d :: rest) 1 = true := continues_of_isTail rfl hb
    have h2 : continues (a :: b :: c :: d :: rest) 2 = true := continues_of_isTail rfl hc
    have h3 : continues (a :: b :: c :: d :: rest) 3 = true := continues_of_isTail rfl hd
    obtain ⟨hb1, hb2⟩ := hb
    show utf8ToWc (a :: b :: c :: d :: rest) = .ok 4
    simp only [utf8ToWc, h1, h2, h3, List.getD_cons_zero, List.getD_cons_succ, and_80, and_c0,
      and_e0, and_f0, and_f8, wc_four, Bool.not_true, Bool.false_eq_true, if_false]
    rw [bits_7, Nat.shiftLeft_eq, if_neg (by omega), if_neg (by omega), if_neg (by omega),
      if_neg (by omega), if_pos (by omega), if_neg (by omega), if_neg (by omega)]

/-- Whatever `utf8ToWc` takes is a character. -/
theorem isChar_of_utf8ToWc {s : List UInt8} (hs : s ≠ []) {n : Nat} (h : utf8ToWc s = .ok n) :
    ∃ e rest, s = e ++ rest ∧ IsChar e ∧ e.length = n := by
  obtain ⟨a, s, rfl⟩ := List.exists_cons_of_ne_nil hs
  simp only [utf8ToWc, List.getD_cons_zero] at h
  rcases of_ite_ok h with ⟨ha, h⟩ | ⟨ha, h⟩
  · cases h
    exact ⟨[a], s, rfl, .one ((and_80 a).mp ha), rfl⟩
  · rw [and_80] at ha
    obtain ⟨htail, h⟩ := of_ite_error h
    rw [and_c0] at htail
    rcases of_ite_ok h with ⟨ha', h⟩ | ⟨hne, h⟩
    · rw [and_e0] at ha'
      obtain ⟨⟨b, s, rfl, hb⟩, h⟩ := of_ite_not_continues (p := [a]) h
      obtain ⟨hwc, h⟩ := of_ite_error h
      rw [List.getD_cons_succ, List.getD_cons_zero, wc_two] at hwc
      cases h
      exact ⟨[a, b], s, rfl, .two (by omega) ha'.2 hb, rfl⟩
    · rcases of_ite_ok h with ⟨ha', h⟩ | ⟨hne', h⟩
      · rw [and_f0] at ha'
        obtain ⟨⟨b, s, rfl, hb⟩, h⟩ := of_ite_not_continues (p := [a]) h
        obtain ⟨⟨c, s, rfl, hc⟩, h⟩ := of_ite_not_continues (p := [a, b]) h
        obtain ⟨hlow, h⟩ := of_ite_error h
        obtain ⟨hsurr, h⟩ := of_ite_error h
        simp only [List.getD_cons_succ, List.getD_cons_zero, wc_three] at hlow hsurr
        have hb' := hb
        have hc' := hc
        rw [IsTail] at hb' hc'
        cases h
        exact ⟨[a, b, c], s, rfl, .three ha'.1 ha'.2 hb hc (by omega) (by omega), rfl⟩
      · rcases of_ite_ok h with ⟨ha', h⟩ | ⟨-, h⟩
        · rw [and_f8] at ha'
          obtain ⟨⟨b, s, rfl, hb⟩, h⟩ := of_ite_not_continues (p := [a]) h
          obtain ⟨hbig, h⟩ := of_ite_error h
          obtain ⟨⟨c, s, rfl, hc⟩, h⟩ := of_ite_not_continues (p := [a, b]) h
          obtain ⟨hrange, h⟩ := of_ite_error h
          obtain ⟨⟨d, s, rfl, hd⟩, hlen⟩ := of_ite_not_continues (p := [a, b, c]) h
          rw [List.getD_cons_succ, List.getD_cons_zero, wc_four] at hrange
          rw [bits_7, Nat.shiftLeft_eq] at hbig
          have hb' := hb
          rw [IsTail] at hb'
          cases hlen
          exact ⟨[a, b, c, d], s, rfl, .four ha'.1 (by omega) hb hc hd (by omega) (by omega), rfl⟩
        · cases h

private theorem toNat_ofNat {v : Nat} (h : v.isValidChar) : (Char.ofNat v).val.toNat = v := by
  rw [Char.ofNat, dif_pos h]
  rfl

private theorem ofNat_eq {n : Nat} {a : UInt8} (h : n = a.toNat) : UInt8.ofNat n = a := by
  rw [h]
  exact UInt8.ofNat_toNat

/-- A character that is encoded in so many bytes. -/
theorem isChar_utf8EncodeChar (ch : Char) : IsChar (String.utf8EncodeChar ch) := by
  have hvalid : ch.val.toNat < 0xd800 ∨ 0xdfff < ch.val.toNat ∧ ch.val.toNat < 0x110000 := ch.valid
  have htoNat : ∀ n : Nat, n < 256 → (UInt8.ofNat n).toNat = n := by
    intro n hn
    rw [UInt8.toNat_ofNat', Nat.mod_eq_of_lt hn]
  simp only [String.utf8EncodeChar]
  split
  · next h => exact .one (by rw [htoNat _ (by omega)]; omega)
  split
  · next h =>
    refine .two ?_ ?_ ⟨?_, ?_⟩
    all_goals rw [htoNat _ (by omega)]; omega
  split
  · next h =>
    refine .three ?_ ?_ ⟨?_, ?_⟩ ⟨?_, ?_⟩ ?_ ?_
    all_goals simp (disch := omega) only [htoNat]
    all_goals omega
  · next h =>
    refine .four ?_ ?_ ⟨?_, ?_⟩ ⟨?_, ?_⟩ ⟨?_, ?_⟩ ?_ ?_
    all_goals simp (disch := omega) only [htoNat]
    all_goals omega

theorem exists_char_of_isChar {e : List UInt8} (h : IsChar e) :
    ∃ ch : Char, e = String.utf8EncodeChar ch := by
  cases h with
  | @one a ha =>
    have hv : (Char.ofNat a.toNat).val.toNat = a.toNat := toNat_ofNat (.inl (by omega))
    refine ⟨Char.ofNat a.toNat, ?_⟩
    simp only [String.utf8EncodeChar, hv]
    rw [if_pos (by omega), ofNat_eq rfl]
  | @two a b ha ha' hb =>
    obtain ⟨hb1, hb2⟩ := hb
    obtain ⟨v, hval⟩ : ∃ v, v = a.toNat % 32 * 64 + b.toNat % 64 := ⟨_, rfl⟩
    have hv : (Char.ofNat v).val.toNat = v := toNat_ofNat (.inl (by omega))
    refine ⟨Char.ofNat v, ?_⟩
    simp only [String.utf8EncodeChar, hv]
    rw [if_neg (by omega), if_pos (by omega), ofNat_eq (a := a) (by omega),
      ofNat_eq (a := b) (by omega)]
  | @three a b c ha ha' hb hc he0 hed =>
    obtain ⟨hb1, hb2⟩ := hb
    obtain ⟨hc1, hc2⟩ := hc
    obtain ⟨v, hval⟩ : ∃ v, v = a.toNat % 16 * 4096 + b.toNat % 64 * 64 + c.toNat % 64 := ⟨_, rfl⟩
    have hvalid : v < 0xd800 ∨ 0xdfff < v ∧ v < 0x110000 := by omega
    have hv : (Char.ofNat v).val.toNat = v := toNat_ofNat hvalid
    refine ⟨Char.ofNat v, ?_⟩
    simp only [String.utf8EncodeChar, hv]
    rw [if_neg (by omega), if_neg (by omega), if_pos (by omega), ofNat_eq (a := a) (by omega),
      ofNat_eq (a := b) (by omega), ofNat_eq (a := c) (by omega)]
  | @four a b c d ha ha' hb hc hd hf0 hf4 =>
    obtain ⟨hb1, hb2⟩ := hb
    obtain ⟨hc1, hc2⟩ := hc
    obtain ⟨hd1, hd2⟩ := hd
    obtain ⟨v, hval⟩ : ∃ v, v = a.toNat % 8 * 262144 + b.toNat % 64 * 4096 + c.toNat % 64 * 64 +
      d.toNat % 64 := ⟨_, rfl⟩
    have hvalid : v < 0xd800 ∨ 0xdfff < v ∧ v < 0x110000 := by omega
    have hv : (Char.ofNat v).val.toNat = v := toNat_ofNat hvalid
    refine ⟨Char.ofNat v, ?_⟩
    simp only [String.utf8EncodeChar, hv]
    rw [if_neg (by omega), if_neg (by omega), if_neg (by omega), ofNat_eq (a := a) (by omega),
      ofNat_eq (a := b) (by omega), ofNat_eq (a := c) (by omega), ofNat_eq (a := d) (by omega)]

/-! ### Validation -/

theorem IsChar.ne_nil {e : List UInt8} (h : IsChar e) : e ≠ [] := by
  cases h <;> simp

private theorem validateLoop_char {e : List UInt8} (h : IsChar e) (rest : List UInt8) (n : Nat) :
    validateLoop (n + 1) (e ++ rest) = validateLoop n rest := by
  obtain ⟨c, s, hs⟩ := List.exists_cons_of_ne_nil (List.append_ne_nil_of_left_ne_nil h.ne_nil rest)
  have hwc := utf8ToWc_of_isChar h rest
  rw [hs] at hwc ⊢
  simp only [validateLoop, hwc]
  rw [← hs, List.drop_left]

/-- More passes than there are bytes change nothing. -/
private theorem validateLoop_of_le {m n : Nat} {s : List UInt8} (hm : s.length ≤ m)
    (hn : s.length ≤ n) : validateLoop m s = validateLoop n s := by
  induction m generalizing n s with
  | zero =>
    have hnil : s = [] := List.eq_nil_of_length_eq_zero (by omega)
    subst hnil
    cases n <;> rfl
  | succ m ih =>
    cases s with
    | nil => cases n <;> rfl
    | cons c s =>
      rw [List.length_cons] at hm hn
      obtain ⟨n, rfl⟩ : ∃ n', n = n' + 1 := ⟨n - 1, by omega⟩
      simp only [validateLoop]
      split
      · rfl
      · next b hb =>
        obtain ⟨e, rest, hs, he, rfl⟩ := isChar_of_utf8ToWc (by simp) hb
        have hlen := congrArg List.length hs
        rw [List.length_cons, List.length_append] at hlen
        have hpos := List.length_pos_iff.mpr he.ne_nil
        rw [hs, List.drop_left]
        exact ih (by omega) (by omega)

theorem validateUtf8_nil : validateUtf8 [] = true := rfl

/-- A character, then the rest. -/
theorem validateUtf8_append_of_isChar {e : List UInt8} (h : IsChar e) (rest : List UInt8) :
    validateUtf8 (e ++ rest) = validateUtf8 rest := by
  have hpos := List.length_pos_iff.mpr h.ne_nil
  obtain ⟨n, hn⟩ : ∃ n, (e ++ rest).length = n + 1 := ⟨(e ++ rest).length - 1, by
    rw [List.length_append]; omega⟩
  rw [validateUtf8, hn, validateLoop_char h, validateUtf8]
  rw [List.length_append] at hn
  exact validateLoop_of_le (by omega) (Nat.le_refl _)

/-- What is valid is empty, or begins with a character. -/
theorem exists_isChar_of_validateUtf8 {s : List UInt8} (hs : s ≠ []) (h : validateUtf8 s = true) :
    ∃ e rest, s = e ++ rest ∧ IsChar e ∧ validateUtf8 rest = true := by
  obtain ⟨c, s, rfl⟩ := List.exists_cons_of_ne_nil hs
  cases hwc : utf8ToWc (c :: s) with
  | error n => simp [validateUtf8, validateLoop, hwc] at h
  | ok n =>
    obtain ⟨e, rest, hs', he, rfl⟩ := isChar_of_utf8ToWc hs hwc
    rw [hs', validateUtf8_append_of_isChar he] at h
    exact ⟨e, rest, hs', he, h⟩

/-- `validateUtf8` takes exactly the encoded texts. -/
theorem validateUtf8_iff (s : List UInt8) : validateUtf8 s = true ↔ IsUtf8 s := by
  constructor
  · intro h
    induction hn : s.length using Nat.strong_induction_on generalizing s with
    | _ n ih =>
      by_cases hs : s = []
      · exact ⟨[], hs⟩
      · obtain ⟨e, rest, rfl, he, hrest⟩ := exists_isChar_of_validateUtf8 hs h
        have hpos := List.length_pos_iff.mpr he.ne_nil
        rw [List.length_append] at hn
        obtain ⟨cs, rfl⟩ := ih rest.length (by omega) rest hrest rfl
        obtain ⟨ch, rfl⟩ := exists_char_of_isChar he
        exact ⟨ch :: cs, rfl⟩
  · rintro ⟨cs, rfl⟩
    induction cs with
    | nil => rfl
    | cons ch cs ih =>
      rw [List.flatMap_cons, validateUtf8_append_of_isChar (isChar_utf8EncodeChar ch)]
      exact ih

end Blacklink.Text
