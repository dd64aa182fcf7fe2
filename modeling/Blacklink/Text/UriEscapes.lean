import Mathlib.Data.List.Basic
import Blacklink.Text.Utf8

/-!
# Escapes in URIs

Model of `encodeUri`, `encodeUriQuery`, `encodeUriPath` and `decodeUri`
(`client/UriUtil.cpp:25-99`), for both kinds of `char`: a byte from 0x80 on is negative where `char`
is signed.
-/

namespace Blacklink.Text

/-- `getHex`; `none` is -1. -/
def getHex (c : UInt8) : Option UInt8 :=
  if 0x30 ≤ c ∧ c ≤ 0x39 then some (c - 0x30)
  else if 0x61 ≤ c ∧ c ≤ 0x66 then some (c - 0x61 + 10)
  else if 0x41 ≤ c ∧ c ≤ 0x46 then some (c - 0x41 + 10)
  else none

/-- `hexDigits`. -/
def hexDigits : List UInt8 := ascii "0123456789ABCDEF"

/-- The value of a `char`, as an `int`. -/
def charValue (isSigned : Bool) (c : UInt8) : Int :=
  if isSigned ∧ 0x80 ≤ c then c.toNat - 256 else c.toNat

/-- What `encodeUri` appends for a character. -/
def encodeUriChar (isSigned : Bool) (chars : List UInt8) (c : UInt8) : List UInt8 :=
  let value := charValue isSigned c
  if c = 0x20 then [0x2b]
  else if value ≤ 0x1f ∨ 0x7f ≤ value ∨ c ∈ chars then
    -- `>>` keeps the sign, and `& 0xF` is the remainder
    [0x25, hexDigits.getD (value / 16 % 16).toNat 0, hexDigits.getD (value % 16).toNat 0]
  else [c]

/-- `encodeUri`. -/
def encodeUri (isSigned : Bool) (str chars : List UInt8) : List UInt8 :=
  str.flatMap (encodeUriChar isSigned chars)

/-- `disallowed` of `encodeUriQuery`. -/
def disallowedQuery : List UInt8 :=
  ascii ";/?:@&=+$," ++ ascii "<>#%\" " ++ ascii "\x7b\x7d|\\^[]`"

/-- `encodeUriQuery`. -/
def encodeUriQuery (isSigned : Bool) (str : List UInt8) : List UInt8 :=
  encodeUri isSigned str disallowedQuery

/-- `disallowed` of `encodeUriPath`. -/
def disallowedPath : List UInt8 :=
  ascii ";?&=+$," ++ ascii "<>#%\" " ++ ascii "\x7b\x7d|\\^[]`"

/-- `encodeUriPath`. -/
def encodeUriPath (isSigned : Bool) (str : List UInt8) : List UInt8 :=
  encodeUri isSigned str disallowedPath

/-- The byte of an escape, from what is behind its `%`. -/
def escapedByte : List UInt8 → Option UInt8
  | c1 :: c2 :: _ =>
    match getHex c1, getHex c2 with
    | some h1, some h2 => some (h1 <<< 4 ||| h2)
    | _, _ => none
  | _ => none

/-- The loop of `decodeUri`, with the number of characters that `i += 2` leaves out. -/
def decodeUriLoop : Nat → List UInt8 → List UInt8
  | _, [] => []
  | n + 1, _ :: str => decodeUriLoop n str
  | 0, c :: str =>
    if c = 0x25 then
      match escapedByte str with
      | some b => b :: decodeUriLoop 2 str
      | none => c :: decodeUriLoop 0 str
    else if c = 0x2b then 0x20 :: decodeUriLoop 0 str
    else c :: decodeUriLoop 0 str

/-- `decodeUri`. -/
def decodeUri (str : List UInt8) : List UInt8 := decodeUriLoop 0 str

example : decodeUri (encodeUriPath true (ascii "a b/%+")) = ascii "a b/%+" := by decide

/-- What is appended for a character is an escape or that character, which is allowed then. -/
def EscapesChar (chars : List UInt8) (c : UInt8) (text : List UInt8) : Prop :=
  c = 0x20 ∧ text = [0x2b] ∨
    (∃ h1 ∈ hexDigits, ∃ h2 ∈ hexDigits, text = [0x25, h1, h2]) ∨
    c ∉ chars ∧ text = [c]

/-- The text is read back, and has no character that is not allowed but for the `%` and `+` of its
escapes. -/
def EscapesUri (chars s text : List UInt8) : Prop :=
  decodeUri text = s ∧ (∀ c ∈ text, c ∈ chars → c = 0x25 ∨ c = 0x2b) ∧
    ∃ texts, text = texts.flatten ∧ List.Forall₂ (EscapesChar chars) s texts

/-! ### One character -/

theorem getHex_hexDigits : ∀ n < 16,
    getHex (hexDigits.getD n 0) = some (UInt8.ofNat n) ∧ hexDigits.getD n 0 ∈ hexDigits := by
  decide

/-- The two digits of a byte, whatever the sign of its `char`. -/
theorem charValue_digits (isSigned : Bool) (c : UInt8) :
    (charValue isSigned c / 16 % 16).toNat = c.toNat / 16 ∧
      (charValue isSigned c % 16).toNat = c.toNat % 16 := by
  have hlt := c.toNat_lt
  unfold charValue
  split <;> omega

private theorem ofNat_digits (c : UInt8) :
    UInt8.ofNat (c.toNat / 16) <<< 4 ||| UInt8.ofNat (c.toNat % 16) = c := by
  have hlt := c.toNat_lt
  apply UInt8.toNat_inj.mp
  rw [UInt8.toNat_or, UInt8.toNat_shiftLeft, UInt8.toNat_ofNat', UInt8.toNat_ofNat']
  have hhigh : (c.toNat / 16 % 2 ^ 8) <<< (UInt8.toNat 4 % 8) % 2 ^ 8 =
      2 ^ 4 * (c.toNat / 16) := by
    rw [show UInt8.toNat 4 % 8 = 4 from rfl, Nat.shiftLeft_eq]
    omega
  have hlow : c.toNat % 16 % 2 ^ 8 = c.toNat % 16 := by omega
  rw [hhigh, hlow, ← Nat.two_pow_add_eq_or_of_lt (Nat.mod_lt _ (by decide))]
  omega

variable {isSigned : Bool} {chars : List UInt8}

theorem encodeUriChar_cases (isSigned : Bool) (chars : List UInt8) (c : UInt8) :
    c = 0x20 ∧ encodeUriChar isSigned chars c = [0x2b] ∨
      encodeUriChar isSigned chars c =
        [0x25, hexDigits.getD (c.toNat / 16) 0, hexDigits.getD (c.toNat % 16) 0] ∨
      c ∉ chars ∧ encodeUriChar isSigned chars c = [c] := by
  unfold encodeUriChar
  dsimp only
  rw [(charValue_digits isSigned c).1, (charValue_digits isSigned c).2]
  split
  · next hspace => exact .inl ⟨hspace, rfl⟩
  · split
    · exact .inr (.inl rfl)
    · next hplain => exact .inr (.inr ⟨fun hmem => hplain (.inr (.inr hmem)), rfl⟩)

/-- What is appended for a character is read back. -/
theorem decodeUri_encodeUriChar (hpercent : 0x25 ∈ chars) (hplus : 0x2b ∈ chars) (c : UInt8)
    (rest : List UInt8) :
    decodeUri (encodeUriChar isSigned chars c ++ rest) = c :: decodeUri rest := by
  have hlt := c.toNat_lt
  rcases encodeUriChar_cases isSigned chars c with ⟨rfl, heq⟩ | heq | ⟨hnot, heq⟩
  · rw [heq]
    rfl
  · have h1 := (getHex_hexDigits (c.toNat / 16) (by omega)).1
    have h2 := (getHex_hexDigits (c.toNat % 16) (by omega)).1
    have hbyte : escapedByte (hexDigits.getD (c.toNat / 16) 0 ::
        hexDigits.getD (c.toNat % 16) 0 :: rest) = some c := by
      rw [escapedByte, h1, h2]
      exact congrArg some (ofNat_digits c)
    rw [heq, List.cons_append, List.cons_append, List.cons_append, List.nil_append, decodeUri,
      decodeUriLoop, if_pos rfl, hbyte]
    rfl
  · have hc : c ≠ 0x25 ∧ c ≠ 0x2b := by
      constructor <;> rintro rfl <;> contradiction
    rw [heq, List.singleton_append, decodeUri, decodeUriLoop, if_neg hc.1, if_neg hc.2]
    rfl

theorem escapesChar_encodeUriChar (c : UInt8) :
    EscapesChar chars c (encodeUriChar isSigned chars c) := by
  have hlt := c.toNat_lt
  rcases encodeUriChar_cases isSigned chars c with h | heq | h
  · exact .inl h
  · exact .inr (.inl ⟨_, (getHex_hexDigits (c.toNat / 16) (by omega)).2, _,
      (getHex_hexDigits (c.toNat % 16) (by omega)).2, heq⟩)
  · exact .inr (.inr h)

/-! ### Texts -/

/-- A text is escaped, if the escapes and the digits are left to `encodeUri`. -/
theorem escapesUri_encodeUri (hpercent : 0x25 ∈ chars) (hplus : 0x2b ∈ chars)
    (hdigits : ∀ h ∈ hexDigits, h ∉ chars) (s : List UInt8) :
    EscapesUri chars s (encodeUri isSigned s chars) := by
  refine ⟨?_, ?_, s.map (encodeUriChar isSigned chars), List.flatMap_def, ?_⟩
  · unfold encodeUri
    induction s with
    | nil => rfl
    | cons c s ih => rw [List.flatMap_cons, decodeUri_encodeUriChar hpercent hplus, ih]
  · intro a ha hmem
    obtain ⟨c, -, hc⟩ := List.mem_flatMap.mp ha
    have hchar : EscapesChar chars c (encodeUriChar isSigned chars c) := escapesChar_encodeUriChar c
    rcases hchar with ⟨-, heq⟩ | ⟨h1, hh1, h2, hh2, heq⟩ | ⟨hnot, heq⟩
    · rw [heq] at hc
      exact .inr (List.mem_singleton.mp hc)
    · rw [heq] at hc
      simp only [List.mem_cons, List.not_mem_nil, or_false] at hc
      rcases hc with rfl | rfl | rfl
      · exact .inl rfl
      · exact absurd hmem (hdigits _ hh1)
      · exact absurd hmem (hdigits _ hh2)
    · rw [heq] at hc
      rw [List.mem_singleton.mp hc] at hmem
      exact absurd hmem hnot
  · exact List.forall₂_map_right_iff.mpr (List.forall₂_same.mpr fun c _ =>
      escapesChar_encodeUriChar c)

/-- Both functions escape every text, whether `char` is signed or not. -/
theorem escapesUri (isSigned : Bool) (s : List UInt8) :
    EscapesUri disallowedQuery s (encodeUriQuery isSigned s) ∧
      EscapesUri disallowedPath s (encodeUriPath isSigned s) := by
  have hquery : ∀ h ∈ hexDigits, h ∉ disallowedQuery := by
    simp [hexDigits, disallowedQuery, ascii, Char.toUInt8]
  have hpath : ∀ h ∈ hexDigits, h ∉ disallowedPath := by
    simp [hexDigits, disallowedPath, ascii, Char.toUInt8]
  exact ⟨escapesUri_encodeUri (by decide) (by decide) hquery s,
    escapesUri_encodeUri (by decide) (by decide) hpath s⟩

end Blacklink.Text
