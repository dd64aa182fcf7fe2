import Mathlib.Tactic.IntervalCases
import Blacklink.Base.Loop
import Blacklink.Json.JsonParser
import Blacklink.Text.Wide

/-!
# Escapes of strings

Model of `JsonParser::unescape` as it works on its buffer (`client/JsonParser.cpp:410-484`,
`client/Text.cpp:244-270`). There is no outcome where something is read or written behind the end of
the string. What is written never gets in front of what is still to be read, so that the buffer does
what `unescapeLoop` does with a text of its own; that in turn is what the escapes stand for.
-/

namespace Blacklink.Json

open Blacklink.Base Blacklink.Text

/-! ### The buffer -/

/-- `data`, with other bytes from a position on. -/
def overwrite (data : List UInt8) (pos : Nat) (bytes : List UInt8) : Option (List UInt8) :=
  if pos + bytes.length ≤ data.length then
    some (data.take pos ++ bytes ++ data.drop (pos + bytes.length))
  else none

/-- `memmove(data + dst, data + src, n)`. -/
def memmove (data : List UInt8) (dst src n : Nat) : Option (List UInt8) :=
  if src + n ≤ data.length then overwrite data dst ((data.drop src).take n) else none

/-- The variables of `unescape`, with the string. -/
structure InPlace where
  data : List UInt8
  writePos : Nat
  readPos : Nat
  prevSurrogatePos : Nat
  prevSurrogate : Nat
  deriving DecidableEq

namespace InPlace

/-- Before the first pass. -/
def new (s : List UInt8) : InPlace := ⟨s, 0, 0, 0, 0⟩

/-- What a pass leads to; an error, or the string at the end. -/
abbrev Next := Pass InPlace (Except JsonError (List UInt8))

/-- The characters in front of the next escape. -/
def delta (u : InPlace) : Option Nat :=
  (u.data.drop u.readPos).findIdx? (· = '\\'.toUInt8)

/-- Copying these. -/
def copy (u : InPlace) (delta : Nat) : Option InPlace :=
  if delta = 0 then some u
  else if u.readPos ≠ u.writePos then
    (memmove u.data u.writePos u.readPos delta).map fun data =>
      { u with data := data, readPos := u.readPos + delta, writePos := u.writePos + delta }
  else some { u with readPos := u.readPos + delta, writePos := u.writePos + delta }

/-- `writePos += Text::wcToUtf8(chr, data + writePos)`, and behind the escape. -/
def write (u : InPlace) (chr escapeLen : Nat) : Option Next :=
  (overwrite u.data u.writePos (wcToUtf8 chr)).map fun data =>
    .again { u with
      data := data
      writePos := u.writePos + (wcToUtf8 chr).length
      readPos := u.readPos + escapeLen }

/-- The character of an escape. -/
def put (u : InPlace) (chr escapeLen : Nat) : Option Next :=
  if 0xd800 ≤ chr ∧ chr < 0xdc00 then
    if u.prevSurrogate ≠ 0 then some (.done (.error .invalidEscape))
    else
      some (.again { u with
        readPos := u.readPos + 6, prevSurrogatePos := u.readPos, prevSurrogate := chr })
  else if 0xdc00 ≤ chr ∧ chr < 0xe000 then
    if u.prevSurrogate = 0 ∨ u.prevSurrogatePos + 6 ≠ u.readPos then
      some (.done (.error .invalidEscape))
    else
      { u with prevSurrogatePos := 0, prevSurrogate := 0 }.write
        ((chr - 0xdc00 ||| (u.prevSurrogate - 0xd800) <<< 10) + 0x10000) escapeLen
  else if u.prevSurrogate ≠ 0 then some (.done (.error .invalidEscape))
  else u.write chr escapeLen

/-- The escape at `readPos`. -/
def escape (u : InPlace) : Option Next :=
  if u.readPos + 1 = u.data.length then some (.done (.error .invalidEscape))
  else
    match u.data[u.readPos + 1]? with
    | none => none
    | some e =>
      if e = 'u'.toUInt8 then
        if u.data.length - u.readPos < 6 then some (.done (.error .invalidEscape))
        else
          match (u.data.drop (u.readPos + 2)).take 4 with
          | [c1, c2, c3, c4] =>
            match getHexChar c1 c2 c3 c4 with
            | none => some (.done (.error .invalidEscape))
            | some chr => u.put chr 6
          | _ => none
      else
        match escapedChar e with
        | none => some (.done (.error .invalidEscape))
        | some chr => u.put chr 2

/-- What is behind the loop. -/
def finish (u : InPlace) : Option (Except JsonError (List UInt8)) :=
  if u.prevSurrogate ≠ 0 then some (.error .invalidEscape)
  else if u.writePos = 0 then some (.ok u.data)
  else
    (u.copy (u.data.length - u.readPos)).map fun v => .ok (v.data.take v.writePos)

/-- A pass of the loop. -/
def pass (u : InPlace) : Option Next :=
  if u.readPos < u.data.length then
    match u.delta with
    | none => u.finish.map .done
    | some delta => (u.copy delta).bind escape
  else u.finish.map .done

end InPlace

/-- `unescape`, on the buffer of the string; a pass reads two characters at least. -/
def unescapeInPlace (s : List UInt8) : Option (Except JsonError (List UInt8)) :=
  if s = [] then some (.ok [])
  else loop (fun _ => InPlace.pass) (s.length + 1) (InPlace.new s)

/-- The values that the variables take, before a pass and behind its copying. -/
inductive Visits (s : List UInt8) : InPlace → Prop
  | new : Visits s (InPlace.new s)
  | copy {u v : InPlace} {delta : Nat} (hu : Visits s u) (hdelta : u.delta = some delta)
      (h : u.copy delta = some v) : Visits s v
  | pass {u v : InPlace} (hu : Visits s u) (h : u.pass = some (.again v)) : Visits s v

/-! ### What escapes stand for -/

/-- A hexadecimal digit and its value. -/
def IsHex (c : UInt8) (v : Nat) : Prop :=
  (ascii "0123456789abcdef")[v]? = some c ∨ (ascii "0123456789ABCDEF")[v]? = some c

/-- Four hexadecimal digits and their value. -/
inductive IsHex4 : List UInt8 → Nat → Prop
  | mk {c1 c2 c3 c4 : UInt8} {v1 v2 v3 v4 : Nat} (h1 : IsHex c1 v1) (h2 : IsHex c2 v2)
      (h3 : IsHex c3 v3) (h4 : IsHex c4 v4) :
      IsHex4 [c1, c2, c3, c4] (v1 * 16 ^ 3 + v2 * 16 ^ 2 + v3 * 16 + v4)

/-- The escapes of two characters, with the bytes they stand for. -/
def shortEscapes : List (UInt8 × UInt8) :=
  List.zip (ascii "\\\"/bfnrt") [0x5c, 0x22, 0x2f, 0x08, 0x0c, 0x0a, 0x0d, 0x09]

abbrev IsHighSurrogate (v : Nat) : Prop := 0xd800 ≤ v ∧ v < 0xdc00

abbrev IsLowSurrogate (v : Nat) : Prop := 0xdc00 ≤ v ∧ v < 0xe000

/-- `\u` with four characters. -/
def wideEscape (d : List UInt8) : List UInt8 := ascii "\\u" ++ d

/-- A character or an escape, and the bytes it stands for. -/
inductive Item : List UInt8 → List UInt8 → Prop
  | literal {c : UInt8} (h : c ≠ '\\'.toUInt8) : Item [c] [c]
  | short {e b : UInt8} (h : (e, b) ∈ shortEscapes) : Item ['\\'.toUInt8, e] [b]
  | char {d : List UInt8} {ch : Char} (h : IsHex4 d ch.val.toNat) :
      Item (wideEscape d) (String.utf8EncodeChar ch)
  | pair {d e : List UInt8} {high low : Nat} {ch : Char} (hd : IsHex4 d high) (he : IsHex4 e low)
      (hhigh : IsHighSurrogate high) (hlow : IsLowSurrogate low)
      (hch : ch.val.toNat = 0x10000 + (high - 0xd800) * 0x400 + (low - 0xdc00)) :
      Item (wideEscape d ++ wideEscape e) (String.utf8EncodeChar ch)

/-- The text of a string, without its escapes. -/
inductive Unescapes : List UInt8 → List UInt8 → Prop
  | nil : Unescapes [] []
  | append {a b s t : List UInt8} (h : Item a b) (hs : Unescapes s t) : Unescapes (a ++ s) (b ++ t)

/-- An escape that is not one or is cut off, or a surrogate that is not part of a pair. -/
inductive BadEscape : List UInt8 → Prop
  | truncated : BadEscape ['\\'.toUInt8]
  | unknown {e : UInt8} {s : List UInt8} (hu : e ≠ 'u'.toUInt8)
      (h : ∀ b, (e, b) ∉ shortEscapes) : BadEscape ('\\'.toUInt8 :: e :: s)
  | truncatedHex {s : List UInt8} (h : s.length < 4) : BadEscape (wideEscape s)
  | notHex {d s : List UInt8} (hd : d.length = 4) (h : ∀ v, ¬IsHex4 d v) :
      BadEscape (wideEscape d ++ s)
  | unpairedLow {d s : List UInt8} {v : Nat} (hd : IsHex4 d v) (h : IsLowSurrogate v) :
      BadEscape (wideEscape d ++ s)
  | unpairedHigh {d s : List UInt8} {v : Nat} (hd : IsHex4 d v) (h : IsHighSurrogate v)
      (hs : ∀ e t w, s = wideEscape e ++ t → IsHex4 e w → ¬IsLowSurrogate w) :
      BadEscape (wideEscape d ++ s)

/-- One of them, behind what has been unescaped. -/
def Faulty (s : List UInt8) : Prop :=
  ∃ head rest text, s = head ++ rest ∧ Unescapes head text ∧ BadEscape rest

/-! ### Digits and short escapes -/

private theorem lowerDigits_eq : ascii "0123456789abcdef" = [0x30, 0x31, 0x32, 0x33, 0x34, 0x35,
    0x36, 0x37, 0x38, 0x39, 0x61, 0x62, 0x63, 0x64, 0x65, 0x66] := by
  simp [ascii, Char.toUInt8]

private theorem upperDigits_eq : ascii "0123456789ABCDEF" = [0x30, 0x31, 0x32, 0x33, 0x34, 0x35,
    0x36, 0x37, 0x38, 0x39, 0x41, 0x42, 0x43, 0x44, 0x45, 0x46] := by
  simp [ascii, Char.toUInt8]

theorem getHexDigit_eq_some_iff {c : UInt8} {v : Nat} : getHexDigit c = some v ↔ IsHex c v := by
  constructor
  · intro h
    -- The digits of one kind follow on each other.
    have hget : ∀ first n, c.toNat = first + n → c = UInt8.ofNat (first + n) := by
      rintro first n hc
      rw [← hc, UInt8.ofNat_toNat]
    unfold getHexDigit at h
    split_ifs at h with hd hl hu
    · obtain ⟨hge, hle⟩ := hd
      rw [UInt8.le_iff_toNat_le] at hge hle
      change 48 ≤ c.toNat at hge
      change c.toNat ≤ 57 at hle
      have hv : c.toNat - 48 = v := Option.some.inj h
      have hlt : v < 10 := by omega
      rw [hget 48 v (by omega), IsHex, lowerDigits_eq]
      left
      interval_cases v <;> rfl
    · obtain ⟨hge, hle⟩ := hl
      rw [UInt8.le_iff_toNat_le] at hge hle
      change 97 ≤ c.toNat at hge
      change c.toNat ≤ 102 at hle
      have hv : c.toNat - 97 + 10 = v := Option.some.inj h
      have hlow : 10 ≤ v := by omega
      have hlt : v < 16 := by omega
      rw [hget 87 v (by omega), IsHex, lowerDigits_eq]
      left
      interval_cases v <;> rfl
    · obtain ⟨hge, hle⟩ := hu
      rw [UInt8.le_iff_toNat_le] at hge hle
      change 65 ≤ c.toNat at hge
      change c.toNat ≤ 70 at hle
      have hv : c.toNat - 65 + 10 = v := Option.some.inj h
      have hlow : 10 ≤ v := by omega
      have hlt : v < 16 := by omega
      rw [hget 55 v (by omega), IsHex, upperDigits_eq]
      right
      interval_cases v <;> rfl
  · rintro (h | h)
    · rw [lowerDigits_eq] at h
      obtain ⟨hv, rfl⟩ := List.getElem?_eq_some_iff.mp h
      change v < 16 at hv
      interval_cases v <;> rfl
    · rw [upperDigits_eq] at h
      obtain ⟨hv, rfl⟩ := List.getElem?_eq_some_iff.mp h
      change v < 16 at hv
      interval_cases v <;> rfl

theorem IsHex.lt {c : UInt8} {v : Nat} (h : IsHex c v) : v < 16 := by
  rw [IsHex, lowerDigits_eq, upperDigits_eq] at h
  rcases h with h | h
  · exact (List.getElem?_eq_some_iff.mp h).1
  · exact (List.getElem?_eq_some_iff.mp h).1

private theorem hexSum {h1 h2 h3 h4 : Nat} (hh2 : h2 < 16) (hh3 : h3 < 16)
    (hh4 : h4 < 16) :
    h1 <<< 12 ||| h2 <<< 8 ||| h3 <<< 4 ||| h4
      = h1 * 16 ^ 3 + h2 * 16 ^ 2 + h3 * 16 + h4 := by
  have hfirst : h1 <<< 12 ||| h2 <<< 8 = (h1 * 16 + h2) <<< 8 := by
    rw [← Nat.shiftLeft_add_eq_or_of_lt (by rw [Nat.shiftLeft_eq]; omega)]
    simp only [Nat.shiftLeft_eq]
    omega
  have hsecond : (h1 * 16 + h2) <<< 8 ||| h3 <<< 4 = ((h1 * 16 + h2) * 16 + h3) <<< 4 := by
    rw [← Nat.shiftLeft_add_eq_or_of_lt (by rw [Nat.shiftLeft_eq]; omega)]
    simp only [Nat.shiftLeft_eq]
    omega
  rw [hfirst, hsecond, ← Nat.shiftLeft_add_eq_or_of_lt (by omega), Nat.shiftLeft_eq]
  omega

theorem getHexChar_eq_some_iff {c1 c2 c3 c4 : UInt8} {v : Nat} :
    getHexChar c1 c2 c3 c4 = some v ↔ IsHex4 [c1, c2, c3, c4] v := by
  constructor
  · intro h
    unfold getHexChar at h
    split at h
    · next v1 v2 v3 v4 h1 h2 h3 h4 =>
      rw [getHexDigit_eq_some_iff] at h1 h2 h3 h4
      rw [← Option.some.inj h, hexSum h2.lt h3.lt h4.lt]
      exact .mk h1 h2 h3 h4
    · cases h
  · rintro ⟨h1, h2, h3, h4⟩
    rw [getHexChar, getHexDigit_eq_some_iff.mpr h1, getHexDigit_eq_some_iff.mpr h2,
      getHexDigit_eq_some_iff.mpr h3, getHexDigit_eq_some_iff.mpr h4]
    exact congrArg some (hexSum h2.lt h3.lt h4.lt)

theorem IsHex4.length_eq {d : List UInt8} {v : Nat} (h : IsHex4 d v) : d.length = 4 := by
  cases h
  rfl

theorem IsHex4.lt {d : List UInt8} {v : Nat} (h : IsHex4 d v) : v < 0x10000 := by
  cases h with
  | mk h1 h2 h3 h4 =>
    have := h1.lt
    have := h2.lt
    have := h3.lt
    have := h4.lt
    omega

private theorem shortEscapes_eq : shortEscapes = [(0x5c, 0x5c), (0x22, 0x22), (0x2f, 0x2f),
    (0x62, 0x08), (0x66, 0x0c), (0x6e, 0x0a), (0x72, 0x0d), (0x74, 0x09)] := by
  simp [shortEscapes, ascii, Char.toUInt8]

theorem escapedChar_of_mem {e b : UInt8} (h : (e, b) ∈ shortEscapes) :
    escapedChar e = some b.toNat ∧ b.toNat < 0x80 ∧ e ≠ 'u'.toUInt8 := by
  rw [shortEscapes_eq] at h
  simp only [List.mem_cons, List.not_mem_nil, or_false, Prod.mk.injEq] at h
  rcases h with ⟨rfl, rfl⟩ | ⟨rfl, rfl⟩ | ⟨rfl, rfl⟩ | ⟨rfl, rfl⟩ | ⟨rfl, rfl⟩ | ⟨rfl, rfl⟩ |
    ⟨rfl, rfl⟩ | ⟨rfl, rfl⟩ <;> decide

theorem escapedChar_eq_none_iff {e : UInt8} :
    escapedChar e = none ↔ ∀ b, (e, b) ∉ shortEscapes := by
  constructor
  · intro h b hb
    rw [(escapedChar_of_mem hb).1] at h
    cases h
  · intro h
    rw [shortEscapes_eq] at h
    unfold escapedChar
    split_ifs with h1 h2 h3 h4 h5 h6 h7 h8
    · exact absurd (h1 ▸ by decide) (h 0x5c)
    · exact absurd (h2 ▸ by decide) (h 0x22)
    · exact absurd (h3 ▸ by decide) (h 0x2f)
    · exact absurd (h4 ▸ by decide) (h 0x08)
    · exact absurd (h5 ▸ by decide) (h 0x0c)
    · exact absurd (h6 ▸ by decide) (h 0x0a)
    · exact absurd (h7 ▸ by decide) (h 0x0d)
    · exact absurd (h8 ▸ by decide) (h 0x09)
    · rfl

theorem mem_of_escapedChar {e : UInt8} {v : Nat} (h : escapedChar e = some v) :
    ∃ b, (e, b) ∈ shortEscapes ∧ v = b.toNat := by
  have hmem : ¬∀ b, (e, b) ∉ shortEscapes := by
    rw [← escapedChar_eq_none_iff, h]
    exact Option.some_ne_none v
  obtain ⟨b, hb⟩ := not_forall.mp hmem
  refine ⟨b, not_not.mp hb, ?_⟩
  rw [(escapedChar_of_mem (not_not.mp hb)).1] at h
  exact (Option.some.inj h).symm

/-! ### The text that is written -/

section Loop

variable {u : Unescape} {s : List UInt8}

attribute [local simp] unescapeLoop

theorem unescapeLoop_literal {c : UInt8} (h : c ≠ '\\'.toUInt8) :
    unescapeLoop u (c :: s)
      = unescapeLoop { u with readPos := u.readPos + 1, written := u.written ++ [c] } s := by
  rw [unescapeLoop.eq_def]
  exact if_pos h

theorem unescapeLoop_truncated :
    unescapeLoop u ['\\'.toUInt8] = .error .invalidEscape := by
  rw [unescapeLoop, if_neg (not_not_intro rfl)]

theorem unescapeLoop_short {e : UInt8} (he : e ≠ 'u'.toUInt8) :
    unescapeLoop u ('\\'.toUInt8 :: e :: s) =
      (match escapedChar e with
      | none => .error .invalidEscape
      | some chr =>
        match u.put chr 2 with
        | .error err => .error err
        | .ok v => unescapeLoop v s) := by
  rw [unescapeLoop.eq_def]
  dsimp only
  exact (if_neg (not_not_intro rfl)).trans (if_neg he)

theorem unescapeLoop_wide (c1 c2 c3 c4 : UInt8) :
    unescapeLoop u (wideEscape [c1, c2, c3, c4] ++ s) =
      (match getHexChar c1 c2 c3 c4 with
      | none => .error .invalidEscape
      | some chr =>
        match u.put chr 6 with
        | .error err => .error err
        | .ok v => unescapeLoop v s) := by
  change unescapeLoop u ('\\'.toUInt8 :: 'u'.toUInt8 :: c1 :: c2 :: c3 :: c4 :: s) = _
  rw [unescapeLoop.eq_def]
  dsimp only
  exact (if_neg (not_not_intro rfl)).trans (if_pos rfl)

theorem unescapeLoop_truncatedHex (h : s.length < 4) :
    unescapeLoop u (wideEscape s) = .error .invalidEscape := by
  change unescapeLoop u ('\\'.toUInt8 :: 'u'.toUInt8 :: s) = _
  rw [unescapeLoop.eq_def]
  dsimp only
  rw [if_neg (not_not_intro rfl), if_pos rfl]
  match s with
  | [] | [_] | [_, _] | [_, _, _] => rfl
  | _ :: _ :: _ :: _ :: _ =>
    simp only [List.length_cons] at h
    omega

theorem unescapeLoop_hex4 {d : List UInt8} {v : Nat} (hd : IsHex4 d v) :
    unescapeLoop u (wideEscape d ++ s) =
      (match u.put v 6 with
      | .error err => .error err
      | .ok v => unescapeLoop v s) := by
  cases hd with
  | mk h1 h2 h3 h4 =>
    rw [unescapeLoop_wide, getHexChar_eq_some_iff.mpr (.mk h1 h2 h3 h4)]

theorem put_of_char {chr : Nat} (hu : u.prevSurrogate = 0) (hhigh : ¬IsHighSurrogate chr)
    (hlow : ¬IsLowSurrogate chr) (n : Nat) :
    u.put chr n
      = .ok { u with readPos := u.readPos + n, written := u.written ++ wcToUtf8 chr } := by
  rw [Unescape.put, if_neg hhigh, if_neg hlow, if_neg (not_not_intro hu)]

theorem put_of_high {chr : Nat} (hu : u.prevSurrogate = 0) (h : IsHighSurrogate chr) (n : Nat) :
    u.put chr n = .ok { u with
      readPos := u.readPos + 6, prevSurrogatePos := u.readPos, prevSurrogate := chr } := by
  rw [Unescape.put, if_pos h, if_neg (not_not_intro hu)]

private theorem not_isHigh_of_isLow {chr : Nat} (h : IsLowSurrogate chr) :
    ¬IsHighSurrogate chr := fun h' => Nat.not_lt.mpr h.1 h'.2

theorem put_of_low {chr : Nat} (hu : u.prevSurrogate ≠ 0)
    (hpos : u.prevSurrogatePos + 6 = u.readPos) (h : IsLowSurrogate chr) (n : Nat) :
    u.put chr n = .ok { u with
      readPos := u.readPos + n
      prevSurrogatePos := 0
      prevSurrogate := 0
      written := u.written ++
        wcToUtf8 ((chr - 0xdc00 ||| (u.prevSurrogate - 0xd800) <<< 10) + 0x10000) } := by
  rw [Unescape.put, if_neg (not_isHigh_of_isLow h), if_pos h,
    if_neg (not_or.mpr ⟨hu, not_not_intro hpos⟩)]

theorem put_of_unpaired_low {chr : Nat} (hu : u.prevSurrogate = 0) (h : IsLowSurrogate chr)
    (n : Nat) : u.put chr n = .error .invalidEscape := by
  rw [Unescape.put, if_neg (not_isHigh_of_isLow h), if_pos h, if_pos (.inl hu)]

/-- Only the other half may follow on a first one. -/
theorem put_of_pending {chr : Nat} (hu : u.prevSurrogate ≠ 0)
    (h : IsLowSurrogate chr → u.prevSurrogatePos + 6 ≠ u.readPos) (n : Nat) :
    u.put chr n = .error .invalidEscape := by
  rw [Unescape.put]
  by_cases hhigh : IsHighSurrogate chr
  · rw [if_pos hhigh, if_pos hu]
  by_cases hlow : IsLowSurrogate chr
  · rw [if_neg hhigh, if_pos hlow, if_pos (.inr (h hlow))]
  · rw [if_neg hhigh, if_neg hlow, if_pos hu]

theorem not_surrogate_of_lt {v : Nat} (h : v < 0xd800) : ¬IsHighSurrogate v ∧ ¬IsLowSurrogate v :=
  ⟨fun h' => Nat.not_lt.mpr h'.1 h, fun h' => Nat.not_lt.mpr h'.1 (h.trans (by decide))⟩

theorem not_surrogate_char (ch : Char) :
    ¬IsHighSurrogate ch.val.toNat ∧ ¬IsLowSurrogate ch.val.toNat := by
  have hvalid : ch.val.toNat < 0xd800 ∨ 0xdfff < ch.val.toNat ∧ ch.val.toNat < 0x110000 := ch.valid
  constructor <;> rintro ⟨h1, h2⟩ <;> omega

private theorem wcToUtf8_byte {b : UInt8} (h : b.toNat < 0x80) : wcToUtf8 b.toNat = [b] := by
  rw [wcToUtf8, if_pos h, Nat.toUInt8, UInt8.ofNat_toNat]

theorem IsHex4.length_wideEscape {d : List UInt8} {v : Nat} (h : IsHex4 d v) :
    (wideEscape d).length = 6 := by
  rw [wideEscape, List.length_append, h.length_eq]
  rfl

/-- A character or an escape adds its bytes. -/
theorem unescapeLoop_item (hu : u.prevSurrogate = 0) {a b : List UInt8} (h : Item a b)
    (s : List UInt8) :
    ∃ p, unescapeLoop u (a ++ s)
      = unescapeLoop ⟨u.readPos + a.length, p, 0, u.written ++ b⟩ s := by
  cases h with
  | literal hc =>
    refine ⟨u.prevSurrogatePos, ?_⟩
    rw [List.singleton_append, unescapeLoop_literal hc, ← hu]
    rfl
  | short he =>
    obtain ⟨hchar, hlt, hne⟩ := escapedChar_of_mem he
    obtain ⟨hhigh, hlow⟩ := not_surrogate_of_lt (hlt.trans (by decide))
    refine ⟨u.prevSurrogatePos, ?_⟩
    rw [List.cons_append, List.singleton_append, unescapeLoop_short hne, hchar]
    dsimp only
    rw [put_of_char hu hhigh hlow, wcToUtf8_byte hlt, ← hu]
    rfl
  | char hd =>
    rename_i ch
    obtain ⟨hhigh, hlow⟩ := not_surrogate_char ch
    refine ⟨u.prevSurrogatePos, ?_⟩
    rw [unescapeLoop_hex4 hd, put_of_char hu hhigh hlow, wcToUtf8_char, ← hu, hd.length_wideEscape]
  | pair hd he hhigh hlow hch =>
    rename_i d e high low ch
    refine ⟨0, ?_⟩
    have hnum : (low - 0xdc00 ||| (high - 0xd800) <<< 10) + 0x10000 = ch.val.toNat := by
      have hpair := Wide2.paired_eq (high - 0xd800) (b := low - 0xdc00) (by have := hlow.2; omega)
      rw [Nat.add_sub_of_le hhigh.1, Nat.add_sub_of_le hlow.1] at hpair
      rw [hch]
      exact hpair.trans (by omega)
    have hne : high ≠ 0 := by
      have := hhigh.1
      omega
    rw [List.append_assoc, unescapeLoop_hex4 hd, put_of_high hu hhigh]
    dsimp only
    rw [unescapeLoop_hex4 he, put_of_low hne rfl hlow]
    dsimp only
    rw [hnum, wcToUtf8_char, List.length_append, hd.length_wideEscape, he.length_wideEscape]

theorem unescapeLoop_append (hu : u.prevSurrogate = 0) {head text : List UInt8}
    (h : Unescapes head text) (s : List UInt8) :
    ∃ n p, unescapeLoop u (head ++ s) = unescapeLoop ⟨n, p, 0, u.written ++ text⟩ s := by
  induction h generalizing u with
  | nil =>
    refine ⟨u.readPos, u.prevSurrogatePos, ?_⟩
    rw [List.nil_append, List.append_nil, ← hu]
  | append hitem _ ih =>
    obtain ⟨p, hp⟩ := unescapeLoop_item hu hitem (_ ++ s)
    obtain ⟨n, q, hq⟩ := ih (u := ⟨_, p, 0, _⟩) rfl
    refine ⟨n, q, ?_⟩
    rw [List.append_assoc, hp, hq, List.append_assoc]

/-- Behind a first half that is not followed by the other one. -/
theorem unescapeLoop_pending (hu : u.prevSurrogate ≠ 0)
    (hs : u.prevSurrogatePos + 6 < u.readPos ∨ u.prevSurrogatePos + 6 = u.readPos ∧
      ∀ e t w, s = wideEscape e ++ t → IsHex4 e w → ¬IsLowSurrogate w) :
    unescapeLoop u s = .error .invalidEscape := by
  induction s generalizing u with
  | nil => rw [unescapeLoop, if_pos hu]
  | cons c s ih =>
    by_cases hc : c = '\\'.toUInt8
    · subst hc
      match s with
      | [] => exact unescapeLoop_truncated
      | e :: s =>
        by_cases he : e = 'u'.toUInt8
        · subst he
          match s with
          | c1 :: c2 :: c3 :: c4 :: s =>
            refine (unescapeLoop_wide c1 c2 c3 c4).trans ?_
            cases hchar : getHexChar c1 c2 c3 c4 with
            | none => rfl
            | some w =>
              dsimp only
              rw [put_of_pending hu]
              rintro hlow hpos
              rcases hs with hs | ⟨-, hs⟩
              · omega
              · exact hs [c1, c2, c3, c4] s w rfl (getHexChar_eq_some_iff.mp hchar) hlow
          | [] | [_] | [_, _] | [_, _, _] =>
            exact unescapeLoop_truncatedHex (by simp)
        · rw [unescapeLoop_short he]
          cases hchar : escapedChar e with
          | none => rfl
          | some w =>
            dsimp only
            rw [put_of_pending hu]
            obtain ⟨b, hb, rfl⟩ := mem_of_escapedChar hchar
            have hlt := (escapedChar_of_mem hb).2.1
            exact fun hlow => absurd hlow (not_surrogate_of_lt (hlt.trans (by decide))).2
    · rw [unescapeLoop_literal hc]
      refine ih hu (.inl ?_)
      rcases hs with hs | ⟨hs, -⟩
      · exact Nat.lt_succ_of_lt hs
      · exact Nat.lt_succ_of_le hs.le

theorem unescapeLoop_bad (hu : u.prevSurrogate = 0) (h : BadEscape s) :
    unescapeLoop u s = .error .invalidEscape := by
  cases h with
  | truncated => exact unescapeLoop_truncated
  | unknown he h => rw [unescapeLoop_short he, escapedChar_eq_none_iff.mpr h]
  | truncatedHex h => exact unescapeLoop_truncatedHex h
  | notHex hd h =>
    rename_i d s
    match d with
    | [c1, c2, c3, c4] =>
      refine (unescapeLoop_wide c1 c2 c3 c4).trans ?_
      cases hchar : getHexChar c1 c2 c3 c4 with
      | none => rfl
      | some v => exact absurd (getHexChar_eq_some_iff.mp hchar) (h v)
    | [] | [_] | [_, _] | [_, _, _] | _ :: _ :: _ :: _ :: _ :: _ =>
      simp only [List.length_cons, List.length_nil] at hd
      omega
  | unpairedLow hd h => rw [unescapeLoop_hex4 hd, put_of_unpaired_low hu h]
  | unpairedHigh hd h hs =>
    rename_i d s v
    have hne : v ≠ 0 := Nat.pos_iff_ne_zero.mp (Nat.lt_of_lt_of_le (by decide) h.1)
    rw [unescapeLoop_hex4 hd, put_of_high hu h]
    exact unescapeLoop_pending hne (.inr ⟨rfl, hs⟩)

end Loop

/-! ### Every string -/

private theorem exists_char {v : Nat} (h : v.isValidChar) : ∃ ch : Char, ch.val.toNat = v :=
  ⟨Char.ofNatAux v h, rfl⟩

/-- The characters of a hexadecimal escape. -/
private theorem wide_or_bad (s : List UInt8) :
    (∃ a b r, wideEscape s = a ++ r ∧ a ≠ [] ∧ Item a b) ∨ BadEscape (wideEscape s) := by
  by_cases hlen : s.length < 4
  · exact .inr (.truncatedHex hlen)
  have hd : (s.take 4).length = 4 := by
    rw [List.length_take]
    omega
  have hsplit : wideEscape s = wideEscape (s.take 4) ++ s.drop 4 := by
    rw [wideEscape, wideEscape, List.append_assoc, List.take_append_drop]
  rw [hsplit]
  by_cases hhex : ∀ v, ¬IsHex4 (s.take 4) v
  · exact .inr (.notHex hd hhex)
  obtain ⟨v, hv⟩ := not_forall.mp hhex
  have hv := not_not.mp hv
  have hlt := hv.lt
  by_cases hlow : IsLowSurrogate v
  · exact .inr (.unpairedLow hv hlow)
  by_cases hhigh : IsHighSurrogate v
  · by_cases hnext : ∀ e t w, s.drop 4 = wideEscape e ++ t → IsHex4 e w → ¬IsLowSurrogate w
    · exact .inr (.unpairedHigh hv hhigh hnext)
    · push Not at hnext
      obtain ⟨e, t, w, hnext, he, hw⟩ := hnext
      have hvalid : (0x10000 + (v - 0xd800) * 0x400 + (w - 0xdc00)).isValidChar := by
        obtain ⟨h1, h2⟩ := hhigh
        obtain ⟨h3, h4⟩ := hw
        exact .inr ⟨by omega, by omega⟩
      obtain ⟨ch, hch⟩ := exists_char hvalid
      refine .inl ⟨_, _, t, ?_, ?_, .pair hv he hhigh hw hch⟩
      · rw [hnext, List.append_assoc]
      · simp [wideEscape, ascii]
  · have hvalid : v.isValidChar := by
      unfold Nat.isValidChar
      omega
    obtain ⟨ch, rfl⟩ := exists_char hvalid
    exact .inl ⟨_, _, _, rfl, by simp [wideEscape, ascii], .char hv⟩

private theorem item_or_bad {s : List UInt8} (hs : s ≠ []) :
    (∃ a b r, s = a ++ r ∧ a ≠ [] ∧ Item a b) ∨ BadEscape s := by
  match s with
  | c :: s =>
    by_cases hc : c = '\\'.toUInt8
    · subst hc
      match s with
      | [] => exact .inr .truncated
      | e :: s =>
        by_cases he : e = 'u'.toUInt8
        · subst he
          exact wide_or_bad s
        · by_cases hshort : ∀ b, (e, b) ∉ shortEscapes
          · exact .inr (.unknown he hshort)
          · obtain ⟨b, hb⟩ := not_forall.mp hshort
            exact .inl ⟨['\\'.toUInt8, e], [b], s, rfl, List.cons_ne_nil _ _,
              .short (not_not.mp hb)⟩
    · exact .inl ⟨[c], [c], s, rfl, List.cons_ne_nil _ _, .literal hc⟩

/-- A string has a text, or something is wrong with one of its escapes. -/
theorem unescapes_or_faulty (s : List UInt8) : (∃ text, Unescapes s text) ∨ Faulty s := by
  induction hn : s.length using Nat.strong_induction_on generalizing s with
  | _ n ih =>
    by_cases hs : s = []
    · exact .inl ⟨[], hs ▸ .nil⟩
    rcases item_or_bad hs with ⟨a, b, r, rfl, ha, hitem⟩ | hbad
    · have hlt : r.length < n := by
        rw [← hn, List.length_append]
        exact Nat.lt_add_of_pos_left (List.length_pos_of_ne_nil ha)
      rcases ih _ hlt r rfl with ⟨text, htext⟩ | ⟨head, rest, text, rfl, htext, hbad⟩
      · exact .inl ⟨b ++ text, .append hitem htext⟩
      · exact .inr ⟨a ++ head, rest, b ++ text, by rw [List.append_assoc],
          .append hitem htext, hbad⟩
    · exact .inr ⟨[], s, [], rfl, .nil, hbad⟩

theorem unescape_of_unescapes {s text : List UInt8} (h : Unescapes s text) :
    unescape s = .ok text := by
  obtain ⟨n, p, hloop⟩ := unescapeLoop_append (u := ⟨0, 0, 0, []⟩) rfl h []
  rw [List.append_nil, List.nil_append] at hloop
  rw [unescape, hloop, unescapeLoop, if_neg (not_not_intro rfl)]

theorem unescape_of_faulty {s : List UInt8} (h : Faulty s) :
    unescape s = .error .invalidEscape := by
  obtain ⟨head, rest, text, rfl, htext, hbad⟩ := h
  obtain ⟨n, p, hloop⟩ := unescapeLoop_append (u := ⟨0, 0, 0, []⟩) rfl htext rest
  rw [unescape, hloop, unescapeLoop_bad rfl hbad]

theorem unescape_eq_ok_iff {s text : List UInt8} :
    unescape s = .ok text ↔ Unescapes s text := by
  refine ⟨fun h => ?_, unescape_of_unescapes⟩
  rcases unescapes_or_faulty s with ⟨text', htext⟩ | hbad
  · rw [unescape_of_unescapes htext] at h
    cases h
    exact htext
  · rw [unescape_of_faulty hbad] at h
    cases h

theorem unescape_eq_error_iff {s : List UInt8} :
    unescape s = .error .invalidEscape ↔ Faulty s := by
  refine ⟨fun h => ?_, unescape_of_faulty⟩
  rcases unescapes_or_faulty s with ⟨text, htext⟩ | hbad
  · rw [unescape_of_unescapes htext] at h
    cases h
  · exact hbad

/-! ### The text in the buffer -/

theorem overwrite_eq_some {data bytes : List UInt8} {pos : Nat}
    (h : pos + bytes.length ≤ data.length) :
    ∃ out, overwrite data pos bytes = some out ∧ out.length = data.length ∧
      out.take (pos + bytes.length) = data.take pos ++ bytes ∧
      ∀ k, pos + bytes.length ≤ k → out.drop k = data.drop k := by
  have hpos : (data.take pos).length = pos := by
    rw [List.length_take]
    omega
  have hfront : (data.take pos ++ bytes).length = pos + bytes.length := by
    rw [List.length_append, hpos]
  refine ⟨_, if_pos h, ?_, List.take_left' hfront, fun k hk => ?_⟩
  · rw [List.length_append, hfront, List.length_drop]
    omega
  · obtain ⟨d, rfl⟩ := Nat.exists_eq_add_of_le hk
    rw [← List.drop_drop, List.drop_left' hfront, List.drop_drop]

theorem unescapeLoop_literals {u : Unescape} {lit : List UInt8}
    (h : ∀ c ∈ lit, c ≠ '\\'.toUInt8) (s : List UInt8) :
    unescapeLoop u (lit ++ s) = unescapeLoop
      { u with readPos := u.readPos + lit.length, written := u.written ++ lit } s := by
  induction lit generalizing u with
  | nil => simp only [List.nil_append, List.length_nil, Nat.add_zero, List.append_nil]
  | cons c lit ih =>
    obtain ⟨hc, hlit⟩ := List.forall_mem_cons.mp h
    rw [List.cons_append, unescapeLoop_literal hc, ih hlit]
    simp only [List.length_cons, List.append_assoc, List.singleton_append, Nat.add_assoc,
      Nat.add_comm 1]

/-- Behind the last escape. -/
theorem unescapeLoop_end {u : Unescape} {s : List UInt8} (h : ∀ c ∈ s, c ≠ '\\'.toUInt8) :
    unescapeLoop u s
      = if u.prevSurrogate ≠ 0 then .error .invalidEscape else .ok (u.written ++ s) := by
  rw [← List.append_nil s, unescapeLoop_literals h, List.append_nil, unescapeLoop]

theorem length_wcToUtf8_le (v : Nat) : (wcToUtf8 v).length ≤ 4 := by
  unfold wcToUtf8
  split_ifs <;> simp

theorem length_wcToUtf8_of_lt {v : Nat} (h : v < 0x80) : (wcToUtf8 v).length = 1 := by
  rw [wcToUtf8, if_pos h, List.length_singleton]

theorem length_wcToUtf8_pos (v : Nat) : 0 < (wcToUtf8 v).length := by
  unfold wcToUtf8
  split_ifs <;> simp

namespace InPlace

/-- What has been written, for a loop that writes to a text of its own. -/
def text (u : InPlace) : Unescape :=
  ⟨u.readPos, u.prevSurrogatePos, u.prevSurrogate, u.data.take u.writePos⟩

/-- What has been written is not in front of what is still to be read, and leads to the text of the
string with it. -/
structure Sound (s : List UInt8) (u : InPlace) : Prop where
  length_eq : u.data.length = s.length
  writePos_le : u.writePos ≤ u.readPos
  readPos_le : u.readPos ≤ s.length
  unread : u.writePos = 0 → u.prevSurrogate = 0 → u.readPos = 0
  loop_eq : unescapeLoop u.text (u.data.drop u.readPos) = unescape s

theorem sound_new (s : List UInt8) : Sound s (new s) :=
  ⟨rfl, le_rfl, Nat.zero_le _, fun _ _ => rfl, rfl⟩

variable {s : List UInt8} {u : InPlace}

/-- The copied characters are those that were read. -/
theorem Sound.copy (h : Sound s u) {n : Nat} (hn : u.readPos + n ≤ s.length)
    (hlit : ∀ c ∈ (u.data.drop u.readPos).take n, c ≠ '\\'.toUInt8) :
    ∃ v, u.copy n = some v ∧ Sound s v ∧ v.readPos = u.readPos + n ∧
      v.data.drop v.readPos = u.data.drop (u.readPos + n) ∧
      v.writePos = u.writePos + n ∧ v.prevSurrogate = u.prevSurrogate := by
  by_cases h0 : n = 0
  · subst h0
    exact ⟨u, if_pos rfl, h, rfl, rfl, rfl, rfl⟩
  have hlength := h.length_eq
  have hle := h.writePos_le
  have hnum : ((u.data.drop u.readPos).take n).length = n := by
    rw [List.length_take, List.length_drop]
    omega
  have hloop := h.loop_eq
  rw [← List.take_append_drop n (u.data.drop u.readPos), unescapeLoop_literals hlit, hnum,
    List.drop_drop] at hloop
  by_cases hpos : u.readPos = u.writePos
  · refine ⟨{ u with readPos := u.readPos + n, writePos := u.writePos + n }, ?_, ?_, rfl, rfl, rfl,
      rfl⟩
    · rw [InPlace.copy, if_neg h0, if_neg (not_not_intro hpos)]
    · refine ⟨hlength, Nat.add_le_add_right hle n, hn, fun h' => ?_, ?_⟩
      · exact absurd (Nat.add_eq_zero_iff.mp h').2 h0
      · rw [← hloop]
        dsimp only [text]
        rw [List.take_add, ← hpos]
  · have hfit : u.writePos + ((u.data.drop u.readPos).take n).length ≤ u.data.length := by omega
    obtain ⟨data, hout, hdata, htake, hdrop⟩ := overwrite_eq_some hfit
    rw [hnum] at htake hdrop
    refine ⟨{ u with data := data, readPos := u.readPos + n, writePos := u.writePos + n }, ?_, ?_,
      rfl, hdrop (u.readPos + n) (by omega), rfl, rfl⟩
    · rw [InPlace.copy, if_neg h0, if_pos hpos, memmove, if_pos (by omega), hout, Option.map_some]
    · refine ⟨hdata.trans hlength, Nat.add_le_add_right hle n, hn, fun h' => ?_, ?_⟩
      · exact absurd (Nat.add_eq_zero_iff.mp h').2 h0
      · rw [← hloop, ← hdrop (u.readPos + n) (by omega)]
        dsimp only [text]
        rw [htake]

/-- The bytes of a character fit in the place of its escape. -/
theorem Sound.write (h : Sound s u) {p chr n : Nat} (hn : u.readPos + n ≤ s.length)
    (hchr : (wcToUtf8 chr).length ≤ n)
    (hloop : unescapeLoop ⟨u.readPos + n, p, 0, u.data.take u.writePos ++ wcToUtf8 chr⟩
      (u.data.drop (u.readPos + n)) = unescape s) :
    ∃ v, { u with prevSurrogatePos := p, prevSurrogate := 0 }.write chr n = some (.again v) ∧
      Sound s v ∧ v.readPos = u.readPos + n := by
  have hlength := h.length_eq
  have hle := h.writePos_le
  have hfit : u.writePos + (wcToUtf8 chr).length ≤ u.data.length := by omega
  obtain ⟨data, hout, hdata, htake, hdrop⟩ := overwrite_eq_some hfit
  refine ⟨⟨data, u.writePos + (wcToUtf8 chr).length, u.readPos + n, p, 0⟩, ?_, ?_, rfl⟩
  · rw [InPlace.write, hout, Option.map_some]
  · refine ⟨hdata.trans hlength, by dsimp only; omega, hn, fun h' => ?_, ?_⟩
    · exact absurd (Nat.add_eq_zero_iff.mp h').2 (length_wcToUtf8_pos chr).ne'
    · rw [← hloop]
      dsimp only [text]
      rw [htake, hdrop _ (by omega)]

/-- An escape is read, or is the reason of the error. -/
def Reads (s : List UInt8) (u : InPlace) (next : Option Next) : Prop :=
  (∃ v, next = some (.again v) ∧ Sound s v ∧ u.readPos < v.readPos) ∨
    next = some (.done (.error .invalidEscape)) ∧ unescape s = .error .invalidEscape

theorem Sound.put (h : Sound s u) {chr n : Nat} (hn : u.readPos + n ≤ s.length)
    (hchr : n = 6 ∨ n = 2 ∧ chr < 0x80)
    (hloop : unescape s =
      match u.text.put chr n with
      | .error err => .error err
      | .ok v => unescapeLoop v (u.data.drop (u.readPos + n))) :
    Reads s u (u.put chr n) := by
  have hwrite : (wcToUtf8 chr).length ≤ n := by
    rcases hchr with rfl | ⟨rfl, hlt⟩
    · exact (length_wcToUtf8_le chr).trans (by decide)
    · exact (length_wcToUtf8_of_lt hlt).le.trans (by decide)
  have hsurrogate : IsHighSurrogate chr ∨ IsLowSurrogate chr → n = 6 := by
    rintro hsurrogate
    rcases hchr with h6 | ⟨-, hlt⟩
    · exact h6
    · obtain ⟨hhigh, hlow⟩ := not_surrogate_of_lt (hlt.trans (by decide))
      exact absurd hsurrogate (not_or.mpr ⟨hhigh, hlow⟩)
  by_cases hu : u.prevSurrogate = 0
  · by_cases hhigh : IsHighSurrogate chr
    · have h6 := hsurrogate (.inl hhigh)
      subst h6
      rw [put_of_high hu hhigh] at hloop
      refine .inl ⟨_, (if_pos hhigh).trans (if_neg (not_not_intro hu)), ?_, by dsimp only; omega⟩
      have hle := h.writePos_le
      refine ⟨h.length_eq, by dsimp only; omega, hn, fun _ h0 => ?_, hloop.symm⟩
      have := hhigh.1
      dsimp only at h0
      omega
    by_cases hlow : IsLowSurrogate chr
    · rw [put_of_unpaired_low hu hlow] at hloop
      exact .inr ⟨by rw [InPlace.put, if_neg hhigh, if_pos hlow, if_pos (.inl hu)], hloop⟩
    · rw [put_of_char hu hhigh hlow] at hloop
      have hsame : { u with prevSurrogatePos := u.prevSurrogatePos, prevSurrogate := 0 } = u := by
        rw [← hu]
      obtain ⟨v, hv, hsound, hread⟩ := h.write (p := u.prevSurrogatePos) hn hwrite
        (by rw [hloop, ← hu]; rfl)
      rw [hsame] at hv
      refine .inl ⟨v, ?_, hsound, by omega⟩
      rw [InPlace.put, if_neg hhigh, if_neg hlow, if_neg (not_not_intro hu), hv]
  · by_cases hlow : IsLowSurrogate chr ∧ u.prevSurrogatePos + 6 = u.readPos
    · obtain ⟨hlow, hpos⟩ := hlow
      have h6 := hsurrogate (.inr hlow)
      subst h6
      rw [put_of_low hu hpos hlow] at hloop
      obtain ⟨v, hv, hsound, hread⟩ := h.write (p := 0) hn
        ((length_wcToUtf8_le _).trans (by decide)) hloop.symm
      refine .inl ⟨v, ?_, hsound, by omega⟩
      rw [InPlace.put, if_neg (not_isHigh_of_isLow hlow), if_pos hlow,
        if_neg (not_or.mpr ⟨hu, not_not_intro hpos⟩)]
      exact hv
    · have hlow' := not_and.mp hlow
      rw [put_of_pending hu hlow'] at hloop
      refine .inr ⟨?_, hloop⟩
      rw [InPlace.put]
      by_cases hhigh : IsHighSurrogate chr
      · rw [if_pos hhigh, if_pos hu]
      by_cases hlow : IsLowSurrogate chr
      · rw [if_neg hhigh, if_pos hlow, if_pos (.inr (hlow' hlow))]
      · rw [if_neg hhigh, if_neg hlow, if_pos hu]

theorem Sound.escape (h : Sound s u) {rest : List UInt8}
    (hc : u.data.drop u.readPos = '\\'.toUInt8 :: rest) : Reads s u u.escape := by
  have hloop := h.loop_eq
  have hlength := h.length_eq
  have hnum := congrArg List.length hc
  rw [List.length_drop, List.length_cons] at hnum
  have hdrop : ∀ n, u.data.drop (u.readPos + 1 + n) = rest.drop n := by
    intro n
    rw [← List.drop_drop, ← List.drop_drop, hc]
    rfl
  rw [hc] at hloop
  rw [InPlace.escape]
  match rest with
  | [] =>
    rw [unescapeLoop_truncated] at hloop
    exact .inr ⟨if_pos (by simp only [List.length_nil] at hnum; omega), hloop.symm⟩
  | e :: rest =>
    simp only [List.length_cons] at hnum
    have hget : u.data[u.readPos + 1]? = some e := by
      rw [← List.head?_drop, ← Nat.add_zero (u.readPos + 1), hdrop]
      rfl
    rw [if_neg (by omega), hget]
    dsimp only
    by_cases he : e = 'u'.toUInt8
    · subst he
      rw [if_pos rfl]
      by_cases hlen : rest.length < 4
      · have herr := unescapeLoop_truncatedHex (u := u.text) hlen
        exact .inr ⟨if_pos (by omega), hloop.symm.trans herr⟩
      · match rest with
        | c1 :: c2 :: c3 :: c4 :: rest =>
          have htake : (u.data.drop (u.readPos + 2)).take 4 = [c1, c2, c3, c4] := by
            rw [show u.readPos + 2 = u.readPos + 1 + 1 from rfl, hdrop]
            rfl
          simp only [List.length_cons] at hnum
          rw [if_neg (by omega), htake]
          dsimp only
          have hwide := unescapeLoop_wide (u := u.text) (s := rest) c1 c2 c3 c4
          have hrest : u.data.drop (u.readPos + 6) = rest := hdrop 5
          cases hchar : getHexChar c1 c2 c3 c4 with
          | none =>
            rw [hchar] at hwide
            exact .inr ⟨rfl, hloop.symm.trans hwide⟩
          | some chr =>
            rw [hchar] at hwide
            exact h.put (by omega) (.inl rfl) (hrest.symm ▸ hloop.symm.trans hwide)
        | [] | [_] | [_, _] | [_, _, _] =>
          simp only [List.length_cons, List.length_nil] at hlen
          omega
    · rw [if_neg he]
      have hshort := unescapeLoop_short (u := u.text) (s := rest) he
      have hrest : u.data.drop (u.readPos + 2) = rest := hdrop 1
      cases hchar : escapedChar e with
      | none =>
        rw [hchar] at hshort
        exact .inr ⟨rfl, hloop.symm.trans hshort⟩
      | some chr =>
        rw [hchar] at hshort
        obtain ⟨b, hb, rfl⟩ := mem_of_escapedChar hchar
        exact h.put (by omega) (.inr ⟨rfl, (escapedChar_of_mem hb).2.1⟩)
          (hrest.symm ▸ hloop.symm.trans hshort)

theorem delta_eq_none_iff : u.delta = none ↔ ∀ c ∈ u.data.drop u.readPos, c ≠ '\\'.toUInt8 := by
  simp only [delta, List.findIdx?_eq_none_iff, decide_eq_false_iff_not]

theorem delta_spec {n : Nat} (h : u.delta = some n) :
    (∀ c ∈ (u.data.drop u.readPos).take n, c ≠ '\\'.toUInt8) ∧
      ∃ rest, u.data.drop (u.readPos + n) = '\\'.toUInt8 :: rest := by
  obtain ⟨hlt, hc, hlit⟩ := List.findIdx?_eq_some_iff_getElem.mp h
  constructor
  · intro c hmem
    obtain ⟨i, hi, rfl⟩ := List.getElem_of_mem hmem
    rw [List.length_take] at hi
    rw [List.getElem_take]
    exact fun heq => hlit i (by omega) (decide_eq_true heq)
  · refine ⟨(u.data.drop u.readPos).drop (n + 1), ?_⟩
    rw [← List.drop_drop, List.drop_eq_getElem_cons hlt, of_decide_eq_true hc]

/-- What is behind the last escape is copied. -/
theorem Sound.finish (h : Sound s u) (hlit : ∀ c ∈ u.data.drop u.readPos, c ≠ '\\'.toUInt8) :
    u.finish = some (unescape s) := by
  have hlength := h.length_eq
  have hread := h.readPos_le
  have hloop := h.loop_eq
  rw [unescapeLoop_end hlit] at hloop
  rw [InPlace.finish, ← hloop]
  by_cases hu : u.prevSurrogate = 0
  · rw [if_neg (not_not_intro hu)]
    refine Eq.trans ?_ (congrArg some (if_neg (not_not_intro hu)).symm)
    by_cases hw : u.writePos = 0
    · rw [if_pos hw]
      dsimp only [text]
      rw [hw, h.unread hw hu, List.take_zero, List.drop_zero, List.nil_append]
    · obtain ⟨v, hcopy, hsound, hvread, -, hvwrite, hv⟩ := h.copy (n := u.data.length - u.readPos)
        (by omega) (fun c hc => hlit c (List.mem_of_mem_take hc))
      have hend := hsound.loop_eq
      rw [List.drop_eq_nil_of_le (by have := hsound.length_eq; omega), ← hloop,
        unescapeLoop_end (fun c hc => absurd hc List.not_mem_nil), List.append_nil] at hend
      have hout : Except.ok (v.data.take v.writePos)
          = .ok (u.text.written ++ u.data.drop u.readPos) :=
        ((if_neg (not_not_intro (hv.trans hu))).symm.trans hend).trans (if_neg (not_not_intro hu))
      rw [if_neg hw, hcopy, Option.map_some, hout]
  · rw [if_pos hu]
    exact congrArg some (if_pos hu).symm

/-- A pass reads an escape, or is the last one. -/
theorem Sound.pass (h : Sound s u) :
    (∃ v, u.pass = some (.again v) ∧ Sound s v ∧ u.readPos < v.readPos) ∨
      u.pass = some (.done (unescape s)) := by
  have hlength := h.length_eq
  rw [InPlace.pass]
  by_cases hread : u.readPos < u.data.length
  · rw [if_pos hread]
    cases hdelta : u.delta with
    | none =>
      refine .inr ?_
      dsimp only
      rw [h.finish (delta_eq_none_iff.mp hdelta), Option.map_some]
    | some n =>
      obtain ⟨hlit, rest, hrest⟩ := delta_spec hdelta
      have hlen := congrArg List.length hrest
      rw [List.length_drop, List.length_cons] at hlen
      obtain ⟨v, hcopy, hsound, hvread, hvdrop, -, -⟩ := h.copy (by omega) hlit
      dsimp only
      rw [hcopy, Option.bind_some]
      rcases hsound.escape (hvdrop.trans hrest) with ⟨w, hw, hwsound, hlt⟩ | ⟨herr, hs⟩
      · exact .inl ⟨w, hw, hwsound, by omega⟩
      · exact .inr (by rw [herr, hs])
  · refine .inr ?_
    rw [if_neg hread, h.finish, Option.map_some]
    rw [List.drop_eq_nil_of_le (Nat.not_lt.mp hread)]
    exact fun c hc => absurd hc List.not_mem_nil

theorem Sound.loop (h : Sound s u) {fuel : Nat} (hfuel : s.length < u.readPos + fuel) :
    loop (fun _ => InPlace.pass) fuel u = some (unescape s) := by
  induction fuel generalizing u with
  | zero => exact absurd h.readPos_le (Nat.not_le.mpr hfuel)
  | succ fuel ih =>
    rw [Base.loop]
    rcases h.pass with ⟨v, hv, hsound, hlt⟩ | hdone
    · rw [hv]
      exact ih hsound (by omega)
    · rw [hdone]

end InPlace

theorem unescapeInPlace_eq (s : List UInt8) : unescapeInPlace s = some (unescape s) := by
  rw [unescapeInPlace]
  by_cases hs : s = []
  · rw [if_pos hs, hs]
    rfl
  · rw [if_neg hs]
    exact (InPlace.sound_new s).loop (Nat.lt_add_left _ (Nat.lt_succ_self _))

theorem Visits.sound {s : List UInt8} {u : InPlace} (h : Visits s u) : InPlace.Sound s u := by
  induction h with
  | new => exact InPlace.sound_new s
  | copy _ hdelta hcopy ih =>
    obtain ⟨hlit, rest, hrest⟩ := InPlace.delta_spec hdelta
    have hlen := congrArg List.length hrest
    rw [List.length_drop, List.length_cons, ih.length_eq] at hlen
    obtain ⟨v, hv, hsound, -⟩ := ih.copy (by omega) hlit
    rw [hcopy] at hv
    cases hv
    exact hsound
  | pass _ hpass ih =>
    rcases ih.pass with ⟨v, hv, hsound, -⟩ | hdone
    · rw [hpass] at hv
      cases hv
      exact hsound
    · rw [hpass] at hdone
      cases hdone

/-- What is written is never in front of what is still to be read, and the result is the text that
the string stands for, or an error where one of its escapes is wrong. -/
theorem unescapesInPlace (s : List UInt8) :
    (∀ u, Visits s u → u.writePos ≤ u.readPos) ∧
      ∃ result, unescapeInPlace s = some result ∧
        (∀ text, result = .ok text ↔ Unescapes s text) ∧
        (result = .error .invalidEscape ↔ Faulty s) ∧
        (∀ e, result = .error e → e = .invalidEscape) := by
  refine ⟨fun u hu => hu.sound.writePos_le, unescape s, unescapeInPlace_eq s,
    fun text => unescape_eq_ok_iff, unescape_eq_error_iff, fun e he => ?_⟩
  rcases unescapes_or_faulty s with ⟨text, htext⟩ | hbad
  · rw [unescape_of_unescapes htext] at he
    cases he
  · rw [unescape_of_faulty hbad] at he
    cases he
    rfl

end Blacklink.Json
