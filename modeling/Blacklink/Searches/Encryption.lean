import Mathlib.Algebra.Group.Int.Defs
import Mathlib.Algebra.Group.Nat.Defs
import Mathlib.Data.List.TakeWhile
import Blacklink.Base.Cbc

/-!
# Encrypted search packets

Model of `SearchManager::EncryptState::encrypt` and `DecryptState::decrypt`
(`client/SearchManager.h:108-136`, `client/SearchManager.cpp:932-957, 1009-1043`). The block cipher
is a parameter; a context that was created does cipher block chaining with it, on whole blocks and
without padding of its own. A length is an `int`, and there is no outcome where that overflows or
where something is read or written outside of a buffer.
-/

namespace Blacklink.Searches

open Blacklink.Base

/-- `zeroIV`. -/
def zeroIV : List UInt8 := List.replicate 16 0

/-- `DecryptState`; `cipher` is the key that it was created with. -/
structure DecryptState (κ : Type*) where
  cipher : Option κ
  expires : Nat

/-- `buf[i]`. -/
def byteAt (buf : List UInt8) (i : Int) : Option UInt8 := if 0 ≤ i then buf[i.toNat]? else none

variable {κ : Type*} (C : BlockCipher κ 16)

/-- `(int) in.length()`. -/
def lenOf (text : List UInt8) : Int := Int.bmod text.length (2 ^ 32)

/-- `encrypt`, with what `RAND_bytes` gives for the first block: its result and `out`. -/
def encrypt (created : Bool) (salt : Vector UInt8 16) (text : List UInt8) (key : κ) :
    Option (Bool × List UInt8) :=
  let len := lenOf text
  let pad := 16 - len % 16
  let outLen := len + pad + 16
  if len < 0 ∨ 2 ^ 31 ≤ outLen then none
  else
    let outBuf := salt.toList ++ text.take len.toNat ++ List.replicate pad.toNat pad.toNat.toUInt8
    if created then
      let out := cbcEncrypt C key zeroIV outBuf
      some (out.length = outLen, out)
    else some (false, outBuf)

/-- The loop that compares the padding, with the passes that are left. -/
def padLoop (outBuf : List UInt8) (len : Int) (pad : UInt8) : Nat → Nat → Option Nat
  | 0, i => some i
  | n + 1, i =>
    match byteAt outBuf (len - 1 - i) with
    | none => none
    | some b => if b ≠ pad then some i else padLoop outBuf len pad n (i + 1)

/-- `memmove(outBuf, outBuf + 16, len); out.resize(len)`. -/
def moveBack (outBuf : List UInt8) (len : Int) : Option (List UInt8) :=
  if 0 ≤ len ∧ 16 + len ≤ outBuf.length then
    some (((outBuf.drop 16).take len.toNat ++ outBuf.drop len.toNat).take len.toNat)
  else none

/-- `decrypt`: its result and `out`. -/
def decrypt (s : DecryptState κ) (out inBuf : List UInt8) (tick : Nat) :
    Option (Bool × List UInt8) :=
  let len : Int := inBuf.length
  if len < 32 ∨ len % 16 ≠ 0 then some (false, out)
  else
    match s.cipher with
    | none => some (false, out)
    | some key =>
      if tick < s.expires then
        let outBuf := cbcDecrypt C key zeroIV inBuf
        match byteAt outBuf (len - 1) with
        | none => none
        | some pad =>
          if 0 < pad ∧ pad ≤ 16 then
            match padLoop outBuf len pad pad.toNat 0 with
            | none => none
            | some i =>
              if i = pad.toNat then
                (moveBack outBuf (len - (pad.toNat + 16))).map fun out => (true, out)
              else some (false, outBuf)
          else some (false, outBuf)
      else some (false, out)

/-- The padding of a text: as many bytes as the last one says, all the same as that. -/
def IsPadded (text : List UInt8) : Prop :=
  ∃ m : List UInt8, ∃ pad : UInt8, 0 < pad ∧ pad ≤ 16 ∧
    text = m ++ List.replicate pad.toNat pad

variable {C} {s : DecryptState κ} {key : κ} {tick : Nat}

theorem byteAt_last_sub {buf : List UInt8} {i : Nat} (hi : i < buf.length) :
    byteAt buf (buf.length - 1 - i) = buf.reverse[i]? := by
  rw [byteAt, if_pos (by omega), List.getElem?_reverse hi]
  congr 1
  omega

/-- The loop counts the bytes of the padding from the last one back. -/
theorem padLoop_eq {buf : List UInt8} {pad : UInt8} {n i : Nat} (h : i + n ≤ buf.length) :
    padLoop buf buf.length pad n i
      = some (i + (((buf.reverse.drop i).take n).takeWhile (· == pad)).length) := by
  induction n generalizing i with
  | zero => rw [padLoop, List.take_zero, List.takeWhile_nil, List.length_nil, Nat.add_zero]
  | succ n ih =>
    have hi : i < buf.reverse.length := by
      rw [List.length_reverse]
      omega
    rw [padLoop, byteAt_last_sub (by omega), List.getElem?_eq_getElem hi,
      List.drop_eq_getElem_cons hi, List.take_succ_cons, List.takeWhile_cons]
    by_cases hb : buf.reverse[i] = pad
    · rw [if_pos (beq_iff_eq.mpr hb), List.length_cons]
      dsimp only
      rw [if_neg (not_not_intro hb), ih (by omega)]
      congr 1
      omega
    · rw [if_neg (fun h => hb (beq_iff_eq.mp h))]
      dsimp only
      rw [if_pos hb, List.length_nil, Nat.add_zero]

theorem length_takeWhile_eq_iff {l : List UInt8} {pad : UInt8} :
    (l.takeWhile (· == pad)).length = l.length ↔ l = List.replicate l.length pad := by
  rw [List.eq_replicate_iff]
  constructor
  · intro h
    have hself := (List.takeWhile_prefix (p := (· == pad)) (l := l)).eq_of_length h
    refine ⟨rfl, fun b hb => ?_⟩
    rw [← hself] at hb
    exact beq_iff_eq.mp (List.all_eq_true.mp List.all_takeWhile b hb)
  · rintro ⟨-, h⟩
    rw [List.takeWhile_eq_self_iff.mpr fun b hb => beq_iff_eq.mpr (h b hb)]

/-- The bytes that the loop looks at, in order, are the end of the text. -/
theorem take_reverse_eq_replicate_iff {text : List UInt8} {pad : UInt8} {n : Nat}
    (hn : n ≤ text.length) :
    text.reverse.take n = List.replicate n pad
      ↔ ∃ m, text = m ++ List.replicate n pad := by
  constructor
  · intro h
    refine ⟨text.take (text.length - n), ?_⟩
    have hdrop := congrArg List.reverse h
    rw [List.reverse_replicate, List.take_reverse, List.reverse_reverse] at hdrop
    rw [← hdrop, List.take_append_drop]
  · rintro ⟨m, rfl⟩
    rw [List.reverse_append, List.reverse_replicate,
      List.take_left' (List.length_replicate ..)]

theorem moveBack_append {head m tail : List UInt8} (hhead : head.length = 16) :
    moveBack (head ++ m ++ tail) m.length = some m := by
  rw [moveBack, if_pos (by simp only [List.length_append]; omega), Int.toNat_natCast,
    List.append_assoc, List.drop_left' hhead, List.take_left,
    List.take_left]

theorem pad_toNat_bounds {pad : UInt8} (h : 0 < pad ∧ pad ≤ 16) :
    0 < pad.toNat ∧ pad.toNat ≤ 16 :=
  ⟨UInt8.lt_iff_toNat_lt.mp h.1, UInt8.le_iff_toNat_le.mp h.2⟩

section Decrypt

variable {out inBuf : List UInt8}

theorem decrypt_of_length (h : inBuf.length < 32 ∨ ¬16 ∣ inBuf.length) :
    decrypt C s out inBuf tick = some (false, out) := by
  rw [decrypt]
  exact if_pos (by omega)

theorem decrypt_of_no_cipher (hs : s.cipher = none) :
    decrypt C s out inBuf tick = some (false, out) := by
  rw [decrypt, hs]
  exact ite_self _

theorem decrypt_of_expired (ht : ¬tick < s.expires) :
    decrypt C s out inBuf tick = some (false, out) := by
  cases hs : s.cipher with
  | none => exact decrypt_of_no_cipher hs
  | some key =>
    rw [decrypt, hs]
    dsimp only
    rw [if_neg ht, ite_self]

private theorem decrypt_eq (hs : s.cipher = some key) (ht : tick < s.expires)
    (hlen : 32 ≤ inBuf.length) (hdvd : 16 ∣ inBuf.length) :
    decrypt C s out inBuf tick =
      (match byteAt (cbcDecrypt C key zeroIV inBuf) (inBuf.length - 1) with
      | none => none
      | some pad =>
        if 0 < pad ∧ pad ≤ 16 then
          match padLoop (cbcDecrypt C key zeroIV inBuf) inBuf.length pad pad.toNat 0 with
          | none => none
          | some i =>
            if i = pad.toNat then
              (moveBack (cbcDecrypt C key zeroIV inBuf)
                (inBuf.length - (pad.toNat + 16))).map fun out => (true, out)
            else some (false, cbcDecrypt C key zeroIV inBuf)
        else some (false, cbcDecrypt C key zeroIV inBuf)) := by
  rw [decrypt]
  dsimp only
  rw [if_neg (by omega), hs]
  dsimp only
  rw [if_pos ht]

theorem length_zeroIV : zeroIV.length = 16 := List.length_replicate ..

/-- What is behind the first block and in front of the padding is what `out` gets. -/
theorem decrypt_of_padded (hs : s.cipher = some key) (ht : tick < s.expires)
    (hlen : 32 ≤ inBuf.length) (hdvd : 16 ∣ inBuf.length) {m : List UInt8} {pad : UInt8}
    (hpad : 0 < pad ∧ pad ≤ 16)
    (htext : cbcDecrypt C key zeroIV inBuf = m ++ List.replicate pad.toNat pad) :
    decrypt C s out inBuf tick = some (true, m.drop 16) := by
  obtain ⟨hpos, hle⟩ := pad_toNat_bounds hpad
  have hlength : (cbcDecrypt C key zeroIV inBuf).length = inBuf.length :=
    length_cbcDecrypt (by decide) length_zeroIV hdvd
  have hm : inBuf.length = m.length + pad.toNat := by
    rw [← hlength, htext, List.length_append, List.length_replicate]
  have hlast : byteAt (cbcDecrypt C key zeroIV inBuf) (inBuf.length - 1) = some pad := by
    rw [byteAt, if_pos (by omega), htext, List.getElem?_append_right (by omega),
      List.getElem?_replicate, if_pos (by omega)]
  have hloop : padLoop (cbcDecrypt C key zeroIV inBuf) inBuf.length pad pad.toNat 0
      = some pad.toNat := by
    have htake := (take_reverse_eq_replicate_iff (by omega)).mpr ⟨m, htext⟩
    rw [← hlength, padLoop_eq (by omega), List.drop_zero, Nat.zero_add, htake,
      length_takeWhile_eq_iff.mpr (by rw [List.length_replicate]), List.length_replicate]
  have hmove : moveBack (cbcDecrypt C key zeroIV inBuf) (inBuf.length - (pad.toNat + 16))
      = some (m.drop 16) := by
    have hcut := List.take_append_drop 16 m
    have hrest : ((m.drop 16).length : Int) = inBuf.length - (pad.toNat + 16) := by
      rw [List.length_drop]
      omega
    rw [htext, ← hrest, ← hcut, List.drop_left' (by rw [List.length_take]; omega)]
    exact moveBack_append (by rw [List.length_take]; omega)
  rw [decrypt_eq hs ht hlen hdvd, hlast]
  dsimp only
  rw [if_pos hpad, hloop]
  dsimp only
  rw [if_pos rfl, hmove, Option.map_some]

theorem decrypt_of_not_padded (hs : s.cipher = some key) (ht : tick < s.expires)
    (hlen : 32 ≤ inBuf.length) (hdvd : 16 ∣ inBuf.length)
    (htext : ¬IsPadded (cbcDecrypt C key zeroIV inBuf)) :
    decrypt C s out inBuf tick = some (false, cbcDecrypt C key zeroIV inBuf) := by
  have hlength : (cbcDecrypt C key zeroIV inBuf).length = inBuf.length :=
    length_cbcDecrypt (by decide) length_zeroIV hdvd
  rw [decrypt_eq hs ht hlen hdvd, byteAt, if_pos (by omega)]
  cases hlast : (cbcDecrypt C key zeroIV inBuf)[((inBuf.length : Int) - 1).toNat]? with
  | none =>
    have := List.getElem?_eq_none_iff.mp hlast
    omega
  | some pad =>
    dsimp only
    by_cases hpad : 0 < pad ∧ pad ≤ 16
    · have hbounds := pad_toNat_bounds hpad
      have hlt : pad.toNat ≤ (cbcDecrypt C key zeroIV inBuf).length := by omega
      rw [if_pos hpad, ← hlength, padLoop_eq (by omega), List.drop_zero, Nat.zero_add]
      dsimp only
      refine if_neg fun hcount => htext ?_
      have htake : ((cbcDecrypt C key zeroIV inBuf).reverse.take pad.toNat).length
          = pad.toNat := by
        rw [List.length_take, List.length_reverse, Nat.min_eq_left hlt]
      have hall := length_takeWhile_eq_iff.mp (hcount.trans htake.symm)
      rw [htake] at hall
      obtain ⟨m, hm⟩ := (take_reverse_eq_replicate_iff hlt).mp hall
      exact ⟨m, pad, hpad.1, hpad.2, hm⟩
    · rw [if_neg hpad]

end Decrypt

section Encrypt

variable {salt : Vector UInt8 16} {text buf out : List UInt8}

theorem lenOf_eq (h : text.length < 2 ^ 31) : lenOf text = text.length := by
  unfold lenOf
  apply Int.bmod_eq_of_le_mul_two <;> omega

theorem lenOf_le (l : List UInt8) : lenOf l ≤ l.length := by
  unfold lenOf
  rw [Int.bmod_eq_emod]
  omega

/-- The text with the first block and the padding. -/
def paddedText (salt : Vector UInt8 16) (text : List UInt8) : List UInt8 :=
  salt.toList ++ text
    ++ List.replicate (16 - text.length % 16) (16 - text.length % 16).toUInt8

theorem length_paddedText :
    (paddedText salt text).length = text.length + (16 - text.length % 16) + 16 := by
  rw [paddedText, List.length_append, List.length_append, List.length_replicate,
    Vector.length_toList]
  omega

theorem dvd_length_paddedText : 16 ∣ (paddedText salt text).length := by
  rw [length_paddedText]
  omega

/-- What is encrypted is the text up to the length that the code works with. -/
theorem encrypt_eq_some (h0 : 0 ≤ lenOf text) (hlt : lenOf text < 2 ^ 31 - 32) :
    encrypt C true salt text key
      = some (true, cbcEncrypt C key zeroIV (paddedText salt (text.take (lenOf text).toNat))) := by
  have hlen := lenOf_le text
  have htake : ((text.take (lenOf text).toNat).length : Int) = lenOf text := by
    rw [List.length_take]
    omega
  have hpad : 16 - (text.take (lenOf text).toNat).length % 16
      = (16 - lenOf text % 16).toNat := by omega
  have hbuf : salt.toList ++ text.take (lenOf text).toNat
        ++ List.replicate (16 - lenOf text % 16).toNat (16 - lenOf text % 16).toNat.toUInt8
      = paddedText salt (text.take (lenOf text).toNat) := by rw [paddedText, hpad]
  have hlength : (cbcEncrypt C key zeroIV (paddedText salt (text.take (lenOf text).toNat))).length
      = (paddedText salt (text.take (lenOf text).toNat)).length :=
    length_cbcEncrypt (by decide) length_zeroIV dvd_length_paddedText
  rw [length_paddedText] at hlength
  unfold encrypt
  dsimp only
  refine (if_neg (by omega)).trans ?_
  simp only [if_true, hbuf, hlength]
  have hout : ((text.take (lenOf text).toNat).length
      + (16 - (text.take (lenOf text).toNat).length % 16) + 16 : Nat)
      = lenOf text + (16 - lenOf text % 16) + 16 := by omega
  rw [decide_eq_true hout]

theorem encrypt_eq_none (h : lenOf text < 0 ∨ 2 ^ 31 - 32 ≤ lenOf text) {created : Bool} :
    encrypt C created salt text key = none := by
  unfold encrypt
  dsimp only
  exact if_pos (by omega)

/-- The text that was encrypted comes out of the decryption. -/
theorem decrypt_cbcEncrypt_paddedText (hs : s.cipher = some key) (ht : tick < s.expires) :
    decrypt C s out (cbcEncrypt C key zeroIV (paddedText salt text)) tick = some (true, text) := by
  have hdvd : 16 ∣ (paddedText salt text).length := dvd_length_paddedText
  have hlength : (cbcEncrypt C key zeroIV (paddedText salt text)).length
      = (paddedText salt text).length := length_cbcEncrypt (by decide) length_zeroIV hdvd
  have hpad : (16 - text.length % 16).toUInt8.toNat = 16 - text.length % 16 :=
    UInt8.toNat_ofNat_of_lt' (by change _ < 256; omega)
  have hbounds : 0 < (16 - text.length % 16).toUInt8 ∧ (16 - text.length % 16).toUInt8 ≤ 16 := by
    rw [UInt8.lt_iff_toNat_lt, UInt8.le_iff_toNat_le, hpad]
    change 0 < 16 - text.length % 16 ∧ 16 - text.length % 16 ≤ 16
    omega
  have htext : cbcDecrypt C key zeroIV (cbcEncrypt C key zeroIV (paddedText salt text))
      = (salt.toList ++ text) ++ List.replicate (16 - text.length % 16).toUInt8.toNat
        (16 - text.length % 16).toUInt8 := by
    rw [cbcDecrypt_cbcEncrypt (by decide) length_zeroIV hdvd, hpad, paddedText]
  have hge : 32 ≤ (paddedText salt text).length := by
    rw [length_paddedText]
    omega
  rw [decrypt_of_padded hs ht (hlength.symm ▸ hge) (hlength.symm ▸ hdvd) hbounds htext,
    List.drop_left' (Vector.length_toList ..)]

end Encrypt

variable (C) in
/-- A message that is encrypted and, while the key is valid, decrypted again. -/
def DecryptsEncrypted (s : DecryptState κ) (key : κ) (tick : Nat) (salt : Vector UInt8 16)
    (out message : List UInt8) : Prop :=
  ∃ buf, encrypt C true salt message key = some (true, buf) ∧
    decrypt C s out buf tick = some (true, message)

variable (C) in
/-- Nothing outside of a buffer is read, whatever it holds, and what is not the encryption of padded
text behind a first block is refused. -/
def RefusesMalformed (s : DecryptState κ) (tick : Nat) (out : List UInt8) : Prop :=
  ∀ inBuf : List UInt8, ∃ result out', decrypt C s out inBuf tick = some (result, out') ∧
    (inBuf.length < 32 ∨ ¬16 ∣ inBuf.length ∨
      (∀ key, s.cipher = some key → ¬IsPadded (cbcDecrypt C key zeroIV inBuf)) → result = false)

variable (C) in
theorem refusesMalformed (s : DecryptState κ) (tick : Nat) (out : List UInt8) :
    RefusesMalformed C s tick out := by
  intro inBuf
  by_cases hlen : inBuf.length < 32 ∨ ¬16 ∣ inBuf.length
  · exact ⟨false, out, decrypt_of_length hlen, fun _ => rfl⟩
  obtain ⟨hge, hdvd⟩ := not_or.mp hlen
  have hge : 32 ≤ inBuf.length := Nat.not_lt.mp hge
  have hdvd : 16 ∣ inBuf.length := not_not.mp hdvd
  cases hs : s.cipher with
  | none => exact ⟨false, out, decrypt_of_no_cipher hs, fun _ => rfl⟩
  | some key =>
    by_cases ht : tick < s.expires
    · by_cases htext : IsPadded (cbcDecrypt C key zeroIV inBuf)
      · obtain ⟨m, pad, hpos, hle, htext'⟩ := htext
        refine ⟨true, m.drop 16, decrypt_of_padded hs ht hge hdvd ⟨hpos, hle⟩ htext', ?_⟩
        rintro (h | h | h)
        · omega
        · exact absurd hdvd h
        · exact absurd ⟨m, pad, hpos, hle, htext'⟩ (h key rfl)
      · exact ⟨false, _, decrypt_of_not_padded hs ht hge hdvd htext, fun _ => rfl⟩
    · exact ⟨false, out, decrypt_of_expired ht, fun _ => rfl⟩

section Message

variable {salt : Vector UInt8 16} {out message : List UInt8}

theorem decryptsEncrypted_of_lt (hs : s.cipher = some key) (ht : tick < s.expires)
    (h : message.length < 2 ^ 31 - 32) :
    DecryptsEncrypted C s key tick salt out message := by
  have hlen : lenOf message = message.length := lenOf_eq (by omega)
  refine ⟨_, encrypt_eq_some (by omega) (by omega), ?_⟩
  rw [hlen, Int.toNat_natCast, List.take_length]
  exact decrypt_cbcEncrypt_paddedText hs ht

theorem length_lt_of_decryptsEncrypted (hs : s.cipher = some key) (ht : tick < s.expires)
    (h : DecryptsEncrypted C s key tick salt out message) : message.length < 2 ^ 31 - 32 := by
  obtain ⟨buf, henc, hdec⟩ := h
  by_cases hlen : lenOf message < 0 ∨ 2 ^ 31 - 32 ≤ lenOf message
  · rw [encrypt_eq_none hlen] at henc
    cases henc
  -- What comes out is the text up to the length that the code works with.
  rw [encrypt_eq_some (by omega) (by omega)] at henc
  cases henc
  rw [decrypt_cbcEncrypt_paddedText hs ht] at hdec
  rw [Option.some.injEq, Prod.mk.injEq] at hdec
  have hle := congrArg List.length hdec.2
  rw [List.length_take] at hle
  omega

end Message

/-- What AES-128 does with two blocks under the key of zeros. -/
def zeroKeyBlocks : BlockCipher (Vector UInt8 16) 16 :=
  BlockCipher.ofPerm fun _ =>
    (Equiv.swap (Vector.replicate 16 0)
      #v[0x66, 0xe9, 0x4b, 0xd4, 0xef, 0x8a, 0x2c, 0x3b, 0x88, 0x4c, 0xfa, 0x59, 0xca, 0x34, 0x2b,
        0x2e]).trans
    (Equiv.swap
      #v[0x34, 0xac, 0x18, 0xd9, 0xe2, 0x87, 0x21, 0x36, 0x85, 0x41, 0xf7, 0x54, 0xc7, 0x39, 0x26,
        0x23]
      #v[0x21, 0x3d, 0x2b, 0x2c, 0x7c, 0xe2, 0x2f, 0x49, 0x75, 0x06, 0xdf, 0x27, 0xad, 0x05, 0x93,
        0x49])

end Blacklink.Searches
