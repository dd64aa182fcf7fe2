import Mathlib.Data.Nat.Bitwise
import Blacklink.Text.Numbers

/-!
# Base 32

Model of `Util::fromBase32` (`client/Base32.cpp:24-42, 85-137`). What `toBase32` has written is read
back: a byte is put together from the digits that hold its bits, the high ones first.
-/

namespace Blacklink.Text

/-- `base32Table`. -/
def base32Value (c : UInt8) : Option UInt8 :=
  if 0x32 ≤ c ∧ c ≤ 0x37 then some (c - 0x32 + 26)
  else if 0x41 ≤ c ∧ c ≤ 0x5a then some (c - 0x41)
  else if 0x61 ≤ c ∧ c ≤ 0x7a then some (c - 0x61)
  else none

/-- The loop of `fromBase32`: the next digit begins at bit `index` of the byte at `offset`. -/
def fromBase32Loop : List UInt8 → Nat → Nat → List UInt8 → List UInt8
  | [], _, _, dst => dst
  | c :: src, index, offset, dst =>
    if c = 0 then dst
    else
      match base32Value c with
      | none => fromBase32Loop src index offset dst
      | some tmp =>
        let next := (index + 5) % 8
        if index ≤ 3 then
          if next = 0 then
            let dst := dst.modify offset fun b => b ||| tmp
            if offset + 1 = dst.length then dst else fromBase32Loop src next (offset + 1) dst
          else
            fromBase32Loop src next offset
              (dst.modify offset fun b => b ||| tmp <<< (8 - next).toUInt8)
        else
          let dst := dst.modify offset fun b => b ||| tmp >>> next.toUInt8
          if offset + 1 = dst.length then dst
          else
            fromBase32Loop src next (offset + 1)
              (dst.modify (offset + 1) fun b => b ||| tmp <<< (8 - next).toUInt8)

/-- `fromBase32`. -/
def fromBase32 (src : List UInt8) (len : Nat) : List UInt8 :=
  fromBase32Loop src 0 0 (List.replicate len 0)

example : fromBase32 (ascii "MZXW6YTBOI") 6 = ascii "foobar" := by decide

/-! ### Digits -/

/-- What holds of all bytes, decided one by one. -/
private theorem forall_byte {P : UInt8 → Prop} (h : ∀ n < 256, P (UInt8.ofNat n)) (b : UInt8) :
    P b := by
  have hb := h b.toNat b.toNat_lt
  rwa [UInt8.ofNat_toNat] at hb

/-- The bits of a byte before bit `index`. -/
def highBits (b : UInt8) (index : Nat) : UInt8 := b &&& ~~~(0xff >>> index.toUInt8)

/-- The number of a digit that begins at bit `index` of a byte. -/
def digitWord (b next : UInt8) (index : Nat) : UInt8 :=
  if 3 < index then
    (b &&& (0xff >>> index.toUInt8)) <<< ((index + 5) % 8).toUInt8 |||
      next >>> (8 - (index + 5) % 8).toUInt8
  else (b >>> (8 - (index + 5)).toUInt8) &&& 0x1f

/-- What the shifts of a byte keep, for a digit that ends in it and for one that ends behind it. -/
private theorem byte_shifts (b : UInt8) : highBits b 0 = 0 ∧
    highBits b 3 ||| (b >>> (8 - (3 + 5)).toUInt8 &&& 0x1f) = b ∧
    (∀ i ≤ 3, (b >>> (8 - (i + 5)).toUInt8 &&& 0x1f).toNat < 32) ∧
    (∀ i < 3, highBits b i |||
      (b >>> (8 - (i + 5)).toUInt8 &&& 0x1f) <<< (8 - (i + 5) % 8).toUInt8 =
        highBits b (i + 5)) ∧
    ∀ i < 8, 3 < i →
      ((b &&& ((0xff : UInt8) >>> i.toUInt8)) <<< ((i + 5) % 8).toUInt8).toNat < 2 ^ 5 ∧
      (b >>> (8 - (i + 5) % 8).toUInt8).toNat < 2 ^ 5 ∧
      b >>> (8 - (i + 5) % 8).toUInt8 >>> ((i + 5) % 8).toUInt8 = 0 ∧
      highBits b i ||| ((b &&& ((0xff : UInt8) >>> i.toUInt8)) <<< ((i + 5) % 8).toUInt8) >>>
        ((i + 5) % 8).toUInt8 = b ∧
      (b &&& ((0xff : UInt8) >>> i.toUInt8)) <<< ((i + 5) % 8).toUInt8 <<<
        (8 - (i + 5) % 8).toUInt8 = 0 ∧
      b >>> (8 - (i + 5) % 8).toUInt8 <<< (8 - (i + 5) % 8).toUInt8 =
        highBits b ((i + 5) % 8) := by
  refine ⟨?_, ?_, ?_, ?_, fun i hi hi' => ?_⟩
  iterate 4
    · revert b
      apply forall_byte
      decide +kernel
  · obtain rfl | rfl | rfl | rfl : i = 4 ∨ i = 5 ∨ i = 6 ∨ i = 7 := by omega
    all_goals
      revert b
      apply forall_byte
      decide +kernel

private theorem highBits_zero (b : UInt8) : highBits b 0 = 0 := (byte_shifts b).1

private theorem base32Digit_eq (b next : UInt8) (index : Nat) :
    base32Digit b next index = base32Alphabet.getD (digitWord b next index).toNat 0 := rfl

private theorem base32Value_alphabet : ∀ n < 32,
    base32Alphabet.getD n 0 ≠ 0 ∧ base32Value (base32Alphabet.getD n 0) = some (UInt8.ofNat n) := by
  decide

private theorem digitWord_of_le (b next : UInt8) {index : Nat} (h : index ≤ 3) :
    digitWord b next index = b >>> (8 - (index + 5)).toUInt8 &&& 0x1f := if_neg (by omega)

private theorem digitWord_of_lt (b next : UInt8) {index : Nat} (h : 3 < index) :
    digitWord b next index =
      (b &&& (0xff >>> index.toUInt8)) <<< ((index + 5) % 8).toUInt8 |||
        next >>> (8 - (index + 5) % 8).toUInt8 := if_pos h

private theorem digitWord_lt (b next : UInt8) {index : Nat} (h : index < 8) :
    (digitWord b next index).toNat < 32 := by
  obtain ⟨-, -, hle, -, hlt⟩ := byte_shifts b
  obtain ⟨-, -, -, -, hnext⟩ := byte_shifts next
  by_cases h3 : 3 < index
  · rw [digitWord_of_lt b next h3, UInt8.toNat_or]
    exact Nat.or_lt_two_pow (hlt index h h3).1 (hnext index h h3).2.1
  · rw [digitWord_of_le b next (Nat.le_of_not_lt h3)]
    exact hle index (Nat.le_of_not_lt h3)

/-- A digit is read as its number. -/
private theorem base32Value_digit (b next : UInt8) {index : Nat} (h : index < 8) :
    base32Digit b next index ≠ 0 ∧
      base32Value (base32Digit b next index) = some (digitWord b next index) := by
  have hvalue := base32Value_alphabet _ (digitWord_lt b next h)
  rw [UInt8.ofNat_toNat] at hvalue
  exact hvalue

/-- A digit that ends before the last bit of its byte. -/
private theorem highBits_or_digit (b next : UInt8) {index : Nat} (h : index < 3) :
    highBits b index ||| digitWord b next index <<< (8 - (index + 5) % 8).toUInt8 =
      highBits b (index + 5) := by
  obtain ⟨-, -, -, hmiddle, -⟩ := byte_shifts b
  rw [digitWord_of_le b next (by omega)]
  exact hmiddle index h

/-- A digit that ends with its byte. -/
private theorem highBits_or_last (b next : UInt8) : highBits b 3 ||| digitWord b next 3 = b := by
  rw [digitWord_of_le b next (Nat.le_refl 3)]
  exact (byte_shifts b).2.1

/-- A digit that ends in the next byte has the rest of the bits of its own. -/
private theorem highBits_or_rest (b next : UInt8) {index : Nat} (h3 : 3 < index) (h8 : index < 8) :
    highBits b index ||| digitWord b next index >>> ((index + 5) % 8).toUInt8 = b := by
  obtain ⟨-, -, -, -, hlt⟩ := byte_shifts b
  obtain ⟨-, -, -, -, hnext⟩ := byte_shifts next
  obtain ⟨-, -, hgone, -⟩ := hnext index h8 h3
  obtain ⟨-, -, -, hback, -⟩ := hlt index h8 h3
  rw [digitWord_of_lt b next h3, UInt8.shiftRight_or, hgone, UInt8.or_zero]
  exact hback

/-- A digit that ends in the next byte has the first bits of that. -/
private theorem digit_eq_highBits (b next : UInt8) {index : Nat} (h3 : 3 < index) (h8 : index < 8) :
    digitWord b next index <<< (8 - (index + 5) % 8).toUInt8 =
      highBits next ((index + 5) % 8) := by
  obtain ⟨-, -, -, -, hlt⟩ := byte_shifts b
  obtain ⟨-, -, -, -, hnext⟩ := byte_shifts next
  obtain ⟨-, -, -, -, hgone, -⟩ := hlt index h8 h3
  obtain ⟨-, -, -, -, -, hhigh⟩ := hnext index h8 h3
  rw [digitWord_of_lt b next h3, UInt8.shiftLeft_or, hgone, UInt8.zero_or]
  exact hhigh

/-! ### Bytes -/

private theorem modify_append_cons (done : List UInt8) (b : UInt8) (rest : List UInt8)
    (f : UInt8 → UInt8) :
    (done ++ b :: rest).modify done.length f = done ++ f b :: rest := by
  induction done with
  | nil => rfl
  | cons c done ih => rw [List.length_cons, List.cons_append, List.modify_succ_cons, ih,
      List.cons_append]

/-- A digit of a byte that is not the last of it. -/
private theorem fromBase32Loop_within {b next : UInt8} {index : Nat} (h : index < 3)
    (src done rest : List UInt8) :
    fromBase32Loop (base32Digit b next index :: src) index done.length
        (done ++ highBits b index :: rest) =
      fromBase32Loop src (index + 5) done.length (done ++ highBits b (index + 5) :: rest) := by
  have hvalue := base32Value_digit b next (show index < 8 by omega)
  have hnext : (index + 5) % 8 = index + 5 := by omega
  rw [fromBase32Loop, if_neg hvalue.1, hvalue.2]
  dsimp only
  rw [if_pos (by omega), if_neg (by omega), modify_append_cons, highBits_or_digit b next h, hnext]

/-- The last digit of a byte. -/
private theorem fromBase32Loop_last {b : UInt8} {index : Nat} (h3 : 3 ≤ index) (h8 : index < 8)
    (bs : List UInt8) (src done : List UInt8) :
    fromBase32Loop (base32Digit b (bs.headD 0) index :: src) index done.length
        (done ++ highBits b index :: List.replicate bs.length 0) =
      if bs = [] then done ++ [b]
      else
        fromBase32Loop src ((index + 5) % 8) (done ++ [b]).length
          ((done ++ [b]) ++ highBits (bs.headD 0) ((index + 5) % 8) ::
            List.replicate bs.tail.length 0) := by
  have hvalue := base32Value_digit b (bs.headD 0) h8
  have hlast : (done.length + 1 = (done ++ b :: List.replicate bs.length 0).length) ↔ bs = [] := by
    rw [List.length_append, List.length_cons, List.length_replicate, ← List.length_eq_zero_iff]
    omega
  rw [fromBase32Loop, if_neg hvalue.1, hvalue.2]
  dsimp only
  by_cases hindex : index = 3
  · cases hindex
    rw [if_pos (Nat.le_refl 3), if_pos rfl, modify_append_cons, highBits_or_last]
    apply ite_congr (propext hlast)
    · intro hnil
      rw [hnil]
      rfl
    · intro hne
      obtain ⟨n, bs, rfl⟩ := List.exists_cons_of_ne_nil hne
      have hzero : highBits n 0 = 0 := highBits_zero n
      rw [List.length_append, List.append_assoc]
      dsimp only [List.headD_cons, List.tail_cons]
      rw [hzero]
      rfl
  · have h3 : 3 < index := by omega
    rw [if_neg (by omega), modify_append_cons, highBits_or_rest b _ h3 h8]
    apply ite_congr (propext hlast)
    · intro hnil
      rw [hnil]
      rfl
    · intro hne
      obtain ⟨n, bs, rfl⟩ := List.exists_cons_of_ne_nil hne
      have hmodify := modify_append_cons (done ++ [b]) 0 (List.replicate bs.length 0) fun c =>
        c ||| digitWord b n index <<< (8 - (index + 5) % 8).toUInt8
      rw [digit_eq_highBits b n h3 h8, UInt8.zero_or, List.length_append] at hmodify
      rw [List.headD_cons, List.tail_cons, digit_eq_highBits b n h3 h8, List.append_cons,
        List.length_append]
      exact congrArg (fromBase32Loop src _ _) hmodify

/-- From the high bits of a byte on, the digits give the byte and those behind it. -/
private theorem fromBase32Loop_toBase32Loop (bs : List UInt8) (b : UInt8) {index : Nat}
    (h : index < 8) (done : List UInt8) :
    fromBase32Loop (toBase32Loop (b :: bs) index) index done.length
        (done ++ highBits b index :: List.replicate bs.length 0) = done ++ b :: bs := by
  induction bs generalizing b index done with
  | nil =>
    rw [toBase32Loop]
    split
    · next h3 => exact fromBase32Loop_last h3 h [] _ done
    · next h3 =>
      rw [fromBase32Loop_within (by omega)]
      exact fromBase32Loop_last (by omega) (by omega) [] _ done
  | cons n bs ih =>
    rw [toBase32Loop]
    split
    · next h3 =>
      rw [fromBase32Loop_last h3 h, if_neg (List.cons_ne_nil n bs), List.headD_cons,
        List.tail_cons, ih n (Nat.mod_lt _ (by decide)), List.append_assoc]
      rfl
    · next h3 =>
      rw [fromBase32Loop_within (by omega), fromBase32Loop_last (by omega) (by omega),
        if_neg (List.cons_ne_nil n bs), List.headD_cons, List.tail_cons,
        show (index + 5 + 5) = index + 10 from rfl, ih n (Nat.mod_lt _ (by decide)),
        List.append_assoc]
      rfl

theorem length_fromBase32 (src : List UInt8) (len : Nat) : (fromBase32 src len).length = len := by
  have hloop : ∀ (src : List UInt8) (index offset : Nat) (dst : List UInt8),
      (fromBase32Loop src index offset dst).length = dst.length := by
    intro src
    induction src with
    | nil => exact fun _ _ _ => rfl
    | cons c src ih =>
      intro index offset dst
      rw [fromBase32Loop]
      split
      · rfl
      split
      · exact ih _ _ _
      dsimp only
      split
      · split
        · split
          · exact List.length_modify _ _ _
          · rw [ih, List.length_modify]
        · rw [ih, List.length_modify]
      · split
        · exact List.length_modify _ _ _
        · rw [ih, List.length_modify, List.length_modify]
  rw [fromBase32, hloop, List.length_replicate]

/-- The number of digits is the same for all texts of a length. -/
theorem length_toBase32 (bs : List UInt8) :
    (toBase32 bs).length = (toBase32 (List.replicate bs.length 0)).length := by
  have hloop : ∀ (bs : List UInt8) (index : Nat), (toBase32Loop bs index).length =
      (toBase32Loop (List.replicate bs.length 0) index).length := by
    intro bs
    induction bs with
    | nil => exact fun _ => rfl
    | cons b bs ih =>
      intro index
      rw [List.length_cons, List.replicate_succ, toBase32Loop, toBase32Loop]
      split
      · rw [List.length_cons, List.length_cons, ih]
      · rw [List.length_cons, List.length_cons, List.length_cons, List.length_cons, ih]
  exact hloop bs 0

/-- A text has digits of the alphabet only. -/
theorem mem_alphabet_of_mem_toBase32 {bs : List UInt8} {c : UInt8} (h : c ∈ toBase32 bs) :
    c ∈ base32Alphabet := by
  have hdigit : ∀ (b next : UInt8) {index : Nat}, index < 8 →
      base32Digit b next index ∈ base32Alphabet := by
    intro b next index hindex
    have hlt : (digitWord b next index).toNat < base32Alphabet.length := digitWord_lt b next hindex
    rw [base32Digit_eq, List.getD_eq_getElem _ _ hlt]
    exact List.getElem_mem hlt
  have hloop : ∀ (bs : List UInt8) (index : Nat), index < 8 →
      ∀ c ∈ toBase32Loop bs index, c ∈ base32Alphabet := by
    intro bs
    induction bs with
    | nil => exact fun _ _ _ hc => absurd hc List.not_mem_nil
    | cons b bs ih =>
      intro index hindex c hc
      rw [toBase32Loop] at hc
      split at hc
      · rcases List.mem_cons.mp hc with rfl | hc
        · exact hdigit b _ hindex
        · exact ih _ (Nat.mod_lt _ (by decide)) c hc
      · rcases List.mem_cons.mp hc with rfl | hc
        · exact hdigit b _ hindex
        · rcases List.mem_cons.mp hc with rfl | hc
          · exact hdigit b _ (by omega)
          · exact ih _ (Nat.mod_lt _ (by decide)) c hc
  exact hloop bs 0 (by decide) c h

/-- What is written is read back. -/
theorem fromBase32_toBase32 (bs : List UInt8) : fromBase32 (toBase32 bs) bs.length = bs := by
  cases bs with
  | nil => rfl
  | cons b bs =>
    have hloop := fromBase32Loop_toBase32Loop bs b (show 0 < 8 by decide) []
    rw [highBits_zero] at hloop
    exact hloop

/-! ### What is written -/

/-- `dst[offset] |= bits`; `none` where that is outside of `dst`. -/
def orByte (dst : List UInt8) (offset : Nat) (bits : UInt8) : Option (List UInt8) :=
  if offset < dst.length then some (dst.modify offset fun b => b ||| bits) else none

/-- The loop of `fromBase32` with what it puts into `*errorPtr`, if there is one. -/
def readBase32Loop (errorPtr : Bool) :
    List UInt8 → Nat → Nat → List UInt8 → Option (List UInt8 × Bool)
  | [], _, _, dst => some (dst, false)
  | c :: src, index, offset, dst =>
    if c = 0 then some (dst, false)
    else
      match base32Value c with
      | none => if errorPtr then some (dst, true) else readBase32Loop errorPtr src index offset dst
      | some tmp =>
        let next := (index + 5) % 8
        if index ≤ 3 then
          if next = 0 then
            match orByte dst offset tmp with
            | none => none
            | some dst =>
              if offset + 1 = dst.length then some (dst, false)
              else readBase32Loop errorPtr src next (offset + 1) dst
          else
            match orByte dst offset (tmp <<< (8 - next).toUInt8) with
            | none => none
            | some dst => readBase32Loop errorPtr src next offset dst
        else
          match orByte dst offset (tmp >>> next.toUInt8) with
          | none => none
          | some dst =>
            if offset + 1 = dst.length then some (dst, false)
            else
              match orByte dst (offset + 1) (tmp <<< (8 - next).toUInt8) with
              | none => none
              | some dst => readBase32Loop errorPtr src next (offset + 1) dst

/-- `fromBase32`, with its error; `none` where it writes behind the given length. -/
def readBase32 (errorPtr : Bool) (src : List UInt8) (len : Nat) : Option (List UInt8 × Bool) :=
  readBase32Loop errorPtr src 0 0 (List.replicate len 0)

/-- What is written is read back without error, it has as many characters as the bits need, all of
the alphabet, and nothing is written behind the given length. -/
def Base32Sound (errorPtr : Bool) (bytes src : List UInt8) (len : Nat) : Prop :=
  readBase32 errorPtr (toBase32 bytes) bytes.length = some (bytes, false) ∧
    (toBase32 bytes).length = (8 * bytes.length + 4) / 5 ∧
    (∀ c ∈ toBase32 bytes, c ∈ base32Alphabet) ∧
    readBase32 errorPtr src len ≠ none

/-- The characters that are looked at while there is no digit: those before the end of the text, and
of these the first one only where it is an error. -/
def beforeDigit (errorPtr : Bool) (src : List UInt8) : List UInt8 :=
  let text := src.takeWhile (· ≠ 0)
  if errorPtr then text.take 1 else text

theorem orByte_of_lt {dst : List UInt8} {offset : Nat} (h : offset < dst.length) (bits : UInt8) :
    orByte dst offset bits = some (dst.modify offset fun b => b ||| bits) := if_pos h

/-- Within the length every byte is written in place. -/
theorem readBase32Loop_of_lt (errorPtr : Bool) (src : List UInt8) {index offset : Nat}
    {dst : List UInt8} (h : offset < dst.length) :
    ∃ out, readBase32Loop errorPtr src index offset dst = some out ∧
      ((errorPtr = true → ∀ c ∈ src, base32Value c ≠ none) →
        out = (fromBase32Loop src index offset dst, false)) := by
  induction src generalizing index offset dst with
  | nil => exact ⟨_, rfl, fun _ => rfl⟩
  | cons c src ih =>
    rw [readBase32Loop, fromBase32Loop]
    by_cases hc : c = 0
    · rw [if_pos hc, if_pos hc]
      exact ⟨_, rfl, fun _ => rfl⟩
    rw [if_neg hc, if_neg hc]
    have hrest : ∀ {index offset : Nat} {dst : List UInt8}, offset < dst.length →
        ∃ out, readBase32Loop errorPtr src index offset dst = some out ∧
          ((errorPtr = true → ∀ a ∈ c :: src, base32Value a ≠ none) →
            out = (fromBase32Loop src index offset dst, false)) := by
      intro index offset dst hlt
      obtain ⟨out, hout, heq⟩ := ih hlt
      exact ⟨out, hout, fun hall => heq fun hptr a ha => hall hptr a (List.mem_cons_of_mem c ha)⟩
    cases hvalue : base32Value c with
    | none =>
      dsimp only
      split
      · next hptr =>
        exact ⟨_, rfl, fun hall => absurd hvalue (hall hptr c List.mem_cons_self)⟩
      · exact hrest h
    | some tmp =>
      dsimp only
      split
      · split
        · rw [orByte_of_lt h]
          dsimp only
          split
          · exact ⟨_, rfl, fun _ => rfl⟩
          · next hlast =>
            rw [List.length_modify] at hlast
            exact hrest (by rw [List.length_modify]; omega)
        · rw [orByte_of_lt h]
          exact hrest (by rwa [List.length_modify])
      · rw [orByte_of_lt h]
        dsimp only
        split
        · exact ⟨_, rfl, fun _ => rfl⟩
        · next hlast =>
          have hlt : offset + 1 < (dst.modify offset fun b =>
              b ||| tmp >>> ((index + 5) % 8).toUInt8).length := by
            rw [List.length_modify] at hlast ⊢
            omega
          rw [orByte_of_lt hlt]
          exact hrest (by rwa [List.length_modify])

/-- Without room, the first digit is written outside. -/
theorem readBase32Loop_nil (errorPtr : Bool) (src : List UInt8) :
    readBase32Loop errorPtr src 0 0 [] ≠ none ↔
      ∀ c ∈ beforeDigit errorPtr src, base32Value c = none := by
  unfold beforeDigit
  dsimp only
  induction src with
  | nil => exact iff_of_true nofun (by simp)
  | cons c src ih =>
    rw [readBase32Loop]
    by_cases hc : c = 0
    · rw [if_pos hc]
      exact iff_of_true nofun (by simp [hc])
    rw [if_neg hc, List.takeWhile_cons_of_pos (by simpa using hc)]
    cases hvalue : base32Value c with
    | none =>
      cases errorPtr with
      | true => exact iff_of_true nofun (by simpa using hvalue)
      | false =>
        change readBase32Loop false src 0 0 [] ≠ none ↔ _
        rw [ih]
        exact ⟨fun h ↦ List.forall_mem_cons.mpr ⟨hvalue, h⟩, fun h ↦ (List.forall_mem_cons.mp h).2⟩
    | some tmp =>
      refine iff_of_false (fun h => h rfl) fun h => ?_
      have hmem : c ∈ if errorPtr = true then (c :: src.takeWhile fun a => decide (a ≠ 0)).take 1
          else c :: src.takeWhile fun a => decide (a ≠ 0) := by
        cases errorPtr <;> exact List.mem_cons_self
      rw [h c hmem] at hvalue
      cases hvalue

/-- As many digits as the bits need. -/
theorem length_toBase32_eq (bs : List UInt8) : (toBase32 bs).length = (8 * bs.length + 4) / 5 := by
  have hloop : ∀ (bs : List UInt8) (index : Nat), index < 8 →
      (toBase32Loop bs index).length = (8 * bs.length - index + 4) / 5 := by
    intro bs
    induction bs with
    | nil =>
      intro index _
      rw [toBase32Loop, List.length_nil]
      omega
    | cons b bs ih =>
      intro index hindex
      rw [toBase32Loop, List.length_cons]
      have hrest := ih ((index + 5) % 8) (Nat.mod_lt _ (by decide))
      have hrest' := ih ((index + 10) % 8) (Nat.mod_lt _ (by decide))
      split
      · rw [List.length_cons, hrest]
        omega
      · rw [List.length_cons, List.length_cons, hrest']
        omega
  exact hloop bs 0 (by decide)

/-- A digit of the alphabet has a value. -/
private theorem base32Value_ne_none {c : UInt8} (h : c ∈ base32Alphabet) :
    base32Value c ≠ none := by
  obtain ⟨n, hn, rfl⟩ := List.mem_iff_getElem.mp h
  have hvalue := (base32Value_alphabet n hn).2
  rw [List.getD_eq_getElem _ _ hn] at hvalue
  rw [hvalue]
  nofun

/-- Everything holds exactly when there is room for a byte, or no digit is met. -/
theorem base32Sound_iff (errorPtr : Bool) (bytes src : List UInt8) (len : Nat) :
    Base32Sound errorPtr bytes src len ↔
      0 < len ∨ ∀ c ∈ beforeDigit errorPtr src, base32Value c = none := by
  have hback : readBase32 errorPtr (toBase32 bytes) bytes.length = some (bytes, false) := by
    cases bytes with
    | nil => rfl
    | cons b bs =>
      obtain ⟨out, hout, heq⟩ := readBase32Loop_of_lt errorPtr (toBase32 (b :: bs))
        (show 0 < (List.replicate (b :: bs).length (0 : UInt8)).length by simp)
      rw [readBase32, hout, heq fun _ c hc => base32Value_ne_none (mem_alphabet_of_mem_toBase32 hc)]
      exact congrArg (fun out => some (out, false)) (fromBase32_toBase32 (b :: bs))
  unfold Base32Sound
  rw [and_iff_right hback, and_iff_right (length_toBase32_eq bytes),
    and_iff_right fun c hc => mem_alphabet_of_mem_toBase32 hc]
  cases len with
  | zero =>
    rw [or_iff_right (Nat.lt_irrefl 0)]
    exact readBase32Loop_nil errorPtr src
  | succ n =>
    obtain ⟨out, hout, -⟩ := readBase32Loop_of_lt errorPtr src
      (show 0 < (List.replicate (n + 1) (0 : UInt8)).length by simp)
    refine iff_of_true ?_ (.inl (Nat.succ_pos n))
    rw [readBase32, hout]
    nofun

/-- A digit without room is written behind the end. -/
theorem not_base32Sound_empty : ¬ Base32Sound false [] (ascii "A") 0 := fun h =>
  h.2.2.2 (by decide)

end Blacklink.Text
