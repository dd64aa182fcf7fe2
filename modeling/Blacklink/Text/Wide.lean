import Mathlib.Algebra.GroupWithZero.Nat
import Mathlib.Data.UInt
import Blacklink.Text.ToLower

/-!
# Wide characters

Model of `Text::utf8ToWide` and `wideToUtf8` (`client/Text.cpp:272-364, 465-541`) for a `wchar_t`
of two bytes and for one of four. Each has a first pass for the size of the target and a second one
that writes it; the bytes of the second pass for four bytes are those of `Text.ToLower`. The
two passes agree on every input, so that all of the target is written and nothing else, and the
conversions are inverse to each other on well-formed texts.
-/

namespace Blacklink.Text

section Target

variable {W : Type} [Zero W]

/-- `tgt.resize(size)`. -/
def resize (tgt : List W) (size : Nat) : List W :=
  tgt.take size ++ List.replicate (size - tgt.length) 0

/-- The target when `units` have been written from its start on; `none` when they do not fit. -/
def overwrite (tgt units : List W) : Option (List W) :=
  if units.length ≤ tgt.length then some (units ++ tgt.drop units.length) else none

/-- The target behind both passes, of which the first has counted `size`. -/
def convertInto (tgt : List W) (size : Nat) (units : List W) : Option (List W) :=
  if size = 0 then some [] else overwrite (resize tgt size) units

/-- Where the passes agree, the target is what the second one has written. -/
theorem convertInto_eq (tgt : List W) {size : Nat} {units : List W} (h : units.length = size) :
    convertInto tgt size units = some units := by
  unfold convertInto
  split
  · next hzero => rw [List.eq_nil_of_length_eq_zero (h.trans hzero)]
  · have hlen : (resize tgt size).length = units.length := by
      rw [resize, List.length_append, List.length_take, List.length_replicate]
      omega
    rw [overwrite, if_pos (by omega), List.drop_eq_nil_of_le (by omega), List.append_nil]

end Target

/-! ### A `wchar_t` of four bytes -/

namespace Wide4

/-- The first pass of `utf8ToWide`, of the bytes from `i` on. -/
def sizeLoop : Nat → List UInt8 → Nat
  | 0, _ => 0
  | n + 1, s =>
    match s with
    | [] => 0
    | _ :: _ =>
      match utf8ToWc s with
      | .error k => 1 + sizeLoop n (s.drop k)
      | .ok k => 1 + sizeLoop n (s.drop k)

/-- The units that the first pass of `utf8ToWide` counts. -/
def size (s : List UInt8) : Nat := sizeLoop s.length s

/-- `utf8ToWide`. -/
def utf8ToWide (tgt : List Nat) (s : List UInt8) : Option (List Nat) :=
  convertInto tgt (size s) (Text.utf8ToWide s)

/-- The bytes that the first pass of `wideToUtf8` counts. -/
def utf8Size (ws : List Nat) : Nat :=
  (ws.map fun value => (wcToUtf8 (if value < 0x110000 then value else errorChar)).length).sum

/-- `wideToUtf8`. -/
def wideToUtf8 (tgt : List UInt8) (ws : List Nat) : Option (List UInt8) :=
  convertInto tgt (utf8Size ws) (Text.wideToUtf8 ws)

theorem length_loop (n : Nat) (s : List UInt8) :
    (utf8ToWideLoop n s).length = sizeLoop n s := by
  induction n generalizing s with
  | zero => rfl
  | succ n ih =>
    cases s with
    | nil => rfl
    | cons c cs =>
      simp only [utf8ToWideLoop, sizeLoop]
      cases utf8ToWc (c :: cs) with
      | error k => rw [List.length_cons, ih, Nat.add_comm]
      | ok k => rw [List.length_cons, ih, Nat.add_comm]

theorem length_wideToUtf8 (ws : List Nat) : (Text.wideToUtf8 ws).length = utf8Size ws := by
  rw [Text.wideToUtf8, List.length_flatMap, utf8Size]

theorem utf8ToWide_eq (tgt : List Nat) (s : List UInt8) :
    utf8ToWide tgt s = some (Text.utf8ToWide s) := convertInto_eq tgt (length_loop s.length s)

theorem wideToUtf8_eq (tgt : List UInt8) (ws : List Nat) :
    wideToUtf8 tgt ws = some (Text.wideToUtf8 ws) := convertInto_eq tgt (length_wideToUtf8 ws)

end Wide4

/-! ### A `wchar_t` of two bytes -/

namespace Wide2

/-- The first pass of `utf8ToWide`, of the bytes from `i` on. -/
def sizeLoop : Nat → List UInt8 → Nat
  | 0, _ => 0
  | n + 1, s =>
    match s with
    | [] => 0
    | _ :: _ =>
      match utf8ToWc s with
      | .error k => 1 + sizeLoop n (s.drop k)
      | .ok k => (if 0x10000 ≤ wcValue s then 2 else 1) + sizeLoop n (s.drop k)

/-- The units that the first pass of `utf8ToWide` counts. -/
def size (s : List UInt8) : Nat := sizeLoop s.length s

/-- The units that the second pass writes for a character. -/
def unitsOf (wc : Nat) : List UInt16 :=
  if 0x10000 ≤ wc then
    [(0xd800 ||| (wc - 0x10000) >>> 10).toUInt16, (0xdc00 ||| (wc - 0x10000) &&& 0x3ff).toUInt16]
  else [wc.toUInt16]

/-- The second pass of `utf8ToWide`, of the bytes from `i` on. -/
def unitsLoop : Nat → List UInt8 → List UInt16
  | 0, _ => []
  | n + 1, s =>
    match s with
    | [] => []
    | _ :: _ =>
      match utf8ToWc s with
      | .error k => errorChar.toUInt16 :: unitsLoop n (s.drop k)
      | .ok k => unitsOf (wcValue s) ++ unitsLoop n (s.drop k)

/-- What the second pass of `utf8ToWide` writes. -/
def units (s : List UInt8) : List UInt16 := unitsLoop s.length s

/-- `utf8ToWide`. -/
def utf8ToWide (tgt : List UInt16) (s : List UInt8) : Option (List UInt16) :=
  convertInto tgt (size s) (units s)

/-- The character of two surrogates. -/
def paired (highSurrogate value : Nat) : Nat :=
  (value - 0xdc00 ||| (highSurrogate - 0xd800) <<< 10) + 0x10000

/-- The first pass of `wideToUtf8` with `highSurrogate`, from a unit on. -/
def utf8SizeLoop : Nat → List UInt16 → Nat
  | highSurrogate, [] => if highSurrogate ≠ 0 then (wcToUtf8 errorChar).length else 0
  | highSurrogate, c :: str =>
    let value := c.toNat
    if 0xd800 ≤ value ∧ value < 0xdc00 then
      (if highSurrogate ≠ 0 then (wcToUtf8 errorChar).length else 0) + utf8SizeLoop value str
    else if 0xdc00 ≤ value ∧ value < 0xe000 then
      if highSurrogate = 0 then (wcToUtf8 errorChar).length + utf8SizeLoop highSurrogate str
      else (wcToUtf8 (paired highSurrogate value)).length + utf8SizeLoop 0 str
    else if highSurrogate ≠ 0 then
      (wcToUtf8 errorChar).length + ((wcToUtf8 value).length + utf8SizeLoop 0 str)
    else (wcToUtf8 value).length + utf8SizeLoop highSurrogate str

/-- The second pass of `wideToUtf8` with `highSurrogate`, from a unit on. -/
def bytesLoop : Nat → List UInt16 → List UInt8
  | highSurrogate, [] => if highSurrogate ≠ 0 then wcToUtf8 errorChar else []
  | highSurrogate, c :: str =>
    let value := c.toNat
    if 0xd800 ≤ value ∧ value < 0xdc00 then
      (if highSurrogate ≠ 0 then wcToUtf8 errorChar else []) ++ bytesLoop value str
    else if 0xdc00 ≤ value ∧ value < 0xe000 then
      if highSurrogate = 0 then wcToUtf8 errorChar ++ bytesLoop highSurrogate str
      else wcToUtf8 (paired highSurrogate value) ++ bytesLoop 0 str
    else if highSurrogate ≠ 0 then
      wcToUtf8 errorChar ++ (wcToUtf8 value ++ bytesLoop 0 str)
    else wcToUtf8 value ++ bytesLoop highSurrogate str

/-- `wideToUtf8`. -/
def wideToUtf8 (tgt : List UInt8) (str : List UInt16) : Option (List UInt8) :=
  convertInto tgt (utf8SizeLoop 0 str) (bytesLoop 0 str)

/-! #### The two passes agree -/

theorem length_unitsOf (wc : Nat) : (unitsOf wc).length = if 0x10000 ≤ wc then 2 else 1 := by
  unfold unitsOf
  split <;> rfl

theorem length_unitsLoop (n : Nat) (s : List UInt8) :
    (unitsLoop n s).length = sizeLoop n s := by
  induction n generalizing s with
  | zero => rfl
  | succ n ih =>
    cases s with
    | nil => rfl
    | cons c cs =>
      simp only [unitsLoop, sizeLoop]
      cases utf8ToWc (c :: cs) with
      | error k => rw [List.length_cons, ih, Nat.add_comm]
      | ok k => rw [List.length_append, ih, length_unitsOf]

theorem length_bytesLoop (highSurrogate : Nat) (str : List UInt16) :
    (bytesLoop highSurrogate str).length = utf8SizeLoop highSurrogate str := by
  induction str generalizing highSurrogate with
  | nil =>
    unfold bytesLoop utf8SizeLoop
    split <;> rfl
  | cons c str ih =>
    simp only [bytesLoop, utf8SizeLoop]
    split
    · rw [List.length_append, ih]
      split <;> rfl
    split
    · split
      · rw [List.length_append, ih]
      · rw [List.length_append, ih]
    split
    · rw [List.length_append, List.length_append, ih]
    · rw [List.length_append, ih]

theorem utf8ToWide_eq (tgt : List UInt16) (s : List UInt8) :
    utf8ToWide tgt s = some (units s) := convertInto_eq tgt (length_unitsLoop s.length s)

theorem wideToUtf8_eq (tgt : List UInt8) (str : List UInt16) :
    wideToUtf8 tgt str = some (bytesLoop 0 str) := convertInto_eq tgt (length_bytesLoop 0 str)

end Wide2

/-! ### Well-formed texts -/

/-- `wcToUtf8` encodes a character. -/
theorem wcToUtf8_char (ch : Char) : wcToUtf8 ch.val.toNat = String.utf8EncodeChar ch := by
  have hvalid : ch.val.toNat < 0xd800 ∨ 0xdfff < ch.val.toNat ∧ ch.val.toNat < 0x110000 := ch.valid
  have hbyte : ∀ n : Nat, n.toUInt8 = UInt8.ofNat n := fun _ => rfl
  rw [wcToUtf8_eq (by omega)]
  simp only [String.utf8EncodeChar, hbyte]
  generalize ch.val.toNat = v at hvalid
  by_cases h1 : v < 0x80
  · rw [if_pos h1, if_pos (by omega)]
  by_cases h2 : v < 0x800
  · have hhead : v / 64 % 32 + 192 = 0xc0 + v / 64 := by omega
    rw [if_neg h1, if_pos h2, if_neg (by omega), if_pos (by omega), hhead, Nat.add_comm _ 128]
  by_cases h3 : v < 0x10000
  · have hhead : v / 4096 % 16 + 224 = 0xe0 + v / 4096 := by omega
    rw [if_neg h1, if_neg h2, if_pos h3, if_neg (by omega), if_neg (by omega), if_pos (by omega),
      hhead, Nat.add_comm _ 128, Nat.add_comm _ 128]
  · have hhead : v / 262144 % 8 + 240 = 0xf0 + v / 262144 := by omega
    rw [if_neg h1, if_neg h2, if_neg h3, if_neg (by omega), if_neg (by omega), if_neg (by omega),
      hhead, Nat.add_comm _ 128, Nat.add_comm _ 128, Nat.add_comm _ 128]

/-- The well-formed texts are those of characters. -/
theorem isUtf8_iff (s : List UInt8) :
    IsUtf8 s ↔ ∃ vs, (∀ v ∈ vs, IsScalar v) ∧ s = wideToUtf8 vs := by
  constructor
  · rintro ⟨cs, rfl⟩
    refine ⟨cs.map fun ch => ch.val.toNat, ?_, ?_⟩
    · intro v hv
      obtain ⟨ch, -, rfl⟩ := List.mem_map.mp hv
      exact ch.valid
    · induction cs with
      | nil => rfl
      | cons ch cs ih =>
        rw [List.flatMap_cons, List.map_cons, wideToUtf8_cons ch.valid, wcToUtf8_char, ih]
  · rintro ⟨vs, hvs, rfl⟩
    induction vs with
    | nil => exact ⟨[], rfl⟩
    | cons v vs ih =>
      have hv := hvs v List.mem_cons_self
      obtain ⟨cs, hcs⟩ := ih fun w hw => hvs w (List.mem_cons_of_mem v hw)
      obtain ⟨ch, hch⟩ := exists_char_of_isChar (isChar_wcToUtf8 hv)
      refine ⟨ch :: cs, ?_⟩
      rw [wideToUtf8_cons hv, hcs, hch, List.flatMap_cons]

/-- A well-formed text is that of its characters. -/
theorem wideToUtf8_utf8ToWide {s : List UInt8} (h : IsUtf8 s) : wideToUtf8 (utf8ToWide s) = s := by
  obtain ⟨vs, hvs, rfl⟩ := (isUtf8_iff s).mp h
  rw [utf8ToWide_wideToUtf8 hvs]

/-- The characters put in for any bytes are those of a well-formed text. -/
theorem isUtf8_wideToUtf8_utf8ToWide (s : List UInt8) : IsUtf8 (wideToUtf8 (utf8ToWide s)) :=
  (isUtf8_iff _).mpr ⟨utf8ToWide s, isScalar_utf8ToWide s, rfl⟩

namespace Wide2

/-! #### Surrogates -/

theorem unitsOf_high {v : Nat} (h : 0x10000 ≤ v) (hv : v < 0x110000) :
    ∃ high low : UInt16, unitsOf v = [high, low] ∧
      high.toNat = 0xd800 + (v - 0x10000) / 1024 ∧ low.toNat = 0xdc00 + (v - 0x10000) % 1024 := by
  refine ⟨_, _, if_pos h, ?_, ?_⟩
  · rw [Nat.shiftRight_eq_div_pow]
    have hor : 0xd800 ||| (v - 0x10000) / 2 ^ 10 = 0xd800 + (v - 0x10000) / 2 ^ 10 :=
      or_low (i := 10) (by omega) 54
    rw [hor, Nat.toUInt16, UInt16.toNat_ofNat']
    omega
  · have hand : (v - 0x10000) &&& 0x3ff = (v - 0x10000) % 1024 :=
      Nat.and_two_pow_sub_one_eq_mod (v - 0x10000) 10
    have hor : 0xdc00 ||| (v - 0x10000) % 1024 = 0xdc00 + (v - 0x10000) % 1024 :=
      or_low (i := 10) (by omega) 55
    rw [hand, hor, Nat.toUInt16, UInt16.toNat_ofNat', Nat.mod_eq_of_lt (by omega)]

/-- The character of the two surrogates of its number. -/
theorem paired_eq (a : Nat) {b : Nat} (hb : b < 1024) :
    paired (0xd800 + a) (0xdc00 + b) = 0x10000 + 1024 * a + b := by
  have hor : b ||| a <<< 10 = 1024 * a + b := by
    rw [Nat.or_comm, shift_or (i := 10) hb]
    omega
  rw [paired, Nat.add_sub_cancel_left, Nat.add_sub_cancel_left, hor]
  omega

/-- The units of a character, then those of a text. -/
theorem bytesLoop_unitsOf {v : Nat} (h : IsScalar v) (str : List UInt16) :
    bytesLoop 0 (unitsOf v ++ str) = wcToUtf8 v ++ bytesLoop 0 str := by
  unfold IsScalar at h
  by_cases hhigh : 0x10000 ≤ v
  · obtain ⟨high, low, hunits, hh, hl⟩ := unitsOf_high hhigh (by omega)
    have hpair : paired high.toNat low.toNat = v := by
      rw [hh, hl, paired_eq _ (by omega)]
      omega
    rw [hunits, List.cons_append, List.singleton_append]
    simp only [bytesLoop]
    rw [if_pos (by omega), if_neg (by decide), List.nil_append, if_neg (by omega),
      if_pos (by omega), if_neg (by omega), hpair]
  · have hv : (v.toUInt16).toNat = v := by
      rw [Nat.toUInt16, UInt16.toNat_ofNat', Nat.mod_eq_of_lt (by omega)]
    rw [unitsOf, if_neg hhigh, List.singleton_append]
    simp only [bytesLoop, hv]
    rw [if_neg (by omega), if_neg (by omega), if_neg (by decide)]

/-- The units of characters are their bytes. -/
theorem bytesLoop_flatMap {vs : List Nat} (h : ∀ v ∈ vs, IsScalar v) :
    bytesLoop 0 (vs.flatMap unitsOf) = Text.wideToUtf8 vs := by
  induction vs with
  | nil => rfl
  | cons v vs ih =>
    have hv := h v List.mem_cons_self
    rw [List.flatMap_cons, bytesLoop_unitsOf hv, wideToUtf8_cons hv,
      ih fun w hw => h w (List.mem_cons_of_mem v hw)]

/-- The units are those of the characters that are read. -/
theorem unitsLoop_eq (n : Nat) (s : List UInt8) :
    unitsLoop n s = (utf8ToWideLoop n s).flatMap unitsOf := by
  induction n generalizing s with
  | zero => rfl
  | succ n ih =>
    cases s with
    | nil => rfl
    | cons c cs =>
      simp only [unitsLoop, utf8ToWideLoop]
      cases utf8ToWc (c :: cs) with
      | error k =>
        dsimp only
        rw [List.flatMap_cons, ih]
        rfl
      | ok k =>
        dsimp only
        rw [List.flatMap_cons, ih]

/-- Units of which surrogates stand in pairs only, a high one before a low one. -/
inductive IsUtf16 : List UInt16 → Prop where
  | nil : IsUtf16 []
  | single {c : UInt16} {str : List UInt16} : c.toNat < 0xd800 ∨ 0xdfff < c.toNat → IsUtf16 str →
    IsUtf16 (c :: str)
  | pair {high low : UInt16} {str : List UInt16} : 0xd800 ≤ high.toNat → high.toNat < 0xdc00 →
    0xdc00 ≤ low.toNat → low.toNat < 0xe000 → IsUtf16 str → IsUtf16 (high :: low :: str)

/-- Such units are those of characters. -/
theorem IsUtf16.exists_scalars {str : List UInt16} (h : IsUtf16 str) :
    ∃ vs : List Nat, (∀ v ∈ vs, IsScalar v) ∧ str = vs.flatMap unitsOf := by
  induction h with
  | nil => exact ⟨[], by simp, rfl⟩
  | @single c str hc hstr ih =>
    obtain ⟨vs, hvs, rfl⟩ := ih
    have hlt := c.toNat_lt
    refine ⟨c.toNat :: vs, ?_, ?_⟩
    · rw [List.forall_mem_cons]
      exact ⟨hc.imp_right fun h => ⟨h, by omega⟩, hvs⟩
    · rw [List.flatMap_cons, unitsOf, if_neg (by omega), Nat.toUInt16, UInt16.ofNat_toNat,
        List.singleton_append]
  | @pair high low str hh hh' hl hl' hstr ih =>
    obtain ⟨vs, hvs, rfl⟩ := ih
    obtain ⟨v, hval⟩ : ∃ v, v = 0x10000 + 1024 * (high.toNat - 0xd800) + (low.toNat - 0xdc00) :=
      ⟨_, rfl⟩
    obtain ⟨high', low', hunits, hhigh, hlow⟩ := unitsOf_high (v := v) (by omega) (by omega)
    have heq : high' = high := UInt16.toNat_inj.mp (by omega)
    have heq' : low' = low := UInt16.toNat_inj.mp (by omega)
    refine ⟨v :: vs, ?_, ?_⟩
    · rw [List.forall_mem_cons]
      exact ⟨.inr ⟨by omega, by omega⟩, hvs⟩
    · rw [List.flatMap_cons, hunits, heq, heq']
      rfl

end Wide2

/-! ### The conversions -/

/-- A pair of conversions whose passes agree, and that lose nothing of well-formed texts. -/
structure Converts {W : Type} (size : List UInt8 → Nat) (units : List UInt8 → List W)
    (toWide : List W → List UInt8 → Option (List W))
    (toUtf8 : List UInt8 → List W → Option (List UInt8)) (WellFormed : List W → Prop) : Prop where
  length_units : ∀ s, (units s).length = size s
  toWide_eq : ∀ tgt s, toWide tgt s = some (units s)
  keeps_utf8 : ∀ s, IsUtf8 s → ∀ tgt tgt', (toWide tgt s).bind (toUtf8 tgt') = some s
  isUtf8 : ∀ s tgt tgt', ∃ s', (toWide tgt s).bind (toUtf8 tgt') = some s' ∧ IsUtf8 s'
  keeps_wide : ∀ w, WellFormed w → ∀ tgt tgt', (toUtf8 tgt' w).bind (toWide tgt) = some w

theorem Wide4.converts :
    Converts Wide4.size Text.utf8ToWide Wide4.utf8ToWide Wide4.wideToUtf8
      (fun ws => ∀ v ∈ ws, IsScalar v) where
  length_units s := Wide4.length_loop s.length s
  toWide_eq := Wide4.utf8ToWide_eq
  keeps_utf8 s h tgt tgt' := by
    rw [Wide4.utf8ToWide_eq, Option.bind_some, Wide4.wideToUtf8_eq, wideToUtf8_utf8ToWide h]
  isUtf8 s tgt tgt' := by
    rw [Wide4.utf8ToWide_eq, Option.bind_some, Wide4.wideToUtf8_eq]
    exact ⟨_, rfl, isUtf8_wideToUtf8_utf8ToWide s⟩
  keeps_wide ws h tgt tgt' := by
    rw [Wide4.wideToUtf8_eq, Option.bind_some, Wide4.utf8ToWide_eq, utf8ToWide_wideToUtf8 h]

theorem Wide2.converts :
    Converts Wide2.size Wide2.units Wide2.utf8ToWide Wide2.wideToUtf8 Wide2.IsUtf16 := by
  have hunits : ∀ s, Wide2.units s = (Text.utf8ToWide s).flatMap Wide2.unitsOf :=
    fun s => Wide2.unitsLoop_eq s.length s
  have hbytes : ∀ s, Wide2.bytesLoop 0 (Wide2.units s) = Text.wideToUtf8 (Text.utf8ToWide s) := by
    intro s
    rw [hunits, Wide2.bytesLoop_flatMap (isScalar_utf8ToWide s)]
  constructor
  case length_units => exact fun s => Wide2.length_unitsLoop s.length s
  case toWide_eq => exact Wide2.utf8ToWide_eq
  case keeps_utf8 =>
    intro s h tgt tgt'
    rw [Wide2.utf8ToWide_eq, Option.bind_some, Wide2.wideToUtf8_eq, hbytes,
      wideToUtf8_utf8ToWide h]
  case isUtf8 =>
    intro s tgt tgt'
    rw [Wide2.utf8ToWide_eq, Option.bind_some, Wide2.wideToUtf8_eq, hbytes]
    exact ⟨_, rfl, isUtf8_wideToUtf8_utf8ToWide s⟩
  case keeps_wide =>
    intro w h tgt tgt'
    obtain ⟨vs, hvs, rfl⟩ := h.exists_scalars
    rw [Wide2.wideToUtf8_eq, Option.bind_some, Wide2.bytesLoop_flatMap hvs, Wide2.utf8ToWide_eq,
      hunits, utf8ToWide_wideToUtf8 hvs]

/-- `validateUtf8` takes the well-formed texts, and the conversions to wide characters of either
size and back agree in their passes and keep what is well-formed. -/
theorem utf8_conversions :
    (∀ s, validateUtf8 s = true ↔ IsUtf8 s) ∧
      Converts Wide2.size Wide2.units Wide2.utf8ToWide Wide2.wideToUtf8 Wide2.IsUtf16 ∧
      Converts Wide4.size Text.utf8ToWide Wide4.utf8ToWide Wide4.wideToUtf8
        (fun ws => ∀ v ∈ ws, IsScalar v) :=
  ⟨validateUtf8_iff, Wide2.converts, Wide4.converts⟩

end Blacklink.Text
