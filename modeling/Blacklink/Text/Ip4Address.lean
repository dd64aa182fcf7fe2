import Blacklink.Text.Numbers

/-!
# IPv4 addresses in texts

Model of `parseIpAddress` and `printIpAddress` (`client/Ip4Address.cpp:8-38, 66-71`), and of the
address ranges of `client/NetworkUtil.h:27-39`.
-/

namespace Blacklink.Text

/-- The loop of `parseIpAddress`. -/
def parseIpLoop (byte bytes : UInt32) (digitFound : Bool) (dotCount : Nat) :
    List UInt8 → Option UInt32
  | [] => if dotCount ≠ 3 ∨ digitFound = false then none else some (bytes <<< 8 ||| byte)
  | c :: s =>
    if '0'.toUInt8 ≤ c ∧ c ≤ '9'.toUInt8 then
      let byte := byte * 10 + (c - '0'.toUInt8).toUInt32
      if 255 < byte then none else parseIpLoop byte bytes true dotCount s
    else if c = '.'.toUInt8 then
      if digitFound = false ∨ dotCount + 1 = 4 then none
      else parseIpLoop 0 (bytes <<< 8 ||| byte) false (dotCount + 1) s
    else none

/-- `parseIpAddress`. -/
def parseIpAddress (s : List UInt8) : Option UInt32 := parseIpLoop 0 0 false 0 s

/-- `printIpAddress`. -/
def printIpAddress (addr : UInt32) : List UInt8 :=
  natToString (addr >>> 24).toNat ++ '.'.toUInt8 :: natToString ((addr >>> 16) &&& 0xff).toNat ++
    '.'.toUInt8 :: natToString ((addr >>> 8) &&& 0xff).toNat ++
    '.'.toUInt8 :: natToString (addr &&& 0xff).toNat

/-- `isPrivateIp`. -/
def isPrivateIp (ip : UInt32) : Bool :=
  ip &&& 0xff000000 = 0x0a000000 || ip &&& 0xffff0000 = 0xa9fe0000 ||
    ip &&& 0xfff00000 = 0xac100000 || ip &&& 0xffff0000 = 0xc0a80000 ||
    ip &&& 0xffc00000 = 0x64400000

/-- `isPublicIp`. -/
def isPublicIp (ip : UInt32) : Bool := !(isPrivateIp ip || ip &&& 0xff000000 = 0x7f000000)

private theorem parseIpLoop_of_no_dot {s : List UInt8} (h : '.'.toUInt8 ∉ s)
    (byte bytes : UInt32) (digitFound : Bool) :
    parseIpLoop byte bytes digitFound 0 s = none := by
  induction s generalizing byte digitFound with
  | nil => exact if_pos (.inl (by decide))
  | cons c s ih =>
    rw [List.mem_cons, not_or] at h
    rw [parseIpLoop]
    split
    · dsimp only
      split
      · rfl
      · exact ih h.2 _ _
    · rw [if_neg (Ne.symm h.1)]

/-- A text without dots is no address. -/
theorem parseIpAddress_of_no_dot {s : List UInt8} (h : '.'.toUInt8 ∉ s) :
    parseIpAddress s = none := parseIpLoop_of_no_dot h 0 0 false

theorem dot_not_mem_natToString (n : Nat) : '.'.toUInt8 ∉ natToString n := by
  intro h
  exact absurd (digit_of_mem_natToString h).1 (by decide)

/-- An address written as a number is not read back. -/
theorem parseIpAddress_natToString (n : Nat) : parseIpAddress (natToString n) = none :=
  parseIpAddress_of_no_dot (dot_not_mem_natToString n)

/-! ### Printed addresses -/

/-- The digits of a byte are read one by one. -/
private theorem parseIpLoop_digits {ds : List UInt8} (bytes : UInt32) (dotCount : Nat)
    (rest : List UInt8) (hds : ∀ c ∈ ds, '0'.toUInt8 ≤ c ∧ c ≤ '9'.toUInt8) (hne : ds ≠ [])
    (byte : Nat) (digitFound : Bool)
    (hvalue : ds.foldl (fun n c => n * 10 + (c.toNat - 0x30)) byte ≤ 255) :
    parseIpLoop (.ofNat byte) bytes digitFound dotCount (ds ++ rest) =
      parseIpLoop (.ofNat (ds.foldl (fun n c ↦ n * 10 + (c.toNat - 0x30)) byte)) bytes true dotCount
        rest := by
  have hgrow : ∀ (ds : List UInt8) (n : Nat),
      n ≤ ds.foldl (fun n c => n * 10 + (c.toNat - 0x30)) n := by
    intro ds
    induction ds with
    | nil => exact fun n => le_rfl
    | cons c ds ih => exact fun n => le_trans (by omega) (ih (n * 10 + (c.toNat - 0x30)))
  induction ds generalizing byte digitFound with
  | nil => exact absurd rfl hne
  | cons c ds ih =>
    rw [List.forall_mem_cons] at hds
    rw [List.foldl_cons] at hvalue ⊢
    have hbyte := (hgrow ds _).trans hvalue
    have hlow : 48 ≤ c.toNat := UInt8.le_iff_toNat_le.mp hds.1.1
    have hnext : UInt32.ofNat byte * 10 + (c - '0'.toUInt8).toUInt32 =
        UInt32.ofNat (byte * 10 + (c.toNat - 0x30)) := by
      have hc : (c - '0'.toUInt8).toNat = c.toNat - 48 := UInt8.toNat_sub_of_le _ _ hds.1.1
      apply UInt32.toNat_inj.mp
      rw [UInt32.toNat_add, UInt32.toNat_mul, UInt8.toNat_toUInt32, hc, UInt32.toNat_ofNat',
        UInt32.toNat_ofNat']
      change (byte % 2 ^ 32 * 10 % 2 ^ 32 + (c.toNat - 48)) % 2 ^ 32 = _
      omega
    rw [List.cons_append, parseIpLoop, if_pos hds.1]
    dsimp only
    rw [hnext]
    have hle : ¬ 255 < UInt32.ofNat (byte * 10 + (c.toNat - 0x30)) := by
      rw [UInt32.lt_iff_toNat_lt, UInt32.toNat_ofNat']
      change ¬ 255 < _
      omega
    rw [if_neg hle]
    cases ds with
    | nil => rfl
    | cons d ds => exact ih hds.2 (List.cons_ne_nil _ _) _ true hvalue

private theorem parseIpLoop_natToString {n : Nat} (h : n ≤ 255) (bytes : UInt32) (dotCount : Nat)
    (rest : List UInt8) :
    parseIpLoop 0 bytes false dotCount (natToString n ++ rest) =
      parseIpLoop (.ofNat n) bytes true dotCount rest := by
  have hvalue : (natToString n).foldl (fun n c => n * 10 + (c.toNat - 0x30)) 0 = n := by
    have hdigits := digitsValue_natToString_append n (s := []) (by simp)
    rwa [List.append_nil, digitsValue, List.takeWhile_eq_self_iff.mpr] at hdigits
    intro c hc
    obtain ⟨hlow, hhigh⟩ := digit_of_mem_natToString hc
    simp [hlow, hhigh]
  have hloop := parseIpLoop_digits bytes dotCount rest
    (fun c hc => digit_of_mem_natToString hc) (natToString_ne_nil n) 0 false
    (by rw [hvalue]; exact h)
  rw [hvalue] at hloop
  exact hloop

private theorem parseIpLoop_dot {byte bytes : UInt32} {dotCount : Nat} (h : dotCount < 3)
    (rest : List UInt8) :
    parseIpLoop byte bytes true dotCount ('.'.toUInt8 :: rest) =
      parseIpLoop 0 (bytes <<< 8 ||| byte) false (dotCount + 1) rest := by
  have hnot : ¬ (true = false ∨ dotCount + 1 = 4) := by
    rintro (h' | h')
    · cases h'
    · omega
  rw [parseIpLoop, if_neg (by decide), if_pos rfl, if_neg hnot]

private theorem toNat_shift_or (x : UInt32) {y : UInt32} (hy : y.toNat ≤ 255) :
    (x <<< 8 ||| y).toNat = x.toNat % 2 ^ 24 * 256 + y.toNat := by
  have hshift : (x <<< 8).toNat = (x.toNat % 2 ^ 24) <<< 8 := by
    rw [UInt32.toNat_shiftLeft]
    change x.toNat <<< 8 % 2 ^ 32 = _
    rw [Nat.shiftLeft_eq, Nat.shiftLeft_eq]
    omega
  rw [UInt32.toNat_or, hshift, shift_or (by omega : y.toNat < 2 ^ 8)]
  omega

/-- A printed address is read back. -/
theorem parseIpAddress_printIpAddress (addr : UInt32) :
    parseIpAddress (printIpAddress addr) = some addr := by
  have hand : ∀ n : UInt32, (n &&& 0xff).toNat = n.toNat % 256 := by
    intro n
    rw [UInt32.toNat_and]
    exact Nat.and_two_pow_sub_one_eq_mod n.toNat 8
  have hshift (k : Nat) (hk : k < 32) :
      (addr >>> UInt32.ofNat k).toNat = addr.toNat / 2 ^ k := by
    have hmod : k % 2 ^ 32 % 32 = k := by omega
    rw [UInt32.toNat_shiftRight, UInt32.toNat_ofNat', hmod, Nat.shiftRight_eq_div_pow]
  have hfirst : (addr >>> 24).toNat = addr.toNat / 2 ^ 24 := hshift 24 (by omega)
  have hsecond : ((addr >>> 16) &&& 0xff).toNat = addr.toNat / 2 ^ 16 % 256 := by
    rw [hand]
    exact congrArg (· % 256) (hshift 16 (by omega))
  have hthird : ((addr >>> 8) &&& 0xff).toNat = addr.toNat / 2 ^ 8 % 256 := by
    rw [hand]
    exact congrArg (· % 256) (hshift 8 (by omega))
  have hlast := hand addr
  have hlt := addr.toNat_lt
  have hnil := List.append_nil (natToString (addr &&& 0xff).toNat)
  unfold parseIpAddress printIpAddress
  rw [← hnil]
  simp only [List.append_assoc, List.cons_append]
  rw [parseIpLoop_natToString (by omega), parseIpLoop_dot (by omega),
    parseIpLoop_natToString (by omega), parseIpLoop_dot (by omega),
    parseIpLoop_natToString (by omega), parseIpLoop_dot (by omega),
    parseIpLoop_natToString (by omega), parseIpLoop, if_neg (by decide)]
  simp only [UInt32.ofNat_toNat]
  congr 1
  apply UInt32.toNat_inj.mp
  rw [toNat_shift_or _ (by omega), toNat_shift_or _ (by omega), toNat_shift_or _ (by omega),
    toNat_shift_or _ (by omega), hfirst, hsecond, hthird, hlast]
  change ((((0 % 2 ^ 24 * 256 + addr.toNat / 2 ^ 24) % 2 ^ 24 * 256 + addr.toNat / 2 ^ 16 % 256) %
    2 ^ 24 * 256 + addr.toNat / 2 ^ 8 % 256) % 2 ^ 24 * 256 + addr.toNat % 256) = addr.toNat
  omega

end Blacklink.Text
