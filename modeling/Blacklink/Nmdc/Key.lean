import Mathlib.Data.List.Chain
import Blacklink.Text.Utf8

/-!
# The key for a lock

Model of `NmdcHub::makeKeyFromLock` and of `keySubst` (`client/NmdcHub.cpp:2645-2707`), and the key
that the protocol asks for. `keySubst` makes room for ten more characters for each reserved byte,
which takes nine more, and returns what it has not filled as well.
-/

namespace Blacklink.Nmdc

open Blacklink.Text

/-- `isExtra`. -/
def isExtra (b : UInt8) : Bool := b = 0 || b = 5 || b = 124 || b = 96 || b = 126 || b = 36

/-- What `keySubst` writes for a byte. -/
def substChars (b : UInt8) : List UInt8 :=
  if isExtra b then
    ascii "/%DCN" ++ [0x30 + b / 100, 0x30 + b / 10 % 10, 0x30 + b % 10] ++ ascii "%/"
  else [b]

/-- `temp[j++] = c` for some characters; `none` where one of them is written outside of `temp`. -/
def writeChars : List UInt8 → List UInt8 × Nat → Option (List UInt8 × Nat)
  | [], s => some s
  | c :: cs, (temp, j) =>
    if j < temp.length then writeChars cs (temp.set j c, j + 1) else none

/-- The loop of `keySubst`. -/
def keySubstLoop : List UInt8 → List UInt8 × Nat → Option (List UInt8 × Nat)
  | [], s => some s
  | b :: key, s =>
    match writeChars (substChars b) s with
    | none => none
    | some s => keySubstLoop key s

/-- `keySubst`. -/
def keySubst (key : List UInt8) (n : Nat) : Option (List UInt8) :=
  (keySubstLoop key (List.replicate (key.length + n * 10) 0, 0)).map Prod.fst

/-- `((v1 >> 4) | (v1 << 4)) & 0xff`. -/
def swapNibbles (b : UInt8) : UInt8 := b >>> 4 ||| b <<< 4

/-- The loop of `makeKeyFromLock` behind a byte of the lock, with `temp` and `extra`. -/
def keyLoop : UInt8 → List UInt8 → List UInt8 × Nat → List UInt8 × Nat
  | _, [], s => s
  | prev, c :: lock, (temp, extra) =>
    let v1 := swapNibbles (c ^^^ prev)
    keyLoop c lock (temp ++ [v1], if isExtra v1 then extra + 1 else extra)

/-- `makeKeyFromLock`. -/
def makeKeyFromLock (lock : List UInt8) : Option (List UInt8) :=
  if lock.length < 3 ∨ 512 < lock.length then some []
  else
    let v1 := swapNibbles (lock.getD 0 0 ^^^ 5)
    let (temp, extra) := keyLoop (lock.getD 0 0) lock.tail ([v1], 0)
    let temp := temp.modify 0 (· ^^^ temp.getD (lock.length - 1) 0)
    keySubst temp (if isExtra (temp.getD 0 0) then extra + 1 else extra)

/-! ### The key of the protocol -/

/-- The bytes of the key behind the first one. -/
def laterBytes (lock : List UInt8) : List UInt8 :=
  List.zipWith (fun a b => swapNibbles (b ^^^ a)) lock lock.tail

/-- The bytes of the key; the first one is made of the first byte of the lock, 5 and the last of
the others. -/
def keyBytes (lock : List UInt8) : List UInt8 :=
  (swapNibbles (lock.headD 0 ^^^ 5) ^^^ (laterBytes lock).getLastD 0) :: laterBytes lock

/-- The key with its reserved bytes replaced. -/
def nmdcKey (lock : List UInt8) : List UInt8 := (keyBytes lock).flatMap substChars

/-- `makeKeyFromLock` returns the key, which has no reserved byte and nine more characters for each
that is replaced. -/
def MakesKey (lock : List UInt8) : Prop :=
  ∃ key, makeKeyFromLock lock = some key ∧ key = nmdcKey lock ∧ (∀ b ∈ key, isExtra b = false) ∧
    key.length = lock.length + 9 * (keyBytes lock).countP isExtra

/-- The bytes that are reserved when their nibbles are swapped. -/
def swappedExtra : List UInt8 := [0x00, 0x50, 0xc7, 0x06, 0xe7, 0x42]

/-- No two bytes of the lock that come together make a reserved byte, nor do the first and the last
two with 5. -/
def MakesNoExtra (lock : List UInt8) : Prop :=
  lock.IsChain (fun a b => b ^^^ a ∉ swappedExtra) ∧
    lock.headD 0 ^^^ 5 ^^^ (lock.getD (lock.length - 1) 0 ^^^ lock.getD (lock.length - 2) 0) ∉
      swappedExtra

/-! ### Substitution -/

theorem writeChars_append (cs done : List UInt8) {k : Nat} (h : cs.length ≤ k) :
    writeChars cs (done ++ List.replicate k 0, done.length) =
      some (done ++ cs ++ List.replicate (k - cs.length) 0, (done ++ cs).length) := by
  induction cs generalizing done k with
  | nil => rw [writeChars, List.append_nil, List.length_nil, Nat.sub_zero]
  | cons c cs ih =>
    rw [List.length_cons] at h
    obtain ⟨k, rfl⟩ : ∃ n, k = n + 1 := ⟨k - 1, by omega⟩
    have hset : (done ++ List.replicate (k + 1) 0).set done.length c =
        done ++ [c] ++ List.replicate k 0 := by
      rw [List.set_append_right _ _ (Nat.le_refl _), Nat.sub_self, List.replicate_succ,
        List.set_cons_zero, List.append_assoc, List.singleton_append]
    have hlen : done.length + 1 = (done ++ [c]).length := by simp
    rw [writeChars, if_pos (by simp), hset, hlen, ih _ (by omega), List.length_cons,
      Nat.add_sub_add_right, List.append_assoc done, List.singleton_append]

theorem length_substChars (b : UInt8) :
    (substChars b).length = if isExtra b then 10 else 1 := by
  unfold substChars
  split <;> rfl

theorem length_flatMap_substChars (key : List UInt8) :
    (key.flatMap substChars).length = key.length + 9 * key.countP isExtra := by
  induction key with
  | nil => rfl
  | cons b key ih =>
    rw [List.flatMap_cons, List.length_append, ih, length_substChars, List.length_cons,
      List.countP_cons]
    split <;> omega

theorem keySubstLoop_append (key done : List UInt8) {k : Nat}
    (h : (key.flatMap substChars).length ≤ k) :
    keySubstLoop key (done ++ List.replicate k 0, done.length) =
      some (done ++ key.flatMap substChars ++
        List.replicate (k - (key.flatMap substChars).length) 0,
        (done ++ key.flatMap substChars).length) := by
  induction key generalizing done k with
  | nil => rw [keySubstLoop, List.flatMap_nil, List.append_nil, List.length_nil, Nat.sub_zero]
  | cons b key ih =>
    rw [List.flatMap_cons, List.length_append] at h
    rw [keySubstLoop, writeChars_append _ _ (by omega)]
    dsimp only
    have hsum : k - (substChars b).length - (key.flatMap substChars).length
        = k - (substChars b ++ key.flatMap substChars).length := by
      rw [List.length_append, Nat.sub_sub]
    rw [ih _ (by omega), List.flatMap_cons, hsum, List.append_assoc done]

/-- The substituted bytes, and a zero for each that is replaced. -/
theorem keySubst_countP (key : List UInt8) :
    keySubst key (key.countP isExtra) =
      some (key.flatMap substChars ++ List.replicate (key.countP isExtra) 0) := by
  have hlen := length_flatMap_substChars key
  have hloop := keySubstLoop_append key [] (k := key.length + key.countP isExtra * 10) (by omega)
  rw [List.nil_append, List.nil_append, List.length_nil] at hloop
  have hrest : key.length + key.countP isExtra * 10 - (key.flatMap substChars).length =
      key.countP isExtra := by omega
  rw [keySubst, hloop, hrest]
  rfl

theorem isExtra_of_mem_substChars {b c : UInt8} (h : c ∈ substChars b) : isExtra c = false := by
  unfold substChars at h
  split at h
  · next hb =>
    have hall : ∀ b : UInt8, isExtra b = true → ∀ c ∈ ascii "/%DCN" ++
        [0x30 + b / 100, 0x30 + b / 10 % 10, 0x30 + b % 10] ++ ascii "%/", isExtra c = false := by
      intro b hb
      simp only [isExtra, Bool.or_eq_true, decide_eq_true_eq] at hb
      rcases hb with ((((rfl | rfl) | rfl) | rfl) | rfl) | rfl <;>
        simp [ascii, Char.toUInt8, isExtra]
    exact hall b hb c h
  · next hb =>
    rw [List.mem_singleton.mp h]
    exact Bool.eq_false_iff.mpr hb

/-! ### The bytes -/

theorem keyLoop_eq (lock : List UInt8) (prev : UInt8) (temp : List UInt8) (extra : Nat) :
    keyLoop prev lock (temp, extra) =
      (temp ++ laterBytes (prev :: lock), extra + (laterBytes (prev :: lock)).countP isExtra) := by
  induction lock generalizing prev temp extra with
  | nil => simp [keyLoop, laterBytes]
  | cons c lock ih =>
    have hcons : laterBytes (prev :: c :: lock) =
        swapNibbles (c ^^^ prev) :: laterBytes (c :: lock) := rfl
    rw [keyLoop, ih, hcons, List.append_assoc, List.singleton_append, List.countP_cons]
    congr 1
    split <;> omega

theorem length_laterBytes (lock : List UInt8) : (laterBytes lock).length = lock.length - 1 := by
  rw [laterBytes, List.length_zipWith, List.length_tail, Nat.min_eq_right (Nat.sub_le _ _)]

/-- What `makeKeyFromLock` returns. -/
theorem makeKeyFromLock_eq {lock : List UInt8} (hmin : 3 ≤ lock.length)
    (hmax : lock.length ≤ 512) :
    makeKeyFromLock lock =
      some (nmdcKey lock ++ List.replicate ((keyBytes lock).countP isExtra) 0) := by
  obtain ⟨a, lock, rfl⟩ := List.exists_cons_of_length_pos (Nat.lt_of_lt_of_le (by decide) hmin)
  have hlen := length_laterBytes (a :: lock)
  rw [List.length_cons] at hmin hlen
  have hlast : (laterBytes (a :: lock)).getLastD 0 =
      (swapNibbles (a ^^^ 5) :: laterBytes (a :: lock)).getD ((a :: lock).length - 1) 0 := by
    rw [List.length_cons, Nat.add_sub_cancel, List.getLastD_eq_getLast?, List.getLast?_eq_getElem?,
      ← List.getD_eq_getElem?_getD]
    obtain ⟨n, hn⟩ : ∃ n, lock.length = n + 1 := ⟨lock.length - 1, by omega⟩
    rw [hlen, hn, List.getD_cons_succ]
    rfl
  have hbytes : (swapNibbles (a ^^^ 5) :: laterBytes (a :: lock)).modify 0
      (· ^^^ (swapNibbles (a ^^^ 5) :: laterBytes (a :: lock)).getD ((a :: lock).length - 1) 0) =
        keyBytes (a :: lock) := by
    rw [← hlast]
    rfl
  have hcount : (if isExtra ((keyBytes (a :: lock)).getD 0 0) then
      0 + (laterBytes (a :: lock)).countP isExtra + 1
      else 0 + (laterBytes (a :: lock)).countP isExtra) =
        (keyBytes (a :: lock)).countP isExtra := by
    rw [keyBytes, List.countP_cons, List.getD_cons_zero]
    split <;> omega
  rw [makeKeyFromLock, if_neg (by rw [List.length_cons] at hmax ⊢; omega), List.getD_cons_zero,
    List.tail_cons]
  dsimp only
  rw [keyLoop_eq]
  dsimp only
  rw [List.singleton_append, hbytes, hcount, keySubst_countP]
  rfl

/-! ### Reserved bytes -/

theorem swapNibbles_swapNibbles (b : UInt8) : swapNibbles (swapNibbles b) = b := by
  apply UInt8.toBitVec_inj.mp
  ext i hi
  simp only [swapNibbles, UInt8.toBitVec_or, UInt8.toBitVec_shiftLeft, UInt8.toBitVec_shiftRight]
  simp
  grind

theorem swapNibbles_xor (a b : UInt8) :
    swapNibbles a ^^^ swapNibbles b = swapNibbles (a ^^^ b) := by
  apply UInt8.toBitVec_inj.mp
  ext i hi
  simp [swapNibbles]
  grind

private theorem isExtra_swapNibbles (b : UInt8) :
    isExtra (swapNibbles b) = true ↔ b ∈ swappedExtra := by
  have hswap : ∀ e, swapNibbles b = e ↔ b = swapNibbles e := fun e =>
    ⟨fun h => by rw [← h, swapNibbles_swapNibbles], fun h => by rw [h, swapNibbles_swapNibbles]⟩
  simp only [isExtra, Bool.or_eq_true, decide_eq_true_eq, hswap, swappedExtra, List.mem_cons,
    List.not_mem_nil, or_false, or_assoc]
  rfl

/-- The later bytes are not reserved. -/
private theorem laterBytes_plain_iff (lock : List UInt8) :
    (∀ b ∈ laterBytes lock, isExtra b = false) ↔
      lock.IsChain fun a b => b ^^^ a ∉ swappedExtra := by
  have hplain : ∀ b, isExtra (swapNibbles b) = false ↔ b ∉ swappedExtra := fun b => by
    rw [← isExtra_swapNibbles, Bool.not_eq_true]
  cases lock with
  | nil => exact iff_of_true nofun .nil
  | cons a lock =>
    induction lock generalizing a with
    | nil => exact iff_of_true nofun (.singleton a)
    | cons b lock ih =>
      have hcons : laterBytes (a :: b :: lock) =
          swapNibbles (b ^^^ a) :: laterBytes (b :: lock) := rfl
      rw [hcons, List.forall_mem_cons, List.isChain_cons_cons]
      exact and_congr (hplain _) (ih b)

/-- The last of the later bytes. -/
private theorem getLastD_laterBytes {lock : List UInt8} (h : 2 ≤ lock.length) :
    (laterBytes lock).getLastD 0 =
      swapNibbles (lock.getD (lock.length - 1) 0 ^^^ lock.getD (lock.length - 2) 0) := by
  have hlast : lock.length - 1 - 1 < (laterBytes lock).length := by
    rw [length_laterBytes]
    omega
  have hnext : lock.length - 1 - 1 + 1 = lock.length - 1 := by omega
  rw [List.getLastD_eq_getLast?, List.getLast?_eq_getElem?, length_laterBytes,
    List.getElem?_eq_getElem hlast, Option.getD_some, List.getD_eq_getElem?_getD,
    List.getD_eq_getElem?_getD, List.getElem?_eq_getElem (by omega),
    List.getElem?_eq_getElem (by omega), Option.getD_some, Option.getD_some]
  simp only [laterBytes, List.getElem_zipWith, List.getElem_tail, hnext]
  rfl

/-- A byte of the key is reserved exactly when two bytes of the lock make one. -/
theorem keyBytes_plain_iff {lock : List UInt8} (h : 2 ≤ lock.length) :
    (∀ b ∈ keyBytes lock, isExtra b = false) ↔ MakesNoExtra lock := by
  rw [keyBytes, List.forall_mem_cons, laterBytes_plain_iff, getLastD_laterBytes h,
    swapNibbles_xor, Bool.eq_false_iff, Ne, isExtra_swapNibbles, and_comm]
  rfl

/-- The key is made exactly when nothing in it is replaced. -/
theorem makesKey_iff (lock : List UInt8) (hmin : 3 ≤ lock.length) (hmax : lock.length ≤ 512) :
    MakesKey lock ↔ MakesNoExtra lock := by
  have hplain := keyBytes_plain_iff (show 2 ≤ lock.length by omega)
  have hcount : (keyBytes lock).countP isExtra = 0 ↔ MakesNoExtra lock := by
    rw [← hplain, List.countP_eq_zero]
    simp only [Bool.not_eq_true]
  unfold MakesKey
  rw [makeKeyFromLock_eq hmin hmax, ← hcount]
  constructor
  · rintro ⟨key, hkey, hnmdc, -⟩
    have hlen := congrArg List.length (hnmdc.symm.trans (Option.some.inj hkey).symm)
    rw [List.length_append, List.length_replicate] at hlen
    omega
  · intro hzero
    refine ⟨_, rfl, ?_, fun b hb => ?_, ?_⟩
    · rw [hzero, List.replicate_zero, List.append_nil]
    · rw [hzero, List.replicate_zero, List.append_nil] at hb
      obtain ⟨c, -, hc⟩ := List.mem_flatMap.mp hb
      exact isExtra_of_mem_substChars hc
    · rw [hzero, List.replicate_zero, List.append_nil, nmdcKey, length_flatMap_substChars, hzero,
        keyBytes, List.length_cons, length_laterBytes]
      omega

/-- A lock whose key has no reserved byte. -/
theorem makesKey_plain : MakesKey [0x41, 0x43, 0x46] :=
  (makesKey_iff _ (by decide) (by decide)).mpr ⟨by decide, by decide⟩

/-- The key for three equal bytes ends with two zero bytes. -/
theorem not_makesKey_equal : ¬ MakesKey [0x41, 0x41, 0x41] := by
  rintro ⟨key, hkey, hnmdc, -⟩
  have hlen : (makeKeyFromLock [0x41, 0x41, 0x41]).map List.length =
      some (nmdcKey [0x41, 0x41, 0x41]).length := by
    rw [hkey, hnmdc]
    rfl
  revert hlen
  decide

end Blacklink.Nmdc
