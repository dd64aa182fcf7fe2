import Mathlib.Data.List.Zip
import Mathlib.Logic.Equiv.Basic
import Blacklink.Base.Pieces

/-!
# Cipher block chaining

A block cipher is known by what decryption undoes. In a chain each block is combined with the
encryption of the one before it, the first one with an initial vector, by exclusive or.
-/

namespace Blacklink.Base

/-- A cipher on blocks of `n` bytes. -/
structure BlockCipher (κ : Type*) (n : Nat) where
  encrypt : κ → List UInt8 → List UInt8
  decrypt : κ → List UInt8 → List UInt8
  length_encrypt : ∀ key b, b.length = n → (encrypt key b).length = n
  length_decrypt : ∀ key b, b.length = n → (decrypt key b).length = n
  decrypt_encrypt : ∀ key b, b.length = n → decrypt key (encrypt key b) = b

/-- A cipher that rearranges the blocks. -/
def BlockCipher.ofPerm {κ : Type*} {n : Nat} (f : κ → Equiv.Perm (Vector UInt8 n)) :
    BlockCipher κ n where
  encrypt key b := if h : b.length = n then (f key ⟨b.toArray, h⟩).toList else b
  decrypt key b := if h : b.length = n then ((f key).symm ⟨b.toArray, h⟩).toList else b
  length_encrypt key b h := by rw [dif_pos h, Vector.length_toList]
  length_decrypt key b h := by rw [dif_pos h, Vector.length_toList]
  decrypt_encrypt key b h := by
    rw [dif_pos h, dif_pos (Vector.length_toList ..)]
    exact congrArg Vector.toList ((f key).symm_apply_apply _)

/-- The bytes of two blocks combined. -/
def xorBytes (a b : List UInt8) : List UInt8 := List.zipWith (· ^^^ ·) a b

theorem length_xorBytes {a b : List UInt8} {n : Nat} (ha : a.length = n) (hb : b.length = n) :
    (xorBytes a b).length = n := by
  rw [xorBytes, List.length_zipWith, ha, hb, Nat.min_self]

theorem xorBytes_xorBytes {a b : List UInt8} (h : a.length = b.length) :
    xorBytes (xorBytes a b) b = a := by
  induction a generalizing b with
  | nil => rfl
  | cons x a ih =>
    cases b with
    | nil => cases h
    | cons y b =>
      have hxy : x ^^^ y ^^^ y = x := by rw [UInt8.xor_assoc, UInt8.xor_self, UInt8.xor_zero]
      exact congrArg₂ List.cons hxy (ih (Nat.succ.inj h))

variable {κ : Type*} {n : Nat} (C : BlockCipher κ n) (key : κ)

/-- The encrypted blocks; `v` is the encryption of the block before. -/
def cbcEncryptBlocks : List UInt8 → List (List UInt8) → List (List UInt8)
  | _, [] => []
  | v, b :: bs =>
    let c := C.encrypt key (xorBytes b v)
    c :: cbcEncryptBlocks c bs

/-- The decrypted blocks. -/
def cbcDecryptBlocks : List UInt8 → List (List UInt8) → List (List UInt8)
  | _, [] => []
  | v, c :: cs => xorBytes (C.decrypt key c) v :: cbcDecryptBlocks c cs

/-- The encryption of the full blocks of a text. -/
def cbcEncrypt (v text : List UInt8) : List UInt8 :=
  (cbcEncryptBlocks C key v (fullPieces n text)).flatten

/-- The decryption of the full blocks of a text. -/
def cbcDecrypt (v text : List UInt8) : List UInt8 :=
  (cbcDecryptBlocks C key v (fullPieces n text)).flatten

variable {C key} {v : List UInt8}

theorem length_of_mem_cbcEncryptBlocks (hv : v.length = n) {bs : List (List UInt8)}
    (hbs : ∀ b ∈ bs, b.length = n) : ∀ c ∈ cbcEncryptBlocks C key v bs, c.length = n := by
  induction bs generalizing v with
  | nil => exact fun c hc => absurd hc List.not_mem_nil
  | cons b bs ih =>
    obtain ⟨hb, hbs⟩ := List.forall_mem_cons.mp hbs
    have hc := C.length_encrypt key _ (length_xorBytes hb hv)
    exact List.forall_mem_cons.mpr ⟨hc, ih hc hbs⟩

theorem cbcDecryptBlocks_cbcEncryptBlocks (hv : v.length = n) {bs : List (List UInt8)}
    (hbs : ∀ b ∈ bs, b.length = n) :
    cbcDecryptBlocks C key v (cbcEncryptBlocks C key v bs) = bs := by
  induction bs generalizing v with
  | nil => rfl
  | cons b bs ih =>
    obtain ⟨hb, hbs⟩ := List.forall_mem_cons.mp hbs
    have hc := C.length_encrypt key _ (length_xorBytes hb hv)
    rw [cbcEncryptBlocks, cbcDecryptBlocks, ih hc hbs,
      C.decrypt_encrypt key _ (length_xorBytes hb hv), xorBytes_xorBytes (hb.trans hv.symm)]

theorem length_cbcEncryptBlocks (v : List UInt8) (bs : List (List UInt8)) :
    (cbcEncryptBlocks C key v bs).length = bs.length := by
  induction bs generalizing v with
  | nil => rfl
  | cons b bs ih => rw [cbcEncryptBlocks, List.length_cons, ih, List.length_cons]

theorem length_of_mem_cbcDecryptBlocks (hv : v.length = n) {cs : List (List UInt8)}
    (hcs : ∀ c ∈ cs, c.length = n) : ∀ b ∈ cbcDecryptBlocks C key v cs, b.length = n := by
  induction cs generalizing v with
  | nil => exact fun b hb => absurd hb List.not_mem_nil
  | cons c cs ih =>
    obtain ⟨hc, hcs⟩ := List.forall_mem_cons.mp hcs
    exact List.forall_mem_cons.mpr ⟨length_xorBytes (C.length_decrypt key c hc) hv, ih hc hcs⟩

theorem length_cbcDecryptBlocks (v : List UInt8) (cs : List (List UInt8)) :
    (cbcDecryptBlocks C key v cs).length = cs.length := by
  induction cs generalizing v with
  | nil => rfl
  | cons c cs ih => rw [cbcDecryptBlocks, List.length_cons, ih, List.length_cons]

private theorem length_flatten_of_forall {bs : List (List UInt8)} (h : ∀ b ∈ bs, b.length = n) :
    bs.flatten.length = bs.length * n := by
  induction bs with
  | nil => rw [List.flatten_nil, List.length_nil, List.length_nil, Nat.zero_mul]
  | cons b bs ih =>
    obtain ⟨hb, hbs⟩ := List.forall_mem_cons.mp h
    rw [List.flatten_cons, List.length_append, hb, ih hbs, List.length_cons, Nat.succ_mul,
      Nat.add_comm]

theorem length_cbcEncrypt (hn : 0 < n) (hv : v.length = n) {text : List UInt8}
    (h : n ∣ text.length) : (cbcEncrypt C key v text).length = text.length := by
  rw [cbcEncrypt, length_flatten_of_forall
    (length_of_mem_cbcEncryptBlocks hv fun _ => length_of_mem_fullPieces),
    length_cbcEncryptBlocks, length_fullPieces hn, Nat.div_mul_cancel h]

theorem length_cbcDecrypt (hn : 0 < n) (hv : v.length = n) {text : List UInt8}
    (h : n ∣ text.length) : (cbcDecrypt C key v text).length = text.length := by
  rw [cbcDecrypt, length_flatten_of_forall
    (length_of_mem_cbcDecryptBlocks hv fun _ => length_of_mem_fullPieces),
    length_cbcDecryptBlocks, length_fullPieces hn, Nat.div_mul_cancel h]

/-- The first block of a text. -/
theorem cbcEncrypt_append (hn : 0 < n) {b : List UInt8} (hb : b.length = n) (text : List UInt8) :
    cbcEncrypt C key v (b ++ text) = C.encrypt key (xorBytes b v)
      ++ cbcEncrypt C key (C.encrypt key (xorBytes b v)) text := by
  rw [cbcEncrypt, fullPieces_cons hn hb, cbcEncryptBlocks, List.flatten_cons, cbcEncrypt]

theorem cbcEncrypt_nil (hn : 0 < n) : cbcEncrypt C key v [] = [] := by
  rw [cbcEncrypt, fullPieces_of_length_lt hn, cbcEncryptBlocks, List.flatten_nil]

/-- A text of whole blocks is decrypted again. -/
theorem cbcDecrypt_cbcEncrypt (hn : 0 < n) (hv : v.length = n) {text : List UInt8}
    (h : n ∣ text.length) : cbcDecrypt C key v (cbcEncrypt C key v text) = text := by
  have hblocks : ∀ b ∈ fullPieces n text, b.length = n := fun _ => length_of_mem_fullPieces
  have hencrypted : ∀ c ∈ cbcEncryptBlocks C key v (fullPieces n text), c.length = n :=
    length_of_mem_cbcEncryptBlocks hv hblocks
  have hcut := fullPieces_flatten_append hn hencrypted (l := []) hn
  rw [List.append_nil] at hcut
  rw [cbcDecrypt, cbcEncrypt, hcut, cbcDecryptBlocks_cbcEncryptBlocks hv hblocks]
  by_cases hne : text = []
  · rw [hne, fullPieces_of_length_lt (by simpa using hn)]
    rfl
  · rw [← pieces_eq_fullPieces hn h hne, flatten_pieces]

end Blacklink.Base
