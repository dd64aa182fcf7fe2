import Mathlib.Data.List.Basic

/-!
# Stream ciphers

A generator of a key stream, and the encryption that combines the stream with the data by
exclusive or.
-/

namespace Blacklink.Base

/-- Combine the bytes with the key stream that `next` makes from the state. -/
def xorStream {σ : Type*} (next : σ → UInt8 × σ) : σ → List UInt8 → List UInt8
  | _, [] => []
  | s, b :: bs => ((next s).1 ^^^ b) :: xorStream next (next s).2 bs

variable {σ : Type*} (next : σ → UInt8 × σ)

theorem length_xorStream (s : σ) (bs : List UInt8) : (xorStream next s bs).length = bs.length := by
  induction bs generalizing s with
  | nil => rfl
  | cons b bs ih => rw [xorStream, List.length_cons, ih, List.length_cons]

/-- Encryption from the same state twice gives the data back. -/
theorem xorStream_xorStream (s : σ) (bs : List UInt8) :
    xorStream next s (xorStream next s bs) = bs := by
  induction bs generalizing s with
  | nil => rfl
  | cons b bs ih =>
    have hb : (next s).1 ^^^ ((next s).1 ^^^ b) = b := by
      rw [← UInt8.xor_assoc, UInt8.xor_self, UInt8.zero_xor]
    rw [xorStream, xorStream, hb, ih]

end Blacklink.Base
