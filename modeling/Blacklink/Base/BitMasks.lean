import Mathlib.Data.Nat.Bitwise

/-!
# Numbers as sets of bits

A number stands for the set of its bits: `|||` is the union, and `BitsIn` the inclusion, which is
what a mask is used for that says what there may be.
-/

namespace Blacklink.Base

/-- Every bit of `a` is one of `b`. -/
def BitsIn (a b : Nat) : Prop := ∀ t, a.testBit t = true → b.testBit t = true

variable {a b c : Nat}

/-- The inclusion as the code tests it. -/
theorem bitsIn_iff : BitsIn a b ↔ b ||| a = b := by
  constructor
  · intro h
    apply Nat.eq_of_testBit_eq
    intro t
    rw [Nat.testBit_or]
    cases ha : a.testBit t with
    | false => rw [Bool.or_false]
    | true => rw [h t ha, Bool.or_true]
  · intro h t ht
    rw [← h, Nat.testBit_or, ht, Bool.or_true]

@[simp] theorem BitsIn.refl (a : Nat) : BitsIn a a := fun _ ht => ht

theorem BitsIn.of_eq (h : a = b) : BitsIn a b := h ▸ BitsIn.refl a

@[simp] theorem bitsIn_zero (a : Nat) : BitsIn 0 a := by
  intro t ht
  rw [Nat.zero_testBit] at ht
  cases ht

theorem BitsIn.trans (h : BitsIn a b) (h' : BitsIn b c) : BitsIn a c :=
  fun t ht => h' t (h t ht)

theorem bitsIn_or_left (a b : Nat) : BitsIn a (a ||| b) := by
  intro t ht
  rw [Nat.testBit_or, ht, Bool.true_or]

theorem bitsIn_or_right (a b : Nat) : BitsIn b (a ||| b) := by
  intro t ht
  rw [Nat.testBit_or, ht, Bool.or_true]

/-- The union is the least upper bound. -/
theorem or_bitsIn_iff : BitsIn (a ||| b) c ↔ BitsIn a c ∧ BitsIn b c := by
  constructor
  · intro h
    exact ⟨(bitsIn_or_left a b).trans h, (bitsIn_or_right a b).trans h⟩
  · rintro ⟨ha, hb⟩ t ht
    rw [Nat.testBit_or, Bool.or_eq_true] at ht
    exact ht.elim (ha t) (hb t)

theorem BitsIn.or_left (h : BitsIn a b) (c : Nat) : BitsIn a (b ||| c) :=
  h.trans (bitsIn_or_left b c)

theorem BitsIn.or_right (h : BitsIn a c) (b : Nat) : BitsIn a (b ||| c) :=
  h.trans (bitsIn_or_right b c)

theorem BitsIn.or (h : BitsIn a c) {d : Nat} (h' : BitsIn b d) : BitsIn (a ||| b) (c ||| d) :=
  or_bitsIn_iff.mpr ⟨h.or_left d, h'.or_right c⟩

variable {α : Type*} {f : α → Nat} {xs : List α}

/-- The union over a list, as a loop makes it. -/
theorem bitsIn_foldl {x : α} (hx : x ∈ xs) (a : Nat) :
    BitsIn (f x) (xs.foldl (fun mask y => mask ||| f y) a) := by
  have hstart : ∀ (ys : List α) (b : Nat), BitsIn b (ys.foldl (fun mask y => mask ||| f y) b) := by
    intro ys
    induction ys with
    | nil => exact BitsIn.refl
    | cons y ys ih =>
      intro b
      exact (bitsIn_or_left b (f y)).trans (ih _)
  induction xs generalizing a with
  | nil => cases hx
  | cons y ys ih =>
    rw [List.foldl_cons]
    rcases List.mem_cons.mp hx with rfl | hx
    · exact (bitsIn_or_right a (f x)).trans (hstart ys _)
    · exact ih hx _

end Blacklink.Base
