import Mathlib.Data.List.Infix
import Mathlib.Logic.Function.Basic

/-!
# The Bloom filter of substrings

Model of `BloomFilter<N>` (`client/BloomFilter.h:26-97`): every window of `N` bytes of a string is
hashed to a position of the table. Strings shorter than `N` set nothing and always match. A string
that was added is matched, and so is each of its substrings.
-/

namespace Blacklink.Share

/-- `BloomFilter<N>` with a table of `size` entries; positions past the end are never set. -/
@[ext]
structure BloomFilter (N size : Nat) where
  table : Nat → Bool

namespace BloomFilter

variable {N size : Nat}

/-- A new filter: `table.resize(tableSize)`. -/
def empty : BloomFilter N size := ⟨fun _ => false⟩

/-- One round of `getPos`. A `char` is signed, and it is added to a 32-bit constant. -/
def hashByte (h : UInt64) (c : UInt8) : UInt64 :=
  let c32 : UInt32 := if c < 128 then c.toUInt32 else c.toUInt32 - 256
  h ^^^ ((c32 + 0x9e3779b9).toUInt64 + (h <<< 6) + (h >>> 2))

/-- `getPos(s, i, N)`. -/
def getPos (N size : Nat) (s : List UInt8) (i : Nat) : Nat :=
  (((s.drop i).take N).foldl hashByte 0).toNat % size

/-- `table[pos] = true`. -/
def set (b : BloomFilter N size) (pos : Nat) : BloomFilter N size :=
  ⟨Function.update b.table pos true⟩

/-- `add`, which is `xadd(s, N)`. -/
def add (b : BloomFilter N size) (s : List UInt8) : BloomFilter N size :=
  if N ≤ s.length then
    (List.range (s.length - N + 1)).foldl (fun b i => b.set (getPos N size s i)) b
  else b

/-- `match(const string&)`. -/
def matchString (b : BloomFilter N size) (s : List UInt8) : Bool :=
  if N ≤ s.length then
    (List.range (s.length - N + 1)).all fun i => b.table (getPos N size s i)
  else true

/-- `match(const StringList&)`. -/
def matchList (b : BloomFilter N size) (ss : List (List UInt8)) : Bool := ss.all b.matchString

/-- Everything set in one filter is set in the other. -/
instance : LE (BloomFilter N size) where
  le b c := ∀ pos, b.table pos = true → c.table pos = true

theorem le_refl (b : BloomFilter N size) : b ≤ b := fun _ h => h

theorem le_trans {b c d : BloomFilter N size} (h : b ≤ c) (h' : c ≤ d) : b ≤ d :=
  fun pos hp => h' pos (h pos hp)

theorem le_set (b : BloomFilter N size) (pos : Nat) : b ≤ b.set pos := by
  intro p hp
  simp only [set, Function.update_apply]
  split
  · rfl
  · exact hp

theorem set_self (b : BloomFilter N size) (pos : Nat) : (b.set pos).table pos = true := by
  simp [set]

private theorem le_sets (s : List UInt8) (is : List Nat) (b : BloomFilter N size) :
    b ≤ is.foldl (fun b i => b.set (getPos N size s i)) b := by
  induction is generalizing b with
  | nil => exact le_refl b
  | cons i is ih => exact le_trans (le_set b _) (ih _)

private theorem sets_mem (s : List UInt8) {is : List Nat} {i : Nat} (hi : i ∈ is)
    (b : BloomFilter N size) :
    (is.foldl (fun b i => b.set (getPos N size s i)) b).table (getPos N size s i) = true := by
  induction is generalizing b with
  | nil => cases hi
  | cons j is ih =>
    cases hi with
    | head => exact le_sets s is _ _ (set_self b _)
    | tail _ h => exact ih h _

/-- Adding a string never clears anything. -/
theorem le_add (b : BloomFilter N size) (s : List UInt8) : b ≤ b.add s := by
  unfold add
  split
  · exact le_sets s _ b
  · exact le_refl b

/-- A string matches when the position of each of its windows is set. -/
theorem matchString_iff (b : BloomFilter N size) (s : List UInt8) :
    b.matchString s = true ↔ ∀ i, i + N ≤ s.length → b.table (getPos N size s i) = true := by
  unfold matchString
  split
  · next hN =>
    rw [List.all_eq_true]
    constructor
    · intro h i hi
      apply h
      rw [List.mem_range]
      omega
    · intro h i hi
      rw [List.mem_range] at hi
      apply h
      omega
  · next hN =>
    constructor
    · intro _ i hi
      omega
    · intro _
      rfl

theorem matchString_mono {b c : BloomFilter N size} (h : b ≤ c) {s : List UInt8}
    (hb : b.matchString s = true) : c.matchString s = true := by
  rw [matchString_iff] at hb ⊢
  intro i hi
  exact h _ (hb i hi)

theorem matchString_add_self (b : BloomFilter N size) (s : List UInt8) :
    (b.add s).matchString s = true := by
  rw [matchString_iff]
  intro i hi
  unfold add
  rw [if_pos (by omega)]
  apply sets_mem
  rw [List.mem_range]
  omega

/-- The windows of a substring are windows of the string. -/
theorem matchString_of_infix {b : BloomFilter N size} {s t : List UInt8} (h : t <:+: s)
    (hs : b.matchString s = true) : b.matchString t = true := by
  obtain ⟨u, v, rfl⟩ := h
  rw [matchString_iff] at hs ⊢
  intro i hi
  have hlen : (u.length + i) + N ≤ (u ++ t ++ v).length := by
    simp only [List.length_append]
    omega
  have hpos : getPos N size (u ++ t ++ v) (u.length + i) = getPos N size t i := by
    have hdrop : (u ++ t ++ v).drop (u.length + i) = t.drop i ++ v := by
      rw [List.append_assoc, List.drop_append, List.drop_eq_nil_of_le (by omega),
        List.nil_append, Nat.add_sub_cancel_left, List.drop_append_of_le_length (by omega)]
    have htake : (t.drop i ++ v).take N = (t.drop i).take N := by
      apply List.take_append_of_le_length
      rw [List.length_drop]
      omega
    rw [getPos, hdrop, htake, getPos]
  rw [← hpos]
  exact hs _ hlen

/-- A list of strings matches when each of them does. -/
theorem matchList_iff (b : BloomFilter N size) (ss : List (List UInt8)) :
    b.matchList ss = true ↔ ∀ s ∈ ss, b.matchString s = true := List.all_eq_true

end BloomFilter

end Blacklink.Share
