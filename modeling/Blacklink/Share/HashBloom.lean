import Mathlib.Data.Nat.Bitwise
import Blacklink.Base.LruCache

/-!
# The Bloom filter for hubs

Model of `HashBloom` (`client/HashBloom.cpp:46-113`), the filter of hashes a hub asks for, and of
how it is packed to bytes. What a hub reads from the bytes is what was set.
-/

namespace Blacklink.Share

/-- `TTHValue`. -/
structure TTHValue where
  data : Vector UInt8 24
  deriving DecidableEq

instance : Inhabited TTHValue := ⟨⟨Vector.replicate 24 0⟩⟩

/-- `TTHValue::BITS`. -/
def TTHValue.bits : Nat := 192

/-- `HashBloom`. -/
structure HashBloom where
  bloom : List Bool
  k : Nat
  h : Nat

namespace HashBloom

/-- The bit of a hash that `pos` looks at. -/
def hashBit (tth : TTHValue) (bit : Nat) : Bool :=
  tth.data[bit / 8]?.getD 0 &&& (1 <<< (bit % 8).toUInt8) ≠ 0

/-- The number that `pos` reads from the hash. -/
def hashBits (tth : TTHValue) (start h : Nat) : Nat :=
  (List.range h).foldl (fun x i => if hashBit tth (start + i) then x ||| 1 <<< i else x) 0

/-- `pos` for a filter with `size` bits. -/
def pos (size h : Nat) (tth : TTHValue) (n : Nat) : Nat :=
  if TTHValue.bits < (n + 1) * h then 0 else hashBits tth (n * h) h % size

/-- `reset` of a new filter. -/
def reset (k m h : Nat) : HashBloom := ⟨List.replicate m false, k, h⟩

/-- `add`. -/
def add (b : HashBloom) (tth : TTHValue) : HashBloom :=
  { b with
    bloom := (List.range b.k).foldl (fun l i => l.set (pos b.bloom.length b.h tth i) true) b.bloom }

/-- `match`. -/
def matchTTH (b : HashBloom) (tth : TTHValue) : Bool :=
  b.bloom ≠ [] &&
    (List.range b.k).all fun i => b.bloom[pos b.bloom.length b.h tth i]?.getD false

/-- One step of `copy_to`. -/
def copyBit (b : HashBloom) (v : List UInt8) (i : Nat) : List UInt8 :=
  v.modify (i / 8) fun c => c ||| (b.bloom[i]?.getD false).toUInt8 <<< (i % 8).toUInt8

/-- `copy_to`, to an empty vector. -/
def copyTo (b : HashBloom) : List UInt8 :=
  (List.range b.bloom.length).foldl b.copyBit (List.replicate (b.bloom.length / 8) 0)

/-- A bit of a packed filter. -/
def packedBit (v : List UInt8) (i : Nat) : Bool := (v[i / 8]?.getD 0).toNat.testBit (i % 8)

/-- What a hub makes of a packed filter: every position of the hash is set. -/
def matchPacked (v : List UInt8) (k h : Nat) (tth : TTHValue) : Bool :=
  (List.range k).all fun i => packedBit v (pos (8 * v.length) h tth i)

/-! ### Setting bits -/

theorem length_sets (ps : List Nat) (l : List Bool) :
    (ps.foldl (fun l p => l.set p true) l).length = l.length := by
  induction ps generalizing l with
  | nil => rfl
  | cons p ps ih => rw [List.foldl_cons, ih, List.length_set]

/-- A bit that is set stays set. -/
theorem getElem?_sets_of_true {ps : List Nat} {l : List Bool} {i : Nat} (h : l[i]? = some true) :
    (ps.foldl (fun l p => l.set p true) l)[i]? = some true := by
  induction ps generalizing l with
  | nil => exact h
  | cons p ps ih =>
    apply ih
    rw [List.getElem?_set]
    split
    · next hp =>
      rw [if_pos]
      rw [hp]
      exact (List.getElem?_eq_some_iff.mp h).1
    · exact h

theorem getElem?_sets_of_mem {ps : List Nat} {l : List Bool} {i : Nat} (h : i ∈ ps)
    (hi : i < l.length) : (ps.foldl (fun l p => l.set p true) l)[i]? = some true := by
  induction ps generalizing l with
  | nil => cases h
  | cons p ps ih =>
    rcases List.mem_cons.mp h with rfl | h
    · rw [List.foldl_cons]
      exact getElem?_sets_of_true (List.getElem?_set_self hi)
    · exact ih h (by rwa [List.length_set])

theorem bloom_add (b : HashBloom) (tth : TTHValue) :
    (b.add tth).bloom = ((List.range b.k).map (pos b.bloom.length b.h tth)).foldl
      (fun l p => l.set p true) b.bloom := by
  rw [List.foldl_map]
  rfl

theorem length_add (b : HashBloom) (tth : TTHValue) :
    (b.add tth).bloom.length = b.bloom.length := by
  rw [bloom_add, length_sets]

theorem pos_lt {size : Nat} (hsize : 0 < size) (h : Nat) (tth : TTHValue) (n : Nat) :
    pos size h tth n < size := by
  rw [pos]
  split
  · exact hsize
  · exact Nat.mod_lt _ hsize

/-- A hash that was added matches. -/
theorem matchTTH_add_self {b : HashBloom} (hb : 0 < b.bloom.length) (tth : TTHValue) :
    (b.add tth).matchTTH tth = true := by
  have hlen := length_add b tth
  rw [matchTTH, Bool.and_eq_true, List.all_eq_true]
  constructor
  · apply decide_eq_true
    rw [← List.length_pos_iff, hlen]
    exact hb
  · intro i hi
    have hmem : pos b.bloom.length b.h tth i ∈
        (List.range b.k).map (pos b.bloom.length b.h tth) := List.mem_map_of_mem hi
    have hset := getElem?_sets_of_mem hmem (pos_lt hb b.h tth i)
    rw [← bloom_add] at hset
    rw [hlen]
    change (b.add tth).bloom[pos b.bloom.length b.h tth i]?.getD false = true
    rw [hset]
    rfl

/-- A hash that matches does so when others are added. -/
theorem matchTTH_add {b : HashBloom} {tth : TTHValue} (h : b.matchTTH tth = true)
    (other : TTHValue) : (b.add other).matchTTH tth = true := by
  have hlen := length_add b other
  rw [matchTTH, Bool.and_eq_true, List.all_eq_true] at h ⊢
  constructor
  · have hne := of_decide_eq_true h.1
    apply decide_eq_true
    rw [← List.length_pos_iff, hlen]
    exact List.length_pos_iff.mpr hne
  · intro i hi
    have hset := h.2 i hi
    rw [hlen]
    change (b.add other).bloom[pos b.bloom.length b.h tth i]?.getD false = true
    cases hbit : b.bloom[pos b.bloom.length b.h tth i]? with
    | none =>
      rw [hbit] at hset
      cases hset
    | some v =>
      rw [hbit] at hset
      rw [bloom_add, getElem?_sets_of_true (hbit.trans (congrArg some hset))]
      rfl

/-! ### Packing -/

private theorem testBit_shift (v : Bool) {i j : Nat} (hi : i < 8) (hj : j < 8) :
    (v.toUInt8 <<< i.toUInt8).toNat.testBit j = (v && i = j) := by
  have h : ∀ v : Bool, ∀ i j : Fin 8,
      (v.toUInt8 <<< i.val.toUInt8).toNat.testBit j.val = (v && i = j) := by
    decide
  have := h v ⟨i, hi⟩ ⟨j, hj⟩
  simpa using this

private theorem length_copies (b : HashBloom) (is : List Nat) (v : List UInt8) :
    (is.foldl b.copyBit v).length = v.length := by
  induction is generalizing v with
  | nil => rfl
  | cons i is ih => rw [List.foldl_cons, ih, copyBit, List.length_modify]

private theorem packedBit_copyBit (b : HashBloom) {v : List UInt8} {i j : Nat}
    (hj : j < 8 * v.length) :
    packedBit (b.copyBit v i) j = (packedBit v j || (b.bloom[i]?.getD false && i = j)) := by
  have hlt : j / 8 < v.length := by omega
  have hget : v[j / 8]? = some v[j / 8] := List.getElem?_eq_getElem hlt
  rw [packedBit, packedBit, copyBit, List.getElem?_modify, hget]
  change (UInt8.toNat (if i / 8 = j / 8 then _ else _)).testBit (j % 8) = _
  by_cases hij : i / 8 = j / 8
  · rw [if_pos hij]
    change (v[j / 8] ||| _).toNat.testBit (j % 8) = (v[j / 8].toNat.testBit (j % 8) || _)
    rw [UInt8.toNat_or, Nat.testBit_or,
      testBit_shift _ (Nat.mod_lt _ (by decide)) (Nat.mod_lt _ (by decide))]
    congr 2
    rw [decide_eq_decide]
    omega
  · rw [if_neg hij]
    have hne : i ≠ j := fun h => hij (congrArg (· / 8) h)
    change v[j / 8].toNat.testBit (j % 8) = (v[j / 8].toNat.testBit (j % 8) || _)
    rw [decide_eq_false hne, Bool.and_false, Bool.or_false]

/-- What is read from the bytes is what was set. -/
theorem packedBit_copyTo {b : HashBloom} (h8 : 8 ∣ b.bloom.length) {j : Nat}
    (hj : j < b.bloom.length) : packedBit b.copyTo j = b.bloom[j]?.getD false := by
  have hfold : ∀ n, packedBit ((List.range n).foldl b.copyBit
      (List.replicate (b.bloom.length / 8) 0)) j = (j < n && b.bloom[j]?.getD false) := by
    intro n
    induction n with
    | zero =>
      have hlt : j / 8 < b.bloom.length / 8 := by omega
      rw [List.range_zero, List.foldl_nil, packedBit, List.getElem?_replicate, if_pos hlt,
        Option.getD_some, UInt8.toNat_zero, Nat.zero_testBit]
      rfl
    | succ n ih =>
      rw [List.range_succ, List.foldl_append, List.foldl_cons, List.foldl_nil, packedBit_copyBit,
        ih]
      · by_cases hn : n = j
        · rw [hn, decide_eq_false (Nat.lt_irrefl j), decide_eq_true (Nat.lt_succ_self j),
            decide_eq_true rfl, Bool.false_and, Bool.false_or, Bool.and_true, Bool.true_and]
        · have hlt : (j < n + 1) = (j < n) := by
            rw [eq_iff_iff]
            omega
          rw [decide_eq_false hn, Bool.and_false, Bool.or_false]
          simp only [hlt]
      · rw [length_copies, List.length_replicate]
        omega
  rw [copyTo, hfold, decide_eq_true hj, Bool.true_and]

theorem length_copyTo {b : HashBloom} (h8 : 8 ∣ b.bloom.length) :
    8 * b.copyTo.length = b.bloom.length := by
  rw [copyTo, length_copies, List.length_replicate, Nat.mul_div_cancel' h8]

/-- A hub finds a hash in the packed filter as it would in the filter. -/
theorem matchPacked_copyTo {b : HashBloom} (h8 : 8 ∣ b.bloom.length) (hb : 0 < b.bloom.length)
    (tth : TTHValue) : matchPacked b.copyTo b.k b.h tth = b.matchTTH tth := by
  have hne : b.bloom ≠ [] := List.length_pos_iff.mp hb
  rw [matchPacked, matchTTH, decide_eq_true hne, Bool.true_and, length_copyTo h8]
  congr 1
  funext i
  exact packedBit_copyTo h8 (pos_lt hb _ _ _)

end HashBloom

end Blacklink.Share
