import Mathlib.Data.List.Induction
import Mathlib.Data.List.TakeWhile
import Blacklink.Base.Run
import Blacklink.Base.Smallest

/-!
# Lists of address ranges

Model of `IpList::addRange` and `IpList::find` (`client/IpList.h:11-48`, `client/IpList.cpp:5-58`).
The map is the list of its entries in the order of their starts, an iterator a position in it.
`find` has no outcome where it decrements the iterator of the first entry.
-/

namespace Blacklink.Net.IpList

open Blacklink.Base

/-- `IpList::Range`. -/
structure IpRange where
  end_ : UInt32
  payload : UInt64
  deriving DecidableEq

/-- `IpListMap`. -/
abbrev IpListMap := List (UInt32 × List IpRange)

/-- `ERR_ALREADY_EXISTS`, the error of `addRange`. -/
inductive IpListError where
  | alreadyExists
  deriving DecidableEq

/-- `addRange`. -/
def addRange (m : IpListMap) (start end_ : UInt32) (payload : UInt64) :
    Except IpListError IpListMap :=
  let range : IpRange := ⟨end_, payload⟩
  match m.find? fun i => i.1 = start with
  | some i =>
    if i.2.any fun r => r.end_ = end_ then .error .alreadyExists
    else .ok (m.map fun i => if i.1 = start then (i.1, i.2 ++ [range]) else i)
  | none => .ok (insertKey start [range] m)

/-- `minRangeLen` and the payload, if there is a result, behind the ranges of an entry. -/
def findIn (addr start : UInt32) (ranges : List IpRange) : UInt32 × Option UInt64 :=
  ranges.foldl (fun best range =>
    if addr ≤ range.end_ ∧ range.end_ - start ≤ best.1 then
      (range.end_ - start, some range.payload)
    else best) (0xffffffff, none)

/-- A pass of the loop of `find`, and in `before` what the passes behind `--i` come to. -/
def findAt (m : IpListMap) (addr : UInt32) (i : Nat) (before : Option (Option UInt64)) :
    Option (Option UInt64) :=
  match m[i]? with
  | none => some none
  | some (start, ranges) =>
    if addr < start then some none
    else
      match (findIn addr start ranges).2 with
      | some payload => some (some payload)
      | none => before

/-- The loop of `find` from an iterator on. -/
def findLoop (m : IpListMap) (addr : UInt32) : Nat → Option (Option UInt64)
  | 0 => findAt m addr 0 none
  | i + 1 => findAt m addr (i + 1) (findLoop m addr i)

/-- `find`: the payload, if the result is true. -/
def find (m : IpListMap) (addr : UInt32) : Option (Option UInt64) :=
  let i := m.findIdx fun e => addr ≤ e.1
  findLoop m addr (if m[i]?.map Prod.fst ≠ some addr ∧ i ≠ 0 then i - 1 else i)

/-- A call of `addRange`. -/
structure AddRange where
  start : UInt32
  end_ : UInt32
  payload : UInt64
  deriving DecidableEq

/-- The map behind a call of `addRange`. -/
def addStep (m : IpListMap) (c : AddRange) : IpListMap :=
  match addRange m c.start c.end_ c.payload with
  | .ok m' => m'
  | .error _ => m

/-- The stored ranges. -/
def ranges (m : IpListMap) : List AddRange :=
  m.flatMap fun i => i.2.map fun r => ⟨i.1, r.end_, r.payload⟩

namespace AddRange

/-- The address is in the range. -/
def Contains (c : AddRange) (addr : UInt32) : Prop := c.start ≤ addr ∧ addr ≤ c.end_

instance (c : AddRange) (addr : UInt32) : Decidable (c.Contains addr) :=
  inferInstanceAs (Decidable (_ ∧ _))

/-- The ranges have no address in common, or one of them has all addresses of the other. -/
def DisjointOrNested (c d : AddRange) : Prop :=
  (∀ addr, ¬ (c.Contains addr ∧ d.Contains addr)) ∨ (∀ addr, c.Contains addr → d.Contains addr) ∨
    ∀ addr, d.Contains addr → c.Contains addr

end AddRange

/-- `find` ends within the map, is true exactly for the addresses in stored ranges, and gives the
payload of a smallest one when the ranges are disjoint or nested. -/
def Finds (m : IpListMap) (addr : UInt32) : Prop :=
  ∃ result, find m addr = some result ∧
    (result.isSome = true ↔ ∃ c ∈ ranges m, c.Contains addr) ∧
    ((∀ c ∈ ranges m, ∀ d ∈ ranges m, c.DisjointOrNested d) → ∀ payload, result = some payload →
      ∃ c ∈ ranges m, c.Contains addr ∧ c.payload = payload ∧
        ∀ d ∈ ranges m, d.Contains addr → c.end_ - c.start ≤ d.end_ - d.start)

/-! ### The ranges of an entry -/

/-- What is known behind some of the ranges. -/
structure Best (addr start : UInt32) (ranges : List IpRange) (best : UInt32 × Option UInt64) :
    Prop where
  of_none : best.2 = none → best.1 = 0xffffffff ∧ ∀ r ∈ ranges, ¬ addr ≤ r.end_
  of_some : ∀ payload, best.2 = some payload →
    ∃ r ∈ ranges, addr ≤ r.end_ ∧ r.payload = payload ∧ best.1 = r.end_ - start
  le : ∀ r ∈ ranges, addr ≤ r.end_ → best.1 ≤ r.end_ - start

private theorem le_max (n : UInt32) : n ≤ 0xffffffff := by
  rw [UInt32.le_iff_toNat_le]
  exact Nat.le_of_lt_succ n.toNat_lt

/-- One more range. -/
private theorem Best.append {addr start : UInt32} {ranges : List IpRange}
    {best : UInt32 × Option UInt64} (h : Best addr start ranges best) (r : IpRange) :
    Best addr start (ranges ++ [r])
      (if addr ≤ r.end_ ∧ r.end_ - start ≤ best.1 then (r.end_ - start, some r.payload)
        else best) := by
  split
  · next hr =>
    refine ⟨nofun, fun payload hp => ?_, fun s hs haddr => ?_⟩
    · exact ⟨r, List.mem_append_right _ List.mem_cons_self, hr.1, Option.some.inj hp, rfl⟩
    · rcases List.mem_append.mp hs with hs | hs
      · exact UInt32.le_trans hr.2 (h.le s hs haddr)
      · rw [List.mem_singleton.mp hs]
        exact UInt32.le_refl _
  · next hr =>
    have hlt : addr ≤ r.end_ → best.1 < r.end_ - start := fun haddr =>
      UInt32.not_le.mp fun hle => hr ⟨haddr, hle⟩
    refine ⟨fun hnone => ?_, fun payload hp => ?_, fun s hs haddr => ?_⟩
    · obtain ⟨hmax, hout⟩ := h.of_none hnone
      refine ⟨hmax, fun s hs => ?_⟩
      rcases List.mem_append.mp hs with hs | hs
      · exact hout s hs
      · rw [List.mem_singleton.mp hs]
        -- nothing is longer than the length that `find` starts with
        intro haddr
        rw [hmax] at hlt
        exact UInt32.not_le.mpr (hlt haddr) (le_max _)
    · obtain ⟨s, hs, hrest⟩ := h.of_some payload hp
      exact ⟨s, List.mem_append_left _ hs, hrest⟩
    · rcases List.mem_append.mp hs with hs | hs
      · exact h.le s hs haddr
      · rw [List.mem_singleton.mp hs] at haddr ⊢
        exact UInt32.le_of_lt (hlt haddr)

theorem best_findIn (addr start : UInt32) (ranges : List IpRange) :
    Best addr start ranges (findIn addr start ranges) := by
  induction ranges using List.reverseRecOn with
  | nil =>
    have hnil : ∀ r ∈ ([] : List IpRange), ¬ addr ≤ r.end_ := fun r hr => absurd hr List.not_mem_nil
    exact ⟨fun _ => ⟨rfl, hnil⟩, nofun, fun r hr haddr => absurd haddr (hnil r hr)⟩
  | append_singleton ranges r ih =>
    rw [findIn, List.foldl_append]
    exact ih.append r

/-! ### The entries -/

theorem mem_ranges {m : IpListMap} {c : AddRange} :
    c ∈ ranges m ↔ ∃ rs, (c.start, rs) ∈ m ∧ ⟨c.end_, c.payload⟩ ∈ rs := by
  unfold ranges
  rw [List.mem_flatMap]
  constructor
  · rintro ⟨⟨start, rs⟩, hm, hc⟩
    obtain ⟨r, hr, rfl⟩ := List.mem_map.mp hc
    exact ⟨rs, hm, hr⟩
  · rintro ⟨rs, hm, hr⟩
    exact ⟨_, hm, List.mem_map.mpr ⟨_, hr, rfl⟩⟩

private theorem findLoop_eq (m : IpListMap) (addr : UInt32) (i : Nat) :
    findLoop m addr i = findAt m addr i (if i = 0 then none else findLoop m addr (i - 1)) := by
  cases i <;> rfl

/-- The payload of the last entry that has one. -/
def lastHit (addr : UInt32) (m : IpListMap) : Option UInt64 :=
  m.reverse.findSome? fun i => (findIn addr i.1 i.2).2

theorem lastHit_append_singleton (addr : UInt32) (m : IpListMap) (i : UInt32 × List IpRange) :
    lastHit addr (m ++ [i]) = ((findIn addr i.1 i.2).2 <|> lastHit addr m) := by
  unfold lastHit
  rw [List.reverse_append, List.reverse_singleton, List.singleton_append, List.findSome?_cons]
  cases (findIn addr i.1 i.2).2 <;> rfl

/-- From the last entry that does not begin behind the address, the loop goes back to a hit, or
beyond the first entry. -/
theorem findLoop_append {addr : UInt32} {pre : IpListMap} (hne : pre ≠ [])
    (hpre : ∀ i ∈ pre, i.1 ≤ addr) (post : IpListMap) :
    findLoop (pre ++ post) addr (pre.length - 1) = (lastHit addr pre).map some := by
  induction pre using List.reverseRecOn generalizing post with
  | nil => exact absurd rfl hne
  | append_singleton pre i ih =>
    have hi : ¬ addr < i.1 :=
      UInt32.not_lt.mpr (hpre i (List.mem_append_right _ List.mem_cons_self))
    have hget : (pre ++ [i] ++ post)[pre.length]? = some i := by simp
    rw [List.length_append, List.length_singleton, Nat.add_sub_cancel, findLoop_eq, findAt, hget,
      lastHit_append_singleton]
    dsimp only
    rw [if_neg hi]
    cases (findIn addr i.1 i.2).2 with
    | some payload => rfl
    | none =>
      by_cases hnil : pre = []
      · rw [hnil]
        rfl
      · rw [if_neg (by rwa [List.length_eq_zero_iff]), List.append_assoc,
          ih hnil fun j hj => hpre j (List.mem_append_left _ hj)]
        rfl

/-- `find` on a map split where the starts get beyond the address. -/
theorem find_append {addr : UInt32} {pre post : IpListMap} (hm : InOrder (pre ++ post))
    (hpre : ∀ i ∈ pre, i.1 ≤ addr) (hpost : ∀ i ∈ post, addr < i.1) :
    find (pre ++ post) addr = if pre = [] then some none else (lastHit addr pre).map some := by
  have hfirst : post.findIdx (fun e => addr ≤ e.1) = 0 := by
    cases post with
    | nil => rfl
    | cons i post =>
      rw [List.findIdx_cons, decide_eq_true (UInt32.le_of_lt (hpost i List.mem_cons_self))]
      rfl
  have hhead : post[0]?.map Prod.fst ≠ some addr := by
    cases post with
    | nil => nofun
    | cons i post =>
      have hlt := hpost i List.mem_cons_self
      rintro heq
      rw [← Option.some.inj heq] at hlt
      exact UInt32.lt_irrefl _ hlt
  have hbefore : ∀ l : IpListMap, (∀ i ∈ l, i.1 < addr) → ∀ l',
      (l ++ l').findIdx (fun e => addr ≤ e.1) = l'.findIdx (fun e => addr ≤ e.1) + l.length := by
    intro l hl l'
    rw [List.findIdx_append, if_neg]
    rw [List.findIdx_lt_length]
    rintro ⟨i, hi, hle⟩
    exact UInt32.not_le.mpr (hl i hi) (of_decide_eq_true hle)
  unfold find
  dsimp only
  induction pre using List.reverseRecOn with
  | nil =>
    rw [List.nil_append, hfirst, if_neg fun h => h.2 rfl, if_pos rfl, findLoop, findAt]
    cases post with
    | nil => rfl
    | cons i post =>
      dsimp only [List.getElem?_cons_zero]
      rw [if_pos (hpost i List.mem_cons_self)]
  | append_singleton pre i _ =>
    have hlt : ∀ j ∈ pre, j.1 < i.1 := fun j hj =>
      (List.pairwise_append.mp (List.pairwise_append.mp hm).1).2.2 j hj i
        (List.mem_singleton_self i)
    have hi := hpre i (List.mem_append_right _ List.mem_cons_self)
    have hne : pre ++ [i] ≠ [] := List.append_ne_nil_of_right_ne_nil _ (List.cons_ne_nil _ _)
    rw [if_neg hne, ← findLoop_append hne hpre post, List.length_append, List.length_singleton,
      Nat.add_sub_cancel]
    congr 1
    by_cases heq : i.1 = addr
    · -- the entry that begins at the address
      have hidx : (pre ++ [i] ++ post).findIdx (fun e => addr ≤ e.1) = pre.length := by
        rw [List.append_assoc, hbefore pre (fun j hj => heq ▸ hlt j hj), List.singleton_append,
          List.findIdx_cons, decide_eq_true (UInt32.le_of_eq heq.symm)]
        exact Nat.zero_add _
      have hget : (pre ++ [i] ++ post)[pre.length]? = some i := by simp
      rw [hidx, hget, if_neg fun h => h.1 (congrArg some heq)]
    · have hall : ∀ j ∈ pre ++ [i], j.1 < addr := by
        have hi' : i.1 < addr := UInt32.lt_of_le_of_ne hi heq
        intro j hj
        rcases List.mem_append.mp hj with hj | hj
        · exact UInt32.lt_trans (hlt j hj) hi'
        · rwa [List.mem_singleton.mp hj]
      have hget : (pre ++ [i] ++ post)[(pre ++ [i]).length]? = post[0]? := by
        rw [List.getElem?_append_right (Nat.le_refl _), Nat.sub_self]
      rw [hbefore _ hall, hfirst, Nat.zero_add, hget, if_pos ⟨hhead, by simp⟩]
      simp

/-! ### Runs -/

/-- What the map is after the calls of `addRange`. -/
structure Stores (calls : List AddRange) (m : IpListMap) : Prop where
  inOrder : InOrder m
  ne_nil : ∀ i ∈ m, i.2 ≠ []
  of_ranges : ∀ c ∈ ranges m, c ∈ calls
  exists_range : ∀ c ∈ calls, ∃ d ∈ ranges m, d.start = c.start ∧ d.end_ = c.end_

/-- A start has one entry. -/
private theorem eq_of_start {m : IpListMap} (hm : InOrder m) {i j : UInt32 × List IpRange}
    (hi : i ∈ m) (hj : j ∈ m) (h : i.1 = j.1) : i = j := by
  have hnodup : (m.map Prod.fst).Nodup := by
    refine List.pairwise_map.mpr (hm.imp fun hlt heq => ?_)
    rw [heq] at hlt
    exact UInt32.lt_irrefl _ hlt
  exact List.inj_on_of_nodup_map hnodup hi hj h

/-- What a call adds to an entry. -/
private def putRange (c : AddRange) (i : UInt32 × List IpRange) : UInt32 × List IpRange :=
  if i.1 = c.start then (i.1, i.2 ++ [⟨c.end_, c.payload⟩]) else i

private theorem putRange_fst (c : AddRange) (i : UInt32 × List IpRange) :
    (putRange c i).1 = i.1 := by
  unfold putRange
  split <;> rfl

/-- The call by the entry that it finds. -/
private theorem addStep_eq (m : IpListMap) (c : AddRange) :
    addStep m c =
      match m.find? fun i => i.1 = c.start with
      | some i => if i.2.any fun r => r.end_ = c.end_ then m else m.map (putRange c)
      | none => insertKey c.start [⟨c.end_, c.payload⟩] m := by
  unfold addStep addRange
  dsimp only
  cases m.find? fun i => decide (i.1 = c.start) with
  | none => rfl
  | some i =>
    dsimp only
    by_cases hany : (i.2.any fun r => r.end_ = c.end_) = true
    · rw [if_pos hany, if_pos hany]
    · rw [if_neg hany, if_neg hany]
      rfl

/-- A call stores its range, unless one with its bounds is stored already. -/
theorem mem_ranges_addStep {m : IpListMap} (hm : InOrder m) (c d : AddRange) :
    d ∈ ranges (addStep m c) ↔
      d ∈ ranges m ∨ d = c ∧ ¬ ∃ e ∈ ranges m, e.start = c.start ∧ e.end_ = c.end_ := by
  have hstored : (∃ e ∈ ranges m, e.start = c.start ∧ e.end_ = c.end_) ↔
      ∃ rs, (c.start, rs) ∈ m ∧ ∃ r ∈ rs, r.end_ = c.end_ := by
    constructor
    · rintro ⟨e, he, hstart, hend⟩
      obtain ⟨rs, hrs, hr⟩ := mem_ranges.mp he
      exact ⟨rs, hstart ▸ hrs, _, hr, hend⟩
    · rintro ⟨rs, hrs, r, hr, hend⟩
      exact ⟨⟨c.start, r.end_, r.payload⟩, mem_ranges.mpr ⟨rs, hrs, hr⟩, rfl, hend⟩
  rw [hstored, addStep_eq]
  cases hfind : m.find? fun i => decide (i.1 = c.start) with
  | none =>
    have hnew : c.start ∉ m.map Prod.fst := by
      intro hmem
      obtain ⟨i, hi, heq⟩ := List.mem_map.mp hmem
      exact List.find?_eq_none.mp hfind i hi (decide_eq_true heq)
    have hnone : ¬ ∃ rs, (c.start, rs) ∈ m ∧ ∃ r ∈ rs, r.end_ = c.end_ := fun ⟨rs, hrs, _⟩ =>
      hnew (List.mem_map.mpr ⟨_, hrs, rfl⟩)
    dsimp only
    rw [mem_ranges, mem_ranges, and_iff_left hnone]
    simp only [(insertKey_perm hnew).mem_iff, List.mem_cons, Prod.mk.injEq, or_and_right,
      exists_or]
    rw [or_comm]
    refine or_congr_right ⟨?_, ?_⟩
    · rintro ⟨rs, ⟨hstart, rfl⟩, hr⟩
      obtain ⟨hend, hpayload⟩ := IpRange.mk.inj (List.mem_singleton.mp hr)
      cases d
      cases c
      exact AddRange.mk.injEq .. ▸ ⟨hstart, hend, hpayload⟩
    · rintro rfl
      exact ⟨_, ⟨rfl, rfl⟩, List.mem_singleton_self _⟩
  | some i =>
    have hi := List.mem_of_find?_eq_some hfind
    have hstart : i.1 = c.start := by simpa using List.find?_some hfind
    have hentry : ∀ rs, (c.start, rs) ∈ m ↔ rs = i.2 := by
      intro rs
      constructor
      · intro hrs
        exact congrArg Prod.snd (eq_of_start hm hrs hi hstart.symm)
      · rintro rfl
        rw [← hstart]
        exact hi
    simp only [hentry, exists_eq_left]
    split
    · next hany =>
      obtain ⟨r, hr, hend⟩ := List.any_eq_true.mp hany
      rw [or_iff_left]
      rintro ⟨-, hnot⟩
      exact hnot ⟨r, hr, of_decide_eq_true hend⟩
    · next hany =>
      have hnot : ¬ ∃ r ∈ i.2, r.end_ = c.end_ := by
        rintro ⟨r, hr, hend⟩
        exact hany (List.any_eq_true.mpr ⟨r, hr, decide_eq_true hend⟩)
      rw [and_iff_left hnot, mem_ranges, mem_ranges]
      constructor
      · rintro ⟨rs, hrs, hr⟩
        obtain ⟨j, hj, hput⟩ := List.mem_map.mp hrs
        unfold putRange at hput
        split at hput
        · next hjstart =>
          obtain ⟨hd, rfl⟩ := Prod.mk.inj hput
          rcases List.mem_append.mp hr with hr | hr
          · exact .inl ⟨j.2, hd ▸ hj, hr⟩
          · obtain ⟨hend, hpayload⟩ := IpRange.mk.inj (List.mem_singleton.mp hr)
            right
            cases d
            cases c
            exact AddRange.mk.injEq .. ▸ ⟨hd.symm.trans hjstart, hend, hpayload⟩
        · exact .inl ⟨rs, hput ▸ hj, hr⟩
      · rintro (⟨rs, hrs, hr⟩ | rfl)
        · refine ⟨(putRange c (d.start, rs)).2, List.mem_map.mpr ⟨_, hrs, ?_⟩, ?_⟩
          · exact Prod.ext (putRange_fst c _) rfl
          · unfold putRange
            split
            · exact List.mem_append_left _ hr
            · exact hr
        · refine ⟨i.2 ++ [⟨d.end_, d.payload⟩], List.mem_map.mpr ⟨i, hi, ?_⟩,
            List.mem_append_right _ List.mem_cons_self⟩
          rw [putRange, if_pos hstart, hstart]

/-- The entries stay in order, and each has a range. -/
private theorem wellFormed_addStep {m : IpListMap} (hm : InOrder m) (hne : ∀ i ∈ m, i.2 ≠ [])
    (c : AddRange) : InOrder (addStep m c) ∧ ∀ i ∈ addStep m c, i.2 ≠ [] := by
  rw [addStep_eq]
  cases hfind : m.find? fun i => decide (i.1 = c.start) with
  | none =>
    have hnew : c.start ∉ m.map Prod.fst := by
      intro hmem
      obtain ⟨i, hi, heq⟩ := List.mem_map.mp hmem
      exact List.find?_eq_none.mp hfind i hi (decide_eq_true heq)
    refine ⟨inOrder_insertKey hm hnew, fun i hi => ?_⟩
    rcases List.mem_cons.mp ((insertKey_perm hnew).mem_iff.mp hi) with rfl | hi
    · exact List.cons_ne_nil _ _
    · exact hne i hi
  | some i =>
    dsimp only
    split
    · exact ⟨hm, hne⟩
    · refine ⟨List.pairwise_map.mpr (hm.imp fun hlt => ?_), fun j hj => ?_⟩
      · rwa [putRange_fst, putRange_fst]
      · obtain ⟨k, hk, rfl⟩ := List.mem_map.mp hj
        unfold putRange
        split
        · exact List.append_ne_nil_of_right_ne_nil _ (List.cons_ne_nil _ _)
        · exact hne k hk

theorem Stores.add {calls : List AddRange} {m : IpListMap} (h : Stores calls m) (c : AddRange) :
    Stores (calls ++ [c]) (addStep m c) := by
  obtain ⟨horder, hne⟩ := wellFormed_addStep h.inOrder h.ne_nil c
  have hmem := mem_ranges_addStep h.inOrder c
  refine ⟨horder, hne, fun d hd => ?_, fun d hd => ?_⟩
  · rcases (hmem d).mp hd with hd | ⟨rfl, -⟩
    · exact List.mem_append_left _ (h.of_ranges d hd)
    · exact List.mem_append_right _ List.mem_cons_self
  · rcases List.mem_append.mp hd with hd | hd
    · obtain ⟨e, he, hbounds⟩ := h.exists_range d hd
      exact ⟨e, (hmem e).mpr (.inl he), hbounds⟩
    · rw [List.mem_singleton.mp hd]
      by_cases hold : ∃ e ∈ ranges m, e.start = c.start ∧ e.end_ = c.end_
      · obtain ⟨e, he, hbounds⟩ := hold
        exact ⟨e, (hmem e).mpr (.inl he), hbounds⟩
      · exact ⟨c, (hmem c).mpr (.inr ⟨rfl, hold⟩), rfl, rfl⟩

theorem stores_run (calls : List AddRange) : Stores calls (run addStep [] calls) := by
  induction calls using List.reverseRecOn with
  | nil => exact ⟨.nil, nofun, nofun, nofun⟩
  | append_singleton calls c ih =>
    rw [run_append]
    exact ih.add c

/-! ### Finding an address -/

/-- The address is beyond the ranges of an entry, or one of its ranges ends no earlier. -/
private theorem findIn_eq_none_iff {addr start : UInt32} {ranges : List IpRange} :
    (findIn addr start ranges).2 = none ↔ ∀ r ∈ ranges, ¬ addr ≤ r.end_ := by
  have hbest := best_findIn addr start ranges
  constructor
  · exact fun h => (hbest.of_none h).2
  · intro h
    cases hp : (findIn addr start ranges).2 with
    | none => rfl
    | some payload =>
      obtain ⟨r, hr, haddr, -⟩ := hbest.of_some payload hp
      exact absurd haddr (h r hr)

/-- The result is of the last entry with a range that holds the address. -/
private theorem lastHit_eq_some {addr : UInt32} {pre : IpListMap} {payload : UInt64}
    (h : lastHit addr pre = some payload) :
    ∃ init i post, pre = init ++ i :: post ∧ (findIn addr i.1 i.2).2 = some payload ∧
      ∀ j ∈ post, ∀ r ∈ j.2, ¬ addr ≤ r.end_ := by
  induction pre using List.reverseRecOn with
  | nil => cases h
  | append_singleton pre i ih =>
    rw [lastHit_append_singleton] at h
    cases hi : (findIn addr i.1 i.2).2 with
    | some p =>
      rw [hi] at h
      exact ⟨pre, i, [], rfl, hi.trans h, nofun⟩
    | none =>
      rw [hi] at h
      obtain ⟨init, j, post, rfl, hj, hpost⟩ := ih h
      refine ⟨init, j, post ++ [i], by simp, hj, fun k hk => ?_⟩
      rcases List.mem_append.mp hk with hk | hk
      · exact hpost k hk
      · rw [List.mem_singleton.mp hk]
        exact findIn_eq_none_iff.mp hi

private theorem lastHit_eq_none_iff {addr : UInt32} {pre : IpListMap} :
    lastHit addr pre = none ↔ ∀ i ∈ pre, ∀ r ∈ i.2, ¬ addr ≤ r.end_ := by
  unfold lastHit
  rw [List.findSome?_eq_none_iff]
  constructor
  · exact fun h i hi => findIn_eq_none_iff.mp (h i (List.mem_reverse.mpr hi))
  · exact fun h i hi => findIn_eq_none_iff.mpr (h i (List.mem_reverse.mp hi))

/-- A map in order splits where the starts get beyond the address. -/
private theorem exists_split {m : IpListMap} (hm : InOrder m) (addr : UInt32) :
    ∃ pre post, m = pre ++ post ∧ (∀ i ∈ pre, i.1 ≤ addr) ∧ ∀ i ∈ post, addr < i.1 := by
  induction m with
  | nil => exact ⟨[], [], rfl, nofun, nofun⟩
  | cons i m ih =>
    obtain ⟨hi, hm⟩ := List.pairwise_cons.mp hm
    by_cases hle : i.1 ≤ addr
    · obtain ⟨pre, post, rfl, hpre, hpost⟩ := ih hm
      exact ⟨i :: pre, post, rfl, List.forall_mem_cons.mpr ⟨hle, hpre⟩, hpost⟩
    · have hlt := UInt32.not_le.mp hle
      refine ⟨[], i :: m, rfl, nofun, List.forall_mem_cons.mpr ⟨hlt, fun j hj => ?_⟩⟩
      exact UInt32.lt_trans hlt (hi j hj)

/-- Of two ranges with an address in common that are nested, the one that begins behind the start of
the other is no longer. -/
private theorem AddRange.le_of_nested {c d : AddRange} {addr : UInt32} (h : c.DisjointOrNested d)
    (hc : c.Contains addr) (hd : d.Contains addr) (hlt : d.start < c.start) :
    c.end_ - c.start ≤ d.end_ - d.start := by
  have hends : c.end_ ≤ d.end_ := by
    rcases h with hdisjoint | hin | hout
    · exact absurd ⟨hc, hd⟩ (hdisjoint addr)
    · exact (hin c.end_ ⟨UInt32.le_trans hc.1 hc.2, UInt32.le_refl _⟩).2
    · have hfirst := hout d.start ⟨UInt32.le_refl _, UInt32.le_trans hd.1 hd.2⟩
      exact absurd hfirst.1 (UInt32.not_le.mpr hlt)
  have hcle := UInt32.le_trans hc.1 hc.2
  have hdle := UInt32.le_trans hd.1 hd.2
  rw [UInt32.le_iff_toNat_le, UInt32.toNat_sub_of_le _ _ hcle, UInt32.toNat_sub_of_le _ _ hdle]
  rw [UInt32.le_iff_toNat_le] at hends
  rw [UInt32.lt_iff_toNat_lt] at hlt
  omega

/-- The payload that is found is that of a smallest range, if the ranges are disjoint or nested. -/
private theorem smallest_of_lastHit {addr : UInt32} {pre post : IpListMap} {payload : UInt64}
    (hm : InOrder (pre ++ post)) (hpre : ∀ i ∈ pre, i.1 ≤ addr) (hpost : ∀ i ∈ post, addr < i.1)
    (hnested : ∀ c ∈ ranges (pre ++ post), ∀ d ∈ ranges (pre ++ post), c.DisjointOrNested d)
    (h : lastHit addr pre = some payload) :
    ∃ c ∈ ranges (pre ++ post), c.Contains addr ∧ c.payload = payload ∧
      ∀ d ∈ ranges (pre ++ post), d.Contains addr → c.end_ - c.start ≤ d.end_ - d.start := by
  obtain ⟨init, i, tail, rfl, hhit, htail⟩ := lastHit_eq_some h
  have hbest := best_findIn addr i.1 i.2
  obtain ⟨r, hr, haddr, hpayload, hlen⟩ := hbest.of_some payload hhit
  have hmem : ⟨i.1, r.end_, r.payload⟩ ∈ ranges (init ++ i :: tail ++ post) :=
    mem_ranges.mpr ⟨i.2, by simp, hr⟩
  have hstart : i.1 ≤ addr := hpre i (by simp)
  refine ⟨_, hmem, ⟨hstart, haddr⟩, hpayload, fun d hd hcontains => ?_⟩
  obtain ⟨rs, hrs, hrd⟩ := mem_ranges.mp hd
  rw [List.append_assoc, List.cons_append, List.mem_append, List.mem_cons, List.mem_append] at hrs
  rcases hrs with hrs | heq | hrs | hrs
  · -- an entry before that of the result
    have hlt : d.start < i.1 := by
      rw [List.append_assoc, List.cons_append] at hm
      exact (List.pairwise_append.mp hm).2.2 _ hrs i List.mem_cons_self
    exact AddRange.le_of_nested (hnested _ hmem d hd) ⟨hstart, haddr⟩ hcontains hlt
  · subst heq
    have hle := hbest.le _ hrd hcontains.2
    rw [hlen] at hle
    exact hle
  · exact absurd hcontains.2 (htail _ hrs _ hrd)
  · exact absurd hcontains.1 (UInt32.not_le.mpr (hpost _ hrs))

/-- `find` finds an address, or says that there is none, exactly when it is in a stored range or
before all of them. -/
theorem finds_run_iff (calls : List AddRange) (addr : UInt32) :
    Finds (run addStep [] calls) addr ↔
      (∃ c ∈ calls, c.Contains addr) ∨ ∀ c ∈ calls, addr < c.start := by
  have hstores := stores_run calls
  generalize run addStep [] calls = m at hstores ⊢
  obtain ⟨pre, post, rfl, hpre, hpost⟩ := exists_split hstores.inOrder addr
  have hfind := find_append hstores.inOrder hpre hpost
  have hbefore : (∀ c ∈ calls, addr < c.start) ↔ pre = [] := by
    constructor
    · intro hall
      rw [List.eq_nil_iff_forall_not_mem]
      intro i hi
      obtain ⟨r, hr⟩ := List.exists_mem_of_ne_nil _
        (hstores.ne_nil i (List.mem_append_left _ hi))
      have hmem : ⟨i.1, r.end_, r.payload⟩ ∈ ranges (pre ++ post) :=
        mem_ranges.mpr ⟨i.2, List.mem_append_left _ hi, hr⟩
      exact UInt32.not_le.mpr (hall _ (hstores.of_ranges _ hmem)) (hpre i hi)
    · rintro rfl c hc
      obtain ⟨d, hd, hstart, -⟩ := hstores.exists_range c hc
      obtain ⟨rs, hrs, -⟩ := mem_ranges.mp hd
      exact hstart ▸ hpost _ hrs
  have hcontains : (∃ c ∈ calls, c.Contains addr) ↔
      ∃ c ∈ ranges (pre ++ post), c.Contains addr := by
    constructor
    · rintro ⟨c, hc, hin⟩
      obtain ⟨d, hd, hstart, hend⟩ := hstores.exists_range c hc
      refine ⟨d, hd, ?_⟩
      unfold AddRange.Contains
      rw [hstart, hend]
      exact hin
    · exact fun ⟨c, hc, hin⟩ => ⟨c, hstores.of_ranges c hc, hin⟩
  have hnone : lastHit addr pre = none ↔ ¬ ∃ c ∈ ranges (pre ++ post), c.Contains addr := by
    rw [lastHit_eq_none_iff]
    constructor
    · rintro hout ⟨c, hc, hin⟩
      obtain ⟨rs, hrs, hr⟩ := mem_ranges.mp hc
      rcases List.mem_append.mp hrs with hrs | hrs
      · exact hout _ hrs _ hr hin.2
      · exact UInt32.not_le.mpr (hpost _ hrs) hin.1
    · intro hnot i hi r hr haddr
      exact hnot ⟨⟨i.1, r.end_, r.payload⟩,
        mem_ranges.mpr ⟨i.2, List.mem_append_left _ hi, hr⟩, hpre i hi, haddr⟩
  rw [hbefore, hcontains]
  unfold Finds
  rw [hfind]
  by_cases hnil : pre = []
  · rw [if_pos hnil]
    have hnot := hnone.mp (by rw [hnil]; rfl)
    refine iff_of_true ⟨none, rfl, ?_, fun _ _ h => nomatch h⟩ (.inr hnil)
    exact iff_of_false Bool.false_ne_true hnot
  · rw [if_neg hnil, or_iff_left hnil]
    cases hhit : lastHit addr pre with
    | none =>
      refine iff_of_false ?_ (hnone.mp hhit)
      rintro ⟨_, h, -⟩
      cases h
    | some payload =>
      have hin : ∃ c ∈ ranges (pre ++ post), c.Contains addr := by
        by_contra hnot
        rw [hnone.mpr hnot] at hhit
        cases hhit
      refine iff_of_true ⟨some payload, rfl, iff_of_true rfl hin, fun hnested p hp => ?_⟩ hin
      obtain rfl : payload = p := Option.some.inj hp
      exact smallest_of_lastHit hstores.inOrder hpre hpost hnested hhit

/-- Behind the only range, `find` goes back beyond the first entry. -/
theorem not_finds_behind : ¬ Finds (run addStep [] [⟨10, 20, 1⟩]) 30 := by
  have hfind : find (run addStep [] [⟨10, 20, 1⟩]) 30 = none := by decide
  rintro ⟨_, h, -⟩
  rw [hfind] at h
  cases h

end Blacklink.Net.IpList
