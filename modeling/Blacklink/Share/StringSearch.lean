import Blacklink.Base.Loop
import Blacklink.Share.Search

/-!
# Where a pattern occurs

`StringSearch` is a quick search (`client/StringSearch.h:122-188`): where the pattern is not, it is
moved until the byte behind it meets its last occurrence in the pattern. The entries of its table
have 8 or 16 bits. They are cut to these, so that the table of a pattern of 65535 bytes or more is
the one of its first bytes: a byte that is not among them may then have an entry of zero, with which
the search does not move, and one that is again further behind an entry that moves too far.
-/

namespace Blacklink.Share

namespace StringSearch

variable {p text : List UInt8} {c : UInt8}

/-! ### The table -/

/-- How far the last `c` of a text is from its end; one more than its length where there is none. -/
def back (p : List UInt8) (c : UInt8) : Nat := p.reverse.idxOf c + 1

theorem back_pos : 0 < back p c := Nat.succ_pos _

theorem back_le_length : back p c ≤ p.length + 1 := by
  have := List.idxOf_le_length (l := p.reverse) (a := c)
  rw [List.length_reverse] at this
  exact Nat.succ_le_succ this

theorem back_of_notMem (h : c ∉ p) : back p c = p.length + 1 := by
  rw [back, List.idxOf_eq_length (by rwa [List.mem_reverse]), List.length_reverse]

theorem back_le (h : c ∈ p) : back p c ≤ p.length := by
  have := List.idxOf_lt_length_iff.mpr (List.mem_reverse.mpr h)
  rw [List.length_reverse] at this
  exact this

@[simp] theorem back_concat {b : UInt8} :
    back (p ++ [b]) c = if b = c then 1 else back p c + 1 := by
  rw [back, List.reverse_append, List.reverse_singleton, List.singleton_append, List.idxOf_cons,
    Bool.cond_eq_ite]
  by_cases h : b = c <;> simp [h, back]

/-- The last `c` is there. -/
theorem getElem?_back (h : c ∈ p) : p[p.length - back p c]? = some c := by
  induction p using List.reverseRecOn with
  | nil => cases h
  | append_singleton p b ih =>
    rw [back_concat, List.length_append, List.length_singleton]
    split
    · next heq => rw [Nat.add_sub_cancel, List.getElem?_concat_length, heq]
    · next hne =>
      have hin : c ∈ p := by
        simpa [Ne.symm hne] using h
      have hpos := back_pos (p := p) (c := c)
      have hlen := back_le hin
      rw [Nat.add_sub_add_right, List.getElem?_append_left (by omega), ih hin]

/-- There is no `c` behind it. -/
theorem back_le_of_getElem? {i : Nat} (h : p[i]? = some c) : back p c ≤ p.length - i := by
  induction p using List.reverseRecOn with
  | nil => cases h
  | append_singleton p b ih =>
    rw [back_concat, List.length_append, List.length_singleton]
    by_cases hi : i < p.length
    · rw [List.getElem?_append_left hi] at h
      have := ih h
      split <;> omega
    · have heq : i = p.length := by
        have := (List.getElem?_eq_some_iff.mp h).1
        rw [List.length_append, List.length_singleton] at this
        omega
      rw [heq, List.getElem?_concat_length] at h
      rw [if_pos (Option.some.inj h)]
      omega

/-- The loop of `initDelta1` over the first `n` positions, for one character. -/
private theorem delta1_loop (c : UInt8) {last x n : Nat} (hn : n ≤ last) (hlen : n ≤ p.length) :
    (List.range n).foldl (fun d i => if p[i]? = some c then last - i else d) x =
      if c ∈ p.take n then last + back (p.take n) c - n else x := by
  induction n with
  | zero => simp
  | succ n ih =>
    have htake : p.take (n + 1) = p.take n ++ [p[n]] := List.take_succ_eq_append_getElem hlen
    rw [List.range_succ, List.foldl_append, List.foldl_cons, List.foldl_nil,
      ih (by omega) (by omega), htake, back_concat, List.getElem?_eq_getElem hlen]
    by_cases heq : p[n] = c
    · have hin : c ∈ p.take n ++ [p[n]] := by
        rw [heq]
        exact List.mem_append_right _ (List.mem_singleton_self c)
      rw [if_pos (congrArg some heq), if_pos hin, if_pos heq]
      omega
    · have hne : some p[n] ≠ some c := fun h => heq (Option.some.inj h)
      have hiff : c ∈ p.take n ++ [p[n]] ↔ c ∈ p.take n := by
        rw [List.mem_append, List.mem_singleton]
        exact or_iff_left (Ne.symm heq)
      rw [if_neg hne, if_neg heq, ← Nat.add_assoc, Nat.add_sub_add_right]
      simp only [hiff]

private theorem delta1_values {values : Nat} (hpos : 0 < values) :
    ((p.length + 1) % values + values - 1) % values = p.length % values := by
  have h := Nat.mod_add_mod (p.length + 1) values (values - 1)
  rw [Nat.add_sub_assoc hpos, h, show p.length + 1 + (values - 1) = p.length + values by omega,
    Nat.add_mod_right]

/-- An entry is the distance in the part of the pattern that its length, cut to 16 bits, covers. -/
theorem delta1_eq (p : List UInt8) (c : UInt8) :
    delta1 p c = back (p.take (p.length % 65536)) c % 65536 := by
  have key : ∀ values, 0 < values → (List.range (p.length % values)).foldl
      (fun d i => if p[i]? = some c then p.length % values - i else d)
      ((p.length + 1) % values) = back (p.take (p.length % values)) c % values := by
    intro values hpos
    have hlast := Nat.mod_lt p.length hpos
    have hlen : (p.take (p.length % values)).length = p.length % values :=
      List.length_take_of_le (Nat.mod_le _ _)
    rw [delta1_loop c le_rfl (Nat.mod_le _ _), Nat.add_sub_cancel_left]
    split
    · next hin =>
      have := back_le hin
      rw [hlen] at this
      exact (Nat.mod_eq_of_lt (Nat.lt_of_le_of_lt this hlast)).symm
    · next hnot => rw [back_of_notMem hnot, hlen, Nat.mod_add_mod]
  unfold delta1
  dsimp only
  split
  · next hshort =>
    have hback := back_le_length (p := p) (c := c)
    have h256 : p.length % 256 = p.length := Nat.mod_eq_of_lt (by omega)
    have h65536 : p.length % 65536 = p.length := Nat.mod_eq_of_lt (by omega)
    rw [delta1_values (by omega), key 256 (by omega), h256, h65536, List.take_length]
    exact (Nat.mod_eq_of_lt (by omega)).trans (Nat.mod_eq_of_lt (by omega)).symm
  · rw [delta1_values (by omega), key 65536 (by omega)]

/-- The entries of the table are shifts that pass by no occurrence. -/
def TableFits (p : List UInt8) : Prop :=
  ∀ c : UInt8, back (p.take (p.length % 65536)) c ≤ 65535 ∧
    back (p.take (p.length % 65536)) c ≤ back p c

theorem tableFits_of_length_lt (h : p.length < 65535) : TableFits p := by
  intro c
  have hback := back_le_length (p := p) (c := c)
  rw [Nat.mod_eq_of_lt (by omega), List.take_length]
  exact ⟨by omega, le_rfl⟩

theorem TableFits.delta1_spec (h : TableFits p) (c : UInt8) :
    0 < delta1 p c ∧ delta1 p c ≤ back p c := by
  obtain ⟨hfit, hle⟩ := h c
  rw [delta1_eq, Nat.mod_eq_of_lt (by omega)]
  exact ⟨back_pos, hle⟩

/-! ### The search -/

/-- The pattern is at the position of the text. -/
def OccursAt (p text : List UInt8) (j : Nat) : Prop := (text.drop j).take p.length = p

theorem infix_iff_occursAt : p <:+: text ↔ ∃ j, OccursAt p text j ∧ j + p.length ≤ text.length := by
  constructor
  · rintro ⟨l, r, rfl⟩
    refine ⟨l.length, ?_, ?_⟩
    · rw [OccursAt, List.append_assoc, List.drop_left, List.take_left]
    · simp only [List.length_append]
      omega
  · rintro ⟨j, hj, -⟩
    rw [← hj]
    exact (List.take_prefix _ _).isInfix.trans (List.drop_suffix _ _).isInfix

theorem OccursAt.getElem? {j i : Nat} (h : OccursAt p text j) (hi : i < p.length) :
    text[j + i]? = p[i]? := by
  conv_rhs => rw [← h]
  rw [List.getElem?_take_of_lt hi, List.getElem?_drop]

/-- The byte behind the pattern, which is a zero behind the text. -/
def behind (p text : List UInt8) (tx : Nat) : UInt8 := (text.drop (tx + p.length)).headD 0

theorem behind_of_getElem? {tx : Nat} {b : UInt8} (h : text[tx + p.length]? = some b) :
    behind p text tx = b := by
  obtain ⟨hin, hb⟩ := List.getElem?_eq_some_iff.mp h
  rw [behind, List.drop_eq_getElem_cons hin, List.headD_cons, hb]

/-- A move does not pass by an occurrence. -/
theorem TableFits.move_le (h : TableFits p) {tx j : Nat} (hj : OccursAt p text j) (hlt : tx < j) :
    tx + delta1 p (behind p text tx) ≤ j := by
  have hle := (h.delta1_spec (behind p text tx)).2
  by_cases hpast : tx + p.length < j
  · have := back_le_length (p := p) (c := behind p text tx)
    omega
  · -- the byte behind the pattern is in the occurrence
    have hi : tx + p.length - j < p.length := by omega
    have hchar := hj.getElem? hi
    rw [show j + (tx + p.length - j) = tx + p.length by omega] at hchar
    have hbyte := behind_of_getElem? (hchar.trans (List.getElem?_eq_getElem hi))
    have := back_le_of_getElem? (List.getElem?_eq_getElem hi)
    rw [← hbyte] at this
    omega

/-! ### The loop without a bound -/

/-- One pass of the loop of `doMatch`. -/
def pass (p text : List UInt8) (_fuel tx : Nat) : Option (Base.Pass Nat Bool) :=
  if text.length < tx + p.length then some (.done false)
  else if (text.drop tx).take p.length = p then some (.done true)
  else some (.again (tx + delta1 p (behind p text tx)))

/-- `matchKeepCase` returns the result. -/
def Returns (k : StringSearch) (text : List UInt8) (result : Bool) : Prop :=
  if text.length < k.pattern.length then result = false
  else Base.Ends (Base.loop (pass k.pattern text)) 0 result

private theorem pass_fuelMono : Base.FuelMono (pass p text) := fun _ _ _ _ _ h => h

theorem Returns.unique {k : StringSearch} {x y : Bool} (hx : k.Returns text x)
    (hy : k.Returns text y) : x = y := by
  unfold Returns at hx hy
  split at hx
  · next hlt =>
    rw [if_pos hlt] at hy
    rw [hx, hy]
  · next hlt =>
    rw [if_neg hlt] at hy
    exact hx.unique (Base.loop_fuelMono pass_fuelMono) hy

/-- As many passes as the text has bytes and one more are enough, if any number is. -/
private theorem doMatch_of_loop {m n tx : Nat} {result : Bool}
    (h : Base.loop (pass p text) m tx = some result) (hn : text.length < n + tx) :
    doMatch p text n tx = result := by
  induction m generalizing n tx with
  | zero => cases h
  | succ m ih =>
    rw [Base.loop, pass] at h
    by_cases hlt : text.length < tx + p.length
    · rw [if_pos hlt] at h
      cases h
      cases n with
      | zero => rfl
      | succ n => rw [doMatch, if_pos hlt]
    · obtain ⟨n, rfl⟩ : ∃ k, n = k + 1 := ⟨n - 1, by omega⟩
      rw [if_neg hlt] at h
      rw [doMatch, if_neg hlt]
      by_cases heq : (text.drop tx).take p.length = p
      · rw [if_pos heq] at h
        cases h
        rw [if_pos heq]
      · rw [if_neg heq] at h
        rw [if_neg heq]
        by_cases hzero : delta1 p (behind p text tx) = 0
        · -- a pass that does not move comes to the same place
          rw [hzero, Nat.add_zero] at h
          have hsame := ih h hn
          rwa [doMatch, if_neg hlt, if_neg heq] at hsame
        · have hpos : 0 < delta1 p ((text.drop (tx + p.length)).headD 0) :=
            Nat.pos_of_ne_zero hzero
          exact ih h (by omega)

/-- The result is the one of `matchKeepCase`. -/
theorem Returns.eq_matchKeepCase {k : StringSearch} {result : Bool} (h : k.Returns text result) :
    k.matchKeepCase text = result := by
  unfold Returns at h
  rw [matchKeepCase]
  split at h
  · next hlt => rw [if_pos hlt, h]
  · next hlt =>
    obtain ⟨m, hm⟩ := h
    rw [if_neg hlt]
    exact doMatch_of_loop hm (by omega)

/-- From a place that no occurrence is before, the search ends with the right result. -/
theorem TableFits.ends (h : TableFits p) (tx : Nat)
    (hbefore : ∀ j < tx, j + p.length ≤ text.length → ¬ OccursAt p text j) :
    ∃ result, Base.Ends (Base.loop (pass p text)) tx result ∧ (result = true ↔ p <:+: text) := by
  induction hn : text.length + 1 - tx using Nat.strong_induction_on generalizing tx with
  | _ n ih =>
    have hpass : ∀ {x}, pass p text 0 tx = some x → Base.Ends (pass p text) tx x :=
      fun hx => ⟨0, hx⟩
    by_cases hlt : text.length < tx + p.length
    · refine ⟨false, (hpass (by rw [pass, if_pos hlt])).done, ?_⟩
      rw [infix_iff_occursAt]
      constructor
      · intro hfalse
        cases hfalse
      · rintro ⟨j, hj, hlen⟩
        exact absurd hj (hbefore j (by omega) hlen)
    by_cases heq : (text.drop tx).take p.length = p
    · refine ⟨true, (hpass (by rw [pass, if_neg hlt, if_pos heq])).done, ?_⟩
      rw [infix_iff_occursAt]
      exact iff_of_true rfl ⟨tx, heq, by omega⟩
    · have hmove := (h.delta1_spec (behind p text tx)).1
      obtain ⟨result, hends, hresult⟩ := ih _ (by omega) (tx + delta1 p (behind p text tx))
        (fun j hj hlen hocc => by
          rcases Nat.lt_trichotomy j tx with hbef | rfl | haft
          · exact hbefore j hbef hlen hocc
          · exact heq hocc
          · have := h.move_le hocc haft
            omega) rfl
      refine ⟨result, ?_, hresult⟩
      exact (hpass (by rw [pass, if_neg hlt, if_neg heq])).again pass_fuelMono hends

/-- The search ends, with the right result. -/
def Finds (k : StringSearch) (text : List UInt8) : Prop :=
  ∃ result, k.Returns text result ∧ (result = true ↔ k.pattern <:+: text)

theorem TableFits.finds {k : StringSearch} (h : TableFits k.pattern) (text : List UInt8) :
    k.Finds text := by
  unfold Finds Returns
  by_cases hlt : text.length < k.pattern.length
  · simp only [if_pos hlt]
    refine ⟨false, rfl, ?_⟩
    constructor
    · intro hfalse
      cases hfalse
    · intro hin
      exact absurd hin.length_le (Nat.not_le.mpr hlt)
  · simp only [if_neg hlt]
    exact h.ends 0 (fun j hj => absurd hj (Nat.not_lt_zero j))

/-! ### Patterns that are too long for the table -/

/-- With an entry of zero the search stays where it is. -/
theorem not_returns_of_delta1_eq_zero {k : StringSearch} (hlen : k.pattern.length ≤ text.length)
    (hne : text.take k.pattern.length ≠ k.pattern)
    (hzero : delta1 k.pattern (behind k.pattern text 0) = 0) (result : Bool) :
    ¬ k.Returns text result := by
  rw [Returns, if_neg (by omega)]
  intro hends
  refine Base.not_halts_of_invariant (fun tx => tx = 0) ?_ rfl ⟨result, hends⟩
  rintro tx next rfl ⟨fuel, hfuel⟩
  rw [pass, if_neg (by omega), List.drop_zero, if_neg hne, hzero] at hfuel
  exact ⟨0, (Option.some.inj hfuel).symm, rfl⟩

/-- With an entry that is too large a pattern at the end of the text is passed by. -/
theorem returns_false_of_delta1_gt {k : StringSearch} (hlen : k.pattern.length ≤ text.length)
    (hne : text.take k.pattern.length ≠ k.pattern)
    (hfar : text.length < delta1 k.pattern (behind k.pattern text 0) + k.pattern.length) :
    k.Returns text false := by
  rw [Returns, if_neg (by omega)]
  have hmove : pass k.pattern text 0 0 =
      some (.again (delta1 k.pattern (behind k.pattern text 0))) := by
    rw [pass, if_neg (by omega), List.drop_zero, if_neg hne, Nat.zero_add]
  have hend : pass k.pattern text 0 (delta1 k.pattern (behind k.pattern text 0)) =
      some (.done false) := by
    rw [pass, if_pos hfar]
  exact Base.Ends.again pass_fuelMono ⟨0, hmove⟩ (Base.Ends.done ⟨0, hend⟩)

/-- A text that begins with another byte does not begin with the pattern. -/
private theorem exists_ne_head (hp : p ≠ []) : ∃ b : UInt8, ∀ t rest,
    0 < t → (List.replicate t b ++ rest).take p.length ≠ p := by
  cases p with
  | nil => exact absurd rfl hp
  | cons a p =>
    obtain ⟨b, hb⟩ : ∃ b : UInt8, b ≠ a := by
      by_cases ha : a = 0
      · exact ⟨1, by rw [ha]; decide⟩
      · exact ⟨0, Ne.symm ha⟩
    refine ⟨b, fun t rest ht heq => hb ?_⟩
    obtain ⟨t, rfl⟩ := Nat.exists_eq_succ_of_ne_zero (Nat.ne_of_gt ht)
    rw [List.replicate_succ, List.cons_append, List.length_cons, List.take_succ_cons] at heq
    exact (List.cons.inj heq).1

/-- Some text keeps the search from ending. -/
theorem exists_not_returns_of_back_gt {k : StringSearch} {c : UInt8}
    (h : 65535 < back (k.pattern.take (k.pattern.length % 65536)) c) :
    ∃ text, ∀ result, ¬ k.Returns text result := by
  have hback := back_le_length (p := k.pattern.take (k.pattern.length % 65536)) (c := c)
  have hmod := Nat.mod_lt k.pattern.length (show 65536 > 0 by decide)
  have hle := Nat.mod_le k.pattern.length 65536
  rw [List.length_take_of_le hle] at hback
  have hne : k.pattern ≠ [] := by
    intro hnil
    have hzero : k.pattern.length = 0 := List.length_eq_zero_iff.mpr hnil
    omega
  obtain ⟨b, hb⟩ := exists_ne_head hne
  refine ⟨List.replicate k.pattern.length b ++ [c], not_returns_of_delta1_eq_zero ?_ ?_ ?_⟩
  · rw [List.length_append, List.length_replicate]
    exact Nat.le_add_right _ _
  · exact hb _ _ (List.length_pos_iff.mpr hne)
  · rw [behind_of_getElem? (b := c) (by simp), delta1_eq]
    have heq : back (k.pattern.take (k.pattern.length % 65536)) c = 65536 := by omega
    rw [heq]

/-- Some text has the pattern and it is not found. -/
theorem exists_missed_of_back_gt {k : StringSearch} {c : UInt8}
    (hfit : back (k.pattern.take (k.pattern.length % 65536)) c ≤ 65535)
    (h : back k.pattern c < back (k.pattern.take (k.pattern.length % 65536)) c) :
    ∃ text, k.Returns text false ∧ k.pattern <:+: text := by
  have hback := back_le_length (p := k.pattern.take (k.pattern.length % 65536)) (c := c)
  have hle := Nat.mod_le k.pattern.length 65536
  rw [List.length_take_of_le hle] at hback
  have hin : c ∈ k.pattern := by
    by_contra hnot
    rw [back_of_notMem hnot] at h
    omega
  have hback' := back_le hin
  obtain ⟨b, hb⟩ := exists_ne_head (List.ne_nil_of_mem hin)
  refine ⟨List.replicate (back k.pattern c) b ++ k.pattern, returns_false_of_delta1_gt ?_ ?_ ?_,
    (List.suffix_append _ _).isInfix⟩
  · rw [List.length_append]
    exact Nat.le_add_left _ _
  · exact hb _ _ back_pos
  · have hbyte : behind k.pattern (List.replicate (back k.pattern c) b ++ k.pattern) 0 = c := by
      apply behind_of_getElem?
      rw [Nat.zero_add, List.getElem?_append_right (by rwa [List.length_replicate]),
        List.length_replicate, getElem?_back hin]
    rw [hbyte, delta1_eq, Nat.mod_eq_of_lt (by omega), List.length_append, List.length_replicate]
    omega

/-- The search is right on every text for the patterns whose table holds no shift of zero and none
that is too large. -/
theorem forall_finds_iff (k : StringSearch) : (∀ text, k.Finds text) ↔ TableFits k.pattern := by
  constructor
  · intro h c
    have hfit : back (k.pattern.take (k.pattern.length % 65536)) c ≤ 65535 := by
      by_contra hgt
      obtain ⟨text, hnot⟩ := exists_not_returns_of_back_gt (Nat.lt_of_not_le hgt)
      obtain ⟨result, hreturns, -⟩ := h text
      exact hnot result hreturns
    refine ⟨hfit, ?_⟩
    by_contra hgt
    obtain ⟨text, hfalse, hin⟩ := exists_missed_of_back_gt hfit (Nat.lt_of_not_le hgt)
    obtain ⟨result, hreturns, hresult⟩ := h text
    rw [hreturns.unique hfalse] at hresult
    cases hresult.mpr hin
  · exact fun h text => h.finds text

/-- In the table of such a pattern the entries of the other bytes are zero. -/
private theorem not_finds_replicate {m : Nat} (hm : m % 65536 = 65535) :
    ¬ (⟨List.replicate m 97⟩ : StringSearch).Finds (List.replicate m 98 ++ [99]) := by
  rintro ⟨result, hreturns, -⟩
  have hpos : m ≠ 0 := by omega
  refine not_returns_of_delta1_eq_zero ?_ ?_ ?_ result hreturns
  · simp
  · simp [List.replicate_inj, hpos]
  · rw [behind_of_getElem? (b := 99) (by simp), delta1_eq, back_of_notMem (by simp),
      List.length_take_of_le (Nat.mod_le _ _), List.length_replicate, hm]

/-- A pattern of 65535 equal bytes, the first of a length that is too large. -/
theorem not_finds_long :
    ¬ (⟨List.replicate 65535 97⟩ : StringSearch).Finds (List.replicate 65535 98 ++ [99]) :=
  not_finds_replicate (by decide)

/-- A pattern is found where it occurs, and only there. Only a pattern that is too long for the
table may be missed, and only in a text that is at least as long. -/
theorem matchKeepCase_iff {k : StringSearch}
    (h : k.pattern.length < 65535 ∨ text.length < k.pattern.length) :
    k.matchKeepCase text = true ↔ k.pattern <:+: text := by
  rcases h with hshort | hlt
  · obtain ⟨result, hreturns, hresult⟩ := (tableFits_of_length_lt hshort).finds text
    rw [hreturns.eq_matchKeepCase, hresult]
  · rw [matchKeepCase, if_pos hlt]
    constructor
    · intro hfalse
      cases hfalse
    · intro hin
      exact absurd hin.length_le (Nat.not_le.mpr hlt)

end StringSearch

end Blacklink.Share
