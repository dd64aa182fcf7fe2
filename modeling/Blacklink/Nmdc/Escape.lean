import Blacklink.Share.SearchParams
import Blacklink.Text.Split

/-!
# Escaped texts of NMDC

Model of `NmdcHub::escape` (`client/NmdcHub.cpp:2322-2359`), and that `unescape` undoes it. The
names of the characters begin with the same character and have it nowhere else, so what one of the
loops puts in is not changed by the others. In `validateMessage` (lines 2294-2359) the loops replace
in the text itself, from one position to the next, with the positions of the source.
-/

namespace Blacklink.Nmdc

open Blacklink.Text Blacklink.Share

/-- Each character is replaced, depending on what is behind it. -/
def expand (block : UInt8 → List UInt8 → List UInt8) : List UInt8 → List UInt8
  | [] => []
  | b :: s => block b s ++ expand block s

/-- The loop of `validateMessage` that escapes the first character of a name. -/
def escapeName (name : List UInt8) : List UInt8 → List UInt8 :=
  expand fun b s => if name.isPrefixOf (b :: s) then ascii "&amp;" else [b]

/-- The loop of `validateMessage` that replaces a character by its name. -/
def escapeChar (c : UInt8) (name : List UInt8) : List UInt8 → List UInt8 :=
  expand fun b _ => if b = c then name else [b]

/-- `NmdcHub::escape`. -/
def escapeNmdc (s : List UInt8) : List UInt8 :=
  let s := escapeName (ascii "&amp;") s
  let s := escapeName (ascii "&#36;") s
  let s := escapeName (ascii "&#124;") s
  let s := escapeChar 0x24 (ascii "&#36;") s
  escapeChar 0x7c (ascii "&#124;") s

example : escapeNmdc (ascii "a$b&#36;c&d") = ascii "a&#36;b&amp;#36;c&d" := by rfl

/-! ### One loop -/

/-- The loop with as much fuel as it needs. -/
def unname (name : List UInt8) (c : UInt8) (s : List UInt8) : List UInt8 :=
  replaceAll name c s.length s

private theorem replaceAll_enough {name : List UInt8} {c : UInt8} {n : Nat} {s : List UInt8}
    (hname : name ≠ []) (h : s.length ≤ n) : replaceAll name c n s = unname name c s := by
  induction n using Nat.strong_induction_on generalizing s with
  | _ n ih =>
    cases s with
    | nil => cases n <;> rfl
    | cons b s =>
      obtain ⟨m, rfl⟩ : ∃ m, n = m + 1 := ⟨n - 1, by rw [List.length_cons] at h; omega⟩
      rw [List.length_cons] at h
      have hlen : 0 < name.length := List.length_pos_iff.mpr hname
      unfold unname
      rw [List.length_cons, replaceAll, replaceAll]
      split
      · have hdrop : ((b :: s).drop name.length).length ≤ s.length := by
          rw [List.length_drop, List.length_cons]
          omega
        rw [ih m (by omega) (hdrop.trans (by omega)), ih s.length (by omega) hdrop]
      · rw [ih m (by omega) (by omega), ih s.length (by omega) le_rfl]

theorem unname_append {name : List UInt8} (hname : name ≠ []) (c : UInt8) (s : List UInt8) :
    unname name c (name ++ s) = c :: unname name c s := by
  obtain ⟨b, t, rfl⟩ := List.exists_cons_of_ne_nil hname
  have hpre : (b :: t).isPrefixOf (b :: (t ++ s)) = true :=
    List.isPrefixOf_iff_prefix.mpr ⟨s, rfl⟩
  have hdrop : (b :: (t ++ s)).drop (b :: t).length = s := List.drop_left
  rw [List.cons_append, unname, List.length_cons, replaceAll, if_pos hpre, hdrop]
  exact congrArg _ (replaceAll_enough hname (by rw [List.length_append]; omega))

theorem unname_cons {name : List UInt8} {b : UInt8} {s : List UInt8}
    (h : name.isPrefixOf (b :: s) = false) (c : UInt8) :
    unname name c (b :: s) = b :: unname name c s := by
  rw [unname, List.length_cons, replaceAll, h]
  rfl

/-! ### All loops -/

attribute [local simp] expand

/-- The texts begin with the same, as far as nothing in it is changed. -/
def Same (r s : List UInt8) : Prop :=
  ∀ t : List UInt8, 0x26 ∉ t → 0x24 ∉ t → 0x7c ∉ t → t.isPrefixOf r = t.isPrefixOf s

/-- A block is the character it is for, or begins the name of one that is changed. -/
def IsBlock (block : UInt8 → List UInt8 → List UInt8) : Prop :=
  ∀ b s, block b s = [b] ∨
    (b = 0x26 ∨ b = 0x24 ∨ b = 0x7c) ∧ (block b s).head? = some 0x26

theorem same_expand {block : UInt8 → List UInt8 → List UInt8} (h : IsBlock block)
    (s : List UInt8) : Same (expand block s) s := by
  intro t hamp hdollar hbar
  induction t generalizing s with
  | nil => rfl
  | cons a t ih =>
    rw [List.mem_cons, not_or] at hamp hdollar hbar
    cases s with
    | nil => rfl
    | cons b s =>
      rw [expand]
      rcases h b s with hone | ⟨hb, hhead⟩
      · rw [hone, List.singleton_append, List.isPrefixOf, List.isPrefixOf,
          ih s hamp.2 hdollar.2 hbar.2]
      · obtain ⟨u, hu⟩ := List.head?_eq_some_iff.mp hhead
        have hba : (a == b) = false := by
          rw [beq_eq_false_iff_ne]
          rintro rfl
          rcases hb with rfl | rfl | rfl
          · exact hamp.1 rfl
          · exact hdollar.1 rfl
          · exact hbar.1 rfl
        have ha : (a == 0x26) = false := beq_eq_false_iff_ne.mpr (Ne.symm hamp.1)
        rw [hu, List.cons_append, List.isPrefixOf, List.isPrefixOf, hba, ha]
        rfl

/-- A loop over an expanded text expands it by what it makes of the blocks. -/
theorem expand_expand {block block' block'' : UInt8 → List UInt8 → List UInt8}
    (h : IsBlock block)
    (hloop : ∀ b s r, Same r s → expand block' (block b s ++ r) = block'' b s ++ expand block' r)
    (s : List UInt8) : expand block' (expand block s) = expand block'' s := by
  induction s with
  | nil => rfl
  | cons b s ih => rw [expand, hloop b s _ (same_expand h s), ih, expand]

theorem unname_expand {block block' : UInt8 → List UInt8 → List UInt8} {name : List UInt8}
    {c : UInt8} (h : IsBlock block)
    (hloop : ∀ b s r, Same r s → unname name c (block b s ++ r) = block' b s ++ unname name c r)
    (s : List UInt8) : unname name c (expand block s) = expand block' s := by
  induction s with
  | nil => rfl
  | cons b s ih => rw [expand, hloop b s _ (same_expand h s), ih, expand]

theorem expand_singleton (s : List UInt8) : expand (fun b _ => [b]) s = s := by
  induction s with
  | nil => rfl
  | cons b s ih => rw [expand, ih, List.singleton_append]

/-! ### The names -/

/-- The name of `&` without that, and so on. -/
def tails : List (List UInt8) := [ascii "#124;", ascii "#36;", ascii "amp;"]

/-- The first character is `&`, and a name that begins with it is one of these. -/
def Named (ts : List (List UInt8)) (b : UInt8) (s : List UInt8) : Prop :=
  b = 0x26 ∧ ∃ t ∈ ts, t.isPrefixOf s = true

instance (ts : List (List UInt8)) (b : UInt8) (s : List UInt8) : Decidable (Named ts b s) :=
  inferInstanceAs (Decidable (_ ∧ ∃ t ∈ ts, _))

/-- What is left of names when their first character is escaped. -/
def escapedBlock (ts : List (List UInt8)) (b : UInt8) (s : List UInt8) : List UInt8 :=
  if Named ts b s then ascii "&amp;" else [b]

private theorem tails_plain {t : List UInt8} (h : t ∈ tails) :
    0x26 ∉ t ∧ 0x24 ∉ t ∧ 0x7c ∉ t := by
  revert t
  decide

private theorem isPrefixOf_name (t : List UInt8) (b : UInt8) (s : List UInt8) :
    (0x26 :: t).isPrefixOf (b :: s) = true ↔ b = 0x26 ∧ t.isPrefixOf s = true := by
  rw [List.isPrefixOf, Bool.and_eq_true, beq_iff_eq, eq_comm]

private theorem not_isPrefixOf_name {t : List UInt8} {b : UInt8} (h : b ≠ 0x26)
    (s : List UInt8) : (0x26 :: t).isPrefixOf (b :: s) = false := by
  rw [← Bool.not_eq_true, isPrefixOf_name]
  exact fun hpre => h hpre.1

private theorem ascii_amp : ascii "&amp;" = 0x26 :: ascii "amp;" := by decide

private theorem ascii_dollar : ascii "&#36;" = 0x26 :: ascii "#36;" := by decide

private theorem ascii_bar : ascii "&#124;" = 0x26 :: ascii "#124;" := by decide

private theorem isBlock_escapedBlock (ts : List (List UInt8)) : IsBlock (escapedBlock ts) := by
  intro b s
  unfold escapedBlock
  split
  · next h => exact .inr ⟨.inl h.1, by decide⟩
  · exact .inl rfl

/-- A loop that changes none of the characters goes through them. -/
private theorem expand_through {block : UInt8 → List UInt8 → List UInt8} {u : List UInt8}
    (h : ∀ b ∈ u, ∀ s, block b s = [b]) (r : List UInt8) :
    expand block (u ++ r) = u ++ expand block r := by
  induction u with
  | nil => rfl
  | cons b u ih =>
    rw [List.forall_mem_cons] at h
    rw [List.cons_append, expand, h.1, ih h.2, List.singleton_append, List.cons_append]

private theorem unname_through {t u : List UInt8} (h : 0x26 ∉ u) (c : UInt8) (r : List UInt8) :
    unname (0x26 :: t) c (u ++ r) = u ++ unname (0x26 :: t) c r := by
  induction u with
  | nil => rfl
  | cons b u ih =>
    rw [List.mem_cons, not_or] at h
    rw [List.cons_append, unname_cons (not_isPrefixOf_name (Ne.symm h.1) _), ih h.2,
      List.cons_append]

/-- Another name is left as it is. -/
private theorem unname_other {t u : List UInt8} (hu : 0x26 ∉ u)
    (hother : ∀ r, t.isPrefixOf (u ++ r) = false) (c : UInt8) (r : List UInt8) :
    unname (0x26 :: t) c (0x26 :: u ++ r) = 0x26 :: u ++ unname (0x26 :: t) c r := by
  have hfirst : (0x26 :: t).isPrefixOf (0x26 :: (u ++ r)) = false := by
    rw [List.isPrefixOf, hother r]
    rfl
  rw [List.cons_append, unname_cons hfirst, unname_through hu, List.cons_append]

/-- One more name is escaped. -/
private theorem escapeName_escapedBlock {ts : List (List UInt8)} {t : List UInt8}
    (ht : t ∈ tails) (hamp : ts = [] ∨ ∀ r, t.isPrefixOf (ascii "amp;" ++ r) = false)
    (s : List UInt8) :
    escapeName (0x26 :: t) (expand (escapedBlock ts) s) = expand (escapedBlock (t :: ts)) s := by
  refine expand_expand (isBlock_escapedBlock ts) (fun b s r hsame => ?_) s
  have hnamed : Named (t :: ts) b s ↔ (b = 0x26 ∧ t.isPrefixOf s = true) ∨ Named ts b s := by
    unfold Named
    simp only [List.mem_cons, exists_eq_or_imp, and_or_left]
  by_cases hold : Named ts b s
  · have hother := hamp.resolve_left fun hnil => by
      obtain ⟨-, t', ht', -⟩ := hold
      rw [hnil] at ht'
      cases ht'
    have hfirst : ¬ (0x26 :: t).isPrefixOf (0x26 :: (ascii "amp;" ++ r)) = true := by
      rw [isPrefixOf_name, hother r]
      exact fun h => Bool.false_ne_true h.2
    rw [escapedBlock, if_pos hold, escapedBlock, if_pos (hnamed.mpr (.inr hold)), ascii_amp,
      List.cons_append, expand, if_neg hfirst, expand_through]
    · rfl
    · intro a ha s'
      refine if_neg ?_
      rw [isPrefixOf_name]
      rintro ⟨rfl, -⟩
      revert ha
      decide
  · obtain ⟨hplain, hplain', hplain''⟩ := tails_plain ht
    have hiff : (0x26 :: t).isPrefixOf (b :: r) = true ↔ Named (t :: ts) b s := by
      rw [isPrefixOf_name, hsame t hplain hplain' hplain'', hnamed, or_iff_left hold]
    rw [escapedBlock, if_neg hold, List.singleton_append, expand]
    congr 1
    unfold escapedBlock
    simp only [hiff]

/-- What becomes of a character and what is behind it. -/
def charBlock (b : UInt8) (s : List UInt8) : List UInt8 :=
  if b = 0x7c then ascii "&#124;"
  else if b = 0x24 then ascii "&#36;"
  else escapedBlock tails b s

/-- A loop that replaces a character adds its block. -/
private theorem escapeChar_expand {block : UInt8 → List UInt8 → List UInt8} (h : IsBlock block)
    {c : UInt8} {name : List UInt8} (hplain : ∀ s, block c s = [c])
    (hnew : ∀ b ≠ c, ∀ s, c ∉ block b s) (s : List UInt8) :
    escapeChar c name (expand block s) =
      expand (fun b s => if b = c then name else block b s) s := by
  refine expand_expand h (fun b s r _ => ?_) s
  by_cases hb : b = c
  · subst hb
    rw [hplain, if_pos rfl, List.singleton_append, expand, if_pos rfl]
  · rw [if_neg hb, expand_through]
    intro a ha _
    refine if_neg ?_
    rintro rfl
    exact hnew b hb s ha

private theorem mem_escapedBlock {ts : List (List UInt8)} {b c : UInt8} {s : List UInt8}
    (h : c ∈ escapedBlock ts b s) : c = b ∨ c ∈ ascii "&amp;" := by
  unfold escapedBlock at h
  split at h
  · exact .inr h
  · exact .inl (List.mem_singleton.mp h)

private theorem escapedBlock_of_ne {b : UInt8} (h : b ≠ 0x26) (ts : List (List UInt8))
    (s : List UInt8) : escapedBlock ts b s = [b] := if_neg fun hnamed => h hnamed.1

/-- All loops of `escape` in one. -/
theorem escapeNmdc_eq (s : List UInt8) : escapeNmdc s = expand charBlock s := by
  have hnames : escapeName (ascii "&#124;") (escapeName (ascii "&#36;")
      (escapeName (ascii "&amp;") s)) = expand (escapedBlock tails) s := by
    have hnone : expand (escapedBlock []) s = s := by
      rw [show escapedBlock [] = fun b _ => [b] from
        funext fun b => funext fun s => if_neg (by rintro ⟨-, t, ht, -⟩; cases ht)]
      exact expand_singleton s
    conv_lhs => rw [← hnone]
    rw [ascii_amp, escapeName_escapedBlock (by decide) (.inl rfl), ascii_dollar,
      escapeName_escapedBlock (by decide) (.inr fun r => rfl), ascii_bar,
      escapeName_escapedBlock (by decide) (.inr fun r => rfl)]
    rfl
  have hdollar : IsBlock fun b s => if b = 0x24 then ascii "&#36;" else escapedBlock tails b s := by
    intro b s
    dsimp only
    split
    · next hb => exact .inr ⟨.inr (.inl hb), by decide⟩
    · exact isBlock_escapedBlock tails b s
  unfold escapeNmdc
  dsimp only
  rw [hnames, escapeChar_expand (isBlock_escapedBlock tails)
    (fun s => escapedBlock_of_ne (by decide) tails s), escapeChar_expand hdollar]
  · rfl
  · intro s
    rw [if_neg (by decide)]
    exact escapedBlock_of_ne (by decide) tails s
  · intro b hb s hmem
    split at hmem
    · revert hmem
      decide
    · rcases mem_escapedBlock hmem with heq | hamp
      · exact hb heq.symm
      · revert hamp
        decide
  · intro b hb s hmem
    rcases mem_escapedBlock hmem with heq | hamp
    · exact hb heq.symm
    · revert hamp
      decide

/-- The loops of `unescape` for other names leave the escaped ones. -/
private theorem unname_escapedBlock {t : List UInt8} (ht : t ∈ tails)
    (hamp : ∀ r, t.isPrefixOf (ascii "amp;" ++ r) = false) (c b : UInt8) {s r : List UInt8}
    (hsame : Same r s) :
    unname (0x26 :: t) c (escapedBlock tails b s ++ r) =
      escapedBlock tails b s ++ unname (0x26 :: t) c r := by
  unfold escapedBlock
  split
  · rw [ascii_amp]
    exact unname_other (by decide) hamp c r
  · next hnamed =>
    obtain ⟨hplain, hplain', hplain''⟩ := tails_plain ht
    have hfirst : (0x26 :: t).isPrefixOf (b :: r) = false := by
      rw [← Bool.not_eq_true, isPrefixOf_name, hsame t hplain hplain' hplain'']
      exact fun h => hnamed ⟨h.1, t, ht, h.2⟩
    rw [List.singleton_append, unname_cons hfirst, List.singleton_append]

/-- `unescape` undoes `escape`. -/
theorem unescapeNmdc_escapeNmdc (s : List UInt8) : unescapeNmdc (escapeNmdc s) = s := by
  have hchar : IsBlock charBlock := by
    intro b s
    unfold charBlock
    split
    · next hb => exact .inr ⟨.inr (.inr hb), by decide⟩
    · split
      · next hb => exact .inr ⟨.inr (.inl hb), by decide⟩
      · exact isBlock_escapedBlock tails b s
  have hbar : IsBlock fun b s => if b = 0x7c then ascii "&#124;" else escapedBlock tails b s := by
    intro b s
    dsimp only
    split
    · next hb => exact .inr ⟨.inr (.inr hb), by decide⟩
    · exact isBlock_escapedBlock tails b s
  have hfirst : ∀ s, unname (ascii "&#36;") 0x24 (expand charBlock s) =
      expand (fun b s => if b = 0x7c then ascii "&#124;" else escapedBlock tails b s) s := by
    refine unname_expand hchar fun b s r hsame => ?_
    unfold charBlock
    split
    · rw [ascii_dollar, ascii_bar]
      exact unname_other (by decide) (fun _ => rfl) 0x24 r
    · split
      · next hb =>
        rw [unname_append (by decide), hb, escapedBlock_of_ne (by decide), List.singleton_append]
      · rw [ascii_dollar]
        exact unname_escapedBlock (by decide) (fun _ => rfl) 0x24 b hsame
  have hsecond : ∀ s, unname (ascii "&#124;") 0x7c (expand (fun b s =>
      if b = 0x7c then ascii "&#124;" else escapedBlock tails b s) s) =
      expand (escapedBlock tails) s := by
    refine unname_expand hbar fun b s r hsame => ?_
    split
    · next hb =>
      rw [unname_append (by decide), hb, escapedBlock_of_ne (by decide), List.singleton_append]
    · rw [ascii_bar]
      exact unname_escapedBlock (by decide) (fun _ => rfl) 0x7c b hsame
  have hthird : ∀ s, unname (ascii "&amp;") 0x26 (expand (escapedBlock tails) s) =
      expand (fun b _ => [b]) s := by
    refine unname_expand (isBlock_escapedBlock tails) fun b s r hsame => ?_
    unfold escapedBlock
    split
    · next hnamed => rw [unname_append (by decide), hnamed.1, List.singleton_append]
    · next hnamed =>
      have hnot : (0x26 :: ascii "amp;").isPrefixOf (b :: r) = false := by
        rw [← Bool.not_eq_true, isPrefixOf_name, hsame _ (by decide) (by decide) (by decide)]
        exact fun h => hnamed ⟨h.1, _, by decide, h.2⟩
      rw [ascii_amp, List.singleton_append, unname_cons hnot, List.singleton_append]
  change unname (ascii "&amp;") 0x26 (unname (ascii "&#124;") 0x7c
    (unname (ascii "&#36;") 0x24 (escapeNmdc s))) = s
  rw [escapeNmdc_eq, hfirst, hsecond, hthird, expand_singleton]

/-! ### Spaces -/

/-- `std::replace(query.begin(), query.end(), ' ', '$')`. -/
def spacesToDollars (s : List UInt8) : List UInt8 := s.map fun c => if c = 0x20 then 0x24 else c

private theorem isPrefixOf_spacesToDollars {t : List UInt8} (hspace : 0x20 ∉ t)
    (hdollar : 0x24 ∉ t) (s : List UInt8) : t.isPrefixOf (spacesToDollars s) = t.isPrefixOf s := by
  induction t generalizing s with
  | nil => rfl
  | cons a t ih =>
    rw [List.mem_cons, not_or] at hspace hdollar
    cases s with
    | nil => rfl
    | cons b s =>
      have hhead : (a == if b = 0x20 then 0x24 else b) = (a == b) := by
        split
        · next hb =>
          rw [hb, beq_eq_false_iff_ne.mpr (Ne.symm hdollar.1),
            beq_eq_false_iff_ne.mpr (Ne.symm hspace.1)]
        · rfl
      have hcons : spacesToDollars (b :: s) = (if b = 0x20 then 0x24 else b) :: spacesToDollars s :=
        rfl
      rw [hcons, List.isPrefixOf, List.isPrefixOf, hhead, ih hspace.2 hdollar.2]

/-- A loop of `unescape` changes no space. -/
private theorem unname_spacesToDollars {name : List UInt8} {c : UInt8} (hname : name ≠ [])
    (hspace : 0x20 ∉ name) (hdollar : 0x24 ∉ name) (hc : c ≠ 0x20) (s : List UInt8) :
    unname name c (spacesToDollars s) = spacesToDollars (unname name c s) := by
  induction hn : s.length using Nat.strong_induction_on generalizing s with
  | _ n ih =>
    cases s with
    | nil => rfl
    | cons b s =>
      cases hpre : name.isPrefixOf (b :: s) with
      | true =>
        obtain ⟨r, hr⟩ := List.isPrefixOf_iff_prefix.mp hpre
        have hlen : r.length < n := by
          have hpos := List.length_pos_iff.mpr hname
          rw [← hn, ← hr, List.length_append]
          omega
        have hsame : spacesToDollars name = name := by
          conv_rhs => rw [← List.map_id name]
          apply List.map_congr_left
          intro a ha
          refine if_neg ?_
          rintro rfl
          exact hspace ha
        have happend : spacesToDollars (name ++ r) = name ++ spacesToDollars r := by
          rw [spacesToDollars, List.map_append]
          exact congrArg (· ++ _) hsame
        have hcons : spacesToDollars (c :: unname name c r) =
            c :: spacesToDollars (unname name c r) := by
          rw [spacesToDollars, List.map_cons, if_neg hc]
          rfl
        rw [← hr, happend, unname_append hname, unname_append hname, ih r.length hlen r rfl, hcons]
      | false =>
        have hpre' :
            name.isPrefixOf ((if b = 0x20 then 0x24 else b) :: spacesToDollars s) = false :=
          (isPrefixOf_spacesToDollars hspace hdollar (b :: s)).trans hpre
        rw [unname_cons hpre]
        change unname name c ((if b = 0x20 then 0x24 else b) :: spacesToDollars s) =
          (if b = 0x20 then 0x24 else b) :: spacesToDollars (unname name c s)
        rw [unname_cons hpre', ih s.length (by rw [← hn]; exact Nat.lt_succ_self _) s rfl]

/-- A text whose spaces have become separators after it was escaped. -/
theorem unescapeNmdc_spacesToDollars (s : List UInt8) :
    unescapeNmdc (spacesToDollars (escapeNmdc s)) = spacesToDollars s := by
  have h : ∀ u, unescapeNmdc (spacesToDollars u) = spacesToDollars (unescapeNmdc u) := by
    intro u
    change unname (ascii "&amp;") 0x26 (unname (ascii "&#124;") 0x7c
      (unname (ascii "&#36;") 0x24 (spacesToDollars u))) = _
    rw [unname_spacesToDollars (by decide) (by decide) (by decide) (by decide),
      unname_spacesToDollars (by decide) (by decide) (by decide) (by decide),
      unname_spacesToDollars (by decide) (by decide) (by decide) (by decide)]
    rfl
  rw [h, unescapeNmdc_escapeNmdc]

/-- The separators split the text where the spaces do, if it has no separators of its own. -/
theorem tokens_spacesToDollars {s : List UInt8} (h : 0x24 ∉ s) :
    tokens 0x24 (spacesToDollars s) = tokens 0x20 s := by
  have hslice : ∀ (s cur : List UInt8), 0x24 ∉ s →
      slice 0x24 (spacesToDollars s) cur = slice 0x20 s cur := by
    intro s
    induction s with
    | nil => exact fun _ _ => rfl
    | cons b s ih =>
      intro cur hnot
      rw [List.mem_cons, not_or] at hnot
      change slice 0x24 ((if b = 0x20 then 0x24 else b) :: spacesToDollars s) cur = _
      rw [slice, slice]
      by_cases hb : b = 0x20
      · rw [if_pos hb, if_pos rfl, if_pos hb, ih _ hnot.2]
      · rw [if_neg hb, if_neg (Ne.symm hnot.1), if_neg hb, ih _ hnot.2]
  exact hslice s [] h

/-! ### Replacing in place -/

/-- `while ((i = tmp.find(pattern, i)) != npos) { tmp.replace(i, cut, text); i += step; }`, with the
number of passes that are left. -/
def replaceLoop (pattern : List UInt8) (cut : Nat) (text : List UInt8) (step : Nat) :
    Nat → Nat → List UInt8 → Option (List UInt8)
  | 0, _, _ => none
  | n + 1, i, tmp =>
    match findText pattern (tmp.drop i) with
    | none => some tmp
    | some k =>
      replaceLoop pattern cut text step n (i + k + step)
        (tmp.take (i + k) ++ text ++ tmp.drop (i + k + cut))

/-- The loop from a position on; no text has more places than characters. -/
def replaceFrom (pattern : List UInt8) (cut : Nat) (text : List UInt8) (step i : Nat)
    (tmp : List UInt8) : Option (List UInt8) :=
  replaceLoop pattern cut text step (tmp.length + 1) i tmp

/-- `validateMessage`. -/
def validateMessage (tmp : List UInt8) (reverse : Bool) : Option (List UInt8) :=
  let j := tmp.findIdx? (· = 0x26)
  if reverse then
    match j with
    | none => some tmp
    | some j =>
      (replaceFrom (ascii "&#36;") 5 (ascii "$") 1 j tmp).bind fun tmp =>
      (replaceFrom (ascii "&#124;") 6 (ascii "|") 1 j tmp).bind fun tmp =>
      replaceFrom (ascii "&amp;") 5 (ascii "&") 1 j tmp
  else
    let named :=
      match j with
      | none => some tmp
      | some j =>
        (replaceFrom (ascii "&amp;") 1 (ascii "&amp;") 4 j tmp).bind fun tmp =>
        (replaceFrom (ascii "&#36;") 1 (ascii "&amp;") 4 j tmp).bind fun tmp =>
        replaceFrom (ascii "&#124;") 1 (ascii "&amp;") 4 j tmp
    named.bind fun tmp =>
    (replaceFrom (ascii "$") 1 (ascii "&#36;") 4 0 tmp).bind fun tmp =>
    replaceFrom (ascii "|") 1 (ascii "&#124;") 5 0 tmp

section Replace

variable {h : UInt8} {t : List UInt8} {f : List UInt8 → List UInt8}

/-- Up to the place where the pattern is next, a loop over the characters changes nothing. -/
private theorem findText_skip (hnil : f [] = [])
    (hskip : ∀ b s, (h :: t).isPrefixOf (b :: s) = false → f (b :: s) = b :: f s)
    (s : List UInt8) :
    match findText (h :: t) s with
    | none => f s = s
    | some k => ∃ u r, s = u ++ (h :: t ++ r) ∧ u.length = k ∧ f s = u ++ f (h :: t ++ r) := by
  induction s with
  | nil => exact hnil
  | cons b s ih =>
    rw [findText]
    cases hpre : (h :: t).isPrefixOf (b :: s) with
    | true =>
      obtain ⟨r, hr⟩ := List.isPrefixOf_iff_prefix.mp hpre
      exact ⟨[], r, hr.symm, rfl, congrArg f hr.symm⟩
    | false =>
      have hb := hskip b s hpre
      rw [if_neg Bool.false_ne_true]
      cases hfind : findText (h :: t) s with
      | none =>
        rw [hfind] at ih
        exact hb.trans (congrArg (b :: ·) ih)
      | some k =>
        rw [hfind] at ih
        obtain ⟨u, r, hs, hk, hf⟩ := ih
        exact ⟨b :: u, r, congrArg (b :: ·) hs, congrArg (· + 1) hk,
          hb.trans (congrArg (b :: ·) hf)⟩

/-- The loop in place does what one over the characters does. The first character of the pattern is
met once less in what is left after each pass. -/
private theorem replaceLoop_eq {cut step : Nat} {text : List UInt8} (hcut : 0 < cut)
    (hstep : step ≤ text.length) (hfirst : h ∉ text.drop step) (hnil : f [] = [])
    (hskip : ∀ b s, (h :: t).isPrefixOf (b :: s) = false → f (b :: s) = b :: f s)
    (hhit : ∀ r, f (h :: t ++ r) =
      text.take step ++ f (text.drop step ++ (h :: t ++ r).drop cut)) :
    ∀ n (done rest : List UInt8), rest.count h < n →
      replaceLoop (h :: t) cut text step n done.length (done ++ rest) = some (done ++ f rest) := by
  intro n
  induction n with
  | zero => exact fun _ _ hlt => absurd hlt (Nat.not_lt_zero _)
  | succ n ih =>
    intro done rest hlt
    have hfind := findText_skip hnil hskip rest
    rw [replaceLoop, List.drop_left]
    cases hk : findText (h :: t) rest with
    | none =>
      rw [hk] at hfind
      exact congrArg (fun s => some (done ++ s)) hfind.symm
    | some k =>
      rw [hk] at hfind
      obtain ⟨u, r, rfl, rfl, hf⟩ := hfind
      have htake : (done ++ (u ++ (h :: t ++ r))).take (done.length + u.length) = done ++ u := by
        rw [List.take_length_add_append, List.take_left]
      have hdrop : (done ++ (u ++ (h :: t ++ r))).drop (done.length + u.length + cut) =
          (h :: t ++ r).drop cut := by
        rw [Nat.add_assoc, List.drop_length_add_append, List.drop_length_add_append]
      have hnext : done.length + u.length + step = (done ++ u ++ text.take step).length := by
        rw [List.length_append, List.length_append, List.length_take, Nat.min_eq_left hstep]
      have hcount : (text.drop step ++ (h :: t ++ r).drop cut).count h < n := by
        have hsub : ((h :: t ++ r).drop cut).count h ≤ (t ++ r).count h := by
          obtain ⟨m, rfl⟩ : ∃ m, cut = m + 1 := ⟨cut - 1, by omega⟩
          exact (List.drop_sublist m (t ++ r)).count_le h
        rw [List.count_append, List.cons_append, List.count_cons_self] at hlt
        rw [List.count_append, List.count_eq_zero_of_not_mem hfirst]
        omega
      have hsplit : done ++ u ++ text ++ (h :: t ++ r).drop cut =
          done ++ u ++ text.take step ++ (text.drop step ++ (h :: t ++ r).drop cut) := by
        rw [← List.append_assoc, List.append_assoc (done ++ u) (text.take step),
          List.take_append_drop]
      dsimp only
      rw [htake, hdrop, hnext, hsplit, ih _ _ hcount, hf, hhit]
      simp only [List.append_assoc]

/-- The loop from the first place where the pattern can be. -/
private theorem replaceFrom_eq {cut step : Nat} {text : List UInt8} (hcut : 0 < cut)
    (hstep : step ≤ text.length) (hfirst : h ∉ text.drop step) (hnil : f [] = [])
    (hskip : ∀ b s, (h :: t).isPrefixOf (b :: s) = false → f (b :: s) = b :: f s)
    (hhit : ∀ r, f (h :: t ++ r) =
      text.take step ++ f (text.drop step ++ (h :: t ++ r).drop cut))
    {u s : List UInt8} (hu : h ∉ u) :
    replaceFrom (h :: t) cut text step u.length (u ++ s) = some (f (u ++ s)) := by
  have hlt : s.count h < (u ++ s).length + 1 := by
    have hle := List.count_le_length (a := h) (l := s)
    rw [List.length_append]
    omega
  rw [replaceFrom, replaceLoop_eq hcut hstep hfirst hnil hskip hhit _ _ _ hlt]
  congr 1
  clear hlt
  induction u with
  | nil => rfl
  | cons b u ih =>
    rw [List.mem_cons, not_or] at hu
    have hpre : (h :: t).isPrefixOf (b :: (u ++ s)) = false := by
      rw [List.isPrefixOf, beq_eq_false_iff_ne.mpr hu.1, Bool.false_and]
    rw [List.cons_append, List.cons_append, hskip _ _ hpre, ih hu.2]

end Replace

/-- The loop of `escape` for a name. -/
private theorem replaceFrom_escapeName {t u s : List UInt8} (ht : t ∈ tails) (hu : 0x26 ∉ u) :
    replaceFrom (0x26 :: t) 1 (ascii "&amp;") 4 u.length (u ++ s) =
      some (escapeName (0x26 :: t) (u ++ s)) := by
  have hplain := (tails_plain ht).1
  have hother : ∀ {b : UInt8}, b ≠ 0x26 → ∀ r, escapeName (0x26 :: t) (b :: r) =
      b :: escapeName (0x26 :: t) r := by
    intro b hb r
    unfold escapeName
    rw [expand, not_isPrefixOf_name hb]
    rfl
  refine replaceFrom_eq (by decide) (by decide) (by decide) rfl (fun b r hpre => ?_)
    (fun r => ?_) hu
  · unfold escapeName
    rw [expand, hpre]
    rfl
  · have hpre : (0x26 :: t).isPrefixOf (0x26 :: (t ++ r)) = true :=
      List.isPrefixOf_iff_prefix.mpr ⟨r, rfl⟩
    have hhead : escapeName (0x26 :: t) (0x26 :: (t ++ r)) =
        ascii "&amp;" ++ escapeName (0x26 :: t) (t ++ r) := by
      unfold escapeName
      rw [expand, hpre]
      rfl
    have hlast : (ascii "&amp;").drop 4 = [0x3b] := by decide
    rw [hlast, List.singleton_append, hother (by decide), List.cons_append, hhead,
      ← List.take_append_drop 4 (ascii "&amp;"), hlast, List.append_assoc]
    rfl

/-- The loop of `escape` for a character. -/
private theorem replaceFrom_escapeChar {c d : UInt8} (name : List UInt8) (hd : d ≠ c)
    (s : List UInt8) :
    replaceFrom [c] 1 (name ++ [d]) name.length 0 s = some (escapeChar c (name ++ [d]) s) := by
  have hhead : ∀ r, escapeChar c (name ++ [d]) (c :: r) =
      name ++ [d] ++ escapeChar c (name ++ [d]) r := by
    intro r
    unfold escapeChar
    rw [expand, if_pos rfl]
  have hother : ∀ {b : UInt8}, b ≠ c → ∀ r, escapeChar c (name ++ [d]) (b :: r) =
      b :: escapeChar c (name ++ [d]) r := by
    intro b hb r
    unfold escapeChar
    rw [expand, if_neg hb]
    rfl
  have hdrop : (name ++ [d]).drop name.length = [d] := List.drop_left
  have hskip : ∀ b r, [c].isPrefixOf (b :: r) = false →
      escapeChar c (name ++ [d]) (b :: r) = b :: escapeChar c (name ++ [d]) r := by
    intro b r hpre
    refine hother ?_ r
    rintro rfl
    simp [List.isPrefixOf] at hpre
  have hhit : ∀ r, escapeChar c (name ++ [d]) ([c] ++ r) = (name ++ [d]).take name.length ++
      escapeChar c (name ++ [d]) ((name ++ [d]).drop name.length ++ ([c] ++ r).drop 1) := by
    intro r
    rw [List.take_left, hdrop, List.singleton_append, List.singleton_append, List.drop_one,
      List.tail_cons, hother hd, hhead, List.append_assoc]
    rfl
  have hfirst : c ∉ (name ++ [d]).drop name.length := by
    rw [hdrop]
    simpa using Ne.symm hd
  have hstep : name.length ≤ (name ++ [d]).length := by
    rw [List.length_append]
    omega
  exact replaceFrom_eq (u := []) Nat.one_pos hstep hfirst rfl hskip hhit List.not_mem_nil

/-- The loop of `unescape` for a name. -/
private theorem replaceFrom_unname {t u s : List UInt8} (c : UInt8) (hu : 0x26 ∉ u) :
    replaceFrom (0x26 :: t) (t.length + 1) [c] 1 u.length (u ++ s) =
      some (unname (0x26 :: t) c (u ++ s)) := by
  refine replaceFrom_eq (Nat.succ_pos _) (Nat.le_refl 1) List.not_mem_nil rfl
    (fun b r hpre => unname_cons hpre c) (fun r => ?_) hu
  rw [unname_append (List.cons_ne_nil _ _), List.drop_left' (List.length_cons ..)]
  rfl

/-- A text has no `&`, or the loops begin behind the part without. -/
private theorem findIdx?_amp (s : List UInt8) :
    match s.findIdx? (· = 0x26) with
    | none => 0x26 ∉ s
    | some j => ∃ u r, s = u ++ r ∧ u.length = j ∧ 0x26 ∉ u := by
  cases hj : s.findIdx? (· = 0x26) with
  | none =>
    intro hmem
    exact absurd (List.findIdx?_eq_none_iff.mp hj _ hmem) (by decide)
  | some j =>
    obtain ⟨hlt, -, hnot⟩ := List.findIdx?_eq_some_iff_getElem.mp hj
    refine ⟨s.take j, s.drop j, (List.take_append_drop j s).symm,
      List.length_take_of_le (Nat.le_of_lt hlt), fun hmem => ?_⟩
    obtain ⟨i, hi, heq⟩ := List.mem_take_iff_getElem.mp hmem
    exact hnot i (by omega) (decide_eq_true heq)

private theorem escapeName_append {t u : List UInt8} (hu : 0x26 ∉ u) (r : List UInt8) :
    escapeName (0x26 :: t) (u ++ r) = u ++ escapeName (0x26 :: t) r := by
  refine expand_through (fun b hb s => ?_) r
  have hne : b ≠ 0x26 := by
    rintro rfl
    exact hu hb
  rw [not_isPrefixOf_name hne]
  rfl

/-- The loops of `escape` for names, from the first `&` on. -/
private theorem replaceFrom_names {u r : List UInt8} (hu : 0x26 ∉ u) :
    ((replaceFrom (ascii "&amp;") 1 (ascii "&amp;") 4 u.length (u ++ r)).bind fun tmp =>
      (replaceFrom (ascii "&#36;") 1 (ascii "&amp;") 4 u.length tmp).bind fun tmp =>
      replaceFrom (ascii "&#124;") 1 (ascii "&amp;") 4 u.length tmp) =
    some (escapeName (ascii "&#124;") (escapeName (ascii "&#36;")
      (escapeName (ascii "&amp;") (u ++ r)))) := by
  have hone : ∀ t ∈ tails, ∀ s, replaceFrom (0x26 :: t) 1 (ascii "&amp;") 4 u.length (u ++ s) =
      some (u ++ escapeName (0x26 :: t) s) := by
    intro t ht s
    rw [replaceFrom_escapeName ht hu, escapeName_append hu]
  rw [show replaceFrom (ascii "&amp;") = replaceFrom (0x26 :: ascii "amp;") from
      congrArg replaceFrom ascii_amp, hone _ (by decide), Option.bind_some, ascii_dollar,
    hone _ (by decide), Option.bind_some, ascii_bar, hone _ (by decide), ascii_amp,
    escapeName_append hu, escapeName_append hu, escapeName_append hu]

/-- `validateMessage` escapes. -/
theorem validateMessage_false (s : List UInt8) : validateMessage s false = some (escapeNmdc s) := by
  have hdollar : ∀ tmp, replaceFrom (ascii "$") 1 (ascii "&#36;") 4 0 tmp =
      some (escapeChar 0x24 (ascii "&#36;") tmp) := fun tmp =>
    replaceFrom_escapeChar (d := 0x3b) (ascii "&#36") (by decide) tmp
  have hbar : ∀ tmp, replaceFrom (ascii "|") 1 (ascii "&#124;") 5 0 tmp =
      some (escapeChar 0x7c (ascii "&#124;") tmp) := fun tmp =>
    replaceFrom_escapeChar (d := 0x3b) (ascii "&#124") (by decide) tmp
  have hamp := findIdx?_amp s
  unfold validateMessage
  dsimp only
  rw [if_neg Bool.false_ne_true]
  cases hj : s.findIdx? (· = 0x26) with
  | none =>
    rw [hj] at hamp
    have hsame : ∀ t, escapeName (0x26 :: t) s = s := fun t => by
      simpa [escapeName, expand] using escapeName_append (t := t) hamp []
    dsimp only
    rw [Option.bind_some, hdollar, Option.bind_some, hbar, escapeNmdc, ascii_amp, ascii_dollar,
      ascii_bar, hsame, hsame, hsame]
  | some j =>
    rw [hj] at hamp
    obtain ⟨u, r, rfl, rfl, hu⟩ := hamp
    dsimp only
    rw [replaceFrom_names hu, Option.bind_some, hdollar, Option.bind_some, hbar]
    rfl

/-- `validateMessage` unescapes. -/
theorem validateMessage_true (s : List UInt8) : validateMessage s true = some (unescapeNmdc s) := by
  have hunescape : unescapeNmdc s = unname (ascii "&amp;") 0x26 (unname (ascii "&#124;") 0x7c
      (unname (ascii "&#36;") 0x24 s)) := rfl
  have hamp := findIdx?_amp s
  unfold validateMessage
  dsimp only
  rw [if_pos rfl, hunescape, ascii_amp, ascii_dollar, ascii_bar]
  cases hj : s.findIdx? (· = 0x26) with
  | none =>
    rw [hj] at hamp
    have hsame : ∀ t c, unname (0x26 :: t) c s = s := by
      intro t c
      have hthrough := unname_through (t := t) hamp c []
      rw [List.append_nil] at hthrough
      exact hthrough.trans (List.append_nil s)
    rw [hsame, hsame, hsame]
  | some j =>
    rw [hj] at hamp
    obtain ⟨u, r, rfl, rfl, hu⟩ := hamp
    have hone : ∀ (t : List UInt8) (c : UInt8) (s : List UInt8),
        replaceFrom (0x26 :: t) (t.length + 1) [c] 1 u.length (u ++ s) =
          some (u ++ unname (0x26 :: t) c s) := by
      intro t c s
      rw [replaceFrom_unname c hu, unname_through hu]
    have hdollar := hone (ascii "#36;") 0x24 r
    have hbar := hone (ascii "#124;") 0x7c (unname (0x26 :: ascii "#36;") 0x24 r)
    have hlast := hone (ascii "amp;") 0x26
      (unname (0x26 :: ascii "#124;") 0x7c (unname (0x26 :: ascii "#36;") 0x24 r))
    rw [unname_through hu, unname_through hu, unname_through hu]
    exact (Option.bind_eq_some_iff.mpr ⟨_, hdollar, Option.bind_eq_some_iff.mpr ⟨_, hbar, hlast⟩⟩)

/-- No block of an escaped text has a separator. -/
private theorem not_mem_charBlock {c : UInt8} (hc : c = 0x24 ∨ c = 0x7c) (b : UInt8)
    (s : List UInt8) : c ∉ charBlock b s := by
  have hascii : c ∉ ascii "&#124;" ∧ c ∉ ascii "&#36;" ∧ c ∉ ascii "&amp;" := by
    rcases hc with rfl | rfl <;> decide
  unfold charBlock
  split
  · exact hascii.1
  · next hbar =>
    split
    · exact hascii.2.1
    · next hdollar =>
      intro hmem
      rcases mem_escapedBlock hmem with rfl | hamp
      · exact hc.elim hdollar hbar
      · exact hascii.2.2 hamp

/-- A text comes through the protocol as it is, and without separators on the way. -/
theorem validateMessage_roundTrip (s : List UInt8) :
    ∃ e, validateMessage s false = some e ∧ 0x24 ∉ e ∧ 0x7c ∉ e ∧
      validateMessage e true = some s := by
  have hnot : ∀ {c : UInt8}, c = 0x24 ∨ c = 0x7c → c ∉ escapeNmdc s := by
    intro c hc
    rw [escapeNmdc_eq]
    induction s with
    | nil => exact List.not_mem_nil
    | cons b s ih =>
      rw [expand, List.mem_append, not_or]
      exact ⟨not_mem_charBlock hc b s, ih⟩
  refine ⟨escapeNmdc s, validateMessage_false s, hnot (.inl rfl), hnot (.inr rfl), ?_⟩
  rw [validateMessage_true, unescapeNmdc_escapeNmdc]

end Blacklink.Nmdc
