import Blacklink.Share.AdcResults
import Blacklink.Share.SearchParams

/-!
# Extensions of files

Model of the names that are tested with `AdcSearchParam::hasExt`
(`client/ShareManager.cpp:2616-2629`) one after the other. The first test takes the excluded
extensions out of the included ones with `std::set_difference`, although neither list is sorted, and
the lists stay as it leaves them.
-/

namespace Blacklink.Share

open Blacklink.Text (ascii)

/-- A name ends with an extension when case is ignored. -/
def EndsWith (name ext : List UInt8) : Prop :=
  (ext.map fun c : UInt8 => if 0x41 ≤ c ∧ c ≤ 0x5a then c + 0x20 else c) <:+
    name.map fun c : UInt8 => if 0x41 ≤ c ∧ c ≤ 0x5a then c + 0x20 else c

instance (name ext : List UInt8) : Decidable (EndsWith name ext) :=
  inferInstanceAs (Decidable (_ <:+ _))

theorem EndsWith.refl (name : List UInt8) : EndsWith name name := List.suffix_refl _

theorem EndsWith.trans {name ext ext' : List UInt8} (h : EndsWith name ext)
    (h' : EndsWith ext ext') : EndsWith name ext' := List.IsSuffix.trans h' h

/-- The comparison that `hasExt` makes. -/
theorem endsWith_iff {name ext : List UInt8} :
    EndsWith name ext ↔ (ext.length ≤ name.length &&
      strnicmpEq (name.drop (name.length - ext.length)) ext ext.length) = true := by
  have htake : (name.drop (name.length - ext.length)).take ext.length =
      name.drop (name.length - ext.length) := by
    apply List.take_of_length_le
    rw [List.length_drop]
    omega
  rw [Bool.and_eq_true, decide_eq_true_eq, EndsWith, List.suffix_iff_eq_drop, strnicmpEq,
    decide_eq_true_eq, htake, List.take_length, List.length_map, List.length_map, ← List.map_drop]
  constructor
  · intro heq
    refine ⟨?_, heq.symm⟩
    have hlen := congrArg List.length heq
    rw [List.length_map, List.length_map, List.length_drop] at hlen
    omega
  · exact fun h => h.2.symm

/-! ### What `set_difference` leaves -/

/-- The excluded extensions that are left when one included extension has been gone through. -/
def leftBehind (bs : List (List UInt8)) (a : List UInt8) : List (List UInt8) :=
  match bs.dropWhile (· < a) with
  | [] => []
  | b :: bs => if b = a then bs else b :: bs

/-- An included extension stays at one of the places where it stands: it is not the first of the
excluded ones left there that are not less. -/
def Survives (exts noExts : List (List UInt8)) (ext : List UInt8) : Prop :=
  ∃ before rest, exts = before ++ ext :: rest ∧
    ((before.foldl leftBehind noExts).dropWhile (· < ext)).head? ≠ some ext

private theorem leftBehind_nil (l : List (List UInt8)) : l.foldl leftBehind [] = [] := by
  induction l with
  | nil => rfl
  | cons a l ih => exact ih

private theorem survives_cons {a : List UInt8} {as bs : List (List UInt8)} {ext : List UInt8} :
    Survives (a :: as) bs ext ↔
      (ext = a ∧ (bs.dropWhile (· < a)).head? ≠ some a) ∨ Survives as (leftBehind bs a) ext := by
  constructor
  · rintro ⟨before, rest, heq, hhead⟩
    cases before with
    | nil =>
      obtain ⟨rfl, -⟩ := List.cons.inj heq
      exact .inl ⟨rfl, hhead⟩
    | cons b before =>
      obtain ⟨rfl, rfl⟩ := List.cons.inj heq
      exact .inr ⟨before, rest, rfl, hhead⟩
  · rintro (⟨rfl, hhead⟩ | ⟨before, rest, rfl, hhead⟩)
    · exact ⟨[], as, rfl, hhead⟩
    · exact ⟨a :: before, rest, rfl, hhead⟩

/-- What is left of the included extensions. -/
theorem mem_setDifference_iff {n : Nat} {exts noExts : List (List UInt8)} {ext : List UInt8}
    (hn : exts.length + noExts.length ≤ n) :
    ext ∈ setDifference n exts noExts ↔ Survives exts noExts ext := by
  fun_induction setDifference n exts noExts with
  | case1 exts noExts =>
    have hnil : exts = [] := List.eq_nil_of_length_eq_zero (by omega)
    refine iff_of_false List.not_mem_nil ?_
    rintro ⟨before, rest, heq, -⟩
    rw [hnil] at heq
    exact absurd heq (by simp)
  | case2 n noExts =>
    refine iff_of_false List.not_mem_nil ?_
    rintro ⟨before, rest, heq, -⟩
    exact absurd heq (by simp)
  | case3 n exts hne =>
    rw [List.mem_iff_append]
    refine exists_congr fun before => exists_congr fun rest => ?_
    rw [leftBehind_nil]
    simp
  | case4 n a as b bs hlt ih =>
    have hnot : ¬ b < a := List.lt_asymm hlt
    have hdrop : (b :: bs).dropWhile (· < a) = b :: bs := by simp [hnot]
    have hne : b ≠ a := by
      rintro rfl
      exact List.lt_irrefl _ hlt
    have hleft : leftBehind (b :: bs) a = b :: bs := by
      rw [leftBehind, hdrop]
      exact if_neg hne
    rw [List.mem_cons, ih (by simp at hn ⊢; omega), survives_cons, hleft, hdrop]
    simp [hne]
  | case5 n a as b bs hnot hlt ih =>
    have hdrop : (b :: bs).dropWhile (· < a) = bs.dropWhile (· < a) := by simp [hlt]
    have hleft : leftBehind (b :: bs) a = leftBehind bs a := by rw [leftBehind, leftBehind, hdrop]
    rw [ih (by simp at hn ⊢; omega), survives_cons, survives_cons, hdrop, hleft]
  | case6 n a as b bs hnot hnot' ih =>
    obtain rfl : a = b := by
      apply List.le_antisymm
      · exact List.not_lt.mp hnot'
      · exact List.not_lt.mp hnot
    have hdrop : (a :: bs).dropWhile (· < a) = a :: bs := by simp [hnot]
    have hleft : leftBehind (a :: bs) a = bs := by
      rw [leftBehind, hdrop]
      exact if_pos rfl
    rw [ih (by simp at hn ⊢; omega), survives_cons, hleft, hdrop]
    simp

/-- An extension that is not excluded stays. -/
theorem survives_of_not_mem {exts noExts : List (List UInt8)} {ext : List UInt8} (hmem : ext ∈ exts)
    (hnot : ext ∉ noExts) : Survives exts noExts ext := by
  have hsub : ∀ (l bs : List (List UInt8)), ∀ b ∈ l.foldl leftBehind bs, b ∈ bs := by
    intro l
    induction l with
    | nil => exact fun bs b hb => hb
    | cons a l ih =>
      intro bs b hb
      have hb' := ih _ b hb
      rw [leftBehind] at hb'
      split at hb'
      · exact absurd hb' List.not_mem_nil
      · next b' bs' hdrop =>
        have hmem' : b ∈ bs.dropWhile (· < a) := by
          rw [hdrop]
          split at hb'
          · exact List.mem_cons_of_mem _ hb'
          · exact hb'
        exact List.dropWhile_sublist _ |>.subset hmem'
  obtain ⟨before, rest, rfl⟩ := List.append_of_mem hmem
  refine ⟨before, rest, rfl, fun hhead => hnot ?_⟩
  exact hsub before noExts ext ((List.dropWhile_sublist _).subset (List.mem_of_head? hhead))

namespace AdcSearchParam

variable (sp : AdcSearchParam)

/-- What `hasExt` returns for names that are tested one after the other. -/
def hasExts : AdcSearchParam → List (List UInt8) → List Bool
  | _, [] => []
  | sp, name :: names => sp.hasExt name :: hasExts sp.useNoExts names

/-- Nothing is included, or the name ends with an extension that is included and not excluded. -/
def WantsExt (name : List UInt8) : Prop :=
  sp.exts = [] ∨ ∃ ext ∈ sp.exts, ext ∉ sp.noExts ∧ EndsWith name ext

instance (name : List UInt8) : Decidable (sp.WantsExt name) := inferInstanceAs (Decidable (_ ∨ _))

/-- Some included extension is not excluded, and one that is excluded and stays nevertheless ends
with one that is not. -/
structure ExtsRight : Prop where
  wanted : ∃ ext ∈ sp.exts, ext ∉ sp.noExts
  excluded : ∀ ext ∈ sp.noExts, Survives sp.exts sp.noExts ext →
    ∃ ext' ∈ sp.exts, ext' ∉ sp.noExts ∧ EndsWith ext ext'

variable {sp}

theorem hasExt_iff {name : List UInt8} :
    sp.hasExt name = true ↔ sp.exts = [] ∨ ∃ ext ∈ sp.useNoExts.exts, EndsWith name ext := by
  rw [hasExt, Bool.or_eq_true, decide_eq_true_eq, List.any_eq_true]
  exact or_congr_right (exists_congr fun ext => and_congr_right fun _ => endsWith_iff.symm)

/-- The extensions that are left behind the first test. -/
theorem mem_useNoExts {ext : List UInt8} (hexts : sp.exts ≠ []) (hnoExts : sp.noExts ≠ []) :
    ext ∈ sp.useNoExts.exts ↔ Survives sp.exts sp.noExts ext := by
  rw [useNoExts, if_neg (by simp [hexts, hnoExts])]
  exact mem_setDifference_iff le_rfl

/-- Behind the first test the parameters do not change. -/
theorem hasExts_of_stays (h : sp.useNoExts = sp) (names : List (List UInt8)) :
    sp.hasExts names = names.map sp.hasExt := by
  induction names with
  | nil => rfl
  | cons name names ih => rw [hasExts, h, ih, List.map_cons]

theorem hasExts_cons (name : List UInt8) (names : List (List UInt8)) :
    sp.hasExts (name :: names) = sp.hasExt name :: names.map sp.useNoExts.hasExt := by
  rw [hasExts, hasExts_of_stays (useNoExts_useNoExts sp)]

/-- If the lists are right, so is every test, the first one and those behind it. -/
private theorem hasExt_of_right (hexts : sp.exts ≠ []) (hnoExts : sp.noExts ≠ [])
    (h : sp.ExtsRight) (name : List UInt8) :
    sp.hasExt name = decide (sp.WantsExt name) ∧
      sp.useNoExts.hasExt name = decide (sp.WantsExt name) := by
  have hsame : (∃ ext ∈ sp.useNoExts.exts, EndsWith name ext) ↔ sp.WantsExt name := by
    rw [WantsExt, or_iff_right hexts]
    constructor
    · rintro ⟨ext, hmem, hends⟩
      rw [mem_useNoExts hexts hnoExts] at hmem
      by_cases hno : ext ∈ sp.noExts
      · obtain ⟨ext', hmem', hnot, hends'⟩ := h.excluded ext hno hmem
        exact ⟨ext', hmem', hnot, hends.trans hends'⟩
      · obtain ⟨before, rest, heq, -⟩ := hmem
        exact ⟨ext, heq ▸ by simp, hno, hends⟩
    · rintro ⟨ext, hmem, hnot, hends⟩
      exact ⟨ext, (mem_useNoExts hexts hnoExts).mpr (survives_of_not_mem hmem hnot), hends⟩
  obtain ⟨ext, hmem, hnot⟩ := h.wanted
  have hleft : sp.useNoExts.exts ≠ [] :=
    List.ne_nil_of_mem ((mem_useNoExts hexts hnoExts).mpr (survives_of_not_mem hmem hnot))
  constructor
  · rw [Bool.eq_iff_iff, decide_eq_true_eq, hasExt_iff, or_iff_right hexts, hsame]
  · rw [Bool.eq_iff_iff, decide_eq_true_eq, hasExt_iff, or_iff_right hleft, useNoExts_useNoExts,
      hsame]

/-- The tests are right for all names exactly when nothing is included, nothing is excluded or the
lists are right. -/
theorem hasExts_eq_iff (sp : AdcSearchParam) :
    (∀ names, sp.hasExts names = names.map fun name => decide (sp.WantsExt name)) ↔
      sp.exts = [] ∨ sp.noExts = [] ∨ sp.ExtsRight := by
  by_cases hexts : sp.exts = []
  · refine iff_of_true (fun names => ?_) (.inl hexts)
    rw [hasExts_of_stays (by rw [useNoExts, if_pos (.inl hexts)])]
    exact List.map_congr_left fun name _ => by simp [hasExt, WantsExt, hexts]
  by_cases hnoExts : sp.noExts = []
  · refine iff_of_true (fun names => ?_) (.inr (.inl hnoExts))
    have hstays : sp.useNoExts = sp := by rw [useNoExts, if_pos (.inr hnoExts)]
    rw [hasExts_of_stays hstays]
    refine List.map_congr_left fun name _ => ?_
    rw [Bool.eq_iff_iff, decide_eq_true_eq, hasExt_iff, hstays, WantsExt, hnoExts]
    simp
  rw [or_iff_right hexts, or_iff_right hnoExts]
  constructor
  · intro hall
    have hfirst : ∀ name, (∃ ext ∈ sp.useNoExts.exts, EndsWith name ext) ↔ sp.WantsExt name := by
      intro name
      have hone := List.head_eq_of_cons_eq (hall [name])
      rw [Bool.eq_iff_iff, decide_eq_true_eq, hasExt_iff, or_iff_right hexts] at hone
      exact hone
    constructor
    · by_contra hnone
      push Not at hnone
      have hno : ∀ name, ¬ sp.WantsExt name := by
        rintro name (hnil | ⟨ext, hmem, hnot, -⟩)
        · exact hexts hnil
        · exact hnot (hnone ext hmem)
      -- then nothing is left, and the second test is made without extensions
      have hnil : sp.useNoExts.exts = [] := by
        by_contra hne
        obtain ⟨ext, hmem⟩ := List.exists_mem_of_ne_nil _ hne
        exact hno ext ((hfirst ext).mp ⟨ext, hmem, .refl ext⟩)
      have htwo := hall [[], []]
      rw [hasExts_cons] at htwo
      have hsecond := List.head_eq_of_cons_eq (List.tail_eq_of_cons_eq htwo)
      rw [Bool.eq_iff_iff, decide_eq_true_eq, hasExt_iff] at hsecond
      exact hno [] (hsecond.mp (.inl hnil))
    · intro ext hno hsurvives
      have hmem := (mem_useNoExts hexts hnoExts).mpr hsurvives
      exact ((hfirst ext).mp ⟨ext, hmem, .refl ext⟩).resolve_left hexts
  · intro hright names
    cases names with
    | nil => rfl
    | cons name names =>
      rw [hasExts_cons, List.map_cons, (hasExt_of_right hexts hnoExts hright name).1]
      congr 1
      exact List.map_congr_left fun name _ => (hasExt_of_right hexts hnoExts hright name).2

/-- The search for `mp3` and `avi` without `avi`. -/
def unsortedExts : AdcSearchParam :=
  { AdcSearchParam.initial 10 .zero with
    exts := [ascii "mp3", ascii "avi"], noExts := [ascii "avi"],
    cacheKey := ascii "10= EXmp3 EXavi RXavi" }

/-- The lists are not sorted, and the excluded extension stays. -/
theorem hasExts_unsortedExts :
    adcSearchParam Env.ascii [ascii "EXmp3", ascii "EXavi", ascii "RXavi"] 10 .zero =
        some unsortedExts ∧
      unsortedExts.hasExts [ascii "film.avi"] = [true] ∧
      ¬ unsortedExts.WantsExt (ascii "film.avi") := by
  refine ⟨rfl, by decide, by decide⟩

/-- When all that is included is excluded, the second test is passed by every name. -/
example : ({ unsortedExts with exts := [ascii "avi"] }).hasExts [ascii "x.avi", ascii "x.avi"] =
    [false, true] := by decide

end AdcSearchParam

end Blacklink.Share
