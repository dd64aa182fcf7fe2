import Blacklink.Nmdc.SearchParse

/-!
# The share groups of incoming searches

A hub has a share group, and a favorite user may have one of its own or none of the shares. The
search of a passive seeker with `$Search` is answered from the group that this gives. The other
forms of the command leave the group as it was made, so they are answered from the default one.
-/

namespace Blacklink.Nmdc

open Blacklink.Text Blacklink.Share

namespace NmdcHub

variable (hub : NmdcHub)

/-- A seeker may be answered from the group; `nick` is that of the seeker, when it is known. -/
inductive Allows (nick : Option (List UInt8)) : CID → Prop
  | ofHub (shown : hub.hideShare = false)
      (stranger : ∀ n ∈ nick, ∀ favUser ∈ hub.favoriteUser n,
        favUser.hideShare = false ∧ favUser.shareGroup = .zero) : Allows nick hub.shareGroup
  | ofUser {n : List UInt8} {favUser : FavoriteUser} (shown : hub.hideShare = false)
      (known : nick = some n) (found : hub.favoriteUser n = some favUser)
      (shownToUser : favUser.hideShare = false) (hasGroup : favUser.shareGroup ≠ .zero) :
      Allows nick favUser.shareGroup

/-- `getShareGroup` gives the group that the seeker may be answered from. -/
theorem getShareGroup_eq_some_iff (hshown : hub.hideShare = false) (nick : List UInt8)
    (group : CID) : hub.getShareGroup nick = some group ↔ hub.Allows (some nick) group := by
  unfold getShareGroup
  constructor
  · intro h
    split at h
    · next hnone =>
      injection h with h
      subst h
      exact .ofHub hshown fun n hn favUser hfav => by
        rw [← Option.some.inj hn, hnone] at hfav
        cases hfav
    · next favUser hfav =>
      cases hhide : favUser.hideShare with
      | true => rw [hhide] at h; cases h
      | false =>
        rw [hhide, if_neg Bool.false_ne_true] at h
        split at h
        · next hgroup =>
          injection h with h
          subst h
          exact .ofUser hshown rfl hfav hhide hgroup
        · next hzero =>
          injection h with h
          subst h
          exact .ofHub hshown fun n hn favUser' hfav' => by
            rw [← Option.some.inj hn, hfav] at hfav'
            injection hfav' with hfav'
            subst hfav'
            exact ⟨hhide, not_not.mp hzero⟩
  · intro h
    cases h with
    | ofHub _ stranger =>
      cases hfav : hub.favoriteUser nick with
      | none => rfl
      | some favUser =>
        obtain ⟨hhide, hzero⟩ := stranger nick rfl favUser hfav
        simp [hhide, hzero]
    | ofUser _ known found shownToUser hasGroup =>
      injection known with known
      subst known
      simp [found, shownToUser, hasGroup]

end NmdcHub

/-- The nick of the seeker, where a command has it. -/
def seekerNick (type : SearchType) (param : List UInt8) : Option (List UInt8) :=
  match type with
  | .search =>
    if (ascii "Hub:").isPrefixOf param then
      (splitFirst ' '.toUInt8 param).map fun p => p.1.drop 4
    else none
  | .sa => none
  | .sp => some (param.drop 40)

/-- The form of the command that the group is looked up for. -/
def LooksUpGroup (type : SearchType) (param : List UInt8) : Prop :=
  type = .search ∧ (ascii "Hub:").isPrefixOf param = true

/-- The key of the cache, if any, has the group behind the query. -/
def SearchParam.KeyedByGroup (p : SearchParam) : Prop :=
  p.cacheKey = [] ∨ ∃ query, p.cacheKey = query ++
    if p.shareGroup = .zero then [] else '|'.toUInt8 :: toBase32 p.shareGroup

/-! ### What a command is read as -/

/-- The query changes neither the seeker nor the group, and the group is in the key. -/
private theorem parseQuery_spec {p p' : SearchParam} {query : List UInt8}
    (h : p.parseQuery query = some p') (hkey : p.cacheKey = []) :
    p'.shareGroup = p.shareGroup ∧ p'.KeyedByGroup := by
  obtain ⟨h, -⟩ := Option.filter_eq_some_iff.mp h
  obtain ⟨q, -, rfl⟩ := Option.map_eq_some_iff.mp h
  unfold SearchParam.withQuery
  split
  · exact ⟨rfl, .inl hkey⟩
  · exact ⟨rfl, .inr ⟨query, rfl⟩⟩

private theorem isPrefixOf_splitFirst {param seeker query : List UInt8}
    (h : splitFirst ' '.toUInt8 param = some (seeker, query)) :
    (ascii "Hub:").isPrefixOf param = (ascii "Hub:").isPrefixOf seeker := by
  rw [(splitFirst_eq_some h).1]
  exact isPrefixOf_append_cons (by decide) seeker query

namespace NmdcHub

variable {hub : NmdcHub}

/-- The group of the parameters is that of the command. -/
private theorem shareGroup_parseCommand (hshown : hub.hideShare = false) {type : SearchType}
    {param : List UInt8} {p : SearchParam} (h : hub.parseCommand type param = some p) :
    (LooksUpGroup type param → hub.Allows (seekerNick type param) p.shareGroup) ∧
      (¬ LooksUpGroup type param → p.shareGroup = .zero) ∧ p.KeyedByGroup := by
  unfold parseCommand at h
  split at h
  · next htype =>
    subst htype
    split at h
    · cases h
    · next seeker query hsplit =>
      split at h
      · cases h
      · obtain ⟨p₀, hseeker, hquery⟩ := Option.bind_eq_some_iff.mp h
        have hpre := isPrefixOf_splitFirst hsplit
        unfold parseSeeker at hseeker
        cases hhub : (ascii "Hub:").isPrefixOf seeker with
        | true =>
          rw [hhub] at hseeker hpre
          rw [if_pos rfl] at hseeker
          split at hseeker
          · cases hseeker
          · obtain ⟨group, hgroup, rfl⟩ := Option.map_eq_some_iff.mp hseeker
            obtain ⟨heq, hkeyed⟩ := parseQuery_spec hquery rfl
            refine ⟨fun _ => ?_, fun hno => absurd ⟨rfl, hpre⟩ hno, hkeyed⟩
            rw [heq, seekerNick, hpre, if_pos rfl, hsplit]
            exact (hub.getShareGroup_eq_some_iff hshown _ _).mp hgroup
        | false =>
          rw [hhub] at hseeker hpre
          rw [if_neg Bool.false_ne_true] at hseeker
          have hzero : p₀.shareGroup = .zero ∧ p₀.cacheKey = [] := by
            split at hseeker
            · split at hseeker
              · cases hseeker
              · split at hseeker
                · cases hseeker
                · injection hseeker with hseeker
                  subst hseeker
                  exact ⟨rfl, rfl⟩
            · injection hseeker with hseeker
              subst hseeker
              exact ⟨rfl, rfl⟩
          obtain ⟨heq, hkeyed⟩ := parseQuery_spec hquery hzero.2
          refine ⟨fun hyes => ?_, fun _ => heq.trans hzero.1, hkeyed⟩
          rw [LooksUpGroup, hpre] at hyes
          cases hyes.2
  · next htype =>
    have hno : ¬ LooksUpGroup type param := fun hyes => htype hyes.1
    refine ⟨fun hyes => absurd hyes hno, fun _ => ?_, ?_⟩
    all_goals
      split at h
      · cases h
      · split at h
        · cases h
        · dsimp only at h
          split at h
          · split at h
            · cases h
            · injection h with h
              subst h
              first | rfl | exact .inl rfl
          · injection h with h
            subst h
            first | rfl | exact .inl rfl

/-- A search that is answered is what the command is read as, with the limit before its key. -/
theorem searchParse_eq_some {type : SearchType} {param : List UInt8} {p : SearchParam}
    (h : hub.searchParse type param = some p) :
    hub.hideShare = false ∧ ∃ p₀, hub.parseCommand type param = some p₀ ∧ hub.admits p₀ = true ∧
      p =
        { p₀ with
          maxResults := if p₀.passive then 5 else 10
          cacheKey :=
            if p₀.cacheKey = [] then []
            else natToString (if p₀.passive then 5 else 10) ++ '='.toUInt8 :: p₀.cacheKey } := by
  unfold searchParse at h
  split at h
  · cases h
  · split at h
    · cases h
    · next hstate =>
      split at h
      · cases h
      · next p₀ hparse =>
        split at h
        · next hadmits =>
          rw [Bool.or_eq_true, not_or] at hstate
          exact ⟨Bool.not_eq_true _ ▸ hstate.2, p₀, hparse, hadmits, (Option.some.inj h).symm⟩
        · cases h

/-- A search is answered from a group that its seeker may be answered from if and only if the group
was looked up, or it is the default one that the seeker may be answered from. -/
theorem searchParse_allows_iff {type : SearchType} {param : List UInt8} {p : SearchParam}
    (h : hub.searchParse type param = some p) :
    hub.Allows (seekerNick type param) p.shareGroup ∧ p.KeyedByGroup ↔
      LooksUpGroup type param ∨ hub.Allows (seekerNick type param) .zero := by
  obtain ⟨hshown, p₀, hparse, -, rfl⟩ := searchParse_eq_some h
  obtain ⟨hgroup, hzero, hkeyed⟩ := shareGroup_parseCommand hshown hparse
  have hkeyed' : SearchParam.KeyedByGroup
      { p₀ with
        maxResults := if p₀.passive then 5 else 10
        cacheKey :=
          if p₀.cacheKey = [] then []
          else natToString (if p₀.passive then 5 else 10) ++ '='.toUInt8 :: p₀.cacheKey } := by
    rcases hkeyed with hnil | ⟨query, hquery⟩
    · exact .inl (if_pos hnil)
    · by_cases hnil : p₀.cacheKey = []
      · exact .inl (if_pos hnil)
      · refine .inr ⟨natToString (if p₀.passive then 5 else 10) ++ '='.toUInt8 :: query, ?_⟩
        rw [if_neg hnil, hquery, List.append_assoc, List.cons_append]
  by_cases hhas : LooksUpGroup type param
  · exact ⟨fun _ => .inl hhas, fun _ => ⟨hgroup hhas, hkeyed'⟩⟩
  · constructor
    · intro hallows
      have hallows := hallows.1
      rw [hzero hhas] at hallows
      exact .inr hallows
    · intro hallows
      refine ⟨?_, hkeyed'⟩
      rw [hzero hhas]
      exact hallows.resolve_left hhas

end NmdcHub

/-! ### A hub with a group -/

/-- A hub with a share group where the user `ann` is the only one. -/
def hubWithGroup : NmdcHub where
  inet := ⟨fun _ => none, fun _ => []⟩
  normal := true
  hideShare := false
  shareGroup := List.replicate 24 1
  myNick := ascii "me"
  active := false
  udpAddr := (ascii "0.0.0.0", 0)
  favoriteUser := fun _ => none
  findUser := fun nick => if nick = ascii "ann" then some true else none
  allowNatTraversal := true
  options := ⟨false, false, false⟩
  ip := .v4 0x01010101
  checkSearchFlood := fun _ _ => true

/-- The search for a tree with the group of the hub, as it is looked up. -/
theorem searchParse_passive_allows :
    hubWithGroup.Allows (seekerNick .search (ascii "Hub:ann F?T?0?1?live")) hubWithGroup.shareGroup
      ∧ SearchParam.KeyedByGroup ⟨true, .dontCare, 0, 5, 0, ascii "live",
          ascii "5=F?T?0?1?live|" ++ toBase32 (List.replicate 24 1), ascii "Hub:ann",
          hubWithGroup.shareGroup⟩ :=
  (@NmdcHub.searchParse_allows_iff hubWithGroup .search (ascii "Hub:ann F?T?0?1?live") _
    (by rfl : _ = some ⟨true, .dontCare, 0, 5, 0, ascii "live",
      ascii "5=F?T?0?1?live|" ++ toBase32 (List.replicate 24 1), ascii "Hub:ann",
      hubWithGroup.shareGroup⟩)).mpr
    (.inl ⟨rfl, by decide⟩)

/-- The other forms are answered from the default group, which is not the one of the hub. -/
theorem searchParse_not_allows :
    (∃ p, hubWithGroup.searchParse .search (ascii "1.2.3.4:412 F?T?0?1?live") = some p ∧
      ¬ hubWithGroup.Allows (seekerNick .search (ascii "1.2.3.4:412 F?T?0?1?live"))
        p.shareGroup) ∧
    (∃ p, hubWithGroup.searchParse .sa
        (List.replicate 39 'A'.toUInt8 ++ ascii " 1.2.3.4:412") = some p ∧
      ¬ hubWithGroup.Allows (seekerNick .sa
        (List.replicate 39 'A'.toUInt8 ++ ascii " 1.2.3.4:412")) p.shareGroup) ∧
    (∃ p, hubWithGroup.searchParse .sp
        (List.replicate 39 'A'.toUInt8 ++ ascii " ann") = some p ∧
      ¬ hubWithGroup.Allows (seekerNick .sp
        (List.replicate 39 'A'.toUInt8 ++ ascii " ann")) p.shareGroup) := by
  have hallows (nick : Option (List UInt8)) : ¬ hubWithGroup.Allows nick .zero := by
    generalize hzero : CID.zero = group
    intro h
    cases h with
    | ofHub => revert hzero; decide
    | ofUser _ _ found => cases found
  have hzero (type : SearchType) (param : List UInt8)
      (h : ((hubWithGroup.searchParse type param).map SearchParam.shareGroup) = some CID.zero) :
      ∃ p, hubWithGroup.searchParse type param = some p ∧
        ¬ hubWithGroup.Allows (seekerNick type param) p.shareGroup := by
    obtain ⟨p, hp, hgroup⟩ := Option.map_eq_some_iff.mp h
    exact ⟨p, hp, hgroup ▸ hallows _⟩
  refine ⟨?_, ?_, ?_⟩
  · exact hzero _ _ (by rfl)
  · exact hzero _ _ (by rfl)
  · exact hzero _ _ (by rfl)

end Blacklink.Nmdc
