import Mathlib.Data.List.Basic
import Blacklink.Share.Search
import Blacklink.Share.Trees

/-!
# Searches that find nothing

A search keeps every pattern until it has matched the name of a directory on the way or the name of
the file. So when one of the patterns occurs in none of the names of a tree, nothing in the tree is
found, however many results there are already.
-/

namespace Blacklink.Share

variable {TTH : Type} {env : Env} {fileState : Nat → FileState TTH}

/-- The pattern occurs in no name of the directory. -/
def DirNode.Misses (env : Env) (k : StringSearch) (n : DirNode) : Prop :=
  ∀ name ∈ n.names env, ¬ k.pattern <:+: name

private theorem not_match {k : StringSearch} {name : List UInt8} (h : ¬ k.pattern <:+: name) :
    k.matchKeepCase name = false := by
  rw [← Bool.not_eq_true]
  exact fun hmatch => h (StringSearch.infix_of_matchKeepCase hmatch)

private theorem not_match_dir {k : StringSearch} {n : DirNode} (h : n.Misses env k) :
    k.matchKeepCase (env.lowerName n.name) = false := not_match (h _ List.mem_cons_self)

private theorem not_match_file {k : StringSearch} {n : DirNode} (h : n.Misses env k)
    {kf : List UInt8 × SharedFile} (hkf : kf ∈ n.files) :
    k.matchKeepCase (env.lowerName kf.2.name) = false :=
  not_match (h _ (List.mem_cons_of_mem _ (List.mem_map.mpr ⟨kf, hkf, rfl⟩)))

private theorem all_eq_false {k : StringSearch} {cur : List StringSearch} (hk : k ∈ cur)
    {name : List UInt8} (h : k.matchKeepCase name = false) :
    (cur.all fun l => l.matchKeepCase name) = false := by
  rw [← Bool.not_eq_true, List.all_eq_true]
  intro hall
  rw [hall k hk] at h
  cases h

/-! ### NMDC -/

private theorem searchFiles_of_misses {accepted : SharedFile → Bool}
    {result : SharedFile → SearchResultCore TTH} {maxResults : Nat}
    {files : List (List UInt8 × SharedFile)} (h : ∀ kf ∈ files, accepted kf.2 = false)
    (results : List (SearchResultCore TTH)) :
    searchFiles accepted result maxResults files results = (results, false) := by
  induction files with
  | nil => rfl
  | cons kf files ih =>
    rw [List.forall_mem_cons] at h
    rw [searchFiles, h.1]
    exact ih h.2

private theorem searchDirs_of_unchanged [Inhabited TTH] {sp : NmdcSearchParam} {path : List UInt8}
    {strings : List StringSearch} {ds : List SharedDir}
    (h : ∀ d ∈ ds, ∀ results, searchL env fileState sp path strings d results = results)
    (results : List (SearchResultCore TTH)) :
    searchDirs env fileState sp path strings ds results = results := by
  induction ds with
  | nil => rw [searchDirs]
  | cons d ds ih =>
    rw [List.forall_mem_cons] at h
    rw [searchDirs]
    rw [h.1, ih h.2, ite_self]

/-- An NMDC search for a pattern the tree does not have finds nothing in it. -/
theorem searchL_of_misses [Inhabited TTH] {sp : NmdcSearchParam} {k : StringSearch} {d : SharedDir}
    (h : d.All (DirNode.Misses env k)) {strings : List StringSearch} (hk : k ∈ strings)
    (parentPath : List UInt8) (results : List (SearchResultCore TTH)) :
    searchL env fileState sp parentPath strings d results = results := by
  induction d generalizing strings parentPath results with
  | mk n ds ih =>
    obtain ⟨hn, hds⟩ := SharedDir.all_mk.mp h
    rw [searchL]
    split
    · rfl
    dsimp only
    have hcur : k ∈ strings.filter fun l => !l.matchKeepCase (env.lowerName n.name) := by
      rw [List.mem_filter, not_match_dir hn]
      exact ⟨hk, rfl⟩
    generalize strings.filter _ = cur at hcur ⊢
    have hne : cur ≠ [] := List.ne_nil_of_mem hcur
    have hfiles : ∀ kf ∈ n.files, sp.accepts env cur kf.2 = false := by
      intro kf hkf
      rw [NmdcSearchParam.accepts, all_eq_false hcur (not_match_file hn hkf), Bool.and_false]
    simp only [hne, false_and, if_false]
    rw [searchFiles_of_misses hfiles, ite_self, if_neg Bool.false_ne_true]
    split
    · exact searchDirs_of_unchanged (fun d hd => ih d hd (hds d hd) hcur _) results
    · rfl

/-- It finds nothing in any of the trees. -/
theorem searchShares_of_misses [Inhabited TTH] {sp : NmdcSearchParam} {k : StringSearch}
    {slis : List ShareListItem} (h : ∀ sli ∈ slis, sli.dir.All (DirNode.Misses env k))
    {ssl : List StringSearch} (hk : k ∈ ssl) (results : List (SearchResultCore TTH)) :
    searchShares env fileState sp ssl slis results = results := by
  induction slis with
  | nil => rw [searchShares]
  | cons sli slis ih =>
    rw [List.forall_mem_cons] at h
    rw [searchShares]
    rw [searchL_of_misses h.1 hk, ih h.2, ite_self]

/-! ### ADC -/

/-- The results are as they were, and the patterns to be included too. -/
def AdcSearch.Same (st st' : AdcSearch TTH) : Prop :=
  st'.results = st.results ∧ st'.sp.included = st.sp.included

private theorem same_trans {a b c : AdcSearch TTH} (h : a.Same b) (h' : b.Same c) : a.Same c :=
  ⟨h'.1.trans h.1, h'.2.trans h.2⟩

private theorem included_useNoExts (sp : AdcSearchParam) : sp.useNoExts.included = sp.included := by
  unfold AdcSearchParam.useNoExts
  split
  · rfl
  · rfl

private theorem mem_newStr {sp : AdcSearchParam} {k : StringSearch} {given l : List StringSearch}
    {name : List UInt8} (hk : k ∈ given) (hname : k.matchKeepCase name = false)
    (hl : sp.newStr given name = some l) : k ∈ l := by
  unfold AdcSearchParam.newStr at hl
  split at hl
  · cases hl
    rw [List.mem_filter, hname]
    exact ⟨hk, rfl⟩
  · cases hl

private theorem searchAdcFiles_of_misses {k : StringSearch} {cur : List StringSearch}
    (hk : k ∈ cur) {path : List UInt8} {files : List (List UInt8 × SharedFile)}
    (h : ∀ kf ∈ files, k.matchKeepCase (env.lowerName kf.2.name) = false) (st : AdcSearch TTH) :
    (searchAdcFiles env fileState path cur files st).2 = false ∧
      st.Same (searchAdcFiles env fileState path cur files st).1 := by
  induction files generalizing st with
  | nil => exact ⟨rfl, rfl, rfl⟩
  | cons kf files ih =>
    obtain ⟨key, file⟩ := kf
    rw [List.forall_mem_cons] at h
    rw [searchAdcFiles]
    dsimp only
    split
    · exact ih h.2 st
    · rw [all_eq_false hk h.1, Bool.and_false, if_neg Bool.false_ne_true]
      obtain ⟨hstop, hsame⟩ := ih h.2 { st with sp := st.sp.useNoExts }
      have hfirst : st.Same { st with sp := st.sp.useNoExts } :=
        ⟨rfl, included_useNoExts st.sp⟩
      exact ⟨hstop, same_trans hfirst hsame⟩

private theorem searchAdcDirs_of_same [Inhabited TTH] {path : List UInt8}
    {newStr : Option (List StringSearch)}
    {k : StringSearch} {ds : List SharedDir}
    (h : ∀ d ∈ ds, ∀ st : AdcSearch TTH, k ∈ st.sp.included →
      st.Same (searchAdcL env fileState path newStr d st))
    (st : AdcSearch TTH) (hk : k ∈ st.sp.included) :
    st.Same (searchAdcDirs env fileState path newStr ds st) := by
  induction ds generalizing st with
  | nil =>
    rw [searchAdcDirs]
    exact ⟨rfl, rfl⟩
  | cons d ds ih =>
    rw [List.forall_mem_cons] at h
    have hd := h.1 st hk
    rw [searchAdcDirs]
    split
    · exact hd
    · apply same_trans hd
      apply ih h.2
      rw [hd.2]
      exact hk

/-- An ADC search for a pattern the tree does not have finds nothing in it. -/
theorem searchAdcL_of_misses [Inhabited TTH] {k : StringSearch} {d : SharedDir}
    (h : d.All (DirNode.Misses env k)) (parentPath : List UInt8)
    {replaceInclude : Option (List StringSearch)} (hr : ∀ l, replaceInclude = some l → k ∈ l)
    (st : AdcSearch TTH) (hk : k ∈ st.sp.included) :
    st.Same (searchAdcL env fileState parentPath replaceInclude d st) := by
  induction d generalizing replaceInclude parentPath st with
  | mk n ds ih =>
    obtain ⟨hn, hds⟩ := SharedDir.all_mk.mp h
    have hgiven : k ∈ replaceInclude.getD st.sp.included := by
      cases replaceInclude with
      | none => exact hk
      | some l => exact hr l rfl
    rw [searchAdcL]
    have hnew : ∀ l, st.sp.newStr (replaceInclude.getD st.sp.included) (env.lowerName n.name) =
        some l → k ∈ l := fun l => mem_newStr hgiven (not_match_dir hn)
    generalize st.sp.newStr _ _ = newStr at hnew ⊢
    have hcur : k ∈ newStr.getD (replaceInclude.getD st.sp.included) := by
      cases newStr with
      | none => exact hgiven
      | some l => exact hnew l rfl
    have hne := List.ne_nil_of_mem hcur
    simp only [hne, false_and, if_false]
    have hdirs : ∀ st : AdcSearch TTH, k ∈ st.sp.included →
        st.Same (searchAdcDirs env fileState (parentPath ++ n.name ++ [nmdcSeparator]) newStr ds
          st) :=
      searchAdcDirs_of_same fun d hd st hk => ih d hd (hds d hd) _ hnew st hk
    split
    · rw [if_neg Bool.false_ne_true]
      exact hdirs st hk
    · obtain ⟨hstop, hsame⟩ := searchAdcFiles_of_misses hcur
        (fun kf hkf => not_match_file hn hkf) st
      rw [hstop, if_neg Bool.false_ne_true]
      apply same_trans hsame
      apply hdirs
      rw [hsame.2]
      exact hk

/-- It finds nothing in any of the trees. -/
theorem searchAdcShares_of_misses [Inhabited TTH] {k : StringSearch} {slis : List ShareListItem}
    (h : ∀ sli ∈ slis, sli.dir.All (DirNode.Misses env k)) (st : AdcSearch TTH)
    (hk : k ∈ st.sp.included) : st.Same (searchAdcShares env fileState slis st) := by
  induction slis generalizing st with
  | nil =>
    rw [searchAdcShares]
    exact ⟨rfl, rfl⟩
  | cons sli slis ih =>
    rw [List.forall_mem_cons] at h
    have hsli : st.Same (searchAdcL env fileState [] none sli.dir st) :=
      searchAdcL_of_misses h.1 [] (fun l hl => by cases hl) st hk
    rw [searchAdcShares]
    split
    · exact hsli
    · apply same_trans hsli
      apply ih h.2
      rw [hsli.2]
      exact hk

end Blacklink.Share
