import Blacklink.Share.AdcResults
import Blacklink.Share.SearchParams
import Blacklink.Text.Base32

/-!
# Keys of cached searches

The constructor `AdcSearchParam` (`client/ShareManager.cpp:2516-2607`) joins the parameters that
decide a search to the key of its results, each behind a space, and puts the share group behind the
last one. The texts of the parameters come from peers and may have spaces, so that different
searches may have the same key.
-/

namespace Blacklink.Share

open Blacklink.Text

/-! ### Parameters in the key -/

/-- The names of the parameters that are part of the key. -/
def keyedTags : List (List UInt8) :=
  ["AN", "NO", "EX", "GR", "RX", "GE", "LE", "EQ", "TY"].map ascii

/-- The parameter is part of the key. -/
def isKeyed (p : List UInt8) : Bool := 2 < p.length && keyedTags.contains (p.take 2)

private theorem mem_keyedTags {t : List UInt8} :
    t ∈ keyedTags ↔ t = ascii "AN" ∨ t = ascii "NO" ∨ t = ascii "EX" ∨ t = ascii "GR" ∨
      t = ascii "RX" ∨ t = ascii "GE" ∨ t = ascii "LE" ∨ t = ascii "EQ" ∨ t = ascii "TY" := by
  simp only [keyedTags, List.map_cons, List.map_nil, List.mem_cons, List.not_mem_nil, or_false]

/-- The parameters in the key. -/
def keyText (ks : List (List UInt8)) : List UInt8 := ks.flatMap fun p => 0x20 :: p

theorem keyText_cons (p : List UInt8) (ps : List (List UInt8)) (s : List UInt8) :
    keyText (p :: ps) ++ s = 0x20 :: (p ++ (keyText ps ++ s)) := by
  rw [keyText, List.flatMap_cons, List.cons_append, List.cons_append, List.append_assoc, keyText]

theorem groupSuffix_ne_nil (c : List UInt8) : ascii "SG" ++ toBase32 c ≠ [] :=
  List.append_ne_nil_of_left_ne_nil (by decide) _

/-- The share group in the key. -/
def groupText (shareGroup : CID) : List UInt8 :=
  if shareGroup = .zero then [] else ascii "SG" ++ toBase32 shareGroup

namespace AdcSearchParam

variable {env : Env}

theorem addParam_of_not_keyed {sp : AdcSearchParam} {p : List UInt8} (h : isKeyed p = false) :
    sp.addParam env p = sp := by
  unfold addParam
  dsimp only
  by_cases hlen : p.length ≤ 2
  · rw [if_pos hlen]
  · have hnot : p.take 2 ∉ keyedTags := by
      intro hmem
      rw [isKeyed, List.contains_iff_mem.mpr hmem, decide_eq_true (Nat.not_le.mp hlen)] at h
      cases h
    simp only [mem_keyedTags, not_or] at hnot
    obtain ⟨h1, h2, h3, h4, h5, h6, h7, h8, h9⟩ := hnot
    rw [if_neg hlen, if_neg h1, if_neg h2, if_neg h3, if_neg h4, if_neg h5, if_neg h6, if_neg h7,
      if_neg h8, if_neg h9]

private theorem cacheKey_ite {c : Prop} [Decidable c] {a b : AdcSearchParam} {key : List UInt8}
    (ha : a.cacheKey = key) (hb : ¬c → b.cacheKey = key) :
    (if c then a else b).cacheKey = key := by
  split
  · exact ha
  · next hc => exact hb hc

theorem addParam_cacheKey {sp : AdcSearchParam} {p : List UInt8} (h : isKeyed p = true) :
    (sp.addParam env p).cacheKey = sp.cacheKey ++ 0x20 :: p := by
  rw [isKeyed, Bool.and_eq_true, decide_eq_true_eq, List.contains_iff_mem] at h
  obtain ⟨hlen, htag⟩ := h
  unfold addParam
  dsimp only
  rw [if_neg (Nat.not_le.mpr hlen)]
  refine cacheKey_ite rfl fun h1 => cacheKey_ite rfl fun h2 => cacheKey_ite rfl fun h3 =>
    cacheKey_ite rfl fun h4 => cacheKey_ite rfl fun h5 => cacheKey_ite rfl fun h6 =>
    cacheKey_ite rfl fun h7 => cacheKey_ite rfl fun h8 => cacheKey_ite rfl fun h9 => ?_
  simp only [mem_keyedTags, h1, h2, h3, h4, h5, h6, h7, h8, h9, or_self] at htag

/-- Only the parameters in the key matter. -/
theorem foldl_addParam (sp : AdcSearchParam) (params : List (List UInt8)) :
    params.foldl (addParam env) sp = (params.filter isKeyed).foldl (addParam env) sp := by
  induction params generalizing sp with
  | nil => rfl
  | cons p params ih =>
    rw [List.foldl_cons, ih]
    cases hp : isKeyed p with
    | true => rw [List.filter_cons_of_pos hp, List.foldl_cons]
    | false => rw [List.filter_cons_of_neg (by simp [hp]), addParam_of_not_keyed hp]

theorem cacheKey_foldl (sp : AdcSearchParam) (params : List (List UInt8)) :
    (params.foldl (addParam env) sp).cacheKey = sp.cacheKey ++ keyText (params.filter isKeyed) := by
  induction params generalizing sp with
  | nil => simp [keyText]
  | cons p params ih =>
    rw [List.foldl_cons, ih]
    cases hp : isKeyed p with
    | true => rw [List.filter_cons_of_pos hp, addParam_cacheKey hp, List.append_assoc]; rfl
    | false => rw [List.filter_cons_of_neg (by simp [hp]), addParam_of_not_keyed hp]

end AdcSearchParam

/-- A search with a key has these parameters. -/
theorem adcSearchParam_eq {env : Env} {params : List (List UInt8)} {maxResults : Nat}
    {shareGroup : CID} {sp : AdcSearchParam}
    (h : adcSearchParam env params maxResults shareGroup = some sp) (hkey : sp.cacheKey ≠ []) :
    sp = { (params.filter isKeyed).foldl (AdcSearchParam.addParam env)
          (.initial maxResults shareGroup) with
        cacheKey := natToString maxResults ++
          0x3d :: (keyText (params.filter isKeyed) ++ groupText shareGroup) } := by
  unfold adcSearchParam at h
  split at h
  · cases h
  · dsimp only at h
    have htext := @AdcSearchParam.cacheKey_foldl env
      (AdcSearchParam.initial maxResults shareGroup) params
    rw [show (AdcSearchParam.initial maxResults shareGroup).cacheKey = [] from rfl,
      List.nil_append] at htext
    split at h
    · next hnil =>
      cases h
      exact absurd hnil hkey
    · cases h
      rw [htext, AdcSearchParam.foldl_addParam]
      rfl

/-! ### Reading a key -/

/-- A parameter in which nothing looks like the beginning of the next one. -/
def PlainParam (p : List UInt8) : Prop := ∀ x y, p = x ++ 0x20 :: y → y.take 2 ∉ keyedTags

/-- The parameters of a request can be told apart in its key, and the last one does not look as if
the share group were behind it. -/
structure PlainRequest (params : List (List UInt8)) (shareGroup : CID) : Prop where
  plain : ∀ p ∈ params.filter isKeyed, PlainParam p
  last : shareGroup = .zero → ∀ p ∈ (params.filter isKeyed).getLast?, ∀ x c : List UInt8,
    c.length = 24 → p ≠ x ++ (ascii "SG" ++ toBase32 c)

/-- What may be behind the parameters. -/
private def GroupText (s : List UInt8) : Prop :=
  s = [] ∨ ∃ c : List UInt8, c.length = 24 ∧ s = ascii "SG" ++ toBase32 c

private theorem groupText_spec {g : CID} (h : g.length = 24) : GroupText (groupText g) := by
  rw [groupText]
  split
  · exact .inl rfl
  · exact .inr ⟨g, h, rfl⟩

private theorem GroupText.length {s : List UInt8} (h : GroupText s) :
    s = [] ∨ s.length = (ascii "SG" ++ toBase32 (List.replicate 24 0)).length := by
  rcases h with rfl | ⟨c, hc, rfl⟩
  · exact .inl rfl
  · right
    rw [List.length_append, List.length_append, length_toBase32, hc]

private theorem GroupText.noSpace {s : List UInt8} (h : GroupText s) : 0x20 ∉ s := by
  rcases h with rfl | ⟨c, hc, rfl⟩
  · exact List.not_mem_nil
  · rw [List.mem_append, not_or]
    refine ⟨by decide, fun hmem => ?_⟩
    exact absurd (mem_alphabet_of_mem_toBase32 hmem) (by decide)

/-- What is behind a parameter begins with a space or the letter `S`. -/
private theorem head_keyText {ps : List (List UInt8)} {s : List UInt8} (hs : GroupText s)
    {c : UInt8} (h : c ∈ (keyText ps ++ s).head?) : c = 0x20 ∨ c = 0x53 := by
  cases ps with
  | nil =>
    rcases hs with rfl | ⟨g, -, rfl⟩
    · cases h
    · exact .inr (Option.some.inj h).symm
  | cons p ps => exact .inl (Option.some.inj h).symm

private theorem tag_letters : ∀ t ∈ keyedTags, ∀ c ∈ t, c ≠ 0x20 ∧ c ≠ 0x53 := by
  simp [keyedTags, ascii]
  decide

/-- A parameter of a key is not the beginning of another one. -/
private theorem eq_nil_of_longer {ps ps' : List (List UInt8)} {p a s s' : List UInt8}
    (hs : GroupText s) (hs' : GroupText s') (hps : ∀ q ∈ ps, isKeyed q = true)
    (hplain : PlainParam (p ++ a))
    (hlast : s' = [] → ps' = [] → ∀ x c : List UInt8, c.length = 24 →
      p ++ a ≠ x ++ (ascii "SG" ++ toBase32 c))
    (heq : keyText ps ++ s = a ++ (keyText ps' ++ s')) : a = [] := by
  cases a with
  | nil => rfl
  | cons b a =>
    exfalso
    cases ps with
    | cons q ps =>
      -- what is longer would have a space and the name of the next parameter
      have hkeyed := hps q List.mem_cons_self
      rw [isKeyed, Bool.and_eq_true, decide_eq_true_eq, List.contains_iff_mem] at hkeyed
      obtain ⟨hlen, htag⟩ := hkeyed
      have hcons : 0x20 :: (q ++ (keyText ps ++ s)) = b :: (a ++ (keyText ps' ++ s')) := by
        rw [← keyText_cons, heq, List.cons_append]
      obtain ⟨rfl, hrest⟩ := List.cons.inj hcons
      have hnot := hplain p a rfl
      by_cases ha : 2 ≤ a.length
      · have htake : a.take 2 = q.take 2 := by
          have h2 := congrArg (List.take 2) hrest
          rw [List.take_append_of_le_length (by omega), List.take_append_of_le_length ha] at h2
          exact h2.symm
        rw [htake] at hnot
        exact hnot htag
      · -- the parameter behind it would begin inside this name
        have hget : (keyText ps' ++ s').head? = q[a.length]? := by
          have hidx := congrArg (fun l : List UInt8 => l[a.length]?) hrest
          simp only [List.getElem?_append_right (Nat.le_refl a.length), Nat.sub_self] at hidx
          rw [List.getElem?_append_left (by omega), ← List.head?_eq_getElem?] at hidx
          exact hidx.symm
        have hlt : a.length < q.length := by omega
        have hmem : q[a.length] ∈ q.take 2 := by
          rw [List.mem_take_iff_getElem]
          exact ⟨a.length, by omega, rfl⟩
        have hletter := tag_letters _ htag _ hmem
        rw [List.getElem?_eq_getElem hlt] at hget
        rcases head_keyText hs' (Option.mem_def.mpr hget) with h | h
        · exact hletter.1 h
        · exact hletter.2 h
    | nil =>
      have heq' : s = b :: a ++ (keyText ps' ++ s') := heq
      cases ps' with
      | cons q ps' =>
        have hspace : (0x20 : UInt8) ∈ s := by
          rw [heq']
          simp [keyText]
        exact hs.noSpace hspace
      | nil =>
        rw [keyText, List.flatMap_nil, List.nil_append] at heq'
        rcases hs with rfl | ⟨c, hc, rfl⟩
        · cases heq'
        · rcases hs'.length with rfl | hfull
          · rw [List.append_nil] at heq'
            exact hlast rfl rfl p c hc (by rw [heq'])
          · have hlen := congrArg List.length heq'
            have happend : (a ++ s').length = a.length + s'.length := List.length_append
            rw [(GroupText.length (.inr ⟨c, hc, rfl⟩)).resolve_left (groupSuffix_ne_nil c),
              List.cons_append, List.length_cons, happend, hfull] at hlen
            omega

/-- A key of plain requests is read in one way. -/
private theorem keyText_injective {ks ks' : List (List UInt8)} {s s' : List UInt8}
    (hs : GroupText s) (hs' : GroupText s') (hks : ∀ q ∈ ks, isKeyed q = true)
    (hks' : ∀ q ∈ ks', isKeyed q = true) (hplain : ∀ q ∈ ks, PlainParam q)
    (hplain' : ∀ q ∈ ks', PlainParam q)
    (hlast : s = [] → ∀ q ∈ ks.getLast?, ∀ x c : List UInt8, c.length = 24 →
      q ≠ x ++ (ascii "SG" ++ toBase32 c))
    (hlast' : s' = [] → ∀ q ∈ ks'.getLast?, ∀ x c : List UInt8, c.length = 24 →
      q ≠ x ++ (ascii "SG" ++ toBase32 c))
    (heq : keyText ks ++ s = keyText ks' ++ s') : ks = ks' ∧ s = s' := by
  induction ks generalizing ks' with
  | nil =>
    cases ks' with
    | nil => exact ⟨rfl, heq⟩
    | cons q ks' =>
      refine absurd ?_ hs.noSpace
      rw [keyText, List.flatMap_nil, List.nil_append] at heq
      rw [heq]
      simp [keyText]
  | cons p ps ih =>
    cases ks' with
    | nil =>
      refine absurd ?_ hs'.noSpace
      rw [keyText, keyText, List.flatMap_nil, List.nil_append] at heq
      rw [← heq]
      simp
    | cons p' ps' =>
      have hrest : p ++ (keyText ps ++ s) = p' ++ (keyText ps' ++ s') := by
        rw [keyText_cons, keyText_cons] at heq
        exact (List.cons.inj heq).2
      rw [List.forall_mem_cons] at hks hks' hplain hplain'
      have hsame : p = p' ∧ keyText ps ++ s = keyText ps' ++ s' := by
        rcases List.append_eq_append_iff.mp hrest with ⟨a, rfl, htail⟩ | ⟨a, rfl, htail⟩
        · have ha := eq_nil_of_longer hs hs' hks.2 hplain'.1 (fun h hnil => by
            rw [hnil] at hlast'
            exact hlast' h _ rfl) htail
          rw [ha] at htail ⊢
          exact ⟨(List.append_nil p).symm, htail⟩
        · have ha := eq_nil_of_longer hs' hs hks'.2 hplain.1 (fun h hnil => by
            rw [hnil] at hlast
            exact hlast h _ rfl) htail
          rw [ha] at htail ⊢
          exact ⟨List.append_nil p', htail.symm⟩
      obtain ⟨rfl, htail⟩ := hsame
      have hrec := ih hks.2 hks'.2 hplain.2 hplain'.2 (fun h q hq => hlast h q ?_)
        (fun h q hq => hlast' h q ?_) htail
      · exact ⟨by rw [hrec.1], hrec.2⟩
      · cases ps with
        | nil => cases hq
        | cons b ps => rwa [List.getLast?_cons_cons]
      · cases ps' with
        | nil => cases hq
        | cons b ps' => rwa [List.getLast?_cons_cons]

private theorem groupText_injective {g g' : CID} (h : g.length = 24) (h' : g'.length = 24)
    (heq : groupText g = groupText g') : g = g' := by
  rw [groupText, groupText] at heq
  split_ifs at heq with hz hz' hz'
  · rw [hz, hz']
  · exact absurd heq.symm (groupSuffix_ne_nil g')
  · exact absurd heq (groupSuffix_ne_nil g)
  · have hcode := List.append_cancel_left heq
    rw [← fromBase32_toBase32 g, ← fromBase32_toBase32 g', hcode, h, h']

private theorem natToString_injective {m m' : Nat} {s s' : List UInt8}
    (h : natToString m ++ 0x3d :: s = natToString m' ++ 0x3d :: s') : m = m' ∧ s = s' := by
  have hvalue (m : Nat) (s : List UInt8) : digitsValue (natToString m ++ 0x3d :: s) = m :=
    digitsValue_natToString_append m (by
      rintro c hc
      obtain rfl := Option.some.inj hc
      decide)
  have hm : m = m' := by rw [← hvalue m s, h, hvalue m' s']
  rw [hm] at h
  exact ⟨hm, (List.cons.inj (List.append_cancel_left h)).2⟩

/-- The requests have the same parameters in their keys and the same share group. -/
def SameRequest (params params' : List (List UInt8)) (shareGroup shareGroup' : CID) : Prop :=
  params.filter isKeyed = params'.filter isKeyed ∧ shareGroup = shareGroup'

/-- Plain requests with one key are the same. -/
theorem sameRequest_of_plain {params params' : List (List UInt8)} {g g' : CID} (h : g.length = 24)
    (h' : g'.length = 24) (hplain : PlainRequest params g) (hplain' : PlainRequest params' g')
    (heq : keyText (params.filter isKeyed) ++ groupText g =
      keyText (params'.filter isKeyed) ++ groupText g') : SameRequest params params' g g' := by
  have hzero : ∀ g : CID, groupText g = [] → g = .zero := by
    intro g hnil
    rw [groupText] at hnil
    split at hnil
    · next hz => exact hz
    · exact absurd hnil (groupSuffix_ne_nil g)
  obtain ⟨hks, hgroup⟩ := keyText_injective (groupText_spec h) (groupText_spec h')
    (fun q hq => (List.mem_filter.mp hq).2) (fun q hq => (List.mem_filter.mp hq).2) hplain.plain
    hplain'.plain (fun hnil ↦ hplain.last (hzero g hnil)) (fun hnil ↦ hplain'.last (hzero g' hnil))
    heq
  exact ⟨hks, groupText_injective h h' hgroup⟩

/-- Searches with one key have the same results if their requests are the same, and they are when
both are plain. -/
theorem adcSearch_eq_of_cacheKey {TTH : Type} [Inhabited TTH] {env : Env}
    {params params' : List (List UInt8)} {maxResults maxResults' : Nat} {g g' : CID}
    {sp sp' : AdcSearchParam} (hg : g.length = 24) (hg' : g'.length = 24)
    (h : adcSearchParam env params maxResults g = some sp)
    (h' : adcSearchParam env params' maxResults' g' = some sp') (hkey : sp.cacheKey = sp'.cacheKey)
    (hne : sp.cacheKey ≠ [])
    (hplain : SameRequest params params' g g' ∨ PlainRequest params g ∧ PlainRequest params' g')
    (s : ShareManager TTH) (cache : SearchCache TTH) :
    s.searchAdc env cache sp = s.searchAdc env cache sp' := by
  have heq := adcSearchParam_eq h hne
  have heq' := adcSearchParam_eq h' (hkey ▸ hne)
  have htext : natToString maxResults ++
      0x3d :: (keyText (params.filter isKeyed) ++ groupText g) = natToString maxResults' ++
      0x3d :: (keyText (params'.filter isKeyed) ++ groupText g') := by
    rw [heq, heq'] at hkey
    exact hkey
  obtain ⟨hmax, hrest⟩ := natToString_injective htext
  obtain ⟨hks, hgroup⟩ : SameRequest params params' g g' := by
    rcases hplain with hsame | ⟨hp, hp'⟩
    · exact hsame
    · exact sameRequest_of_plain hg hg' hp hp' hrest
  rw [heq, heq', hmax, hks, hgroup]

/-! ### Requests that are not plain -/

/-- What the request is read as. -/
private def requested (params : List (List UInt8)) : AdcSearchParam :=
  (adcSearchParam Env.ascii params 10 CID.zero).getD (.initial 10 CID.zero)

/-- One word with a space, or a word and one to be left out. -/
theorem adcSearch_ne_of_space :
    adcSearchParam Env.ascii [ascii "ANx NOq"] 10 CID.zero = some (requested [ascii "ANx NOq"]) ∧
    adcSearchParam Env.ascii [ascii "ANx", ascii "NOq"] 10 CID.zero =
      some (requested [ascii "ANx", ascii "NOq"]) ∧
    (requested [ascii "ANx NOq"]).cacheKey = (requested [ascii "ANx", ascii "NOq"]).cacheKey ∧
    (requested [ascii "ANx NOq"]).cacheKey ≠ [] ∧
    (nestedShare.searchAdc Env.ascii [] (requested [ascii "ANx NOq"])).1 ≠
      (nestedShare.searchAdc Env.ascii [] (requested [ascii "ANx", ascii "NOq"])).1 := by
  exact ⟨rfl, rfl, by decide⟩

/-- A request with one word and a token is plain. -/
private theorem plainRequest_word {params : List (List UInt8)} {g : CID}
    (h : params.filter isKeyed = [ascii "ANx"]) : PlainRequest params g := by
  constructor
  · rw [h]
    rintro p hp x y heq
    obtain rfl := List.mem_singleton.mp hp
    have hspace : (0x20 : UInt8) ∈ ascii "ANx" := by
      rw [heq]
      simp
    exact absurd hspace (by decide)
  · rw [h]
    rintro - p hp x c hc heq
    obtain rfl : ascii "ANx" = p := Option.some.inj hp
    have hlen := congrArg List.length heq
    rw [List.length_append, List.length_append, length_toBase32, hc] at hlen
    have hlong : (toBase32 (List.replicate 24 0)).length = 39 := by rfl
    have hshort : (ascii "ANx").length = 3 := by decide
    omega

/-- The token is not in the key and does not matter. -/
theorem adcSearch_eq_of_token :
    nestedShare.searchAdc Env.ascii [] (requested [ascii "ANx", ascii "TO1"]) =
      nestedShare.searchAdc Env.ascii [] (requested [ascii "ANx", ascii "TO2"]) := by
  have h : adcSearchParam Env.ascii [ascii "ANx", ascii "TO1"] 10 CID.zero =
    some (requested [ascii "ANx", ascii "TO1"]) := rfl
  have h' : adcSearchParam Env.ascii [ascii "ANx", ascii "TO2"] 10 CID.zero =
    some (requested [ascii "ANx", ascii "TO2"]) := rfl
  exact adcSearch_eq_of_cacheKey rfl rfl h h' (by decide) (by decide)
    (.inr ⟨plainRequest_word (by rfl), plainRequest_word (by rfl)⟩)
    nestedShare []

end Blacklink.Share
