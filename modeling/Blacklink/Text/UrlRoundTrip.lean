import Blacklink.Text.UriUtil

/-!
# URLs are read back

What `formatUrl` makes of the parts of a URL (`client/UriUtil.cpp:277-324`) gives them back in
`decodeUrl` (lines 144-275), one after the other: a separator that a part may have is looked for
where it is not met, or is met behind the place that is looked for. Only a `?` in the query is taken
for its beginning.
-/

namespace Blacklink.Text

/-! ### The characters of the parts -/

/-- `towlower` leaves the ASCII characters that are no capital letters. -/
def KeepsSmall (towlower : Nat → Nat) : Prop :=
  ∀ c, c < 0x80 → ¬ (0x41 ≤ c ∧ c ≤ 0x5a) → towlower c = c

/-- `unreserved` without capital letters, `sub-delims` and the `%` of `pct-encoded`. -/
def isNameChar (c : UInt8) : Bool :=
  let n := c.toNat
  0x61 ≤ n && n ≤ 0x7a || 0x30 ≤ n && n ≤ 0x39 || [0x2d, 0x2e, 0x5f, 0x7e].contains n ||
    [0x21, 0x24, 0x26, 0x27, 0x28, 0x29, 0x2a, 0x2b, 0x2c, 0x3b, 0x3d, 0x25].contains n

/-- `unreserved`, `sub-delims` and the `%` of `pct-encoded`. -/
def isUserChar (c : UInt8) : Bool := isNameChar c || 0x41 ≤ c.toNat && c.toNat ≤ 0x5a

/-- `pchar`. -/
def isPathChar (c : UInt8) : Bool := isUserChar c || c.toNat = 0x3a || c.toNat = 0x40

/-- The characters of a query and of a fragment. -/
def isQueryChar (c : UInt8) : Bool := isPathChar c || c.toNat = 0x2f || c.toNat = 0x3f

/-- The characters of an IPv6 address. -/
def isIp6Char (c : UInt8) : Bool :=
  let n := c.toNat
  0x61 ≤ n && n ≤ 0x66 || 0x41 ≤ n && n ≤ 0x46 || 0x30 ≤ n && n ≤ 0x39 || n = 0x3a || n = 0x2e

/-- A URL of which each part has the characters it may have. -/
structure ParsedUrl.WellFormed (p : ParsedUrl) : Prop where
  protocol : (getDefaultPort p.protocol).1 = true
  host : p.host ≠ [] ∧ (∀ c ∈ p.host, isNameChar c) ∨ 0x3a ∈ p.host ∧ ∀ c ∈ p.host, isIp6Char c
  port : p.port ≠ 0
  user : ∀ c ∈ p.user, isUserChar c
  password : ∀ c ∈ p.password, isUserChar c ∨ c = 0x3a
  password_user : p.password ≠ [] → p.user ≠ []
  path_head : ∀ c ∈ p.path.head?, c = 0x2f
  path : ∀ c ∈ p.path, isPathChar c ∨ c = 0x2f
  query : ∀ c ∈ p.query, isQueryChar c
  fragment : ∀ c ∈ p.fragment, isQueryChar c

private theorem wideToUtf8_toNat {s : List UInt8} (h : ∀ c ∈ s, c.toNat < 0x80) :
    wideToUtf8 (s.map UInt8.toNat) = s := by
  induction s with
  | nil => rfl
  | cons c s ih =>
    have hc : c.toNat < 0x80 := h c List.mem_cons_self
    rw [List.map_cons, wideToUtf8_cons (.inl (by omega)),
      ih fun a ha => h a (List.mem_cons_of_mem c ha), wcToUtf8, if_pos hc, Nat.toUInt8,
      UInt8.ofNat_toNat, List.singleton_append]

theorem toLower_of_small {towlower : Nat → Nat} (hT : KeepsSmall towlower) {s : List UInt8}
    (h : ∀ c ∈ s, c.toNat < 0x80 ∧ ¬ (0x41 ≤ c.toNat ∧ c.toNat ≤ 0x5a)) :
    toLower towlower s = s := by
  have hscalar : ∀ v ∈ s.map UInt8.toNat, IsScalar v := by
    intro v hv
    obtain ⟨c, hc, rfl⟩ := List.mem_map.mp hv
    have := (h c hc).1
    exact .inl (by omega)
  have hsame : (s.map UInt8.toNat).map towlower = s.map UInt8.toNat := by
    rw [List.map_map]
    exact List.map_congr_left fun c hc => hT _ (h c hc).1 (h c hc).2
  have hs := wideToUtf8_toNat fun c hc => (h c hc).1
  rw [toLower]
  conv_lhs => rw [← hs]
  rw [utf8ToWide_wideToUtf8 hscalar, hsame, hs]

private theorem isNameChar_small : ∀ c, isNameChar c →
    c.toNat < 0x80 ∧ ¬ (0x41 ≤ c.toNat ∧ c.toNat ≤ 0x5a) := by
  intro c h
  simp only [isNameChar, Bool.or_eq_true, Bool.and_eq_true, decide_eq_true_eq,
    List.contains_iff_mem, List.mem_cons, List.not_mem_nil, or_false] at h
  omega

private theorem isUserChar_not (c : UInt8) (h : isUserChar c ∨ c = 0x3a) :
    c ∉ stops ∧ c ≠ 0x40 ∧ c ≠ 0x5b ∧ c ≠ 0x5d := by
  have hnot : ∀ q ∈ [0x40, 0x5b, 0x5d] ++ stops, ¬ (isUserChar q ∨ q = 0x3a) := by
    simp [stops, isUserChar, isNameChar]
  have hc : c ∉ [0x40, 0x5b, 0x5d] ++ stops := fun hmem => hnot c hmem h
  simp only [List.mem_append, List.mem_cons, List.not_mem_nil, or_false, not_or] at hc
  exact ⟨hc.2, hc.1⟩

private theorem isUserChar_colon : ∀ c, isUserChar c → c ≠ 0x3a := by
  rintro c h rfl
  exact absurd h (by simp [isUserChar, isNameChar])

private theorem isUserChar_of_isNameChar {c : UInt8} (h : isNameChar c) : isUserChar c := by
  rw [isUserChar, h, Bool.true_or]

private theorem isIp6Char_not (c : UInt8) (h : isIp6Char c) :
    c ∉ stops ∧ c ≠ 0x40 ∧ c ≠ 0x5b ∧ c ≠ 0x5d ∧ c &&& 0x80 = 0 := by
  have hnot : ∀ q ∈ [0x40, 0x5b, 0x5d] ++ stops, ¬ isIp6Char q := by
    simp [stops, isIp6Char]
  have hc : c ∉ [0x40, 0x5b, 0x5d] ++ stops := fun hmem => hnot c hmem h
  simp only [List.mem_append, List.mem_cons, List.not_mem_nil, or_false, not_or] at hc
  have hlow : c.toNat < 0x80 := by
    simp only [isIp6Char, Bool.or_eq_true, Bool.and_eq_true, decide_eq_true_eq] at h
    omega
  exact ⟨hc.2, hc.1.1, hc.1.2.1, hc.1.2.2, (and_80 c).mpr hlow⟩

private theorem isPathChar_not (c : UInt8) (h : isPathChar c ∨ c = 0x2f) :
    c ≠ 0x23 ∧ c ≠ 0x3f := by
  have hnot : ∀ q ∈ [0x23, 0x3f], ¬ (isPathChar q ∨ q = 0x2f) := by
    simp [isPathChar, isUserChar, isNameChar]
  have hc : c ∉ [0x23, 0x3f] := fun hmem => hnot c hmem h
  simpa only [List.mem_cons, List.not_mem_nil, or_false, not_or] using hc

private theorem isQueryChar_not : ∀ c, isQueryChar c → c ≠ 0x23 := by
  rintro c h rfl
  exact absurd h (by simp [isQueryChar, isPathChar, isUserChar, isNameChar])

/-! ### The bounds of the parts -/

variable {towlower : Nat → Nat} {url x rest : List UInt8}

theorem fragmentBounds_eq {fragment : List UInt8} (hx : 0x23 ∉ x) (hf : 0x23 ∉ fragment)
    (hurl : url = x ++ if fragment = [] then [] else 0x23 :: fragment) :
    ∃ fragmentStart, fragmentBounds url = (x.length, fragmentStart) ∧
      substr url fragmentStart url.length = fragment := by
  unfold fragmentBounds
  by_cases hnil : fragment = []
  · rw [if_pos hnil, List.append_nil] at hurl
    refine ⟨url.length, ?_, ?_⟩
    · rw [rfind_eq_none (by rwa [hurl]), hurl]
    · rw [substr, if_pos le_rfl, Nat.sub_self, List.take_zero, hnil]
  · rw [if_neg hnil] at hurl
    refine ⟨x.length + 1, ?_, ?_⟩
    · rw [rfind_eq_some hurl List.not_mem_nil hf]
    · have hlen : url.length = x.length + 1 + fragment.length := by
        rw [hurl, List.length_append, List.length_cons]
        omega
      exact substr_eq (p := x ++ [0x23]) (r := []) (by simp [hurl]) (by simp) hlen

/-- Without a `?` in it the query is found; with one the path ends too late. -/
theorem queryBounds_eq {query : List UInt8} (hx : 0x3f ∉ x) (hrest : ∀ c ∈ rest.head?, c ≠ 0x3f)
    {queryEnd : Nat} (hurl : url = x ++ ((if query = [] then [] else 0x3f :: query) ++ rest))
    (hend : queryEnd = x.length + (if query = [] then [] else 0x3f :: query).length) :
    ∃ fileEnd queryStart, queryBounds url queryEnd = (fileEnd, queryStart) ∧
      (0x3f ∉ query → fileEnd = x.length ∧ substr url queryStart queryEnd = query) ∧
      (0x3f ∈ query → x.length < fileEnd ∧ fileEnd ≤ url.length) := by
  have hnot : 0x3f ∉ rest.take 1 := by
    cases rest with
    | nil => simp
    | cons c rest =>
      have hc := hrest c rfl
      simpa using Ne.symm hc
  have htake : url.take (queryEnd + 1) =
      x ++ ((if query = [] then [] else 0x3f :: query) ++ rest.take 1) := by
    rw [hurl, hend, ← List.append_assoc, ← List.length_append, List.take_length_add_append,
      List.append_assoc]
  unfold queryBounds
  rw [htake]
  by_cases hnil : query = []
  · simp only [if_pos hnil] at hurl hend ⊢
    rw [rfind_eq_none (by simp [hx, hnot])]
    refine ⟨queryEnd, queryEnd, rfl, fun _ => ⟨by simpa using hend, ?_⟩, ?_⟩
    · rw [substr, if_pos le_rfl, Nat.sub_self, List.take_zero, hnil]
    · intro hin
      rw [hnil] at hin
      cases hin
  · simp only [if_neg hnil] at hurl hend ⊢
    rw [List.length_cons] at hend
    by_cases hin : 0x3f ∈ query
    · obtain ⟨a, b, hquery, hb⟩ : ∃ a b, query = a ++ 0x3f :: b ∧ 0x3f ∉ b := by
        obtain ⟨b, a, hrev, hb⟩ := List.eq_append_cons_of_mem (List.mem_reverse.mpr hin)
        refine ⟨a.reverse, b.reverse, ?_, by simpa using hb⟩
        rw [← List.reverse_reverse query, hrev]
        simp
      rw [rfind_eq_some (p := x ++ 0x3f :: a) (u := []) (r := b ++ rest.take 1)
        (by simp [hquery]) List.not_mem_nil (by simp [hb, hnot])]
      refine ⟨_, _, rfl, fun h => absurd hin h, fun _ => ?_⟩
      rw [hurl, hquery]
      simp only [List.length_append, List.length_cons]
      omega
    · rw [rfind_eq_some (p := x) (u := []) (r := query ++ rest.take 1) (by simp)
        List.not_mem_nil (by simp [hin, hnot])]
      refine ⟨_, _, rfl, fun _ => ⟨rfl, ?_⟩, fun h => absurd h hin⟩
      exact substr_eq (p := x ++ [0x3f]) (r := rest) (by simp [hurl]) (by simp) (by omega)

/-- A known protocol is made of small letters. -/
theorem protocol_small {protocol : List UInt8} (h : (getDefaultPort protocol).1 = true) :
    protocol ≠ [] ∧ ∀ c ∈ protocol, 0x61 ≤ c.toNat ∧ c.toNat ≤ 0x7a := by
  have hmem : protocol ∈ [ascii "dchub", ascii "nmdc", ascii "adc", ascii "nmdcs", ascii "adcs",
      ascii "http", ascii "https", ascii "ftp"] := by
    by_contra hnot
    simp only [List.mem_cons, List.not_mem_nil, or_false, not_or] at hnot
    simp [getDefaultPort, hnot] at h
  have hall : ∀ q ∈ [ascii "dchub", ascii "nmdc", ascii "adc", ascii "nmdcs", ascii "adcs",
      ascii "http", ascii "https", ascii "ftp"],
      q ≠ [] ∧ ∀ c ∈ q, 0x61 ≤ c.toNat ∧ c.toNat ≤ 0x7a := by
    simp [ascii]
    decide
  exact hall protocol hmem

theorem decodeProtocol_eq (hT : KeepsSmall towlower) {protocol : List UInt8}
    (hp : (getDefaultPort protocol).1 = true) (defProto : List UInt8)
    (hurl : url = protocol ++ (ascii "://" ++ rest)) :
    decodeProtocol towlower url defProto = (protocol, protocol.length + 3) := by
  obtain ⟨hne, hsmall⟩ := protocol_small hp
  have hcolon : 0x3a ∉ protocol := fun h => absurd (hsmall _ h).1 (by decide)
  have hfind : findText (ascii "://") url = some protocol.length :=
    findText_eq_some (c := 0x3a) (u := ascii "//") hurl hcolon
  have hlower : toLower towlower protocol = protocol :=
    toLower_of_small hT fun c hc => by
      have := hsmall c hc
      omega
  unfold decodeProtocol
  rw [hfind]
  dsimp only
  rw [hurl, List.take_left, hlower, if_neg hne]

/-- What is put before the host, without the `@` at its end. -/
private theorem formatUser_cases {p : ParsedUrl} (hp : p.WellFormed) (hnil : p.user ≠ []) :
    ∃ w, formatUser p = w ++ [0x40] ∧ ∀ c ∈ w, isUserChar c ∨ c = 0x3a := by
  refine ⟨p.user ++ if p.password = [] then [] else 0x3a :: p.password, ?_, ?_⟩
  · rw [formatUser, if_neg hnil, List.append_assoc]
  · intro c hc
    rcases List.mem_append.mp hc with hc | hc
    · exact .inl (hp.user c hc)
    · split at hc
      · cases hc
      · rcases List.mem_cons.mp hc with rfl | hc
        · exact .inr rfl
        · exact hp.password c hc

/-- The user, if there is one, is before the authority; an `@` may also be behind it. -/
theorem userBounds_eq {p : ParsedUrl} (hp : p.WellFormed) {authority file : List UInt8}
    (hauth : ∀ c ∈ authority, c ∉ stops ∧ c ≠ 0x40)
    (hfile : ∀ c ∈ file.head?, c ∈ stops)
    (hurl : url = x ++ (formatUser p ++ (authority ++ file))) :
    userBounds url x.length =
      (if p.user = [] then none else some (x.length, x.length + (formatUser p).length - 1),
        x.length + (formatUser p).length) := by
  have hat : 0x40 ∉ authority := fun h => (hauth _ h).2 rfl
  unfold userBounds
  by_cases hnil : p.user = []
  · have hnone : formatUser p = [] := if_pos hnil
    rw [hnone, List.nil_append] at hurl
    rw [if_pos hnil, hnone, List.length_nil, Nat.add_zero]
    cases file with
    | nil =>
      rw [List.append_nil] at hurl
      rw [find_eq_none hurl rfl hat]
    | cons c file =>
      rw [findFirstOf_eq_some hurl rfl (fun a ha => (hauth a ha).1) (hfile c rfl)]
      cases hfind : find url 0x40 x.length with
      | none => rfl
      | some userEnd =>
        have := le_of_find hurl rfl hat hfind
        dsimp only
        rw [if_neg (by omega)]
  · obtain ⟨w, hw, hchars⟩ := formatUser_cases hp hnil
    have hwuser : ∀ c ∈ w, c ∉ stops ∧ c ≠ 0x40 := fun c hc =>
      ⟨(isUserChar_not c (hchars c hc)).1, (isUserChar_not c (hchars c hc)).2.1⟩
    have hlen : (formatUser p).length = w.length + 1 := by
      rw [hw, List.length_append, List.length_singleton]
    have hfind : find url 0x40 x.length = some (x.length + w.length) := by
      refine find_eq_some (r := authority ++ file) ?_ rfl fun h => (hwuser _ h).2 rfl
      rw [hurl, hw, List.append_assoc, List.singleton_append]
    rw [hfind, if_neg hnil, hlen]
    have hnone : ∀ a ∈ w ++ 0x40 :: authority, a ∉ stops := by
      intro a ha
      rcases List.mem_append.mp ha with ha | ha
      · exact (hwuser a ha).1
      · rcases List.mem_cons.mp ha with rfl | ha
        · decide
        · exact (hauth a ha).1
    have hall : url = x ++ (w ++ 0x40 :: authority ++ file) := by
      rw [hurl, hw]
      simp
    cases file with
    | nil =>
      rw [List.append_nil] at hall
      rw [findFirstOf_eq_none hall rfl hnone]
      rfl
    | cons c file =>
      rw [findFirstOf_eq_some hall rfl hnone (hfile c rfl)]
      dsimp only
      rw [List.length_append, List.length_cons, if_pos (by omega)]
      rfl

/-- The user and the password are read back. -/
theorem decodeUser_eq {p : ParsedUrl} (hp : p.WellFormed)
    (hurl : url = x ++ (formatUser p ++ rest)) (res : ParsedUrl)
    (hres : res.user = [] ∧ res.password = []) :
    decodeUser url res (if p.user = [] then none
        else some (x.length, x.length + (formatUser p).length - 1)) =
      { res with user := p.user, password := p.password } := by
  by_cases hnil : p.user = []
  · have hpass : p.password = [] := by
      by_contra hpass
      exact hp.password_user hpass hnil
    rw [if_pos hnil, hnil, hpass]
    cases res
    obtain ⟨rfl, rfl⟩ := hres
    rfl
  rw [if_neg hnil]
  have hcolon : 0x3a ∉ p.user := fun h => isUserChar_colon _ (hp.user _ h) rfl
  unfold decodeUser
  dsimp only
  by_cases hpass : p.password = []
  · have hform : formatUser p = p.user ++ [0x40] := by
      rw [formatUser, if_neg hnil, if_pos hpass, List.nil_append]
    rw [hform, List.append_assoc] at hurl
    have hlen : x.length + (formatUser p).length - 1 = x.length + p.user.length := by
      rw [hform, List.length_append, List.length_singleton]
      omega
    have huser : substr url x.length (x.length + p.user.length) = p.user :=
      substr_eq hurl rfl rfl
    rw [hlen, huser, hpass, ← hres.2]
    cases hfind : find url 0x3a x.length with
    | none => rfl
    | some pos =>
      have hnot : 0x3a ∉ p.user ++ [0x40] := by
        simp [hcolon]
      have := le_of_find (m := p.user ++ [0x40]) (r := rest) (by rw [hurl, List.append_assoc]) rfl
        hnot hfind
      rw [List.length_append, List.length_singleton] at this
      dsimp only
      rw [if_neg (by omega)]
  · have hform : formatUser p = p.user ++ (0x3a :: (p.password ++ [0x40])) := by
      rw [formatUser, if_neg hnil, if_neg hpass, List.cons_append]
    rw [hform, List.append_assoc, List.cons_append, List.append_assoc] at hurl
    have hlen : x.length + (formatUser p).length - 1 =
        x.length + p.user.length + 1 + p.password.length := by
      rw [hform]
      simp only [List.length_append, List.length_cons, List.length_nil]
      omega
    have huser : substr url x.length (x.length + p.user.length) = p.user :=
      substr_eq hurl rfl rfl
    have hpassword : substr url (x.length + p.user.length + 1)
        (x.length + p.user.length + 1 + p.password.length) = p.password :=
      substr_eq (p := x ++ (p.user ++ [0x3a])) (r := [0x40] ++ rest) (by simp [hurl])
        (by simp only [List.length_append, List.length_singleton]; omega) rfl
    rw [find_eq_some hurl rfl hcolon, hlen]
    dsimp only
    rw [if_pos (by omega), huser, hpassword]

theorem toInt_port (port : UInt16) : UInt16.ofInt (toInt (natToString port.toNat)) = port := by
  have hlt := port.toNat_lt
  have h := toInt_natToString_append (n := port.toNat) (by omega) (s := []) (by simp)
  rw [List.append_nil] at h
  rw [h, UInt16.ofInt]
  have hmod : ((port.toNat : Int) % 2 ^ 16).toNat = port.toNat := by omega
  rw [hmod, UInt16.ofNat_toNat]

/-- A port that is not written is the default one. -/
theorem formatPort_cases {p : ParsedUrl} (hport : p.port ≠ 0) (omitDefaultPort : Bool) :
    formatPort p omitDefaultPort = [] ∧ (getDefaultPort p.protocol).2.1 = p.port ∨
      formatPort p omitDefaultPort = 0x3a :: natToString p.port.toNat := by
  unfold formatPort
  rw [if_neg hport]
  split
  · next h => exact .inl ⟨rfl, h.2.symm⟩
  · exact .inr rfl

private theorem getD_length {c : UInt8} {r : List UInt8} (h : url = x ++ c :: r) :
    url.getD x.length 0 = c := by
  simp [h]

/-- What `hostBounds` finds, when the port has been written or not. -/
private def Bounds (p : ParsedUrl) (url : List UInt8) (authorityEnd : Nat)
    (bounds : Option (List UInt8 × Option Nat)) : Prop :=
  ∃ portStart, bounds = some (p.host, portStart) ∧
    (portStart = none ∧ (getDefaultPort p.protocol).2.1 = p.port ∨
      ∃ i, portStart = some i ∧ substr url i authorityEnd = natToString p.port.toNat)

/-- An address in brackets. -/
private theorem hostBounds_ip6 {p : ParsedUrl} (hport : p.port ≠ 0) (hhost : 0x5d ∉ p.host)
    (omitDefaultPort : Bool) {file : List UInt8} (hx : 0x5d ∉ x)
    (hfile : ∀ c ∈ file.head?, c ≠ 0x3a)
    (hurl : url = x ++ (0x5b :: p.host ++ [0x5d] ++ formatPort p omitDefaultPort ++ file)) :
    Bounds p url
      (x.length + (0x5b :: p.host ++ [0x5d] ++ formatPort p omitDefaultPort).length)
      (hostBounds towlower url x.length
        (x.length + (0x5b :: p.host ++ [0x5d] ++ formatPort p omitDefaultPort).length)) := by
  have hhead : url.getD x.length 0 = 0x5b :=
    getD_length (r := p.host ++ [0x5d] ++ formatPort p omitDefaultPort ++ file) (by simp [hurl])
  have hfind : find url 0x5d 0 = some (x.length + 1 + p.host.length) := by
    have hnot : 0x5d ∉ x ++ 0x5b :: p.host := by
      simp [hx, hhost]
    have hlen : 0 + (x ++ 0x5b :: p.host).length = x.length + 1 + p.host.length := by
      rw [List.length_append, List.length_cons]
      omega
    rw [← hlen]
    exact find_eq_some (p := []) (r := formatPort p omitDefaultPort ++ file) (by simp [hurl]) rfl
      hnot
  have hsub : substr url (x.length + 1) (x.length + 1 + p.host.length) = p.host :=
    substr_eq (p := x ++ [0x5b]) (r := [0x5d] ++ formatPort p omitDefaultPort ++ file)
      (by simp [hurl]) (by simp) rfl
  have hurl' : url = (x ++ (0x5b :: (p.host ++ [0x5d]))) ++
      (formatPort p omitDefaultPort ++ file) := by
    simp [hurl]
  have hlen : (x ++ (0x5b :: (p.host ++ [0x5d]))).length = x.length + 1 + p.host.length + 1 := by
    simp only [List.length_append, List.length_cons, List.length_nil]
    omega
  unfold hostBounds
  rw [if_pos hhead, hfind]
  dsimp only
  rw [hsub]
  refine ⟨_, rfl, ?_⟩
  rcases formatPort_cases hport omitDefaultPort with ⟨hnone, hdef⟩ | hsome
  · refine .inl ⟨if_neg ?_, hdef⟩
    rintro ⟨hlt, hchar⟩
    rw [hnone, List.nil_append] at hurl'
    cases file with
    | nil =>
      rw [hurl', List.append_nil, hlen] at hlt
      omega
    | cons c file =>
      have := getD_length hurl'
      rw [hlen, hchar] at this
      exact hfile c rfl this.symm
  · rw [hsome, List.cons_append] at hurl'
    have hlt : x.length + 1 + p.host.length + 1 < url.length := by
      rw [hurl', List.length_append, hlen, List.length_cons]
      omega
    have hchar := getD_length hurl'
    rw [hlen] at hchar
    refine .inr ⟨x.length + 1 + p.host.length + 2, if_pos ⟨hlt, hchar⟩, ?_⟩
    refine substr_eq (p := x ++ (0x5b :: (p.host ++ [0x5d])) ++ [0x3a]) (r := file)
      (by simp [hurl']) (by rw [List.length_append, hlen]; rfl) ?_
    rw [hsome]
    simp only [List.length_append, List.length_cons, List.length_nil]
    omega

/-- A host name. -/
private theorem hostBounds_name {p : ParsedUrl} (hT : KeepsSmall towlower) (hport : p.port ≠ 0)
    (hne : p.host ≠ []) (hhost : ∀ c ∈ p.host, isNameChar c)
    (omitDefaultPort : Bool) {file : List UInt8} (hfile : ∀ c ∈ file.head?, c ≠ 0x3a)
    (hurl : url = x ++ (p.host ++ formatPort p omitDefaultPort ++ file)) :
    Bounds p url (x.length + (p.host ++ formatPort p omitDefaultPort).length)
      (hostBounds towlower url x.length
        (x.length + (p.host ++ formatPort p omitDefaultPort).length)) := by
  have hcolon : 0x3a ∉ p.host := fun h =>
    isUserChar_colon _ (isUserChar_of_isNameChar (hhost _ h)) rfl
  have hlower : toLower towlower p.host = p.host :=
    toLower_of_small hT fun c hc => isNameChar_small c (hhost c hc)
  have hsub : substr url x.length (x.length + p.host.length) = p.host :=
    substr_eq (r := formatPort p omitDefaultPort ++ file) (by simp [hurl]) rfl rfl
  have hhead : url.getD x.length 0 ≠ 0x5b := by
    obtain ⟨c, host, hcons⟩ := List.exists_cons_of_ne_nil hne
    have hc : isNameChar c := hhost c (by rw [hcons]; exact List.mem_cons_self)
    have hchar : url.getD x.length 0 = c :=
      getD_length (r := host ++ formatPort p omitDefaultPort ++ file) (by simp [hurl, hcons])
    rw [hchar]
    exact (isUserChar_not c (.inl (isUserChar_of_isNameChar hc))).2.2.1
  unfold hostBounds
  rw [if_neg hhead]
  dsimp only
  rcases formatPort_cases hport omitDefaultPort with ⟨hnone, hdef⟩ | hsome
  · -- a colon is only behind the authority
    rw [hnone, List.append_nil] at hurl ⊢
    rw [hsub, hlower]
    cases hfind : find url 0x3a x.length with
    | none => exact ⟨none, rfl, .inl ⟨rfl, hdef⟩⟩
    | some portStart =>
      have hbehind : x.length + p.host.length < portStart := by
        cases file with
        | nil =>
          rw [find_eq_none (m := p.host) (by simpa using hurl) rfl hcolon] at hfind
          cases hfind
        | cons c file =>
          have hc := hfile c rfl
          have := le_of_find (m := p.host ++ [c]) (r := file) (by simpa using hurl) rfl
            (by simp [hcolon, Ne.symm hc]) hfind
          rw [List.length_append, List.length_singleton] at this
          omega
      dsimp only
      rw [if_pos hbehind]
      exact ⟨none, rfl, .inl ⟨rfl, hdef⟩⟩
  · have hfind : find url 0x3a x.length = some (x.length + p.host.length) :=
      find_eq_some (r := natToString p.port.toNat ++ file) (by rw [hurl, hsome]; simp) rfl hcolon
    rw [hfind]
    dsimp only
    rw [if_neg (by rw [List.length_append]; omega), hsub, hlower]
    refine ⟨_, rfl, .inr ⟨_, rfl, ?_⟩⟩
    refine substr_eq (p := x ++ (p.host ++ [0x3a])) (r := file) (by rw [hurl, hsome]; simp)
      (by simp; omega) ?_
    rw [hsome]
    simp only [List.length_append, List.length_cons]
    omega

/-- The host and the port are read back. -/
theorem decodeHost_eq (hT : KeepsSmall towlower) {p : ParsedUrl} (hp : p.WellFormed)
    (omitDefaultPort : Bool) {file : List UInt8} (hx : 0x5d ∉ x)
    (hfile : ∀ c ∈ file.head?, c ∈ stops)
    (hurl : url = x ++ (formatHost p ++ formatPort p omitDefaultPort ++ file)) (res : ParsedUrl)
    (hres : res.protocol = p.protocol) :
    decodeHost towlower url x.length
        (x.length + (formatHost p ++ formatPort p omitDefaultPort).length) res =
      some { res with
        host := p.host, port := p.port, isSecure := (getDefaultPort p.protocol).2.2 } := by
  have hcolon : ∀ c ∈ file.head?, c ≠ 0x3a := by
    intro c hc heq
    rw [heq] at hc
    exact absurd (hfile _ hc) (by decide)
  have key : Bounds p url (x.length + (formatHost p ++ formatPort p omitDefaultPort).length)
      (hostBounds towlower url x.length
        (x.length + (formatHost p ++ formatPort p omitDefaultPort).length)) := by
    unfold formatHost at hurl ⊢
    rcases hp.host with ⟨hne, hname⟩ | ⟨hin, hip6⟩
    · have hnot : 0x3a ∉ p.host := fun h =>
        isUserChar_colon _ (isUserChar_of_isNameChar (hname _ h)) rfl
      rw [if_neg hnot] at hurl ⊢
      exact hostBounds_name hT hp.port hne hname omitDefaultPort hcolon hurl
    · rw [if_pos hin] at hurl ⊢
      exact hostBounds_ip6 hp.port (fun h => (isIp6Char_not _ (hip6 _ h)).2.2.2.1 rfl)
        omitDefaultPort hx hcolon hurl
  have hpos : 0 < (formatHost p ++ formatPort p omitDefaultPort).length := by
    have hne : formatHost p ≠ [] := by
      unfold formatHost
      split
      · simp
      · rcases hp.host with ⟨hne, -⟩ | ⟨hin, -⟩
        · exact hne
        · exact List.ne_nil_of_mem hin
    rw [List.length_append]
    have := List.length_pos_iff.mpr hne
    omega
  obtain ⟨portStart, hbounds, hport⟩ := key
  unfold decodeHost
  rw [if_pos (by omega), hbounds, hres]
  rcases hport with ⟨rfl, hdef⟩ | ⟨i, rfl, hsub⟩
  · dsimp only
    rw [hdef]
  · dsimp only
    rw [hsub, toInt_port]

/-! ### The round trip -/

/-- No part of a URL before the path has a character that ends the authority. -/
private theorem formatUser_chars {p : ParsedUrl} (hp : p.WellFormed) :
    ∀ c ∈ formatUser p, c ∉ stops ∧ c ≠ 0x5d := by
  intro c hc
  by_cases hnil : p.user = []
  · rw [formatUser, if_pos hnil] at hc
    cases hc
  · obtain ⟨w, hw, hchars⟩ := formatUser_cases hp hnil
    rw [hw] at hc
    rcases List.mem_append.mp hc with hc | hc
    · have := isUserChar_not c (hchars c hc)
      exact ⟨this.1, this.2.2.2⟩
    · rw [List.mem_singleton.mp hc]
      decide

private theorem authority_chars {p : ParsedUrl} (hp : p.WellFormed) (omitDefaultPort : Bool) :
    ∀ c ∈ formatHost p ++ formatPort p omitDefaultPort, c ∉ stops ∧ c ≠ 0x40 := by
  have hhost : ∀ c ∈ p.host, c ∉ stops ∧ c ≠ 0x40 := by
    intro c hc
    rcases hp.host with ⟨-, hname⟩ | ⟨-, hip6⟩
    · have := isUserChar_not c (.inl (isUserChar_of_isNameChar (hname c hc)))
      exact ⟨this.1, this.2.1⟩
    · have := isIp6Char_not c (hip6 c hc)
      exact ⟨this.1, this.2.1⟩
  intro c hc
  rcases List.mem_append.mp hc with hc | hc
  · unfold formatHost at hc
    split at hc
    · simp only [List.cons_append, List.mem_cons, List.mem_append, List.not_mem_nil,
        or_false] at hc
      rcases hc with rfl | hc | rfl
      · decide
      · exact hhost c hc
      · decide
    · exact hhost c hc
  · rcases formatPort_cases hp.port omitDefaultPort with ⟨hnone, -⟩ | hsome
    · rw [hnone] at hc
      cases hc
    · rw [hsome] at hc
      rcases List.mem_cons.mp hc with rfl | hc
      · decide
      · obtain ⟨hlow, hhigh⟩ := digit_of_mem_natToString hc
        have hnot : ∀ q ∈ 0x40 :: stops, ¬ (0x30 ≤ q ∧ q ≤ 0x39) := by
          simp [stops]
        have hc : c ∉ 0x40 :: stops := fun hmem => hnot c hmem ⟨hlow, hhigh⟩
        exact ⟨fun hmem ↦ hc (List.mem_cons_of_mem _ hmem), fun heq ↦ hc (heq ▸ List.mem_cons_self)⟩

private theorem formatFile_head {p : ParsedUrl} (hp : p.WellFormed) :
    ∀ c ∈ (formatFile p).head?, c ∈ stops := by
  intro c hc
  unfold formatFile at hc
  cases hpath : p.path with
  | cons b path =>
    rw [hpath] at hc
    have hb := hp.path_head b (by rw [hpath]; rfl)
    rw [List.cons_append, List.head?_cons, Option.mem_some_iff] at hc
    rw [← hc, hb]
    decide
  | nil =>
    rw [hpath, List.nil_append] at hc
    split at hc
    · rw [List.nil_append] at hc
      split at hc
      · cases hc
      · rw [List.head?_cons, Option.mem_some_iff] at hc
        rw [← hc]
        decide
    · rw [List.cons_append, List.head?_cons, Option.mem_some_iff] at hc
      rw [← hc]
      decide

private theorem formatFile_eq_nil {p : ParsedUrl} (h : formatFile p = []) :
    p.path = [] ∧ p.query = [] ∧ p.fragment = [] := by
  obtain ⟨hpath, h⟩ := List.append_eq_nil_iff.mp h
  obtain ⟨hquery, hfragment⟩ := List.append_eq_nil_iff.mp h
  refine ⟨hpath, ?_, ?_⟩
  · by_contra hne
    rw [if_neg hne] at hquery
    cases hquery
  · by_contra hne
    rw [if_neg hne] at hfragment
    cases hfragment

private theorem before_chars {p : ParsedUrl} (hp : p.WellFormed) :
    ∀ c ∈ p.protocol ++ ascii "://", c ≠ 0x23 ∧ c ≠ 0x3f ∧ c ≠ 0x5d := by
  intro c hc
  rcases List.mem_append.mp hc with hc | hc
  · have := ((protocol_small hp.protocol).2 c hc).1
    refine ⟨?_, ?_, ?_⟩ <;> rintro rfl <;> exact absurd this (by decide)
  · have hsep : ∀ c ∈ ascii "://", c ≠ 0x23 ∧ c ≠ 0x3f ∧ c ≠ 0x5d := by
      simp [ascii]
      decide
    exact hsep c hc

private theorem head_chars {p : ParsedUrl} (hp : p.WellFormed) (omitDefaultPort : Bool) :
    ∀ c ∈ p.protocol ++ ascii "://" ++ formatUser p ++
      (formatHost p ++ formatPort p omitDefaultPort), c ≠ 0x23 ∧ c ≠ 0x3f := by
  have hset : ∀ c, c ∉ stops → c ≠ 0x23 ∧ c ≠ 0x3f := by
    intro c hnot
    refine ⟨?_, ?_⟩ <;> rintro rfl <;> exact hnot (by decide)
  intro c hc
  rcases List.mem_append.mp hc with hc | hc
  · rcases List.mem_append.mp hc with hc | hc
    · exact ⟨(before_chars hp c hc).1, (before_chars hp c hc).2.1⟩
    · exact hset c (formatUser_chars hp c hc).1
  · exact hset c (authority_chars hp omitDefaultPort c hc).1

/-- The bounds of the query and the fragment behind a text with neither. -/
private theorem fileBounds_eq {p : ParsedUrl} (hp : p.WellFormed)
    (hx : ∀ c ∈ x, c ≠ 0x23 ∧ c ≠ 0x3f) (hurl : url = x ++ formatFile p) :
    ∃ queryEnd fragmentStart fileEnd queryStart,
      fragmentBounds url = (queryEnd, fragmentStart) ∧
      queryBounds url queryEnd = (fileEnd, queryStart) ∧
      substr url fragmentStart url.length = p.fragment ∧
      (0x3f ∉ p.query → fileEnd = x.length + p.path.length ∧
        substr url queryStart queryEnd = p.query) ∧
      (0x3f ∈ p.query → x.length + p.path.length < fileEnd ∧ fileEnd ≤ url.length) := by
  have hpath : ∀ c ∈ x ++ p.path, c ≠ 0x23 ∧ c ≠ 0x3f := by
    intro c hc
    rcases List.mem_append.mp hc with hc | hc
    · exact hx c hc
    · exact isPathChar_not c (hp.path c hc)
  have hfragment : 0x23 ∉ p.fragment := fun h => isQueryChar_not _ (hp.fragment _ h) rfl
  have hbefore : 0x23 ∉ x ++ p.path ++ if p.query = [] then [] else 0x3f :: p.query := by
    intro h
    rcases List.mem_append.mp h with h | h
    · exact (hpath _ h).1 rfl
    · split at h
      · cases h
      · rcases List.mem_cons.mp h with h | h
        · cases h
        · exact isQueryChar_not _ (hp.query _ h) rfl
  have hfile : x ++ formatFile p =
      x ++ p.path ++ (if p.query = [] then [] else 0x3f :: p.query) ++
        if p.fragment = [] then [] else 0x23 :: p.fragment := by
    rw [formatFile]
    simp only [List.append_assoc]
  obtain ⟨fragmentStart, hfrag, hsub⟩ := fragmentBounds_eq hbefore hfragment (hurl.trans hfile)
  have hhead : ∀ c ∈ (if p.fragment = [] then [] else 0x23 :: p.fragment).head?,
      (c : UInt8) ≠ 0x3f := by
    intro c hc
    split at hc
    · cases hc
    · rw [List.head?_cons, Option.mem_some_iff] at hc
      rw [← hc]
      decide
  obtain ⟨fileEnd, queryStart, hquery, hnot, hin⟩ := queryBounds_eq
    (fun h => (hpath _ h).2 rfl) hhead ((hurl.trans hfile).trans (List.append_assoc _ _ _)) rfl
  have hlen : (x ++ p.path).length = x.length + p.path.length := List.length_append
  rw [hlen] at hnot hin
  refine ⟨_, fragmentStart, fileEnd, queryStart, hfrag, ?_, hsub, ?_, hin⟩
  · rw [← hquery, List.length_append]
  · rw [List.length_append, List.length_append]
    exact hnot

/-- A formatted URL is read back but for the path and the query, which are what is between the
bounds that the last `?` gives. -/
private theorem decodeUrl_formatUrl (hT : KeepsSmall towlower)
    (toAce : List UInt8 → Option (List UInt8)) {p : ParsedUrl} (hp : p.WellFormed)
    (omitDefaultPort : Bool) (res : ParsedUrl) (defProto : List UInt8) :
    ∃ x fileEnd queryStart queryEnd,
      formatUrl p omitDefaultPort = x ++ formatFile p ∧
      decodeUrl towlower toAce (formatUrl p omitDefaultPort) res defProto =
        { p with
          path := substr (formatUrl p omitDefaultPort) x.length fileEnd
          query := substr (formatUrl p omitDefaultPort) queryStart queryEnd
          isSecure := (getDefaultPort p.protocol).2.2 } ∧
      (0x3f ∉ p.query → fileEnd = x.length + p.path.length ∧
        substr (formatUrl p omitDefaultPort) queryStart queryEnd = p.query) ∧
      (0x3f ∈ p.query → x.length + p.path.length < fileEnd ∧
        fileEnd ≤ (formatUrl p omitDefaultPort).length) := by
  have hhost : p.host ≠ [] := by
    rcases hp.host with ⟨hne, -⟩ | ⟨hin, -⟩
    · exact hne
    · exact List.ne_nil_of_mem hin
  have hurl : formatUrl p omitDefaultPort = p.protocol ++ (ascii "://" ++ (formatUser p ++
      (formatHost p ++ formatPort p omitDefaultPort ++ formatFile p))) :=
    if_neg (not_or.mpr ⟨(protocol_small hp.protocol).1, hhost⟩)
  generalize formatUrl p omitDefaultPort = url at hurl
  have hurl1 : url = (p.protocol ++ ascii "://") ++ (formatUser p ++
      (formatHost p ++ formatPort p omitDefaultPort ++ formatFile p)) := by
    simp only [hurl, List.append_assoc]
  have hurl2 : url = (p.protocol ++ ascii "://" ++ formatUser p) ++
      (formatHost p ++ formatPort p omitDefaultPort ++ formatFile p) := by
    simp only [hurl, List.append_assoc]
  have hurl3 : url = (p.protocol ++ ascii "://" ++ formatUser p ++
      (formatHost p ++ formatPort p omitDefaultPort)) ++ formatFile p := by
    simp only [hurl, List.append_assoc]
  have hlen : (p.protocol ++ ascii "://").length = p.protocol.length + 3 := List.length_append
  obtain ⟨queryEnd, fragmentStart, fileEnd, queryStart, hfrag, hquery, hsub, hnot, hin⟩ :=
    fileBounds_eq hp (head_chars hp omitDefaultPort) hurl3
  refine ⟨_, fileEnd, queryStart, queryEnd, hurl3, ?_, hnot, hin⟩
  have hproto := decodeProtocol_eq hT hp.protocol defProto hurl
  have huser := userBounds_eq hp (authority_chars hp omitDefaultPort) (formatFile_head hp) hurl1
  rw [hlen, ← hlen, ← List.length_append] at huser
  have hstart : (findFirstOf url (stops)
      (p.protocol ++ ascii "://" ++ formatUser p).length).getD fileEnd =
        (p.protocol ++ ascii "://" ++ formatUser p).length +
          (formatHost p ++ formatPort p omitDefaultPort).length := by
    have hnone : ∀ c ∈ formatHost p ++ formatPort p omitDefaultPort, c ∉ stops :=
      fun c hc => (authority_chars hp omitDefaultPort c hc).1
    cases hfile : formatFile p with
    | nil =>
      obtain ⟨hpath, hquery, -⟩ := formatFile_eq_nil hfile
      rw [hfile, List.append_nil] at hurl2
      rw [findFirstOf_eq_none hurl2 rfl hnone, Option.getD_none,
        (hnot (by rw [hquery]; exact List.not_mem_nil)).1, hpath, List.length_nil, Nat.add_zero,
        List.length_append]
    | cons c file =>
      have hc := formatFile_head hp c (by rw [hfile]; rfl)
      rw [hfile] at hurl2
      rw [findFirstOf_eq_some hurl2 rfl hnone hc, Option.getD_some]
  have hclosed : 0x5d ∉ p.protocol ++ ascii "://" ++ formatUser p := by
    intro h
    rcases List.mem_append.mp h with h | h
    · exact (before_chars hp _ h).2.2 rfl
    · exact (formatUser_chars hp _ h).2 rfl
  have hascii : isAscii p.host = true := by
    rw [isAscii, List.all_eq_true]
    intro c hc
    rw [decide_eq_true_eq]
    rcases hp.host with ⟨-, hname⟩ | ⟨-, hip6⟩
    · exact (and_80 c).mpr (isNameChar_small c (hname c hc)).1
    · exact (isIp6Char_not c (hip6 c hc)).2.2.2.2
  have hhostPort := decodeHost_eq hT hp omitDefaultPort hclosed (formatFile_head hp) hurl2
  unfold decodeUrl
  rw [hfrag]
  dsimp only
  rw [hquery, hproto]
  dsimp only
  rw [← hlen, huser]
  dsimp only
  rw [hstart, hhostPort]
  · dsimp only
    have hbefore : (p.protocol ++ ascii "://" ++ formatUser p).length =
        (p.protocol ++ ascii "://").length + (formatUser p).length := List.length_append
    rw [hbefore, decodeUser_eq hp hurl1, hsub, convertHost]
    · dsimp only
      rw [if_pos hascii]
      simp only [List.length_append]
    · exact ⟨rfl, rfl⟩
  · rfl

/-- A formatted URL gives back its parts when its query has no `?`, and only then: the last one is
taken for the end of the path. -/
theorem decodeUrl_formatUrl_iff {towlower : Nat → Nat} (hT : KeepsSmall towlower)
    (toAce : List UInt8 → Option (List UInt8)) {p : ParsedUrl} (hp : p.WellFormed)
    (omitDefaultPort : Bool) (res : ParsedUrl) (defProto : List UInt8) :
    decodeUrl towlower toAce (formatUrl p omitDefaultPort) res defProto =
      { p with isSecure := (getDefaultPort p.protocol).2.2 } ↔ 0x3f ∉ p.query := by
  obtain ⟨x, fileEnd, queryStart, queryEnd, hurl, hdecode, hnot, hin⟩ :=
    decodeUrl_formatUrl hT toAce hp omitDefaultPort res defProto
  rw [hdecode]
  constructor
  · intro heq hmem
    obtain ⟨hlt, hle⟩ := hin hmem
    have hpath := congrArg (fun u => u.path.length) heq
    dsimp only at hpath
    rw [substr, if_pos (by omega), List.length_take, List.length_drop] at hpath
    omega
  · intro hmem
    obtain ⟨hend, hquery⟩ := hnot hmem
    have hpath : substr (formatUrl p omitDefaultPort) x.length fileEnd = p.path :=
      substr_eq hurl rfl hend
    rw [hpath, hquery]

/-- `towlower` of the ASCII characters. -/
def smallLetter (c : Nat) : Nat := if 0x41 ≤ c ∧ c ≤ 0x5a then c + 0x20 else c

private theorem keepsSmall_smallLetter : KeepsSmall smallLetter := fun _ _ h => if_neg h

/-- A URL with every part but a query. -/
def sampleUrl : ParsedUrl where
  protocol := ascii "adcs"
  host := ascii "2001:db8::1"
  user := ascii "me"
  password := ascii "a:b"
  port := 5000
  path := ascii "/x"
  query := []
  fragment := ascii "y?z"
  isSecure := true

private theorem wellFormed_sampleUrl {query : List UInt8}
    (h : ∀ c ∈ query, isQueryChar c) :
    ({ sampleUrl with query := query } : ParsedUrl).WellFormed := by
  have hp : sampleUrl.WellFormed :=
    { protocol := by decide
      host := .inr (by simp [sampleUrl, ascii, Char.toUInt8, isIp6Char])
      port := by decide
      user := by simp [sampleUrl, ascii, Char.toUInt8, isUserChar, isNameChar]
      password := by simp [sampleUrl, ascii, Char.toUInt8, isUserChar, isNameChar]
      password_user := by simp [sampleUrl, ascii, Char.toUInt8]
      path_head := by simp [sampleUrl, ascii, Char.toUInt8]
      path := by simp [sampleUrl, ascii, Char.toUInt8, isPathChar, isUserChar, isNameChar]
      query := by simp [sampleUrl]
      fragment := by
        simp [sampleUrl, ascii, Char.toUInt8, isQueryChar, isPathChar, isUserChar, isNameChar] }
  exact ⟨hp.protocol, hp.host, hp.port, hp.user, hp.password, hp.password_user, hp.path_head,
    hp.path, h, hp.fragment⟩

/-- A query without `?`. -/
theorem decodeUrl_formatUrl_sample :
    decodeUrl smallLetter (fun _ => none)
        (formatUrl { sampleUrl with query := ascii "k=v" } true) sampleUrl [] =
      { sampleUrl with query := ascii "k=v" } :=
  (decodeUrl_formatUrl_iff keepsSmall_smallLetter _ (wellFormed_sampleUrl
    (by simp [ascii, Char.toUInt8, isQueryChar, isPathChar, isUserChar, isNameChar])) true
    _ _).mpr (by decide)

/-- A query with `?`, which a query may have. -/
theorem not_decodeUrl_formatUrl_question :
    ({ sampleUrl with query := ascii "k=?" } : ParsedUrl).WellFormed ∧
      decodeUrl smallLetter (fun _ => none)
          (formatUrl { sampleUrl with query := ascii "k=?" } true) sampleUrl [] ≠
        { sampleUrl with query := ascii "k=?" } :=
  ⟨wellFormed_sampleUrl
    (by simp [ascii, Char.toUInt8, isQueryChar, isPathChar, isUserChar, isNameChar]), by decide⟩

end Blacklink.Text
