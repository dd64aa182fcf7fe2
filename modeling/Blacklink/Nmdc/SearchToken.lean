import Mathlib.Data.Nat.Digits.Defs
import Blacklink.Nmdc.Escape
import Blacklink.Nmdc.SearchGroups

/-!
# Searches on an NMDC hub

Model of how a search is sent to a hub (`client/NmdcHub.cpp:502-526, 2216-2292`) and of what another
user of the hub reads from the command.
-/

namespace Blacklink.Nmdc

open Blacklink.Text Blacklink.Share Blacklink.AntiFlood

/-! ### The searching user -/

/-- `SizeModes`. -/
inductive SizeModes where
  | dontCare
  | atLeast
  | atMost
  | exact
  deriving DecidableEq

/-- `SearchMode`. -/
inductive SearchMode where
  | default
  | active
  | passive
  deriving DecidableEq

/-- What a search is for; `fileType` is a number of `FileTypes`. -/
structure SearchRequest where
  mode : SearchMode
  sizeMode : SizeModes
  size : Int
  fileType : Nat
  filter : List UInt8

/-- `toUtf8` and `fromUtf8` with the encoding of a hub. -/
structure Encoding where
  toUtf8 : List UInt8 → List UInt8
  fromUtf8 : List UInt8 → List UInt8

/-- `CHARSET_UTF8`. -/
def Encoding.utf8 : Encoding := ⟨id, id⟩

/-- What `searchToken` asks for; `searchTths` is `SUPPORTS_SEARCH_TTHS`, `ip4` and `ip6` are what
`getLocalIp` gives, `port4` and `port6` the search ports. -/
structure Searcher where
  inet : Inet
  normal : Bool
  searchTths : Bool
  myNick : List UInt8
  active : Bool
  ip4 : UInt32
  ip6 : Vector UInt8 16
  port4 : UInt16
  port6 : UInt16

namespace Searcher

variable (a : Searcher)

/-- `isValidIp4`. -/
def validIp4 : Bool := a.ip4 ≠ 0 && a.ip4 ≠ 0xffffffff

/-- `isValidIp6`. -/
def validIp6 : Bool := a.ip6 ≠ .replicate 16 0 && a.ip6 ≠ .replicate 16 0xff

/-- `getMyUDPAddr`. -/
def getMyUDPAddr : List UInt8 × UInt16 :=
  if a.validIp4 then (printIpAddress a.ip4, a.port4)
  else if a.validIp6 then (a.inet.ntop a.ip6, a.port6)
  else (ascii "0.0.0.0", 0)

/-- `active` in `searchToken`. -/
def searchesActive (sp : SearchRequest) : Bool :=
  (match sp.mode with
    | .default => a.active
    | .active => true
    | .passive => false) && a.getMyUDPAddr.2 ≠ 0

/-- `myUDPAddr` with the port. -/
def udpAddr : List UInt8 :=
  a.getMyUDPAddr.1 ++ ':'.toUInt8 :: natToString a.getMyUDPAddr.2.toNat

/-- The seeker, whose nick is encoded. -/
def seeker (fromUtf8 : List UInt8 → List UInt8) (sp : SearchRequest) : List UInt8 :=
  if a.searchesActive sp then a.udpAddr else ascii "Hub:" ++ fromUtf8 a.myNick

end Searcher

/-- The query of a `$Search`, whose words are encoded. -/
def SearchRequest.query (fromUtf8 : List UInt8 → List UInt8) (sp : SearchRequest) : List UInt8 :=
  let c1 :=
    if sp.fileType = 8 ∨ sp.sizeMode = .dontCare ∨ sp.sizeMode = .exact then 'F'.toUInt8
    else 'T'.toUInt8
  let c2 := if sp.fileType ≠ 8 ∧ sp.sizeMode = .atLeast then 'F'.toUInt8 else 'T'.toUInt8
  let fileType := if 8 < sp.fileType then 0 else sp.fileType
  let words :=
    if sp.fileType = 8 then ascii "TTH:" ++ sp.filter
    else spacesToDollars (fromUtf8 (escapeNmdc sp.filter))
  c1 :: '?'.toUInt8 :: c2 :: '?'.toUInt8 :: (intToString sp.size ++ '?'.toUInt8 ::
    (natToString (fileType + 1) ++ '?'.toUInt8 :: words))

namespace Searcher

variable (a : Searcher)

/-- The command for a search. -/
def searchType (sp : SearchRequest) : SearchType :=
  if a.searchTths ∧ sp.fileType = 8 then if a.searchesActive sp then .sa else .sp else .search

/-- What is behind the command. -/
def searchParam (fromUtf8 : List UInt8 → List UInt8) (sp : SearchRequest) : List UInt8 :=
  if a.searchTths ∧ sp.fileType = 8 then
    sp.filter ++ ' '.toUInt8 ::
      if a.searchesActive sp then a.udpAddr else fromUtf8 a.myNick
  else a.seeker fromUtf8 sp ++ ' '.toUInt8 :: sp.query fromUtf8

end Searcher

/-- The name of a command. -/
def SearchType.name : SearchType → List UInt8
  | .search => ascii "Search"
  | .sa => ascii "SA"
  | .sp => ascii "SP"

/-- The text that `searchToken` sends, without the `|` at its end. -/
def Searcher.searchToken (a : Searcher) (enc : Encoding) (sp : SearchRequest) :
    Option (List UInt8) :=
  if a.normal then
    some ('$'.toUInt8 :: ((a.searchType sp).name ++ ' '.toUInt8 :: a.searchParam enc.fromUtf8 sp))
  else none

/-- What `onLine` makes of a search command. -/
def NmdcHub.onSearchLine (hub : NmdcHub) (enc : Encoding) (line : List UInt8) :
    Option SearchParam :=
  match splitFirst ' '.toUInt8 (line.drop 1) with
  | none => none
  | some (cmd, param) =>
    if hub.hideShare then none
    else if cmd = ascii "SA" then hub.searchParse .sa (enc.toUtf8 param)
    else if cmd = ascii "SP" then hub.searchParse .sp (enc.toUtf8 param)
    else if cmd = ascii "Search" then hub.searchParse .search (enc.toUtf8 param)
    else none

/-- The command that was sent is the one that is read. -/
theorem NmdcHub.onSearchLine_searchToken (hub : NmdcHub) {a : Searcher} {enc : Encoding}
    {sp : SearchRequest} {line : List UInt8} (hshown : hub.hideShare = false)
    (h : a.searchToken enc sp = some line) :
    hub.onSearchLine enc line =
      hub.searchParse (a.searchType sp) (enc.toUtf8 (a.searchParam enc.fromUtf8 sp)) := by
  unfold Searcher.searchToken at h
  split at h
  · injection h with h
    subst h
    have hspace : ' '.toUInt8 ∉ (a.searchType sp).name := by
      cases a.searchType sp <;> decide
    rw [onSearchLine, List.drop_succ_cons, List.drop_zero, splitFirst_append hspace]
    dsimp only
    rw [hshown, if_neg Bool.false_ne_true]
    cases a.searchType sp with
    | search => rfl
    | sa => rfl
    | sp => rfl
  · cases h

/-! ### Addresses -/

/-- A character of a printed address. -/
def IsAddressChar (c : UInt8) : Prop :=
  ('0'.toUInt8 ≤ c ∧ c ≤ ':'.toUInt8) ∨ ('a'.toUInt8 ≤ c ∧ c ≤ 'f'.toUInt8) ∨ c = '.'.toUInt8

instance (c : UInt8) : Decidable (IsAddressChar c) := inferInstanceAs (Decidable (_ ∨ _ ∨ _))

/-- `inet_ntop` gives a text for the address that `inet_pton` reads. -/
structure Inet.PrintsBack (inet : Inet) (ip : Vector UInt8 16) : Prop where
  pton : inet.pton (inet.ntop ip) = some ip
  chars : ∀ c ∈ inet.ntop ip, IsAddressChar c
  colon : ':'.toUInt8 ∈ inet.ntop ip

private theorem printIpAddress_chars (ip : UInt32) :
    ∀ c ∈ printIpAddress ip, IsAddressChar c ∧ c ≠ ':'.toUInt8 := by
  have hdigit : ∀ n, ∀ c ∈ natToString n, IsAddressChar c ∧ c ≠ ':'.toUInt8 := by
    intro n c hc
    obtain ⟨hlow, hhigh⟩ := digit_of_mem_natToString hc
    constructor
    · exact .inl ⟨hlow, UInt8.le_trans hhigh (by decide)⟩
    · rintro rfl
      exact absurd hhigh (by decide)
  have hdot : IsAddressChar '.'.toUInt8 ∧ '.'.toUInt8 ≠ ':'.toUInt8 := by decide
  intro c hc
  unfold printIpAddress at hc
  simp only [List.mem_append, List.mem_cons] at hc
  rcases hc with ((hc | rfl | hc) | rfl | hc) | rfl | hc
  all_goals first | exact hdigit _ _ hc | exact hdot

private theorem printIpAddress_ne_nil (ip : UInt32) : printIpAddress ip ≠ [] := by
  unfold printIpAddress
  simp

private theorem stripBrackets_of_head {s : List UInt8} (h : s.head? ≠ some '['.toUInt8) :
    stripBrackets s = s := if_neg fun hb => h hb.2.1

private theorem toUInt32_natToString {n : Nat} (h : n < 2 ^ 32) : toUInt32 (natToString n) = n := by
  have hvalue := digitsValue_natToString_append n (s := []) (by simp)
  rw [List.append_nil] at hvalue
  obtain ⟨c, u, hcu⟩ := List.exists_cons_of_ne_nil (natToString_ne_nil n)
  obtain ⟨hlow, -⟩ := digit_of_mem_natToString (n := n) (c := c) (by rw [hcu]; simp)
  have hspace : ¬ isWhiteSpace c = true := by
    intro hspace
    rw [isWhiteSpace, Bool.or_eq_true, decide_eq_true_eq, Bool.and_eq_true, decide_eq_true_eq,
      decide_eq_true_eq] at hspace
    rcases hspace with rfl | ⟨-, hle⟩
    · exact absurd hlow (by decide)
    · exact absurd (UInt8.le_trans hlow hle) (by decide)
  rw [hcu] at hvalue ⊢
  rw [toUInt32, List.dropWhile_cons_of_neg hspace]
  split
  · next heq =>
    cases heq
    exact absurd hlow (by decide)
  · rw [hvalue, Nat.mod_eq_of_lt h]

/-- An address with a port is taken apart. -/
theorem parseIpPort_append {ip : List UInt8} (hne : ip ≠ []) (hhead : ip.head? ≠ some '['.toUInt8)
    {port : UInt16} (hport : port ≠ 0) :
    parseIpPort (ip ++ ':'.toUInt8 :: natToString port.toNat) = some (ip, port) := by
  have hlt := port.toNat_lt
  have hpos : port.toNat ≠ 0 := fun h => hport (UInt16.toNat_inj.mp h)
  have hcolon : ':'.toUInt8 ∉ natToString port.toNat := by
    intro h
    exact absurd (digit_of_mem_natToString h).2 (by decide)
  have hlen : (natToString port.toNat).length ≤ 5 := by
    unfold natToString
    rw [List.length_map]
    exact Nat.toDigits_length 10 _ 5 (by omega) (by omega)
  have hvalue := toUInt32_natToString (n := port.toNat) (by omega)
  have hfirst : (ip ++ ':'.toUInt8 :: natToString port.toNat).head? ≠ some '['.toUInt8 := by
    rw [List.head?_append_of_ne_nil _ hne]
    exact hhead
  unfold parseIpPort
  rw [splitLast_append ip hcolon]
  dsimp only
  rw [if_neg fun h => hfirst h.1, hvalue, if_pos ⟨hlen, natToString_ne_nil _, hpos, by omega⟩]
  dsimp only
  rw [stripBrackets_of_head hhead, if_neg hne]
  exact congrArg (fun p => some (ip, p)) UInt16.ofNat_toNat

/-- The address of a searching user is one that is read back. -/
structure Searcher.Addressed (a : Searcher) (ip : IpAddress) : Prop where
  ne_nil : a.getMyUDPAddr.1 ≠ []
  chars : ∀ c ∈ a.getMyUDPAddr.1, IsAddressChar c
  parsed : a.inet.parseIpAddress a.getMyUDPAddr.1 = some ip

theorem Searcher.exists_addressed {a : Searcher} (hport : a.getMyUDPAddr.2 ≠ 0)
    (hback : a.inet.PrintsBack a.ip6) : ∃ ip, a.Addressed ip := by
  unfold getMyUDPAddr at hport
  cases h4 : a.validIp4 with
  | true =>
    have haddr : a.getMyUDPAddr.1 = printIpAddress a.ip4 := by
      rw [getMyUDPAddr, h4]
      rfl
    refine ⟨.v4 a.ip4, ?_, ?_, ?_⟩
    · rw [haddr]
      exact printIpAddress_ne_nil a.ip4
    · rw [haddr]
      exact fun c hc => (printIpAddress_chars a.ip4 c hc).1
    · have hcolon : ':'.toUInt8 ∉ printIpAddress a.ip4 :=
        fun h => (printIpAddress_chars a.ip4 _ h).2 rfl
      rw [haddr, Inet.parseIpAddress, if_neg (printIpAddress_ne_nil a.ip4), if_neg hcolon,
        parseIpAddress_printIpAddress]
      rfl
  | false =>
    rw [h4, if_neg Bool.false_ne_true] at hport
    cases h6 : a.validIp6 with
    | false =>
      rw [h6] at hport
      exact absurd rfl hport
    | true =>
      have haddr : a.getMyUDPAddr.1 = a.inet.ntop a.ip6 := by
        rw [getMyUDPAddr, h4, h6]
        rfl
      have hne : a.inet.ntop a.ip6 ≠ [] := List.ne_nil_of_mem hback.colon
      have hhead : (a.inet.ntop a.ip6).head? ≠ some '['.toUInt8 := by
        intro h
        exact absurd (hback.chars _ (List.mem_of_head? h)) (by decide)
      have htake : (a.inet.ntop a.ip6).takeWhile (· ≠ '%'.toUInt8) = a.inet.ntop a.ip6 := by
        apply List.takeWhile_eq_self_iff.mpr
        intro c hc
        apply decide_eq_true
        rintro rfl
        exact absurd (hback.chars _ hc) (by decide)
      refine ⟨.v6 a.ip6, ?_, ?_, ?_⟩
      · rw [haddr]
        exact hne
      · rw [haddr]
        exact hback.chars
      · rw [haddr, Inet.parseIpAddress, if_neg hne, if_pos hback.colon, stripBrackets_of_head hhead,
          htake, hback.pton]
        rfl

/-! ### Queries -/

/-- The size mode that arrives: an exact size is not asked for. -/
def SizeModes.arrives : SizeModes → SizeMode
  | .dontCare => .dontCare
  | .atLeast => .atLeast
  | .atMost => .atMost
  | .exact => .dontCare

/-- The file type that arrives: beyond `FILE_TYPE_TTH` none is asked for. -/
def fileTypeArrives (fileType : Nat) : Nat := if 8 < fileType then 0 else fileType

private theorem question_not_mem_intToString (n : Int) : '?'.toUInt8 ∉ intToString n := by
  have hnat : '?'.toUInt8 ∉ natToString n.natAbs := by
    intro h
    exact absurd (digit_of_mem_natToString h).2 (by decide)
  unfold intToString
  split
  · rw [List.mem_cons, not_or]
    exact ⟨by decide, hnat⟩
  · exact hnat

private theorem intToString_ne_nil (n : Int) : intToString n ≠ [] := by
  unfold intToString
  split
  · exact List.cons_ne_nil _ _
  · exact natToString_ne_nil _

/-- The fields of a query are what was asked for. -/
theorem parseQueryFields_query {f : List UInt8 → List UInt8} {sp : SearchRequest}
    (hlow : -2 ^ 63 ≤ sp.size) (hhigh : sp.size < 2 ^ 63) :
    parseQueryFields (sp.query f) = some
      { sizeMode := if sp.fileType = 8 then .dontCare else sp.sizeMode.arrives
        size := sp.size
        fileType := fileTypeArrives sp.fileType
        words :=
          if sp.fileType = 8 then ascii "TTH:" ++ sp.filter
          else spacesToDollars (f (escapeNmdc sp.filter)) } := by
  have htype : fileTypeArrives sp.fileType + 1 < 2 ^ 31 := by
    unfold fileTypeArrives
    split <;> omega
  have hmode : (if (if sp.fileType = 8 ∨ sp.sizeMode = .dontCare ∨ sp.sizeMode = .exact
        then 'F'.toUInt8 else 'T'.toUInt8) = 'F'.toUInt8 then SizeMode.dontCare
      else if (if sp.fileType ≠ 8 ∧ sp.sizeMode = .atLeast then 'F'.toUInt8 else 'T'.toUInt8) =
        'F'.toUInt8 then .atLeast else .atMost) =
      if sp.fileType = 8 then .dontCare else sp.sizeMode.arrives := by
    by_cases h8 : sp.fileType = 8
    · simp [h8]
    · cases hm : sp.sizeMode <;> simp [h8, SizeModes.arrives] <;> decide
  unfold SearchRequest.query
  dsimp only
  rw [← fileTypeArrives]
  generalize (if sp.fileType = 8 then ascii "TTH:" ++ sp.filter
    else spacesToDollars (f (escapeNmdc sp.filter))) = words
  generalize (if sp.fileType = 8 ∨ sp.sizeMode = .dontCare ∨ sp.sizeMode = .exact
    then 'F'.toUInt8 else 'T'.toUInt8) = c1 at hmode ⊢
  generalize (if sp.fileType ≠ 8 ∧ sp.sizeMode = .atLeast then 'F'.toUInt8 else 'T'.toUInt8) = c2
    at hmode ⊢
  have hnotDigit : ∀ (s : List UInt8), ∀ c ∈ ('?'.toUInt8 :: s).head?, ¬ (0x30 ≤ c ∧ c ≤ 0x39) := by
    intro s c hc
    cases hc
    decide
  have hsize := toInt64_intToString_append hlow hhigh (hnotDigit
    (natToString (fileTypeArrives sp.fileType + 1) ++ '?'.toUInt8 :: words))
  have hfileType := toInt_natToString_append htype (hnotDigit words)
  have hquestion : '?'.toUInt8 ∉ natToString (fileTypeArrives sp.fileType + 1) := by
    intro h
    exact absurd (digit_of_mem_natToString h).2 (by decide)
  have hsizeEq : (if intToString sp.size = ascii "0" then 0 else sp.size) = sp.size := by
    split
    · next h0 =>
      have hzero := toInt64_intToString_append hlow hhigh (s := []) (by simp)
      rw [List.append_nil, h0] at hzero
      rw [← hzero]
      decide
    · rfl
  unfold parseQueryFields
  rw [if_neg (by simp)]
  simp only [List.drop_succ_cons, List.drop_zero]
  rw [splitFirst_append (question_not_mem_intToString sp.size), hsize]
  obtain ⟨x, xs, hx⟩ := List.exists_cons_of_ne_nil (intToString_ne_nil sp.size)
  obtain ⟨y, ys, hy⟩ :=
    List.exists_cons_of_ne_nil (natToString_ne_nil (fileTypeArrives sp.fileType + 1))
  rw [hx] at hsizeEq ⊢
  dsimp only
  rw [splitFirst_append hquestion, hfileType, hy, hsizeEq]
  simp only [List.getElem?_cons_zero, List.getElem?_cons_succ, Option.some.injEq]
  rw [hmode]
  congr 2
  omega

/-! ### What arrives -/

/-- A nick as `checkNick` leaves it. -/
structure IsNick (nick : List UInt8) : Prop where
  ne_nil : nick ≠ []
  chars : ∀ c ∈ nick, 0x20 < c ∧ c ≠ '|'.toUInt8 ∧ c ≠ '$'.toUInt8 ∧ c ≠ '<'.toUInt8 ∧
    c ≠ '>'.toUInt8

/-- The tree of a search for one is one, and a search for a text has words without separators of
their own. -/
structure SearchRequest.Valid (sp : SearchRequest) : Prop where
  sizeLow : -2 ^ 63 ≤ sp.size
  sizeHigh : sp.size < 2 ^ 63
  tth : sp.fileType = 8 → sp.filter.length = 39 ∧ isBase32 sp.filter = true
  text : sp.fileType ≠ 8 → sp.filter ≠ [] ∧ '$'.toUInt8 ∉ sp.filter

/-- The encoding gives back what is behind the command, and does not end it before. -/
structure Encoding.Carries (enc : Encoding) (a : Searcher) (sp : SearchRequest) : Prop where
  text : enc.toUtf8 (a.searchParam enc.fromUtf8 sp) = a.searchParam id sp
  bar : '|'.toUInt8 ∉ a.searchParam enc.fromUtf8 sp

/-- The hub of another user leaves none of the searches of the searching one out. -/
structure NmdcHub.Hears (hub : NmdcHub) (a : Searcher) (sp : SearchRequest) : Prop where
  inet : hub.inet = a.inet
  normal : hub.normal = true
  shown : hub.hideShare = false
  options : hub.options = ⟨false, false, false⟩
  known : a.searchesActive sp = false → ∃ nat0, hub.findUser a.myNick = some nat0 ∧
    (hub.active || nat0 && hub.allowNatTraversal) = true
  shownToUser : a.searchesActive sp = false → hub.getShareGroup a.myNick ≠ none
  otherNick : a.searchesActive sp = false → ¬ hub.myNick <+: a.myNick
  hasPort : a.searchesActive sp = true → hub.active = true → hub.udpAddr.2 ≠ 0
  otherAddr : a.searchesActive sp = true →
    a.udpAddr ≠ hub.udpAddr.1 ++ ':'.toUInt8 :: natToString hub.udpAddr.2.toNat
  noFlood : ∀ ip, a.Addressed ip → hub.checkSearchFlood ip a.getMyUDPAddr.2 = true

/-- What was asked for is what is searched for. -/
structure SearchRequest.Arrives (sp : SearchRequest) (p : SearchParam) : Prop where
  fileType : p.fileType = fileTypeArrives sp.fileType
  tth : sp.fileType = 8 → p.filter = ascii "TTH:" ++ sp.filter ∧ p.sizeMode = .dontCare
  text : sp.fileType ≠ 8 → p.sizeMode = sp.sizeMode.arrives ∧ p.size = sp.size ∧
    tokens '$'.toUInt8 p.filter = tokens ' '.toUInt8 sp.filter

variable {hub : NmdcHub} {a : Searcher} {sp : SearchRequest}

private theorem port_ne_zero (h : a.searchesActive sp = true) : a.getMyUDPAddr.2 ≠ 0 := by
  rw [Searcher.searchesActive, Bool.and_eq_true, decide_eq_true_eq] at h
  exact h.2

/-- The address of an active seeker is taken apart. -/
private theorem parseIpPort_udpAddr {ip : IpAddress} (haddr : a.Addressed ip)
    (hport : a.getMyUDPAddr.2 ≠ 0) :
    parseIpPort a.udpAddr = some (a.getMyUDPAddr.1, a.getMyUDPAddr.2) := by
  refine parseIpPort_append haddr.ne_nil (fun hhead => ?_) hport
  exact absurd (haddr.chars _ (List.mem_of_head? hhead)) (by decide)

private theorem mem_udpAddr {ip : IpAddress} (haddr : a.Addressed ip) :
    ∀ c ∈ a.udpAddr, IsAddressChar c := by
  intro c hc
  rw [Searcher.udpAddr, List.mem_append, List.mem_cons] at hc
  rcases hc with hc | rfl | hc
  · exact haddr.chars c hc
  · decide
  · obtain ⟨hlow, hhigh⟩ := digit_of_mem_natToString hc
    exact .inl ⟨hlow, UInt8.le_trans hhigh (by decide)⟩

/-- A search with the seeker is let through. -/
private theorem admits_of_hears (h : hub.Hears a sp) (hback : a.inet.PrintsBack a.ip6)
    {p : SearchParam} (hpassive : p.passive = !a.searchesActive sp)
    (hseeker : p.seeker = a.seeker id sp) : hub.admits p = true := by
  have htth : ¬ (p.fileType ≠ fileTypeTTH ∧ hub.options.tthOnly = true) := by
    rw [h.options]
    exact fun hno => Bool.false_ne_true hno.2
  unfold NmdcHub.admits
  rw [if_neg htth, hpassive, hseeker, Searcher.seeker]
  cases hactive : a.searchesActive sp with
  | false =>
    obtain ⟨nat0, hfound, hnat⟩ := h.known hactive
    have hdrop : (ascii "Hub:" ++ id a.myNick).drop 4 = a.myNick := rfl
    rw [Bool.not_false, if_pos rfl, h.options, if_neg Bool.false_ne_true,
      if_neg Bool.false_ne_true, hdrop, hfound]
    exact hnat
  | true =>
    have hport := port_ne_zero hactive
    obtain ⟨ip, haddr⟩ := Searcher.exists_addressed hport hback
    rw [Bool.not_true, if_neg Bool.false_ne_true, if_pos rfl, parseIpPort_udpAddr haddr hport]
    dsimp only
    rw [if_neg hport, h.inet, haddr.parsed]
    dsimp only
    rw [h.options, if_neg fun hno => Bool.false_ne_true hno.1]
    exact h.noFlood ip haddr

/-- The seeker of a `$Search` is read as it is. -/
private theorem parseSeeker_seeker (h : hub.Hears a sp) (hback : a.inet.PrintsBack a.ip6) :
    ∃ group, hub.parseSeeker (a.seeker id sp) =
      some (.new (!a.searchesActive sp) (a.seeker id sp) group) := by
  unfold NmdcHub.parseSeeker
  cases hactive : a.searchesActive sp with
  | false =>
    have hseeker : a.seeker id sp = ascii "Hub:" ++ a.myNick := by
      rw [Searcher.seeker, hactive]
      rfl
    have hown : ¬ ((a.seeker id sp).drop 4).take hub.myNick.length = hub.myNick := by
      rw [hseeker]
      intro hown
      exact h.otherNick hactive (List.prefix_iff_eq_take.mpr hown.symm)
    have hgroup : ((a.seeker id sp).drop 4) = a.myNick := by
      rw [hseeker]
      rfl
    obtain ⟨group, hgroup'⟩ := Option.ne_none_iff_exists'.mp (h.shownToUser hactive)
    have hhub : (ascii "Hub:").isPrefixOf (a.seeker id sp) = true := by
      rw [hseeker]
      exact List.isPrefixOf_iff_prefix.mpr (List.prefix_append _ _)
    rw [if_pos hhub, if_neg hown, hgroup, hgroup']
    exact ⟨group, rfl⟩
  | true =>
    have hseeker : a.seeker id sp = a.udpAddr := by
      rw [Searcher.seeker, hactive]
      rfl
    obtain ⟨ip, haddr⟩ := Searcher.exists_addressed (port_ne_zero hactive) hback
    have hhub : ¬ (ascii "Hub:").isPrefixOf (a.seeker id sp) = true := by
      rw [hseeker]
      intro hpre
      obtain ⟨r, hr⟩ := List.isPrefixOf_iff_prefix.mp hpre
      have hmem : 'H'.toUInt8 ∈ a.udpAddr := hr ▸ List.mem_append_left r (by decide)
      exact absurd (mem_udpAddr haddr _ hmem) (by decide)
    rw [if_neg hhub]
    split
    · next hisactive =>
      rw [if_neg (h.hasPort hactive hisactive), hseeker, if_neg (h.otherAddr hactive)]
      exact ⟨.zero, rfl⟩
    · exact ⟨.zero, rfl⟩

private theorem space_not_mem_seeker (hnick : IsNick a.myNick)
    (hback : a.inet.PrintsBack a.ip6) : ' '.toUInt8 ∉ a.seeker id sp := by
  unfold Searcher.seeker
  split
  · next hactive =>
    obtain ⟨ip, haddr⟩ := Searcher.exists_addressed (port_ne_zero hactive) hback
    intro hmem
    exact absurd (mem_udpAddr haddr _ hmem) (by decide)
  · rw [List.mem_append, not_or]
    refine ⟨by decide, fun hmem => ?_⟩
    exact absurd (hnick.chars _ hmem).1 (by decide)

/-- A `$Search` is read as what was asked for. -/
private theorem parseQuery_query (hvalid : sp.Valid) {p : SearchParam} :
    ∃ p', p.parseQuery (sp.query id) = some p' ∧ p'.passive = p.passive ∧ p'.seeker = p.seeker ∧
      sp.Arrives p' := by
  have hfields := parseQueryFields_query (f := id) hvalid.sizeLow hvalid.sizeHigh
  unfold SearchParam.parseQuery
  rw [hfields, Option.map_some]
  by_cases h8 : sp.fileType = 8
  · obtain ⟨hlen, -⟩ := hvalid.tth h8
    have htype : (fileTypeArrives sp.fileType : Int) = fileTypeTTH := by
      rw [h8]
      rfl
    have hwords : (ascii "TTH:" ++ sp.filter).length = 39 + 4 := by
      rw [List.length_append, hlen]
      rfl
    unfold SearchParam.withQuery
    rw [if_pos htype, if_pos h8, if_pos h8, if_pos hwords, Option.filter_some,
      if_pos (decide_eq_true (List.append_ne_nil_of_left_ne_nil (by decide) _))]
    exact ⟨_, rfl, rfl, rfl, rfl, fun _ => ⟨rfl, rfl⟩, fun hno => absurd h8 hno⟩
  · obtain ⟨hne, hdollar⟩ := hvalid.text h8
    have htype : ¬ (fileTypeArrives sp.fileType : Int) = fileTypeTTH := by
      unfold fileTypeArrives fileTypeTTH
      split <;> omega
    have hwords : unescapeNmdc (spacesToDollars (id (escapeNmdc sp.filter))) =
        spacesToDollars sp.filter := unescapeNmdc_spacesToDollars sp.filter
    have hne' : spacesToDollars sp.filter ≠ [] := by
      rw [spacesToDollars, Ne, List.map_eq_nil_iff]
      exact hne
    unfold SearchParam.withQuery
    rw [if_neg htype, if_neg h8, if_neg h8]
    dsimp only
    rw [hwords, Option.filter_some, if_pos (decide_eq_true hne')]
    exact ⟨_, rfl, rfl, rfl, rfl, fun hyes => absurd hyes h8,
      fun _ => ⟨rfl, rfl, tokens_spacesToDollars hdollar⟩⟩

/-- The command for a tree has the tree and a seeker. -/
private theorem parseCommand_tth (hvalid : sp.Valid) (h8 : sp.fileType = 8) {type : SearchType}
    (htype : type ≠ .search) {seeker : List UInt8} (hne : seeker ≠ [])
    (hown : type = .sp → ¬ hub.myNick <+: seeker) :
    hub.parseCommand type (sp.filter ++ ' '.toUInt8 :: seeker) =
      some
        { SearchParam.new (type = .sp)
            (if type = .sp then ascii "Hub:" ++ seeker else seeker) .zero with
          filter := ascii "TTH:" ++ sp.filter, fileType := fileTypeTTH } := by
  obtain ⟨hlen, hbase32⟩ := hvalid.tth h8
  have hpos := List.length_pos_iff.mpr hne
  have htake : (sp.filter ++ ' '.toUInt8 :: seeker).take 39 = sp.filter := by
    rw [← hlen]
    exact List.take_left
  have hdrop : (sp.filter ++ ' '.toUInt8 :: seeker).drop 40 = seeker := by
    rw [← List.singleton_append, ← List.append_assoc]
    refine List.drop_left' ?_
    rw [List.length_append, hlen]
    rfl
  have hspace : (sp.filter ++ ' '.toUInt8 :: seeker)[39]? = some ' '.toUInt8 := by
    rw [List.getElem?_append_right (by omega), hlen]
    rfl
  have hlong : ¬ ((sp.filter ++ ' '.toUInt8 :: seeker).length < 41 ∨
      (sp.filter ++ ' '.toUInt8 :: seeker)[39]? ≠ some ' '.toUInt8) := by
    rw [hspace, List.length_append, List.length_cons, hlen]
    rintro (h | h)
    · omega
    · exact h rfl
  unfold NmdcHub.parseCommand
  rw [if_neg htype, if_neg hlong, htake, hbase32, hdrop]
  cases type with
  | search => exact absurd rfl htype
  | sa => rfl
  | sp =>
    have hno : ¬ seeker.take hub.myNick.length = hub.myNick :=
      fun h => hown rfl (List.prefix_iff_eq_take.mpr h.symm)
    rw [Bool.not_true, if_neg Bool.false_ne_true, if_pos rfl, if_neg hno]
    rfl

/-- The command for a search is read as what was asked for. -/
private theorem parseCommand_searchParam (h : hub.Hears a sp) (hnick : IsNick a.myNick)
    (hback : a.inet.PrintsBack a.ip6) (hvalid : sp.Valid) :
    ∃ p, hub.parseCommand (a.searchType sp) (a.searchParam id sp) = some p ∧
      p.passive = (!a.searchesActive sp) ∧ p.seeker = a.seeker id sp ∧ sp.Arrives p := by
  unfold Searcher.searchType Searcher.searchParam
  by_cases htth : a.searchTths = true ∧ sp.fileType = 8
  · have harrives : ∀ p : SearchParam, p.fileType = fileTypeTTH → p.sizeMode = .dontCare →
        p.filter = ascii "TTH:" ++ sp.filter → sp.Arrives p := by
      intro p htype hmode hfilter
      refine ⟨?_, fun _ => ⟨hfilter, hmode⟩, fun hno => absurd htth.2 hno⟩
      rw [htype, htth.2]
      rfl
    rw [if_pos htth, if_pos htth]
    cases hactive : a.searchesActive sp with
    | true =>
      have hne : a.udpAddr ≠ [] := List.append_ne_nil_of_right_ne_nil _ (List.cons_ne_nil _ _)
      rw [if_pos rfl, if_pos rfl, Searcher.seeker, hactive, if_pos rfl,
        parseCommand_tth hvalid htth.2 (by decide) hne (fun hno => by cases hno)]
      exact ⟨_, rfl, rfl, rfl, harrives _ rfl rfl rfl⟩
    | false =>
      rw [if_neg Bool.false_ne_true, if_neg Bool.false_ne_true, Searcher.seeker, hactive,
        if_neg Bool.false_ne_true, id_eq,
        parseCommand_tth hvalid htth.2 (by decide) hnick.ne_nil fun _ => h.otherNick hactive]
      exact ⟨_, rfl, rfl, rfl, harrives _ rfl rfl rfl⟩
  · obtain ⟨group, hseeker⟩ := parseSeeker_seeker h hback
    obtain ⟨p, hp, hpassive, hseeker', harrives⟩ := parseQuery_query hvalid
      (p := .new (!a.searchesActive sp) (a.seeker id sp) group)
    have hne : a.seeker id sp ≠ [] := by
      unfold Searcher.seeker
      split
      · exact List.append_ne_nil_of_right_ne_nil _ (List.cons_ne_nil _ _)
      · exact List.append_ne_nil_of_left_ne_nil (by decide) _
    rw [if_neg htth, if_neg htth, NmdcHub.parseCommand, if_pos rfl,
      splitFirst_append (space_not_mem_seeker hnick hback)]
    dsimp only
    rw [if_neg hne, hseeker, Option.bind_some]
    exact ⟨p, hp, hpassive, hseeker', harrives⟩

/-- A search that another user of the hub does not leave out arrives as what it was asked for. -/
theorem onSearchLine_searchToken_arrives {hub : NmdcHub} {a : Searcher} {enc : Encoding}
    {sp : SearchRequest} {line : List UInt8} (hsent : a.searchToken enc sp = some line)
    (hnick : IsNick a.myNick) (hback : a.inet.PrintsBack a.ip6) (hvalid : sp.Valid)
    (henc : enc.Carries a sp) (h : hub.Hears a sp) :
    '|'.toUInt8 ∉ line ∧ ∃ p, hub.onSearchLine enc line = some p ∧ sp.Arrives p := by
  constructor
  · unfold Searcher.searchToken at hsent
    split at hsent
    · injection hsent with hsent
      subst hsent
      have hname : '|'.toUInt8 ∉ (a.searchType sp).name := by
        cases a.searchType sp <;> decide
      simp only [List.mem_cons, List.mem_append, not_or]
      exact ⟨by decide, hname, by decide, henc.bar⟩
    · cases hsent
  · obtain ⟨p, hp, hpassive, hseeker, harrives⟩ := parseCommand_searchParam h hnick hback hvalid
    have hlong : ¬ (a.searchParam id sp).length < 4 := by
      unfold Searcher.searchParam
      split
      · next htth =>
        rw [List.length_append, (hvalid.tth htth.2).1]
        omega
      · rw [List.length_append, List.length_cons, SearchRequest.query]
        simp only [List.length_cons]
        omega
    rw [hub.onSearchLine_searchToken h.shown hsent, henc.text, NmdcHub.searchParse, if_neg hlong,
      h.normal, h.shown]
    dsimp only
    rw [if_neg (by decide), hp]
    dsimp only
    rw [if_pos (admits_of_hears h hback hpassive hseeker)]
    exact ⟨_, rfl, harrives.fileType, harrives.tth, harrives.text⟩

/-! ### UTF-8 -/

private theorem bar_not_mem_escapeNmdc (s : List UInt8) : '|'.toUInt8 ∉ escapeNmdc s := by
  rw [escapeNmdc_eq]
  induction s with
  | nil => exact List.not_mem_nil
  | cons b s ih =>
    rw [expand, List.mem_append, not_or]
    refine ⟨?_, ih⟩
    unfold charBlock
    split
    · decide
    · next hb =>
      split
      · decide
      · unfold escapedBlock
        split
        · decide
        · rw [List.mem_singleton]
          exact Ne.symm hb

private theorem bar_not_mem_query (hvalid : sp.Valid) : '|'.toUInt8 ∉ sp.query id := by
  have hdigit : ∀ n, '|'.toUInt8 ∉ natToString n := by
    intro n hn
    exact absurd (digit_of_mem_natToString hn).2 (by decide)
  have hsize : '|'.toUInt8 ∉ intToString sp.size := by
    unfold intToString
    split
    · rw [List.mem_cons, not_or]
      exact ⟨by decide, hdigit _⟩
    · exact hdigit _
  have hwords : '|'.toUInt8 ∉ if sp.fileType = 8 then ascii "TTH:" ++ sp.filter
      else spacesToDollars (id (escapeNmdc sp.filter)) := by
    split
    · next h8 =>
      rw [List.mem_append, not_or]
      refine ⟨by decide, fun hmem => ?_⟩
      exact absurd (List.all_eq_true.mp (hvalid.tth h8).2 _ hmem) (by decide)
    · intro hmem
      obtain ⟨c, hc, heq⟩ := List.mem_map.mp hmem
      split at heq
      · exact absurd heq (by decide)
      · exact bar_not_mem_escapeNmdc sp.filter (heq ▸ hc)
  unfold SearchRequest.query
  simp only [List.mem_cons, List.mem_append, not_or]
  refine ⟨?_, by decide, ?_, by decide, hsize, by decide, hdigit _, by decide, hwords⟩
  · split <;> decide
  · split <;> decide

/-- UTF-8 carries everything. -/
theorem Encoding.carries_utf8 (hnick : IsNick a.myNick) (hback : a.inet.PrintsBack a.ip6)
    (hvalid : sp.Valid) : Encoding.utf8.Carries a sp := by
  have haddr : a.searchesActive sp = true → '|'.toUInt8 ∉ a.udpAddr := by
    intro hactive hmem
    obtain ⟨ip, haddr⟩ := Searcher.exists_addressed (port_ne_zero hactive) hback
    exact absurd (mem_udpAddr haddr _ hmem) (by decide)
  have hbar : '|'.toUInt8 ∉ a.myNick := fun hmem => (hnick.chars _ hmem).2.1 rfl
  refine ⟨rfl, ?_⟩
  unfold Searcher.searchParam
  split
  · next htth =>
    rw [List.mem_append, List.mem_cons, not_or, not_or]
    refine ⟨fun hmem => ?_, by decide, ?_⟩
    · exact absurd (List.all_eq_true.mp (hvalid.tth htth.2).2 _ hmem) (by decide)
    · split
      · next hactive => exact haddr hactive
      · exact hbar
  · rw [List.mem_append, List.mem_cons, not_or, not_or]
    refine ⟨?_, by decide, bar_not_mem_query hvalid⟩
    unfold Searcher.seeker
    split
    · next hactive => exact haddr hactive
    · rw [List.mem_append, not_or]
      exact ⟨by decide, hbar⟩

/-! ### A passive search -/

/-- The user `ann` of the hub, who is not active. -/
def ann : Searcher where
  inet := ⟨fun _ => some (.replicate 16 0), fun _ => ascii "::"⟩
  normal := true
  searchTths := false
  myNick := ascii "ann"
  active := false
  ip4 := 0
  ip6 := .replicate 16 0
  port4 := 0
  port6 := 0

/-- A search for files of at least 10 bytes. -/
def searchFor (fileType : Nat) : SearchRequest :=
  ⟨.default, .atLeast, 10, fileType, ascii "a|b &#36;"⟩

/-- The search for a text with reserved characters arrives as it is. -/
theorem searchFor_arrives :
    '|'.toUInt8 ∉ ascii "$Search Hub:ann T?F?10?2?a&#124;b$&amp;#36;" ∧
      ∃ p, { hubWithGroup with inet := ann.inet }.onSearchLine .utf8
          (ascii "$Search Hub:ann T?F?10?2?a&#124;b$&amp;#36;") = some p ∧
        (searchFor 1).Arrives p := by
  have hnick : IsNick ann.myNick := ⟨by decide, by decide +kernel⟩
  have hback : ann.inet.PrintsBack ann.ip6 := ⟨rfl, by decide +kernel, by decide⟩
  have hvalid : (searchFor 1).Valid :=
    ⟨by decide, by decide, fun h => absurd h (by decide), fun _ => ⟨by decide, by decide⟩⟩
  exact onSearchLine_searchToken_arrives (a := ann) (by rfl) hnick hback hvalid
    (Encoding.carries_utf8 hnick hback hvalid)
    { inet := rfl
      normal := rfl
      shown := rfl
      options := rfl
      known := fun _ => ⟨true, by decide, by decide⟩
      shownToUser := fun _ => by decide
      otherNick := fun _ => by decide
      hasPort := fun h => by cases h
      otherAddr := fun h => by cases h
      noFlood := fun _ _ => rfl }

/-- A search for comics arrives as one for any type. -/
theorem searchFor_comics :
    ∃ line, ann.searchToken .utf8 (searchFor 10) = some line ∧
      (hubWithGroup.onSearchLine .utf8 line).map SearchParam.fileType = some 0 := by
  refine ⟨ascii "$Search Hub:ann T?F?10?1?a&#124;b$&amp;#36;", ?_, ?_⟩
  · rfl
  · rfl

end Blacklink.Nmdc
