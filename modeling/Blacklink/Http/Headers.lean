import Blacklink.Http.Message

/-!
# Headers

Model of the table of known header names (`client/HttpHeaders.cpp:10-145`), where a name has a
number by the hash function that `gperf` has made, and of `HeaderList` (`client/HttpMessage.cpp:
93-177`). Behind the end of a word the comparison of names finds the zero that ends it.
-/

namespace Blacklink.Http

open Blacklink.Text

/-- `asso_values`. -/
def assoValues : List Nat :=
  [
    62, 62, 62, 62, 62, 62, 62, 62, 62, 62,
    62, 62, 62, 62, 62, 62, 62, 62, 62, 62,
    62, 62, 62, 62, 62, 62, 62, 62, 62, 62,
    62, 62, 62, 62, 62, 62, 62, 62, 62, 62,
    62, 62, 62, 62, 62, 62, 62, 62, 62, 62,
    62, 62, 62, 62, 62, 62, 62, 62, 62, 62,
    62, 62, 62, 62, 62, 0, 62, 0, 1, 0,
    62, 15, 14, 34, 62, 12, 30, 62, 1, 62,
    30, 62, 13, 22, 20, 15, 62, 5, 62, 62,
    62, 62, 62, 62, 62, 62, 62, 0, 62, 0,
    1, 0, 62, 15, 14, 34, 62, 12, 30, 62,
    1, 62, 30, 62, 13, 22, 20, 15, 62, 5,
    62, 62, 62, 62, 62, 62, 62, 62, 62, 62,
    62, 62, 62, 62, 62, 62, 62, 62, 62, 62,
    62, 62, 62, 62, 62, 62, 62, 62, 62, 62,
    62, 62, 62, 62, 62, 62, 62, 62, 62, 62,
    62, 62, 62, 62, 62, 62, 62, 62, 62, 62,
    62, 62, 62, 62, 62, 62, 62, 62, 62, 62,
    62, 62, 62, 62, 62, 62, 62, 62, 62, 62,
    62, 62, 62, 62, 62, 62, 62, 62, 62, 62,
    62, 62, 62, 62, 62, 62, 62, 62, 62, 62,
    62, 62, 62, 62, 62, 62, 62, 62, 62, 62,
    62, 62, 62, 62, 62, 62, 62, 62, 62, 62,
    62, 62, 62, 62, 62, 62, 62, 62, 62, 62,
    62, 62, 62, 62, 62, 62, 62, 62, 62, 62,
    62, 62, 62, 62, 62, 62]

/-- `hash`. -/
def hash (str : List UInt8) : Nat :=
  str.length + assoValues.getD (str.getD (str.length - 1) 0).toNat 0 +
    assoValues.getD (str.getD 0 0).toNat 0

/-- `wordList`. -/
def wordList : List (List UInt8) :=
  [
    "", "", "", "Age", "", "Date", "Cookie", "", "", "", "Allow", "Connection", "Content-Type",
    "Content-Range", "Authorization", "Accept-Language", "Content-Language", "Content-Location",
    "Range", "ETag", "Content-Disposition", "WWW-Authenticate", "TE", "", "", "", "Accept",
    "Warning", "Content-Length", "Expires", "Accept-Encoding", "Content-Encoding", "Set-Cookie",
    "Referer", "Accept-Charset", "Accept-Ranges", "Pragma", "Retry-After", "Host", "Location",
    "Trailer", "Server", "If-Range", "Cache-Control", "Last-Modified", "User-Agent", "Link",
    "Proxy-Connection", "Proxy-Authenticate", "", "Proxy-Authorization", "If-Modified-Since",
    "Transfer-Encoding", "If-Unmodified-Since", "", "", "If-Match", "", "", "", "",
    "If-None-Match"].map ascii

/-- `MIN_WORD_LENGTH`. -/
def minWordLength : Nat := 2

/-- `MAX_WORD_LENGTH`. -/
def maxWordLength : Nat := 19

/-- `MAX_HASH_VALUE`. -/
def maxHashValue : Nat := 57

/-- `equal`, of as many characters. -/
def equal (s1 s2 : List UInt8) (len : Nat) : Bool :=
  (List.range len).all fun i => asciiToLower (s1.getD i 0) = asciiToLower (s2.getD i 0)

/-- `getHeaderId`. The word is not compared to its end. -/
def getHeaderId (str : List UInt8) : Int :=
  if str.length ≤ maxWordLength ∧ minWordLength ≤ str.length then
    let key := hash str
    if key ≤ maxHashValue then
      let s := wordList.getD key []
      if (str.getD 0 0 ^^^ s.getD 0 0) &&& ~~~32 = 0 ∧ equal str s str.length then key else -1
    else -1
  else -1

/-- `getHeader`, without a name where the source has a null pointer. -/
def getHeader (id : Int) : Option (List UInt8) :=
  if id ≤ maxHashValue ∧ 0 ≤ id then
    let s := wordList.getD id.toNat []
    if s ≠ [] then some s else none
  else none

/-! ### Names and numbers -/

/-- Letters and hyphens. -/
def isWordChar (c : UInt8) : Bool :=
  c = 0x2d || 0x41 ≤ c && c ≤ 0x5a || 0x61 ≤ c && c ≤ 0x7a

/-- The words are where the hash function has them, and have the lengths that are looked for; cut,
they have other numbers, but for three of them. -/
theorem wordList_all : (List.range 58).all (fun i =>
    let s := wordList.getD i []
    s.isEmpty || (hash s = i && 2 ≤ s.length && s.length ≤ 19 && s.all isWordChar) &&
      (List.range s.length).all fun n => n < 2 || hash (s.take n) ≠ i ||
        (i, n) = (34, 12) || (i, n) = (35, 5) || (i, n) = (53, 4)) = true := by
  rw [show List.range 58 = List.range' 0 15 ++ (List.range' 15 15 ++
    (List.range' 30 14 ++ List.range' 44 14)) from rfl]
  simp only [List.all_append, Bool.and_eq_true]
  refine ⟨?_, ?_, ?_, ?_⟩ <;> decide +kernel

/-- The same of one word. -/
theorem word_spec {key : Nat} (hkey : key < 58) (hne : wordList.getD key [] ≠ []) :
    hash (wordList.getD key []) = key ∧ 2 ≤ (wordList.getD key []).length ∧
      (wordList.getD key []).length ≤ 19 ∧ (wordList.getD key []).all isWordChar = true ∧
      ∀ n < (wordList.getD key []).length, 2 ≤ n → hash ((wordList.getD key []).take n) = key →
        (key = 34 ∧ n = 12) ∨ (key = 35 ∧ n = 5) ∨ (key = 53 ∧ n = 4) := by
  have hword := List.all_eq_true.mp wordList_all key (List.mem_range.mpr hkey)
  simp only [Bool.or_eq_true, Bool.and_eq_true, decide_eq_true_eq, List.isEmpty_iff] at hword
  obtain ⟨⟨⟨⟨hhash, hmin⟩, hmax⟩, hall⟩, hcut⟩ := hword.resolve_left hne
  refine ⟨hhash, hmin, hmax, hall, fun n hn htwo htake => ?_⟩
  have h := List.all_eq_true.mp hcut n (List.mem_range.mpr hn)
  simp only [Bool.or_eq_true, decide_eq_true_eq, Prod.mk.injEq, htake, ne_eq, not_true_eq_false,
    or_false] at h
  rcases h with ((hshort | h) | h) | h
  · exact absurd htwo (Nat.not_le.mpr hshort)
  · exact .inl h
  · exact .inr (.inl h)
  · exact .inr (.inr h)

/-- A number that has a name. -/
theorem getHeader_spec {id : Int} {name : List UInt8} (h : getHeader id = some name) :
    0 ≤ id ∧ name ≠ [] ∧ name.all isWordChar = true := by
  unfold getHeader at h
  dsimp only at h
  split at h
  next hid =>
    split at h
    next hne =>
      cases h
      have hkey : id.toNat < 58 := by
        unfold maxHashValue at hid
        omega
      exact ⟨hid.2, hne, (word_spec hkey hne).2.2.2.1⟩
    · cases h
  · cases h

/-- The names that are taken for the header: its own one, and what is left of some words when they
are cut where the hash function gives the same number. -/
def takenFor (id : Int) : List (List UInt8) :=
  (getHeader id).toList ++
    if id = 34 then [ascii "Accept-Chars"]
    else if id = 35 then [ascii "Accep"]
    else if id = 53 then [ascii "If-U"]
    else []

theorem asciiToLower_cases (c : UInt8) : asciiToLower c = c ∨
    ∃ n < 26, c = 0x41 + UInt8.ofNat n ∧ asciiToLower c = 0x61 + UInt8.ofNat n := by
  unfold asciiToLower
  split
  next h =>
    rw [UInt8.le_iff_toNat_le, UInt8.le_iff_toNat_le] at h
    simp only [UInt8.reduceToNat] at h
    have hc : c = 0x41 + UInt8.ofNat (c.toNat - 0x41) := by
      apply UInt8.toNat_inj.mp
      rw [UInt8.toNat_add, UInt8.toNat_ofNat']
      simp only [UInt8.reduceToNat]
      omega
    refine .inr ⟨c.toNat - 0x41, by omega, hc, ?_⟩
    apply UInt8.toNat_inj.mp
    rw [UInt8.toNat_add, UInt8.toNat_add, UInt8.toNat_ofNat']
    simp only [UInt8.reduceToNat]
    omega
  · exact .inl rfl

theorem assoValues_toLower (c : UInt8) :
    assoValues.getD (asciiToLower c).toNat 0 = assoValues.getD c.toNat 0 := by
  have hall : ∀ n < 26, assoValues.getD (0x61 + UInt8.ofNat n).toNat 0 =
      assoValues.getD (0x41 + UInt8.ofNat n).toNat 0 := by decide
  rcases asciiToLower_cases c with h | ⟨n, hn, hc, hlower⟩
  · rw [h]
  · rw [hlower, hall n hn, ← hc]

theorem xor_of_toLower {c d : UInt8} (h : asciiToLower c = asciiToLower d) :
    (c ^^^ d) &&& ~~~32 = 0 := by
  have hall : ∀ n < 26, ((0x41 + UInt8.ofNat n) ^^^ (0x61 + UInt8.ofNat n)) &&& ~~~32 = 0 := by
    decide
  rcases asciiToLower_cases c with hc | ⟨n, hn, hc, hcl⟩ <;>
    rcases asciiToLower_cases d with hd | ⟨m, hm, hd, hdl⟩
  · rw [hc, hd] at h
    simp [h]
  · rw [hc, hdl] at h
    rw [h, hd, UInt8.xor_comm]
    exact hall m hm
  · rw [hcl, hd] at h
    rw [hc, ← h]
    exact hall n hn
  · rw [hcl, hdl] at h
    rw [hc, hd, (UInt8.add_right_inj _).mp h]
    simp

theorem toLower_getD {s t : List UInt8} (h : s.map asciiToLower = t.map asciiToLower) (i : Nat) :
    asciiToLower (s.getD i 0) = asciiToLower (t.getD i 0) := by
  have hi := congrArg (fun l => l[i]?.getD 0) h
  have hmap : ∀ l : List UInt8, (l.map asciiToLower)[i]?.getD 0 = asciiToLower (l.getD i 0) := by
    intro l
    rw [List.getElem?_map, List.getD_eq_getElem?_getD]
    cases l[i]? <;> rfl
  simpa only [hmap] using hi

theorem map_toLower_of_equal {s t : List UInt8} (hlength : s.length = t.length)
    (h : equal s t s.length = true) : s.map asciiToLower = t.map asciiToLower := by
  refine List.ext_getElem (by simpa using hlength) fun i hs ht => ?_
  rw [List.length_map] at hs ht
  have hi := List.all_eq_true.mp h i (List.mem_range.mpr hs)
  simpa [List.getD_eq_getElem?_getD, hs, ht] using hi

/-- The number of a name does not depend on its case. -/
theorem hash_congr {s t : List UInt8} (h : s.map asciiToLower = t.map asciiToLower) :
    hash s = hash t := by
  have hlength : s.length = t.length := by simpa using congrArg List.length h
  have hat : ∀ i, assoValues.getD (s.getD i 0).toNat 0 = assoValues.getD (t.getD i 0).toNat 0 := by
    intro i
    rw [← assoValues_toLower, toLower_getD h, assoValues_toLower]
  rw [hash, hash, hlength, hat, hat]

theorem asciiToLower_eq_zero {c : UInt8} (h : asciiToLower c = 0) : c = 0 := by
  have hall : ∀ n < 26, 0x61 + UInt8.ofNat n ≠ 0 := by decide
  rcases asciiToLower_cases c with hc | ⟨n, hn, -, hlower⟩
  · rw [← hc, h]
  · exact absurd (hlower.symm.trans h) (hall n hn)

theorem getD_of_length_le {s : List UInt8} {i : Nat} (h : s.length ≤ i) : s.getD i 0 = 0 := by
  rw [List.getD_eq_getElem?_getD, List.getElem?_eq_none h]
  rfl

theorem getD_take {s : List UInt8} {n i : Nat} (h : i < n) : (s.take n).getD i 0 = s.getD i 0 := by
  rw [List.getD_eq_getElem?_getD, List.getElem?_take_of_lt h, List.getD_eq_getElem?_getD]

/-- A name has a number when it is, but for its case, the word there or so many of its first
characters as have the same number. -/
theorem getHeaderId_eq_iff_take {name : List UInt8} {key : Nat} (hkey : key < 58) :
    getHeaderId name = key ↔
      (2 ≤ name.length ∧ name.length ≤ (wordList.getD key []).length) ∧
      hash ((wordList.getD key []).take name.length) = key ∧
      name.map asciiToLower = ((wordList.getD key []).take name.length).map asciiToLower := by
  constructor
  · intro h
    unfold getHeaderId at h
    dsimp only at h
    split at h
    next hlen =>
      split at h
      next hmax =>
        split at h
        next hword =>
          have hhash : hash name = key := by omega
          rw [hhash] at hword
          obtain ⟨-, hequal⟩ := hword
          have hpos : 0 < name.length := by
            have := hlen.2
            unfold minWordLength at this
            omega
          have hle : name.length ≤ (wordList.getD key []).length := by
            by_contra hlong
            have hlast := List.all_eq_true.mp hequal (name.length - 1)
              (List.mem_range.mpr (by omega))
            have hend : (wordList.getD key []).getD (name.length - 1) 0 = 0 :=
              getD_of_length_le (by omega)
            rw [decide_eq_true_eq, hend] at hlast
            have hzero : assoValues.getD (name.getD (name.length - 1) 0).toNat 0 = 62 := by
              rw [asciiToLower_eq_zero hlast]
              rfl
            unfold hash at hhash
            omega
          have hmap : name.map asciiToLower =
              ((wordList.getD key []).take name.length).map asciiToLower := by
            apply map_toLower_of_equal
            · rw [List.length_take, Nat.min_eq_left hle]
            · refine List.all_eq_true.mpr fun i hi => ?_
              rw [getD_take (List.mem_range.mp hi)]
              exact List.all_eq_true.mp hequal i hi
          exact ⟨⟨hlen.2, hle⟩, (hash_congr hmap).symm.trans hhash, hmap⟩
        · omega
      · omega
    · omega
  · rintro ⟨⟨hmin, hle⟩, hhash, hmap⟩
    have hne : wordList.getD key [] ≠ [] := by
      intro hnil
      rw [hnil, List.length_nil] at hle
      omega
    obtain ⟨-, -, hmax, -⟩ := word_spec hkey hne
    have hhash' : hash name = key := (hash_congr hmap).trans hhash
    have hat : ∀ i < name.length,
        asciiToLower (name.getD i 0) = asciiToLower ((wordList.getD key []).getD i 0) := by
      intro i hi
      rw [toLower_getD hmap, getD_take hi]
    have hequal : equal name (wordList.getD key []) name.length = true :=
      List.all_eq_true.mpr fun i hi => decide_eq_true (hat i (List.mem_range.mp hi))
    have hfirst := xor_of_toLower (hat 0 (by omega))
    unfold getHeaderId
    rw [if_pos ⟨hle.trans hmax, hmin⟩, hhash']
    dsimp only
    rw [if_pos (show key ≤ maxHashValue from Nat.le_of_lt_succ hkey), if_pos ⟨hfirst, hequal⟩]

theorem getHeader_natCast {key : Nat} (hkey : key < 58) (h : wordList.getD key [] ≠ []) :
    getHeader key = some (wordList.getD key []) := by
  unfold getHeader
  rw [if_pos ⟨Int.ofNat_le.mpr (Nat.le_of_lt_succ hkey), Int.natCast_nonneg key⟩,
    Int.toNat_natCast]
  exact if_pos h

theorem takenFor_eq_take {key : Nat} (hkey : key < 58) {w : List UInt8} (hw : w ∈ takenFor key) :
    (2 ≤ w.length ∧ w.length ≤ (wordList.getD key []).length) ∧ hash w = key ∧
      w = (wordList.getD key []).take w.length := by
  unfold takenFor at hw
  rcases List.mem_append.mp hw with h | h
  · have hne : wordList.getD key [] ≠ [] := by
      intro hnil
      unfold getHeader at h
      simp only [Int.toNat_natCast, hnil] at h
      simp at h
    rw [getHeader_natCast hkey hne] at h
    obtain rfl := List.mem_singleton.mp h
    obtain ⟨hhash, hmin, -⟩ := word_spec hkey hne
    exact ⟨⟨hmin, Nat.le_refl _⟩, hhash, List.take_length.symm⟩
  · split at h
    next hid =>
      obtain rfl : key = 34 := by omega
      obtain rfl := List.mem_singleton.mp h
      exact ⟨by decide, rfl, rfl⟩
    · split at h
      next hid =>
        obtain rfl : key = 35 := by omega
        obtain rfl := List.mem_singleton.mp h
        exact ⟨by decide, rfl, rfl⟩
      · split at h
        next hid =>
          obtain rfl : key = 53 := by omega
          obtain rfl := List.mem_singleton.mp h
          exact ⟨by decide, rfl, rfl⟩
        · cases h

theorem getHeaderId_le (name : List UInt8) : getHeaderId name ≤ 57 := by
  unfold getHeaderId
  dsimp only
  split_ifs with hlen hmax hword
  · exact Int.ofNat_le.mpr hmax
  all_goals decide

/-- The names that have a number. -/
theorem getHeaderId_eq_iff {name : List UInt8} {id : Int} (hid : 0 ≤ id) :
    getHeaderId name = id ↔ ∃ w ∈ takenFor id, name.map asciiToLower = w.map asciiToLower := by
  obtain ⟨key, rfl⟩ := Int.eq_ofNat_of_zero_le hid
  by_cases hkey : key < 58
  · rw [getHeaderId_eq_iff_take hkey]
    constructor
    · rintro ⟨⟨hmin, hle⟩, hhash, hmap⟩
      refine ⟨_, ?_, hmap⟩
      have hne : wordList.getD key [] ≠ [] := by
        intro hnil
        rw [hnil, List.length_nil] at hle
        omega
      obtain ⟨-, -, -, -, hcut⟩ := word_spec hkey hne
      rcases Nat.eq_or_lt_of_le hle with heq | hlt
      · rw [heq, List.take_length, takenFor, getHeader_natCast hkey hne]
        exact List.mem_append_left _ List.mem_cons_self
      · apply List.mem_append_right
        rcases hcut _ hlt hmin hhash with ⟨rfl, hlen⟩ | ⟨rfl, hlen⟩ | ⟨rfl, hlen⟩
        all_goals
          rw [hlen]
          exact List.mem_cons_self
    · rintro ⟨w, hw, hmap⟩
      obtain ⟨hlen, hhash, htake⟩ := takenFor_eq_take hkey hw
      have hlength : name.length = w.length := by simpa using congrArg List.length hmap
      rw [hlength, ← htake]
      exact ⟨hlen, hhash, hmap⟩
  · refine iff_of_false ?_ ?_
    · intro h
      have := getHeaderId_le name
      omega
    · rintro ⟨w, hw, -⟩
      unfold takenFor getHeader at hw
      rw [if_neg (by unfold maxHashValue; omega), if_neg (by omega), if_neg (by omega),
        if_neg (by omega)] at hw
      cases hw

/-- The number of a name that a number has. -/
theorem getHeaderId_getHeader {id : Int} {name : List UInt8} (h : getHeader id = some name) :
    getHeaderId name = id := by
  refine (getHeaderId_eq_iff (getHeader_spec h).1).mpr ⟨name, ?_, rfl⟩
  rw [takenFor, h]
  exact List.mem_append_left _ List.mem_cons_self

/-! ### The list -/

/-- `HeaderList::Item`. A header with a number has no name of its own. -/
structure HeaderList.Item where
  id : Int
  name : List UInt8
  value : List UInt8
  deriving DecidableEq

/-- `HeaderList`. -/
structure HeaderList where
  items : List HeaderList.Item
  error : Bool
  deriving DecidableEq

namespace HeaderList

/-- `error = true`. -/
def fail (l : HeaderList) : Bool × HeaderList := (false, { l with error := true })

/-- `parseLine`. -/
def parseLine (l : HeaderList) (s : List UInt8) : Bool × HeaderList :=
  if s.head?.any isBlank then
    match l.items.getLast? with
    | none => l.fail
    | some item =>
      let text := (s.dropWhile isBlank).rdropWhile isBlankOrEnd
      (true, { l with
        items := l.items.dropLast ++ [{ item with value := item.value ++ 0x20 :: text }] })
  else
    match splitFirst 0x3a s with
    | none => l.fail
    | some (name, rest) =>
      if name = [] ∨ name.getLast?.any isBlank then l.fail
      else
        let id := getHeaderId name
        (true, { l with items := l.items ++
          [⟨id, if id = -1 then name else [], (rest.rdropWhile isBlankOrEnd).dropWhile isBlank⟩] })

/-- The name that is printed. -/
def Item.printedName (item : Item) : Option (List UInt8) :=
  if item.id < 0 then some item.name else getHeader item.id

/-- The loop of `print`, which has no result when there is no name. -/
def printItems : List Item → Option (List UInt8)
  | [] => some []
  | item :: items => do
    let name ← item.printedName
    let rest ← printItems items
    return name ++ ascii ": " ++ item.value ++ ascii "\r\n" ++ rest

/-- `print`. -/
def print (l : HeaderList) : Option (List UInt8) := printItems l.items

/-! ### Line ends -/

/-- A character that ends a line. -/
def isLineEnd (c : UInt8) : Bool := c = 0x0d || c = 0x0a

/-- The line without its end. -/
def stripEnd (s : List UInt8) : List UInt8 := s.rdropWhile isLineEnd

/-! ### What is printed is parsed -/

/-- The text has no line end. -/
def OneLine (s : List UInt8) : Prop := ∀ c ∈ s, c ≠ 0x0d ∧ c ≠ 0x0a

/-- A name of a header. -/
def ValidName (name : List UInt8) : Prop :=
  name ≠ [] ∧ ∀ c ∈ name, c ≠ 0 ∧ c ≠ 0x3a ∧ isBlankOrEnd c = false

/-- A value of a header. -/
def ValidValue (value : List UInt8) : Prop :=
  OneLine value ∧ value.head?.any isBlank = false ∧ value.getLast?.any isBlank = false

theorem validName_of_isWordChar {name : List UInt8} (hne : name ≠ [])
    (h : name.all isWordChar = true) : ValidName name := by
  refine ⟨hne, fun c hc => ?_⟩
  have hc := List.all_eq_true.mp h c hc
  have hbound : 0x2d ≤ c.toNat ∧ c.toNat ≠ 0x3a := by
    simp only [isWordChar, Bool.or_eq_true, Bool.and_eq_true, decide_eq_true_eq,
      UInt8.le_iff_toNat_le, ← UInt8.toNat_inj] at hc
    simp only [UInt8.reduceToNat] at hc
    omega
  have hsmall : ∀ k : UInt8, k.toNat < 0x2d → c ≠ k := by
    rintro k hk rfl
    omega
  refine ⟨hsmall 0 (by decide), ?_, ?_⟩
  · rintro rfl
    exact hbound.2 rfl
  · simp [isBlankOrEnd, isBlank, hsmall 0x20 (by decide), hsmall 0x09 (by decide),
      hsmall 0x0d (by decide), hsmall 0x0a (by decide)]

/-- A header that `print` can print: its number has a name, or its name has no number. -/
structure Item.Fits (item : Item) : Prop where
  name : (getHeader item.id).isSome ∧ item.name = [] ∨
    item.id = -1 ∧ ValidName item.name ∧ getHeaderId item.name = -1
  value : ValidValue item.value

theorem Item.Fits.printedName {item : Item} (h : item.Fits) : ∃ name,
    item.printedName = some name ∧ ValidName name ∧ getHeaderId name = item.id ∧
      item.name = if item.id = -1 then name else [] := by
  rcases h.name with ⟨hsome, hname⟩ | ⟨hid, hvalid, hget⟩
  · obtain ⟨name, hname'⟩ := Option.isSome_iff_exists.mp hsome
    obtain ⟨hpos, hne, hall⟩ := getHeader_spec hname'
    refine ⟨name, ?_, validName_of_isWordChar hne hall, getHeaderId_getHeader hname', ?_⟩
    · rw [Item.printedName, if_neg (by omega)]
      exact hname'
    · rw [if_neg (by omega), hname]
  · refine ⟨item.name, ?_, hvalid, hget.trans hid.symm, (if_pos hid).symm⟩
    rw [Item.printedName, if_pos (by omega)]

theorem OneLine.append {a b : List UInt8} (ha : OneLine a) (hb : OneLine b) : OneLine (a ++ b) := by
  intro c hc
  exact (List.mem_append.mp hc).elim (ha c) (hb c)

theorem oneLine_of_all {s : List UInt8} (h : s.all (fun c => !isLineEnd c) = true) :
    OneLine s := by
  intro c hc
  have h := List.all_eq_true.mp h c hc
  simpa [isLineEnd] using h

theorem rdropWhile_append_of_forall {p : UInt8 → Bool} (s : List UInt8) {e : List UInt8}
    (h : ∀ c ∈ e, p c = true) : (s ++ e).rdropWhile p = s.rdropWhile p := by
  induction e using List.reverseRecOn with
  | nil => rw [List.append_nil]
  | append_singleton e c ih =>
    rw [← List.append_assoc, List.rdropWhile_concat_pos _ _ _ (h c (by simp))]
    exact ih fun c hc => h c (List.mem_append_left _ hc)

/-- Line ends behind a line do not matter. -/
theorem parseLine_append (l : HeaderList) {s e : List UInt8} (hs : s ≠ [])
    (he : ∀ c ∈ e, isLineEnd c = true) : l.parseLine (s ++ e) = l.parseLine s := by
  have hblank : ∀ c ∈ e, isBlankOrEnd c = true := by
    intro c hc
    have h := he c hc
    simp only [isLineEnd, Bool.or_eq_true] at h
    simp only [isBlankOrEnd, Bool.or_eq_true]
    tauto
  have hhead : (s ++ e).head? = s.head? := List.head?_append_of_ne_nil s hs
  have htext : ((s ++ e).dropWhile isBlank).rdropWhile isBlankOrEnd =
      (s.dropWhile isBlank).rdropWhile isBlankOrEnd := by
    rw [List.dropWhile_append]
    split
    next hempty =>
      have hnil : (e.dropWhile isBlank).rdropWhile isBlankOrEnd = [] :=
        List.rdropWhile_eq_nil_iff.mpr fun c hc => hblank c ((List.dropWhile_suffix _).subset hc)
      rw [hnil, List.isEmpty_iff.mp hempty]
      rfl
    · exact rdropWhile_append_of_forall _ hblank
  have hcolon : (0x3a : UInt8) ∉ e := fun hc => absurd (he _ hc) (by decide)
  rw [parseLine, parseLine, hhead, htext]
  cases hsplit : splitFirst 0x3a s with
  | none =>
    have hnone : (0x3a : UInt8) ∉ s := by
      intro hmem
      obtain ⟨x, y, rfl, hx⟩ := List.eq_append_cons_of_mem hmem
      rw [splitFirst_append hx] at hsplit
      cases hsplit
    rw [splitFirst_eq_none (by simp [hnone, hcolon])]
  | some p =>
    obtain ⟨name, rest⟩ := p
    obtain ⟨rfl, hname⟩ := splitFirst_eq_some hsplit
    rw [List.append_assoc, List.cons_append, splitFirst_append hname]
    dsimp only
    rw [rdropWhile_append_of_forall rest hblank]

theorem isBlankOrEnd_of_oneLine {s : List UInt8} (h : OneLine s) {c : UInt8} (hc : c ∈ s) :
    isBlankOrEnd c = isBlank c := by
  obtain ⟨hcr, hlf⟩ := h c hc
  simp [isBlankOrEnd, hcr, hlf]

/-- The blank that `print` puts in front of a value is taken off. -/
theorem trim_value {value : List UInt8} (h : ValidValue value) :
    ((0x20 :: value).rdropWhile isBlankOrEnd).dropWhile isBlank = value := by
  obtain ⟨hline, hhead, hlast⟩ := h
  cases value with
  | nil => rfl
  | cons c value =>
    have hkeep : (0x20 :: c :: value).rdropWhile isBlankOrEnd = 0x20 :: c :: value := by
      rw [List.rdropWhile_eq_self_iff]
      intro hne hblank
      rw [List.getLast_cons (List.cons_ne_nil c value),
        isBlankOrEnd_of_oneLine hline (List.getLast_mem _)] at hblank
      rw [List.getLast?_eq_some_getLast (List.cons_ne_nil c value)] at hlast
      exact absurd hblank (by simpa using hlast)
    have hc : isBlank c = false := by simpa using hhead
    rw [hkeep, List.dropWhile_cons_of_pos rfl, List.dropWhile_cons_of_neg (by simp [hc])]

theorem parseLine_name {l : HeaderList} {name value : List UInt8} (hname : ValidName name)
    (hvalue : ValidValue value) : l.parseLine (name ++ ascii ": " ++ value) =
      (true, { l with items := l.items ++
        [⟨getHeaderId name, if getHeaderId name = -1 then name else [], value⟩] }) := by
  obtain ⟨hne, hchars⟩ := hname
  have hblank : ∀ c ∈ name, isBlank c = false := by
    intro c hc
    have h := (hchars c hc).2.2
    simp only [isBlankOrEnd, Bool.or_eq_false_iff] at h
    exact h.1.1
  have hhead : ¬ (name ++ ascii ": " ++ value).head?.any isBlank = true := by
    cases name with
    | nil => exact absurd rfl hne
    | cons c name => simp [hblank c List.mem_cons_self]
  have hlast : ¬ (name = [] ∨ name.getLast?.any isBlank = true) := by
    rw [List.getLast?_eq_some_getLast hne]
    simp [hne, hblank _ (List.getLast_mem hne)]
  have hsplit : splitFirst 0x3a (name ++ ascii ": " ++ value) = some (name, 0x20 :: value) := by
    rw [List.append_assoc]
    exact splitFirst_append (fun hc => (hchars _ hc).2.1 rfl) _
  rw [parseLine, if_neg hhead, hsplit]
  dsimp only
  rw [if_neg hlast, trim_value hvalue]

/-- A header is parsed as it was printed. -/
theorem parseLine_printed {l : HeaderList} {item : Item} {name : List UInt8} (h : item.Fits)
    (hprint : item.printedName = some name) :
    l.parseLine (name ++ ascii ": " ++ item.value) =
      (true, { l with items := l.items ++ [item] }) := by
  obtain ⟨name', hprint', hvalid, hid, hname⟩ := h.printedName
  cases hprint.symm.trans hprint'
  rw [parseLine_name hvalid h.value, hid, ← hname]

end HeaderList

end Blacklink.Http
