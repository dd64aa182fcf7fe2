import Blacklink.Searches.SearchResults

/-!
# Search results arrive

What is read from the text of a search result is what was sent. Each search for a character is shown
to end where the sender put it, whatever spaces and parentheses there are in the path.
-/

namespace Blacklink.Searches

open Blacklink.Text Blacklink.Nmdc
open Blacklink.Share (SearchResultCore)
open Blacklink.Dht (TTHValue TTHValue.ofBase32)

/-! ### Paths -/

/-- A name in a path. -/
structure IsComponent (name : List UInt8) : Prop where
  ne_nil : name ≠ []
  chars : ∀ c ∈ name, 0x20 ≤ c ∧ c ≠ 0x2f ∧ c ≠ 0x5c

/-- Names with a separator behind each. -/
def joinDirs (dirs : List (List UInt8)) : List UInt8 := dirs.flatMap fun name => name ++ [0x5c]

/-- The path of a file or, with a separator at its end, of a directory. -/
inductive IsResultPath : Bool → List UInt8 → Prop
  | file {dirs : List (List UInt8)} {name : List UInt8} (hdirs : ∀ dir ∈ dirs, IsComponent dir)
      (hname : IsComponent name) : IsResultPath false (joinDirs dirs ++ name)
  | directory {dirs : List (List UInt8)} {name : List UInt8} (hdirs : ∀ dir ∈ dirs, IsComponent dir)
      (hname : IsComponent name) : IsResultPath true (joinDirs dirs ++ name ++ [0x5c])

private theorem mem_joinDirs {dirs : List (List UInt8)} (h : ∀ dir ∈ dirs, IsComponent dir) :
    ∀ c ∈ joinDirs dirs, 0x20 ≤ c ∧ c ≠ 0x2f := by
  intro c hc
  obtain ⟨dir, hdir, hmem⟩ := List.mem_flatMap.mp hc
  rcases List.mem_append.mp hmem with hmem | hmem
  · exact ⟨((h dir hdir).chars c hmem).1, ((h dir hdir).chars c hmem).2.1⟩
  · rw [List.mem_singleton.mp hmem]
    decide

/-- There are no control characters and slashes in a path. -/
theorem IsResultPath.chars {isDirectory : Bool} {path : List UInt8}
    (h : IsResultPath isDirectory path) : ∀ c ∈ path, 0x20 ≤ c ∧ c ≠ 0x2f := by
  intro c hc
  cases h with
  | file hdirs hname =>
    rcases List.mem_append.mp hc with hc | hc
    · exact mem_joinDirs hdirs c hc
    · exact ⟨(hname.chars c hc).1, (hname.chars c hc).2.1⟩
  | directory hdirs hname =>
    rcases List.mem_append.mp hc with hc | hc
    · rcases List.mem_append.mp hc with hc | hc
      · exact mem_joinDirs hdirs c hc
      · exact ⟨(hname.chars c hc).1, (hname.chars c hc).2.1⟩
    · rw [List.mem_singleton.mp hc]
      decide

theorem IsResultPath.ne_nil {isDirectory : Bool} {path : List UInt8}
    (h : IsResultPath isDirectory path) : path ≠ [] := by
  cases h with
  | file _ hname => exact List.append_ne_nil_of_right_ne_nil _ hname.ne_nil
  | directory => exact List.append_ne_nil_of_right_ne_nil _ (List.cons_ne_nil _ _)

/-- The separator at the end tells directories from files. -/
theorem IsResultPath.getLast? {isDirectory : Bool} {path : List UInt8}
    (h : IsResultPath isDirectory path) : path.getLast? = some 0x5c ↔ isDirectory = true := by
  cases h with
  | file _ hname =>
    rw [List.getLast?_append_of_ne_nil _ hname.ne_nil]
    constructor
    · intro hlast
      exact absurd rfl (hname.chars _ (List.mem_of_getLast? hlast)).2.2
    · intro hno
      cases hno
  | directory => simp

/-- The path of a directory has something before its last separator. -/
theorem IsResultPath.exists_dir {path : List UInt8} (h : IsResultPath true path) :
    ∃ dir, dir ≠ [] ∧ path = dir ++ [0x5c] := by
  cases h with
  | directory _ hname => exact ⟨_, List.append_ne_nil_of_right_ne_nil _ hname.ne_nil, rfl⟩

/-! ### NMDC -/

/-- What `processNMDC` makes of a nick or a path. -/
def decode (enc : Encoding) (s : List UInt8) : List UInt8 := if isAscii s then s else enc.toUtf8 s

/-- The encoding of a hub gives back the path and the nick, and has separators only for those in the
text. -/
structure CarriesResult (enc : Encoding) (isDirectory : Bool) (path nick : List UInt8) : Prop where
  decode_path : decode enc (enc.fromUtf8 path) = path
  decode_nick : decode enc (enc.fromUtf8 nick) = nick
  plain : 0x05 ∉ enc.fromUtf8 path
  noSpace : 0x20 ∉ enc.fromUtf8 nick
  directory : isDirectory = true → ∃ dir, dir ≠ [] ∧ enc.fromUtf8 path = dir ++ [0x5c]

variable {User : Type} {contacts : Contacts User}

private theorem not_mem_natToString {c : UInt8} (h : ¬ (0x30 ≤ c ∧ c ≤ 0x39)) (n : Nat) :
    c ∉ natToString n := fun hc => h (digit_of_mem_natToString hc)

private theorem not_mem_intToString {c : UInt8} (h : ¬ (0x30 ≤ c ∧ c ≤ 0x39)) (hminus : c ≠ 0x2d)
    (n : Int) : c ∉ intToString n := by
  unfold intToString
  split
  · rw [List.mem_cons, not_or]
    exact ⟨hminus, not_mem_natToString h _⟩
  · exact not_mem_natToString h _

private theorem toInt_natToString {n : Nat} (h : n < 2 ^ 31) : toInt (natToString n) = n := by
  have hread := toInt_natToString_append h (s := []) (by simp)
  rwa [List.append_nil] at hread

private theorem toInt64_intToString {n : Int} (hlow : -2 ^ 63 ≤ n) (hhigh : n < 2 ^ 63) :
    toInt64 (intToString n) = n := by
  have hread := toInt64_intToString_append hlow hhigh (s := []) (by simp)
  rwa [List.append_nil] at hread

/-- The slots, the tree and the address are read from what is behind the path. -/
private theorem processSlots_eq {x q nick tth ipPort : List UInt8} {part : FilePart}
    {freeSlots slots : Nat}
    (hx : x = q ++ (natToString freeSlots ++ 0x2f :: (natToString slots ++ 0x05 ::
      (tth ++ (ascii " (" ++ (ipPort ++ ascii ")|"))))))
    (hnext : part.next = q.length) (hfree : freeSlots < 2 ^ 31) (hslots : slots < 2 ^ 31)
    (hip : 0x20 ∉ ipPort) :
    processSlots contacts x nick part =
      some (nmdcResult contacts nick ipPort tth part slots freeSlots) := by
  have hslash := find_eq_some hx hnext (not_mem_natToString (c := 0x2f) (by decide) freeSlots)
  have hfreeText := substr_eq hx hnext rfl
  have hx₂ : x = (q ++ natToString freeSlots ++ [0x2f]) ++ (natToString slots ++ 0x05 ::
      (tth ++ (ascii " (" ++ (ipPort ++ ascii ")|")))) := by
    rw [hx]
    simp only [List.append_assoc, List.cons_append, List.nil_append]
  have hpos₂ : part.next + (natToString freeSlots).length + 1 =
      (q ++ natToString freeSlots ++ [0x2f]).length := by
    simp only [List.length_append, hnext, List.length_singleton]
  have hfive := find_eq_some hx₂ hpos₂ (not_mem_natToString (c := 0x05) (by decide) slots)
  have hslotsText := substr_eq hx₂ hpos₂ rfl
  have hx₃ : x = (q ++ natToString freeSlots ++ [0x2f] ++ natToString slots ++ [0x05]) ++
      (tth ++ (ascii " (" ++ (ipPort ++ ascii ")|"))) := by
    rw [hx₂]
    simp only [List.append_assoc, List.cons_append, List.nil_append]
  have hpos₃ : part.next + (natToString freeSlots).length + 1 + (natToString slots).length + 1 =
      (q ++ natToString freeSlots ++ [0x2f] ++ natToString slots ++ [0x05]).length := by
    simp only [List.length_append, hnext, List.length_singleton]
  have hx₄ : x = (q ++ natToString freeSlots ++ [0x2f] ++ natToString slots ++ [0x05] ++ tth) ++
      (0x20 :: [0x28] ++ (ipPort ++ ascii ")|")) := by
    rw [hx₃]
    simp only [List.append_assoc]
    rfl
  have hopen : rfind (ascii " (") x = some (part.next + (natToString freeSlots).length + 1 +
      (natToString slots).length + 1 + tth.length) := by
    have hrfind := rfind_eq_some hx₄ (by decide) (by
      rw [List.mem_append, not_or]
      exact ⟨hip, by decide⟩)
    rw [List.length_append, ← hpos₃] at hrfind
    exact hrfind
  have htthText := substr_eq hx₃ hpos₃ rfl
  have hx₅ : x = (q ++ natToString freeSlots ++ [0x2f] ++ natToString slots ++ [0x05] ++ tth ++
      ascii " (") ++ (ipPort ++ ascii ")|") := by
    rw [hx₃]
    simp only [List.append_assoc]
  have hpos₅ : part.next + (natToString freeSlots).length + 1 + (natToString slots).length + 1 +
      tth.length + 2 =
        (q ++ natToString freeSlots ++ [0x2f] ++ natToString slots ++ [0x05] ++ tth ++
        ascii " (").length := by
    rw [List.length_append, List.length_append, ← hpos₃]
    rfl
  have hx₆ : x = (q ++ natToString freeSlots ++ [0x2f] ++ natToString slots ++ [0x05] ++ tth ++
      ascii " (" ++ ipPort) ++ (0x29 :: [] ++ [0x7c]) := by
    rw [hx₅]
    simp only [List.append_assoc]
    rfl
  have hclose : rfind (ascii ")") x = some (part.next + (natToString freeSlots).length + 1 +
      (natToString slots).length + 1 + tth.length + 2 + ipPort.length) := by
    have hrfind := rfind_eq_some hx₆ (by decide) (by decide)
    rw [List.length_append, ← hpos₅] at hrfind
    exact hrfind
  have hipText := substr_eq hx₅ hpos₅ rfl
  unfold processSlots
  rw [hslash]
  simp only [Option.bind_eq_bind, Option.bind_some]
  rw [hfreeText, hfive]
  simp only [Option.bind_some]
  rw [hslotsText, toInt_natToString hslots, if_neg (by omega), hopen]
  simp only [Option.bind_some]
  rw [hclose, Option.bind_some, toInt_natToString hfree, if_neg (by omega), htthText, hipText]

/-- The path and the size of a file are before and behind the first `0x05`. -/
private theorem parseFilePart_file {x p file r : List UInt8} {size : Int}
    (hx : x = p ++ (file ++ 0x05 :: (intToString size ++ 0x20 :: r))) (hr : 0x05 ∈ r)
    (hlow : -2 ^ 63 ≤ size) (hhigh : size < 2 ^ 63) :
    parseFilePart x p.length (p.length + file.length) =
      some ⟨false, file, size, (p ++ file ++ 0x05 :: (intToString size ++ [0x20])).length⟩ := by
  have hx₂ : x = (p ++ file ++ [0x05]) ++ (intToString size ++ 0x20 :: r) := by
    rw [hx]
    simp only [List.append_assoc, List.cons_append, List.nil_append]
  have hpos₂ : p.length + file.length + 1 = (p ++ file ++ [0x05]).length := by
    rw [List.length_append, List.length_append, List.length_singleton]
  obtain ⟨r₁, r₂, rfl, hr₁⟩ := List.eq_append_cons_of_mem hr
  have hsecond : find x 0x05 (p.length + file.length + 1) = some (p.length + file.length + 1 +
      (intToString size ++ 0x20 :: r₁).length) := by
    apply find_eq_some (r := r₂) _ hpos₂
    · rw [List.mem_append, List.mem_cons, not_or, not_or]
      exact ⟨not_mem_intToString (by decide) (by decide) size, by decide, hr₁⟩
    · rw [hx₂]
      simp only [List.append_assoc, List.cons_append]
  have hspace := find_eq_some hx₂ hpos₂
    (not_mem_intToString (c := 0x20) (by decide) (by decide) size)
  unfold parseFilePart
  rw [hsecond]
  dsimp only
  rw [hspace]
  dsimp only
  rw [substr_eq hx rfl rfl, substr_eq hx₂ hpos₂ rfl, toInt64_intToString hlow hhigh]
  simp only [List.length_append, List.length_cons, List.length_nil]
  congr 2
  omega

/-- The path of a directory ends at the last space before the only `0x05`. -/
private theorem parseFilePart_directory {x p dir s r : List UInt8}
    (hx : x = p ++ (dir ++ 0x20 :: (s ++ 0x05 :: r))) (hne : dir ≠ []) (hs : 0x20 ∉ s)
    (hr : 0x05 ∉ r) :
    parseFilePart x p.length (p.length + (dir ++ 0x20 :: s).length) =
      some ⟨true, dir ++ [0x5c], 0, (p ++ dir ++ [0x20]).length⟩ := by
  have hx₂ : x = (p ++ (dir ++ 0x20 :: s) ++ [0x05]) ++ r := by
    rw [hx]
    simp only [List.append_assoc, List.cons_append, List.nil_append]
  have hpos₂ : p.length + (dir ++ 0x20 :: s).length + 1 =
      (p ++ (dir ++ 0x20 :: s) ++ [0x05]).length := by
    simp only [List.length_append, List.length_singleton]
  have htake : x.take (p.length + (dir ++ 0x20 :: s).length) = (p ++ dir) ++ (0x20 :: [] ++ s) := by
    rw [hx₂, List.append_assoc, ← List.length_append, List.take_left]
    simp only [List.append_assoc, List.cons_append, List.nil_append]
  have hlen := List.length_pos_iff.mpr hne
  have hrfind := (rfind_eq_some htake List.not_mem_nil hs).trans
    (congrArg some List.length_append)
  unfold parseFilePart
  rw [find_eq_none hx₂ hpos₂ hr]
  dsimp only
  rw [hrfind]
  dsimp only
  rw [if_neg (by omega), substr_eq hx rfl rfl]
  simp only [List.length_append, List.length_singleton]

/-- The text of a tree is recognised. -/
private theorem isTTHBase32_toBase32 (tth : TTHValue) :
    isTTHBase32 (ascii "TTH:" ++ toBase32 tth.toList) = true := by
  have hlen : (toBase32 tth.toList).length = 39 := by
    rw [length_toBase32, Vector.length_toList]
    decide
  have hbase32 : isBase32 (toBase32 tth.toList) = true := by
    have halphabet : ∀ c ∈ base32Alphabet, isBase32 [c] = true := by
      simp [base32Alphabet, ascii]
      decide
    rw [isBase32, List.all_eq_true]
    intro c hc
    have hone := halphabet c (mem_alphabet_of_mem_toBase32 hc)
    rwa [isBase32, List.all_cons, List.all_nil, Bool.and_true] at hone
  rw [isTTHBase32, List.length_append, hlen, List.take_left' (by decide),
    List.drop_left' (by decide), hbase32]
  rfl

private theorem ofBase32_toBase32 (tth : TTHValue) :
    TTHValue.ofBase32 (toBase32 tth.toList) = tth := by
  have hread := fromBase32_toBase32 tth.toList
  rw [Vector.length_toList] at hread
  apply Vector.toList_inj.mp
  rw [TTHValue.ofBase32]
  exact hread

/-- The user is found, and the nick and the path are decoded. -/
private theorem nmdcResult_eq {enc : Encoding} {isDirectory : Bool} {path nick ipPort : List UInt8}
    {part : FilePart} (henc : CarriesResult enc isDirectory path nick) {user : User}
    (hhub : contacts.findHub ipPort ≠ [])
    (hencoding : contacts.findHubEncoding (contacts.findHub ipPort) = enc)
    (huser : contacts.findUser nick (contacts.findHub ipPort) = some user)
    (hfile : part.file = enc.fromUtf8 path) (tth : TTHValue) (slots freeSlots : Nat) :
    nmdcResult contacts (enc.fromUtf8 nick) ipPort (ascii "TTH:" ++ toBase32 tth.toList) part slots
      freeSlots = some ⟨user, part.isDirectory, slots, freeSlots, part.size, path,
        contacts.findHub ipPort, tth, 0⟩ := by
  have hdrop : (ascii "TTH:" ++ toBase32 tth.toList).drop 4 = toBase32 tth.toList :=
    List.drop_left' (by decide)
  have hne : toBase32 tth.toList ≠ [] := by
    intro hnil
    have hlen := length_toBase32 tth.toList
    rw [hnil, Vector.length_toList] at hlen
    exact absurd hlen (by decide)
  have hnick := henc.decode_nick
  have hpath := henc.decode_path
  unfold decode at hnick hpath
  unfold nmdcResult
  dsimp only
  rw [if_neg hhub, hencoding, hnick, huser, hfile, hpath, isTTHBase32_toBase32, if_pos rfl, hdrop]
  dsimp only
  rw [if_neg fun h => hne h.1, ofBase32_toBase32]
  rfl

/-- A result that is sent to a user of an NMDC hub arrives as it is. -/
theorem processNMDC_toSR {contacts : Contacts User} {r : SearchResultCore TTHValue} {enc : Encoding}
    {nick ipPort : List UInt8} {freeSlots slots : Nat} {user : User}
    (hsize : -2 ^ 63 ≤ r.size ∧ r.size < 2 ^ 63) (hfree : freeSlots < slotsUnknown)
    (hslots : slots < slotsUnknown) (hip : ∀ c ∈ ipPort, 0x20 < c)
    (henc : CarriesResult enc r.isDirectory r.file nick) (hhub : contacts.findHub ipPort ≠ [])
    (hencoding : contacts.findHubEncoding (contacts.findHub ipPort) = enc)
    (huser : contacts.findUser nick (contacts.findHub ipPort) = some user) :
    processNMDC contacts (toSR r enc nick ipPort freeSlots slots) =
      some (some ⟨user, r.isDirectory, slots, freeSlots,
        if r.isDirectory then 0 else r.size, r.file,
        contacts.findHub ipPort, r.tth, 0⟩) := by
  have hspace : 0x20 ∉ ipPort := fun hmem => absurd (hip _ hmem) (by decide)
  have hfive : 0x05 ∉ ipPort := fun hmem => absurd (hip _ hmem) (by decide)
  have hunknown : slotsUnknown < 2 ^ 31 := by decide
  have hresult (part : FilePart) (hfile : part.file = enc.fromUtf8 r.file) :=
    nmdcResult_eq henc hhub hencoding huser hfile r.tth slots freeSlots
  have htthFive : 0x05 ∉ ascii "TTH:" ++ toBase32 r.tth.toList := by
    rw [List.mem_append, not_or]
    exact ⟨by decide, fun hmem => absurd (mem_alphabet_of_mem_toBase32 hmem) (by decide)⟩
  have hplain := henc.plain
  have hnickSpace := henc.noSpace
  have hdirectory := henc.directory
  generalize hx : toSR r enc nick ipPort freeSlots slots = x
  unfold toSR at hx
  dsimp only at hx
  rw [if_neg hfree.ne, if_neg hslots.ne] at hx
  generalize ascii "TTH:" ++ toBase32 r.tth.toList = tth at hresult htthFive hx
  generalize enc.fromUtf8 nick = nick' at hresult hnickSpace hx
  generalize enc.fromUtf8 r.file = path at hresult hplain hdirectory hx
  have hpre : (ascii "$SR ").isPrefixOf x = true := List.isPrefixOf_iff_prefix.mpr ⟨_, hx⟩
  have hfirst : find x 0x20 4 = some (4 + nick'.length) := find_eq_some hx.symm rfl hnickSpace
  have hnickText : substr x 4 (4 + nick'.length) = nick' := substr_eq hx.symm rfl rfl
  have hp₁ : 4 + nick'.length = (ascii "$SR " ++ nick').length := by
    rw [List.length_append]
    rfl
  have hp : 4 + nick'.length + 1 = (ascii "$SR " ++ nick' ++ [0x20]).length := by
    rw [List.length_append, ← hp₁, List.length_singleton]
  unfold processNMDC
  rw [hpre, Bool.not_true, if_neg Bool.false_ne_true, hfirst]
  simp only [Option.bind_eq_bind, Option.bind_some]
  rw [hnickText]
  cases hdir : r.isDirectory with
  | false =>
    rw [hdir, if_neg Bool.false_ne_true] at hx
    generalize hrest : (natToString freeSlots ++ 0x2f :: (natToString slots ++ 0x05 ::
      (tth ++ (ascii " (" ++ (ipPort ++ ascii ")|"))))) = rest at hx
    have hx₁ : x = (ascii "$SR " ++ nick') ++ (0x20 :: path ++ 0x05 ::
        (intToString r.size ++ 0x20 :: rest)) := by
      rw [← hx]
      simp only [List.append_assoc, List.cons_append]
    have hx₂ : x = (ascii "$SR " ++ nick' ++ [0x20]) ++ (path ++ 0x05 ::
        (intToString r.size ++ 0x20 :: rest)) := by
      rw [hx₁]
      simp only [List.append_assoc, List.cons_append, List.nil_append]
    have hx₃ : x = (ascii "$SR " ++ nick' ++ [0x20] ++ path ++ 0x05 ::
        (intToString r.size ++ [0x20])) ++ rest := by
      rw [hx₂]
      simp only [List.append_assoc, List.cons_append, List.nil_append]
    have hfirst05 : find x 0x05 (4 + nick'.length) =
        some (4 + nick'.length + (0x20 :: path).length) := by
      refine find_eq_some hx₁ hp₁ ?_
      rw [List.mem_cons, not_or]
      exact ⟨by decide, hplain⟩
    have hpos : 4 + nick'.length + (0x20 :: path).length =
        (ascii "$SR " ++ nick' ++ [0x20]).length + path.length := by
      rw [← hp, List.length_cons]
      omega
    have hrestFive : 0x05 ∈ rest := by
      rw [← hrest]
      simp
    rw [hfirst05, Option.bind_some, hpos, hp, parseFilePart_file hx₂ hrestFive hsize.1 hsize.2,
      Option.bind_some, processSlots_eq (hx₃.trans (congrArg _ hrest.symm)) rfl (by omega)
        (by omega) hspace, hresult _ rfl]
    rfl
  | true =>
    obtain ⟨dir, hne, rfl⟩ := hdirectory hdir
    rw [hdir, if_pos rfl, List.dropLast_concat] at hx
    have hdirFive : 0x05 ∉ dir := fun hmem => hplain (List.mem_append_left _ hmem)
    have hslotsFive : 0x05 ∉ natToString freeSlots ++ 0x2f :: natToString slots := by
      rw [List.mem_append, List.mem_cons, not_or, not_or]
      exact ⟨not_mem_natToString (by decide) _, by decide, not_mem_natToString (by decide) _⟩
    have hslotsSpace : 0x20 ∉ natToString freeSlots ++ 0x2f :: natToString slots := by
      rw [List.mem_append, List.mem_cons, not_or, not_or]
      exact ⟨not_mem_natToString (by decide) _, by decide, not_mem_natToString (by decide) _⟩
    have hrestFive : 0x05 ∉ tth ++ (ascii " (" ++ (ipPort ++ ascii ")|")) := by
      simp only [List.mem_append, not_or]
      exact ⟨htthFive, by decide, hfive, by decide⟩
    have hx₁ : x = (ascii "$SR " ++ nick') ++ (0x20 :: (dir ++ 0x20 ::
        (natToString freeSlots ++ 0x2f :: natToString slots)) ++ 0x05 ::
          (tth ++ (ascii " (" ++ (ipPort ++ ascii ")|")))) := by
      rw [← hx]
      simp only [List.append_assoc, List.cons_append]
    have hx₂ : x = (ascii "$SR " ++ nick' ++ [0x20]) ++ (dir ++ 0x20 ::
        ((natToString freeSlots ++ 0x2f :: natToString slots) ++ 0x05 ::
          (tth ++ (ascii " (" ++ (ipPort ++ ascii ")|"))))) := by
      rw [hx₁]
      simp only [List.append_assoc, List.cons_append, List.nil_append]
    have hx₃ : x = (ascii "$SR " ++ nick' ++ [0x20] ++ dir ++ [0x20]) ++
        (natToString freeSlots ++ 0x2f :: (natToString slots ++ 0x05 ::
          (tth ++ (ascii " (" ++ (ipPort ++ ascii ")|"))))) := by
      rw [hx₂]
      simp only [List.append_assoc, List.cons_append, List.nil_append]
    have hfirst05 : find x 0x05 (4 + nick'.length) = some (4 + nick'.length + (0x20 :: (dir ++
        0x20 :: (natToString freeSlots ++ 0x2f :: natToString slots))).length) := by
      refine find_eq_some hx₁ hp₁ ?_
      rw [List.mem_cons, List.mem_append, List.mem_cons, not_or, not_or, not_or]
      exact ⟨by decide, hdirFive, by decide, hslotsFive⟩
    have hpos : 4 + nick'.length + (0x20 :: (dir ++ 0x20 ::
        (natToString freeSlots ++ 0x2f :: natToString slots))).length =
        (ascii "$SR " ++ nick' ++ [0x20]).length +
          (dir ++ 0x20 :: (natToString freeSlots ++ 0x2f :: natToString slots)).length := by
      rw [← hp, List.length_cons]
      omega
    rw [hfirst05, Option.bind_some, hpos, hp,
      parseFilePart_directory hx₂ hne hslotsSpace hrestFive, Option.bind_some,
      processSlots_eq hx₃ rfl (by omega) (by omega) hspace, hresult _ rfl]
    rfl

/-- UTF-8 carries every path, and every nick without spaces. -/
theorem carriesResult_utf8 {isDirectory : Bool} {path nick : List UInt8}
    (hpath : IsResultPath isDirectory path) (hnick : 0x20 ∉ nick) :
    CarriesResult .utf8 isDirectory path nick where
  decode_path := ite_self path
  decode_nick := ite_self nick
  plain := fun hmem => absurd (hpath.chars _ hmem).1 (by decide)
  noSpace := hnick
  directory := by
    rintro rfl
    exact hpath.exists_dir

/-! ### ADC -/

/-- The path of a file list is the only one that is not changed. -/
theorem toNmdcFile_toAdcFile {path : List UInt8} (hslash : 0x2f ∉ path)
    (hlist : path ≠ ascii "files.xml.bz2" ∧ path ≠ ascii "files.xml") :
    toNmdcFile (toAdcFile path) = path := by
  have hback : ∀ c ∈ path,
      (fun c : UInt8 => if c = 0x2f then 0x5c else c) (if c = 0x5c then 0x2f else c) = c := by
    intro c hc
    dsimp only
    split
    · next h => rw [if_pos rfl, h]
    · refine if_neg ?_
      rintro rfl
      exact hslash hc
  rw [toAdcFile, if_neg (by rintro (h | h); exacts [hlist.1 h, hlist.2 h]), toNmdcFile,
    List.map_cons, List.drop_succ_cons, List.drop_zero, List.map_map]
  conv_rhs => rw [← List.map_id path]
  exact List.map_congr_left hback

private theorem toAdcFile_ne_nil (path : List UInt8) : toAdcFile path ≠ [] := by
  unfold toAdcFile
  split
  · next h =>
    rcases h with rfl | rfl
    · decide
    · decide
  · exact List.cons_ne_nil _ _

/-- There is no zero in a path. -/
private theorem takeWhile_toAdcFile {path : List UInt8} (h : ∀ c ∈ path, 0x20 ≤ c) :
    (toAdcFile path).takeWhile (· ≠ 0) = toAdcFile path := by
  have hplain : ∀ c ∈ path, c ≠ 0 := by
    rintro c hc rfl
    exact absurd (h 0 hc) (by decide)
  apply List.takeWhile_eq_self_iff.mpr
  intro c hc
  apply decide_eq_true
  unfold toAdcFile at hc
  split at hc
  · exact hplain c hc
  · obtain ⟨a, ha, rfl⟩ := List.mem_map.mp hc
    split
    · decide
    · rcases List.mem_cons.mp ha with rfl | ha
      · decide
      · exact hplain a ha

/-- A parameter is read by its name. -/
private theorem add_param {st : RESFields} {name value : List UInt8} (hname : name.length = 2)
    (hvalue : value ≠ []) :
    st.add (name ++ value) =
      if name = ascii "FN" then { st with file := toNmdcFile (value.takeWhile (· ≠ 0)) }
      else if name = ascii "SL" then { st with freeSlots := (toInt value % 2 ^ 16).toNat }
      else if name = ascii "SI" then { st with size := toInt64 value }
      else if name = ascii "TR" then { st with tth := value }
      else if name = ascii "TO" then { st with token := toUInt32 value }
      else st := by
  have hpos := List.length_pos_iff.mpr hvalue
  have hlong : ¬ (name ++ value).length ≤ 2 := by
    rw [List.length_append]
    omega
  unfold RESFields.add
  rw [if_neg hlong, List.take_left' hname, List.drop_left' hname]

/-- Other parameters change nothing but the token. -/
private theorem foldl_add_other {rest : List (List UInt8)}
    (h : ∀ p ∈ rest, p.take 2 ∉ [ascii "FN", ascii "SL", ascii "SI", ascii "TR"])
    (st : RESFields) :
    ∃ token, rest.foldl RESFields.add st = { st with token := token } := by
  induction rest generalizing st with
  | nil => exact ⟨st.token, rfl⟩
  | cons p rest ih =>
    rw [List.forall_mem_cons] at h
    have hadd : ∃ token, st.add p = { st with token := token } := by
      obtain ⟨hFN, hSL, hSI, hTR⟩ : p.take 2 ≠ ascii "FN" ∧ p.take 2 ≠ ascii "SL" ∧
          p.take 2 ≠ ascii "SI" ∧ p.take 2 ≠ ascii "TR" := by simpa using h.1
      unfold RESFields.add
      dsimp only
      rw [if_neg hFN, if_neg hSL, if_neg hSI, if_neg hTR]
      split
      · exact ⟨st.token, rfl⟩
      · split
        · exact ⟨_, rfl⟩
        · exact ⟨st.token, rfl⟩
    obtain ⟨token, htoken⟩ := hadd
    obtain ⟨token', htoken'⟩ := ih h.2 (st.add p)
    rw [List.foldl_cons, htoken']
    exact ⟨token', by rw [htoken]⟩

/-- A result that is sent to a user of an ADC hub arrives as it is. -/
theorem onRES_toRES (contacts : Contacts User) {r : SearchResultCore TTHValue} {freeSlots : Nat}
    (hpath : IsResultPath r.isDirectory r.file)
    (hlist : r.file ≠ ascii "files.xml.bz2" ∧ r.file ≠ ascii "files.xml")
    (hsize : 0 ≤ r.size ∧ r.size < 2 ^ 63) (hfree : freeSlots < slotsUnknown)
    {rest : List (List UInt8)}
    (hrest : ∀ p ∈ rest, p.take 2 ∉ [ascii "FN", ascii "SL", ascii "SI", ascii "TR"])
    (user : User) :
    ∃ token, onRES contacts (toRES r freeSlots ++ rest) user =
      some ⟨user, r.isDirectory, (contacts.getSlots user).getD slotsUnknown, freeSlots, r.size,
        r.file, (contacts.getHubs user).headD [], r.tth, token⟩ := by
  have hunknown : slotsUnknown < 2 ^ 16 := by decide
  have htth : toBase32 r.tth.toList ≠ [] := by
    intro hnil
    have hlen := length_toBase32 r.tth.toList
    rw [hnil, Vector.length_toList] at hlen
    exact absurd hlen (by decide)
  have hsizeNe : intToString r.size ≠ [] := by
    unfold intToString
    rw [if_neg (by omega)]
    exact natToString_ne_nil _
  have hslots : (toInt (natToString freeSlots) % 2 ^ 16).toNat = freeSlots := by
    rw [toInt_natToString (by omega)]
    omega
  have hfile : toNmdcFile ((toAdcFile r.file).takeWhile (· ≠ 0)) = r.file := by
    rw [takeWhile_toAdcFile fun c hc => (hpath.chars c hc).1]
    exact toNmdcFile_toAdcFile (fun hmem => (hpath.chars _ hmem).2 rfl) hlist
  have hfields : (toRES r freeSlots).foldl RESFields.add ⟨slotsUnknown, -1, [], [], 0⟩ =
      ⟨freeSlots, r.size, r.file, toBase32 r.tth.toList, 0⟩ := by
    simp only [toRES, List.foldl_cons, List.foldl_nil]
    rw [add_param (by decide) hsizeNe, if_neg (by decide), if_neg (by decide), if_pos rfl,
      add_param (by decide) (natToString_ne_nil freeSlots), if_neg (by decide), if_pos rfl,
      add_param (by decide) (toAdcFile_ne_nil r.file), if_pos rfl, add_param (by decide) htth,
      if_neg (by decide), if_neg (by decide), if_neg (by decide), if_pos rfl, hslots, hfile,
      toInt64_intToString (by omega) hsize.2]
  obtain ⟨token, htoken⟩ := foldl_add_other hrest
    ⟨freeSlots, r.size, r.file, toBase32 r.tth.toList, 0⟩
  have hdir : decide (r.file.getLast? = some 0x5c) = r.isDirectory := by
    rw [Bool.eq_iff_iff, decide_eq_true_eq]
    exact hpath.getLast?
  unfold onRES
  rw [List.foldl_append, hfields, htoken]
  dsimp only
  rw [if_pos ⟨hpath.ne_nil, hfree.ne, by omega⟩, hdir, if_neg fun h => htth h.2, ofBase32_toBase32]
  exact ⟨token, rfl⟩

/-! ### Both protocols -/

/-- A search result arrives as it is: with its type, path, size if it is a file, free slots and
tree. -/
theorem searchResult_arrives {contacts : Contacts User} {r : SearchResultCore TTHValue}
    {enc : Encoding} {nick ipPort : List UInt8} {freeSlots slots : Nat} {user : User}
    (hpath : IsResultPath r.isDirectory r.file) (hsize : 0 ≤ r.size ∧ r.size < 2 ^ 63)
    (hfree : freeSlots < slotsUnknown) (hslots : slots < slotsUnknown)
    (hip : ∀ c ∈ ipPort, 0x20 < c) (henc : CarriesResult enc r.isDirectory r.file nick)
    (hhub : contacts.findHub ipPort ≠ [])
    (hencoding : contacts.findHubEncoding (contacts.findHub ipPort) = enc)
    (huser : contacts.findUser nick (contacts.findHub ipPort) = some user) :
    processNMDC contacts (toSR r enc nick ipPort freeSlots slots) =
        some (some ⟨user, r.isDirectory, slots, freeSlots, if r.isDirectory then 0 else r.size,
          r.file, contacts.findHub ipPort, r.tth, 0⟩) ∧
      (r.file ≠ ascii "files.xml.bz2" ∧ r.file ≠ ascii "files.xml" →
        ∀ rest : List (List UInt8),
          (∀ p ∈ rest, p.take 2 ∉ [ascii "FN", ascii "SL", ascii "SI", ascii "TR"]) →
          ∃ token, onRES contacts (toRES r freeSlots ++ rest) user =
            some ⟨user, r.isDirectory, (contacts.getSlots user).getD slotsUnknown,
              freeSlots, r.size,
              r.file, (contacts.getHubs user).headD [], r.tth, token⟩) :=
  ⟨processNMDC_toSR ⟨by omega, hsize.2⟩ hfree hslots hip henc hhub hencoding huser,
    fun hlist _ hrest => onRES_toRES contacts hpath hlist hsize hfree hrest user⟩

/-- A client that knows one hub and one user. -/
def contactsOfOne : Contacts Unit where
  findHub := fun _ => ascii "hub"
  findHubEncoding := fun _ => .utf8
  findUser := fun _ _ => some ()
  findLegacyUser := fun _ _ => none
  getHubs := fun _ => []
  getSlots := fun _ => none

/-- A directory whose name has spaces and parentheses. -/
def directoryResult : SearchResultCore TTHValue :=
  ⟨true, 7, ascii "Live (1 2)\\", .replicate 24 0⟩

/-- Its path arrives in both protocols. -/
theorem directoryResult_arrives :
    processNMDC contactsOfOne (toSR directoryResult .utf8 (ascii "me") (ascii "1.1.1.1:411") 2 3) =
        some (some ⟨(), true, 3, 2, 0, directoryResult.file, ascii "hub", .replicate 24 0, 0⟩) ∧
      (directoryResult.file ≠ ascii "files.xml.bz2" ∧ directoryResult.file ≠ ascii "files.xml" →
        ∀ rest : List (List UInt8),
          (∀ p ∈ rest, p.take 2 ∉ [ascii "FN", ascii "SL", ascii "SI", ascii "TR"]) →
          ∃ token, onRES contactsOfOne (toRES directoryResult 2 ++ rest) () =
            some ⟨(), true, slotsUnknown, 2, 7, directoryResult.file, [], .replicate 24 0,
              token⟩) := by
  have hpath : IsResultPath true directoryResult.file :=
    @IsResultPath.directory [] (ascii "Live (1 2)") (fun _ h => absurd h List.not_mem_nil)
      ⟨by decide, by decide +kernel⟩
  exact searchResult_arrives hpath (by decide) (by decide) (by decide) (by decide +kernel)
    (carriesResult_utf8 hpath (by decide)) (by decide) rfl rfl

/-- The name of a file list loses its first character in ADC. -/
theorem onRES_toRES_fileList :
    (onRES contactsOfOne (toRES ⟨false, 7, ascii "files.xml", .replicate 24 0⟩ 2) ()).map
      SearchResult.file = some (ascii "iles.xml") := by
  rfl

end Blacklink.Searches
