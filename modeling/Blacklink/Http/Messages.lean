import Mathlib.Data.List.GetD
import Blacklink.Http.Date
import Blacklink.Http.Headers

/-!
# Requests and responses

Model of `Http::Request` and `Http::Response` (`client/HttpMessage.cpp:84-130, 282-387`): what is
printed, given line by line to `parseLine`, is the message again.
-/

namespace Blacklink.Http.Messages

open Blacklink.Text Blacklink.Http.HeaderList

/-- `methodNames`. -/
def methodNames : List (List UInt8) :=
  ["CONNECT", "DELETE", "GET", "HEAD", "OPTIONS", "POST", "PUT", "TRACE"].map ascii

/-- `asciiEqual`. -/
def asciiEqual (s1 s2 : List UInt8) : Bool := s1.map asciiToLower = s2.map asciiToLower

/-- `getMethodId`. -/
def getMethodId (s : List UInt8) : Int :=
  match methodNames.findIdx? (asciiEqual s) with
  | some i => i
  | none => -1

/-- `parseVersion`. The character between the digits is not looked at. -/
def parseVersion (s : List UInt8) (start stop : Nat) : Option (UInt8 × UInt8) :=
  if stop < start + 8 then none
  else if (s.drop start).take 5 ≠ ascii "HTTP/" then none
  else
    let major := s.getD (start + 5) 0
    let minor := s.getD (start + 7) 0
    if !isDigit major || !isDigit minor then none else some (major - 0x30, minor - 0x30)

/-- `Request`. -/
structure Request extends HeaderList where
  parseRequestLine : Bool
  complete : Bool
  version : UInt8 × UInt8
  uri : List UInt8
  method : List UInt8
  methodId : Int
  deriving DecidableEq

namespace Request

/-- A new request. -/
def new : Request := ⟨⟨[], false⟩, true, false, (1, 1), [], [], -1⟩

/-- `error = true`. -/
def fail (r : Request) : Bool × Request := (false, { r with error := true })

/-- The first line, without its end: there is no blank in a line end. -/
def parseStartLine (r : Request) (s : List UInt8) : Bool × Request :=
  let r := { r with parseRequestLine := false }
  match find s 0x20 0 with
  | none => r.fail
  | some p1 =>
    if p1 = 0 then r.fail
    else
      match find s 0x20 (p1 + 1) with
      | none => r.fail
      | some p2 =>
        match parseVersion s (p2 + 1) s.length with
        | none => r.fail
        | some version =>
          let r := { r with
            version := version, method := substr s 0 p1, uri := substr s (p1 + 1) p2 }
          if r.uri = [] then r.fail else (true, { r with methodId := getMethodId r.method })

/-- `parseLine`. -/
def parseLine (r : Request) (s : List UInt8) : Bool × Request :=
  let line := stripEnd s
  if line = [] then
    if r.parseRequestLine then (true, r) else (false, { r with complete := true })
  else if r.parseRequestLine then r.parseStartLine line
  else
    let result := r.toHeaderList.parseLine s
    (result.1, { r with toHeaderList := result.2 })

/-- `print`. -/
def print (r : Request) : Option (List UInt8) := do
  let headers ← r.toHeaderList.print
  return r.method ++ ascii " " ++ r.uri ++ ascii " HTTP/" ++ natToString r.version.1.toNat ++
    ascii "." ++ natToString r.version.2.toNat ++ ascii "\r\n" ++ headers ++ ascii "\r\n"

end Request

/-- `Response`. -/
structure Response extends HeaderList where
  parseResponseLine : Bool
  complete : Bool
  version : UInt8 × UInt8
  code : Int
  phrase : List UInt8
  deriving DecidableEq

namespace Response

/-- A new response. -/
def new : Response := ⟨⟨[], false⟩, true, false, (1, 1), 0, []⟩

/-- `error = true`. -/
def fail (r : Response) : Bool × Response := (false, { r with error := true })

/-- The first line, without its end. -/
def parseStatusLine (r : Response) (s : List UInt8) : Bool × Response :=
  let r := { r with parseResponseLine := false }
  if s.length < 12 ∨ s.getD 8 0 ≠ 0x20 then r.fail
  else
    match parseVersion s 0 8 with
    | none => r.fail
    | some version =>
      let r := { r with version := version }
      if !(isDigit (s.getD 9 0) && isDigit (s.getD 10 0) && isDigit (s.getD 11 0)) then r.fail
      else
        let digit (i : Nat) : Int := (s.getD i 0).toNat - 0x30
        let r := { r with code := digit 9 * 100 + digit 10 * 10 + digit 11, phrase := [] }
        if 12 < s.length then
          if s.getD 12 0 ≠ 0x20 then r.fail
          else (true, { r with phrase := (s.drop 13).rdropWhile isBlank })
        else (true, r)

/-- `parseLine`. -/
def parseLine (r : Response) (s : List UInt8) : Bool × Response :=
  let line := stripEnd s
  if line = [] then
    if r.parseResponseLine then (true, r) else (false, { r with complete := true })
  else if r.parseResponseLine then r.parseStatusLine line
  else
    let result := r.toHeaderList.parseLine s
    (result.1, { r with toHeaderList := result.2 })

/-- `print`: `%03u` of an `int`. -/
def print (r : Response) : Option (List UInt8) := do
  let headers ← r.toHeaderList.print
  return ascii "HTTP/" ++ natToString r.version.1.toNat ++ ascii "." ++
    natToString r.version.2.toNat ++ ascii " " ++
    zeroPad 3 (natToString (r.code % 2 ^ 32).toNat) ++ ascii " " ++ r.phrase ++ ascii "\r\n" ++
    headers ++ ascii "\r\n"

end Response

/-! ### The lines of a text -/

/-- What is before each line feed, as `parseData` hands it over; behind the last one the line has
not ended. The line so far comes first. -/
def linesFrom (line : List UInt8) : List UInt8 → List (List UInt8)
  | [] => []
  | c :: text => if c = 0x0a then line :: linesFrom [] text else linesFrom (line ++ [c]) text

/-- The lines of a text. -/
def lines (text : List UInt8) : List (List UInt8) := linesFrom [] text

/-- The lines are those of the text, but for what there may be of the line ends. -/
def SplitAtLineEnds (text : List UInt8) (ls : List (List UInt8)) : Prop :=
  ls.map stripEnd = (lines text).map stripEnd

theorem linesFrom_append (line : List UInt8) {a : List UInt8} (h : 0x0a ∉ a)
    (text : List UInt8) : linesFrom line (a ++ 0x0a :: text) = (line ++ a) :: lines text := by
  induction a generalizing line with
  | nil => simp [linesFrom, lines]
  | cons c a ih =>
    rw [List.mem_cons, not_or] at h
    rw [List.cons_append, linesFrom, if_neg (Ne.symm h.1), ih _ h.2]
    simp

theorem stripEnd_of_oneLine {a : List UInt8} (h : OneLine a) : stripEnd a = a := by
  rw [stripEnd, List.rdropWhile_eq_self_iff]
  intro hne hend
  obtain ⟨hcr, hlf⟩ := h _ (List.getLast_mem hne)
  simp [isLineEnd, hcr, hlf] at hend

/-- A line that is printed. -/
theorem map_lines_append {a : List UInt8} (h : OneLine a) (text : List UInt8) :
    (lines (a ++ ascii "\r\n" ++ text)).map stripEnd = a :: (lines text).map stripEnd := by
  have hlf : (0x0a : UInt8) ∉ a ++ [0x0d] := by
    rw [List.mem_append, not_or]
    exact ⟨fun hc => (h _ hc).2 rfl, by decide⟩
  have hstrip : stripEnd (a ++ [0x0d]) = a := by
    rw [stripEnd, List.rdropWhile_concat_pos _ _ _ rfl]
    exact stripEnd_of_oneLine h
  have htext : a ++ ascii "\r\n" ++ text = (a ++ [0x0d]) ++ 0x0a :: text := by
    rw [List.append_assoc, List.append_assoc]
    rfl
  rw [htext, lines, linesFrom_append [] hlf, List.nil_append, List.map_cons, hstrip]

/-! ### The headers -/

/-- The line of a header. -/
def headerLine (item : HeaderList.Item) : List UInt8 :=
  item.printedName.getD [] ++ ascii ": " ++ item.value

theorem oneLine_natToString (n : Nat) : OneLine (natToString n) := by
  intro c hc
  obtain ⟨hlow, -⟩ := digit_of_mem_natToString hc
  refine ⟨?_, ?_⟩ <;> rintro rfl <;> exact absurd hlow (by decide)

theorem oneLine_headerLine {item : HeaderList.Item} (h : item.Fits) :
    OneLine (headerLine item) := by
  obtain ⟨name, hprint, ⟨-, hvalid⟩, -⟩ := h.printedName
  have hname : OneLine name := by
    intro c hc
    have hc := (hvalid c hc).2.2
    simp only [isBlankOrEnd, Bool.or_eq_false_iff, decide_eq_false_iff_not] at hc
    exact ⟨hc.1.2, hc.2⟩
  have hcolon : OneLine (ascii ": ") := oneLine_of_all rfl
  rw [headerLine, hprint]
  exact (hname.append hcolon).append h.value.1

theorem headerLine_ne_nil (item : HeaderList.Item) : headerLine item ≠ [] := by
  simp [headerLine, ascii]

/-- The lines of the headers that are printed. -/
theorem map_lines_printItems {items : List HeaderList.Item} (h : ∀ item ∈ items, item.Fits) :
    ∃ text, printItems items = some text ∧ ∀ rest, (lines (text ++ rest)).map stripEnd =
      items.map headerLine ++ (lines rest).map stripEnd := by
  induction items with
  | nil => exact ⟨[], rfl, fun rest => rfl⟩
  | cons item items ih =>
    rw [List.forall_mem_cons] at h
    obtain ⟨text, htext, hlines⟩ := ih h.2
    obtain ⟨name, hprint, -⟩ := h.1.printedName
    have hline : headerLine item = name ++ ascii ": " ++ item.value := by
      rw [headerLine, hprint, Option.getD_some]
    refine ⟨headerLine item ++ ascii "\r\n" ++ text, ?_, fun rest => ?_⟩
    · rw [printItems, hprint, htext, hline]
      rfl
    · rw [List.append_assoc, map_lines_append (oneLine_headerLine h.1), hlines]
      rfl

/-- A number of one digit. -/
theorem natToString_digit {v : UInt8} (h : v ≤ 9) : natToString v.toNat = [0x30 + v] ∧
    isDigit (0x30 + v) = true ∧ 0x30 + v - 0x30 = v := by
  have hlt : v.toNat < 10 := by
    rw [UInt8.le_iff_toNat_le] at h
    exact Nat.lt_succ_of_le h
  have hall : ∀ n < 10, natToString n = [0x30 + UInt8.ofNat n] ∧
      isDigit (0x30 + UInt8.ofNat n) = true ∧ 0x30 + UInt8.ofNat n - 0x30 = UInt8.ofNat n := by
    intro n hn
    interval_cases n <;> exact ⟨rfl, rfl, rfl⟩
  have hv := hall v.toNat hlt
  rwa [UInt8.ofNat_toNat] at hv

/-- A version is parsed as it was printed. -/
theorem parseVersion_printed {s rest : List UInt8} {version : UInt8 × UInt8}
    (before : List UInt8) (stop : Nat) (h : version.1 ≤ 9 ∧ version.2 ≤ 9)
    (hs : s = before ++ (ascii "HTTP/" ++ natToString version.1.toNat ++ ascii "." ++
      natToString version.2.toNat ++ rest)) (hstop : before.length + 8 ≤ stop) :
    parseVersion s before.length stop = some version := by
  obtain ⟨hmajor, hdmajor, hsmajor⟩ := natToString_digit h.1
  obtain ⟨hminor, hdminor, hsminor⟩ := natToString_digit h.2
  rw [hmajor, hminor] at hs
  have hat : ∀ i, s.getD (before.length + i) 0 = (ascii "HTTP/" ++ [0x30 + version.1] ++
      ascii "." ++ [0x30 + version.2] ++ rest).getD i 0 := by
    intro i
    rw [hs, List.getD_append_right _ _ _ _ (Nat.le_add_right _ _), Nat.add_sub_cancel_left]
  have h5 : s.getD (before.length + 5) 0 = 0x30 + version.1 := hat 5
  have h7 : s.getD (before.length + 7) 0 = 0x30 + version.2 := hat 7
  have htake : (s.drop before.length).take 5 = ascii "HTTP/" := by
    rw [hs, List.drop_left]
    rfl
  rw [parseVersion, if_neg (by omega), if_neg (not_not_intro htake)]
  simp only [h5, h7, hdmajor, hdminor, hsmajor, hsminor]
  rfl

/-- Of a line only its end is missing. -/
theorem stripEnd_append (s : List UInt8) :
    ∃ e, s = stripEnd s ++ e ∧ ∀ c ∈ e, isLineEnd c = true :=
  ⟨s.rtakeWhile isLineEnd, List.rdropWhile_append_rtakeWhile.symm,
    fun _ hc => List.mem_rtakeWhile_imp hc⟩

theorem stripEnd_stripEnd (s : List UInt8) : stripEnd (stripEnd s) = stripEnd s :=
  List.rdropWhile_idempotent _ _

theorem parseLine_stripEnd (l : HeaderList) {s : List UInt8} (h : stripEnd s ≠ []) :
    l.parseLine (stripEnd s) = l.parseLine s := by
  obtain ⟨e, hs, he⟩ := stripEnd_append s
  conv_rhs => rw [hs, parseLine_append l h he]

theorem parseLine_headerLine (l : HeaderList) {item : HeaderList.Item} (h : item.Fits) :
    l.parseLine (headerLine item) = (true, { l with items := l.items ++ [item] }) := by
  obtain ⟨name, hprint, -⟩ := h.printedName
  rw [headerLine, hprint]
  exact parseLine_printed h hprint

theorem stripEnd_headerLine {item : HeaderList.Item} (h : item.Fits) :
    stripEnd (headerLine item) ≠ [] := by
  rw [stripEnd_of_oneLine (oneLine_headerLine h)]
  exact headerLine_ne_nil item

/-! ### Line by line -/

section Steps

variable {σ : Type} (step : σ → List UInt8 → σ)

/-- What there is of the line ends does not matter to the whole. -/
theorem foldl_stripEnd (h : ∀ r s, step r (stripEnd s) = step r s) {ls ls' : List (List UInt8)}
    (heq : ls.map stripEnd = ls'.map stripEnd) (r : σ) : ls.foldl step r = ls'.foldl step r := by
  have hstrip : ∀ ls : List (List UInt8), (ls.map stripEnd).foldl step r = ls.foldl step r := by
    intro ls
    rw [List.foldl_map]
    simp only [h]
  rw [← hstrip ls, heq, hstrip ls']

/-- Behind the first line the headers are added to the list. -/
theorem foldl_headerLine (state : HeaderList → σ)
    (h : ∀ l s, stripEnd s ≠ [] → step (state l) s = state (l.parseLine s).2)
    {items : List HeaderList.Item} (hitems : ∀ item ∈ items, item.Fits) (l : HeaderList) :
    (items.map headerLine).foldl step (state l) = state { l with items := l.items ++ items } := by
  induction items generalizing l with
  | nil => rw [List.append_nil]; rfl
  | cons item items ih =>
    rw [List.forall_mem_cons] at hitems
    rw [List.map_cons, List.foldl_cons, h l _ (stripEnd_headerLine hitems.1),
      parseLine_headerLine l hitems.1, ih hitems.2, List.append_assoc]
    rfl

/-- A message that is printed, from its first line to the empty one. -/
theorem foldl_printed (state : HeaderList → σ) (hstrip : ∀ r s, step r (stripEnd s) = step r s)
    (hheader : ∀ l s, stripEnd s ≠ [] → step (state l) s = state (l.parseLine s).2) {r : σ}
    {l : HeaderList} {start : List UInt8} (hstart : OneLine start) (hfirst : step r start = state l)
    {items : List HeaderList.Item} (hitems : ∀ item ∈ items, item.Fits) :
    ∃ headers, printItems items = some headers ∧ ∀ ls,
      SplitAtLineEnds (start ++ ascii "\r\n" ++ headers ++ ascii "\r\n") ls →
      ls.foldl step r = step (state { l with items := l.items ++ items }) [] := by
  obtain ⟨headers, hprint, hlines⟩ := map_lines_printItems hitems
  refine ⟨headers, hprint, fun ls hls => ?_⟩
  have hempty : (lines (ascii "\r\n")).map stripEnd = [[]] :=
    map_lines_append (a := []) (by simp [OneLine]) []
  have hall : ls.map stripEnd = (start :: (items.map headerLine ++ [[]])).map stripEnd := by
    rw [hls, List.append_assoc, map_lines_append hstart, hlines, hempty, List.map_cons,
      stripEnd_of_oneLine hstart, List.map_append, List.map_map]
    congr 2
    exact List.map_congr_left fun item hitem =>
      (stripEnd_of_oneLine (oneLine_headerLine (hitems item hitem))).symm
  rw [foldl_stripEnd step hstrip hall, List.foldl_cons, hfirst, List.foldl_append,
    foldl_headerLine step state hheader hitems]
  rfl

end Steps

/-! ### Requests -/

namespace Request

/-- Calls of `parseLine`. -/
def parseLines (r : Request) (ls : List (List UInt8)) : Request :=
  ls.foldl (fun r s => (r.parseLine s).2) r

/-- A request that is printed so that it can be parsed. -/
structure Fits (r : Request) : Prop where
  method : r.method ≠ [] ∧ OneLine r.method ∧ 0x20 ∉ r.method
  uri : r.uri ≠ [] ∧ OneLine r.uri ∧ 0x20 ∉ r.uri
  version : r.version.1 ≤ 9 ∧ r.version.2 ≤ 9
  items : ∀ item ∈ r.items, item.Fits

/-- The first line. -/
def startLine (r : Request) : List UInt8 :=
  r.method ++ ascii " " ++ r.uri ++ ascii " HTTP/" ++ natToString r.version.1.toNat ++ ascii "." ++
    natToString r.version.2.toNat

theorem parseStartLine_printed (r : Request) {m : Request} (h : m.Fits) :
    r.parseStartLine m.startLine = (true, { r with
      parseRequestLine := false, version := m.version, uri := m.uri, method := m.method,
      methodId := getMethodId m.method }) := by
  obtain ⟨hmethod, -, hblank⟩ := h.method
  obtain ⟨huri, -, hblank'⟩ := h.uri
  obtain ⟨hmajor, -⟩ := natToString_digit h.version.1
  obtain ⟨hminor, -⟩ := natToString_digit h.version.2
  have hline : m.startLine = (m.method ++ 0x20 :: (m.uri ++ [0x20])) ++ (ascii "HTTP/" ++
      natToString m.version.1.toNat ++ ascii "." ++ natToString m.version.2.toNat ++ []) := by
    simp [startLine, ascii, Char.toUInt8]
  have hlength : (m.method ++ 0x20 :: (m.uri ++ [0x20])).length =
      m.method.length + 1 + m.uri.length + 1 := by
    simp
    omega
  have hend : m.startLine.length = m.method.length + 1 + m.uri.length + 1 + 8 := by
    rw [hline, hmajor, hminor, List.length_append, hlength]
    rfl
  have hversion := parseVersion_printed _ m.startLine.length h.version hline (by omega)
  rw [hlength] at hversion
  obtain ⟨rest, hrest⟩ : ∃ rest, m.startLine = m.method ++ 0x20 :: (m.uri ++ 0x20 :: rest) := by
    rw [hline, List.append_assoc]
    simp
  have hp1 : find m.startLine 0x20 0 = some (0 + m.method.length) :=
    find_eq_some (p := []) hrest rfl hblank
  have hp2 : find m.startLine 0x20 (m.method.length + 1) =
      some (m.method.length + 1 + m.uri.length) :=
    find_eq_some (p := m.method ++ [0x20]) (r := rest) (by simp [hrest]) (by simp) hblank'
  have hmethod' : substr m.startLine 0 m.method.length = m.method :=
    substr_eq (p := []) hrest rfl (by simp)
  have huri' : substr m.startLine (m.method.length + 1) (m.method.length + 1 + m.uri.length) =
      m.uri :=
    substr_eq (p := m.method ++ [0x20]) (r := 0x20 :: rest) (by simp [hrest]) (by simp) rfl
  have hpos : m.method.length ≠ 0 := fun hzero => hmethod (List.length_eq_zero_iff.mp hzero)
  rw [Nat.zero_add] at hp1
  unfold parseStartLine
  simp only [hp1, if_neg hpos, hp2, hversion, hmethod', huri', if_neg huri]

theorem parseLine_stripEnd (r : Request) (s : List UInt8) :
    r.parseLine (stripEnd s) = r.parseLine s := by
  unfold parseLine
  rw [stripEnd_stripEnd]
  by_cases hline : stripEnd s = []
  · rw [if_pos hline, if_pos hline]
  · rw [Messages.parseLine_stripEnd r.toHeaderList hline]

theorem startLine_ne_nil (r : Request) : r.startLine ≠ [] := by
  simp [startLine, ascii]

theorem oneLine_startLine {r : Request} (h : r.Fits) : OneLine r.startLine := by
  unfold startLine
  have hblank : OneLine (ascii " ") := oneLine_of_all rfl
  have hversion : OneLine (ascii " HTTP/") := oneLine_of_all rfl
  have hdot : OneLine (ascii ".") := oneLine_of_all rfl
  exact ((((((h.method.2.1.append hblank).append h.uri.2.1).append hversion).append
    (oneLine_natToString _)).append hdot).append (oneLine_natToString _))

/-- A request is parsed as it was printed. -/
theorem parseLines_print {r : Request} (h : r.Fits) : ∃ text, r.print = some text ∧
    ∀ ls, SplitAtLineEnds text ls → new.parseLines ls = { r with
      error := false, parseRequestLine := false, complete := true,
      methodId := getMethodId r.method } := by
  have hfirst : (new.parseLine r.startLine).2 = { new with
      parseRequestLine := false, version := r.version, uri := r.uri, method := r.method,
      methodId := getMethodId r.method } := by
    unfold parseLine
    dsimp only
    rw [stripEnd_of_oneLine (oneLine_startLine h), if_neg r.startLine_ne_nil,
      if_pos (show new.parseRequestLine = true from rfl), parseStartLine_printed new h]
  obtain ⟨headers, hprint, hls⟩ := foldl_printed (fun r s => (parseLine r s).2)
    (fun l => { r with
      toHeaderList := l, parseRequestLine := false, complete := false,
      methodId := getMethodId r.method })
    (fun r s => by rw [parseLine_stripEnd]) (fun l s hs => by simp [parseLine, hs])
    (oneLine_startLine h) hfirst h.items
  refine ⟨r.startLine ++ ascii "\r\n" ++ headers ++ ascii "\r\n", ?_, ?_⟩
  · rw [print, HeaderList.print, hprint]
    rfl
  · intro ls hsplit
    exact hls ls hsplit

end Request

/-! ### Responses -/

namespace Response

/-- Calls of `parseLine`. -/
def parseLines (r : Response) (ls : List (List UInt8)) : Response :=
  ls.foldl (fun r s => (r.parseLine s).2) r

/-- A response that is printed so that it can be parsed. -/
structure Fits (r : Response) : Prop where
  code : 0 ≤ r.code ∧ r.code ≤ 999
  phrase : OneLine r.phrase ∧ r.phrase.getLast?.any isBlank = false
  version : r.version.1 ≤ 9 ∧ r.version.2 ≤ 9
  items : ∀ item ∈ r.items, item.Fits

/-- The first line. -/
def startLine (r : Response) : List UInt8 :=
  ascii "HTTP/" ++ natToString r.version.1.toNat ++ ascii "." ++
    natToString r.version.2.toNat ++ ascii " " ++
    zeroPad 3 (natToString (r.code % 2 ^ 32).toNat) ++ ascii " " ++ r.phrase

/-- A code is printed with three digits. -/
theorem zeroPad_code {code : Int} (h : 0 ≤ code ∧ code ≤ 999) : ∃ a b c,
    zeroPad 3 (natToString (code % 2 ^ 32).toNat) = [a, b, c] ∧
      (isDigit a = true ∧ isDigit b = true ∧ isDigit c = true) ∧
      ((a.toNat : Int) - 0x30) * 100 + ((b.toNat : Int) - 0x30) * 10 + ((c.toNat : Int) - 0x30) =
        code := by
  obtain ⟨n, rfl⟩ := Int.eq_ofNat_of_zero_le h.1
  have hmod : ((n : Int) % 2 ^ 32).toNat = n := by omega
  rw [hmod]
  have hnum : IsNumber (zeroPad 3 (natToString n)) n := isNumber_zeroPad (by omega) (by decide)
  have hle : (natToString n).length ≤ 3 := by
    rw [natToString, List.length_map]
    exact (Nat.length_toDigits_le_iff (by decide) (by decide)).mpr (by omega)
  have hlength : (zeroPad 3 (natToString n)).length = 3 := by
    rw [zeroPad, List.length_append, List.length_replicate]
    omega
  obtain ⟨a, b, c, heq⟩ := List.length_eq_three.mp hlength
  have hdigits := hnum.digits
  have hvalue := hnum.value
  rw [heq] at hdigits hvalue
  have ha := hdigits a (by simp)
  have hb := hdigits b (by simp)
  have hc := hdigits c (by simp)
  refine ⟨a, b, c, heq, ⟨ha, hb, hc⟩, ?_⟩
  simp only [isDigit, Bool.and_eq_true, decide_eq_true_eq, UInt8.le_iff_toNat_le,
    UInt8.reduceToNat] at ha hb hc
  simp only [List.foldl_cons, List.foldl_nil] at hvalue
  omega

theorem parseStatusLine_printed (r : Response) {m : Response} (h : m.Fits) :
    r.parseStatusLine m.startLine = (true, { r with
      parseResponseLine := false, version := m.version, code := m.code, phrase := m.phrase }) := by
  obtain ⟨hmajor, -⟩ := natToString_digit h.version.1
  obtain ⟨hminor, -⟩ := natToString_digit h.version.2
  obtain ⟨a, b, c, hcode, ⟨ha, hb, hc⟩, hvalue⟩ := zeroPad_code h.code
  have hversion : parseVersion m.startLine 0 8 = some m.version := by
    have hstart : m.startLine = [] ++ (ascii "HTTP/" ++ natToString m.version.1.toNat ++
        ascii "." ++ natToString m.version.2.toNat ++ (ascii " " ++
        zeroPad 3 (natToString (m.code % 2 ^ 32).toNat) ++ ascii " " ++ m.phrase)) := by
      simp only [startLine, List.append_assoc, List.nil_append]
    exact parseVersion_printed [] 8 h.version hstart (Nat.le_refl 8)
  have hline : m.startLine = [0x48, 0x54, 0x54, 0x50, 0x2f, 0x30 + m.version.1, 0x2e,
      0x30 + m.version.2, 0x20, a, b, c, 0x20] ++ m.phrase := by
    rw [startLine, hmajor, hminor, hcode]
    rfl
  have hphrase : m.phrase.rdropWhile isBlank = m.phrase := by
    rw [List.rdropWhile_eq_self_iff]
    intro hne hblank
    have hlast := h.phrase.2
    rw [List.getLast?_eq_some_getLast hne] at hlast
    exact absurd hblank (by simpa using hlast)
  have hlength : m.startLine.length = m.phrase.length + 13 := by
    rw [hline]
    rfl
  have hat : ∀ i < 13, m.startLine.getD i 0 = [0x48, 0x54, 0x54, 0x50, 0x2f, 0x30 + m.version.1,
      0x2e, 0x30 + m.version.2, 0x20, a, b, c, 0x20].getD i 0 := by
    intro i hi
    rw [hline, List.getD_append _ _ _ _ hi]
  have h8 : m.startLine.getD 8 0 = 0x20 := hat 8 (by decide)
  have h9 : m.startLine.getD 9 0 = a := hat 9 (by decide)
  have h10 : m.startLine.getD 10 0 = b := hat 10 (by decide)
  have h11 : m.startLine.getD 11 0 = c := hat 11 (by decide)
  have h12 : m.startLine.getD 12 0 = 0x20 := hat 12 (by decide)
  have hdrop : m.startLine.drop 13 = m.phrase := by
    rw [hline]
    rfl
  have hstart : ¬ (m.startLine.length < 12 ∨ m.startLine.getD 8 0 ≠ 0x20) := by
    rw [h8, hlength]
    rintro (hshort | hne)
    · omega
    · exact hne rfl
  unfold parseStatusLine
  dsimp only
  rw [if_neg hstart, hversion]
  simp only [h9, h10, h11, h12, ha, hb, hc, hdrop, hphrase, hvalue, hlength]
  rw [if_neg (by decide), if_pos (by omega), if_neg (by simp)]

theorem parseLine_stripEnd (r : Response) (s : List UInt8) :
    r.parseLine (stripEnd s) = r.parseLine s := by
  unfold parseLine
  rw [stripEnd_stripEnd]
  by_cases hline : stripEnd s = []
  · rw [if_pos hline, if_pos hline]
  · rw [Messages.parseLine_stripEnd r.toHeaderList hline]

theorem startLine_ne_nil (r : Response) : r.startLine ≠ [] := by
  simp [startLine, ascii]

theorem oneLine_startLine {r : Response} (h : r.Fits) : OneLine r.startLine := by
  have hversion : OneLine (ascii "HTTP/") := oneLine_of_all rfl
  have hdot : OneLine (ascii ".") := oneLine_of_all rfl
  have hblank : OneLine (ascii " ") := oneLine_of_all rfl
  have hcode : OneLine (zeroPad 3 (natToString (r.code % 2 ^ 32).toNat)) := by
    refine OneLine.append ?_ (oneLine_natToString _)
    intro c hc
    rw [List.eq_of_mem_replicate hc]
    decide
  exact ((((((hversion.append (oneLine_natToString _)).append hdot).append
    (oneLine_natToString _)).append hblank).append hcode).append hblank).append h.phrase.1

/-- A response is parsed as it was printed. -/
theorem parseLines_print {r : Response} (h : r.Fits) : ∃ text, r.print = some text ∧
    ∀ ls, SplitAtLineEnds text ls → new.parseLines ls = { r with
      error := false, parseResponseLine := false, complete := true } := by
  have hfirst : (new.parseLine r.startLine).2 = { new with
      parseResponseLine := false, version := r.version, code := r.code, phrase := r.phrase } := by
    unfold parseLine
    dsimp only
    rw [stripEnd_of_oneLine (oneLine_startLine h), if_neg r.startLine_ne_nil,
      if_pos (show new.parseResponseLine = true from rfl), parseStatusLine_printed new h]
  obtain ⟨headers, hprint, hls⟩ := foldl_printed (fun r s => (parseLine r s).2)
    (fun l => { r with toHeaderList := l, parseResponseLine := false, complete := false })
    (fun r s => by rw [parseLine_stripEnd]) (fun l s hs => by simp [parseLine, hs])
    (oneLine_startLine h) hfirst h.items
  refine ⟨r.startLine ++ ascii "\r\n" ++ headers ++ ascii "\r\n", ?_, ?_⟩
  · rw [print, HeaderList.print, hprint]
    rfl
  · intro ls hsplit
    exact hls ls hsplit

end Response

/-! ### What the connection reads -/

/-- A header that has been read, as the list keeps it. -/
def kept (i : Http.Item) : HeaderList.Item :=
  ⟨getHeaderId i.name, if getHeaderId i.name = -1 then i.name else [], i.value⟩

/-- The response that the connection reads is this one without the version and the phrase. -/
structure Agrees (m : Response) (r : Http.Response) : Prop where
  items : m.items = r.items.map kept
  error : m.error = r.error
  parseResponseLine : m.parseResponseLine = r.parseResponseLine
  complete : m.complete = r.complete
  code : m.code = r.code

theorem agrees_new : Agrees .new .new := ⟨rfl, rfl, rfl, rfl, rfl⟩

section Agrees

variable {m : Response} {r : Http.Response}

theorem Agrees.fail (h : Agrees m r) : Agrees m.fail.2 r.fail :=
  ⟨h.items, rfl, h.parseResponseLine, h.complete, h.code⟩

theorem Agrees.parseHeaderLine (h : Agrees m r) (s : List UInt8) :
    Agrees { m with toHeaderList := (m.toHeaderList.parseLine s).2 } (r.parseHeaderLine s) := by
  obtain ⟨hitems, herror, hstart, hcomplete, hcode⟩ := h
  unfold HeaderList.parseLine Http.Response.parseHeaderLine
  by_cases hblank : s.head?.any isBlank = true
  · rw [if_pos hblank, if_pos hblank, hitems, List.getLast?_map]
    cases r.items.getLast? with
    | none => exact ⟨hitems, rfl, hstart, hcomplete, hcode⟩
    | some item =>
      refine ⟨?_, herror, hstart, hcomplete, hcode⟩
      simp [kept, List.map_dropLast]
  · rw [if_neg hblank, if_neg hblank]
    cases splitFirst 0x3a s with
    | none => exact ⟨hitems, rfl, hstart, hcomplete, hcode⟩
    | some p =>
      obtain ⟨name, rest⟩ := p
      dsimp only
      by_cases hname : name = [] ∨ name.getLast?.any isBlank = true
      · rw [if_pos hname, if_pos hname]
        exact ⟨hitems, rfl, hstart, hcomplete, hcode⟩
      · rw [if_neg hname, if_neg hname]
        refine ⟨?_, herror, hstart, hcomplete, hcode⟩
        simp [hitems, kept]

theorem parseVersion_isSome (s : List UInt8) :
    (parseVersion s 0 8).isSome = Http.Response.parseVersion s := by
  unfold parseVersion Http.Response.parseVersion
  rw [if_neg (by decide), List.drop_zero]
  by_cases htake : s.take 5 = ascii "HTTP/"
  · rw [if_neg (not_not_intro htake), htake, decide_eq_true rfl, Bool.true_and]
    dsimp only [Nat.zero_add]
    generalize isDigit (s.getD 5 0) = major
    generalize isDigit (s.getD 7 0) = minor
    cases major <;> cases minor <;> rfl
  · rw [if_pos htake]
    simp [htake]

/-- Three digits, and their number. -/
theorem digitsValue_three {a b c : UInt8} (ha : isDigit a = true) (hb : isDigit b = true)
    (hc : isDigit c = true) : (digitsValue [a, b, c] : Int) =
      ((a.toNat : Int) - 0x30) * 100 + ((b.toNat : Int) - 0x30) * 10 +
        ((c.toNat : Int) - 0x30) := by
  have htake : [a, b, c].takeWhile (fun c => 0x30 ≤ c && c ≤ 0x39) = [a, b, c] :=
    List.takeWhile_eq_self_iff.mpr (by simp_all [isDigit])
  rw [digitsValue, htake]
  simp only [isDigit, Bool.and_eq_true, decide_eq_true_eq, UInt8.le_iff_toNat_le,
    UInt8.reduceToNat] at ha hb hc
  simp only [List.foldl_cons, List.foldl_nil]
  omega

theorem take_three {s : List UInt8} (h : 12 ≤ s.length) :
    (s.drop 9).take 3 = [s.getD 9 0, s.getD 10 0, s.getD 11 0] := by
  apply List.ext_getElem
  · simp
    omega
  · intro i hi hi'
    have hi3 : i < 3 := hi'
    have hlt : 9 + i < s.length := by omega
    interval_cases i <;> simp [List.getD_eq_getElem?_getD, hlt]

theorem Agrees.parseStatusLine (h : Agrees m r) (s : List UInt8) :
    Agrees (m.parseStatusLine s).2 (r.parseStatusLine s) := by
  have hversion := parseVersion_isSome s
  unfold Response.parseStatusLine Http.Response.parseStatusLine
  dsimp only
  by_cases hshort : s.length < 12 ∨ s.getD 8 0 ≠ 0x20
  · rw [if_pos hshort, if_pos (by tauto)]
    exact ⟨h.items, rfl, rfl, h.complete, h.code⟩
  rw [if_neg hshort]
  cases hparse : parseVersion s 0 8 with
  | none =>
    rw [hparse] at hversion
    rw [if_pos (.inr (.inr hversion.symm))]
    exact ⟨h.items, rfl, rfl, h.complete, h.code⟩
  | some version =>
    rw [hparse] at hversion
    rw [if_neg (by rw [← hversion]; simpa using hshort)]
    dsimp only
    by_cases hdigits : (!(isDigit (s.getD 9 0) && isDigit (s.getD 10 0) &&
        isDigit (s.getD 11 0))) = true
    · rw [if_pos hdigits, if_pos hdigits]
      exact ⟨h.items, rfl, rfl, h.complete, h.code⟩
    rw [if_neg hdigits, if_neg hdigits]
    simp only [Bool.not_eq_true', Bool.not_eq_false, Bool.and_eq_true] at hdigits
    obtain ⟨⟨h9, h10⟩, h11⟩ := hdigits
    have hcode := digitsValue_three h9 h10 h11
    rw [← take_three (by omega)] at hcode
    by_cases hlong : 12 < s.length <;> by_cases hblank : s.getD 12 0 ≠ 0x20
    · rw [if_pos hlong, if_pos hblank, if_pos ⟨hlong, hblank⟩]
      exact ⟨h.items, rfl, rfl, h.complete, hcode.symm⟩
    · rw [if_pos hlong, if_neg hblank, if_neg (fun h => hblank h.2)]
      exact ⟨h.items, h.error, rfl, h.complete, hcode.symm⟩
    all_goals
      rw [if_neg hlong, if_neg (fun h => hlong h.1)]
      exact ⟨h.items, h.error, rfl, h.complete, hcode.symm⟩

/-- A line leads to the same. -/
theorem Agrees.parseLine (h : Agrees m r) (s : List UInt8) :
    Agrees (m.parseLine s).2 (r.parseLine s) := by
  unfold Response.parseLine Http.Response.parseLine
  rw [show (s.rdropWhile fun c => c = 0x0d || c = 0x0a) = stripEnd s from rfl]
  dsimp only
  have hstart := h.parseResponseLine
  by_cases hline : stripEnd s = [] <;> by_cases hfirst : m.parseResponseLine = true
  · rw [if_pos hline, if_pos hline, if_pos hfirst, if_pos (hstart.symm.trans hfirst)]
    exact h
  · rw [if_pos hline, if_pos hline, if_neg hfirst, if_neg (hstart ▸ hfirst)]
    exact ⟨h.items, h.error, hstart, rfl, h.code⟩
  · rw [if_neg hline, if_neg hline, if_pos hfirst, if_pos (hstart.symm.trans hfirst)]
    exact h.parseStatusLine _
  · rw [if_neg hline, if_neg hline, if_neg hfirst, if_neg (hstart ▸ hfirst)]
    exact h.parseHeaderLine s

/-- The values of a header, which the connection looks for by its name and the list by its number,
unless other names are taken for it. -/
theorem Agrees.headerValues (h : Agrees m r) {id : Int} {w : List UInt8} {name : String}
    (hw : getHeader id = some w) (hcut : id ≠ 34 ∧ id ≠ 35 ∧ id ≠ 53)
    (hname : w.map asciiToLower = ascii name) :
    r.headerValues name = (m.items.filter fun i => i.id = id).map HeaderList.Item.value := by
  have htaken : takenFor id = [w] := by
    rw [takenFor, hw, if_neg hcut.1, if_neg hcut.2.1, if_neg hcut.2.2]
    rfl
  have hiff : ∀ i : Http.Item, (kept i).id = id ↔ i.name.map asciiToLower = ascii name := by
    intro i
    rw [kept, getHeaderId_eq_iff (getHeader_spec hw).1, htaken, ← hname]
    simp
  rw [Http.Response.headerValues, h.items, List.filter_map, List.map_map]
  simp only [Function.comp_def, hiff]
  rfl

/-- The two that it uses. -/
theorem Agrees.headerValues_used (h : Agrees m r) :
    r.headerValues "content-length" =
        (m.items.filter fun i => i.id = 28).map HeaderList.Item.value ∧
      r.headerValues "transfer-encoding" =
        (m.items.filter fun i => i.id = 52).map HeaderList.Item.value :=
  ⟨h.headerValues (w := ascii "Content-Length") rfl (by decide) rfl,
    h.headerValues (w := ascii "Transfer-Encoding") rfl (by decide) rfl⟩

theorem Agrees.parseLines (h : Agrees m r) (ls : List (List UInt8)) :
    Agrees (m.parseLines ls) (ls.foldl Http.Response.parseLine r) := by
  induction ls generalizing m r with
  | nil => exact h
  | cons s ls ih => exact ih (h.parseLine s)

/-- Whatever lines come, the connection and the parser of messages take them for the same response,
and the connection finds the values that decide about the body under the numbers of their names. -/
theorem parseLines_agree (ls : List (List UInt8)) :
    Agrees (Response.new.parseLines ls) (ls.foldl Http.Response.parseLine .new) ∧
      (ls.foldl Http.Response.parseLine .new).headerValues "content-length" =
        ((Response.new.parseLines ls).items.filter fun i => i.id = 28).map
          HeaderList.Item.value ∧
      (ls.foldl Http.Response.parseLine .new).headerValues "transfer-encoding" =
        ((Response.new.parseLines ls).items.filter fun i => i.id = 52).map
          HeaderList.Item.value :=
  ⟨agrees_new.parseLines ls, (agrees_new.parseLines ls).headerValues_used⟩

end Agrees

/-! ### Messages -/

/-- A request or a response that is printed, split at its line ends and given to a new parser line
by line is the same again. -/
theorem parses_printed :
    (∀ r : Request, r.Fits → ∃ text, r.print = some text ∧ ∀ ls, SplitAtLineEnds text ls →
      Request.new.parseLines ls = { r with
        error := false, parseRequestLine := false, complete := true,
        methodId := getMethodId r.method }) ∧
    (∀ r : Response, r.Fits → ∃ text, r.print = some text ∧ ∀ ls, SplitAtLineEnds text ls →
      Response.new.parseLines ls = { r with
        error := false, parseResponseLine := false, complete := true }) :=
  ⟨fun _ h => Request.parseLines_print h, fun _ h => Response.parseLines_print h⟩

/-- A request with a header that has a number and one that has none. -/
def getRoot : Request :=
  ⟨⟨[⟨38, [], ascii "localhost"⟩, ⟨-1, ascii "X-Token", ascii "1 2"⟩], false⟩, true, false, (1, 1),
    ascii "/", ascii "GET", 2⟩

/-- A response without headers. -/
def notFound : Response := ⟨⟨[], false⟩, true, false, (1, 0), 404, ascii "Not Found"⟩

theorem parses_printed_root :
    (∃ text, getRoot.print = some text ∧ Request.new.parseLines (lines text) = { getRoot with
      parseRequestLine := false, complete := true }) ∧
    ∃ text, notFound.print = some text ∧ Response.new.parseLines (lines text) = { notFound with
      parseResponseLine := false, complete := true } := by
  have hroot : getRoot.Fits := by
    refine ⟨⟨by decide, oneLine_of_all rfl, by decide⟩, ⟨by decide, oneLine_of_all rfl, by decide⟩,
      by decide, ?_⟩
    simp only [getRoot, List.forall_mem_cons]
    refine ⟨⟨.inl ⟨rfl, rfl⟩, ?_⟩, ⟨.inr ⟨rfl, ?_, rfl⟩, ?_⟩, by simp⟩
    · exact ⟨oneLine_of_all rfl, rfl, rfl⟩
    · exact validName_of_isWordChar (by decide) rfl
    · exact ⟨oneLine_of_all rfl, rfl, rfl⟩
  have hnotFound : notFound.Fits :=
    ⟨by decide, ⟨oneLine_of_all rfl, rfl⟩, by decide, by simp [notFound]⟩
  obtain ⟨text, hprint, hparse⟩ := parses_printed.1 getRoot hroot
  obtain ⟨text', hprint', hparse'⟩ := parses_printed.2 notFound hnotFound
  exact ⟨⟨text, hprint, hparse _ rfl⟩, text', hprint', hparse' _ rfl⟩

/-- A blank at the end of a phrase is taken off. -/
theorem not_parses_printed : ¬ ∀ r : Response, OneLine r.phrase → (∀ item ∈ r.items, item.Fits) →
    ∃ text, r.print = some text ∧
      (Response.new.parseLines (lines text)).complete = true ∧
      (Response.new.parseLines (lines text)).error = false ∧
      (Response.new.parseLines (lines text)).code = r.code ∧
      (Response.new.parseLines (lines text)).phrase = r.phrase ∧
      (Response.new.parseLines (lines text)).version = r.version ∧
      (Response.new.parseLines (lines text)).items = r.items := by
  intro hclaim
  obtain ⟨text, hprint, -, -, -, hphrase, -⟩ := hclaim
    ⟨⟨[], false⟩, true, false, (1, 1), 200, ascii "OK "⟩ (oneLine_of_all rfl) (by simp)
  cases hprint
  revert hphrase
  decide

end Blacklink.Http.Messages
