import Blacklink.Base.Run
import Blacklink.Http.Message

/-!
# The body of an HTTP response

What a response is under the framing of HTTP/1.1, one byte after the other: where its body begins
and ends and which bytes are part of it. Only the head is read with the functions of
`Http::Response`. A body without a size ends with the connection, so that it is never complete here.
-/

namespace Blacklink.Http

open Blacklink.Base Blacklink.Text

/-- The value of a hexadecimal digit. -/
def hexDigit (c : UInt8) : Option Nat :=
  if 0x30 ≤ c ∧ c ≤ 0x39 then some (c.toNat - 0x30)
  else if 0x41 ≤ c ∧ c ≤ 0x46 then some (c.toNat - 0x41 + 10)
  else if 0x61 ≤ c ∧ c ≤ 0x66 then some (c.toNat - 0x61 + 10)
  else none

/-- A hexadecimal digit. -/
def isHexDigit (c : UInt8) : Bool := (hexDigit c).isSome

/-- The value of hexadecimal digits. -/
def hexValue (s : List UInt8) : Nat := s.foldl (fun n c => n * 16 + (hexDigit c).getD 0) 0

/-! ### What a head announces -/

namespace Response

variable (r : Response)

/-- The response has no body. -/
def noBody : Bool := r.code = 204 || r.code = 304

/-- The name of a transfer coding, without parameters. -/
def codingName (coding : List UInt8) : List UInt8 :=
  (((coding.takeWhile (· ≠ 0x3b)).dropWhile isWhiteSpace).rdropWhile isWhiteSpace).map asciiToLower

/-- The last of the transfer codings is `chunked`. -/
def chunkedLast : Bool :=
  let codings := (r.headerValues "transfer-encoding").flatMap (List.splitOn 0x2c)
  ((codings.map codingName).filter (· ≠ [])).getLast? = some (ascii "chunked")

end Response

/-- The size of the chunk of a chunk-size line without its line feed: hexadecimal digits, then an
extension or nothing, then a carriage return. -/
def chunkSizeOf (line : List UInt8) : Option Nat :=
  let digits := line.takeWhile isHexDigit
  let rest := line.dropWhile isHexDigit
  if digits = [] then none
  else if rest = [0x0d] ∨
      (rest.dropWhile isBlank).head? = some 0x3b ∧ rest.getLast? = some 0x0d then
    some (hexValue digits)
  else none

/-- What is expected next. Of a line, the bytes so far; of a block of bytes, how many are left. -/
inductive Phase where
  | head (resp : Response) (line : List UInt8)
  | block (left : Nat) (chunk : Bool)
  | chunkSize (line : List UInt8)
  | chunkCr
  | chunkLf
  | untilClose
  | complete
  | malformed
  deriving DecidableEq

namespace Phase

/-- Behind a head with a size of the body, or none. -/
def bodyStart (r : Response) (length : Option Nat) : Phase :=
  if r.noBody then .complete
  else if r.chunkedLast then .chunkSize []
  else
    match length with
    | none => .untilClose
    | some 0 => .complete
    | some (n + 1) => .block (n + 1) false

/-- Behind a head. A `Content-Length` is a single one, of digits only. -/
def body (r : Response) : Phase :=
  match r.headerValues "content-length" with
  | [] => bodyStart r none
  | [value] =>
    if value ≠ [] ∧ value.all isDigit then bodyStart r (some (digitsValue value)) else .malformed
  | _ => .malformed

/-- Behind a line of the head. -/
def headLine (r : Response) : Phase :=
  if r.error then .malformed else if r.complete then body r else .head r []

/-- Behind a chunk-size line. -/
def sizeLine (line : List UInt8) : Phase :=
  match chunkSizeOf line with
  | none => .malformed
  | some 0 => .complete
  | some (n + 1) => .block (n + 1) true

/-- Behind a block of bytes. -/
def blockEnd (chunk : Bool) : Phase := if chunk then .chunkCr else .complete

end Phase

/-- A response up to some byte, and its body so far. -/
structure Framing where
  phase : Phase
  body : List UInt8
  deriving DecidableEq

namespace Framing

/-- Nothing of the response is there. -/
def start : Framing := ⟨.head .new [], []⟩

/-- One byte. -/
def feed (m : Framing) (b : UInt8) : Framing :=
  match m.phase with
  | .head r line =>
    { m with phase := if b = 0x0a then .headLine (r.parseLine line) else .head r (line ++ [b]) }
  | .block left chunk =>
    ⟨if left ≤ 1 then .blockEnd chunk else .block (left - 1) chunk, m.body ++ [b]⟩
  | .chunkSize line =>
    { m with phase := if b = 0x0a then .sizeLine line else .chunkSize (line ++ [b]) }
  | .chunkCr => { m with phase := if b = 0x0d then .chunkLf else .malformed }
  | .chunkLf => { m with phase := if b = 0x0a then .chunkSize [] else .malformed }
  | .untilClose => { m with body := m.body ++ [b] }
  | .complete => m
  | .malformed => m

/-- The response that the bytes begin with. -/
def frame (bytes : List UInt8) : Framing := run feed start bytes

example : frame (["HTTP/1.1 200 OK\r\n", "Transfer-Encoding: gzip, chunked\r\n", "\r\n",
    "3;a=b\r\n", "foo\r\n", "0\r\n", "\r\n"].flatMap ascii) = ⟨.complete, ascii "foo"⟩ := by
  decide

/-! ### Runs -/

theorem run_complete (body bytes : List UInt8) :
    run feed ⟨.complete, body⟩ bytes = ⟨.complete, body⟩ := by
  induction bytes with
  | nil => rfl
  | cons b bytes ih => exact ih

theorem run_malformed (body bytes : List UInt8) :
    run feed ⟨.malformed, body⟩ bytes = ⟨.malformed, body⟩ := by
  induction bytes with
  | nil => rfl
  | cons b bytes ih => exact ih

theorem run_untilClose (body bytes : List UInt8) :
    run feed ⟨.untilClose, body⟩ bytes = ⟨.untilClose, body ++ bytes⟩ := by
  induction bytes generalizing body with
  | nil => rw [run_nil, List.append_nil]
  | cons b bytes ih =>
    rw [List.append_cons]
    exact ih _

/-- A line of the head. -/
theorem run_head (r : Response) (start body : List UInt8) {line : List UInt8}
    (h : (0x0a : UInt8) ∉ line) :
    run feed ⟨.head r start, body⟩ (line ++ [0x0a]) =
      ⟨.headLine (r.parseLine (start ++ line)), body⟩ := by
  induction line generalizing start with
  | nil => rw [List.append_nil]; rfl
  | cons b line ih =>
    rw [List.mem_cons, not_or] at h
    have hfeed : feed ⟨.head r start, body⟩ b = ⟨.head r (start ++ [b]), body⟩ := by
      simp only [feed, if_neg (Ne.symm h.1)]
    rw [List.cons_append, run_cons, hfeed, ih _ h.2, ← List.append_cons]

/-- A chunk-size line. -/
theorem run_chunkSize (start body : List UInt8) {line : List UInt8} (h : (0x0a : UInt8) ∉ line) :
    run feed ⟨.chunkSize start, body⟩ (line ++ [0x0a]) = ⟨.sizeLine (start ++ line), body⟩ := by
  induction line generalizing start with
  | nil => rw [List.append_nil]; rfl
  | cons b line ih =>
    rw [List.mem_cons, not_or] at h
    have hfeed : feed ⟨.chunkSize start, body⟩ b = ⟨.chunkSize (start ++ [b]), body⟩ := by
      simp only [feed, if_neg (Ne.symm h.1)]
    rw [List.cons_append, run_cons, hfeed, ih _ h.2, ← List.append_cons]

/-- The line behind a chunk is a lone carriage return. -/
theorem run_chunkCr (body : List UInt8) {line : List UInt8} (h : (0x0a : UInt8) ∉ line) :
    run feed ⟨.chunkCr, body⟩ (line ++ [0x0a]) =
      ⟨if line = [0x0d] then .chunkSize [] else .malformed, body⟩ := by
  cases line with
  | nil => rfl
  | cons b line =>
    rw [List.mem_cons, not_or] at h
    by_cases hb : b = 0x0d
    · subst hb
      cases line with
      | nil => rfl
      | cons b' line =>
        have hne : b' ≠ 0x0a := fun heq => h.2 (heq ▸ List.mem_cons_self)
        have hfeed : feed ⟨.chunkLf, body⟩ b' = ⟨.malformed, body⟩ := by
          simp only [feed, if_neg hne]
        rw [if_neg (by simp), List.cons_append, run_cons, List.cons_append, run_cons]
        change run feed (feed ⟨.chunkLf, body⟩ b') _ = _
        rw [hfeed, run_malformed]
    · have hfeed : feed ⟨.chunkCr, body⟩ b = ⟨.malformed, body⟩ := by
        simp only [feed, if_neg hb]
      rw [if_neg (by simp [hb]), List.cons_append, run_cons, hfeed, run_malformed]

/-- Bytes of a block, up to all of it. -/
theorem run_block {left : Nat} (chunk : Bool) (body : List UInt8) {bytes : List UInt8}
    (hne : bytes ≠ []) (hlen : bytes.length ≤ left) :
    run feed ⟨.block left chunk, body⟩ bytes =
      ⟨if bytes.length = left then .blockEnd chunk else .block (left - bytes.length) chunk,
        body ++ bytes⟩ := by
  induction bytes generalizing left body with
  | nil => exact absurd rfl hne
  | cons b bytes ih =>
    rw [List.length_cons] at hlen ⊢
    rw [run_cons, feed]
    dsimp only
    cases bytes with
    | nil =>
      rw [run_nil, List.length_nil]
      rcases Nat.lt_or_ge 1 left with h | h
      · rw [if_neg (by omega), if_neg (by omega)]
      · rw [if_pos h, if_pos (by omega)]
    | cons b' bytes =>
      rw [List.length_cons] at hlen
      rw [if_neg (by omega), ih _ (List.cons_ne_nil _ _) (by rw [List.length_cons]; omega),
        List.length_cons, Nat.sub_sub, Nat.add_comm 1, ← List.append_cons]
      congr 1
      split
      · rw [if_pos (by omega)]
      · rw [if_neg (by omega)]

end Framing

end Blacklink.Http
