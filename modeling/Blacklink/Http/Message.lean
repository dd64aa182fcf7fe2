import Mathlib.Data.List.DropRight
import Blacklink.Text.Numbers
import Blacklink.Text.Split

/-!
# HTTP response heads

Model of `Http::Response` and of the header list below it (`client/HttpMessage.cpp:93-176, 193-254,
354-387`), as far as the connection reads it. A header is known by its name without regard to case,
which is what `getHeaderId` comes to for the two names used. A `Content-Length` that is read has at
most 18 characters, so that its value is an `int64_t`.
-/

namespace Blacklink.Http

open Blacklink.Text

/-- `isWhiteSpace`. -/
def isBlank (c : UInt8) : Bool := c = 0x20 || c = 0x09

/-- `isWhiteSpace2`. -/
def isBlankOrEnd (c : UInt8) : Bool := isBlank c || c = 0x0d || c = 0x0a

/-- `isDigit`. -/
def isDigit (c : UInt8) : Bool := 0x30 ≤ c && c ≤ 0x39

/-- `asciiToLower`. -/
def asciiToLower (c : UInt8) : UInt8 := if 0x41 ≤ c ∧ c ≤ 0x5a then c + 0x20 else c

/-- `HeaderList::Item`. -/
structure Item where
  name : List UInt8
  value : List UInt8
  deriving DecidableEq

/-- `Http::Response` with its header list. -/
structure Response where
  items : List Item
  error : Bool
  parseResponseLine : Bool
  complete : Bool
  code : Nat
  deriving DecidableEq

namespace Response

/-- `clear`. -/
def new : Response := ⟨[], false, true, false, 0⟩

variable (r : Response)

/-- `error = true`. -/
def fail : Response := { r with error := true }

/-- `HeaderList::parseLine`. -/
def parseHeaderLine (s : List UInt8) : Response :=
  if s.head?.any isBlank then
    match r.items.getLast? with
    | none => r.fail
    | some item =>
      let text := (s.dropWhile isBlank).rdropWhile isBlankOrEnd
      { r with items := r.items.dropLast ++ [{ item with value := item.value ++ 0x20 :: text }] }
  else
    match splitFirst 0x3a s with
    | none => r.fail
    | some (name, rest) =>
      if name = [] ∨ name.getLast?.any isBlank then r.fail
      else
        { r with items := r.items ++ [⟨name, (rest.rdropWhile isBlankOrEnd).dropWhile isBlank⟩] }

/-- `parseVersion` of the first eight characters. -/
def parseVersion (s : List UInt8) : Bool :=
  s.take 5 = ascii "HTTP/" && isDigit (s.getD 5 0) && isDigit (s.getD 7 0)

/-- The first line. -/
def parseStatusLine (s : List UInt8) : Response :=
  let r := { r with parseResponseLine := false }
  if s.length < 12 ∨ s.getD 8 0 ≠ 0x20 ∨ parseVersion s = false then r.fail
  else if !(isDigit (s.getD 9 0) && isDigit (s.getD 10 0) && isDigit (s.getD 11 0)) then r.fail
  else
    let r := { r with code := digitsValue ((s.drop 9).take 3) }
    if 12 < s.length ∧ s.getD 12 0 ≠ 0x20 then r.fail else r

/-- `parseLine`. -/
def parseLine (s : List UInt8) : Response :=
  let text := s.rdropWhile fun c => c = 0x0d || c = 0x0a
  if text = [] then if r.parseResponseLine then r else { r with complete := true }
  else if r.parseResponseLine then r.parseStatusLine text
  else r.parseHeaderLine s

/-- The values of the headers with a name. -/
def headerValues (name : String) : List (List UInt8) :=
  (r.items.filter fun i => i.name.map asciiToLower = ascii name).map Item.value

/-- `stringToInt` with the position behind the number. -/
def readInt (s : List UInt8) : Int × Nat :=
  match s with
  | 0x2d :: t => (-(digitsValue t : Int), (t.takeWhile isDigit).length + 1)
  | 0x2b :: t => (digitsValue t, (t.takeWhile isDigit).length + 1)
  | t => (digitsValue t, (t.takeWhile isDigit).length)

/-- `parseContentLength`. -/
def parseContentLength : Response × Int :=
  match r.headerValues "content-length" with
  | [] => (r, -1)
  | [value] =>
    if 18 < value.length then (r.fail, -1)
    else if (readInt value).2 ≠ value.length then (r.fail, -1)
    else (r, (readInt value).1)
  | _ => (r.fail, -1)

/-- The transfer coding is `chunked`. -/
def isChunked : Bool :=
  let coding := ((r.headerValues "transfer-encoding").headD []).takeWhile (· ≠ 0x3b)
  ((coding.dropWhile isWhiteSpace).rdropWhile isWhiteSpace).map asciiToLower = ascii "chunked"

end Response

example : (["HTTP/1.1 200 OK\r", "Content-length:  5 \r", "\r"].map ascii).foldl Response.parseLine
    .new = ⟨[⟨ascii "Content-length", ascii "5"⟩], false, false, true, 200⟩ := by decide

end Blacklink.Http
