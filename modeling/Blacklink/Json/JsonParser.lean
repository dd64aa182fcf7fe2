import Blacklink.Text.Utf8

/-!
# The JSON parser

Model of `JsonParser` (`client/JsonParser.h`, `client/JsonParser.cpp:5-637`). The stack of open
structures has the last one pushed first. `stateFlags` has eight bits, all that the flags of the
source use. The calls of the virtual functions are kept in the order they are made; whether one of
them aborts the parsing is a function of the calls made so far.

In `process` the character that ends a number or a keyword is looked at again by the next pass of
the loop, in `STATE_WHITESPACE`. The loop is written as a recursion over the characters, and that
pass belongs to the character before the recursion goes on.
-/

namespace Blacklink.Json

open Blacklink.Text

/-- The error codes, but for `NO_ERROR`. -/
inductive JsonError where
  | parsingAborted
  | noData
  | invalidState
  | maxNestingExceeded
  | unexpectedCharacter
  | colonExpected
  | stringExpected
  | unknownKeyword
  | unescapedCharacter
  | invalidEscape
  | invalidNumber
  | stringNotTerminated
  | compoundTypeNotClosed
  | trailingCommaNotAllowed
  | keywordNotAllowed
  | invalidUtf8
  | invalidBom
  deriving DecidableEq

/-- The types of values. -/
inductive ValueType where
  | null
  | bool
  | int
  | float
  | string
  | array
  | object
  deriving DecidableEq

/-- The flags of a parser. -/
structure Flags where
  validateUtf8 : Bool
  strictNumberChecks : Bool
  allowBareNames : Bool
  allowTrailingComma : Bool
  allowComments : Bool
  deriving DecidableEq

/-- `STATE_WHITESPACE` and the other states. -/
inductive State where
  | whitespace
  | error
  | string
  | number
  | keyword
  | comment
  deriving DecidableEq

/-- `EXPECT_ANYTHING` and the other expectations. -/
inductive Expect where
  | anything
  | nothing
  | arrayItem
  | arrayComma
  | objectComma
  | keyName
  | keyValue
  | colon
  deriving DecidableEq

/-- `STATE_FLAG_COMMA`. -/
def flagComma : BitVec 8 := 0x01

/-- `STATE_FLAG_QUOTE`. -/
def flagQuote : BitVec 8 := 0x02

/-- `STATE_FLAG_FLOAT`. -/
def flagFloat : BitVec 8 := 0x02

/-- `STATE_FLAG_WANT_DIGIT`. -/
def flagWantDigit : BitVec 8 := 0x04

/-- `STATE_FLAG_FRAC`. -/
def flagFrac : BitVec 8 := 0x08

/-- `STATE_FLAG_WANT_FRAC_DIGIT`. -/
def flagWantFracDigit : BitVec 8 := 0x10

/-- `STATE_FLAG_EXP`. -/
def flagExp : BitVec 8 := 0x20

/-- `STATE_FLAG_WANT_EXP_DIGIT`. -/
def flagWantExpDigit : BitVec 8 := 0x40

/-- `STATE_FLAG_EXP_SIGN`. -/
def flagExpSign : BitVec 8 := 0x80

/-- `STATE_FLAG_START_COMMENT`. -/
def flagStartComment : BitVec 8 := 0x02

/-- `STATE_FLAG_SINGLE_LINE_COMMENT`. -/
def flagSingleLineComment : BitVec 8 := 0x04

/-- `STATE_FLAG_END_COMMENT`. -/
def flagEndComment : BitVec 8 := 0x08

/-- A call of one of the virtual functions. -/
inductive Call where
  | namedValue (key value : List UInt8) (type : ValueType)
  | value (value : List UInt8) (type : ValueType)
  | endStructure (type : ValueType)
  | comment (text : List UInt8)
  deriving DecidableEq

/-- The fields of `JsonParser` that the states work on, and the calls so far. -/
structure Parser where
  flags : Flags
  st : List ValueType
  state : State
  stateFlags : BitVec 8
  expect : Expect
  token : List UInt8
  keyName : List UInt8
  hasKeyName : Bool
  valueFound : Bool
  calls : List Call
  deriving DecidableEq

/-- The fields of `JsonParser`. `bomPos` is `none` for -1. -/
structure JsonParser where
  parser : Parser
  bomPos : Option Nat
  totalProcessed : Nat
  errorPos : Nat
  deriving DecidableEq

/-- `maxNesting`. -/
def maxNesting : Nat := 512

/-- A parser before the first character. -/
def Parser.new (flags : Flags) : Parser where
  flags := flags
  st := []
  state := .whitespace
  stateFlags := 0
  expect := .anything
  token := []
  keyName := []
  hasKeyName := false
  valueFound := false
  calls := []

/-- `JsonParser()` and `setFlags`. -/
def JsonParser.new (flags : Flags) : JsonParser := ⟨.new flags, some 0, 0, 0⟩

/-- Whether the last of the calls lets the parsing go on. -/
abbrev Listener := List Call → Bool

/-- What a member function does: an error, with the parser as it is then, or not. -/
abbrev Result (α : Type) := Except (JsonError × Parser) α

/-! ### Escapes -/

/-- `getHexDigit`. -/
def getHexDigit (c : UInt8) : Option Nat :=
  if '0'.toUInt8 ≤ c ∧ c ≤ '9'.toUInt8 then some (c.toNat - '0'.toNat)
  else if 'a'.toUInt8 ≤ c ∧ c ≤ 'f'.toUInt8 then some (c.toNat - 'a'.toNat + 10)
  else if 'A'.toUInt8 ≤ c ∧ c ≤ 'F'.toUInt8 then some (c.toNat - 'A'.toNat + 10)
  else none

/-- `getHexChar`. -/
def getHexChar (c1 c2 c3 c4 : UInt8) : Option Nat :=
  match getHexDigit c1, getHexDigit c2, getHexDigit c3, getHexDigit c4 with
  | some h1, some h2, some h3, some h4 => some (h1 <<< 12 ||| h2 <<< 8 ||| h3 <<< 4 ||| h4)
  | _, _, _, _ => none

/-- The character of an escape of two characters. -/
def escapedChar (c : UInt8) : Option Nat :=
  if c = '\\'.toUInt8 then some 0x5c
  else if c = '"'.toUInt8 then some 0x22
  else if c = '/'.toUInt8 then some 0x2f
  else if c = 'b'.toUInt8 then some 0x08
  else if c = 'f'.toUInt8 then some 0x0c
  else if c = 'n'.toUInt8 then some 0x0a
  else if c = 'r'.toUInt8 then some 0x0d
  else if c = 't'.toUInt8 then some 0x09
  else none

/-- The variables of `unescape`: what has been written so far, and in `prevSurrogate` 0 or the first
half of a character, read at `prevSurrogatePos`. -/
structure Unescape where
  readPos : Nat
  prevSurrogatePos : Nat
  prevSurrogate : Nat
  written : List UInt8
  deriving DecidableEq

/-- What `unescape` makes of the character of an escape. -/
def Unescape.put (u : Unescape) (chr escapeLen : Nat) : Except JsonError Unescape :=
  if 0xd800 ≤ chr ∧ chr < 0xdc00 then
    if u.prevSurrogate ≠ 0 then .error .invalidEscape
    else
      .ok { u with
        readPos := u.readPos + 6, prevSurrogatePos := u.readPos, prevSurrogate := chr }
  else if 0xdc00 ≤ chr ∧ chr < 0xe000 then
    if u.prevSurrogate = 0 ∨ u.prevSurrogatePos + 6 ≠ u.readPos then .error .invalidEscape
    else
      .ok { u with
        readPos := u.readPos + escapeLen
        prevSurrogatePos := 0
        prevSurrogate := 0
        written := u.written ++
          wcToUtf8 ((chr - 0xdc00 ||| (u.prevSurrogate - 0xd800) <<< 10) + 0x10000) }
  else if u.prevSurrogate ≠ 0 then .error .invalidEscape
  else .ok { u with readPos := u.readPos + escapeLen, written := u.written ++ wcToUtf8 chr }

/-- The loop of `unescape`, over the characters from `readPos` on. -/
def unescapeLoop : Unescape → List UInt8 → Except JsonError (List UInt8)
  | u, [] => if u.prevSurrogate ≠ 0 then .error .invalidEscape else .ok u.written
  | u, c :: rest =>
    if c ≠ '\\'.toUInt8 then
      unescapeLoop { u with readPos := u.readPos + 1, written := u.written ++ [c] } rest
    else
      match rest with
      | [] => .error .invalidEscape
      | e :: rest =>
        if e = 'u'.toUInt8 then
          match rest with
          | c1 :: c2 :: c3 :: c4 :: rest =>
            match getHexChar c1 c2 c3 c4 with
            | none => .error .invalidEscape
            | some chr =>
              match u.put chr 6 with
              | .error err => .error err
              | .ok u => unescapeLoop u rest
          | _ => .error .invalidEscape
        else
          match escapedChar e with
          | none => .error .invalidEscape
          | some chr =>
            match u.put chr 2 with
            | .error err => .error err
            | .ok u => unescapeLoop u rest

/-- `unescape`. -/
def unescape (s : List UInt8) : Except JsonError (List UInt8) := unescapeLoop ⟨0, 0, 0, []⟩ s

/-! ### Values -/

/-- A call of a virtual function. -/
def Parser.call (cb : Listener) (p : Parser) (call : Call) : Result Parser :=
  if cb (p.calls ++ [call]) then .ok { p with calls := p.calls ++ [call] }
  else .error (.parsingAborted, { p with calls := p.calls ++ [call] })

/-- `onNamedValue` or `onValue`. -/
def Parser.onAnyValue (cb : Listener) (p : Parser) (value : List UInt8) (type : ValueType) :
    Result Parser :=
  if p.hasKeyName then
    match p.call cb (.namedValue p.keyName value type) with
    | .error e => .error e
    | .ok p => .ok { p with keyName := [], hasKeyName := false }
  else p.call cb (.value value type)

/-- `updateExpect`. -/
def Parser.updateExpect (p : Parser) : Parser :=
  { p with expect :=
      match p.st with
      | [] => .nothing
      | .object :: _ => .objectComma
      | _ :: _ => .arrayComma }

/-- The characters of `data` from `start` up to `pos`. -/
def slice (data : List UInt8) (start pos : Nat) : List UInt8 := (data.drop start).take (pos - start)

/-- `handleString`. -/
def handleString (cb : Listener) (data : List UInt8) (start pos : Nat) (p : Parser) :
    Result Parser :=
  match unescape (p.token ++ slice data start pos) with
  | .error e => .error (e, { p with token := [] })
  | .ok token =>
    if p.flags.validateUtf8 && !validateUtf8 token then
      .error (.invalidUtf8, { p with token := token })
    else if p.expect = .keyName then
      .ok { p with expect := .colon, keyName := token, hasKeyName := true, token := [] }
    else
      match { p with token := token }.onAnyValue cb token .string with
      | .error e => .error e
      | .ok p => .ok { p.updateExpect with stateFlags := 0, token := [], valueFound := true }

/-- The additional checks of `FLAG_STRICT_NUMBER_CHECKS`. -/
def badNumber (token : List UInt8) : Bool :=
  let c0 := token.getD 0 0
  let c1 := token.getD 1 0
  let c2 := if 2 < token.length then token.getD 2 0 else 0
  c0 = '-'.toUInt8 && c1 = '0'.toUInt8 &&
      !(c2 = '.'.toUInt8 || c2 = 'e'.toUInt8 || c2 = 'E'.toUInt8 || c2 = 0) ||
    c0 = '0'.toUInt8 && !(c1 = '.'.toUInt8 || c1 = 'e'.toUInt8 || c1 = 'E'.toUInt8)

/-- `handleNumber`. -/
def handleNumber (cb : Listener) (data : List UInt8) (start pos : Nat) (p : Parser) :
    Result Parser :=
  if p.stateFlags &&& (flagWantDigit ||| flagWantExpDigit ||| flagWantFracDigit) ≠ 0 then
    .error (.invalidNumber, p)
  else
    let token := p.token ++ slice data start pos
    if p.flags.strictNumberChecks && 2 ≤ token.length && badNumber token then
      .error (.invalidNumber, { p with token := token })
    else
      let type := if p.stateFlags &&& flagFloat ≠ 0 then ValueType.float else .int
      match { p with token := token }.onAnyValue cb token type with
      | .error e => .error e
      | .ok p => .ok { p.updateExpect with stateFlags := 0, token := [], valueFound := true }

/-- The type of a keyword that is a value. -/
def keywordType (token : List UInt8) : Option ValueType :=
  if token = ascii "null" then some .null
  else if token = ascii "false" then some .bool
  else if token = ascii "true" then some .bool
  else none

/-- `handleKeyword`. -/
def handleKeyword (cb : Listener) (data : List UInt8) (start pos : Nat) (p : Parser) :
    Result Parser :=
  let p := { p with token := p.token ++ slice data start pos }
  if p.expect = .keyName then
    if (keywordType p.token).isSome then .error (.keywordNotAllowed, p)
    else if p.flags.validateUtf8 && !validateUtf8 p.token then .error (.invalidUtf8, p)
    else .ok { p with expect := .colon, keyName := p.token, hasKeyName := true, token := [] }
  else
    match keywordType p.token with
    | none => .error (.unknownKeyword, p)
    | some type =>
      match p.onAnyValue cb p.token type with
      | .error e => .error e
      | .ok p => .ok { p.updateExpect with token := [], valueFound := true }

/-- `handleComment`. -/
def handleComment (cb : Listener) (data : List UInt8) (start pos : Nat) (p : Parser) :
    Result Parser :=
  let p := { p with token := p.token ++ slice data start pos }
  match p.call cb (.comment p.token) with
  | .error e => .error e
  | .ok p => .ok { p with token := [] }

/-- `beginStructure`. -/
def beginStructure (cb : Listener) (type : ValueType) (p : Parser) : Result Parser :=
  if maxNesting ≤ p.st.length then .error (.maxNestingExceeded, p)
  else
    match p.onAnyValue cb [] type with
    | .error e => .error e
    | .ok p =>
      .ok { p with
        st := type :: p.st
        expect := if type = .array then .arrayItem else .keyName
        stateFlags := p.stateFlags &&& ~~~flagComma }

/-- `endStructure`. -/
def endStructure (cb : Listener) (type : ValueType) (p : Parser) : Result Parser :=
  if p.st.head? ≠ some type then .error (.unexpectedCharacter, p)
  else
    match p.call cb (.endStructure type) with
    | .error e => .error e
    | .ok p => .ok { { p with st := p.st.tail }.updateExpect with valueFound := true }

/-! ### The states -/

/-- `isWhiteSpace`. -/
def isWhiteSpace (c : UInt8) : Bool :=
  c = ' '.toUInt8 || c = '\t'.toUInt8 || c = '\r'.toUInt8 || c = '\n'.toUInt8

/-- A digit. -/
def isDigit (c : UInt8) : Bool := '0'.toUInt8 ≤ c && c ≤ '9'.toUInt8

/-- A character that begins a keyword. -/
def isKeywordStart (c : UInt8) : Bool :=
  ('a'.toUInt8 ≤ c && c ≤ 'z'.toUInt8) || ('A'.toUInt8 ≤ c && c ≤ 'Z'.toUInt8) || c = '_'.toUInt8

/-- There must be something else before another value. -/
def Expect.noValue (e : Expect) : Bool := e = .arrayComma || e = .objectComma || e = .nothing

/-- A `]` or `}`, for the structure it ends. -/
def closing (cb : Listener) (type : ValueType) (other : Expect) (tokenStart : Nat) (p : Parser) :
    Result (Parser × Nat) :=
  if p.expect = .colon then .error (.colonExpected, p)
  else if p.expect = .keyValue ∨ p.expect = other ∨ p.expect = .nothing then
    .error (.unexpectedCharacter, p)
  else if p.stateFlags &&& flagComma ≠ 0 ∧ p.flags.allowTrailingComma = false then
    .error (.trailingCommaNotAllowed, { p with stateFlags := p.stateFlags ^^^ flagComma })
  else
    let flags :=
      if p.stateFlags &&& flagComma ≠ 0 then p.stateFlags ^^^ flagComma else p.stateFlags
    match endStructure cb type { p with stateFlags := flags } with
    | .error e => .error e
    | .ok p => .ok (p, tokenStart)

/-- `STATE_WHITESPACE`. The parser behind the character, and `tokenStart`. -/
def caseWhitespace (cb : Listener) (tokenStart pos : Nat) (c : UInt8) (p : Parser) :
    Result (Parser × Nat) :=
  if c = '"'.toUInt8 then
    if p.expect = .colon then .error (.colonExpected, p)
    else if p.expect.noValue then .error (.unexpectedCharacter, p)
    else .ok ({ p with state := .string, stateFlags := 0 }, pos + 1)
  else if isDigit c || c = '-'.toUInt8 then
    if p.expect = .colon then .error (.colonExpected, p)
    else if p.expect = .keyName then .error (.stringExpected, p)
    else if p.expect.noValue then .error (.unexpectedCharacter, p)
    else
      let flags := if c = '-'.toUInt8 then flagWantDigit else 0
      .ok ({ p with state := .number, stateFlags := flags }, pos)
  else if isKeywordStart c then
    if p.expect = .colon then .error (.colonExpected, p)
    else if p.expect = .keyName ∧ p.flags.allowBareNames = false then .error (.stringExpected, p)
    else if p.expect.noValue then .error (.unexpectedCharacter, p)
    else .ok ({ p with state := .keyword, stateFlags := 0 }, pos)
  else if c = ','.toUInt8 then
    if p.expect = .arrayComma then
      .ok ({ p with expect := .arrayItem, stateFlags := flagComma }, tokenStart)
    else if p.expect = .objectComma then
      .ok ({ p with expect := .keyName, stateFlags := flagComma }, tokenStart)
    else .error (.unexpectedCharacter, p)
  else if c = ':'.toUInt8 then
    if p.expect ≠ .colon then .error (.unexpectedCharacter, p)
    else .ok ({ p with expect := .keyValue }, tokenStart)
  else if c = '['.toUInt8 ∨ c = '{'.toUInt8 then
    if p.expect = .colon then .error (.colonExpected, p)
    else if p.expect = .keyName then .error (.stringExpected, p)
    else if p.expect.noValue then .error (.unexpectedCharacter, p)
    else
      match beginStructure cb (if c = '['.toUInt8 then .array else .object) p with
      | .error e => .error e
      | .ok p => .ok (p, tokenStart)
  else if c = ']'.toUInt8 then closing cb .array .objectComma tokenStart p
  else if c = '}'.toUInt8 then closing cb .object .arrayComma tokenStart p
  else if isWhiteSpace c then .ok (p, tokenStart)
  else if c = '/'.toUInt8 ∧ p.flags.allowComments then
    let flags := (p.stateFlags &&& flagComma) ||| flagStartComment
    .ok ({ p with state := .comment, stateFlags := flags }, pos + 1)
  else .error (.unexpectedCharacter, p)

/-- What a state makes of a character: it is taken, with `tokenStart` behind it, or it is looked at
again in `STATE_WHITESPACE`. -/
inductive Move where
  | next (p : Parser) (tokenStart : Nat)
  | again (p : Parser)
  deriving DecidableEq

/-- `STATE_STRING`. -/
def caseString (cb : Listener) (data : List UInt8) (tokenStart pos : Nat) (c : UInt8)
    (p : Parser) : Result Move :=
  if c = '"'.toUInt8 then
    if p.stateFlags &&& flagQuote ≠ 0 then
      .ok (.next { p with stateFlags := p.stateFlags &&& ~~~flagQuote } tokenStart)
    else
      match handleString cb data tokenStart pos p with
      | .error e => .error e
      | .ok p => .ok (.next { p with state := .whitespace } 0)
  else if c < 0x20 then .error (.unescapedCharacter, p)
  else if c = '\\'.toUInt8 then
    .ok (.next { p with stateFlags := p.stateFlags ^^^ flagQuote } tokenStart)
  else .ok (.next { p with stateFlags := p.stateFlags &&& ~~~flagQuote } tokenStart)

/-- `STATE_NUMBER`. -/
def caseNumber (cb : Listener) (data : List UInt8) (tokenStart pos : Nat) (c : UInt8)
    (p : Parser) : Result Move :=
  if c = '.'.toUInt8 then
    if p.stateFlags &&& (flagFrac ||| flagExp ||| flagWantDigit) ≠ 0 then
      .error (.invalidNumber, p)
    else
      let flags := p.stateFlags ||| (flagFrac ||| flagWantFracDigit ||| flagFloat)
      .ok (.next { p with stateFlags := flags } tokenStart)
  else if c = 'e'.toUInt8 ∨ c = 'E'.toUInt8 then
    if p.stateFlags &&& (flagExp ||| flagWantFracDigit) ≠ 0 then .error (.invalidNumber, p)
    else
      let flags := p.stateFlags ||| (flagExp ||| flagWantExpDigit ||| flagFloat)
      .ok (.next { p with stateFlags := flags } tokenStart)
  else if c = '+'.toUInt8 ∨ c = '-'.toUInt8 then
    if p.stateFlags &&& (flagWantExpDigit ||| flagExpSign) ≠ flagWantExpDigit then
      .error (.invalidNumber, p)
    else .ok (.next { p with stateFlags := p.stateFlags ||| flagExpSign } tokenStart)
  else if isDigit c then
    let flags := p.stateFlags &&& ~~~(flagWantDigit ||| flagWantFracDigit ||| flagWantExpDigit)
    .ok (.next { p with stateFlags := flags } tokenStart)
  else if isWhiteSpace c then
    match handleNumber cb data tokenStart pos p with
    | .error e => .error e
    | .ok p => .ok (.next { p with state := .whitespace } 0)
  else if c = ','.toUInt8 ∨ c = ']'.toUInt8 ∨ c = '}'.toUInt8 then
    match handleNumber cb data tokenStart pos p with
    | .error e => .error e
    | .ok p => .ok (.again { p with state := .whitespace })
  else .error (.unexpectedCharacter, p)

/-- `STATE_KEYWORD`. -/
def caseKeyword (cb : Listener) (data : List UInt8) (tokenStart pos : Nat) (c : UInt8)
    (p : Parser) : Result Move :=
  if isWhiteSpace c then
    match handleKeyword cb data tokenStart pos p with
    | .error e => .error e
    | .ok p => .ok (.next { p with state := .whitespace } 0)
  else if c = ','.toUInt8 ∨ c = ']'.toUInt8 ∨ c = '}'.toUInt8 ∨ c = ':'.toUInt8 then
    match handleKeyword cb data tokenStart pos p with
    | .error e => .error e
    | .ok p => .ok (.again { p with state := .whitespace })
  else .ok (.next p tokenStart)

/-- The end of a comment, and the flag that is taken back. -/
def endComment (cb : Listener) (data : List UInt8) (tokenStart pos : Nat) (flag : BitVec 8)
    (p : Parser) : Result Move :=
  match handleComment cb data tokenStart pos p with
  | .error e => .error e
  | .ok p =>
    .ok (.next { p with state := .whitespace, stateFlags := p.stateFlags ^^^ flag } 0)

/-- `STATE_COMMENT`. -/
def caseComment (cb : Listener) (data : List UInt8) (tokenStart pos : Nat) (c : UInt8)
    (p : Parser) : Result Move :=
  let start := p.stateFlags &&& flagStartComment ≠ 0
  if c = '*'.toUInt8 then
    if start then .ok (.next { p with stateFlags := p.stateFlags ^^^ flagStartComment } tokenStart)
    else if p.stateFlags &&& flagSingleLineComment = 0 then
      .ok (.next { p with stateFlags := p.stateFlags ||| flagEndComment } tokenStart)
    else .ok (.next p tokenStart)
  else if c = '/'.toUInt8 then
    if start then
      let flags := (p.stateFlags &&& ~~~flagStartComment) ||| flagSingleLineComment
      .ok (.next { p with stateFlags := flags } tokenStart)
    else if p.stateFlags &&& flagEndComment ≠ 0 then
      endComment cb data tokenStart pos flagEndComment p
    else .ok (.next p tokenStart)
  else if c = '\n'.toUInt8 then
    if start then .error (.unexpectedCharacter, p)
    else if p.stateFlags &&& flagSingleLineComment ≠ 0 then
      endComment cb data tokenStart pos flagSingleLineComment p
    else .ok (.next { p with stateFlags := p.stateFlags &&& ~~~flagEndComment } tokenStart)
  else if start then .error (.unexpectedCharacter, p)
  else .ok (.next { p with stateFlags := p.stateFlags &&& ~~~flagEndComment } tokenStart)

/-- The `switch` of `process`. -/
def switch (cb : Listener) (data : List UInt8) (tokenStart pos : Nat) (c : UInt8) (p : Parser) :
    Result Move :=
  match p.state with
  | .whitespace =>
    match caseWhitespace cb tokenStart pos c p with
    | .error e => .error e
    | .ok (p, tokenStart) => .ok (.next p tokenStart)
  | .error => .error (.invalidState, p)
  | .string => caseString cb data tokenStart pos c p
  | .number => caseNumber cb data tokenStart pos c p
  | .keyword => caseKeyword cb data tokenStart pos c p
  | .comment => caseComment cb data tokenStart pos c p

/-! ### The loop -/

/-- What is left of an error in the loop: the code, the parser and `pos`. -/
abbrev Failure := JsonError × Parser × Nat

/-- The loop of `process`, over the characters from `pos` on: `tokenStart` and the parser. -/
def processLoop (cb : Listener) (data : List UInt8) :
    List UInt8 → Nat → Nat → Parser → Except Failure (Nat × Parser)
  | [], tokenStart, _, p => .ok (tokenStart, p)
  | c :: rest, tokenStart, pos, p =>
    match switch cb data tokenStart pos c p with
    | .error (e, p) => .error (e, p, pos)
    | .ok (.next p tokenStart) => processLoop cb data rest tokenStart (pos + 1) p
    | .ok (.again p) =>
      match caseWhitespace cb 0 pos c p with
      | .error (e, p) => .error (e, p, pos)
      | .ok (p, tokenStart) => processLoop cb data rest tokenStart (pos + 1) p

/-- What the member functions that are called from outside return. -/
abbrev Outcome := Except (JsonError × JsonParser) JsonParser

/-- `E`, at the position. -/
def JsonParser.fail (j : JsonParser) (e : JsonError) (p : Parser) (pos : Nat) : Outcome :=
  .error (e, { j with parser := { p with state := .error }, errorPos := j.totalProcessed + pos })

/-- `BOM`. -/
def byteOrderMark : List UInt8 := [0xef, 0xbb, 0xbf]

/-- The loop over the byte order mark, over the characters from `pos` on that may belong to it:
`bomPos` and `pos`, or the latter where the mark is broken off. -/
def bomLoop : List UInt8 → Nat → Nat → Except Nat (Option Nat × Nat)
  | [], bomPos, pos => .ok (some bomPos, pos)
  | c :: rest, bomPos, pos =>
    if byteOrderMark.getD bomPos 0 ≠ c then
      if bomPos ≠ 0 then .error pos else .ok (none, pos)
    else bomLoop rest (bomPos + 1) (pos + 1)

/-- The byte order mark at the beginning of `process`. -/
def skipBom (data : List UInt8) (j : JsonParser) : Except Nat (Option Nat × Nat) :=
  match j.bomPos with
  | some bomPos =>
    if j.totalProcessed < 3 then bomLoop (data.take (3 - bomPos)) bomPos 0
    else .ok (some bomPos, 0)
  | none => .ok (none, 0)

/-- `STATE_STRING` and the states behind it. -/
def State.hasToken (s : State) : Bool := !(s = .whitespace || s = .error)

/-- `process`. -/
def process (cb : Listener) (data : List UInt8) (j : JsonParser) : Outcome :=
  match skipBom data j with
  | .error pos => j.fail .invalidBom j.parser pos
  | .ok (bomPos, pos) =>
    match processLoop cb data (data.drop pos) 0 pos j.parser with
    | .error (e, p, pos) => { j with bomPos := bomPos }.fail e p pos
    | .ok (tokenStart, p) =>
      .ok { j with
        bomPos := bomPos
        totalProcessed := j.totalProcessed + data.length
        parser := { p with token :=
          if p.state.hasToken && tokenStart < data.length then p.token ++ data.drop tokenStart
          else p.token } }

/-- `finish`. -/
def finish (cb : Listener) (j : JsonParser) : Outcome :=
  if j.parser.state = .string then j.fail .stringNotTerminated j.parser 0
  else if j.parser.st ≠ [] then j.fail .compoundTypeNotClosed j.parser 0
  else if j.bomPos = some 1 ∨ j.bomPos = some 2 then j.fail .invalidBom j.parser 0
  else if j.parser.state = .number then
    match handleNumber cb [] 0 0 j.parser with
    | .error (e, p) => j.fail e p 0
    | .ok p => .ok { j with parser := p }
  else if j.parser.state = .keyword then
    match handleKeyword cb [] 0 0 j.parser with
    | .error (e, p) => j.fail e p 0
    | .ok p => .ok { j with parser := p }
  else if !j.parser.valueFound then j.fail .noData j.parser 0
  else .ok j

end Blacklink.Json
