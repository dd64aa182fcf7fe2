import Mathlib.Data.List.Basic
import Blacklink.Base.Loop
import Blacklink.Text.Utf8

/-!
# The XML reader

Model of `SimpleXMLReader` (`client/SimpleXMLReader.h`, `client/SimpleXMLReader.cpp:26-884`). The
buffer is given by its unread part, from `bufPos` on; `bufPos` and `pos` are moved together by
`advancePos`, so that the comparison of positions in `process` is one of `pos`. The stack of
elements and the attributes have the last one pushed first. The conversions of `Text` are
parameters.

The loops of `process` and `declEncodingValue` are given fuel. The other loops go over the unread
characters and are written as recursions over them.
-/

namespace Blacklink.Xml

open Blacklink.Base Blacklink.Text

/-- `isSpace`. -/
def isSpace (c : UInt8) : Bool := c = 0x20 || c = 0x09 || c = 0x0d || c = 0x0a

/-- `inRange`. -/
def inRange (c a b : UInt8) : Bool := a ≤ c && c ≤ b

/-- `isNameStartChar`. -/
def isNameStartChar (c : UInt8) : Bool :=
  c = ':'.toUInt8 || inRange c 'A'.toUInt8 'Z'.toUInt8 || c = '_'.toUInt8 ||
    inRange c 'a'.toUInt8 'z'.toUInt8

/-- `isNameChar`. -/
def isNameChar (c : UInt8) : Bool :=
  isNameStartChar c || c = '-'.toUInt8 || c = '.'.toUInt8 || inRange c '0'.toUInt8 '9'.toUInt8

/-- `isdigit`. -/
def isDigit (c : UInt8) : Bool := inRange c '0'.toUInt8 '9'.toUInt8

/-- `isxdigit`. -/
def isXDigit (c : UInt8) : Bool :=
  isDigit c || inRange c 'A'.toUInt8 'F'.toUInt8 || inRange c 'a'.toUInt8 'f'.toUInt8

/-- `ParseState`. -/
inductive ParseState where
  | start
  | declVersion
  | declVersionEq
  | declVersionNum
  | declEncoding
  | declEncodingEq
  | declEncodingName
  | declEncodingNameApos
  | declEncodingNameQuot
  | declStandalone
  | declStandaloneEq
  | declStandaloneYes
  | declEnd
  | elementName
  | elementAttr
  | elementAttrName
  | elementAttrEq
  | elementAttrValue
  | elementAttrValueQuot
  | elementAttrValueApos
  | elementEndSimple
  | elementEnd
  | elementEndEnd
  | comment
  | cdata
  | content
  | end_
  deriving DecidableEq

/-- `StringPairList`. -/
abbrev StringPairList := List (List UInt8 × List UInt8)

/-- A call of the `CallBack`. -/
inductive Event where
  | startTag (name : List UInt8) (attribs : StringPairList) (simple : Bool)
  | endTag (name data : List UInt8)
  deriving DecidableEq

/-- The name of an open element, which `element` begins with a name start character. -/
structure ElementName where
  first : UInt8
  rest : List UInt8
  isStart : isNameStartChar first = true
  deriving DecidableEq

/-- The characters of the name. -/
def ElementName.chars (n : ElementName) : List UInt8 := n.first :: n.rest

/-- `Text::toLower`, `Text::charsetFromString` and `Text::toUtf8`. -/
structure Charsets where
  toLower : List UInt8 → List UInt8
  charsetFromString : List UInt8 → Int
  toUtf8 : List UInt8 → Int → List UInt8

/-- `CHARSET_UTF8`. -/
def charsetUtf8 : Int := 8

/-- `MAX_NAME_SIZE`. -/
def maxNameSize : Nat := 260

/-- `MAX_VALUE_SIZE`. -/
def maxValueSize : Nat := 64 * 1024

/-- `MAX_NESTING`. -/
def maxNesting : Nat := 256

/-- `SimpleXMLException` as thrown by `error`: the position and the message. -/
structure XmlError where
  pos : Nat
  message : String
  deriving DecidableEq

/-- The fields of `SimpleXMLReader` and the calls of `cb` so far. -/
structure Reader where
  buf : List UInt8
  pos : Nat
  attribs : StringPairList
  value : List UInt8
  encoding : List UInt8
  charset : Int
  state : ParseState
  elements : List ElementName
  events : List Event
  deriving DecidableEq

/-- A member function that reports whether it has handled the characters at hand. -/
abbrev Handler := Reader → Except XmlError (Bool × Reader)

/-- `||` of the source. -/
def Handler.orElse (a b : Handler) : Handler := fun r =>
  match a r with
  | .error e => .error e
  | .ok (true, r') => .ok (true, r')
  | .ok (false, r') => b r'

namespace Reader

/-- `SimpleXMLReader(callback)`. -/
def new : Reader := ⟨[], 0, [], [], [], charsetUtf8, .start, [], []⟩

/-- `charAt`. The character behind the last one is `'\0'`. -/
def charAt (r : Reader) (n : Nat) : UInt8 := r.buf.getD n 0

/-- `needChars`. -/
def needChars (r : Reader) (n : Nat) : Bool := n ≤ r.buf.length

/-- `advancePos`. -/
def advancePos (r : Reader) (n : Nat) : Reader := { r with buf := r.buf.drop n, pos := r.pos + n }

/-- `error`. -/
def error {α : Type} (r : Reader) (message : String) : Except XmlError α :=
  .error ⟨r.pos, message⟩

/-- `append`, of one character or of several. -/
def append (r : Reader) (str : List UInt8) (maxLen : Nat) (chars : List UInt8) :
    Except XmlError (List UInt8) :=
  if maxLen < str.length + chars.length then r.error "Buffer overflow" else .ok (str ++ chars)

/-- `append` to `elements.back()`. -/
def appendName (r : Reader) (chars : List UInt8) : Except XmlError Reader :=
  match r.elements with
  | [] => .ok r
  | name :: outer =>
    match r.append name.chars maxNameSize chars with
    | .error e => .error e
    | .ok _ => .ok { r with elements := { name with rest := name.rest ++ chars } :: outer }

/-- `append` to `attribs.back().first`. -/
def appendAttribName (r : Reader) (chars : List UInt8) : Except XmlError Reader :=
  match r.attribs with
  | [] => .ok r
  | (name, value) :: before =>
    match r.append name maxNameSize chars with
    | .error e => .error e
    | .ok name' => .ok { r with attribs := (name', value) :: before }

/-- `attribs.back().second`. -/
def attribValue (r : Reader) : List UInt8 :=
  match r.attribs with
  | [] => []
  | (_, value) :: _ => value

/-- `attribs.back().second = value`. -/
def setAttribValue (r : Reader) (value : List UInt8) : Reader :=
  match r.attribs with
  | [] => r
  | (name, _) :: before => { r with attribs := (name, value) :: before }

/-- `append` to `attribs.back().second`. -/
def appendAttribValue (r : Reader) (chars : List UInt8) : Except XmlError Reader :=
  match r.attribs with
  | [] => .ok r
  | (name, value) :: before =>
    match r.append value maxValueSize chars with
    | .error e => .error e
    | .ok value' => .ok { r with attribs := (name, value') :: before }

/-- `elements.back()`. -/
def topName (r : Reader) : List UInt8 :=
  match r.elements with
  | [] => []
  | name :: _ => name.chars

/-- `cb->startTag(elements.back(), attribs, simple)` and `attribs.clear()`. -/
def startTag (r : Reader) (simple : Bool) : Reader :=
  { r with events := r.events ++ [.startTag r.topName r.attribs.reverse simple], attribs := [] }

end Reader

/-! ### The handlers -/

/-- What the characters of the buffer say of an expected text. -/
inductive Match where
  | mismatch
  | short
  | full (rest : List UInt8)
  deriving DecidableEq

/-- The loop of `literal`. -/
def matchLiteral : List UInt8 → List UInt8 → Match
  | [], rest => .full rest
  | _ :: _, [] => .short
  | l :: lit, c :: rest => if c = l then matchLiteral lit rest else .mismatch

/-- `literal`. -/
def literal (lit : List UInt8) (withSpace : Bool) (newState : ParseState) : Handler := fun r =>
  match matchLiteral lit r.buf with
  | .mismatch => .ok (false, r)
  | .short => .ok (true, r)
  | .full rest =>
    if withSpace then
      match rest with
      | [] => .ok (true, r)
      | c :: _ =>
        if isSpace c then .ok (true, { r.advancePos (lit.length + 1) with state := newState })
        else .ok (false, r)
    else .ok (true, { r.advancePos lit.length with state := newState })

/-- `character`. -/
def character (c : UInt8) (newState : ParseState) : Handler := fun r =>
  if !r.needChars 1 then .ok (true, r)
  else if r.charAt 0 = c then .ok (true, { r.advancePos 1 with state := newState })
  else .ok (false, r)

/-- The loop of `skipSpace`, with whether a space has been skipped. -/
def skipSpaceLoop (store : Bool) : List UInt8 → Bool → Handler
  | [], skipped, r => .ok (skipped, r)
  | c :: rest, skipped, r =>
    if isSpace c then
      if store then
        match r.append r.value maxValueSize [c] with
        | .error e => .error e
        | .ok value => skipSpaceLoop store rest true { r.advancePos 1 with value := value }
      else skipSpaceLoop store rest true (r.advancePos 1)
    else .ok (skipped, r)

/-- `skipSpace`. -/
def skipSpace (store : Bool) : Handler := fun r =>
  if !r.needChars 1 then .ok (true, r) else skipSpaceLoop store r.buf false r

/-- `spaceOrError`. -/
def spaceOrError (message : String) : Handler :=
  (skipSpace false).orElse fun r => r.error message

/-- `element`. -/
def element : Handler := fun r =>
  if !r.needChars 2 then .ok (true, r)
  else if h : r.charAt 0 = '<'.toUInt8 ∧ isNameStartChar (r.charAt 1) = true then
    if maxNesting ≤ r.elements.length then r.error "Max nesting exceeded"
    else .ok (true, { r.advancePos 2 with
      state := .elementName, elements := ⟨r.charAt 1, [], h.2⟩ :: r.elements })
  else .ok (false, r)

/-- The loop of `elementName` goes on behind the character. -/
def inElementName (c : UInt8) : Bool :=
  !isSpace c && c ≠ '/'.toUInt8 && c ≠ '>'.toUInt8 && isNameChar c

/-- `elementName`. -/
def elementName : Handler := fun r =>
  let name := r.buf.takeWhile inElementName
  match r.buf.dropWhile inElementName with
  | [] =>
    match r.appendName name with
    | .error e => .error e
    | .ok r => .ok (true, r.advancePos name.length)
  | c :: _ =>
    if isSpace c then
      match r.appendName name with
      | .error e => .error e
      | .ok r => .ok (true, { r.advancePos (name.length + 1) with state := .elementAttr })
    else if c = '/'.toUInt8 then
      match r.appendName name with
      | .error e => .error e
      | .ok r => .ok (true, { r.advancePos (name.length + 1) with state := .elementEndSimple })
    else if c = '>'.toUInt8 then
      match r.appendName name with
      | .error e => .error e
      | .ok r =>
        .ok (true, { (r.startTag false).advancePos (name.length + 1) with state := .content })
    else .ok (false, r)

/-- `elementAttr`. -/
def elementAttr : Handler := fun r =>
  if !r.needChars 1 then .ok (true, r)
  else if isNameStartChar (r.charAt 0) then
    .ok (true, { r.advancePos 1 with
      attribs := ([r.charAt 0], []) :: r.attribs, state := .elementAttrName })
  else .ok (false, r)

/-- The loop of `elementAttrName` goes on behind the character. -/
def inAttrName (c : UInt8) : Bool := !isSpace c && c ≠ '='.toUInt8 && isNameChar c

/-- `elementAttrName`. -/
def elementAttrName : Handler := fun r =>
  let name := r.buf.takeWhile inAttrName
  match r.buf.dropWhile inAttrName with
  | [] =>
    match r.appendAttribName name with
    | .error e => .error e
    | .ok r => .ok (true, r.advancePos name.length)
  | c :: _ =>
    if isSpace c then
      match r.appendAttribName name with
      | .error e => .error e
      | .ok r => .ok (true, { r.advancePos (name.length + 1) with state := .elementAttrEq })
    else if c = '='.toUInt8 then
      match r.appendAttribName name with
      | .error e => .error e
      | .ok r => .ok (true, { r.advancePos (name.length + 1) with state := .elementAttrValue })
    else .ok (false, r)

/-- The entity references that `entref` knows, by the characters from the `&` on: how many
characters there are, and the one they stand for. Character references stand for none. -/
def entity (charAt : Nat → UInt8) : Option (Nat × List UInt8) :=
  if charAt 1 = 'l'.toUInt8 ∧ charAt 2 = 't'.toUInt8 ∧ charAt 3 = ';'.toUInt8 then
    some (4, ['<'.toUInt8])
  else if charAt 1 = 'g'.toUInt8 ∧ charAt 2 = 't'.toUInt8 ∧ charAt 3 = ';'.toUInt8 then
    some (4, ['>'.toUInt8])
  else if charAt 1 = 'a'.toUInt8 ∧ charAt 2 = 'm'.toUInt8 ∧ charAt 3 = 'p'.toUInt8 ∧
      charAt 4 = ';'.toUInt8 then
    some (5, ['&'.toUInt8])
  else if charAt 1 = 'q'.toUInt8 ∧ charAt 2 = 'u'.toUInt8 ∧ charAt 3 = 'o'.toUInt8 ∧
      charAt 4 = 't'.toUInt8 ∧ charAt 5 = ';'.toUInt8 then
    some (6, ['"'.toUInt8])
  else if charAt 1 = 'a'.toUInt8 ∧ charAt 2 = 'p'.toUInt8 ∧ charAt 3 = 'o'.toUInt8 ∧
      charAt 4 = 's'.toUInt8 ∧ charAt 5 = ';'.toUInt8 then
    some (6, ['\''.toUInt8])
  else if charAt 1 = '#'.toUInt8 ∧ isDigit (charAt 2) ∧ charAt 3 = ';'.toUInt8 then
    some (4, [])
  else if charAt 1 = '#'.toUInt8 ∧ isDigit (charAt 2) ∧ isDigit (charAt 3) ∧
      charAt 4 = ';'.toUInt8 then
    some (5, [])
  else if charAt 1 = '#'.toUInt8 ∧ isDigit (charAt 2) ∧ isDigit (charAt 3) ∧
      isDigit (charAt 4) ∧ charAt 5 = ';'.toUInt8 then
    some (6, [])
  else if charAt 1 = '#'.toUInt8 ∧ isDigit (charAt 2) ∧ isDigit (charAt 3) ∧
      isDigit (charAt 4) ∧ isDigit (charAt 5) ∧ charAt 6 = ';'.toUInt8 then
    some (7, [])
  else if charAt 1 = '#'.toUInt8 ∧ isDigit (charAt 2) ∧ isDigit (charAt 3) ∧
      isDigit (charAt 4) ∧ isDigit (charAt 5) ∧ isDigit (charAt 6) ∧
      charAt 7 = ';'.toUInt8 then
    some (8, [])
  else if charAt 1 = '#'.toUInt8 ∧ (charAt 2 = 'x'.toUInt8 ∨ charAt 2 = 'X'.toUInt8) ∧
      isXDigit (charAt 3) ∧ charAt 4 = ';'.toUInt8 then
    some (5, [])
  else if charAt 1 = '#'.toUInt8 ∧ (charAt 2 = 'x'.toUInt8 ∨ charAt 2 = 'X'.toUInt8) ∧
      isXDigit (charAt 3) ∧ isXDigit (charAt 4) ∧ charAt 5 = ';'.toUInt8 then
    some (6, [])
  else if charAt 1 = '#'.toUInt8 ∧ (charAt 2 = 'x'.toUInt8 ∨ charAt 2 = 'X'.toUInt8) ∧
      isXDigit (charAt 3) ∧ isXDigit (charAt 4) ∧ isXDigit (charAt 5) ∧
      charAt 6 = ';'.toUInt8 then
    some (7, [])
  else if charAt 1 = '#'.toUInt8 ∧ (charAt 2 = 'x'.toUInt8 ∨ charAt 2 = 'X'.toUInt8) ∧
      isXDigit (charAt 3) ∧ isXDigit (charAt 4) ∧ isXDigit (charAt 5) ∧
      isXDigit (charAt 6) ∧ charAt 7 = ';'.toUInt8 then
    some (8, [])
  else none

/-- `entref`. The string `d` and the reader with another string in its place. -/
def entref (d : List UInt8) (set : Reader → List UInt8 → Reader) : Handler := fun r =>
  if maxValueSize ≤ d.length + 1 then r.error "Buffer overflow"
  else if 6 < r.buf.length then
    match entity r.charAt with
    | some (n, chars) => .ok (true, (set r (d ++ chars)).advancePos n)
    | none => .ok (false, r)
  else .ok (true, r)

/-- The loop of `elementAttrValue` goes on behind the character. -/
def inAttrValue (state : ParseState) (c : UInt8) : Bool :=
  !((state = .elementAttrValueApos && c = '\''.toUInt8) ||
    (state = .elementAttrValueQuot && c = '"'.toUInt8)) && c ≠ '&'.toUInt8

/-- `elementAttrValue`. -/
def elementAttrValue (T : Charsets) : Handler := fun r =>
  let chars := r.buf.takeWhile (inAttrValue r.state)
  match r.buf.dropWhile (inAttrValue r.state) with
  | [] =>
    match r.appendAttribValue chars with
    | .error e => .error e
    | .ok r => .ok (true, r.advancePos chars.length)
  | c :: _ =>
    if c ≠ '&'.toUInt8 then
      match r.appendAttribValue chars with
      | .error e => .error e
      | .ok r =>
        let r :=
          if r.charset ≠ charsetUtf8 then
            r.setAttribValue (T.toUtf8 r.attribValue r.charset)
          else r
        .ok (true, { r.advancePos (chars.length + 1) with state := .elementAttr })
    else
      match r.appendAttribValue chars with
      | .error e => .error e
      | .ok r =>
        let r := r.advancePos chars.length
        entref r.attribValue Reader.setAttribValue r

/-- `elementEndSimple`. -/
def elementEndSimple : Handler := fun r =>
  if !r.needChars 1 then .ok (true, r)
  else if r.charAt 0 = '>'.toUInt8 then
    .ok (true, { (r.startTag true).advancePos 1 with
      elements := r.elements.tail, state := .content })
  else .ok (false, r)

/-- `elementEndComplex`. -/
def elementEndComplex : Handler := fun r =>
  if !r.needChars 1 then .ok (true, r)
  else if r.charAt 0 = '>'.toUInt8 then
    .ok (true, { (r.startTag false).advancePos 1 with state := .content })
  else .ok (false, r)

/-- The loop of `declVersionNum`. The digits are compared with 0 to 9, not with '0' to '9'. -/
def versionEnd (sep : UInt8) : List UInt8 → Match
  | [] => .short
  | c :: rest =>
    if c = sep then .full rest
    else if !inRange c 0 9 then .mismatch
    else versionEnd sep rest

/-- `declVersionNum`. -/
def declVersionNum : Handler := fun r =>
  if !r.needChars 5 then .ok (true, r)
  else
    let sep := r.charAt 0
    if (sep = '"'.toUInt8 ∨ sep = '\''.toUInt8) ∧ r.charAt 1 = '1'.toUInt8 ∧
        r.charAt 2 = '.'.toUInt8 then
      if !inRange (r.charAt 3) '0'.toUInt8 '9'.toUInt8 then .ok (false, r)
      else
        match versionEnd sep (r.buf.drop 4) with
        | .full rest =>
          .ok (true, { r.advancePos (r.buf.length - rest.length) with state := .declEncoding })
        | .mismatch => .ok (false, r)
        | .short => .ok (true, r)
    else .ok (false, r)

/-- The character ends the encoding value. -/
def endsEncoding (state : ParseState) (c : UInt8) : Bool :=
  (state = .declEncodingNameApos && c = '\''.toUInt8) ||
    (state = .declEncodingNameQuot && c = '"'.toUInt8)

/-- `encoding = encoding'`. -/
def Reader.setEncoding (r : Reader) (encoding : List UInt8) : Reader :=
  { r with encoding := encoding }

/-- A pass of the loop of `declEncodingValue`. -/
def declEncodingValuePass (T : Charsets) (r : Reader) :
    Pass Reader (Except XmlError (Bool × Reader)) :=
  match r.buf with
  | [] => .done (.ok (true, r))
  | c :: _ =>
    if endsEncoding r.state c then
      let encoding := T.toLower r.encoding
      .done (.ok (true, { r.advancePos 1 with
        encoding := encoding, charset := T.charsetFromString encoding, state := .declStandalone }))
    else if c = '&'.toUInt8 then
      match entref r.encoding Reader.setEncoding r with
      | .error e => .done (.error e)
      | .ok (false, r') => .done (.ok (false, r'))
      | .ok (true, r') => .again r'
    else
      match r.append r.encoding maxValueSize [c] with
      | .error e => .done (.error e)
      | .ok encoding => .again { r.advancePos 1 with encoding := encoding }

/-- `declEncodingValue`. -/
def declEncodingValue (T : Charsets) : Nat → Reader → Option (Except XmlError (Bool × Reader)) :=
  loop fun _ r => some (declEncodingValuePass T r)

/-- The loop of `comment`: the characters it passes, and whether the comment ends there. -/
def commentLoop : List UInt8 → Nat × Bool
  | [] => (0, false)
  | c :: rest =>
    if c = '-'.toUInt8 then
      match rest with
      | d :: e :: _ =>
        if d = '-'.toUInt8 ∧ e = '>'.toUInt8 then (3, true)
        else ((commentLoop rest).1 + 1, (commentLoop rest).2)
      | _ => (0, false)
    else ((commentLoop rest).1 + 1, (commentLoop rest).2)

/-- `comment`. -/
def comment : Handler := fun r =>
  match commentLoop r.buf with
  | (n, true) => .ok (true, { r.advancePos n with state := .content })
  | (n, false) => .ok (true, r.advancePos n)

/-- The loop of `cdata`: the characters it passes, and whether the section ends there. -/
def cdataLoop : List UInt8 → Nat × Bool
  | [] => (0, false)
  | c :: rest =>
    if c = ']'.toUInt8 then
      match rest with
      | d :: _ =>
        if d = ']'.toUInt8 then (2, true) else ((cdataLoop rest).1 + 1, (cdataLoop rest).2)
      | [] => (0, false)
    else ((cdataLoop rest).1 + 1, (cdataLoop rest).2)

/-- `cdata`. -/
def cdata : Handler := fun r =>
  match cdataLoop r.buf with
  | (n, true) => .ok (true, { r.advancePos n with state := .content })
  | (n, false) => .ok (true, r.advancePos n)

/-- `value = value'`. -/
def Reader.setValue (r : Reader) (value : List UInt8) : Reader := { r with value := value }

/-- `content`. -/
def content : Handler := fun r =>
  if !r.needChars 1 then .ok (true, r)
  else
    let c := r.charAt 0
    if c = '<'.toUInt8 then
      if r.value ≠ [] then r.error "Mixed content not supported" else .ok (false, r)
    else if c = '&'.toUInt8 then entref r.value Reader.setValue r
    else
      match r.append r.value maxValueSize [c] with
      | .error e => .error e
      | .ok value => .ok (true, { r.advancePos 1 with value := value })

/-- `elementEnd`. -/
def elementEnd : Handler := fun r =>
  match r.elements with
  | [] => .ok (false, r)
  | top :: _ =>
    if !r.needChars top.chars.length then .ok (true, r)
    else if r.buf.take top.chars.length = top.chars then
      .ok (true, { r.advancePos top.chars.length with state := .elementEndEnd })
    else .ok (false, r)

/-- `elementEndEnd`. -/
def elementEndEnd (T : Charsets) : Handler := fun r =>
  if !r.needChars 1 then .ok (true, r)
  else if r.charAt 0 = '>'.toUInt8 then
    let value := if r.charset ≠ charsetUtf8 then T.toUtf8 r.value r.charset else r.value
    .ok (true, { r.advancePos 1 with
      events := r.events ++ [.endTag r.topName value]
      value := []
      elements := r.elements.tail
      state := .content })
  else .ok (false, r)

/-! ### The loop -/

/-- The byte order mark. -/
def byteOrderMark : List UInt8 := [0xef, 0xbb, 0xbf]

/-- A throw of the message, as the last alternative of a state. -/
def orError (message : String) : Handler := fun r => r.error message

/-- The cases of the `switch`, but for those of `declEncodingValue` and `STATE_END`. -/
def handler (T : Charsets) : ParseState → Handler
  | .start =>
    (literal byteOrderMark false .start).orElse <|
    (literal (ascii "<?xml") true .declVersion).orElse <|
    (literal (ascii "<!--") false .comment).orElse <|
    element.orElse <|
    spaceOrError "Expecting XML declaration, element or comment"
  | .declVersion =>
    (skipSpace false).orElse <|
    (literal (ascii "version") false .declVersionEq).orElse <|
    spaceOrError "Expecting version"
  | .declVersionEq =>
    (character '='.toUInt8 .declVersionNum).orElse <| spaceOrError "Expecting ="
  | .declVersionNum => declVersionNum.orElse <| spaceOrError "Expecting version number"
  | .declEncoding =>
    (literal (ascii "encoding") false .declEncodingEq).orElse <|
    (literal (ascii "standalone") false .declStandaloneEq).orElse <|
    (literal (ascii "?>") false .content).orElse <|
    spaceOrError "Expecting encoding | standalone | ?>"
  | .declEncodingEq =>
    (character '='.toUInt8 .declEncodingName).orElse <| spaceOrError "Expecting ="
  | .declEncodingName =>
    (character '\''.toUInt8 .declEncodingNameApos).orElse <|
    (character '"'.toUInt8 .declEncodingNameQuot).orElse <|
    spaceOrError "Expecting encoding name start"
  | .declEncodingNameApos | .declEncodingNameQuot | .end_ => orError "Unexpected state"
  | .declStandalone =>
    (literal (ascii "standalone") false .declStandaloneEq).orElse <|
    (literal (ascii "?>") false .content).orElse <|
    spaceOrError "Expecting standalone | ?>"
  | .declStandaloneEq =>
    (character '='.toUInt8 .declStandaloneYes).orElse <| spaceOrError "Expecting ="
  | .declStandaloneYes =>
    (literal (ascii "\"yes\"") false .declEnd).orElse <|
    (literal (ascii "'yes'") false .declEnd).orElse <|
    spaceOrError "Expecting standalone=yes"
  | .declEnd => (literal (ascii "?>") false .content).orElse <| spaceOrError "Expecting ?>"
  | .elementName => Handler.orElse elementName <| orError "Error while parsing element start"
  | .elementEndSimple => Handler.orElse elementEndSimple <| orError "Expecting >"
  | .elementEnd => Handler.orElse elementEnd <| spaceOrError "Expecting element end"
  | .elementEndEnd => (elementEndEnd T).orElse <| spaceOrError "Expecting >"
  | .elementAttr =>
    Handler.orElse elementAttr <|
    Handler.orElse elementEndComplex <|
    (character '/'.toUInt8 .elementEndSimple).orElse <|
    spaceOrError "Expecting attribute | /> | >"
  | .elementAttrName => Handler.orElse elementAttrName <| orError "Expecting attribute name"
  | .elementAttrEq =>
    (character '='.toUInt8 .elementAttrValue).orElse <| spaceOrError "Expecting attribute ="
  | .elementAttrValue =>
    (character '\''.toUInt8 .elementAttrValueApos).orElse <|
    (character '"'.toUInt8 .elementAttrValueQuot).orElse <|
    spaceOrError "Expecting attribute value start"
  | .elementAttrValueApos | .elementAttrValueQuot =>
    (elementAttrValue T).orElse <| orError "Expecting attribute value"
  | .comment => Handler.orElse comment <| orError "Error while parsing comment"
  | .cdata => Handler.orElse cdata <| orError "Error while parsing CDATA"
  | .content =>
    (skipSpace true).orElse <|
    (literal (ascii "<!--") false .comment).orElse <|
    (literal (ascii "<![CDATA[") false .cdata).orElse <|
    element.orElse <|
    (literal (ascii "</") false .elementEnd).orElse <|
    Handler.orElse content <|
    orError "Expecting content, element or comment"

/-- The `switch` of `process`. -/
def switch (T : Charsets) (fuel : Nat) (r : Reader) : Option (Except XmlError (Bool × Reader)) :=
  match r.state with
  | .declEncodingNameApos | .declEncodingNameQuot =>
    match declEncodingValue T fuel r with
    | none => none
    | some (.ok (false, r')) => some (spaceOrError "Expecting encoding value" r')
    | some result => some result
  | state => some (handler T state r)

/-- What `process` returns: an exception with the calls of `cb` made before it, or the result with
the reader it leaves. -/
abbrev Outcome := Except (XmlError × List Event) (Bool × Reader)

/-- A pass of the loop of `process`. -/
def processPass (T : Charsets) (fuel : Nat) (r : Reader) : Option (Pass Reader Outcome) :=
  if r.state = .end_ then some (.done (.ok (false, { r with buf := [] })))
  else
    match switch T fuel r with
    | none => none
    | some (.error e) => some (.done (.error (e, r.events)))
    | some (.ok (_, r')) =>
      if r'.state = r.state ∧ r'.pos = r.pos then some (.done (.ok (true, r')))
      -- there may be whitespace from contents that turned out to be elements or comments
      else if r'.state = .content ∧ r'.state ≠ r.state then some (.again { r' with value := [] })
      else some (.again r')

/-- `process`. -/
def process (T : Charsets) : Nat → Reader → Option Outcome := loop (processPass T)

/-- The buffer with more characters at its end. -/
def Reader.feed (r : Reader) (data : List UInt8) : Reader := { r with buf := r.buf ++ data }

/-- `parse(data, len, more)`. -/
def parse (T : Charsets) (data : List UInt8) (fuel : Nat) (r : Reader) : Option Outcome :=
  process T fuel (r.feed data)

end Blacklink.Xml
