import Blacklink.Xml.SimpleXMLReader

/-!
# XML documents

Model of the tree of `SimpleXML`, of its text and of the tree made from a text
(`client/SimpleXML.h:147-250`, `client/SimpleXML.cpp:53-185, 247-263`).
-/

namespace Blacklink.Xml

open Blacklink.Base Blacklink.Text

/-- The characters that `escape` replaces when it writes. -/
def isEscaped (isAttrib : Bool) (c : UInt8) : Bool :=
  c = '<'.toUInt8 || c = '&'.toUInt8 || c = '>'.toUInt8 ||
    isAttrib && (c = '\''.toUInt8 || c = '"'.toUInt8)

/-- What `escape` puts in the place of a character. -/
def replacement (c : UInt8) : List UInt8 :=
  if c = '<'.toUInt8 then ascii "&lt;"
  else if c = '&'.toUInt8 then ascii "&amp;"
  else if c = '>'.toUInt8 then ascii "&gt;"
  else if c = '\''.toUInt8 then ascii "&apos;"
  else ascii "&quot;"

/-- `escape(str, isAttrib, false)`. The search goes on behind what has been put in. -/
def escape (isAttrib : Bool) : List UInt8 → List UInt8
  | [] => []
  | c :: str =>
    if isEscaped isAttrib c then replacement c ++ escape isAttrib str
    else c :: escape isAttrib str

/-- `needsEscape(str, isAttrib, false)`. -/
def needsEscape (str : List UInt8) (isAttrib : Bool) : Bool := str.any (isEscaped isAttrib)

/-- `SimpleXML::Tag`, without the pointer to its parent. -/
inductive Tag where
  | mk (name : List UInt8) (attribs : StringPairList) (data : List UInt8) (children : List Tag)

namespace Tag

/-- The name. -/
def name : Tag → List UInt8
  | mk name _ _ _ => name

/-- The attributes. -/
def attribs : Tag → StringPairList
  | mk _ attribs _ _ => attribs

/-- The data. -/
def data : Tag → List UInt8
  | mk _ _ data _ => data

/-- The children. -/
def children : Tag → List Tag
  | mk _ _ _ children => children

/-- An attribute's text in `appendAttribString`. -/
def attribString (attrib : List UInt8 × List UInt8) : List UInt8 :=
  attrib.1 ++ ascii "=\"" ++
    (if needsEscape attrib.2 true then escape true attrib.2 else attrib.2) ++ ascii "\" "

/-- `appendAttribString`. -/
def appendAttribString (attribs : StringPairList) (tmp : List UInt8) : List UInt8 :=
  (tmp ++ attribs.flatMap attribString).dropLast

/-- The start of a tag's text, up to its attributes. -/
def startText (indent : Nat) (name : List UInt8) (attribs : StringPairList) : List UInt8 :=
  appendAttribString attribs
    (List.replicate indent '\t'.toUInt8 ++ ascii "<" ++ name ++ ascii " ")

mutual

/-- `Tag::toXML`. -/
def toXML (indent : Nat) : Tag → List UInt8
  | mk name attribs data [] =>
    if data = [] then startText indent name attribs ++ ascii "/>\r\n"
    else
      startText indent name attribs ++ ascii ">" ++
        (if needsEscape data false then escape false data else data) ++
        ascii "</" ++ name ++ ascii ">\r\n"
  | mk name attribs _ (child :: children) =>
    startText indent name attribs ++ ascii ">\r\n" ++
      childrenToXML (indent + 1) (child :: children) ++
      List.replicate indent '\t'.toUInt8 ++ ascii "</" ++ name ++ ascii ">\r\n"

/-- The texts of children. -/
def childrenToXML (indent : Nat) : List Tag → List UInt8
  | [] => []
  | child :: children => toXML indent child ++ childrenToXML indent children

end

/-- `children.push_back(child)`. -/
def pushChild (t child : Tag) : Tag := mk t.name t.attribs t.data (t.children ++ [child])

end Tag

/-- The exceptions of `fromXML`: those of the reader, that of `TagReader::endTag`, and
`SXML_INVALID_FILE`. -/
inductive XmlException where
  | reader (e : XmlError)
  | invalidEndTag
  | invalidFile
  deriving DecidableEq

/-- The callbacks of `TagReader`. The tags that are open, `cur` first and the root last, have the
children read so far; an open tag is put among the children of its parent when it ends. -/
def tagReader : List Tag → Event → Except XmlException (List Tag)
  | cur :: outer, .startTag name attribs true =>
    .ok (cur.pushChild (.mk name attribs [] []) :: outer)
  | outer, .startTag name attribs _ => .ok (.mk name attribs [] [] :: outer)
  | cur :: parent :: outer, .endTag _ d =>
    .ok (parent.pushChild (.mk cur.name cur.attribs d cur.children) :: outer)
  | _, .endTag _ _ => .error .invalidEndTag

/-- The callbacks in turn, up to one that throws. -/
def readTags : List Tag → List Event → Except XmlException (List Tag)
  | tags, [] => .ok tags
  | tags, event :: events =>
    match tagReader tags event with
    | .error e => .error e
    | .ok tags' => readTags tags' events

/-- The root of the tags that are open, with those that have not ended among the children. -/
def closeTags : List Tag → List Tag
  | [] => []
  | [root] => root.children
  | cur :: parent :: outer => closeTags (parent.pushChild cur :: outer)
termination_by tags => tags.length

/-- The root tag of a new document. -/
def rootTag : Tag := .mk (ascii "BOGUSROOT") [] [] []

/-- `fromXML`: the only child of the root. -/
def fromXML (T : Charsets) (xml : List UInt8) (fuel : Nat) : Option (Except XmlException Tag) :=
  match parse T xml fuel Reader.new with
  | none => none
  | some (.error (e, events)) =>
    match readTags [rootTag] events with
    | .error e' => some (.error e')
    | .ok _ => some (.error (.reader e))
  | some (.ok (_, r)) =>
    match readTags [rootTag] r.events with
    | .error e => some (.error e)
    | .ok tags =>
      match closeTags tags with
      | [tag] => some (.ok tag)
      | _ => some (.error .invalidFile)

end Blacklink.Xml
