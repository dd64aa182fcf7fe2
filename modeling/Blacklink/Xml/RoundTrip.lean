import Blacklink.Xml.Written
import Blacklink.Xml.Buffers

/-!
# Documents written and read

A tree of `SimpleXML` that has been written by `toXML` is read by `fromXML` with the same names,
attributes and children, and the same data on its leaves. The data of a tag with children, which
`toXML` does not write, is read as the spaces before its end.
-/

namespace Blacklink.Xml

open Blacklink.Base Blacklink.Text

namespace Tag

mutual

/-- The tag is within the limits of the reader, below so many others. -/
def Fits (depth : Nat) : Tag → Prop
  | mk name attribs data children =>
    depth < maxNesting ∧ ValidName name ∧
      (∀ attrib ∈ attribs, ValidName attrib.1 ∧ FitsValue true attrib.2) ∧
      (children = [] → FitsValue false data) ∧ ChildrenFit (depth + 1) children

/-- All of the children are within the limits. -/
def ChildrenFit (depth : Nat) : List Tag → Prop
  | [] => True
  | child :: children => child.Fits depth ∧ ChildrenFit depth children

end

mutual

/-- The tag without the data of tags that have children. -/
def leafData : Tag → Tag
  | mk name attribs data [] => mk name attribs data []
  | mk name attribs _ (child :: children) =>
    mk name attribs [] (childrenLeafData (child :: children))

/-- The children so. -/
def childrenLeafData : List Tag → List Tag
  | [] => []
  | child :: children => child.leafData :: childrenLeafData children

end

/-- The spaces before the end of a tag with children. -/
def endSpaces (indent : Nat) : List UInt8 :=
  ascii "\r\n" ++ List.replicate indent '\t'.toUInt8

mutual

/-- The tag as it is read. -/
def reloaded (indent : Nat) : Tag → Tag
  | mk name attribs data [] => mk name attribs data []
  | mk name attribs _ (child :: children) =>
    mk name attribs (endSpaces indent) (childrenReloaded (indent + 1) (child :: children))

/-- The children so. -/
def childrenReloaded (indent : Nat) : List Tag → List Tag
  | [] => []
  | child :: children => child.reloaded indent :: childrenReloaded indent children

end

mutual

/-- The calls of the `CallBack` for the text of the tag. -/
def events (indent : Nat) : Tag → List Event
  | mk name attribs data [] =>
    if data = [] then [.startTag name attribs true]
    else [.startTag name attribs false, .endTag name data]
  | mk name attribs _ (child :: children) =>
    .startTag name attribs false :: childrenEvents (indent + 1) (child :: children) ++
      [.endTag name (endSpaces indent)]

/-- The calls for the texts of children. -/
def childrenEvents (indent : Nat) : List Tag → List Event
  | [] => []
  | child :: children => child.events indent ++ childrenEvents indent children

end

/-! ### The text -/

/-- `escape` is skipped where it would change nothing. -/
theorem escape_of_not_needsEscape {isAttrib : Bool} {str : List UInt8}
    (h : needsEscape str isAttrib = false) : escape isAttrib str = str := by
  induction str with
  | nil => rfl
  | cons c str ih =>
    rw [needsEscape, List.any_cons, Bool.or_eq_false_iff] at h
    rw [escape, h.1, ih h.2]
    rfl

theorem ite_needsEscape (isAttrib : Bool) (str : List UInt8) :
    (if needsEscape str isAttrib then escape isAttrib str else str) = escape isAttrib str := by
  split
  · rfl
  · next h => rw [escape_of_not_needsEscape (Bool.not_eq_true _ ▸ h)]

private theorem flatMap_attribString (attribs : StringPairList) :
    ascii " " ++ attribs.flatMap attribString = attribs.flatMap attribText ++ ascii " " := by
  induction attribs with
  | nil => rfl
  | cons attrib attribs ih =>
    have hstring : ascii " " ++ attribString attrib = attribText attrib ++ ascii " " := by
      simp only [attribString, attribText, ite_needsEscape, List.append_assoc]
      rfl
    rw [List.flatMap_cons, List.flatMap_cons, ← List.append_assoc, hstring, List.append_assoc, ih,
      List.append_assoc]

/-- The space that is written behind the name or the last attribute is taken back. -/
theorem startText_eq (indent : Nat) (name : List UInt8) (attribs : StringPairList) :
    startText indent name attribs =
      List.replicate indent '\t'.toUInt8 ++ tagText name attribs := by
  rw [startText, appendAttribString, List.append_assoc, flatMap_attribString, tagText,
    ← List.append_assoc, show ascii " " = [' '.toUInt8] from rfl, List.dropLast_concat]
  simp only [List.append_assoc]

/-! ### Reading the text -/

section Reading

variable {T : Charsets} {encoding value : List UInt8} {state : ParseState}
  {elements : List ElementName} {evs : List Event}

private theorem isSpace_of_mem_tabs {n : Nat} {c : UInt8}
    (h : c ∈ List.replicate n '\t'.toUInt8) : isSpace c = true := by
  rw [List.eq_of_mem_replicate h]
  decide

/-- The tabs before a tag. There are none before the root, where spaces are not kept. -/
private theorem takes_tabs (hstate : state = .start ∧ elements = [] ∨ state = .content)
    (hels : elements.length ≤ maxNesting) (hvalue : value.length ≤ 2) :
    Takes T 0 (List.replicate elements.length '\t'.toUInt8)
      (held encoding state [] value elements evs)
      (held encoding state [] (value ++ List.replicate elements.length '\t'.toUInt8) elements
        evs) := by
  rcases hstate with ⟨rfl, rfl⟩ | rfl
  · rw [List.length_nil, List.replicate_zero, List.append_nil]
    exact .refl
  · refine takes_spaces (fun c hc => isSpace_of_mem_tabs hc) ?_
    rw [List.length_replicate]
    have hmax : maxNesting + 2 ≤ maxValueSize := by decide
    omega

private theorem takes_lineEnd :
    Takes T 0 (ascii "\r\n") (held encoding .content [] [] elements evs)
      (held encoding .content [] (ascii "\r\n") elements evs) :=
  takes_spaces (List.all_eq_true.mp (by decide)) (by decide)

private theorem start_or_content (hstate : state = .start ∧ elements = [] ∨ state = .content) :
    state = .start ∨ state = .content := hstate.imp_left And.left

/-- A start tag behind its tabs. -/
private theorem takes_openTag (T : Charsets) (encoding : List UInt8) (evs : List Event)
    (hstate : state = .start ∧ elements = [] ∨ state = .content)
    (hvalue : value.length ≤ 2) {name : List UInt8} {attribs : StringPairList}
    (hname : ValidName name) (hels : elements.length < maxNesting)
    (hattribs : ∀ attrib ∈ attribs, ValidName attrib.1 ∧ FitsValue true attrib.2) :
    ∃ n : ElementName, n.chars = name ∧
      Takes T 1 (startText elements.length name attribs ++ ascii ">")
        (held encoding state [] value elements evs)
        (held encoding .content [] [] (n :: elements)
          (evs ++ [.startTag name attribs false])) := by
  obtain ⟨n, hn, hstart⟩ := takes_startTag (start_or_content hstate) hname hels hattribs
  refine ⟨n, hn, ?_⟩
  rw [startText_eq, List.append_assoc]
  exact (takes_tabs hstate hels.le hvalue).append hstart (Nat.zero_le _)

private theorem length_endTag (n : ElementName) :
    3 ≤ (ascii "</" ++ n.chars ++ ascii ">").length + 0 := by
  simp only [List.length_append, ElementName.chars, List.length_cons]
  have hlen : (ascii "</").length = 2 := rfl
  omega

/-- A tag without children. -/
theorem takes_leaf (hstate : state = .start ∧ elements = [] ∨ state = .content)
    (hvalue : value.length ≤ 2) {name data : List UInt8} {attribs : StringPairList}
    (h : (mk name attribs data []).Fits elements.length) :
    Takes T 0 ((mk name attribs data []).toXML elements.length)
      (held encoding state [] value elements evs)
      (held encoding .content [] (ascii "\r\n") elements
        (evs ++ (mk name attribs data []).events elements.length)) := by
  rw [Fits] at h
  obtain ⟨hels, hname, hattribs, hdata, -⟩ := h
  have htabs : Takes T 0 _ (held encoding state [] value elements evs) _ :=
    takes_tabs hstate hels.le hvalue
  rw [toXML, events]
  split
  · next hempty =>
    have htag := htabs.append (takes_simpleTag (start_or_content hstate) hname hels hattribs)
      (Nat.zero_le _)
    have hall := htag.append takes_lineEnd (Nat.zero_le _)
    have htext : startText elements.length name attribs ++ ascii "/>\r\n" =
        List.replicate elements.length '\t'.toUInt8 ++ (tagText name attribs ++ ascii "/>") ++
          ascii "\r\n" := by
      simp only [startText_eq, List.append_assoc]
      rfl
    rw [htext]
    exact hall
  · next hempty =>
    obtain ⟨n, rfl, hstart⟩ := takes_openTag T encoding evs hstate hvalue hname hels hattribs
    have hvalue' : Takes T 3 (escape false data)
        (held encoding .content [] [] (n :: elements) (evs ++ [.startTag n.chars attribs false]))
        (held encoding .content [] data (n :: elements)
          (evs ++ [.startTag n.chars attribs false])) :=
      takes_data (show FitsValue false ([] ++ data) from hdata rfl)
    have hend := hvalue'.append takes_endTag (length_endTag n)
    have hlen : 1 ≤ (escape false data ++ (ascii "</" ++ n.chars ++ ascii ">")).length + 0 := by
      have hlen' := length_endTag n
      rw [List.length_append]
      omega
    have hall := (hstart.append hend hlen).append takes_lineEnd (Nat.zero_le _)
    simpa [ite_needsEscape, show ascii ">\r\n" = ascii ">" ++ ascii "\r\n" from rfl] using hall

/-- A tag with children, by what is made of them. -/
theorem takes_node (hstate : state = .start ∧ elements = [] ∨ state = .content)
    (hvalue : value.length ≤ 2) {name data : List UInt8} {attribs : StringPairList} {child : Tag}
    {children : List Tag} (hels : elements.length < maxNesting) (hname : ValidName name)
    (hattribs : ∀ attrib ∈ attribs, ValidName attrib.1 ∧ FitsValue true attrib.2)
    (hchildren : ∀ n : ElementName, Takes T 0
      (childrenToXML (elements.length + 1) (child :: children))
      (held encoding .content [] (ascii "\r\n") (n :: elements)
        (evs ++ [.startTag name attribs false]))
      (held encoding .content [] (ascii "\r\n") (n :: elements)
        (evs ++ [.startTag name attribs false] ++
          childrenEvents (elements.length + 1) (child :: children)))) :
    Takes T 0 ((mk name attribs data (child :: children)).toXML elements.length)
      (held encoding state [] value elements evs)
      (held encoding .content [] (ascii "\r\n") elements
        (evs ++ (mk name attribs data (child :: children)).events elements.length)) := by
  obtain ⟨n, rfl, hstart⟩ := takes_openTag T encoding evs hstate hvalue hname hels hattribs
  have htabs : Takes T 0 (List.replicate elements.length '\t'.toUInt8)
      (held encoding .content [] (ascii "\r\n") (n :: elements)
        (evs ++ [.startTag n.chars attribs false] ++
          childrenEvents (elements.length + 1) (child :: children)))
      (held encoding .content [] (endSpaces elements.length) (n :: elements)
        (evs ++ [.startTag n.chars attribs false] ++
          childrenEvents (elements.length + 1) (child :: children))) := by
    refine takes_spaces (fun c hc => isSpace_of_mem_tabs hc) ?_
    rw [List.length_replicate]
    have hmax : 2 + maxNesting ≤ maxValueSize := by decide
    have hlen : (ascii "\r\n").length = 2 := rfl
    omega
  have hopen := hstart.append takes_lineEnd (by decide)
  have hinner := (hopen.append (hchildren n) (Nat.zero_le _)).append htabs (Nat.zero_le _)
  have hall := (hinner.append takes_endTag (Nat.zero_le _)).append takes_lineEnd (Nat.zero_le _)
  rw [toXML, events]
  simpa [show ascii ">\r\n" = ascii ">" ++ ascii "\r\n" from rfl] using hall

end Reading

mutual

/-- The text of a tag, in the content or at the start. -/
theorem takes_toXML {T : Charsets} {encoding value : List UInt8} {state : ParseState}
    {elements : List ElementName} {evs : List Event}
    (hstate : state = .start ∧ elements = [] ∨ state = .content)
    (hvalue : value.length ≤ 2) :
    (t : Tag) → t.Fits elements.length →
    Takes T 0 (t.toXML elements.length) (held encoding state [] value elements evs)
      (held encoding .content [] (ascii "\r\n") elements (evs ++ t.events elements.length))
  | mk _ _ _ [], h => takes_leaf hstate hvalue h
  | mk _ _ _ (child :: children), h => by
    rw [Fits] at h
    exact takes_node hstate hvalue h.1 h.2.1 h.2.2.1
      fun n => takes_childrenToXML (child :: children) h.2.2.2.2

/-- The texts of children. -/
theorem takes_childrenToXML {T : Charsets} {encoding : List UInt8}
    {elements : List ElementName} {n : ElementName} {evs : List Event} :
    (children : List Tag) → ChildrenFit (elements.length + 1) children →
    Takes T 0 (childrenToXML (elements.length + 1) children)
      (held encoding .content [] (ascii "\r\n") (n :: elements) evs)
      (held encoding .content [] (ascii "\r\n") (n :: elements)
        (evs ++ childrenEvents (elements.length + 1) children))
  | [], _ => by
    rw [childrenToXML, childrenEvents, List.append_nil]
    exact .refl
  | child :: children, h => by
    rw [ChildrenFit] at h
    have hchild : Takes T 0 (child.toXML (elements.length + 1))
        (held encoding .content [] (ascii "\r\n") (n :: elements) evs)
        (held encoding .content [] (ascii "\r\n") (n :: elements)
          (evs ++ child.events (elements.length + 1))) :=
      takes_toXML (.inr rfl) (by decide) child h.1
    have hrest := hchild.append (takes_childrenToXML children h.2) (Nat.zero_le _)
    rw [childrenToXML, childrenEvents, ← List.append_assoc]
    exact hrest

end

/-! ### The tree that is made -/

mutual

/-- The calls for a tag put it among the children of the current one. -/
theorem readTags_events (indent : Nat) {cur : Tag} {outer : List Tag} {evs : List Event} :
    (t : Tag) → readTags (cur :: outer) (t.events indent ++ evs) =
      readTags (cur.pushChild (t.reloaded indent) :: outer) evs
  | mk name attribs data [] => by
    rw [events, reloaded]
    split
    · next h =>
      rw [h]
      rfl
    · rfl
  | mk name attribs data (child :: children) => by
    rw [events, reloaded, List.append_assoc]
    exact readTags_childrenEvents (indent + 1) (child :: children)

/-- The calls for children, in their order. -/
theorem readTags_childrenEvents (indent : Nat) {cur : Tag} {outer : List Tag}
    {evs : List Event} :
    (children : List Tag) → readTags (cur :: outer) (childrenEvents indent children ++ evs) =
      readTags (mk cur.name cur.attribs cur.data
        (cur.children ++ childrenReloaded indent children) :: outer) evs
  | [] => by
    cases cur
    rw [childrenReloaded, List.append_nil, childrenEvents]
    rfl
  | child :: children => by
    rw [childrenEvents, childrenReloaded, List.append_assoc, readTags_events indent child,
      readTags_childrenEvents indent children]
    simp [pushChild, name, attribs, data, Tag.children]

end

mutual

/-- What is read is what has been written, but for the data of tags with children. -/
theorem leafData_reloaded (indent : Nat) : (t : Tag) → (t.reloaded indent).leafData = t.leafData
  | mk name attribs data [] => by rw [reloaded]
  | mk name attribs data (child :: children) => by
    have hchildren := childrenLeafData_reloaded (indent + 1) (child :: children)
    rw [childrenReloaded] at hchildren
    rw [reloaded, childrenReloaded, leafData, leafData, hchildren]

theorem childrenLeafData_reloaded (indent : Nat) :
    (children : List Tag) →
      childrenLeafData (childrenReloaded indent children) = childrenLeafData children
  | [] => by rw [childrenReloaded]
  | child :: children => by
    rw [childrenReloaded, childrenLeafData, childrenLeafData, leafData_reloaded indent child,
      childrenLeafData_reloaded indent children]

end

end Tag

/-- The reader behind a document rests in the content. -/
theorem ends_parse_toXML (T : Charsets) {t : Tag} (h : t.Fits 0) :
    ∃ r, r.events = t.events 0 ∧
      Ends (parse T (t.toXML 0)) Reader.new (.ok (true, r)) := by
  have htakes : Takes T 0 (t.toXML 0) (held [] .start [] [] [] [])
      (held [] .content [] (ascii "\r\n") [] ([] ++ t.events 0)) :=
    Tag.takes_toXML (.inl ⟨rfl, rfl⟩) (by decide) t h
  have hreach := htakes [] 0 (Nat.zero_le _)
  rw [List.append_nil] at hreach
  have hwait : (machine T).tick (held [] .content [] (ascii "\r\n") [] ([] ++ t.events 0) []
      (0 + (t.toXML 0).length)) = .wait := rfl
  have hstart : (ParseState.start : ParseState) ≠ .end_ := by decide
  rcases process_spec T hstart hreach (Incremental.rests_of_wait hwait) with
    ⟨hfail | hcut, -⟩ | ⟨hstuck, -⟩ | ⟨-, -, -, r, hends, -, -, hev⟩
  · cases hwait.symm.trans hfail
  · exact absurd hcut.2.1 (by simp [held])
  · exact absurd hstuck.2.1 (by simp [held])
  · exact ⟨r, hev, hends⟩

/-- A document within the limits of the reader is read as it has been written: the names, the
attributes, the children in their order and the data of the leaves are the same. -/
theorem fromXML_toXML (T : Charsets) (t : Tag) (h : t.Fits 0) :
    ∃ t' enough, t'.leafData = t.leafData ∧
      ∀ fuel, enough ≤ fuel → fromXML T (t.toXML 0) fuel = some (.ok t') := by
  obtain ⟨r, hev, enough, hends⟩ := ends_parse_toXML T h
  refine ⟨t.reloaded 0, enough, t.leafData_reloaded 0, fun fuel hfuel => ?_⟩
  have hread : readTags [rootTag] r.events = .ok [rootTag.pushChild (t.reloaded 0)] := by
    have hroot : readTags [rootTag] (t.events 0 ++ []) =
        readTags [rootTag.pushChild (t.reloaded 0)] [] := Tag.readTags_events 0 t
    rw [List.append_nil] at hroot
    rw [hev, hroot]
    rfl
  have hparse : parse T (t.toXML 0) fuel Reader.new = some (.ok (true, r)) :=
    fuelMono_process T hfuel hends
  simp only [fromXML, hparse, hread]
  rw [closeTags]
  rfl

/-- A list of favourites. -/
theorem fromXML_toXML_favorites :
    ∃ t' enough, t'.leafData = (Tag.mk (ascii "Favorites") [(ascii "Name", ascii "a<b & 'c'")] []
        [.mk (ascii "Hub") [] (ascii " x > y ") [], .mk (ascii "Hub") [] [] []]) ∧
      ∀ fuel, enough ≤ fuel → fromXML plainCharsets
        ((Tag.mk (ascii "Favorites") [(ascii "Name", ascii "a<b & 'c'")] []
          [.mk (ascii "Hub") [] (ascii " x > y ") [], .mk (ascii "Hub") [] [] []]).toXML 0) fuel =
        some (.ok t') := by
  have h := fromXML_toXML plainCharsets (Tag.mk (ascii "Favorites")
    [(ascii "Name", ascii "a<b & 'c'")] []
    [.mk (ascii "Hub") [] (ascii " x > y ") [], .mk (ascii "Hub") [] [] []]) (by
      simp only [Tag.Fits, Tag.ChildrenFit]
      decide +kernel)
  simpa only [Tag.leafData, Tag.childrenLeafData] using h

end Blacklink.Xml
