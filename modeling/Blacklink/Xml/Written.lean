import Blacklink.Xml.SimpleXML
import Blacklink.Xml.Processing

/-!
# Reading what has been written

What the reader makes of the texts that `SimpleXML` and the queue file are made of: start tags with
escaped attributes, escaped data, end tags and the spaces between them. Every lemma says where the
reader is behind the text, whatever follows.
-/

namespace Blacklink.Xml

open Blacklink.Base Blacklink.Text

/-! ### Names and values within the limits of the reader -/

/-- A name the reader takes. -/
def ValidName (name : List UInt8) : Prop :=
  name.length ≤ maxNameSize ∧ (∃ c ∈ name.head?, isNameStartChar c = true) ∧
    ∀ c ∈ name, isNameChar c = true

instance (name : List UInt8) : Decidable (ValidName name) := by
  unfold ValidName
  infer_instance

/-- A value the reader takes: it is not longer than it may be, and an entity reference leaves room
for one character more. -/
def FitsValue (isAttrib : Bool) (value : List UInt8) : Prop :=
  value.length ≤ maxValueSize ∧
    ∀ i, (h : i < value.length) → isEscaped isAttrib value[i] = true → i + 1 < maxValueSize

instance (isAttrib : Bool) (value : List UInt8) : Decidable (FitsValue isAttrib value) := by
  unfold FitsValue
  infer_instance

/-- The room before a character of a value. -/
theorem FitsValue.room {isAttrib : Bool} {acc value : List UInt8} {c : UInt8}
    (h : FitsValue isAttrib (acc ++ c :: value)) :
    acc.length + 1 ≤ maxValueSize ∧
      (isEscaped isAttrib c = true → acc.length + 1 < maxValueSize) := by
  constructor
  · have hlen := h.1
    simp only [List.length_append, List.length_cons] at hlen
    omega
  · intro hc
    exact h.2 acc.length (by simp) (by simpa using hc)

/-- The text of a character, and of the rest. -/
theorem escape_cons (isAttrib : Bool) (c : UInt8) (str : List UInt8) :
    escape isAttrib (c :: str) =
      (if isEscaped isAttrib c then replacement c else [c]) ++ escape isAttrib str := by
  rw [escape]
  split <;> rfl

theorem ValidName.exists_cons {name : List UInt8} (h : ValidName name) :
    ∃ c rest, name = c :: rest ∧ isNameStartChar c = true ∧ (∀ c' ∈ rest, isNameChar c' = true) ∧
      rest.length + 1 ≤ maxNameSize := by
  obtain ⟨hlen, ⟨c, hc, hstart⟩, hchars⟩ := h
  cases name with
  | nil => cases hc
  | cons c' rest =>
    cases hc
    exact ⟨c, rest, rfl, hstart, fun c' hc' => hchars c' (by simp [hc']), hlen⟩

/-! ### Character classes -/

private theorem isNameStartChar_ne {c : UInt8} (h : isNameStartChar c = true) (c' : UInt8)
    (hc' : isNameStartChar c' = false) : c ≠ c' := by
  rintro rfl
  rw [h] at hc'
  cases hc'

private theorem isNameChar_ne {c : UInt8} (h : isNameChar c = true) (c' : UInt8)
    (hc' : isNameChar c' = false) : c ≠ c' := by
  rintro rfl
  rw [h] at hc'
  cases hc'

private theorem not_isSpace_of_isNameChar {c : UInt8} (h : isNameChar c = true) :
    isSpace c = false := by
  cases hs : isSpace c with
  | false => rfl
  | true =>
    simp only [isSpace, Bool.or_eq_true, decide_eq_true_eq] at hs
    rcases hs with ((rfl | rfl) | rfl) | rfl <;> exact absurd h (by decide)

private theorem isNameChar_of_isNameStartChar {c : UInt8} (h : isNameStartChar c = true) :
    isNameChar c = true := by
  simp [isNameChar, h]

private theorem inElementName_of_isNameChar {c : UInt8} (h : isNameChar c = true) :
    inElementName c = true := by
  have hslash := isNameChar_ne h '/'.toUInt8 (by decide)
  have hgt := isNameChar_ne h '>'.toUInt8 (by decide)
  simp [inElementName, not_isSpace_of_isNameChar h, hslash, hgt, h]

private theorem inAttrName_of_isNameChar {c : UInt8} (h : isNameChar c = true) :
    inAttrName c = true := by
  have heq := isNameChar_ne h '='.toUInt8 (by decide)
  simp [inAttrName, not_isSpace_of_isNameChar h, heq, h]

/-- An attribute as it is written. -/
def attribText (attrib : List UInt8 × List UInt8) : List UInt8 :=
  ascii " " ++ attrib.1 ++ ascii "=\"" ++ escape true attrib.2 ++ ascii "\""

/-- The start of a tag as it is written, up to its attributes. -/
def tagText (name : List UInt8) (attribs : StringPairList) : List UInt8 :=
  ascii "<" ++ name ++ attribs.flatMap attribText

/-- A reader of UTF-8 text, wherever it is in its buffer. -/
def held (encoding : List UInt8) (state : ParseState) (attribs : StringPairList)
    (value : List UInt8) (elements : List ElementName) (events : List Event)
    (buf : List UInt8) (pos : Nat) : Reader :=
  ⟨buf, pos, attribs, value, encoding, charsetUtf8, state, elements, events⟩

/-- The text takes the reader from one state to another, once so many characters are known behind
it. -/
def Takes (T : Charsets) (ahead : Nat) (text : List UInt8) (a b : List UInt8 → Nat → Reader) :
    Prop :=
  ∀ rest pos, ahead ≤ rest.length → Reaches T (a (text ++ rest) pos) (b rest (pos + text.length))

section Takes

variable {T : Charsets} {a b c : List UInt8 → Nat → Reader} {text text' : List UInt8} {m n : Nat}

theorem Takes.refl : Takes T 0 [] a a := fun rest pos _ => .refl (a rest pos)

/-- One text behind another. -/
theorem Takes.append (h : Takes T m text a b) (h' : Takes T n text' b c)
    (hm : m ≤ text'.length + n) : Takes T n (text ++ text') a c := by
  intro rest pos hrest
  have hfst := h (text' ++ rest) pos (by rw [List.length_append]; omega)
  have hsnd := h' rest (pos + text.length) hrest
  rw [List.append_assoc, List.length_append, ← Nat.add_assoc]
  exact hfst.trans hsnd

theorem Takes.mono (h : Takes T m text a b) (hmn : m ≤ n) : Takes T n text a b :=
  fun rest pos hrest => h rest pos (hmn.trans hrest)

theorem Takes.of_tick
    (h : ∀ rest pos, n ≤ rest.length →
      tick T (a (text ++ rest) pos) = .again (b rest (pos + text.length))) :
    Takes T n text a b :=
  fun rest pos hrest => .tick (h rest pos hrest)

end Takes

section Tags

variable {T : Charsets} {encoding : List UInt8} {attribs : StringPairList} {value : List UInt8}
  {elements : List ElementName} {events : List Event}

private theorem literal_second {lit lit' rest : List UInt8} {l l' c : UInt8} {withSpace : Bool}
    {newState : ParseState} {r : Reader} (hlit : lit = l :: l' :: lit') (hc : c ≠ l')
    (hbuf : r.buf = l :: c :: rest) : literal lit withSpace newState r = .ok (false, r) := by
  rw [literal, hlit, hbuf, matchLiteral, if_pos rfl, matchLiteral, if_neg hc]

private theorem tickHandler_of_take {h : Handler} {r r' : Reader} (hr : h r = .ok (true, r'))
    (hpos : r.pos < r'.pos) (hstate : ¬ (r'.state = .content ∧ r'.state ≠ r.state)) :
    tickHandler h r = .again r' := by
  rw [tickHandler, hr]
  refine (if_neg fun hsame => ?_).trans (if_neg hstate)
  omega

private theorem handler_start_element {r r' : Reader} {c : UInt8} {rest : List UInt8}
    (hbuf : r.buf = '<'.toUInt8 :: c :: rest) (hc : isNameStartChar c = true)
    (h : element r = .ok (true, r')) : handler T .start r = .ok (true, r') := by
  have hbom : literal byteOrderMark false .start r = .ok (false, r) := by
    rw [literal, hbuf]
    rfl
  have hdecl : literal (ascii "<?xml") true .declVersion r = .ok (false, r) :=
    literal_second rfl (isNameStartChar_ne hc '?'.toUInt8 (by decide)) hbuf
  have hcomment : literal (ascii "<!--") false .comment r = .ok (false, r) :=
    literal_second rfl (isNameStartChar_ne hc '!'.toUInt8 (by decide)) hbuf
  simp only [handler, Handler.orElse, hbom, hdecl, hcomment, h]

/-- A `<` of the content that begins no comment and no CDATA section. -/
private theorem handler_content_lt {r : Reader} {c : UInt8} {rest : List UInt8}
    (hbuf : r.buf = '<'.toUInt8 :: c :: rest) (hc : c ≠ '!'.toUInt8) :
    handler T .content r =
      element.orElse ((literal (ascii "</") false .elementEnd).orElse
        (Handler.orElse content (orError "Expecting content, element or comment"))) r := by
  have hskip : skipSpace true r = .ok (false, r) := by
    rw [skipSpace, hbuf]
    simp only [Reader.needChars, hbuf]
    rfl
  have hcomment : literal (ascii "<!--") false .comment r = .ok (false, r) :=
    literal_second rfl hc hbuf
  have hcdata : literal (ascii "<![CDATA[") false .cdata r = .ok (false, r) :=
    literal_second rfl hc hbuf
  simp only [handler, Handler.orElse, hskip, hcomment, hcdata]

/-! ### Start tags -/

/-- `<` and the first character of a name. -/
theorem takes_element {state : ParseState} (hstate : state = .start ∨ state = .content) {c : UInt8}
    (hc : isNameStartChar c = true) (hels : elements.length < maxNesting) :
    Takes T 0 ['<'.toUInt8, c] (held encoding state attribs value elements events)
      (held encoding .elementName attribs value (⟨c, [], hc⟩ :: elements) events) := by
  refine .of_tick fun rest pos _ => ?_
  have hel : element (held encoding state attribs value elements events
      ('<'.toUInt8 :: c :: rest) pos) = .ok (true, held encoding .elementName attribs value
        (⟨c, [], hc⟩ :: elements) events rest (pos + 2)) :=
    (dif_pos ⟨rfl, hc⟩).trans (if_neg (Nat.not_le.mpr hels))
  rcases hstate with rfl | rfl
  · exact tickHandler_of_take (handler_start_element rfl hc hel) (by simp [held])
      (by simp [held])
  · have hne : c ≠ '!'.toUInt8 := isNameStartChar_ne hc '!'.toUInt8 (by decide)
    have hhandler : handler T .content (held encoding .content attribs value elements events
        ('<'.toUInt8 :: c :: rest) pos) = .ok (true, held encoding .elementName attribs value
          (⟨c, [], hc⟩ :: elements) events rest (pos + 2)) := by
      rw [handler_content_lt rfl hne]
      exact orElse_of_true hel
    exact tickHandler_of_take hhandler (by simp [held]) (by simp [held])

private theorem tick_elementName {r : Reader} (h : r.state = .elementName) :
    tick T r = tickScan nameSlot inElementName behindName r := by
  rw [tick, h]

private theorem tick_elementAttrName {r : Reader} (h : r.state = .elementAttrName) :
    tick T r = tickScan attribNameSlot inAttrName behindAttrName r := by
  rw [tick, h]

private theorem tick_elementAttrValue {r : Reader} (h : r.state = .elementAttrValueQuot) :
    tick T r = tickScan attribValueSlot (inAttrValue .elementAttrValueQuot)
      (behindAttrValue T) r := by
  rw [tick, h]

section Scan

variable {S : Slot} {inside : UInt8 → Bool} {behind : UInt8 → Reader → Tick Reader}
  {state : ParseState}

/-- The characters of a name or a value. -/
private theorem takes_scan
    (hscan : ∀ r : Reader, r.state = state → tick T r = tickScan S inside behind r)
    {cs : List UInt8} (hin : ∀ c ∈ cs, inside c = true)
    (hfit : ∀ rest pos, S.fits (held encoding state attribs value elements events rest pos)
      cs.length = true) :
    Takes T 0 cs (held encoding state attribs value elements events)
      (held encoding state (S.extend cs (attribs, elements)).1 value
        (S.extend cs (attribs, elements)).2 events) := by
  intro rest pos _
  have hreach := reaches_scan (r := held encoding state attribs value elements events
    (cs ++ rest) pos) hscan rfl hin (hfit (cs ++ rest) pos)
  simp only [Slot.extendReader, Reader.advancePos, held, List.drop_left] at hreach
  exact hreach

/-- What stands behind them. -/
private theorem takes_behind
    (hscan : ∀ r : Reader, r.state = state → tick T r = tickScan S inside behind r)
    {c : UInt8} {cs : List UInt8} (hc : inside c = false)
    (hfit : ∀ rest pos, S.fits (held encoding state attribs value elements events rest pos) 0 =
      true) {n : Nat} {b : List UInt8 → Nat → Reader}
    (hb : ∀ rest pos, n ≤ rest.length →
      behind c (held encoding state attribs value elements events (c :: cs ++ rest) pos) =
        .again (b rest (pos + (cs.length + 1)))) :
    Takes T n (c :: cs) (held encoding state attribs value elements events) b := by
  refine .of_tick fun rest pos hrest => ?_
  rw [hscan _ rfl, tickScan, hfit]
  refine Eq.trans ?_ (hb rest pos hrest)
  simp only [held, List.cons_append, hc, Bool.not_true, Bool.false_eq_true, if_false]

end Scan

/-- The characters of an element name. -/
theorem takes_elementName {c : UInt8} {hc : isNameStartChar c = true} {cs : List UInt8}
    (hcs : ∀ c ∈ cs, isNameChar c = true) (hlen : cs.length + 1 ≤ maxNameSize) :
    Takes T 0 cs (held encoding .elementName attribs value (⟨c, [], hc⟩ :: elements) events)
      (held encoding .elementName attribs value (⟨c, cs, hc⟩ :: elements) events) := by
  have hfit : 1 + cs.length ≤ maxNameSize := by omega
  exact takes_scan (fun r hr => tick_elementName hr)
    (fun c hc => inElementName_of_isNameChar (hcs c hc)) fun rest pos => decide_eq_true hfit

/-- `<`, a name and the character behind it. -/
theorem takes_openName {state : ParseState} (hstate : state = .start ∨ state = .content)
    {name : List UInt8} (hname : ValidName name) (hels : elements.length < maxNesting) :
    ∃ n : ElementName, n.chars = name ∧ ∀ (c : UInt8) (b : List UInt8 → Nat → Reader),
      inElementName c = false →
      (∀ rest pos, behindName c (held encoding .elementName attribs value (n :: elements) events
        (c :: rest) pos) = .again (b rest (pos + 1))) →
      Takes T 0 (ascii "<" ++ name ++ [c]) (held encoding state attribs value elements events)
        b := by
  obtain ⟨c₀, cs, rfl, hstart, hchars, hlen⟩ := hname.exists_cons
  refine ⟨⟨c₀, cs, hstart⟩, rfl, fun c b hc hb => ?_⟩
  have hopen : Takes T 0 (ascii "<" ++ (c₀ :: cs))
      (held encoding state attribs value elements events)
      (held encoding .elementName attribs value (⟨c₀, cs, hstart⟩ :: elements) events) :=
    (takes_element hstate hstart hels).append (takes_elementName hchars hlen) (Nat.zero_le _)
  have hbehind : Takes T 0 [c] (held encoding .elementName attribs value
      (⟨c₀, cs, hstart⟩ :: elements) events) b :=
    takes_behind (fun r hr => tick_elementName hr) hc (by exact fun _ _ => decide_eq_true hlen)
      fun rest pos _ => hb rest pos
  exact hopen.append hbehind (Nat.zero_le _)

/-! ### Entity references -/

private theorem entity_replacement {isAttrib : Bool} {c : UInt8}
    (h : isEscaped isAttrib c = true) :
    ∃ cs, replacement c = '&'.toUInt8 :: cs ∧ 3 ≤ cs.length ∧ ∀ rest : List UInt8,
      entity (fun n => ('&'.toUInt8 :: cs ++ rest).getD n 0) = some (cs.length + 1, [c]) := by
  simp only [isEscaped, Bool.or_eq_true, Bool.and_eq_true, decide_eq_true_eq] at h
  rcases h with ((rfl | rfl) | rfl) | ⟨-, rfl | rfl⟩
  · exact ⟨ascii "lt;", rfl, by decide, fun _ => rfl⟩
  · exact ⟨ascii "amp;", rfl, by decide, fun _ => rfl⟩
  · exact ⟨ascii "gt;", rfl, by decide, fun _ => rfl⟩
  · exact ⟨ascii "apos;", rfl, by decide, fun _ => rfl⟩
  · exact ⟨ascii "quot;", rfl, by decide, fun _ => rfl⟩

private theorem tickEntref_of_entity {d cs : List UInt8} {set : Reader → List UInt8 → Reader}
    {r : Reader} {n : Nat} (hroom : d.length + 1 < maxValueSize) (hlen : 7 ≤ r.buf.length)
    (he : entity r.charAt = some (n, cs)) :
    tickEntref d set r = .again ((set r (d ++ cs)).advancePos n) := by
  rw [tickEntref, if_neg (by omega), if_neg (by omega), he]

/-! ### Attributes -/

/-- The first character of an attribute's name. -/
theorem takes_elementAttr {c : UInt8} (hc : isNameStartChar c = true) :
    Takes T 0 [c] (held encoding .elementAttr attribs value elements events)
      (held encoding .elementAttrName (([c], []) :: attribs) value elements events) := by
  refine .of_tick fun rest pos _ => ?_
  have hspace : isSpace c = false :=
    not_isSpace_of_isNameChar (isNameChar_of_isNameStartChar hc)
  have hattr : elementAttr (held encoding .elementAttr attribs value elements events
      (c :: rest) pos) = .ok (true, held encoding .elementAttrName (([c], []) :: attribs) value
        elements events rest (pos + 1)) := if_pos hc
  have hother : tickOther T (held encoding .elementAttr attribs value elements events
      (c :: rest) pos) = tickHandler (handler T .elementAttr)
        (held encoding .elementAttr attribs value elements events (c :: rest) pos) := by
    refine if_neg ?_
    rw [hspace, Bool.false_and]
    decide
  exact hother.trans
    (tickHandler_of_take (orElse_of_true hattr) (by simp [held]) (by simp [held]))

/-- An attribute's name and the quote before its value. -/
theorem takes_attribName {name : List UInt8} (hname : ValidName name) :
    Takes T 0 (name ++ ascii "=\"") (held encoding .elementAttr attribs value elements events)
      (held encoding .elementAttrValueQuot ((name, []) :: attribs) value elements events) := by
  obtain ⟨c, cs, rfl, hstart, hchars, hlen⟩ := hname.exists_cons
  have hfit : 1 + cs.length ≤ maxNameSize := by omega
  have hscan : Takes T 0 cs
      (held encoding .elementAttrName (([c], []) :: attribs) value elements events)
      (held encoding .elementAttrName ((c :: cs, []) :: attribs) value elements events) :=
    takes_scan (fun r hr => tick_elementAttrName hr)
      (fun c hc => inAttrName_of_isNameChar (hchars c hc)) fun rest pos => decide_eq_true hfit
  have heq : Takes T 0 (ascii "=")
      (held encoding .elementAttrName ((c :: cs, []) :: attribs) value elements events)
      (held encoding .elementAttrValue ((c :: cs, []) :: attribs) value elements events) :=
    takes_behind (fun r hr => tick_elementAttrName hr) (by decide)
      (by exact fun _ _ => decide_eq_true hlen) fun rest pos _ => rfl
  have hquote : Takes T 0 (ascii "\"")
      (held encoding .elementAttrValue ((c :: cs, []) :: attribs) value elements events)
      (held encoding .elementAttrValueQuot ((c :: cs, []) :: attribs) value elements events) :=
    .of_tick fun rest pos _ => rfl
  exact ((takes_elementAttr hstart).append hscan (Nat.zero_le _)).append
    (heq.append hquote (Nat.zero_le _)) (Nat.zero_le _)

/-- A character of an attribute's value, as it is written. A quote has to be escaped. -/
private theorem takes_valueChar {isAttrib : Bool} {name acc : List UInt8} {c : UInt8}
    (hquote : isEscaped isAttrib c = false → c ≠ '"'.toUInt8)
    (hlen : acc.length + 1 ≤ maxValueSize)
    (hroom : isEscaped isAttrib c = true → acc.length + 1 < maxValueSize) :
    Takes T 3 (if isEscaped isAttrib c then replacement c else [c])
      (held encoding .elementAttrValueQuot ((name, acc) :: attribs) value elements events)
      (held encoding .elementAttrValueQuot ((name, acc ++ [c]) :: attribs) value elements
        events) := by
  split
  · next hc =>
    obtain ⟨cs, hcs, hcslen, hentity⟩ := entity_replacement hc
    rw [hcs]
    refine takes_behind (fun r hr => tick_elementAttrValue hr) (by decide)
      (by exact fun _ _ => decide_eq_true (show acc.length ≤ maxValueSize by omega))
      fun rest pos hrest => ?_
    have htick : tickEntref acc Reader.setAttribValue (held encoding .elementAttrValueQuot
        ((name, acc) :: attribs) value elements events ('&'.toUInt8 :: cs ++ rest) pos) = _ :=
      tickEntref_of_entity (hroom hc)
        (show 7 ≤ ('&'.toUInt8 :: cs ++ rest).length by simp; omega) (hentity rest)
    refine htick.trans ?_
    simp [held, Reader.setAttribValue, Reader.advancePos]
  · next hc =>
    have hne := hquote (Bool.not_eq_true _ ▸ hc)
    have hin : ∀ c' ∈ [c], inAttrValue .elementAttrValueQuot c' = true := by
      simp only [isEscaped, Bool.or_eq_true, decide_eq_true_eq, not_or] at hc
      simp [inAttrValue, hc, hne]
    exact (takes_scan (fun r hr => tick_elementAttrValue hr) hin
      (by exact fun _ _ => decide_eq_true hlen)).mono (Nat.zero_le _)

/-- An attribute's value, as it is written by the rules for attributes, or by those for data when
there are no quotes in it. -/
theorem takes_value {isAttrib : Bool} {name acc v : List UInt8}
    (hquote : ∀ c ∈ v, isEscaped isAttrib c = false → c ≠ '"'.toUInt8)
    (h : FitsValue isAttrib (acc ++ v)) :
    Takes T 3 (escape isAttrib v)
      (held encoding .elementAttrValueQuot ((name, acc) :: attribs) value elements events)
      (held encoding .elementAttrValueQuot ((name, acc ++ v) :: attribs) value elements
        events) := by
  induction v generalizing acc with
  | nil =>
    rw [List.append_nil]
    exact Takes.refl.mono (Nat.zero_le _)
  | cons c v ih =>
    have hacc : FitsValue isAttrib ((acc ++ [c]) ++ v) := by simpa using h
    have hrest := ih (fun c' hc' => hquote c' (List.mem_cons_of_mem _ hc')) hacc
    rw [List.append_assoc, List.singleton_append] at hrest
    rw [escape_cons]
    exact (takes_valueChar (hquote c List.mem_cons_self) h.room.1 h.room.2).append hrest
      (Nat.le_add_left _ _)

/-- The quote is one of the characters that are escaped in attributes. -/
theorem ne_quote_of_not_isEscaped {c : UInt8} (h : isEscaped true c = false) :
    c ≠ '"'.toUInt8 := by
  rintro rfl
  exact absurd h (by decide)

/-- An attribute, as it is written behind a space, its value by either rules. -/
theorem takes_attribOf {isAttrib : Bool} {attrib : List UInt8 × List UInt8}
    (hquote : ∀ c ∈ attrib.2, isEscaped isAttrib c = false → c ≠ '"'.toUInt8)
    (hname : ValidName attrib.1) (hvalue : FitsValue isAttrib attrib.2) :
    Takes T 2 (attrib.1 ++ ascii "=\"" ++ escape isAttrib attrib.2 ++ ascii "\"")
      (held encoding .elementAttr attribs value elements events)
      (held encoding .elementAttr (attrib :: attribs) value elements events) := by
  have hend : Takes T 0 (ascii "\"")
      (held encoding .elementAttrValueQuot (attrib :: attribs) value elements events)
      (held encoding .elementAttr (attrib :: attribs) value elements events) :=
    takes_behind (fun r hr => tick_elementAttrValue hr) (by decide)
      (by exact fun _ _ => decide_eq_true hvalue.1) fun rest pos _ => rfl
  have hval : Takes T 3 (escape isAttrib attrib.2)
      (held encoding .elementAttrValueQuot ((attrib.1, []) :: attribs) value elements events)
      (held encoding .elementAttrValueQuot (attrib :: attribs) value elements events) :=
    takes_value hquote (show FitsValue isAttrib ([] ++ attrib.2) from hvalue)
  exact ((takes_attribName hname).append hval (Nat.zero_le _)).append
    (hend.mono (Nat.zero_le 2)) (by decide)

/-- An attribute, as it is written behind a space. -/
theorem takes_attrib {attrib : List UInt8 × List UInt8} (hname : ValidName attrib.1)
    (hvalue : FitsValue true attrib.2) :
    Takes T 2 (attrib.1 ++ ascii "=\"" ++ escape true attrib.2 ++ ascii "\"")
      (held encoding .elementAttr attribs value elements events)
      (held encoding .elementAttr (attrib :: attribs) value elements events) :=
  takes_attribOf (fun _ _ hc => ne_quote_of_not_isEscaped hc) hname hvalue

/-- Attributes, as they are written behind another one. -/
theorem takes_attribs {l : StringPairList}
    (h : ∀ attrib ∈ l, ValidName attrib.1 ∧ FitsValue true attrib.2) :
    Takes T 2 (l.flatMap attribText)
      (held encoding .elementAttr attribs value elements events)
      (held encoding .elementAttr (l.reverse ++ attribs) value elements events) := by
  induction l generalizing attribs with
  | nil => exact Takes.refl.mono (Nat.zero_le _)
  | cons attrib l ih =>
    have hspace : Takes T 0 (ascii " ")
        (held encoding .elementAttr attribs value elements events)
        (held encoding .elementAttr attribs value elements events) :=
      .of_tick fun rest pos _ => rfl
    have hone : Takes T 2 (attrib.1 ++ ascii "=\"" ++ escape true attrib.2 ++ ascii "\"")
        (held encoding .elementAttr attribs value elements events)
        (held encoding .elementAttr (attrib :: attribs) value elements events) :=
      takes_attrib (h attrib (by simp)).1 (h attrib (by simp)).2
    have hall := (hspace.append hone (Nat.zero_le _)).append
      (ih fun attrib' h' => h attrib' (by simp [h'])) (Nat.le_add_left _ _)
    simpa [attribText] using hall

/-- A start tag up to its attributes, where there are any. -/
theorem takes_tagText {state : ParseState} (hstate : state = .start ∨ state = .content)
    {name : List UInt8} (hname : ValidName name) (hels : elements.length < maxNesting)
    {attrib : List UInt8 × List UInt8} {l : StringPairList}
    (h : ∀ attrib' ∈ attrib :: l, ValidName attrib'.1 ∧ FitsValue true attrib'.2) :
    ∃ n : ElementName, n.chars = name ∧
      Takes T 2 (tagText name (attrib :: l)) (held encoding state [] value elements events)
        (held encoding .elementAttr (attrib :: l).reverse value (n :: elements) events) := by
  obtain ⟨n, hn, hopen⟩ := takes_openName (T := T) hstate hname hels
  refine ⟨n, hn, ?_⟩
  have htail : ∀ attrib' ∈ l, ValidName attrib'.1 ∧ FitsValue true attrib'.2 :=
    fun attrib' h' => h attrib' (List.mem_cons_of_mem _ h')
  have hspace := hopen ' '.toUInt8
    (held encoding .elementAttr [] value (n :: elements) events) (by decide) fun _ _ => rfl
  have hone := hspace.append (takes_attrib (h attrib (by simp)).1 (h attrib (by simp)).2)
    (Nat.zero_le _)
  have hall := hone.append (takes_attribs htail) (Nat.le_add_left _ _)
  have htext : tagText name (attrib :: l) = ascii "<" ++ name ++ [' '.toUInt8] ++
      (attrib.1 ++ ascii "=\"" ++ escape true attrib.2 ++ ascii "\"") ++ l.flatMap attribText := by
    simp [tagText, attribText, show ascii " " = [' '.toUInt8] from rfl]
  rw [htext, List.reverse_cons]
  exact hall

/-- A start tag. -/
theorem takes_startTag {state : ParseState} (hstate : state = .start ∨ state = .content)
    {name : List UInt8} (hname : ValidName name) (hels : elements.length < maxNesting)
    {l : StringPairList} (h : ∀ attrib ∈ l, ValidName attrib.1 ∧ FitsValue true attrib.2) :
    ∃ n : ElementName, n.chars = name ∧
      Takes T 1 (tagText name l ++ ascii ">") (held encoding state [] value elements events)
        (held encoding .content [] [] (n :: elements) (events ++ [.startTag name l false])) := by
  cases l with
  | nil =>
    obtain ⟨n, rfl, hopen⟩ := takes_openName hstate hname hels
    refine ⟨n, rfl, ?_⟩
    rw [tagText, List.flatMap_nil, List.append_nil]
    exact (hopen '>'.toUInt8 _ (by decide) fun _ _ => rfl).mono (Nat.zero_le _)
  | cons attrib l =>
    obtain ⟨n, rfl, htext⟩ := takes_tagText hstate hname hels h
    refine ⟨n, rfl, htext.append ?_ (by decide)⟩
    have hgt : Takes T 0 (ascii ">")
        (held encoding .elementAttr (attrib :: l).reverse value (n :: elements) events)
        (held encoding .content [] [] (n :: elements)
          (events ++ [.startTag n.chars (attrib :: l).reverse.reverse false])) :=
      .of_tick fun rest pos _ => rfl
    rw [List.reverse_reverse] at hgt
    exact hgt.mono (Nat.zero_le _)

/-- A tag without content. -/
theorem takes_simpleTag {state : ParseState} (hstate : state = .start ∨ state = .content)
    {name : List UInt8} (hname : ValidName name) (hels : elements.length < maxNesting)
    {l : StringPairList} (h : ∀ attrib ∈ l, ValidName attrib.1 ∧ FitsValue true attrib.2) :
    Takes T 0 (tagText name l ++ ascii "/>") (held encoding state [] value elements events)
      (held encoding .content [] [] elements (events ++ [.startTag name l true])) := by
  have hgt : ∀ (n : ElementName) (as : StringPairList), Takes T 0 (ascii ">")
      (held encoding .elementEndSimple as value (n :: elements) events)
      (held encoding .content [] [] elements
        (events ++ [.startTag n.chars as.reverse true])) :=
    fun n as => .of_tick fun rest pos _ => rfl
  cases l with
  | nil =>
    obtain ⟨n, rfl, hopen⟩ := takes_openName hstate hname hels
    have hslash := hopen '/'.toUInt8 (held encoding .elementEndSimple [] value (n :: elements)
      events) (by decide) fun _ _ => rfl
    have hall := hslash.append (hgt n []) (Nat.zero_le _)
    have htext : tagText n.chars [] ++ ascii "/>" =
        ascii "<" ++ n.chars ++ ['/'.toUInt8] ++ ascii ">" := by
      rw [tagText, List.flatMap_nil, List.append_nil, List.append_assoc _ ['/'.toUInt8]]
      rfl
    rw [htext]
    exact hall
  | cons attrib l =>
    obtain ⟨n, rfl, htext⟩ := takes_tagText hstate hname hels h
    have hslash : Takes T 0 (ascii "/")
        (held encoding .elementAttr (attrib :: l).reverse value (n :: elements) events)
        (held encoding .elementEndSimple (attrib :: l).reverse value (n :: elements) events) :=
      .of_tick fun rest pos _ => rfl
    have hend := hslash.append (hgt n (attrib :: l).reverse) (Nat.zero_le _)
    rw [List.reverse_reverse] at hend
    exact htext.append hend (by decide)

/-! ### Content -/

private theorem handler_content_plain {r : Reader} {c c' : UInt8} {rest : List UInt8}
    (hbuf : r.buf = c :: c' :: rest) (hspace : isSpace c = false) (hlt : c ≠ '<'.toUInt8)
    (hamp : c ≠ '&'.toUInt8) (hlen : r.value.length + 1 ≤ maxValueSize) :
    handler T .content r = .ok (true, { r.advancePos 1 with value := r.value ++ [c] }) := by
  have hneed : r.needChars 1 = true := by simp [Reader.needChars, hbuf]
  have hchar : r.charAt 0 = c := by simp [Reader.charAt, hbuf]
  have hskip : skipSpace true r = .ok (false, r) := by
    simp [skipSpace, hneed, hbuf, skipSpaceLoop, hspace]
  have hlit : ∀ (lit : List UInt8) {lit' : List UInt8} {newState : ParseState},
      lit = '<'.toUInt8 :: lit' → literal lit false newState r = .ok (false, r) := by
    rintro lit lit' newState rfl
    rw [literal, hbuf, matchLiteral, if_neg hlt]
  have helement : element r = .ok (false, r) := by
    have hneed : r.needChars 2 = true := by simp [Reader.needChars, hbuf]
    simp [element, hneed, hchar, hlt]
  have hcontent : content r = .ok (true, { r.advancePos 1 with value := r.value ++ [c] }) := by
    simp [content, hneed, hchar, hlt, hamp, Reader.append, Nat.not_lt.mpr hlen]
  rw [handler, orElse_of_decline hskip, orElse_of_decline (hlit (ascii "<!--") rfl),
    orElse_of_decline (hlit (ascii "<![CDATA[") rfl), orElse_of_decline helement,
    orElse_of_decline (hlit (ascii "</") rfl), orElse_of_true hcontent]

/-- A space between tags, or in data. -/
theorem takes_space {c : UInt8} (hc : isSpace c = true) (hlen : value.length + 1 ≤ maxValueSize) :
    Takes T 0 [c] (held encoding .content attribs value elements events)
      (held encoding .content attribs (value ++ [c]) elements events) := by
  refine .of_tick fun rest pos _ => ?_
  exact (if_pos hc).trans (if_neg (Nat.not_lt.mpr hlen))

/-- A character of data, as it is written. -/
private theorem takes_dataChar {c : UInt8} (hlen : value.length + 1 ≤ maxValueSize)
    (hroom : isEscaped false c = true → value.length + 1 < maxValueSize) :
    Takes T 3 (if isEscaped false c then replacement c else [c])
      (held encoding .content attribs value elements events)
      (held encoding .content attribs (value ++ [c]) elements events) := by
  split
  · next hc =>
    obtain ⟨cs, hcs, hcslen, hentity⟩ := entity_replacement hc
    rw [hcs]
    refine .of_tick fun rest pos hrest => ?_
    have hne : cs ++ rest ≠ [] := by
      intro h
      rw [List.append_eq_nil_iff] at h
      simp [h.1] at hcslen
    have htick : tickEntref value Reader.setValue (held encoding .content attribs value elements
        events ('&'.toUInt8 :: cs ++ rest) pos) = _ :=
      tickEntref_of_entity (hroom hc)
        (show 7 ≤ ('&'.toUInt8 :: cs ++ rest).length by simp; omega) (hentity rest)
    refine ((if_pos ⟨rfl, hne⟩ : _ = _).trans htick).trans ?_
    simp [held, Reader.setValue, Reader.advancePos]
  · next hc =>
    by_cases hspace : isSpace c = true
    · exact (takes_space hspace hlen).mono (Nat.zero_le _)
    · simp only [isEscaped, Bool.or_eq_true, Bool.false_and, decide_eq_true_eq, not_or] at hc
      refine .of_tick fun rest pos hrest => ?_
      obtain ⟨c', rest', rfl⟩ : ∃ c' rest', rest = c' :: rest' := by
        cases rest with
        | nil => simp at hrest
        | cons c' rest' => exact ⟨c', rest', rfl⟩
      have hhandler : handler T .content (held encoding .content attribs value elements events
          (c :: c' :: rest') pos) = .ok (true, held encoding .content attribs (value ++ [c])
            elements events (c' :: rest') (pos + 1)) :=
        handler_content_plain rfl (Bool.not_eq_true _ ▸ hspace) hc.1.1.1 hc.1.1.2 hlen
      refine ((if_neg hspace).trans (if_neg fun h => hc.1.1.2 h.1)).trans ?_
      exact tickHandler_of_take hhandler (by simp [held]) (by simp [held])

/-- Data, as it is written. -/
theorem takes_data {v : List UInt8} (h : FitsValue false (value ++ v)) :
    Takes T 3 (escape false v) (held encoding .content attribs value elements events)
      (held encoding .content attribs (value ++ v) elements events) := by
  induction v generalizing value with
  | nil =>
    rw [List.append_nil]
    exact Takes.refl.mono (Nat.zero_le _)
  | cons c v ih =>
    have hacc : FitsValue false ((value ++ [c]) ++ v) := by simpa using h
    have hrest := ih hacc
    rw [List.append_assoc, List.singleton_append] at hrest
    rw [escape_cons]
    exact (takes_dataChar h.room.1 h.room.2).append hrest (Nat.le_add_left _ _)

/-- Spaces between tags. -/
theorem takes_spaces {cs : List UInt8} (h : ∀ c ∈ cs, isSpace c = true)
    (hlen : value.length + cs.length ≤ maxValueSize) :
    Takes T 0 cs (held encoding .content attribs value elements events)
      (held encoding .content attribs (value ++ cs) elements events) := by
  induction cs generalizing value with
  | nil =>
    rw [List.append_nil]
    exact .refl
  | cons c cs ih =>
    rw [List.length_cons] at hlen
    have hone : Takes T 0 [c] (held encoding .content attribs value elements events)
        (held encoding .content attribs (value ++ [c]) elements events) :=
      takes_space (h c (by simp)) (by omega)
    have hlen' : (value ++ [c]).length + cs.length ≤ maxValueSize := by
      rw [List.length_append, List.length_singleton]
      omega
    have hrest := ih (fun c' hc' => h c' (by simp [hc'])) hlen'
    rw [List.append_assoc, List.singleton_append] at hrest
    exact hone.append hrest (Nat.zero_le _)

/-- An end tag. -/
theorem takes_endTag {n : ElementName} :
    Takes T 0 (ascii "</" ++ n.chars ++ ascii ">")
      (held encoding .content attribs value (n :: elements) events)
      (held encoding .content attribs [] elements (events ++ [.endTag n.chars value])) := by
  have hopen : Takes T 0 (ascii "</")
      (held encoding .content attribs value (n :: elements) events)
      (held encoding .elementEnd attribs value (n :: elements) events) :=
    .of_tick fun rest pos _ => rfl
  have hname : Takes T 0 n.chars
      (held encoding .elementEnd attribs value (n :: elements) events)
      (held encoding .elementEndEnd attribs value (n :: elements) events) := by
    refine .of_tick fun rest pos _ => ?_
    have hspace : isSpace n.first = false :=
      not_isSpace_of_isNameChar (isNameChar_of_isNameStartChar n.isStart)
    have hneed : (held encoding .elementEnd attribs value (n :: elements) events
        (n.chars ++ rest) pos).needChars n.chars.length = true :=
      decide_eq_true (show n.chars.length ≤ (n.chars ++ rest).length by simp)
    have hend : elementEnd (held encoding .elementEnd attribs value (n :: elements) events
        (n.chars ++ rest) pos) = .ok (true, held encoding .elementEndEnd attribs value
          (n :: elements) events rest (pos + n.chars.length)) := by
      simp only [elementEnd, held] at hneed ⊢
      simp [hneed, Reader.advancePos]
    have hother : tickOther T (held encoding .elementEnd attribs value (n :: elements) events
        (n.chars ++ rest) pos) = tickHandler (handler T .elementEnd)
          (held encoding .elementEnd attribs value (n :: elements) events
            (n.chars ++ rest) pos) := by
      refine if_neg ?_
      rw [hspace, Bool.false_and]
      decide
    exact hother.trans (tickHandler_of_take (orElse_of_true hend)
      (by simp [held, ElementName.chars]) (by simp [held]))
  have hgt : Takes T 0 (ascii ">")
      (held encoding .elementEndEnd attribs value (n :: elements) events)
      (held encoding .content attribs [] elements (events ++ [.endTag n.chars value])) :=
    .of_tick fun rest pos _ => rfl
  exact (hopen.append hname (Nat.zero_le _)).append hgt (Nat.zero_le _)

end Tags

end Blacklink.Xml
