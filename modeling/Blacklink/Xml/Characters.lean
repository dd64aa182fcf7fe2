import Mathlib.Data.List.GetD
import Blacklink.Base.Incremental
import Blacklink.Xml.SimpleXMLReader

/-!
# The reader, a character at a time

An abstract reader for the same states, which takes one character or one short text at a time and
waits when the characters at hand do not tell what is next. It has three properties that
`process` has not: what it does with some characters it also does when there are more, it does not
end a character reference before its semicolon can be there, and it always comes to rest.
-/

namespace Blacklink.Xml

open Blacklink.Base Blacklink.Text

namespace Reader

variable (r : Reader) (d : List UInt8)

@[simp] theorem buf_feed : (r.feed d).buf = r.buf ++ d := rfl

@[simp] theorem pos_feed : (r.feed d).pos = r.pos := rfl

@[simp] theorem attribs_feed : (r.feed d).attribs = r.attribs := rfl

@[simp] theorem value_feed : (r.feed d).value = r.value := rfl

@[simp] theorem encoding_feed : (r.feed d).encoding = r.encoding := rfl

@[simp] theorem charset_feed : (r.feed d).charset = r.charset := rfl

@[simp] theorem state_feed : (r.feed d).state = r.state := rfl

@[simp] theorem elements_feed : (r.feed d).elements = r.elements := rfl

@[simp] theorem events_feed : (r.feed d).events = r.events := rfl

@[simp] theorem feed_nil : r.feed [] = r := by simp [feed]

@[simp] theorem feed_feed (d' : List UInt8) : (r.feed d).feed d' = r.feed (d ++ d') := by
  simp [feed]

theorem charAt_feed {n : Nat} (h : n < r.buf.length) : (r.feed d).charAt n = r.charAt n := by
  simp [charAt, List.getElem?_append_left h]

theorem advancePos_feed {n : Nat} (h : n ≤ r.buf.length) :
    (r.feed d).advancePos n = (r.advancePos n).feed d := by
  simp [advancePos, feed, List.drop_append_of_le_length h]

theorem setAttribValue_feed (v : List UInt8) :
    (r.feed d).setAttribValue v = (r.setAttribValue v).feed d := by
  obtain ⟨buf, pos, attribs, value, encoding, charset, state, elements, events⟩ := r
  cases attribs <;> rfl

theorem attribValue_feed : (r.feed d).attribValue = r.attribValue := rfl

@[simp] theorem topName_feed : (r.feed d).topName = r.topName := rfl

theorem startTag_feed (simple : Bool) :
    (r.feed d).startTag simple = (r.startTag simple).feed d := rfl

end Reader

/-! ### Appending -/

/-- One of the strings that characters are appended to, among the attributes and the elements: the
string, if it is there, and both with it extended. -/
structure Slot where
  get : StringPairList → List ElementName → Option (List UInt8)
  extend : List UInt8 → StringPairList × List ElementName → StringPairList × List ElementName
  maxLen : Nat
  get_extend : ∀ cs as es,
    get (extend cs (as, es)).1 (extend cs (as, es)).2 = (get as es).map (· ++ cs)
  extend_nil : ∀ p, extend [] p = p
  extend_extend : ∀ cs ds p, extend ds (extend cs p) = extend (cs ++ ds) p

namespace Slot

variable (S : Slot)

/-- The reader with its string extended. -/
def extendReader (r : Reader) (cs : List UInt8) : Reader :=
  { r with
    attribs := (S.extend cs (r.attribs, r.elements)).1
    elements := (S.extend cs (r.attribs, r.elements)).2 }

/-- There is room for so many characters more. -/
def fits (r : Reader) (n : Nat) : Bool :=
  (S.get r.attribs r.elements).all fun s => s.length + n ≤ S.maxLen

variable {S}

theorem extendReader_nil (r : Reader) : S.extendReader r [] = r := by
  simp [extendReader, S.extend_nil]

theorem extendReader_extendReader (r : Reader) (cs ds : List UInt8) :
    S.extendReader (S.extendReader r cs) ds = S.extendReader r (cs ++ ds) := by
  simp [extendReader, S.extend_extend]

/-- The room that is left after an extension. -/
theorem fits_extendReader (r : Reader) (cs : List UInt8) (n : Nat) :
    S.fits (S.extendReader r cs) n = S.fits r (cs.length + n) := by
  simp only [fits, extendReader, S.get_extend]
  cases S.get r.attribs r.elements <;> simp [Nat.add_assoc]

theorem fits_of_le {r : Reader} {m n : Nat} (h : m ≤ n) (hn : S.fits r n = true) :
    S.fits r m = true := by
  unfold fits at hn ⊢
  cases hs : S.get r.attribs r.elements with
  | none => rfl
  | some s =>
    simp only [hs, Option.all_some, decide_eq_true_eq] at hn ⊢
    omega

end Slot

/-- The last element name. -/
def nameSlot : Slot where
  get _ es := es.head?.map ElementName.chars
  extend cs p := (p.1, p.2.modifyHead fun name => { name with rest := name.rest ++ cs })
  maxLen := maxNameSize
  get_extend cs as es := by cases es <;> simp [ElementName.chars]
  extend_nil p := by
    obtain ⟨as, es⟩ := p
    cases es <;> simp
  extend_extend cs ds p := by
    obtain ⟨as, es⟩ := p
    cases es <;> simp

/-- The last attribute's name. -/
def attribNameSlot : Slot where
  get as _ := as.head?.map Prod.fst
  extend cs p := (p.1.modifyHead fun attrib => (attrib.1 ++ cs, attrib.2), p.2)
  maxLen := maxNameSize
  get_extend cs as es := by cases as <;> simp
  extend_nil p := by
    obtain ⟨as, es⟩ := p
    cases as <;> simp
  extend_extend cs ds p := by
    obtain ⟨as, es⟩ := p
    cases as <;> simp

/-- The last attribute's value. -/
def attribValueSlot : Slot where
  get as _ := as.head?.map Prod.snd
  extend cs p := (p.1.modifyHead fun attrib => (attrib.1, attrib.2 ++ cs), p.2)
  maxLen := maxValueSize
  get_extend cs as es := by cases as <;> simp
  extend_nil p := by
    obtain ⟨as, es⟩ := p
    cases as <;> simp
  extend_extend cs ds p := by
    obtain ⟨as, es⟩ := p
    cases as <;> simp

theorem appendName_eq (r : Reader) (cs : List UInt8) :
    r.appendName cs = if nameSlot.fits r cs.length then .ok (nameSlot.extendReader r cs)
      else r.error "Buffer overflow" := by
  obtain ⟨buf, pos, attribs, value, encoding, charset, state, elements, events⟩ := r
  cases elements with
  | nil => rfl
  | cons name outer =>
    by_cases h : maxNameSize < name.chars.length + cs.length
    · simp [Reader.appendName, Reader.append, Reader.error, Slot.fits, nameSlot, h,
        Nat.not_le.mpr h]
    · simp [Reader.appendName, Reader.append, Slot.fits, Slot.extendReader, nameSlot, h,
        Nat.not_lt.mp h]

theorem appendAttribName_eq (r : Reader) (cs : List UInt8) :
    r.appendAttribName cs =
      if attribNameSlot.fits r cs.length then .ok (attribNameSlot.extendReader r cs)
      else r.error "Buffer overflow" := by
  obtain ⟨buf, pos, attribs, value, encoding, charset, state, elements, events⟩ := r
  cases attribs with
  | nil => rfl
  | cons attrib before =>
    by_cases h : maxNameSize < attrib.1.length + cs.length
    · simp [Reader.appendAttribName, Reader.append, Reader.error, Slot.fits, attribNameSlot, h,
        Nat.not_le.mpr h]
    · simp [Reader.appendAttribName, Reader.append, Slot.fits, Slot.extendReader, attribNameSlot,
        h, Nat.not_lt.mp h]

theorem appendAttribValue_eq (r : Reader) (cs : List UInt8) :
    r.appendAttribValue cs =
      if attribValueSlot.fits r cs.length then .ok (attribValueSlot.extendReader r cs)
      else r.error "Buffer overflow" := by
  obtain ⟨buf, pos, attribs, value, encoding, charset, state, elements, events⟩ := r
  cases attribs with
  | nil => rfl
  | cons attrib before =>
    by_cases h : maxValueSize < attrib.2.length + cs.length
    · simp [Reader.appendAttribValue, Reader.append, Reader.error, Slot.fits, attribValueSlot, h,
        Nat.not_le.mpr h]
    · simp [Reader.appendAttribValue, Reader.append, Slot.fits, Slot.extendReader,
        attribValueSlot, h, Nat.not_lt.mp h]

/-! ### The ticks -/

/-- The characters are those of a character reference of the longest kind, without what is behind
its last digit. -/
def charRefCut (buf : List UInt8) : Bool :=
  buf.length = 7 && buf.getD 1 0 = '#'.toUInt8 &&
    (isDigit (buf.getD 2 0) && isDigit (buf.getD 3 0) && isDigit (buf.getD 4 0) &&
        isDigit (buf.getD 5 0) && isDigit (buf.getD 6 0) ||
      (buf.getD 2 0 = 'x'.toUInt8 || buf.getD 2 0 = 'X'.toUInt8) && isXDigit (buf.getD 3 0) &&
        isXDigit (buf.getD 4 0) && isXDigit (buf.getD 5 0) && isXDigit (buf.getD 6 0))

/-- The entity reference, waiting for as many characters as the longest has. -/
def tickEntref (d : List UInt8) (set : Reader → List UInt8 → Reader) (r : Reader) : Tick Reader :=
  if maxValueSize ≤ d.length + 1 then .fail
  else if r.buf.length < 7 then .wait
  else
    match entity r.charAt with
    | some (n, chars) => .again ((set r (d ++ chars)).advancePos n)
    | none => if charRefCut r.buf then .wait else .fail

/-- A character that is appended, or another one; the string is not longer than it may be. -/
def tickScan (S : Slot) (inside : UInt8 → Bool) (behind : UInt8 → Reader → Tick Reader)
    (r : Reader) : Tick Reader :=
  if !S.fits r 0 then .fail
  else
    match r.buf with
    | [] => .wait
    | c :: _ =>
      if inside c then
        if S.fits r 1 then .again ((S.extendReader r [c]).advancePos 1) else .fail
      else behind c r

/-- The character behind an element name. -/
def behindName (c : UInt8) (r : Reader) : Tick Reader :=
  if isSpace c then .again { r.advancePos 1 with state := .elementAttr }
  else if c = '/'.toUInt8 then .again { r.advancePos 1 with state := .elementEndSimple }
  else if c = '>'.toUInt8 then
    .again { (r.startTag false).advancePos 1 with state := .content, value := [] }
  else .fail

/-- The character behind an attribute name. -/
def behindAttrName (c : UInt8) (r : Reader) : Tick Reader :=
  if isSpace c then .again { r.advancePos 1 with state := .elementAttrEq }
  else if c = '='.toUInt8 then .again { r.advancePos 1 with state := .elementAttrValue }
  else .fail

/-- The attribute with its value converted. -/
def Reader.convertAttrib (T : Charsets) (r : Reader) : Reader :=
  if r.charset ≠ charsetUtf8 then r.setAttribValue (T.toUtf8 r.attribValue r.charset) else r

/-- The quote behind an attribute value, or an entity reference in it. -/
def behindAttrValue (T : Charsets) (c : UInt8) (r : Reader) : Tick Reader :=
  if c ≠ '&'.toUInt8 then .again { (r.convertAttrib T).advancePos 1 with state := .elementAttr }
  else tickEntref r.attribValue Reader.setAttribValue r

/-- A character of the encoding, an entity reference in it, or the quote behind it. -/
def tickEncoding (T : Charsets) (r : Reader) : Tick Reader :=
  match r.buf with
  | [] => .wait
  | c :: _ =>
    if endsEncoding r.state c then
      .again { r.advancePos 1 with
        encoding := T.toLower r.encoding
        charset := T.charsetFromString (T.toLower r.encoding)
        state := .declStandalone }
    else if c = '&'.toUInt8 then tickEntref r.encoding Reader.setEncoding r
    else if maxValueSize < r.encoding.length + 1 then .fail
    else .again { r.advancePos 1 with encoding := r.encoding ++ [c] }

/-- A character of a comment, or its end. -/
def tickComment (r : Reader) : Tick Reader :=
  match r.buf with
  | [] => .wait
  | c :: rest =>
    if c = '-'.toUInt8 then
      match rest with
      | d :: e :: _ =>
        if d = '-'.toUInt8 ∧ e = '>'.toUInt8 then
          .again { r.advancePos 3 with state := .content, value := [] }
        else .again (r.advancePos 1)
      | _ => .wait
    else .again (r.advancePos 1)

/-- A character of a CDATA section, or its end. -/
def tickCdata (r : Reader) : Tick Reader :=
  match r.buf with
  | [] => .wait
  | c :: rest =>
    if c = ']'.toUInt8 then
      match rest with
      | d :: _ =>
        if d = ']'.toUInt8 then .again { r.advancePos 2 with state := .content, value := [] }
        else .again (r.advancePos 1)
      | [] => .wait
    else .again (r.advancePos 1)

/-- What `process` makes of the handlers of a state. -/
def tickHandler (h : Handler) (r : Reader) : Tick Reader :=
  match h r with
  | .error _ => .fail
  | .ok (_, r') =>
    if r'.state = r.state ∧ r'.pos = r.pos then .wait
    else if r'.state = .content ∧ r'.state ≠ r.state then .again { r' with value := [] }
    else .again r'

/-- A space or another character of the content, an entity reference, or a tag or comment. -/
def tickContent (T : Charsets) (r : Reader) : Tick Reader :=
  match r.buf with
  | [] => .wait
  | c :: rest =>
    if isSpace c then
      if maxValueSize < r.value.length + 1 then .fail
      else .again { r.advancePos 1 with value := r.value ++ [c] }
    else if c = '&'.toUInt8 ∧ rest ≠ [] then tickEntref r.value Reader.setValue r
    else tickHandler (handler T .content) r

/-- The state takes no spaces. -/
def noSpace : ParseState → Bool
  | .elementEndSimple => true
  | _ => false

/-- A space, or what the handlers of the state take. -/
def tickOther (T : Charsets) (r : Reader) : Tick Reader :=
  match r.buf with
  | [] => .wait
  | c :: _ =>
    if isSpace c && !noSpace r.state then .again (r.advancePos 1)
    else tickHandler (handler T r.state) r

/-- One step of the reader. -/
def tick (T : Charsets) (r : Reader) : Tick Reader :=
  match r.state with
  | .end_ => .wait
  | .elementName => tickScan nameSlot inElementName behindName r
  | .elementAttrName => tickScan attribNameSlot inAttrName behindAttrName r
  | .elementAttrValueApos | .elementAttrValueQuot =>
    tickScan attribValueSlot (inAttrValue r.state) (behindAttrValue T) r
  | .declEncodingNameApos | .declEncodingNameQuot => tickEncoding T r
  | .comment => tickComment r
  | .cdata => tickCdata r
  | .content => tickContent T r
  | _ => tickOther T r

/-! ### Entity references -/

private theorem entity_congr {f g : Nat → UInt8} (h : ∀ n ≤ 7, f n = g n) :
    entity f = entity g := by
  simp only [entity, h 1 (by omega), h 2 (by omega), h 3 (by omega), h 4 (by omega),
    h 5 (by omega), h 6 (by omega), h 7 (by omega)]

/-- The last of eight characters counts for a character reference only. -/
private theorem entity_congr_six {f g : Nat → UInt8} (h : ∀ n ≤ 6, f n = g n)
    (hdec : ¬ (g 1 = '#'.toUInt8 ∧ isDigit (g 2) ∧ isDigit (g 3) ∧ isDigit (g 4) ∧
      isDigit (g 5) ∧ isDigit (g 6)))
    (hhex : ¬ (g 1 = '#'.toUInt8 ∧ (g 2 = 'x'.toUInt8 ∨ g 2 = 'X'.toUInt8) ∧ isXDigit (g 3) ∧
      isXDigit (g 4) ∧ isXDigit (g 5) ∧ isXDigit (g 6))) :
    entity f = entity g := by
  have hdec' : ∀ c, ¬ (g 1 = '#'.toUInt8 ∧ isDigit (g 2) ∧ isDigit (g 3) ∧ isDigit (g 4) ∧
      isDigit (g 5) ∧ isDigit (g 6) ∧ c = ';'.toUInt8) := by
    rintro c ⟨h1, h2, h3, h4, h5, h6, _⟩
    exact hdec ⟨h1, h2, h3, h4, h5, h6⟩
  have hhex' : ∀ c, ¬ (g 1 = '#'.toUInt8 ∧ (g 2 = 'x'.toUInt8 ∨ g 2 = 'X'.toUInt8) ∧
      isXDigit (g 3) ∧ isXDigit (g 4) ∧ isXDigit (g 5) ∧ isXDigit (g 6) ∧ c = ';'.toUInt8) := by
    rintro c ⟨h1, h2, h3, h4, h5, h6, _⟩
    exact hhex ⟨h1, h2, h3, h4, h5, h6⟩
  simp only [entity, h 1 (by omega), h 2 (by omega), h 3 (by omega), h 4 (by omega),
    h 5 (by omega), h 6 (by omega), hdec', hhex', if_false]

private theorem not_semicolon_of_isDigit {c : UInt8} (h : isDigit c = true) :
    c ≠ ';'.toUInt8 := by
  rintro rfl
  revert h
  decide

private theorem not_semicolon_of_isXDigit {c : UInt8} (h : isXDigit c = true) :
    c ≠ ';'.toUInt8 := by
  rintro rfl
  revert h
  decide

/-- The characters of a character reference that is cut off. -/
private theorem charRefCut_cases {r : Reader} (h : charRefCut r.buf = true) :
    r.buf.length = 7 ∧ r.charAt 1 = '#'.toUInt8 ∧
      (isDigit (r.charAt 2) = true ∧ isDigit (r.charAt 3) = true ∧ isDigit (r.charAt 4) = true ∧
          isDigit (r.charAt 5) = true ∧ isDigit (r.charAt 6) = true ∨
        (r.charAt 2 = 'x'.toUInt8 ∨ r.charAt 2 = 'X'.toUInt8) ∧ isXDigit (r.charAt 3) = true ∧
          isXDigit (r.charAt 4) = true ∧ isXDigit (r.charAt 5) = true ∧
          isXDigit (r.charAt 6) = true) := by
  simp only [charRefCut, Bool.and_eq_true, Bool.or_eq_true, decide_eq_true_eq] at h
  obtain ⟨⟨hlen, h1⟩, ⟨⟨⟨⟨h2, h3⟩, h4⟩, h5⟩, h6⟩ | ⟨⟨⟨⟨h2, h3⟩, h4⟩, h5⟩, h6⟩⟩ := h
  · exact ⟨hlen, h1, .inl ⟨h2, h3, h4, h5, h6⟩⟩
  · exact ⟨hlen, h1, .inr ⟨h2, h3, h4, h5, h6⟩⟩

/-- What the character behind its last digit makes of a character reference. -/
private theorem entity_of_charRef {f : Nat → UInt8} (h1 : f 1 = '#'.toUInt8)
    (h : isDigit (f 2) = true ∧ isDigit (f 3) = true ∧ isDigit (f 4) = true ∧
          isDigit (f 5) = true ∧ isDigit (f 6) = true ∨
        (f 2 = 'x'.toUInt8 ∨ f 2 = 'X'.toUInt8) ∧ isXDigit (f 3) = true ∧
          isXDigit (f 4) = true ∧ isXDigit (f 5) = true ∧ isXDigit (f 6) = true) :
    entity f = if f 7 = ';'.toUInt8 then some (8, []) else none := by
  rcases h with ⟨h2, h3, h4, h5, h6⟩ | ⟨h2, h3, h4, h5, h6⟩
  · have hx : f 2 ≠ 'x'.toUInt8 ∧ f 2 ≠ 'X'.toUInt8 := by
      constructor <;>
      · intro hc
        rw [hc] at h2
        revert h2
        decide
    simp only [entity, h1, not_semicolon_of_isDigit h3, not_semicolon_of_isDigit h4,
      not_semicolon_of_isDigit h5, not_semicolon_of_isDigit h6, hx, h2, h3, h4, h5, h6]
    simp
  · have hx : isDigit (f 2) = false := by
      rcases h2 with h2 | h2 <;> rw [h2] <;> decide
    simp only [entity, h1, not_semicolon_of_isXDigit h3, not_semicolon_of_isXDigit h4,
      not_semicolon_of_isXDigit h5, not_semicolon_of_isXDigit h6, hx, h2, h3, h4, h5, h6]
    simp

/-- A character reference that is cut off is none yet. -/
theorem entity_eq_none_of_charRefCut {r : Reader} (h : charRefCut r.buf = true) :
    entity r.charAt = none := by
  obtain ⟨hlen, h1, href⟩ := charRefCut_cases h
  have h7 : r.charAt 7 = 0 := by simp [Reader.charAt, hlen]
  rw [entity_of_charRef h1 href, h7]
  rfl

/-- It is one with the semicolon. -/
theorem entity_feed_semicolon {r : Reader} (h : charRefCut r.buf = true) :
    entity (r.feed [';'.toUInt8]).charAt = some (8, []) := by
  obtain ⟨hlen, h1, href⟩ := charRefCut_cases h
  have hchar : ∀ n < 7, (r.feed [';'.toUInt8]).charAt n = r.charAt n :=
    fun n hn => r.charAt_feed _ (by omega)
  have h7 : (r.feed [';'.toUInt8]).charAt 7 = ';'.toUInt8 := by simp [Reader.charAt, hlen]
  rw [entity_of_charRef, h7]
  · rfl
  · rw [hchar 1 (by omega), h1]
  · rw [hchar 2 (by omega), hchar 3 (by omega), hchar 4 (by omega), hchar 5 (by omega),
      hchar 6 (by omega)]
    exact href

private theorem of_ite_some {α : Type} {c : Prop} [Decidable c] {x y : α} {b : Option α}
    {P : α → Prop} (h : (if c then some x else b) = some y) (hx : c → P x)
    (hb : b = some y → P y) : P y := by
  by_cases hc : c
  · rw [if_pos hc] at h
    exact Option.some.inj h ▸ hx hc
  · rw [if_neg hc] at h
    exact hb h

/-- A reference has one to eight characters, and is one of eight only by the last of them. -/
private def EntityBound (f : Nat → UInt8) (p : Nat × List UInt8) : Prop :=
  1 ≤ p.1 ∧ p.1 ≤ 8 ∧ (p.1 = 8 → f 7 = ';'.toUInt8)

private theorem entity_bound {f : Nat → UInt8} {p : Nat × List UInt8} (he : entity f = some p) :
    EntityBound f p := by
  unfold entity at he
  repeat
    refine of_ite_some he (fun h => ?_) fun he => ?_
    · simp [EntityBound, h]
  cases he

theorem entity_le {r : Reader} (h : 7 ≤ r.buf.length) {n : Nat} {cs : List UInt8}
    (he : entity r.charAt = some (n, cs)) : 1 ≤ n ∧ n ≤ r.buf.length := by
  obtain ⟨h1, h8, h7⟩ := entity_bound he
  refine ⟨h1, ?_⟩
  by_contra hlt
  have hc := h7 (by omega)
  rw [Reader.charAt, List.getD_eq_default _ _ (by omega)] at hc
  exact absurd hc (by decide)

theorem entity_feed {r : Reader} (h : 7 ≤ r.buf.length) (hcut : charRefCut r.buf = false)
    (d : List UInt8) : entity (r.feed d).charAt = entity r.charAt := by
  by_cases hlen : r.buf.length = 7
  · apply entity_congr_six
    · intro n hn
      exact r.charAt_feed d (by omega)
    · rintro ⟨h1, h2, h3, h4, h5, h6⟩
      simp only [Reader.charAt] at h1 h2 h3 h4 h5 h6
      simp [charRefCut, hlen, h1, h2, h3, h4, h5, h6, -List.getD_eq_getElem?_getD] at hcut
    · rintro ⟨h1, h2, h3, h4, h5, h6⟩
      simp only [Reader.charAt] at h1 h2 h3 h4 h5 h6
      simp [charRefCut, hlen, h1, h3, h4, h5, h6, -List.getD_eq_getElem?_getD] at hcut
      exact h2.elim hcut.2.1 hcut.2.2
  · apply entity_congr
    intro n hn
    exact r.charAt_feed d (by omega)

/-! ### More characters, and progress -/

/-- Some characters have been taken. -/
def Advances (r r' : Reader) : Prop :=
  ∃ n, 1 ≤ n ∧ n ≤ r.buf.length ∧ r'.buf = r.buf.drop n ∧ r'.pos = r.pos + n

theorem Advances.length_lt {r r' : Reader} (h : Advances r r') :
    r'.buf.length < r.buf.length := by
  obtain ⟨n, hn, hle, hbuf, -⟩ := h
  rw [hbuf, List.length_drop]
  omega

theorem Advances.pos_lt {r r' : Reader} (h : Advances r r') : r.pos < r'.pos := by
  obtain ⟨n, hn, -, -, hpos⟩ := h
  omega

/-- A tick with more characters behind those at hand. -/
def feedTick (d : List UInt8) : Tick Reader → Tick Reader
  | .again r => .again (r.feed d)
  | .wait => .wait
  | .fail => .fail

/-- The tick waits, or it takes some characters or fails, as it does when there are more. -/
def Steady (t : Reader → Tick Reader) (r : Reader) : Prop :=
  t r = .wait ∨
    ((∀ r', t r = .again r' → Advances r r') ∧ ∀ d, t (r.feed d) = feedTick d (t r))

theorem Steady.of_wait {t : Reader → Tick Reader} {r : Reader} (h : t r = .wait) : Steady t r :=
  .inl h

theorem Steady.of_fail {t : Reader → Tick Reader} {r : Reader} (h : ∀ d, t (r.feed d) = .fail) :
    Steady t r := by
  have hr : t r = .fail := by simpa using h []
  refine .inr ⟨fun r' h' => ?_, fun d => ?_⟩
  · rw [hr] at h'
    cases h'
  · rw [hr, h d]
    rfl

theorem Steady.of_again {t : Reader → Tick Reader} {r r' : Reader} (hr : t r = .again r')
    (ha : Advances r r') (h : ∀ d, t (r.feed d) = .again (r'.feed d)) : Steady t r := by
  refine .inr ⟨fun r'' h' => ?_, fun d => ?_⟩
  · rw [hr] at h'
    cases h'
    exact ha
  · rw [hr, h d]
    rfl

theorem Steady.congr {t t' : Reader → Tick Reader} {r : Reader}
    (h : ∀ d, t (r.feed d) = t' (r.feed d)) (hs : Steady t' r) : Steady t r := by
  have h0 : t r = t' r := by simpa using h []
  rcases hs with hwait | ⟨hadv, hfeed⟩
  · exact .inl (h0.trans hwait)
  · refine .inr ⟨fun r' h' => hadv r' (h0 ▸ h'), fun d => ?_⟩
    rw [h d, h0]
    exact hfeed d

theorem steady_tickEntref {d : List UInt8} {set : Reader → List UInt8 → Reader} {r : Reader}
    (hbuf : ∀ v, (set r v).buf = r.buf) (hpos : ∀ v, (set r v).pos = r.pos)
    (hfeed : ∀ v d', set (r.feed d') v = (set r v).feed d') :
    Steady (tickEntref d set) r := by
  by_cases hd : maxValueSize ≤ d.length + 1
  · apply Steady.of_fail
    intro d'
    rw [tickEntref, if_pos hd]
  by_cases hlen : r.buf.length < 7
  · apply Steady.of_wait
    rw [tickEntref, if_neg hd, if_pos hlen]
  have hlen' : ∀ d', ¬ (r.feed d').buf.length < 7 := by
    intro d'
    rw [Reader.buf_feed, List.length_append]
    omega
  by_cases hcut : charRefCut r.buf = true
  · apply Steady.of_wait
    rw [tickEntref, if_neg hd, if_neg hlen, entity_eq_none_of_charRefCut hcut]
    exact if_pos hcut
  have hent := entity_feed (Nat.not_lt.mp hlen) (Bool.not_eq_true _ ▸ hcut)
  cases he : entity r.charAt with
  | some p =>
    obtain ⟨n, chars⟩ := p
    obtain ⟨hn, hle⟩ := entity_le (Nat.not_lt.mp hlen) he
    apply Steady.of_again
    · rw [tickEntref, if_neg hd, if_neg hlen, he]
    · exact ⟨n, hn, hle, by rw [Reader.advancePos, hbuf], by rw [Reader.advancePos, hpos]⟩
    · intro d'
      rw [tickEntref, if_neg hd, if_neg (hlen' d'), hent d', he]
      simp only
      rw [hfeed, Reader.advancePos_feed _ _ (by rw [hbuf]; exact hle)]
  | none =>
    apply Steady.of_fail
    intro d'
    have hcut' : charRefCut (r.feed d').buf = false := by
      cases d' with
      | nil => simpa using hcut
      | cons c d' =>
        simp only [charRefCut, Reader.buf_feed, List.length_append, List.length_cons,
          decide_eq_false (show ¬ r.buf.length + (d'.length + 1) = 7 by omega), Bool.false_and]
    rw [tickEntref, if_neg hd, if_neg (hlen' d'), hent d', he]
    simp only [hcut', Bool.false_eq_true, if_false]

theorem Advances.of_drop_one {r r' : Reader} {c : UInt8} {rest : List UInt8}
    (h : r.buf = c :: rest) (hbuf : r'.buf = rest) (hpos : r'.pos = r.pos + 1) :
    Advances r r' :=
  ⟨1, Nat.le_refl 1, by rw [h]; simp, by rw [h, hbuf]; rfl, hpos⟩

theorem steady_tickScan {S : Slot} {inside : UInt8 → Bool} {behind : UInt8 → Reader → Tick Reader}
    {r : Reader} (h : ∀ c rest, r.buf = c :: rest → inside c = false → Steady (behind c) r) :
    Steady (tickScan S inside behind) r := by
  by_cases hfit : S.fits r 0 = true
  · cases hbuf : r.buf with
    | nil =>
      apply Steady.of_wait
      simp [tickScan, hfit, hbuf]
    | cons c rest =>
      have hscan : ∀ d, tickScan S inside behind (r.feed d) =
          if inside c then
            if S.fits r 1 then .again ((S.extendReader (r.feed d) [c]).advancePos 1) else .fail
          else behind c (r.feed d) := by
        intro d
        have hfit' : S.fits (r.feed d) 0 = true := hfit
        simp only [tickScan, hfit', Bool.not_true, Bool.false_eq_true, if_false, Reader.buf_feed,
          hbuf, List.cons_append]
        rfl
      cases hin : inside c with
      | false =>
        apply (h c rest hbuf hin).congr
        intro d
        rw [hscan, hin]
        rfl
      | true =>
        by_cases hone : S.fits r 1 = true
        · apply Steady.of_again
          · rw [← Reader.feed_nil r, hscan, hin, hone, Reader.feed_nil]
            rfl
          · apply Advances.of_drop_one hbuf
            · simp [Reader.advancePos, Slot.extendReader, hbuf]
            · rfl
          · intro d
            rw [hscan, hin, hone, ← Reader.advancePos_feed]
            · rfl
            · simp [Slot.extendReader, hbuf]
        · apply Steady.of_fail
          intro d
          rw [hscan, hin]
          simp [hone]
  · apply Steady.of_fail
    intro d
    have hfit' : ¬ S.fits (r.feed d) 0 = true := hfit
    simp [tickScan, hfit']

theorem steady_behindName {c : UInt8} {rest : List UInt8} {r : Reader} (h : r.buf = c :: rest) :
    Steady (behindName c) r := by
  obtain ⟨buf, pos, attribs, value, encoding, charset, state, elements, events⟩ := r
  cases h
  unfold behindName
  split
  · exact .of_again rfl (.of_drop_one rfl rfl rfl) fun d => rfl
  split
  · exact .of_again rfl (.of_drop_one rfl rfl rfl) fun d => rfl
  split
  · exact .of_again rfl (.of_drop_one rfl rfl rfl) fun d => rfl
  · exact .of_fail fun d => rfl

theorem steady_behindAttrName {c : UInt8} {rest : List UInt8} {r : Reader}
    (h : r.buf = c :: rest) : Steady (behindAttrName c) r := by
  obtain ⟨buf, pos, attribs, value, encoding, charset, state, elements, events⟩ := r
  cases h
  unfold behindAttrName
  split
  · exact .of_again rfl (.of_drop_one rfl rfl rfl) fun d => rfl
  split
  · exact .of_again rfl (.of_drop_one rfl rfl rfl) fun d => rfl
  · exact .of_fail fun d => rfl

theorem buf_setAttribValue (r : Reader) (v : List UInt8) : (r.setAttribValue v).buf = r.buf := by
  unfold Reader.setAttribValue
  split <;> rfl

theorem pos_setAttribValue (r : Reader) (v : List UInt8) : (r.setAttribValue v).pos = r.pos := by
  unfold Reader.setAttribValue
  split <;> rfl

theorem buf_convertAttrib (T : Charsets) (r : Reader) : (r.convertAttrib T).buf = r.buf := by
  unfold Reader.convertAttrib
  split
  · exact buf_setAttribValue r _
  · rfl

theorem pos_convertAttrib (T : Charsets) (r : Reader) : (r.convertAttrib T).pos = r.pos := by
  unfold Reader.convertAttrib
  split
  · exact pos_setAttribValue r _
  · rfl

theorem convertAttrib_feed (T : Charsets) (r : Reader) (d : List UInt8) :
    (r.feed d).convertAttrib T = (r.convertAttrib T).feed d := by
  unfold Reader.convertAttrib
  simp only [Reader.charset_feed, Reader.attribValue_feed, Reader.setAttribValue_feed]
  split <;> rfl

theorem steady_behindAttrValue {T : Charsets} {c : UInt8} {rest : List UInt8} {r : Reader}
    (h : r.buf = c :: rest) : Steady (behindAttrValue T c) r := by
  by_cases hc : c ≠ '&'.toUInt8
  · refine .of_again (if_pos hc) ?_ fun d => ?_
    · apply Advances.of_drop_one h
      · simp [Reader.advancePos, buf_convertAttrib, h]
      · simp [Reader.advancePos, pos_convertAttrib]
    · have hle : 1 ≤ (r.convertAttrib T).buf.length := by simp [buf_convertAttrib, h]
      rw [behindAttrValue, if_pos hc, convertAttrib_feed, Reader.advancePos_feed _ _ hle]
      rfl
  · have : behindAttrValue T c = fun r => tickEntref r.attribValue Reader.setAttribValue r := by
      funext r
      rw [behindAttrValue, if_neg hc]
    rw [this]
    exact steady_tickEntref (buf_setAttribValue r) (pos_setAttribValue r)
      fun v d => r.setAttribValue_feed d v

theorem steady_tickEncoding {T : Charsets} {r : Reader} : Steady (tickEncoding T) r := by
  obtain ⟨buf, pos, attribs, value, encoding, charset, state, elements, events⟩ := r
  cases buf with
  | nil => exact .of_wait rfl
  | cons c rest =>
    by_cases hend : endsEncoding state c = true
    · refine .of_again (if_pos hend) (.of_drop_one rfl rfl rfl) fun d => ?_
      exact if_pos hend
    by_cases hc : c = '&'.toUInt8
    · have hent : Steady (tickEntref encoding Reader.setEncoding)
          ⟨c :: rest, pos, attribs, value, encoding, charset, state, elements, events⟩ :=
        steady_tickEntref (fun v => rfl) (fun v => rfl) fun v d => rfl
      apply hent.congr
      intro d
      exact (if_neg hend).trans (if_pos hc)
    by_cases hfull : maxValueSize < encoding.length + 1
    · apply Steady.of_fail
      intro d
      exact (if_neg hend).trans ((if_neg hc).trans (if_pos hfull))
    · refine .of_again ((if_neg hend).trans ((if_neg hc).trans (if_neg hfull)))
        (.of_drop_one rfl rfl rfl) fun d => ?_
      exact (if_neg hend).trans ((if_neg hc).trans (if_neg hfull))

theorem steady_tickComment {r : Reader} : Steady tickComment r := by
  obtain ⟨buf, pos, attribs, value, encoding, charset, state, elements, events⟩ := r
  rcases buf with _ | ⟨c, _ | ⟨c', _ | ⟨c'', rest⟩⟩⟩
  · exact .of_wait rfl
  · by_cases hc : c = '-'.toUInt8
    · exact .of_wait (if_pos hc)
    · exact .of_again (if_neg hc) (.of_drop_one rfl rfl rfl) fun d => if_neg hc
  · by_cases hc : c = '-'.toUInt8
    · exact .of_wait (if_pos hc)
    · exact .of_again (if_neg hc) (.of_drop_one rfl rfl rfl) fun d => if_neg hc
  · by_cases hc : c = '-'.toUInt8
    · by_cases hend : c' = '-'.toUInt8 ∧ c'' = '>'.toUInt8
      · refine .of_again ((if_pos hc).trans (if_pos hend)) ?_ fun d => ?_
        · exact ⟨3, by omega, by simp, rfl, rfl⟩
        · exact (if_pos hc).trans (if_pos hend)
      · refine .of_again ((if_pos hc).trans (if_neg hend)) (.of_drop_one rfl rfl rfl) fun d => ?_
        exact (if_pos hc).trans (if_neg hend)
    · exact .of_again (if_neg hc) (.of_drop_one rfl rfl rfl) fun d => if_neg hc

theorem steady_tickCdata {r : Reader} : Steady tickCdata r := by
  obtain ⟨buf, pos, attribs, value, encoding, charset, state, elements, events⟩ := r
  rcases buf with _ | ⟨c, _ | ⟨c', rest⟩⟩
  · exact .of_wait rfl
  · by_cases hc : c = ']'.toUInt8
    · exact .of_wait (if_pos hc)
    · exact .of_again (if_neg hc) (.of_drop_one rfl rfl rfl) fun d => if_neg hc
  · by_cases hc : c = ']'.toUInt8
    · by_cases hend : c' = ']'.toUInt8
      · refine .of_again ((if_pos hc).trans (if_pos hend)) ?_ fun d => ?_
        · exact ⟨2, by omega, by simp, rfl, rfl⟩
        · exact (if_pos hc).trans (if_pos hend)
      · refine .of_again ((if_pos hc).trans (if_neg hend)) (.of_drop_one rfl rfl rfl) fun d => ?_
        exact (if_pos hc).trans (if_neg hend)
    · exact .of_again (if_neg hc) (.of_drop_one rfl rfl rfl) fun d => if_neg hc

/-! ### The handlers -/

/-- What a handler returns with more characters behind those at hand. -/
def feedResult (d : List UInt8) :
    Except XmlError (Bool × Reader) → Except XmlError (Bool × Reader)
  | .error e => .error e
  | .ok (b, r) => .ok (b, r.feed d)

/-- The handler waits, or it takes some characters, declines or throws, as it does when there are
more characters. -/
def Handler.Steady (h : Handler) (r : Reader) : Prop :=
  h r = .ok (true, r) ∨
    ((∀ b r', h r = .ok (b, r') → b = false ∧ r' = r ∨ b = true ∧ Advances r r') ∧
      ∀ d, h (r.feed d) = feedResult d (h r))

namespace Handler.Steady

theorem of_wait {h : Handler} {r : Reader} (hr : h r = .ok (true, r)) : Handler.Steady h r :=
  .inl hr

theorem of_error {h : Handler} {r : Reader} {e : XmlError} (h0 : h r = .error e)
    (hr : ∀ d, h (r.feed d) = .error e) : Handler.Steady h r := by
  refine .inr ⟨fun b r' h' => ?_, fun d => ?_⟩
  · rw [h0] at h'
    cases h'
  · rw [h0, hr d]
    rfl

theorem of_decline {h : Handler} {r : Reader} (hr : ∀ d, h (r.feed d) = .ok (false, r.feed d)) :
    Handler.Steady h r := by
  have h0 : h r = .ok (false, r) := by simpa using hr []
  refine .inr ⟨fun b r' h' => ?_, fun d => ?_⟩
  · rw [h0] at h'
    cases h'
    exact .inl ⟨rfl, rfl⟩
  · rw [h0, hr d]
    rfl

theorem of_take {h : Handler} {r r' : Reader} (h0 : h r = .ok (true, r')) (ha : Advances r r')
    (hr : ∀ d, h (r.feed d) = .ok (true, r'.feed d)) : Handler.Steady h r := by
  refine .inr ⟨fun b r'' h' => ?_, fun d => ?_⟩
  · rw [h0] at h'
    cases h'
    exact .inr ⟨rfl, ha⟩
  · rw [h0, hr d]
    rfl

/-- The alternatives of a state are steady when each of them is. -/
theorem orElse {a b : Handler} {r : Reader} (ha : Handler.Steady a r) (hb : Handler.Steady b r) :
    Handler.Steady (a.orElse b) r := by
  rcases ha with hwait | ⟨hadv, hfeed⟩
  · apply of_wait
    rw [Handler.orElse, hwait]
  cases h : a r with
  | error e =>
    have h0 : a.orElse b r = .error e := by rw [Handler.orElse, h]
    refine of_error h0 fun d => ?_
    rw [Handler.orElse, hfeed d, h]
    rfl
  | ok p =>
    obtain ⟨handled, r'⟩ := p
    rcases hadv handled r' h with ⟨rfl, rfl⟩ | ⟨rfl, hadv'⟩
    · have hb' : ∀ d, a.orElse b (r'.feed d) = b (r'.feed d) := by
        intro d
        rw [Handler.orElse, hfeed d, h]
        rfl
      have h0 : a.orElse b r' = b r' := by simpa using hb' []
      rcases hb with hwait | ⟨hadv', hfeed'⟩
      · exact .inl (h0.trans hwait)
      · refine .inr ⟨fun b' r'' h' => hadv' b' r'' (h0 ▸ h'), fun d => ?_⟩
        rw [hb' d, h0]
        exact hfeed' d
    · have h0 : a.orElse b r = .ok (true, r') := by rw [Handler.orElse, h]
      refine of_take h0 hadv' fun d => ?_
      rw [Handler.orElse, hfeed d, h]
      rfl

end Handler.Steady

/-- What `process` makes of steady handlers is steady. -/
theorem steady_tickHandler {h : Handler} {r : Reader} (hs : h.Steady r) :
    Steady (tickHandler h) r := by
  have hwait : (∃ b, h r = .ok (b, r)) → Steady (tickHandler h) r := by
    rintro ⟨b, hr⟩
    apply Steady.of_wait
    rw [tickHandler, hr]
    exact if_pos ⟨rfl, rfl⟩
  rcases hs with hr | ⟨hadv, hfeed⟩
  · exact hwait ⟨true, hr⟩
  cases hr : h r with
  | error e =>
    apply Steady.of_fail
    intro d
    rw [tickHandler, hfeed d, hr]
    rfl
  | ok p =>
    obtain ⟨b, r'⟩ := p
    rcases hadv b r' hr with ⟨-, rfl⟩ | ⟨-, ha⟩
    · exact hwait ⟨b, hr⟩
    have hmoved : ¬ (r'.state = r.state ∧ r'.pos = r.pos) := by
      rintro ⟨-, hpos⟩
      exact absurd hpos (Nat.ne_of_gt ha.pos_lt)
    by_cases hc : r'.state = .content ∧ r'.state ≠ r.state
    · have h0 : tickHandler h r = .again { r' with value := [] } := by
        rw [tickHandler, hr]
        exact (if_neg hmoved).trans (if_pos hc)
      refine .of_again h0 ha fun d => ?_
      rw [tickHandler, hfeed d, hr]
      exact (if_neg hmoved).trans (if_pos hc)
    · have h0 : tickHandler h r = .again r' := by
        rw [tickHandler, hr]
        exact (if_neg hmoved).trans (if_neg hc)
      refine .of_again h0 ha fun d => ?_
      rw [tickHandler, hfeed d, hr]
      exact (if_neg hmoved).trans (if_neg hc)

theorem matchLiteral_append {lit buf : List UInt8} (d : List UInt8)
    (h : matchLiteral lit buf ≠ .short) :
    matchLiteral lit (buf ++ d) =
      match matchLiteral lit buf with
      | .full rest => .full (rest ++ d)
      | m => m := by
  induction lit generalizing buf with
  | nil => rfl
  | cons l lit ih =>
    cases buf with
    | nil => exact absurd rfl h
    | cons c buf =>
      rw [matchLiteral] at h
      rw [List.cons_append, matchLiteral, matchLiteral]
      by_cases hc : c = l
      · rw [if_pos hc] at h ⊢
        rw [if_pos hc]
        exact ih h
      · rw [if_neg hc, if_neg hc]

/-- The text found and what is behind it are the characters at hand. -/
theorem matchLiteral_full {lit buf rest : List UInt8} (h : matchLiteral lit buf = .full rest) :
    buf = lit ++ rest := by
  induction lit generalizing buf with
  | nil =>
    cases h
    rfl
  | cons l lit ih =>
    cases buf with
    | nil => cases h
    | cons c buf =>
      rw [matchLiteral] at h
      by_cases hc : c = l
      · rw [if_pos hc] at h
        rw [hc, ih h, List.cons_append]
      · rw [if_neg hc] at h
        cases h

theorem Advances.of_drop {r r' : Reader} {n : Nat} (hn : 1 ≤ n) (hle : n ≤ r.buf.length)
    (hbuf : r'.buf = r.buf.drop n) (hpos : r'.pos = r.pos + n) : Advances r r' :=
  ⟨n, hn, hle, hbuf, hpos⟩

theorem steady_literal {lit : List UInt8} {withSpace : Bool} {newState : ParseState} {r : Reader}
    (hlit : 1 ≤ lit.length) : (literal lit withSpace newState).Steady r := by
  by_cases hshort : matchLiteral lit r.buf = .short
  · apply Handler.Steady.of_wait
    rw [literal, hshort]
  have happ := fun d => matchLiteral_append d hshort
  cases hm : matchLiteral lit r.buf with
  | short => exact absurd hm hshort
  | mismatch =>
    apply Handler.Steady.of_decline
    intro d
    rw [literal, Reader.buf_feed, happ, hm]
  | full rest =>
    have hbuf := matchLiteral_full hm
    cases withSpace with
    | false =>
      have hle : lit.length ≤ r.buf.length := by simp [hbuf]
      have h0 : literal lit false newState r =
          .ok (true, { r.advancePos lit.length with state := newState }) := by
        rw [literal, hm]
        rfl
      refine .of_take h0 (.of_drop hlit hle rfl rfl) fun d => ?_
      rw [literal, Reader.buf_feed, happ, hm]
      simp only [Bool.false_eq_true, if_false, Reader.advancePos_feed _ _ hle]
      rfl
    | true =>
      cases rest with
      | nil =>
        apply Handler.Steady.of_wait
        rw [literal, hm]
        rfl
      | cons c rest =>
        by_cases hc : isSpace c = true
        · have hle : lit.length + 1 ≤ r.buf.length := by simp [hbuf]
          have h0 : literal lit true newState r =
              .ok (true, { r.advancePos (lit.length + 1) with state := newState }) := by
            rw [literal, hm]
            exact if_pos hc
          refine .of_take h0 (.of_drop (by omega) hle rfl rfl) fun d => ?_
          rw [literal, Reader.buf_feed, happ, hm]
          simp only [if_true, List.cons_append, hc, Reader.advancePos_feed _ _ hle]
          rfl
        · apply Handler.Steady.of_decline
          intro d
          rw [literal, Reader.buf_feed, happ, hm]
          exact if_neg hc

/-- A handler that takes one character of a kind. -/
private theorem steady_head {h : Handler} {r : Reader} (p : UInt8 → Prop) [DecidablePred p]
    (take : Reader → Reader)
    (hh : ∀ r, h r = if !r.needChars 1 then .ok (true, r)
      else if p (r.charAt 0) then .ok (true, take r) else .ok (false, r))
    (hbuf : ∀ r, 1 ≤ r.buf.length → (take r).buf = r.buf.drop 1 ∧ (take r).pos = r.pos + 1)
    (hfeed : ∀ r d, 1 ≤ r.buf.length → take (r.feed d) = (take r).feed d) : h.Steady r := by
  by_cases hlen : 1 ≤ r.buf.length
  · have hr : ∀ d, h (r.feed d) =
        if p (r.charAt 0) then .ok (true, (take r).feed d) else .ok (false, r.feed d) := by
      intro d
      have hlen' : 1 ≤ (r.feed d).buf.length := by
        rw [Reader.buf_feed, List.length_append]
        omega
      rw [hh, r.charAt_feed d hlen, hfeed r d hlen]
      simp only [Reader.needChars, hlen', decide_true, Bool.not_true, Bool.false_eq_true, if_false]
    by_cases hp : p (r.charAt 0)
    · have h0 := hr []
      rw [Reader.feed_nil, Reader.feed_nil, if_pos hp] at h0
      refine .of_take h0 (.of_drop (Nat.le_refl 1) hlen (hbuf r hlen).1 (hbuf r hlen).2) fun d => ?_
      rw [hr, if_pos hp]
    · apply Handler.Steady.of_decline
      intro d
      rw [hr, if_neg hp]
  · apply Handler.Steady.of_wait
    rw [hh]
    simp [Reader.needChars, hlen]

theorem steady_character {c : UInt8} {newState : ParseState} {r : Reader} :
    (character c newState).Steady r :=
  steady_head (· = c) (fun r => { r.advancePos 1 with state := newState }) (fun _ => rfl)
    (fun _ _ => ⟨rfl, rfl⟩) fun r d h => by
    rw [Reader.advancePos_feed _ _ h]
    rfl

theorem steady_skipSpace {store : Bool} {c : UInt8} {rest : List UInt8} {r : Reader}
    (h : r.buf = c :: rest) (hc : isSpace c = false) : (skipSpace store).Steady r := by
  obtain ⟨buf, pos, attribs, value, encoding, charset, state, elements, events⟩ := r
  cases h
  apply Handler.Steady.of_decline
  intro d
  have hc' : ¬ isSpace c = true := by simp [hc]
  exact if_neg hc'

theorem steady_error {message : String} {r : Reader} :
    Handler.Steady (fun r => r.error message) r :=
  .of_error rfl fun _ => rfl

theorem steady_spaceOrError {message : String} {c : UInt8} {rest : List UInt8} {r : Reader}
    (h : r.buf = c :: rest) (hc : isSpace c = false) : (spaceOrError message).Steady r :=
  (steady_skipSpace h hc).orElse steady_error

theorem steady_element {r : Reader} : element.Steady r := by
  obtain ⟨buf, pos, attribs, value, encoding, charset, state, elements, events⟩ := r
  rcases buf with _ | ⟨c, _ | ⟨c', rest⟩⟩
  · exact .of_wait rfl
  · exact .of_wait rfl
  · by_cases h : c = '<'.toUInt8 ∧ isNameStartChar c' = true
    · by_cases hfull : maxNesting ≤ elements.length
      · refine .of_error ((dif_pos h).trans (if_pos hfull)) fun d => ?_
        exact (dif_pos h).trans (if_pos hfull)
      · refine .of_take ((dif_pos h).trans (if_neg hfull)) ?_ fun d => ?_
        · exact .of_drop (by omega) (show 2 ≤ _ by simp) rfl rfl
        · exact (dif_pos h).trans (if_neg hfull)
    · exact .of_decline fun d => dif_neg h

theorem steady_elementAttr {r : Reader} : Handler.Steady elementAttr r :=
  steady_head (isNameStartChar · = true)
    (fun r => { r.advancePos 1 with
      attribs := ([r.charAt 0], []) :: r.attribs, state := .elementAttrName }) (fun _ => rfl)
        (fun _ _ => ⟨rfl, rfl⟩) fun r d h => by
    rw [Reader.charAt_feed _ _ h, Reader.advancePos_feed _ _ h]
    rfl

theorem steady_elementEndSimple {r : Reader} : Handler.Steady elementEndSimple r :=
  steady_head (· = '>'.toUInt8)
    (fun r => { (r.startTag true).advancePos 1 with
      elements := r.elements.tail, state := .content }) (fun _ => rfl)
        (fun _ _ => ⟨rfl, rfl⟩) fun r d h => by
    rw [Reader.startTag_feed, (r.startTag _).advancePos_feed d h]
    rfl

theorem steady_elementEndComplex {r : Reader} : Handler.Steady elementEndComplex r :=
  steady_head (· = '>'.toUInt8)
    (fun r => { (r.startTag false).advancePos 1 with state := .content }) (fun _ => rfl)
    (fun _ _ => ⟨rfl, rfl⟩) fun r d h => by
    rw [Reader.startTag_feed, (r.startTag _).advancePos_feed d h]
    rfl

theorem steady_elementEndEnd {T : Charsets} {r : Reader} : (elementEndEnd T).Steady r :=
  steady_head (· = '>'.toUInt8)
    (fun r => { r.advancePos 1 with
      events := r.events ++ [.endTag r.topName
        (if r.charset ≠ charsetUtf8 then T.toUtf8 r.value r.charset else r.value)]
      value := []
      elements := r.elements.tail
      state := .content }) (fun _ => rfl) (fun _ _ => ⟨rfl, rfl⟩) fun r d h => by
    rw [Reader.advancePos_feed _ _ h]
    rfl

theorem steady_elementEnd {r : Reader} : Handler.Steady elementEnd r := by
  cases htop : r.elements with
  | nil =>
    apply Handler.Steady.of_decline
    intro d
    rw [elementEnd, Reader.elements_feed, htop]
  | cons top outer =>
    by_cases hlen : top.chars.length ≤ r.buf.length
    · have hr : ∀ d, elementEnd (r.feed d) =
          if r.buf.take top.chars.length = top.chars then
            .ok (true, { (r.advancePos top.chars.length).feed d with state := .elementEndEnd })
          else .ok (false, r.feed d) := by
        intro d
        have hlen' : (r.feed d).needChars top.chars.length = true := by
          simp only [Reader.needChars, Reader.buf_feed, List.length_append, decide_eq_true_eq]
          omega
        rw [elementEnd, Reader.elements_feed, htop]
        simp only [hlen', Bool.not_true, Bool.false_eq_true, if_false, Reader.buf_feed,
          List.take_append_of_le_length hlen, Reader.advancePos_feed _ _ hlen]
      by_cases hmatch : r.buf.take top.chars.length = top.chars
      · have h0 := hr []
        rw [if_pos hmatch, Reader.feed_nil, Reader.feed_nil] at h0
        refine .of_take h0 (.of_drop ?_ hlen rfl rfl) fun d => ?_
        · simp [ElementName.chars]
        · rw [hr, if_pos hmatch]
          rfl
      · apply Handler.Steady.of_decline
        intro d
        rw [hr, if_neg hmatch]
    · apply Handler.Steady.of_wait
      rw [elementEnd, htop]
      simp [Reader.needChars, hlen]

theorem versionEnd_append {sep : UInt8} {buf : List UInt8} (d : List UInt8)
    (h : versionEnd sep buf ≠ .short) :
    versionEnd sep (buf ++ d) =
      match versionEnd sep buf with
      | .full rest => .full (rest ++ d)
      | m => m := by
  induction buf with
  | nil => exact absurd rfl h
  | cons c buf ih =>
    rw [versionEnd] at h
    rw [List.cons_append, versionEnd, versionEnd]
    split
    · rfl
    split
    · rfl
    · simp_all

theorem versionEnd_full {sep : UInt8} {buf rest : List UInt8}
    (h : versionEnd sep buf = .full rest) : rest.length < buf.length := by
  induction buf with
  | nil => cases h
  | cons c buf ih =>
    rw [versionEnd] at h
    split at h
    · cases h
      simp
    split at h
    · cases h
    · have := ih h
      simp
      omega

private theorem declVersionNum_feed {r : Reader} (d : List UInt8) (hlen : 5 ≤ r.buf.length) :
    declVersionNum (r.feed d) =
      if (r.charAt 0 = '"'.toUInt8 ∨ r.charAt 0 = '\''.toUInt8) ∧ r.charAt 1 = '1'.toUInt8 ∧
          r.charAt 2 = '.'.toUInt8 then
        if !inRange (r.charAt 3) '0'.toUInt8 '9'.toUInt8 then .ok (false, r.feed d)
        else
          match versionEnd (r.charAt 0) (r.buf.drop 4 ++ d) with
          | .full rest =>
            .ok (true, { (r.feed d).advancePos ((r.buf ++ d).length - rest.length) with
              state := .declEncoding })
          | .mismatch => .ok (false, r.feed d)
          | .short => .ok (true, r.feed d)
      else .ok (false, r.feed d) := by
  have hlen' : (r.feed d).needChars 5 = true := by
    simp only [Reader.needChars, Reader.buf_feed, List.length_append, decide_eq_true_eq]
    omega
  rw [declVersionNum, hlen', r.charAt_feed d (show 0 < r.buf.length by omega),
    r.charAt_feed d (show 1 < r.buf.length by omega),
    r.charAt_feed d (show 2 < r.buf.length by omega),
    r.charAt_feed d (show 3 < r.buf.length by omega), Reader.buf_feed,
    List.drop_append_of_le_length (show 4 ≤ r.buf.length by omega)]
  rfl

theorem steady_declVersionNum {r : Reader} : Handler.Steady declVersionNum r := by
  by_cases hlen : 5 ≤ r.buf.length
  · have hr := fun d => declVersionNum_feed d hlen
    by_cases hsep : (r.charAt 0 = '"'.toUInt8 ∨ r.charAt 0 = '\''.toUInt8) ∧
        r.charAt 1 = '1'.toUInt8 ∧ r.charAt 2 = '.'.toUInt8
    · simp only [if_pos hsep] at hr
      by_cases hdigit : (!inRange (r.charAt 3) '0'.toUInt8 '9'.toUInt8) = true
      · simp only [if_pos hdigit] at hr
        exact .of_decline hr
      · simp only [if_neg hdigit] at hr
        by_cases hshort : versionEnd (r.charAt 0) (r.buf.drop 4) = .short
        · apply Handler.Steady.of_wait
          have h0 := hr []
          rwa [List.append_nil, hshort, Reader.feed_nil] at h0
        have happ := fun d => versionEnd_append d hshort
        cases hend : versionEnd (r.charAt 0) (r.buf.drop 4) with
        | short => exact absurd hend hshort
        | mismatch =>
          apply Handler.Steady.of_decline
          intro d
          rw [hr, happ, hend]
        | full rest =>
          have hrest := versionEnd_full hend
          rw [List.length_drop] at hrest
          have h0 := hr []
          rw [List.append_nil, List.append_nil, hend, Reader.feed_nil] at h0
          refine .of_take h0 (.of_drop ?_ (Nat.sub_le _ rest.length) rfl rfl) fun d => ?_
          · omega
          · rw [hr, happ, hend]
            have hn : (r.buf ++ d).length - (rest ++ d).length = r.buf.length - rest.length := by
              rw [List.length_append, List.length_append]
              omega
            simp only [hn, Reader.advancePos_feed _ _ (Nat.sub_le r.buf.length rest.length)]
            rfl
    · simp only [if_neg hsep] at hr
      exact .of_decline hr
  · apply Handler.Steady.of_wait
    simp [declVersionNum, Reader.needChars, hlen]

theorem steady_content {c : UInt8} {rest : List UInt8} {r : Reader} (h : r.buf = c :: rest)
    (hc : c ≠ '&'.toUInt8) : Handler.Steady content r := by
  obtain ⟨buf, pos, attribs, value, encoding, charset, state, elements, events⟩ := r
  cases h
  by_cases hlt : c = '<'.toUInt8
  · by_cases hvalue : value ≠ []
    · refine .of_error ((if_pos hlt).trans (if_pos hvalue)) fun d => ?_
      exact (if_pos hlt).trans (if_pos hvalue)
    · refine .of_decline fun d => ?_
      exact (if_pos hlt).trans (if_neg hvalue)
  · have hr : ∀ r' : Reader, r'.buf.head? = some c → content r' =
        if maxValueSize < r'.value.length + 1 then r'.error "Buffer overflow"
        else .ok (true, { r'.advancePos 1 with value := r'.value ++ [c] }) := by
      rintro ⟨_ | ⟨c', rest'⟩, _, _, value', _, _, _, _, _⟩ hhead
      · cases hhead
      · cases hhead
        refine ((if_neg hlt).trans (if_neg hc)).trans ?_
        by_cases hfull : maxValueSize < value'.length + 1
        · simp [Reader.append, Reader.error, Reader.charAt, hfull]
        · simp [Reader.append, Reader.charAt, hfull]
    by_cases hfull : maxValueSize < value.length + 1
    · refine .of_error ((hr _ rfl).trans (if_pos hfull)) fun d => ?_
      exact (hr _ rfl).trans (if_pos hfull)
    · refine .of_take ((hr _ rfl).trans (if_neg hfull)) (.of_drop_one rfl rfl rfl) fun d => ?_
      exact (hr _ rfl).trans (if_neg hfull)

/-! ### The machine -/

/-- The alternatives of the content, but for an entity reference. -/
theorem steady_handler_content {T : Charsets} {c : UInt8} {rest : List UInt8} {r : Reader}
    (h : r.buf = c :: rest) (hc : isSpace c = false) (hamp : c ≠ '&'.toUInt8) :
    (handler T .content).Steady r :=
  (steady_skipSpace h hc).orElse <| (steady_literal (by decide)).orElse <|
    (steady_literal (by decide)).orElse <| steady_element.orElse <|
    (steady_literal (by decide)).orElse <| (steady_content h hamp).orElse steady_error

/-- An entity reference waits for the character behind the `&`. -/
theorem handler_content_ampersand {T : Charsets} {r : Reader} (h : r.buf = ['&'.toUInt8]) :
    handler T .content r = .ok (true, r) := by
  obtain ⟨buf, pos, attribs, value, encoding, charset, state, elements, events⟩ := r
  cases h
  rfl

/-- The alternatives of a state, when the next character is not a space. -/
theorem steady_handler {T : Charsets} {c : UInt8} {rest : List UInt8} {r : Reader}
    (h : r.buf = c :: rest) (hc : isSpace c = false) {state : ParseState}
    (hstate : state ∉ [ParseState.elementName, .elementAttrName, .elementAttrValueApos,
      .elementAttrValueQuot, .comment, .cdata, .content]) :
    (handler T state).Steady r := by
  cases state with
  | start =>
    exact (steady_literal (by decide)).orElse <| (steady_literal (by decide)).orElse <|
      (steady_literal (by decide)).orElse <| steady_element.orElse (steady_spaceOrError h hc)
  | declVersion =>
    exact (steady_skipSpace h hc).orElse <|
      (steady_literal (by decide)).orElse (steady_spaceOrError h hc)
  | declVersionEq => exact steady_character.orElse (steady_spaceOrError h hc)
  | declVersionNum => exact steady_declVersionNum.orElse (steady_spaceOrError h hc)
  | declEncoding =>
    exact (steady_literal (by decide)).orElse <| (steady_literal (by decide)).orElse <|
      (steady_literal (by decide)).orElse (steady_spaceOrError h hc)
  | declEncodingEq => exact steady_character.orElse (steady_spaceOrError h hc)
  | declEncodingName =>
    exact steady_character.orElse <| steady_character.orElse (steady_spaceOrError h hc)
  | declEncodingNameApos => exact steady_error
  | declEncodingNameQuot => exact steady_error
  | declStandalone =>
    exact (steady_literal (by decide)).orElse <|
      (steady_literal (by decide)).orElse (steady_spaceOrError h hc)
  | declStandaloneEq => exact steady_character.orElse (steady_spaceOrError h hc)
  | declStandaloneYes =>
    exact (steady_literal (by decide)).orElse <|
      (steady_literal (by decide)).orElse (steady_spaceOrError h hc)
  | declEnd => exact (steady_literal (by decide)).orElse (steady_spaceOrError h hc)
  | elementEnd => exact steady_elementEnd.orElse (steady_spaceOrError h hc)
  | elementEndEnd => exact steady_elementEndEnd.orElse (steady_spaceOrError h hc)
  | elementAttr =>
    exact steady_elementAttr.orElse <| steady_elementEndComplex.orElse <|
      steady_character.orElse (steady_spaceOrError h hc)
  | elementAttrEq => exact steady_character.orElse (steady_spaceOrError h hc)
  | elementAttrValue =>
    exact steady_character.orElse <| steady_character.orElse (steady_spaceOrError h hc)
  | elementEndSimple => exact steady_elementEndSimple.orElse steady_error
  | end_ => exact steady_error
  | _ => simp at hstate

theorem steady_tickContent {T : Charsets} {r : Reader} : Steady (tickContent T) r := by
  cases hbuf : r.buf with
  | nil =>
    apply Steady.of_wait
    rw [tickContent, hbuf]
  | cons c rest =>
    have hr : ∀ d, tickContent T (r.feed d) =
        if isSpace c then
          if maxValueSize < r.value.length + 1 then .fail
          else .again (({ r.advancePos 1 with value := r.value ++ [c] } : Reader).feed d)
        else if c = '&'.toUInt8 ∧ rest ++ d ≠ [] then tickEntref r.value Reader.setValue (r.feed d)
        else tickHandler (handler T .content) (r.feed d) := by
      intro d
      rw [tickContent, Reader.buf_feed, hbuf]
      simp only [List.cons_append]
      rw [r.advancePos_feed d (by simp [hbuf])]
      rfl
    by_cases hc : isSpace c = true
    · simp only [if_pos hc] at hr
      by_cases hfull : maxValueSize < r.value.length + 1
      · apply Steady.of_fail
        intro d
        rw [hr, if_pos hfull]
      · simp only [if_neg hfull] at hr
        have h0 := hr []
        rw [Reader.feed_nil, Reader.feed_nil] at h0
        exact .of_again h0 (.of_drop_one hbuf (by simp [Reader.advancePos, hbuf]) rfl) hr
    · simp only [if_neg hc] at hr
      by_cases hamp : c = '&'.toUInt8 ∧ rest ≠ []
      · have hent : Steady (tickEntref r.value Reader.setValue) r :=
          steady_tickEntref (fun v => rfl) (fun v => rfl) fun v d => rfl
        apply hent.congr
        intro d
        rw [hr, if_pos ⟨hamp.1, by simp [hamp.2]⟩]
      by_cases hc' : c = '&'.toUInt8
      · have hrest : rest = [] := by
          by_contra hne
          exact hamp ⟨hc', hne⟩
        apply Steady.of_wait
        have h0 := hr []
        rw [Reader.feed_nil, hrest, if_neg (by simp), tickHandler,
          handler_content_ampersand (by rw [hbuf, hc', hrest])] at h0
        exact h0.trans (if_pos ⟨rfl, rfl⟩)
      · apply (steady_tickHandler (steady_handler_content hbuf (by simpa using hc) hc')).congr
        intro d
        rw [hr, if_neg (fun h => hc' h.1)]

/-- The states that take spaces, or texts in one step. -/
def scanStates : List ParseState :=
  [.end_, .elementName, .elementAttrName, .elementAttrValueApos, .elementAttrValueQuot,
    .declEncodingNameApos, .declEncodingNameQuot, .comment, .cdata, .content]

/-- The alternatives of a state, where no space is to be skipped. -/
theorem steady_handler_other {T : Charsets} {c : UInt8} {rest : List UInt8} {r : Reader}
    (hstate : r.state ∉ scanStates) (hbuf : r.buf = c :: rest)
    (hc : ¬ (isSpace c && !noSpace r.state) = true) : (handler T r.state).Steady r := by
  cases hno : noSpace r.state with
  | true =>
    have hsimple : r.state = .elementEndSimple := by
      revert hno
      cases r.state <;> simp [noSpace]
    rw [hsimple]
    exact steady_elementEndSimple.orElse steady_error
  | false =>
    rw [hno] at hc
    refine steady_handler hbuf (by simpa using hc) fun hmem => hstate ?_
    simp only [scanStates, List.mem_cons, List.not_mem_nil, or_false] at hmem ⊢
    tauto

theorem steady_tickOther {T : Charsets} {r : Reader} (hstate : r.state ∉ scanStates) :
    Steady (tickOther T) r := by
  cases hbuf : r.buf with
  | nil =>
    apply Steady.of_wait
    rw [tickOther, hbuf]
  | cons c rest =>
    by_cases hc : (isSpace c && !noSpace r.state) = true
    · have hr : ∀ d, tickOther T (r.feed d) = .again ((r.advancePos 1).feed d) := by
        intro d
        rw [tickOther, Reader.buf_feed, hbuf]
        simp only [List.cons_append]
        rw [r.advancePos_feed d (by simp [hbuf])]
        exact if_pos hc
      have h0 := hr []
      rw [Reader.feed_nil, Reader.feed_nil] at h0
      exact .of_again h0 (.of_drop_one hbuf (by simp [Reader.advancePos, hbuf]) rfl) hr
    · apply (steady_tickHandler (steady_handler_other hstate hbuf hc)).congr
      intro d
      rw [tickOther, Reader.buf_feed, hbuf]
      exact if_neg hc

/-- A tick waits, or it takes some characters or fails, as it does when there are more. -/
theorem steady_tick {T : Charsets} {r : Reader} : Steady (tick T) r := by
  have hcongr : ∀ t, (∀ d, tick T (r.feed d) = t (r.feed d)) → Steady t r → Steady (tick T) r :=
    fun t h hs => hs.congr h
  cases hstate : r.state with
  | end_ =>
    apply Steady.of_wait
    rw [tick, hstate]
  | elementName =>
    refine hcongr _ (fun d => by rw [tick, Reader.state_feed, hstate]) ?_
    exact steady_tickScan fun c rest hbuf _ => steady_behindName hbuf
  | elementAttrName =>
    refine hcongr _ (fun d => by rw [tick, Reader.state_feed, hstate]) ?_
    exact steady_tickScan fun c rest hbuf _ => steady_behindAttrName hbuf
  | elementAttrValueApos =>
    refine hcongr _ (fun d => by rw [tick, Reader.state_feed, hstate]) ?_
    exact steady_tickScan fun c rest hbuf _ => steady_behindAttrValue hbuf
  | elementAttrValueQuot =>
    refine hcongr _ (fun d => by rw [tick, Reader.state_feed, hstate]) ?_
    exact steady_tickScan fun c rest hbuf _ => steady_behindAttrValue hbuf
  | declEncodingNameApos =>
    refine hcongr _ (fun d => by rw [tick, Reader.state_feed, hstate]) steady_tickEncoding
  | declEncodingNameQuot =>
    refine hcongr _ (fun d => by rw [tick, Reader.state_feed, hstate]) steady_tickEncoding
  | comment => refine hcongr _ (fun d => by rw [tick, Reader.state_feed, hstate]) steady_tickComment
  | cdata => refine hcongr _ (fun d => by rw [tick, Reader.state_feed, hstate]) steady_tickCdata
  | content => refine hcongr _ (fun d => by rw [tick, Reader.state_feed, hstate]) steady_tickContent
  | _ =>
    refine hcongr _ (fun d => by rw [tick, Reader.state_feed, hstate]) (steady_tickOther ?_)
    rw [hstate]
    decide

/-- The reader that takes a character at a time. -/
def machine (T : Charsets) : Incremental Reader UInt8 where
  tick := tick T
  feed := Reader.feed
  size r := r.buf.length
  size_lt {r r'} h := by
    rcases steady_tick with hwait | ⟨hadv, -⟩
    · rw [hwait] at h
      cases h
    · exact (hadv r' h).length_lt
  tick_feed {r r'} d h := by
    rcases steady_tick with hwait | ⟨-, hfeed⟩
    · rw [hwait] at h
      cases h
    · rw [hfeed d, h]
      rfl
  fail_feed {r} d h := by
    rcases steady_tick with hwait | ⟨-, hfeed⟩
    · rw [hwait] at h
      cases h
    · rw [hfeed d, h]
      rfl

end Blacklink.Xml
