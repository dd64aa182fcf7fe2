import Blacklink.Xml.Buffers
import Blacklink.Xml.SimpleXML

/-!
# Documents that have been cut

What `fromXML` does with the characters at the front of a document that it accepts
(`client/SimpleXML.cpp:247-263`, `client/SimpleXMLReader.cpp:722-726`). The result of `parse` is not
looked at, and an element that has not ended is among the children of its parent all the same.
-/

namespace Blacklink.Xml

open Blacklink.Base Blacklink.Text

/-! ### The children of the root -/

/-- With another tag in front, there are as many children of the root. -/
theorem length_closeTags_congr {a b : Tag} (outer : List Tag)
    (h : a.children.length = b.children.length) :
    (closeTags (a :: outer)).length = (closeTags (b :: outer)).length := by
  induction outer generalizing a b with
  | nil =>
    rw [closeTags, closeTags]
    exact h
  | cons parent outer ih =>
    rw [closeTags, closeTags]
    apply ih
    simp [Tag.pushChild, Tag.children]

theorem length_closeTags_pushChild (cur child : Tag) (outer : List Tag) :
    (closeTags (cur :: outer)).length ≤ (closeTags (cur.pushChild child :: outer)).length := by
  cases outer with
  | nil => simp [closeTags, Tag.pushChild, Tag.children]
  | cons parent outer =>
    rw [closeTags, closeTags]
    apply Nat.le_of_eq
    apply length_closeTags_congr
    simp [Tag.pushChild, Tag.children]

/-- No callback takes a child of the root away. -/
theorem length_closeTags_tagReader {tags tags' : List Tag} {event : Event}
    (h : tagReader tags event = .ok tags') :
    (closeTags tags).length ≤ (closeTags tags').length := by
  unfold tagReader at h
  split at h
  · cases h
    exact length_closeTags_pushChild _ _ _
  · cases h
    cases tags with
    | nil => simp [closeTags]
    | cons cur outer =>
      rw [closeTags]
      exact length_closeTags_pushChild cur _ outer
  · cases h
    rw [closeTags]
    apply Nat.le_of_eq
    apply length_closeTags_congr
    simp [Tag.pushChild, Tag.children]
  · cases h

theorem length_closeTags_readTags {tags tags' : List Tag} {events : List Event}
    (h : readTags tags events = .ok tags') :
    (closeTags tags).length ≤ (closeTags tags').length := by
  induction events generalizing tags with
  | nil =>
    cases h
    exact Nat.le_refl _
  | cons event events ih =>
    rw [readTags] at h
    cases hstep : tagReader tags event with
    | error e =>
      rw [hstep] at h
      cases h
    | ok mid =>
      rw [hstep] at h
      exact (length_closeTags_tagReader hstep).trans (ih h)

theorem readTags_append (tags : List Tag) (events more : List Event) :
    readTags tags (events ++ more) = (readTags tags events).bind (readTags · more) := by
  induction events generalizing tags with
  | nil => rfl
  | cons event events ih =>
    rw [List.cons_append, readTags, readTags]
    cases tagReader tags event with
    | error e => rfl
    | ok mid => exact ih mid

/-- The first call of a document that is accepted gives the root a child. -/
theorem closeTags_readTags_pos {tags : List Tag} {events : List Event}
    (h : readTags [rootTag] events = .ok tags) (hne : events ≠ []) :
    0 < (closeTags tags).length := by
  cases events with
  | nil => exact absurd rfl hne
  | cons event events =>
    rw [readTags] at h
    cases event with
    | endTag name data => cases h
    | startTag name attribs simple =>
      have hone : ∀ child : Tag, 0 < (closeTags [rootTag.pushChild child]).length := by
        intro child
        simp [closeTags, Tag.pushChild, Tag.children]
      cases simple with
      | true => exact (hone _).trans_le (length_closeTags_readTags h)
      | false =>
        refine Nat.lt_of_lt_of_le ?_ (length_closeTags_readTags h)
        rw [closeTags]
        exact hone _

/-! ### `fromXML` and the reader at rest -/

/-- The document that the calls make. -/
def documentOf (events : List Event) : Except XmlException Tag :=
  match readTags [rootTag] events with
  | .error e => .error e
  | .ok tags =>
    match closeTags tags with
    | [tag] => .ok tag
    | _ => .error .invalidFile

/-- The document is accepted. -/
def Accepts (T : Charsets) (xml : List UInt8) : Prop :=
  ∃ fuel tag, fromXML T xml fuel = some (.ok tag)

/-- There is an exception. -/
def Throws (T : Charsets) (xml : List UInt8) : Prop :=
  ∃ fuel e, fromXML T xml fuel = some (.error e)

section Documents

variable {T : Charsets} {xml : List UInt8}

theorem fromXML_mono {m n : Nat} {result : Except XmlException Tag} (hmn : m ≤ n)
    (h : fromXML T xml m = some result) : fromXML T xml n = some result := by
  unfold fromXML at h ⊢
  cases hp : parse T xml m Reader.new with
  | none =>
    rw [hp] at h
    cases h
  | some outcome =>
    rw [hp] at h
    rw [fuelMono_parse xml hmn hp]
    exact h

theorem fromXML_unique {m n : Nat} {x y : Except XmlException Tag}
    (hx : fromXML T xml m = some x) (hy : fromXML T xml n = some y) : x = y := by
  have hx' := fromXML_mono (Nat.le_max_left m n) hx
  rw [fromXML_mono (Nat.le_max_right m n) hy] at hx'
  exact (Option.some.inj hx').symm

/-- An exception of the reader, or one of the callbacks before it. -/
theorem throws_of_parse {e : XmlError × List Event}
    (h : Ends (parse T xml) Reader.new (.error e)) : Throws T xml := by
  obtain ⟨n, hn⟩ := h
  obtain ⟨e, events⟩ := e
  refine ⟨n, ?_⟩
  unfold fromXML
  rw [hn]
  cases h : readTags [rootTag] events with
  | error e' =>
    refine ⟨e', ?_⟩
    dsimp only
    rw [h]
  | ok tags =>
    refine ⟨.reader e, ?_⟩
    dsimp only
    rw [h]

theorem fromXML_of_parse {b : Bool} {r : Reader} {n : Nat}
    (h : parse T xml n Reader.new = some (.ok (b, r))) :
    fromXML T xml n = some (documentOf r.events) := by
  unfold fromXML documentOf
  rw [h]
  cases hread : readTags [rootTag] r.events with
  | error e =>
    dsimp only
    rw [hread]
  | ok tags =>
    dsimp only
    rw [hread]
    dsimp only
    match closeTags tags with
    | [] => rfl
    | [tag] => rfl
    | _ :: _ :: _ => rfl

theorem halts_parse_of_fromXML {n : Nat} {result : Except XmlException Tag}
    (h : fromXML T xml n = some result) : Halts (process T) (Reader.new.feed xml) := by
  cases hp : parse T xml n Reader.new with
  | none =>
    unfold fromXML at h
    rw [hp] at h
    cases h
  | some outcome => exact ⟨outcome, n, hp⟩

private theorem state_new : (Reader.new.feed xml).state ≠ .end_ := by
  change ParseState.start ≠ .end_
  decide

/-- Where the reader rests with a document that is accepted. -/
theorem rest_of_accepts {w : Reader} (h : Accepts T xml)
    (hw : Reaches T (Reader.new.feed xml) w) (hrest : (machine T).Rests w) :
    tick T w = .wait ∧ ∃ tag, documentOf w.events = .ok tag := by
  obtain ⟨n, tag, hn⟩ := h
  rcases process_spec T (r := Reader.new.feed xml) state_new hw hrest with
    ⟨-, e, he⟩ | ⟨-, hhalts⟩ | ⟨hwait, -, -, r', ⟨m, hm⟩, -, -, hev⟩
  · have hthrows : Throws T xml := throws_of_parse he
    obtain ⟨m, e', hm⟩ := hthrows
    cases fromXML_unique hm hn
  · exact absurd (halts_parse_of_fromXML hn) hhalts
  · have hread : fromXML T xml m = some (documentOf r'.events) := fromXML_of_parse hm
    rw [← hev]
    exact ⟨hwait, tag, fromXML_unique hread hn⟩

/-- The calls at the front of those of a document make a document too, if there are any. -/
theorem documentOf_prefix {before events : List Event} {tag : Tag}
    (h : documentOf events = .ok tag) (hp : before <+: events) :
    (∃ tag', documentOf before = .ok tag') ↔ before ≠ [] := by
  obtain ⟨more, rfl⟩ := hp
  constructor
  · rintro ⟨tag', h'⟩ rfl
    simp [documentOf, readTags, closeTags, rootTag, Tag.children] at h'
  · intro hne
    unfold documentOf at h ⊢
    rw [readTags_append] at h
    cases hb : readTags [rootTag] before with
    | error e =>
      rw [hb] at h
      cases h
    | ok tags =>
      rw [hb] at h
      have hpos := closeTags_readTags_pos hb hne
      cases hm : readTags tags more with
      | error e =>
        rw [show (Except.ok tags : Except XmlException _).bind (readTags · more) = _ from hm] at h
        cases h
      | ok tags' =>
        rw [show (Except.ok tags : Except XmlException _).bind (readTags · more) = _ from hm] at h
        have hle := length_closeTags_readTags hm
        dsimp only at h ⊢
        split at h
        next child hchild =>
          rw [hchild] at hle
          obtain ⟨child', hc⟩ := List.length_eq_one_iff.mp (Nat.le_antisymm hle hpos)
          rw [hc]
          exact ⟨child', rfl⟩
        · cases h

end Documents

/-! ### Prefixes of documents -/

/-- The start tag of the root element is all there, so that there has been a call. -/
def StartsRoot (T : Charsets) (xml : List UInt8) : Prop :=
  ∃ w, Reaches T (Reader.new.feed xml) w ∧ w.events ≠ []

/-- The end tag of the root element is all there, so that nothing but the root is open. -/
def EndsRoot (T : Charsets) (xml : List UInt8) : Prop :=
  ∃ w root, Reaches T (Reader.new.feed xml) w ∧ readTags [rootTag] w.events = .ok [root] ∧
    root.children ≠ []

/-- The characters end behind the last digit of a character reference. -/
def EndsInCharRef (T : Charsets) (xml : List UInt8) : Prop :=
  ∃ w, Reaches T (Reader.new.feed xml) w ∧ tick T w = .wait ∧ Cut w

/-- `fromXML` throws an exception for a prefix of a document that it accepts exactly when the start
tag of the root element has not been read, or the prefix ends behind the last digit of a character
reference: an element that has not ended is not an error. -/
theorem throws_prefix_iff {T : Charsets} {doc xml : List UInt8} (hdoc : Accepts T doc)
    (hp : xml <+: doc) :
    Throws T xml ↔ EndsInCharRef T xml ∨
      ¬ StartsRoot T xml ∧ ¬ EndsInReference T (Reader.new.feed xml) := by
  obtain ⟨rest, rfl⟩ := hp
  obtain ⟨v, hv, hrestv⟩ := (machine T).exists_rests (Reader.new.feed xml)
  obtain ⟨w, hw, hrestw⟩ := (machine T).exists_rests (Reader.new.feed (xml ++ rest))
  obtain ⟨hwaitw, tag, htag⟩ := rest_of_accepts hdoc hw hrestw
  have hvw : Reaches T (v.feed rest) w := by
    rw [← Reader.feed_feed] at hw
    exact hv.feed_rest hw hrestw
  have hwait : tick T v = .wait := by
    rcases hrestv.cases with hwait | hfail
    · exact hwait
    · have hfail' := (machine T).fail_feed rest hfail
      have heq : w = v.feed rest := Incremental.Reaches.rest_unique hvw (.refl _) hrestw
        (Incremental.rests_of_fail hfail')
      rw [heq, show tick T (v.feed rest) = .fail from hfail'] at hwaitw
      cases hwaitw
  have hcut : EndsInCharRef T xml ↔ Cut v := by
    constructor
    · rintro ⟨x, hx, hwaitx, hcut⟩
      rwa [hx.rest_unique hv (Incremental.rests_of_wait hwaitx) hrestv] at hcut
    · exact fun h => ⟨v, hv, hwait, h⟩
  have hstuck : EndsInReference T (Reader.new.feed xml) ↔ Stuck v := by
    constructor
    · rintro ⟨x, hx, hstuck⟩
      rwa [hx.rest_unique hv (Incremental.rests_of_wait (tick_of_stuck hstuck)) hrestv] at hstuck
    · exact fun h => ⟨v, hv, h⟩
  have hstarts : StartsRoot T xml ↔ v.events ≠ [] := by
    constructor
    · rintro ⟨x, hx, hne⟩ hnil
      have hprefix := events_prefix_of_reaches (hx.to_rest hv hrestv)
      rw [hnil, List.prefix_nil] at hprefix
      exact hne hprefix
    · exact fun h => ⟨v, hv, h⟩
  have hdocument : (∃ tag', documentOf v.events = .ok tag') ↔ v.events ≠ [] :=
    documentOf_prefix htag (events_prefix_of_reaches (r := v.feed rest) hvw)
  rw [hcut, hstuck, hstarts]
  rcases process_spec T (r := Reader.new.feed xml) state_new hv hrestv with
    ⟨hfail, e, he⟩ | ⟨hs, hhalts⟩ | ⟨-, hc, hs, r', ⟨n, hn⟩, -, -, hev⟩
  · refine iff_of_true (throws_of_parse he) (.inl (hfail.resolve_left ?_))
    rw [hwait]
    exact nofun
  · refine iff_of_false ?_ ?_
    · rintro ⟨n, e, hn⟩
      exact hhalts (halts_parse_of_fromXML hn)
    · rintro (hc | ⟨-, hns⟩)
      · exact not_throws_of_stuck (T := T) hs (.inr hc)
      · exact hns hs
  · have hread : fromXML T xml n = some (documentOf r'.events) := fromXML_of_parse hn
    rw [hev] at hread
    simp only [hc, hs, false_or, not_false_eq_true, and_true]
    rw [← hdocument]
    constructor
    · rintro ⟨m, e, hm⟩ ⟨tag', htag'⟩
      rw [htag'] at hread
      cases fromXML_unique hm hread
    · intro hno
      cases hd : documentOf v.events with
      | error e => exact ⟨n, e, hread.trans (congrArg some hd)⟩
      | ok tag' => exact absurd ⟨tag', hd⟩ hno

private theorem fromXML_of_observed {T : Charsets} {xml : List UInt8} {n : Nat}
    (events : List Event) (h : (parse T xml n Reader.new).map observed = some (true, events)) :
    fromXML T xml n = some (documentOf events) := by
  obtain ⟨outcome, hparse, hseen⟩ := Option.map_eq_some_iff.mp h
  cases outcome with
  | error e => cases hseen
  | ok p =>
    cases hseen
    exact fromXML_of_parse hparse

/-- An empty element. -/
private theorem accepts_element : Accepts plainCharsets (ascii "<a></a>") := by
  refine ⟨10, .mk (ascii "a") [] [] [], ?_⟩
  rw [fromXML_of_observed [.startTag (ascii "a") [] false, .endTag (ascii "a") []] rfl]
  simp [documentOf, readTags, tagReader, closeTags, rootTag, Tag.pushChild, Tag.name, Tag.attribs,
    Tag.children]

/-- Cut behind its first character. -/
theorem throws_prefix_bracket : Throws plainCharsets (ascii "<") := by
  refine (throws_prefix_iff accepts_element ⟨ascii "a></a>", rfl⟩).mpr (.inr ⟨?_, ?_⟩)
  all_goals
    have hrest : (machine plainCharsets).tick ((machine plainCharsets).after 1
      (Reader.new.feed (ascii "<"))) = .wait := rfl
  · rintro ⟨w, hw, hne⟩
    have hprefix := events_prefix_of_reaches
      (hw.to_rest (Incremental.reaches_after 1 _) (Incremental.rests_of_wait hrest))
    exact hne (List.prefix_nil.mp hprefix)
  · rintro ⟨w, hw, hstuck⟩
    have heq := hw.rest_unique (Incremental.reaches_after 1 _)
      (Incremental.rests_of_wait (tick_of_stuck hstuck)) (Incremental.rests_of_wait hrest)
    rw [heq] at hstuck
    exact absurd hstuck.1 (by decide)

/-- Cut behind the start tag, the element is taken for a whole document. -/
theorem not_throws_prefix : ¬ ∀ doc xml, Accepts plainCharsets doc → xml <+: doc → xml ≠ doc →
    ¬ EndsRoot plainCharsets xml → Throws plainCharsets xml := by
  intro hclaim
  have hread : fromXML plainCharsets (ascii "<a>") 10 = some (.ok (.mk (ascii "a") [] [] [])) := by
    rw [fromXML_of_observed [.startTag (ascii "a") [] false] rfl]
    simp [documentOf, readTags, tagReader, closeTags, rootTag, Tag.pushChild, Tag.name,
      Tag.attribs, Tag.children]
  have hopen : ¬ EndsRoot plainCharsets (ascii "<a>") := by
    rintro ⟨w, root, hw, hroot, hne⟩
    have hrest : (machine plainCharsets).tick ((machine plainCharsets).after 10
      (Reader.new.feed (ascii "<a>"))) = .wait := rfl
    have hprefix : w.events <+: [.startTag (ascii "a") [] false] := events_prefix_of_reaches
      (hw.to_rest (Incremental.reaches_after 10 _) (Incremental.rests_of_wait hrest))
    rcases List.prefix_cons_iff.mp hprefix with hnil | ⟨t, hcons, hnil⟩
    · rw [hnil] at hroot
      cases hroot
      exact hne rfl
    · rw [hcons, List.prefix_nil.mp hnil] at hroot
      cases hroot
  obtain ⟨n, e, hn⟩ := hclaim (ascii "<a></a>") (ascii "<a>") accepts_element ⟨ascii "</a>", rfl⟩
    (by decide) hopen
  cases fromXML_unique hn hread

end Blacklink.Xml
