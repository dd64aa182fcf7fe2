import Mathlib.Data.List.TakeWhile
import Blacklink.Xml.Characters

/-!
# Processing, and the reader that takes a character at a time

What `process` does with a buffer, in terms of the state in which the reader of
`Blacklink.Xml.Characters` rests with the same characters. It throws where that reader fails, and
where it waits behind the last digit of a character reference; it goes round for ever where that
reader waits for the rest of an entity reference in the encoding value; and otherwise it leaves a
reader that differs from the one at rest at most in spaces not skipped yet.
-/

namespace Blacklink.Xml

open Blacklink.Base Blacklink.Text

/-- Before an entity reference of the encoding value that is not all there: the pass of
`declEncodingValue` takes no character and leads to the same state. -/
def Stuck (r : Reader) : Prop :=
  (r.state = .declEncodingNameApos ∨ r.state = .declEncodingNameQuot) ∧
    r.buf.head? = some '&'.toUInt8 ∧ r.buf.length ≤ 6 ∧ r.encoding.length + 1 < maxValueSize

instance (r : Reader) : Decidable (Stuck r) := by
  unfold Stuck
  infer_instance

/-- Before a character reference of which all is there but what is behind its last digit. -/
def Cut (r : Reader) : Prop :=
  r.state ∈ [ParseState.declEncodingNameApos, .declEncodingNameQuot, .elementAttrValueApos,
      .elementAttrValueQuot, .content] ∧
    r.buf.head? = some '&'.toUInt8 ∧ charRefCut r.buf = true

instance (r : Reader) : Decidable (Cut r) := by
  unfold Cut
  infer_instance

theorem not_cut_of_state {r : Reader}
    (h : r.state ∉ [ParseState.declEncodingNameApos, .declEncodingNameQuot,
      .elementAttrValueApos, .elementAttrValueQuot, .content]) : ¬ Cut r := fun hcut => h hcut.1

theorem not_stuck_of_state {r : Reader}
    (h : r.state ∉ [ParseState.declEncodingNameApos, .declEncodingNameQuot]) : ¬ Stuck r := by
  rintro ⟨hstate | hstate, -⟩ <;> exact h (by simp [hstate])

/-- `Reaches` of the reader. -/
abbrev Reaches (T : Charsets) (r r' : Reader) : Prop := (machine T).Reaches r r'

/-- `value.clear()` when the state becomes that of the content. -/
def Reader.enter (old r : Reader) : Reader :=
  if r.state = .content ∧ r.state ≠ old.state then { r with value := [] } else r

/-- What a pass of `process` does. -/
inductive PassSpec (T : Charsets) (r : Reader) : Prop where
  /-- It ends the loop and the reader is as before. -/
  | rest (w : Reader) (ends : Ends (processPass T) r (.done (.ok (true, r))))
      (reaches : Reaches T r w) (wait : tick T w = .wait) (not_cut : ¬ Cut w)
      (not_stuck : ¬ Stuck w) (events : w.events = r.events)
  /-- It throws. -/
  | throws (w : Reader) (e : XmlError)
      (ends : Ends (processPass T) r (.done (.error (e, r.events))))
      (reaches : Reaches T r w) (fail : tick T w = .fail ∨ tick T w = .wait ∧ Cut w)
      (events : w.events = r.events)
  /-- It takes some characters. -/
  | again (r' : Reader) (ends : Ends (processPass T) r (.again r')) (reaches : Reaches T r r')
      (moved : r.pos < r'.pos)
  /-- It does not end. -/
  | hangs (w : Reader) (ends : ∀ pass, ¬ Ends (processPass T) r pass) (reaches : Reaches T r w)
      (stuck : Stuck w)

section States

variable {T : Charsets} {r : Reader}

theorem switch_eq_handler {fuel : Nat} (h : r.state ≠ .declEncodingNameApos)
    (h' : r.state ≠ .declEncodingNameQuot) :
    switch T fuel r = some (handler T r.state r) := by
  unfold switch
  cases hstate : r.state <;> first | rfl | contradiction

/-- A pass in a state without loops of its own. -/
private structure Plain (r : Reader) : Prop where
  not_end : r.state ≠ .end_
  not_apos : r.state ≠ .declEncodingNameApos
  not_quot : r.state ≠ .declEncodingNameQuot

private theorem PassSpec.of_error (hp : Plain r) {w : Reader} {e : XmlError}
    (h : handler T r.state r = .error e) (hw : Reaches T r w)
    (hfail : tick T w = .fail ∨ tick T w = .wait ∧ Cut w) (hevents : w.events = r.events) :
    PassSpec T r := by
  refine .throws w e ⟨0, ?_⟩ hw hfail hevents
  rw [processPass, if_neg hp.not_end, switch_eq_handler hp.not_apos hp.not_quot, h]

private theorem PassSpec.of_wait (hp : Plain r) {w : Reader} {b : Bool}
    (h : handler T r.state r = .ok (b, r)) (hw : Reaches T r w) (hwait : tick T w = .wait)
    (hcut : ¬ Cut w) (hstuck : ¬ Stuck w) (hevents : w.events = r.events) : PassSpec T r := by
  refine .rest w ⟨0, ?_⟩ hw hwait hcut hstuck hevents
  rw [processPass, if_neg hp.not_end, switch_eq_handler hp.not_apos hp.not_quot, h]
  exact if_pos ⟨rfl, rfl⟩

private theorem PassSpec.of_move (hp : Plain r) {r' : Reader} {b : Bool}
    (h : handler T r.state r = .ok (b, r')) (hpos : r.pos < r'.pos)
    (hreach : Reaches T r (r.enter r')) : PassSpec T r := by
  have hmoved : ¬ (r'.state = r.state ∧ r'.pos = r.pos) := by
    rintro ⟨-, heq⟩
    omega
  have hpos' : (r.enter r').pos = r'.pos := by
    unfold Reader.enter
    split <;> rfl
  refine .again (r.enter r') ⟨0, ?_⟩ hreach (hpos' ▸ hpos)
  rw [processPass, if_neg hp.not_end, switch_eq_handler hp.not_apos hp.not_quot, h]
  simp only [if_neg hmoved, Reader.enter]
  split <;> rfl

/-! ### States that take a space, or a text in one step -/

theorem tick_eq_tickOther (h : r.state ∉ scanStates) : tick T r = tickOther T r := by
  unfold tick
  cases hstate : r.state <;> first | rfl | exact absurd (by rw [hstate]; decide) h

/-- The reader behind the spaces at hand. -/
def Reader.skipSpaces (r : Reader) : Reader := r.advancePos (r.buf.takeWhile isSpace).length

theorem advancePos_advancePos (r : Reader) (m n : Nat) :
    (r.advancePos m).advancePos n = r.advancePos (m + n) := by
  simp [Reader.advancePos, Nat.add_assoc]

theorem startTag_advancePos (r : Reader) (n : Nat) (simple : Bool) :
    (r.advancePos n).startTag simple = (r.startTag simple).advancePos n := rfl

theorem state_setAttribValue (r : Reader) (v : List UInt8) :
    (r.setAttribValue v).state = r.state := by
  unfold Reader.setAttribValue
  split <;> rfl

theorem convertAttrib_advancePos (r : Reader) (n : Nat) :
    (r.advancePos n).convertAttrib T = (r.convertAttrib T).advancePos n := by
  obtain ⟨buf, pos, attribs, value, encoding, charset, state, elements, events⟩ := r
  unfold Reader.convertAttrib
  by_cases h : charset ≠ charsetUtf8
  · refine (if_pos h).trans ?_
    rw [if_pos h]
    cases attribs <;> rfl
  · refine (if_neg h).trans ?_
    rw [if_neg h]

theorem advancePos_zero (r : Reader) : r.advancePos 0 = r := rfl

private theorem skipSpaceLoop_false (buf : List UInt8) (skipped : Bool) (r : Reader) :
    skipSpaceLoop false buf skipped r =
      .ok (skipped || buf.head?.any isSpace, r.advancePos (buf.takeWhile isSpace).length) := by
  induction buf generalizing skipped r with
  | nil => simp [skipSpaceLoop, advancePos_zero]
  | cons c rest ih =>
    rw [skipSpaceLoop]
    by_cases hc : isSpace c = true
    · rw [if_pos hc, if_neg Bool.false_ne_true, ih, advancePos_advancePos,
        List.takeWhile_cons_of_pos hc, List.length_cons, Nat.add_comm]
      simp [hc]
    · rw [if_neg hc, List.takeWhile_cons_of_neg hc]
      simp [hc, advancePos_zero]

/-- `skipSpace` at a space. -/
theorem skipSpace_space {c : UInt8} {rest : List UInt8} (h : r.buf = c :: rest)
    (hc : isSpace c = true) : skipSpace false r = .ok (true, r.skipSpaces) := by
  have hneed : r.needChars 1 = true := by simp [Reader.needChars, h]
  rw [skipSpace, hneed, skipSpaceLoop_false, h]
  simp [hc, Reader.skipSpaces, h]

theorem spaceOrError_space {message : String} {c : UInt8} {rest : List UInt8}
    (h : r.buf = c :: rest) (hc : isSpace c = true) :
    spaceOrError message r = .ok (true, r.skipSpaces) := by
  rw [spaceOrError, Handler.orElse, skipSpace_space h hc]

theorem orElse_of_decline {a b : Handler} (h : a r = .ok (false, r)) :
    a.orElse b r = b r := by
  rw [Handler.orElse, h]

theorem orElse_of_true {a b : Handler} {r' : Reader} (h : a r = .ok (true, r')) :
    a.orElse b r = .ok (true, r') := by
  rw [Handler.orElse, h]

private theorem ne_of_isSpace {c c' : UInt8} (hc : isSpace c = true) (hc' : isSpace c' = false) :
    c ≠ c' := by
  rintro rfl
  rw [hc] at hc'
  cases hc'

private theorem literal_space {lit : List UInt8} {withSpace : Bool} {newState : ParseState}
    {c l : UInt8} {rest lit' : List UInt8} (hlit : lit = l :: lit') (hl : isSpace l = false)
    (h : r.buf = c :: rest) (hc : isSpace c = true) :
    literal lit withSpace newState r = .ok (false, r) := by
  rw [literal, hlit, h, matchLiteral, if_neg (ne_of_isSpace hc hl)]

private theorem character_space {c' : UInt8} {newState : ParseState} {c : UInt8}
    {rest : List UInt8} (hc' : isSpace c' = false) (h : r.buf = c :: rest)
    (hc : isSpace c = true) : character c' newState r = .ok (false, r) := by
  have hne := ne_of_isSpace hc hc'
  simp [character, Reader.needChars, Reader.charAt, h, hne]

private theorem not_isNameStartChar_of_isSpace {c : UInt8} (hc : isSpace c = true) :
    isNameStartChar c = false := by
  simp only [isSpace, Bool.or_eq_true, decide_eq_true_eq] at hc
  rcases hc with ((rfl | rfl) | rfl) | rfl <;> decide

private theorem charAt_zero {c : UInt8} {rest : List UInt8} (h : r.buf = c :: rest) :
    r.charAt 0 = c := by simp [Reader.charAt, h]

private theorem needChars_one {c : UInt8} {rest : List UInt8} (h : r.buf = c :: rest) :
    r.needChars 1 = true := by simp [Reader.needChars, h]

theorem buf_skipSpaces (r : Reader) : r.skipSpaces.buf = r.buf.dropWhile isSpace := by
  have happ : r.buf.takeWhile isSpace ++ r.buf.dropWhile isSpace = r.buf :=
    List.takeWhile_append_dropWhile
  calc r.skipSpaces.buf
      = (r.buf.takeWhile isSpace ++ r.buf.dropWhile isSpace).drop
          (r.buf.takeWhile isSpace).length := by rw [happ]; rfl
    _ = r.buf.dropWhile isSpace := List.drop_left

/-- Behind the spaces, the reader waits where `process` waits. -/
private theorem tick_skipSpaces_of_wait (hstate : r.state ∉ scanStates)
    (hwait : r.skipSpaces.buf ≠ [] → handler T r.state r.skipSpaces = .ok (true, r.skipSpaces)) :
    tick T r.skipSpaces = .wait := by
  have hstate' : r.skipSpaces.state ∉ scanStates := hstate
  rw [tick_eq_tickOther hstate', tickOther]
  cases hbuf : r.skipSpaces.buf with
  | nil => rfl
  | cons c rest =>
    have hc : isSpace c = false := by
      have hhead := List.head?_dropWhile_not isSpace r.buf
      rw [← buf_skipSpaces, hbuf] at hhead
      simpa using hhead
    have hh := hwait (by simp [hbuf])
    have ht : tickHandler (handler T r.state) r.skipSpaces = .wait := by
      rw [tickHandler, hh]
      exact if_pos ⟨rfl, rfl⟩
    simp only [hc, Bool.false_and, Bool.false_eq_true, if_false]
    exact ht

/-- At a space, `process` skips all of them, or waits, and is then behind them too late only. -/
theorem handler_space {c : UInt8} {rest : List UInt8} (hstate : r.state ∉ scanStates)
    (hno : noSpace r.state = false) (h : r.buf = c :: rest) (hc : isSpace c = true) :
    handler T r.state r = .ok (true, r.skipSpaces) ∨
      handler T r.state r = .ok (true, r) ∧ tick T r.skipSpaces = .wait := by
  have hspace : ∀ message, spaceOrError message r = .ok (true, r.skipSpaces) :=
    fun _ => spaceOrError_space h hc
  cases hs : r.state with
  | declVersion => exact .inl (orElse_of_true (skipSpace_space h hc))
  | declVersionEq | declEncodingEq | declStandaloneEq | elementAttrEq =>
    exact .inl ((orElse_of_decline (character_space (by decide) h hc)).trans (hspace _))
  | declEncodingName | elementAttrValue =>
    exact .inl ((orElse_of_decline (character_space (by decide) h hc)).trans
      ((orElse_of_decline (character_space (by decide) h hc)).trans (hspace _)))
  | declEnd =>
    exact .inl ((orElse_of_decline (literal_space rfl (by decide) h hc)).trans (hspace _))
  | declStandalone | declStandaloneYes =>
    exact .inl ((orElse_of_decline (literal_space rfl (by decide) h hc)).trans
      ((orElse_of_decline (literal_space rfl (by decide) h hc)).trans (hspace _)))
  | declEncoding =>
    exact .inl ((orElse_of_decline (literal_space rfl (by decide) h hc)).trans
      ((orElse_of_decline (literal_space rfl (by decide) h hc)).trans
        ((orElse_of_decline (literal_space rfl (by decide) h hc)).trans (hspace _))))
  | elementEndEnd =>
    refine .inl ((orElse_of_decline ?_).trans (hspace _))
    rw [elementEndEnd, needChars_one h, charAt_zero h]
    exact if_neg (ne_of_isSpace hc (by decide))
  | elementAttr =>
    have hattr : elementAttr r = .ok (false, r) := by
      rw [elementAttr, needChars_one h, charAt_zero h, not_isNameStartChar_of_isSpace hc]
      rfl
    have hend : elementEndComplex r = .ok (false, r) := by
      rw [elementEndComplex, needChars_one h, charAt_zero h]
      exact if_neg (ne_of_isSpace hc (by decide))
    exact .inl ((orElse_of_decline hattr).trans ((orElse_of_decline hend).trans
      ((orElse_of_decline (character_space (by decide) h hc)).trans (hspace _))))
  | start =>
    have hlit : handler T .start r =
        element.orElse (spaceOrError "Expecting XML declaration, element or comment") r :=
      (orElse_of_decline (literal_space rfl (by decide) h hc)).trans
        ((orElse_of_decline (literal_space rfl (by decide) h hc)).trans
          (orElse_of_decline (literal_space rfl (by decide) h hc)))
    by_cases htwo : r.needChars 2 = true
    · have hel : element r = .ok (false, r) := by
        rw [element, htwo]
        exact dif_neg fun hlt => ne_of_isSpace hc (by decide) ((charAt_zero h).symm.trans hlt.1)
      exact .inl (hlit.trans ((orElse_of_decline hel).trans (hspace _)))
    · have hel : element r = .ok (true, r) := by
        rw [element]
        simp [htwo]
      have hrest : rest = [] := by
        simp only [Reader.needChars, h, List.length_cons, decide_eq_true_eq, Nat.not_le] at htwo
        exact List.length_eq_zero_iff.mp (by omega)
      refine .inr ⟨hlit.trans (orElse_of_true hel), tick_skipSpaces_of_wait hstate fun hne => ?_⟩
      rw [buf_skipSpaces, h, hrest] at hne
      simp [hc] at hne
  | declVersionNum =>
    by_cases hfive : r.needChars 5 = true
    · have hnum : declVersionNum r = .ok (false, r) := by
        have hsep : ¬ (c = '"'.toUInt8 ∨ c = '\''.toUInt8) := by
          rintro (heq | heq)
          · exact ne_of_isSpace hc (by decide) heq
          · exact ne_of_isSpace hc (by decide) heq
        simp [declVersionNum, hfive, charAt_zero h, hsep]
      exact .inl ((orElse_of_decline hnum).trans (hspace _))
    · have hnum : ∀ r' : Reader, r'.buf.length ≤ r.buf.length →
          declVersionNum r' = .ok (true, r') := by
        intro r' hle
        simp only [Reader.needChars, decide_eq_true_eq] at hfive
        have : ¬ r'.needChars 5 = true := by
          simp only [Reader.needChars, decide_eq_true_eq]
          omega
        simp [declVersionNum, this]
      refine .inr ⟨orElse_of_true (hnum r (Nat.le_refl _)), ?_⟩
      refine tick_skipSpaces_of_wait hstate fun _ => ?_
      rw [hs]
      refine orElse_of_true (hnum _ ?_)
      rw [buf_skipSpaces]
      exact (List.dropWhile_suffix _).length_le
  | elementEnd =>
    cases htop : r.elements with
    | nil =>
      have hend : elementEnd r = .ok (false, r) := by rw [elementEnd, htop]
      exact .inl ((orElse_of_decline hend).trans (hspace _))
    | cons top outer =>
      by_cases hneed : r.needChars top.chars.length = true
      · have hend : elementEnd r = .ok (false, r) := by
          have hne : r.buf.take top.chars.length ≠ top.chars := by
            rw [h, ElementName.chars, List.length_cons, List.take_succ_cons]
            intro heq
            have hstart := not_isNameStartChar_of_isSpace hc
            rw [List.head_eq_of_cons_eq heq, top.isStart] at hstart
            cases hstart
          rw [elementEnd, htop]
          simp [hneed, hne]
        exact .inl ((orElse_of_decline hend).trans (hspace _))
      · have hend : ∀ r' : Reader, r'.elements = r.elements → r'.buf.length ≤ r.buf.length →
            elementEnd r' = .ok (true, r') := by
          intro r' hels hle
          simp only [Reader.needChars, decide_eq_true_eq] at hneed
          have : ¬ r'.needChars top.chars.length = true := by
            simp only [Reader.needChars, decide_eq_true_eq]
            omega
          rw [elementEnd, hels, htop]
          simp [this]
        refine .inr ⟨orElse_of_true (hend r rfl (Nat.le_refl _)), ?_⟩
        refine tick_skipSpaces_of_wait hstate fun _ => ?_
        rw [hs]
        refine orElse_of_true (hend _ rfl ?_)
        rw [buf_skipSpaces]
        exact (List.dropWhile_suffix _).length_le
  | elementEndSimple =>
    rw [hs] at hno
    cases hno
  | _ => simp [hs, scanStates] at hstate

theorem reaches_skipSpaces (hstate : r.state ∉ scanStates) (hno : noSpace r.state = false) :
    Reaches T r r.skipSpaces := by
  induction hbuf : r.buf generalizing r with
  | nil =>
    rw [Reader.skipSpaces, hbuf]
    exact .refl r
  | cons c rest ih =>
    by_cases hc : isSpace c = true
    · have htick : tick T r = .again (r.advancePos 1) := by
        rw [tick_eq_tickOther hstate, tickOther, hbuf]
        simp [hc, hno]
      have hrest : (r.advancePos 1).buf = rest := by simp [Reader.advancePos, hbuf]
      have hskip : r.skipSpaces = (r.advancePos 1).skipSpaces := by
        rw [Reader.skipSpaces, Reader.skipSpaces, advancePos_advancePos, hrest, hbuf,
          List.takeWhile_cons_of_pos hc, List.length_cons, Nat.add_comm]
      rw [hskip]
      exact (ih (r := r.advancePos 1) hstate hno hrest).head htick
    · rw [Reader.skipSpaces, hbuf, List.takeWhile_cons_of_neg hc]
      exact .refl r

/-- Without characters, the alternatives of a state wait. -/
theorem handler_nil (hstate : r.state ∉ scanStates) (hbuf : r.buf = []) :
    handler T r.state r = .ok (true, r) := by
  obtain ⟨buf, pos, attribs, value, encoding, charset, state, elements, events⟩ := r
  cases hbuf
  cases state with
  | elementEnd =>
    cases elements with
    | nil => rfl
    | cons top outer =>
      simp [handler, Handler.orElse, elementEnd, Reader.needChars, ElementName.chars]
  | end_ | elementName | elementAttrName | elementAttrValueApos | elementAttrValueQuot
  | declEncodingNameApos | declEncodingNameQuot | comment | cdata | content =>
    simp [scanStates] at hstate
  | _ => rfl

private theorem Plain.of_not_mem (hstate : r.state ∉ scanStates) : Plain r where
  not_end h := hstate (by rw [h]; decide)
  not_apos h := hstate (by rw [h]; decide)
  not_quot h := hstate (by rw [h]; decide)

private theorem not_cut_stuck (hstate : r.state ∉ scanStates) : ¬ Cut r ∧ ¬ Stuck r := by
  constructor
  · refine not_cut_of_state fun h => hstate ?_
    simp only [scanStates, List.mem_cons, List.not_mem_nil, or_false] at h ⊢
    tauto
  · refine not_stuck_of_state fun h => hstate ?_
    simp only [scanStates, List.mem_cons, List.not_mem_nil, or_false] at h ⊢
    tauto

/-- A state whose alternatives take some characters, wait or throw, is passed as the reader
passes it that takes a character at a time. -/
private theorem PassSpec.of_steady (hp : Plain r) (hs : (handler T r.state).Steady r)
    (htick : tick T r = tickHandler (handler T r.state) r) (hcut : ¬ Cut r) (hstuck : ¬ Stuck r) :
    PassSpec T r := by
  have hwait : ∀ b, handler T r.state r = .ok (b, r) → PassSpec T r := by
    intro b hb
    refine .of_wait hp hb (.refl r) ?_ hcut hstuck rfl
    rw [htick, tickHandler, hb]
    exact if_pos ⟨rfl, rfl⟩
  rcases hs with hr | ⟨hadv, -⟩
  · exact hwait true hr
  cases hr : handler T r.state r with
  | error e =>
    refine .of_error hp hr (.refl r) (.inl ?_) rfl
    rw [htick, tickHandler, hr]
  | ok p =>
    obtain ⟨b, r'⟩ := p
    rcases hadv b r' hr with ⟨-, rfl⟩ | ⟨-, ha⟩
    · exact hwait b hr
    · refine .of_move hp hr ha.pos_lt (.tick ?_)
      have hmoved : ¬ (r'.state = r.state ∧ r'.pos = r.pos) := by
        rintro ⟨-, hpos⟩
        exact absurd hpos (Nat.ne_of_gt ha.pos_lt)
      change tick T r = _
      rw [htick, tickHandler, hr]
      simp only [if_neg hmoved, Reader.enter]
      split <;> rfl

theorem passSpec_other (hstate : r.state ∉ scanStates) : PassSpec T r := by
  have hp := Plain.of_not_mem hstate
  obtain ⟨hcut, hstuck⟩ := not_cut_stuck hstate
  cases hbuf : r.buf with
  | nil =>
    refine .of_wait hp (handler_nil hstate hbuf) (.refl r) ?_ hcut hstuck rfl
    rw [tick_eq_tickOther hstate, tickOther, hbuf]
  | cons c rest =>
    by_cases hc : (isSpace c && !noSpace r.state) = true
    · simp only [Bool.and_eq_true, Bool.not_eq_true'] at hc
      have hreach : Reaches T r r.skipSpaces := reaches_skipSpaces hstate hc.2
      rcases handler_space hstate hc.2 hbuf hc.1 with hskip | ⟨hlag, hwait⟩
      · refine .of_move hp hskip ?_ ?_
        · simp [Reader.skipSpaces, Reader.advancePos, hbuf, hc.1]
        · have henter : r.enter r.skipSpaces = r.skipSpaces := if_neg fun h => h.2 rfl
          rw [henter]
          exact hreach
      · have hstate' : r.skipSpaces.state ∉ scanStates := hstate
        obtain ⟨hcut', hstuck'⟩ := not_cut_stuck hstate'
        exact .of_wait hp hlag hreach hwait hcut' hstuck' rfl
    · have htick : tick T r = tickHandler (handler T r.state) r := by
        rw [tick_eq_tickOther hstate, tickOther, hbuf]
        exact if_neg hc
      exact .of_steady hp (steady_handler_other hstate hbuf hc) htick hcut hstuck

/-! ### Names and values -/

section Scan

variable {S : Slot} {inside : UInt8 → Bool} {behind : UInt8 → Reader → Tick Reader}

private theorem tickScan_of_not_fits (h : S.fits r 0 = false) :
    tickScan S inside behind r = .fail := by
  simp [tickScan, h]

private theorem tickScan_cons {c : UInt8} {rest : List UInt8} (hbuf : r.buf = c :: rest)
    (h : S.fits r 0 = true) :
    tickScan S inside behind r =
      if inside c then
        if S.fits r 1 then .again ((S.extendReader r [c]).advancePos 1) else .fail
      else behind c r := by
  simp [tickScan, h, hbuf]

/-- The characters of a name or a value that there is room for are appended one by one. -/
theorem reaches_scan
    (hscan : ∀ r' : Reader, r'.state = r.state → tick T r' = tickScan S inside behind r')
    {cs rest : List UInt8} (hbuf : r.buf = cs ++ rest) (hin : ∀ c ∈ cs, inside c = true)
    (hfit : S.fits r cs.length = true) :
    Reaches T r ((S.extendReader r cs).advancePos cs.length) := by
  induction cs generalizing r with
  | nil =>
    rw [Slot.extendReader_nil]
    exact .refl r
  | cons c cs ih =>
    have hone : S.fits r 1 = true := Slot.fits_of_le (by simp) hfit
    have hzero : S.fits r 0 = true := Slot.fits_of_le (by simp) hfit
    have htick : tick T r = .again ((S.extendReader r [c]).advancePos 1) := by
      rw [hscan r rfl, tickScan_cons hbuf hzero, hin c (by simp), hone]
      rfl
    have hrest : ((S.extendReader r [c]).advancePos 1).buf = cs ++ rest := by
      simp [Reader.advancePos, Slot.extendReader, hbuf]
    have hfit' : S.fits ((S.extendReader r [c]).advancePos 1) cs.length = true := by
      have h := S.fits_extendReader r [c] cs.length
      rw [List.length_singleton, Nat.add_comm] at h
      exact h.trans hfit
    have hih := ih (r := (S.extendReader r [c]).advancePos 1) hscan hrest
      (fun c' hc' => hin c' (by simp [hc'])) hfit'
    have heq : (S.extendReader ((S.extendReader r [c]).advancePos 1) cs).advancePos cs.length =
        (S.extendReader r (c :: cs)).advancePos (cs.length + 1) := by
      have happ : S.extendReader ((S.extendReader r [c]).advancePos 1) cs =
          (S.extendReader (S.extendReader r [c]) cs).advancePos 1 := rfl
      rw [happ, Slot.extendReader_extendReader, advancePos_advancePos, Nat.add_comm]
      rfl
    rw [heq] at hih
    exact hih.head htick

/-- Where there is no room, the reader fails. -/
theorem fails_scan
    (hscan : ∀ r' : Reader, r'.state = r.state → tick T r' = tickScan S inside behind r')
    {cs rest : List UInt8} (hbuf : r.buf = cs ++ rest) (hin : ∀ c ∈ cs, inside c = true)
    (hfit : S.fits r cs.length = false) :
    ∃ w, Reaches T r w ∧ tick T w = .fail ∧ w.events = r.events := by
  induction cs generalizing r with
  | nil => exact ⟨r, .refl r, (hscan r rfl).trans (tickScan_of_not_fits hfit), rfl⟩
  | cons c cs ih =>
    cases hzero : S.fits r 0 with
    | false => exact ⟨r, .refl r, (hscan r rfl).trans (tickScan_of_not_fits hzero), rfl⟩
    | true =>
      have htick := (hscan r rfl).trans (tickScan_cons hbuf hzero)
      rw [hin c (by simp)] at htick
      cases hone : S.fits r 1 with
      | false =>
        rw [hone] at htick
        exact ⟨r, .refl r, htick, rfl⟩
      | true =>
        rw [hone] at htick
        have hrest : ((S.extendReader r [c]).advancePos 1).buf = cs ++ rest := by
          simp [Reader.advancePos, Slot.extendReader, hbuf]
        have hfit' : S.fits ((S.extendReader r [c]).advancePos 1) cs.length = false := by
          have h := S.fits_extendReader r [c] cs.length
          rw [List.length_singleton, Nat.add_comm] at h
          exact h.trans hfit
        obtain ⟨w, hw, hfail, hev⟩ := ih (r := (S.extendReader r [c]).advancePos 1) hscan hrest
          (fun c' hc' => hin c' (by simp [hc'])) hfit'
        exact ⟨w, hw.head htick, hfail, hev⟩

/-- The reader behind the characters of the name or value at hand. -/
def scanned (S : Slot) (inside : UInt8 → Bool) (r : Reader) : Reader :=
  (S.extendReader r (r.buf.takeWhile inside)).advancePos (r.buf.takeWhile inside).length

theorem buf_scanned : (scanned S inside r).buf = r.buf.dropWhile inside := by
  have happ : r.buf.takeWhile inside ++ r.buf.dropWhile inside = r.buf :=
    List.takeWhile_append_dropWhile
  calc (scanned S inside r).buf
      = (r.buf.takeWhile inside ++ r.buf.dropWhile inside).drop
          (r.buf.takeWhile inside).length := by rw [happ]; rfl
    _ = r.buf.dropWhile inside := List.drop_left

theorem fits_scanned (h : S.fits r (r.buf.takeWhile inside).length = true) :
    S.fits (scanned S inside r) 0 = true :=
  (S.fits_extendReader r (r.buf.takeWhile inside) 0).trans h

theorem scanned_of_nil (h : r.buf.takeWhile inside = []) : scanned S inside r = r := by
  rw [scanned, h, Slot.extendReader_nil]
  rfl

theorem pos_lt_scanned (h : r.buf.takeWhile inside ≠ []) : r.pos < (scanned S inside r).pos := by
  have := List.length_pos_iff.mpr h
  simp only [scanned, Reader.advancePos, Slot.extendReader]
  omega

/-- A pass over a name or a value: what is left of it is what is to be said about the character
behind it. -/
private theorem PassSpec.of_scan (hp : Plain r) (hcut : r.buf = [] → ¬ Cut r)
    (hstuck : ¬ Stuck r)
    (hscan : ∀ r' : Reader, r'.state = r.state → tick T r' = tickScan S inside behind r')
    (herror : S.fits r (r.buf.takeWhile inside).length = false →
      ∃ e, handler T r.state r = .error e)
    (hend : S.fits r (r.buf.takeWhile inside).length = true → r.buf.dropWhile inside = [] →
      handler T r.state r = .ok (true, scanned S inside r))
    (hbehind : ∀ c rest, S.fits r (r.buf.takeWhile inside).length = true →
      r.buf.dropWhile inside = c :: rest →
      tick T (scanned S inside r) = behind c (scanned S inside r) →
      Reaches T r (scanned S inside r) → PassSpec T r) : PassSpec T r := by
  have hbuf : r.buf = r.buf.takeWhile inside ++ r.buf.dropWhile inside :=
    List.takeWhile_append_dropWhile.symm
  have hin : ∀ c ∈ r.buf.takeWhile inside, inside c = true :=
    fun c hc => List.mem_takeWhile_imp hc
  cases hfit : S.fits r (r.buf.takeWhile inside).length with
  | false =>
    obtain ⟨e, he⟩ := herror hfit
    obtain ⟨w, hw, hfail, hev⟩ := fails_scan hscan hbuf hin hfit
    exact .of_error hp he hw (.inl hfail) hev
  | true =>
    have hreach : Reaches T r (scanned S inside r) := reaches_scan hscan hbuf hin hfit
    have htick := hscan (scanned S inside r) rfl
    cases hrest : r.buf.dropWhile inside with
    | nil =>
      have hr := hend hfit hrest
      by_cases hnil : r.buf.takeWhile inside = []
      · have hempty : r.buf = [] := by rw [hbuf, hnil, hrest]; rfl
        rw [scanned_of_nil hnil] at hr htick
        refine .of_wait hp hr (.refl r) ?_ (hcut hempty) hstuck rfl
        rw [hnil] at hfit
        rw [htick]
        simp [tickScan, hempty, show S.fits r 0 = true from hfit]
      · refine .of_move hp hr (pos_lt_scanned hnil) ?_
        have henter : r.enter (scanned S inside r) = scanned S inside r :=
          if_neg fun h => h.2 rfl
        rw [henter]
        exact hreach
    | cons c rest =>
      refine hbehind c rest hfit hrest ?_ hreach
      have hc : inside c = false := by
        have hhead := List.head?_dropWhile_not inside r.buf
        rw [hrest] at hhead
        simpa using hhead
      rw [htick, tickScan_cons (buf_scanned.trans hrest) (fits_scanned hfit), hc]
      rfl

end Scan

private theorem Plain.of_state {state : ParseState} (h : r.state = state) (hend : state ≠ .end_)
    (hapos : state ≠ .declEncodingNameApos) (hquot : state ≠ .declEncodingNameQuot) : Plain r :=
  ⟨h ▸ hend, h ▸ hapos, h ▸ hquot⟩

private theorem orElse_orError {a : Handler} (message : String)
    (h : (∃ e, a r = .error e) ∨ ∃ r', a r = .ok (false, r')) :
    ∃ e, a.orElse (orError message) r = .error e := by
  rcases h with ⟨e, h⟩ | ⟨r', h⟩
  · exact ⟨e, by rw [Handler.orElse, h]⟩
  · exact ⟨_, by rw [Handler.orElse, h]; rfl⟩

private theorem enter_of_ne {r' : Reader} (h : r'.state ≠ .content) : r.enter r' = r' :=
  if_neg fun hc => h hc.1

/-- The position behind one more character than those of the name or value. -/
private theorem pos_lt_scanned_succ {S : Slot} {inside : UInt8 → Bool} :
    r.pos < (scanned S inside r).pos + 1 := by
  simp only [scanned, Reader.advancePos, Slot.extendReader]
  omega

theorem passSpec_elementName (hstate : r.state = .elementName) : PassSpec T r := by
  have hp : Plain r := .of_state hstate (by decide) (by decide) (by decide)
  have hscan : ∀ r' : Reader, r'.state = r.state →
      tick T r' = tickScan nameSlot inElementName behindName r' := by
    intro r' h'
    rw [tick, h', hstate]
  have hhandler : handler T r.state r =
      Handler.orElse elementName (orError "Error while parsing element start") r := by
    rw [hstate]
    rfl
  refine .of_scan hp (fun _ => not_cut_of_state (by rw [hstate]; decide))
    (not_stuck_of_state (by rw [hstate]; decide)) hscan ?_ ?_ ?_
  · intro hfit
    rw [hhandler]
    apply orElse_orError
    simp only [elementName, appendName_eq, hfit, Bool.false_eq_true, if_false, Reader.error]
    split
    · exact .inl ⟨_, rfl⟩
    · split_ifs <;> simp
  · intro hfit hrest
    rw [hhandler]
    simp only [Handler.orElse, elementName, hrest, appendName_eq, hfit, if_true]
    rfl
  · intro c rest hfit hrest htick hreach
    have hname : elementName r =
        if isSpace c then
          .ok (true, { (scanned nameSlot inElementName r).advancePos 1 with state := .elementAttr })
        else if c = '/'.toUInt8 then
          .ok (true, { (scanned nameSlot inElementName r).advancePos 1 with
            state := .elementEndSimple })
        else if c = '>'.toUInt8 then
          .ok (true, { ((scanned nameSlot inElementName r).startTag false).advancePos 1 with
            state := .content })
        else .ok (false, r) := by
      simp only [elementName, hrest, appendName_eq, hfit, if_true, scanned, startTag_advancePos,
        advancePos_advancePos]
    unfold behindName at htick
    by_cases hc : isSpace c = true
    · rw [if_pos hc] at hname htick
      refine .of_move hp (hhandler.trans (orElse_of_true hname)) pos_lt_scanned_succ ?_
      rw [enter_of_ne (by simp)]
      exact hreach.trans (.tick htick)
    rw [if_neg hc] at hname htick
    by_cases hc : c = '/'.toUInt8
    · rw [if_pos hc] at hname htick
      refine .of_move hp (hhandler.trans (orElse_of_true hname)) pos_lt_scanned_succ ?_
      rw [enter_of_ne (by simp)]
      exact hreach.trans (.tick htick)
    rw [if_neg hc] at hname htick
    by_cases hc : c = '>'.toUInt8
    · rw [if_pos hc] at hname htick
      refine .of_move hp (hhandler.trans (orElse_of_true hname)) pos_lt_scanned_succ ?_
      rw [Reader.enter, if_pos ⟨rfl, by simp [hstate]⟩]
      exact hreach.trans (.tick htick)
    · rw [if_neg hc] at hname htick
      obtain ⟨e, he⟩ := orElse_orError "Error while parsing element start" (.inr ⟨_, hname⟩)
      exact .of_error hp (hhandler.trans he) hreach (.inl htick) rfl

theorem passSpec_elementAttrName (hstate : r.state = .elementAttrName) : PassSpec T r := by
  have hp : Plain r := .of_state hstate (by decide) (by decide) (by decide)
  have hscan : ∀ r' : Reader, r'.state = r.state →
      tick T r' = tickScan attribNameSlot inAttrName behindAttrName r' := by
    intro r' h'
    rw [tick, h', hstate]
  have hhandler : handler T r.state r =
      Handler.orElse elementAttrName (orError "Expecting attribute name") r := by
    rw [hstate]
    rfl
  refine .of_scan hp (fun _ => not_cut_of_state (by rw [hstate]; decide))
    (not_stuck_of_state (by rw [hstate]; decide)) hscan ?_ ?_ ?_
  · intro hfit
    rw [hhandler]
    apply orElse_orError
    simp only [elementAttrName, appendAttribName_eq, hfit, Bool.false_eq_true, if_false,
      Reader.error]
    split
    · exact .inl ⟨_, rfl⟩
    · split_ifs <;> simp
  · intro hfit hrest
    rw [hhandler]
    simp only [Handler.orElse, elementAttrName, hrest, appendAttribName_eq, hfit, if_true]
    rfl
  · intro c rest hfit hrest htick hreach
    have hname : elementAttrName r =
        if isSpace c then
          .ok (true, { (scanned attribNameSlot inAttrName r).advancePos 1 with
            state := .elementAttrEq })
        else if c = '='.toUInt8 then
          .ok (true, { (scanned attribNameSlot inAttrName r).advancePos 1 with
            state := .elementAttrValue })
        else .ok (false, r) := by
      simp only [elementAttrName, hrest, appendAttribName_eq, hfit, if_true, scanned,
        advancePos_advancePos]
    unfold behindAttrName at htick
    by_cases hc : isSpace c = true
    · rw [if_pos hc] at hname htick
      refine .of_move hp (hhandler.trans (orElse_of_true hname)) pos_lt_scanned_succ ?_
      rw [enter_of_ne (by simp)]
      exact hreach.trans (.tick htick)
    rw [if_neg hc] at hname htick
    by_cases hc : c = '='.toUInt8
    · rw [if_pos hc] at hname htick
      refine .of_move hp (hhandler.trans (orElse_of_true hname)) pos_lt_scanned_succ ?_
      rw [enter_of_ne (by simp)]
      exact hreach.trans (.tick htick)
    · rw [if_neg hc] at hname htick
      obtain ⟨e, he⟩ := orElse_orError "Expecting attribute name" (.inr ⟨_, hname⟩)
      exact .of_error hp (hhandler.trans he) hreach (.inl htick) rfl

/-- What `entref` makes of the characters, in terms of a tick. -/
inductive EntrefSpec (d : List UInt8) (set : Reader → List UInt8 → Reader) (r : Reader) : Prop where
  | throws (e : XmlError) (eq : entref d set r = .error e) (tick : tickEntref d set r = .fail)
  | short (eq : entref d set r = .ok (true, r)) (tick : tickEntref d set r = .wait)
      (short : r.buf.length ≤ 6) (room : d.length + 1 < maxValueSize)
  | takes (n : Nat) (chars : List UInt8) (pos : 1 ≤ n) (le : n ≤ r.buf.length)
      (eq : entref d set r = .ok (true, (set r (d ++ chars)).advancePos n))
      (tick : tickEntref d set r = .again ((set r (d ++ chars)).advancePos n))
  | declines (eq : entref d set r = .ok (false, r))
      (tick : tickEntref d set r = .fail ∨
        tickEntref d set r = .wait ∧ charRefCut r.buf = true)

theorem entrefSpec (d : List UInt8) (set : Reader → List UInt8 → Reader) (r : Reader) :
    EntrefSpec d set r := by
  by_cases hd : maxValueSize ≤ d.length + 1
  · exact .throws _ (if_pos hd) (if_pos hd)
  by_cases hlen : 6 < r.buf.length
  · have hlen' : ¬ r.buf.length < 7 := by omega
    cases he : entity r.charAt with
    | none =>
      have heq : entref d set r = .ok (false, r) := by
        rw [entref, if_neg hd, if_pos hlen, he]
      have htick : tickEntref d set r = if charRefCut r.buf then .wait else .fail := by
        rw [tickEntref, if_neg hd, if_neg hlen', he]
      refine .declines heq ?_
      cases hcut : charRefCut r.buf with
      | true => exact .inr ⟨by rw [htick, hcut]; rfl, rfl⟩
      | false => exact .inl (by rw [htick, hcut]; rfl)
    | some p =>
      obtain ⟨n, chars⟩ := p
      obtain ⟨hn, hle⟩ := entity_le (by omega) he
      refine .takes n chars hn hle ?_ ?_
      · rw [entref, if_neg hd, if_pos hlen, he]
      · rw [tickEntref, if_neg hd, if_neg hlen', he]
  · refine .short ?_ ?_ (by omega) (by omega)
    · rw [entref, if_neg hd, if_neg hlen]
    · rw [tickEntref, if_neg hd, if_pos (by omega)]

theorem passSpec_elementAttrValue
    (hstate : r.state = .elementAttrValueApos ∨ r.state = .elementAttrValueQuot) :
    PassSpec T r := by
  have hp : Plain r := by
    constructor <;> rcases hstate with hs | hs <;> rw [hs] <;> decide
  have hscan : ∀ r' : Reader, r'.state = r.state →
      tick T r' = tickScan attribValueSlot (inAttrValue r.state) (behindAttrValue T) r' := by
    intro r' h'
    rcases hstate with hs | hs <;> rw [tick, h', hs]
  have hhandler : handler T r.state r =
      (elementAttrValue T).orElse (orError "Expecting attribute value") r := by
    rcases hstate with hs | hs <;> rw [hs] <;> rfl
  have hstuck : ¬ Stuck r :=
    not_stuck_of_state (by rcases hstate with hs | hs <;> rw [hs] <;> decide)
  refine .of_scan hp ?_ hstuck hscan ?_ ?_ ?_
  · rintro hempty ⟨-, hhead, -⟩
    rw [hempty] at hhead
    cases hhead
  · intro hfit
    rw [hhandler]
    apply orElse_orError
    simp only [elementAttrValue, appendAttribValue_eq, hfit, Bool.false_eq_true, if_false,
      Reader.error]
    split
    · exact .inl ⟨_, rfl⟩
    · split_ifs <;> simp
  · intro hfit hrest
    rw [hhandler]
    simp only [Handler.orElse, elementAttrValue, hrest, appendAttribValue_eq, hfit, if_true]
    rfl
  · intro c rest hfit hrest htick hreach
    have hvalue : elementAttrValue T r =
        if c ≠ '&'.toUInt8 then
          .ok (true,
            { ((scanned attribValueSlot (inAttrValue r.state) r).convertAttrib T).advancePos 1
            with state := .elementAttr })
        else
          entref (scanned attribValueSlot (inAttrValue r.state) r).attribValue
            Reader.setAttribValue (scanned attribValueSlot (inAttrValue r.state) r) := by
      simp only [elementAttrValue, hrest, appendAttribValue_eq, hfit, if_true, scanned,
        convertAttrib_advancePos, advancePos_advancePos]
      rfl
    have hbuf : (scanned attribValueSlot (inAttrValue r.state) r).buf = c :: rest :=
      buf_scanned.trans hrest
    generalize hw : scanned attribValueSlot (inAttrValue r.state) r = w at *
    have hwstate : w.state = r.state := by rw [← hw]; rfl
    have hwevents : w.events = r.events := by rw [← hw]; rfl
    have hne : r.state ≠ .content := by rcases hstate with hs | hs <;> rw [hs] <;> decide
    have hmoved : r.pos < w.pos + 1 := by
      rw [← hw]
      exact pos_lt_scanned_succ
    unfold behindAttrValue at htick
    by_cases hc : c ≠ '&'.toUInt8
    · rw [if_pos hc] at hvalue htick
      refine .of_move hp (hhandler.trans (orElse_of_true hvalue)) ?_ ?_
      · simpa [Reader.advancePos, pos_convertAttrib] using hmoved
      · rw [enter_of_ne (by simp)]
        exact hreach.trans (.tick htick)
    rw [if_neg hc] at hvalue htick
    cases entrefSpec w.attribValue Reader.setAttribValue w with
    | throws e heq ht =>
      obtain ⟨e', he⟩ := orElse_orError "Expecting attribute value" (.inl ⟨e, hvalue.trans heq⟩)
      exact .of_error hp (hhandler.trans he) hreach (.inl (htick.trans ht)) hwevents
    | short heq ht hshort =>
      have hr := hhandler.trans (orElse_of_true (hvalue.trans heq))
      by_cases hnil : r.buf.takeWhile (inAttrValue r.state) = []
      · rw [← hw, scanned_of_nil hnil] at hr htick ht hshort
        refine .of_wait hp hr (.refl r) (htick.trans ht) ?_ hstuck rfl
        rintro ⟨-, -, hcut⟩
        simp only [charRefCut, Bool.and_eq_true, decide_eq_true_eq] at hcut
        omega
      · refine .of_move hp hr ?_ ?_
        · rw [← hw]
          exact pos_lt_scanned hnil
        · rw [enter_of_ne (by rw [hwstate]; exact hne)]
          exact hreach
    | takes n chars hn hle heq ht =>
      refine .of_move hp (hhandler.trans (orElse_of_true (hvalue.trans heq))) ?_ ?_
      · simp only [Reader.advancePos, pos_setAttribValue]
        omega
      · rw [enter_of_ne]
        · exact hreach.trans (.tick (htick.trans ht))
        · simp only [Reader.advancePos, state_setAttribValue, hwstate]
          exact hne
    | declines heq ht =>
      obtain ⟨e, he⟩ := orElse_orError "Expecting attribute value" (.inr ⟨_, hvalue.trans heq⟩)
      refine .of_error hp (hhandler.trans he) hreach ?_ hwevents
      rcases ht with ht | ⟨ht, hcut⟩
      · exact .inl (htick.trans ht)
      · refine .inr ⟨htick.trans ht, ?_, ?_, hcut⟩
        · rw [hwstate]
          rcases hstate with hs | hs <;> rw [hs] <;> decide
        · rw [hbuf, not_not.mp hc]
          rfl

/-! ### Comments and CDATA sections -/

/-- A loop that passes characters one by one, up to an end mark or to where more are needed, as
the ticks of a state do. -/
private def Passes (T : Charsets) (state : ParseState) (lp : List UInt8 → Nat × Bool) : Prop :=
  ∀ r : Reader, r.state = state →
    (lp r.buf = (0, false) ∧ tick T r = .wait) ∨
    (∃ n, 1 ≤ n ∧ lp r.buf = (n, true) ∧
      tick T r = .again { r.advancePos n with state := .content, value := [] }) ∨
    ∃ c rest, r.buf = c :: rest ∧ lp r.buf = ((lp rest).1 + 1, (lp rest).2) ∧
      tick T r = .again (r.advancePos 1)

private theorem Passes.reaches {state : ParseState} {lp : List UInt8 → Nat × Bool}
    (h : Passes T state lp) (hstate : r.state = state) :
    (∀ n, lp r.buf = (n, true) →
      1 ≤ n ∧ Reaches T r { r.advancePos n with state := .content, value := [] }) ∧
    ∀ n, lp r.buf = (n, false) →
      Reaches T r (r.advancePos n) ∧ tick T (r.advancePos n) = .wait := by
  induction hlen : r.buf.length using Nat.strong_induction_on generalizing r with
  | _ len ih =>
    rcases h r hstate with ⟨hlp, hwait⟩ | ⟨n, hn, hlp, htick⟩ | ⟨c, rest, hbuf, hlp, htick⟩
    · rw [hlp]
      constructor
      · intro n hn
        cases hn
      · intro n hn
        cases hn
        exact ⟨.refl r, hwait⟩
    · rw [hlp]
      constructor
      · intro m hm
        cases hm
        exact ⟨hn, .tick htick⟩
      · intro m hm
        cases hm
    · have hrest : (r.advancePos 1).buf = rest := by simp [Reader.advancePos, hbuf]
      have hlt : rest.length < len := by
        rw [← hlen, hbuf]
        exact Nat.lt_succ_self _
      have hih := ih rest.length hlt (r := r.advancePos 1) hstate (by rw [hrest])
      rw [hrest] at hih
      rw [hlp]
      constructor
      · intro n hn
        obtain ⟨hsum, hfound⟩ := Prod.mk.inj hn
        obtain ⟨-, hreach⟩ := hih.1 (lp rest).1 (Prod.ext rfl hfound)
        rw [advancePos_advancePos, Nat.add_comm, hsum] at hreach
        exact ⟨by omega, hreach.head htick⟩
      · intro n hn
        obtain ⟨hsum, hfound⟩ := Prod.mk.inj hn
        obtain ⟨hreach, hwait⟩ := hih.2 (lp rest).1 (Prod.ext rfl hfound)
        rw [advancePos_advancePos, Nat.add_comm, hsum] at hreach hwait
        exact ⟨hreach.head htick, hwait⟩

/-- A pass over the characters of a comment or a CDATA section. -/
private theorem PassSpec.of_passes (lp : List UInt8 → Nat × Bool) {message : String} {h : Handler}
    (hstate : r.state ∈ [ParseState.comment, .cdata]) (hpass : Passes T r.state lp)
    (hhandler : handler T r.state r = h.orElse (orError message) r)
    (hh : h r = match lp r.buf with
      | (n, true) => .ok (true, { r.advancePos n with state := .content })
      | (n, false) => .ok (true, r.advancePos n)) : PassSpec T r := by
  have hstate' : r.state = .comment ∨ r.state = .cdata := by simpa using hstate
  have hp : Plain r := by
    constructor <;> rcases hstate' with hs | hs <;> rw [hs] <;> decide
  obtain ⟨hfound, hnone⟩ := hpass.reaches (r := r) rfl
  cases hlp : lp r.buf with
  | mk n found =>
    rw [hlp] at hh
    cases found with
    | true =>
      obtain ⟨hn, hreach⟩ := hfound n hlp
      refine .of_move hp (hhandler.trans (orElse_of_true hh)) ?_ ?_
      · simp only [Reader.advancePos]
        omega
      · rw [Reader.enter, if_pos ⟨rfl, by rcases hstate' with hs | hs <;> simp [hs]⟩]
        exact hreach
    | false =>
      obtain ⟨hreach, hwait⟩ := hnone n hlp
      have hr := hhandler.trans (orElse_of_true hh)
      by_cases hn : n = 0
      · rw [hn, advancePos_zero] at hr hwait
        refine .of_wait hp hr (.refl r) hwait ?_ ?_ rfl
        · exact not_cut_of_state (by rcases hstate' with hs | hs <;> rw [hs] <;> decide)
        · exact not_stuck_of_state (by rcases hstate' with hs | hs <;> rw [hs] <;> decide)
      · refine .of_move hp hr ?_ ?_
        · simp only [Reader.advancePos]
          omega
        · rw [enter_of_ne (by rcases hstate' with hs | hs <;> simp [Reader.advancePos, hs])]
          exact hreach

theorem passSpec_comment (hstate : r.state = .comment) : PassSpec T r := by
  refine PassSpec.of_passes commentLoop (by simp [hstate]) ?_ (by rw [hstate]; rfl) rfl
  intro r' h'
  have htick : tick T r' = tickComment r' := by rw [tick, h', hstate]
  rw [htick, tickComment]
  rcases hbuf : r'.buf with _ | ⟨c, rest⟩
  · exact .inl ⟨rfl, rfl⟩
  by_cases hc : c = '-'.toUInt8
  · rcases rest with _ | ⟨d, _ | ⟨e, rest⟩⟩
    · exact .inl ⟨if_pos hc, if_pos hc⟩
    · exact .inl ⟨if_pos hc, if_pos hc⟩
    · by_cases hend : d = '-'.toUInt8 ∧ e = '>'.toUInt8
      · exact .inr (.inl ⟨3, by omega, (if_pos hc).trans (if_pos hend),
          (if_pos hc).trans (if_pos hend)⟩)
      · exact .inr (.inr ⟨c, _, rfl, (if_pos hc).trans (if_neg hend),
          (if_pos hc).trans (if_neg hend)⟩)
  · exact .inr (.inr ⟨c, rest, rfl, if_neg hc, if_neg hc⟩)

theorem passSpec_cdata (hstate : r.state = .cdata) : PassSpec T r := by
  refine PassSpec.of_passes cdataLoop (by simp [hstate]) ?_ (by rw [hstate]; rfl) rfl
  intro r' h'
  have htick : tick T r' = tickCdata r' := by rw [tick, h', hstate]
  rw [htick, tickCdata]
  rcases hbuf : r'.buf with _ | ⟨c, rest⟩
  · exact .inl ⟨rfl, rfl⟩
  by_cases hc : c = ']'.toUInt8
  · rcases rest with _ | ⟨d, rest⟩
    · exact .inl ⟨if_pos hc, if_pos hc⟩
    · by_cases hend : d = ']'.toUInt8
      · exact .inr (.inl ⟨2, by omega, (if_pos hc).trans (if_pos hend),
          (if_pos hc).trans (if_pos hend)⟩)
      · exact .inr (.inr ⟨c, _, rfl, (if_pos hc).trans (if_neg hend),
          (if_pos hc).trans (if_neg hend)⟩)
  · exact .inr (.inr ⟨c, rest, rfl, if_neg hc, if_neg hc⟩)

/-! ### The content -/

private theorem tick_content (hstate : r.state = .content) : tick T r = tickContent T r := by
  rw [tick, hstate]

/-- The spaces of the content are appended one by one. -/
theorem skipSpaceLoop_true (hstate : r.state = .content) (skipped : Bool) :
    (∃ e w, skipSpaceLoop true r.buf skipped r = .error e ∧ Reaches T r w ∧ tick T w = .fail ∧
      w.events = r.events) ∨
    ∃ r', skipSpaceLoop true r.buf skipped r = .ok (skipped || r.buf.head?.any isSpace, r') ∧
      Reaches T r r' ∧ r'.state = .content ∧ r.pos ≤ r'.pos ∧
      (r.buf.head?.any isSpace = true → r.pos < r'.pos) := by
  induction hbuf : r.buf generalizing r skipped with
  | nil => exact .inr ⟨r, by simp [skipSpaceLoop], .refl r, hstate, Nat.le_refl _, by simp⟩
  | cons c rest ih =>
    by_cases hc : isSpace c = true
    · have htick : tick T r =
          if maxValueSize < r.value.length + 1 then .fail
          else .again { r.advancePos 1 with value := r.value ++ [c] } := by
        rw [tick_content hstate, tickContent, hbuf]
        exact if_pos hc
      by_cases hfull : maxValueSize < r.value.length + 1
      · rw [if_pos hfull] at htick
        refine .inl ⟨⟨r.pos, "Buffer overflow"⟩, r, ?_, .refl r, htick, rfl⟩
        simp [skipSpaceLoop, hc, Reader.append, Reader.error, hfull]
      · rw [if_neg hfull] at htick
        have hloop : skipSpaceLoop true (c :: rest) skipped r =
            skipSpaceLoop true rest true { r.advancePos 1 with value := r.value ++ [c] } := by
          simp [skipSpaceLoop, hc, Reader.append, hfull]
        have hrest : ({ r.advancePos 1 with value := r.value ++ [c] } : Reader).buf = rest := by
          simp [Reader.advancePos, hbuf]
        rw [hloop]
        rcases ih (r := { r.advancePos 1 with value := r.value ++ [c] }) hstate true hrest with
          ⟨e, w, he, hw, hfail, hev⟩ | ⟨r', hr', hreach, hs', hle, -⟩
        · exact .inl ⟨e, w, he, hw.head htick, hfail, hev⟩
        · refine .inr ⟨r', by simp [hr', hc], hreach.head htick, hs', ?_, fun _ => ?_⟩
          · simp only [Reader.advancePos] at hle
            omega
          · simp only [Reader.advancePos] at hle
            omega
    · refine .inr ⟨r, ?_, .refl r, hstate, Nat.le_refl _, by simp [hc]⟩
      simp [skipSpaceLoop, hc]

/-- The alternatives of the content before an entity reference. -/
private theorem handler_content_entref {c : UInt8} {rest : List UInt8}
    (hbuf : r.buf = '&'.toUInt8 :: c :: rest) :
    handler T .content r =
      Handler.orElse (fun r => entref r.value Reader.setValue r)
        (orError "Expecting content, element or comment") r := by
  obtain ⟨buf, pos, attribs, value, encoding, charset, state, elements, events⟩ := r
  cases hbuf
  rfl

theorem passSpec_content (hstate : r.state = .content) : PassSpec T r := by
  have hp : Plain r := .of_state hstate (by decide) (by decide) (by decide)
  have hstuck : ¬ Stuck r := not_stuck_of_state (by rw [hstate]; decide)
  have htick : tick T r = tickContent T r := tick_content hstate
  cases hbuf : r.buf with
  | nil =>
    refine .of_wait hp (b := true) ?_ (.refl r) ?_ ?_ hstuck rfl
    · rw [hstate]
      refine orElse_of_true ?_
      simp [skipSpace, Reader.needChars, hbuf]
    · rw [htick, tickContent, hbuf]
    · rintro ⟨-, hhead, -⟩
      rw [hbuf] at hhead
      cases hhead
  | cons c rest =>
    by_cases hc : isSpace c = true
    · have hskip : skipSpace true r = skipSpaceLoop true r.buf false r := by
        simp [skipSpace, Reader.needChars, hbuf]
      have hhead : r.buf.head?.any isSpace = true := by simp [hbuf, hc]
      rcases skipSpaceLoop_true (T := T) hstate false with
        ⟨e, w, he, hw, hfail, hev⟩ | ⟨r', hr', hreach, hs', -, hlt⟩
      · refine .of_error hp (e := e) ?_ hw (.inl hfail) hev
        rw [hstate]
        change Handler.orElse (skipSpace true) _ r = _
        rw [Handler.orElse, hskip, he]
      · rw [hhead] at hr'
        have hh : handler T r.state r = .ok (true, r') := by
          rw [hstate]
          exact orElse_of_true (hskip.trans hr')
        refine .of_move hp hh (hlt hhead) ?_
        rw [Reader.enter, if_neg (fun h => h.2 (by rw [hs', hstate]))]
        exact hreach
    by_cases hamp : c = '&'.toUInt8 ∧ rest ≠ []
    · obtain ⟨c', rest', hrest⟩ := List.exists_cons_of_ne_nil hamp.2
      have hbuf' : r.buf = '&'.toUInt8 :: c' :: rest' := by rw [hbuf, hamp.1, hrest]
      have hhandler : handler T r.state r =
          Handler.orElse (fun r => entref r.value Reader.setValue r)
            (orError "Expecting content, element or comment") r := by
        rw [hstate]
        exact handler_content_entref hbuf'
      have ht : tick T r = tickEntref r.value Reader.setValue r := by
        rw [htick, tickContent, hbuf]
        exact (if_neg hc).trans (if_pos hamp)
      cases entrefSpec r.value Reader.setValue r with
      | throws e heq hfail =>
        obtain ⟨e', he⟩ := orElse_orError (a := fun r => entref r.value Reader.setValue r)
          "Expecting content, element or comment" (.inl ⟨e, heq⟩)
        exact .of_error hp (hhandler.trans he) (.refl r) (.inl (ht.trans hfail)) rfl
      | short heq hwait hshort =>
        refine .of_wait hp (hhandler.trans (orElse_of_true heq)) (.refl r)
          (ht.trans hwait) ?_ hstuck
          rfl
        rintro ⟨-, -, hcut⟩
        simp only [charRefCut, Bool.and_eq_true, decide_eq_true_eq] at hcut
        omega
      | takes n chars hn hle heq hagain =>
        refine .of_move hp (hhandler.trans (orElse_of_true heq)) ?_ ?_
        · simp only [Reader.advancePos, Reader.setValue]
          omega
        · rw [Reader.enter, if_neg (fun h => h.2 rfl)]
          exact .tick (ht.trans hagain)
      | declines heq hfail =>
        obtain ⟨e, he⟩ := orElse_orError (a := fun r => entref r.value Reader.setValue r)
          "Expecting content, element or comment" (.inr ⟨r, heq⟩)
        refine .of_error hp (hhandler.trans he) (.refl r) ?_ rfl
        rcases hfail with hfail | ⟨hwait, hcut⟩
        · exact .inl (ht.trans hfail)
        · exact .inr ⟨ht.trans hwait, by rw [hstate]; decide, by rw [hbuf']; rfl, hcut⟩
    · have ht : tick T r = tickHandler (handler T r.state) r := by
        rw [htick, tickContent, hbuf, hstate]
        exact (if_neg hc).trans (if_neg hamp)
      have hcut : ¬ Cut r := by
        rintro ⟨-, hhead, hcut⟩
        rw [hbuf] at hhead
        have hrest : rest = [] := by
          by_contra hne
          exact hamp ⟨Option.some.inj hhead, hne⟩
        simp [charRefCut, hbuf, hrest] at hcut
      refine .of_steady hp ?_ ht hcut hstuck
      rw [hstate]
      by_cases hc' : c = '&'.toUInt8
      · have hrest : rest = [] := by
          by_contra hne
          exact hamp ⟨hc', hne⟩
        exact .of_wait (handler_content_ampersand (by rw [hbuf, hc', hrest]))
      · exact steady_handler_content hbuf (by simpa using hc) hc'

/-! ### The encoding -/

private theorem fuelMono_encoding :
    FuelMono fun (_ : Nat) (r : Reader) => some (declEncodingValuePass T r) :=
  fun _ _ _ _ _ h => h

/-- What `declEncodingValue` does. -/
inductive EncodingSpec (T : Charsets) (r : Reader) : Prop where
  | throws (w : Reader) (e : XmlError) (ends : Ends (declEncodingValue T) r (.error e))
      (reaches : Reaches T r w) (fail : tick T w = .fail) (events : w.events = r.events)
  | declines (w : Reader) (ends : Ends (declEncodingValue T) r (.ok (false, w)))
      (reaches : Reaches T r w) (head : w.buf.head? = some '&'.toUInt8)
      (fail : tick T w = .fail ∨ tick T w = .wait ∧ Cut w) (events : w.events = r.events)
  | waits (w : Reader) (ends : Ends (declEncodingValue T) r (.ok (true, w)))
      (reaches : Reaches T r w) (state : w.state = r.state) (buf : w.buf = [])
      (pos : w = r ∨ r.pos < w.pos)
  | takes (w : Reader) (ends : Ends (declEncodingValue T) r (.ok (true, w)))
      (reaches : Reaches T r w) (state : w.state = .declStandalone) (pos : r.pos < w.pos)
  | hangs (w : Reader) (ends : ¬ Halts (declEncodingValue T) r) (reaches : Reaches T r w)
      (stuck : Stuck w)

/-- A pass of `declEncodingValue` that takes some characters, then the rest of the loop. -/
private theorem EncodingSpec.of_again {r' : Reader} (hpass : declEncodingValuePass T r = .again r')
    (htick : tick T r = .again r') (hstate : r'.state = r.state) (hpos : r.pos < r'.pos)
    (hevents : r'.events = r.events) (h : EncodingSpec T r') : EncodingSpec T r := by
  have hbody : Ends (fun (_ : Nat) r => some (declEncodingValuePass T r)) r (.again r') :=
    ⟨0, congrArg some hpass⟩
  have hagain : ∀ x, Ends (declEncodingValue T) r' x → Ends (declEncodingValue T) r x :=
    fun x hx => hbody.again fuelMono_encoding hx
  cases h with
  | throws w e hends hreach hfail hev =>
    exact .throws w e (hagain _ hends) (hreach.head htick) hfail (hev.trans hevents)
  | declines w hends hreach hhead hfail hev =>
    exact .declines w (hagain _ hends) (hreach.head htick) hhead hfail (hev.trans hevents)
  | waits w hends hreach hs hbuf hp =>
    refine .waits w (hagain _ hends) (hreach.head htick) (hs.trans hstate) hbuf (.inr ?_)
    rcases hp with rfl | hp <;> omega
  | takes w hends hreach hs hp =>
    exact .takes w (hagain _ hends) (hreach.head htick) hs (by omega)
  | hangs w hends hreach hstuck =>
    refine .hangs w ?_ (hreach.head htick) hstuck
    rintro ⟨x, hx⟩
    rcases hx.cases with ⟨n, hn⟩ | ⟨r'', ⟨n, hn⟩, hx'⟩
    · have hdone := hpass.symm.trans (Option.some.inj hn)
      cases hdone
    · have hagain := hpass.symm.trans (Option.some.inj hn)
      cases hagain
      exact hends ⟨x, hx'⟩

private theorem EncodingSpec.ends_done {x : Except XmlError (Bool × Reader)}
    (hpass : declEncodingValuePass T r = .done x) : Ends (declEncodingValue T) r x :=
  Ends.done ⟨0, congrArg some hpass⟩

/-- A reader that is stuck stays so. -/
theorem not_halts_of_stuck (h : Stuck r) : ¬ Halts (declEncodingValue T) r := by
  refine not_halts_of_invariant (· = r) ?_ rfl
  rintro s pass rfl ⟨n, hn⟩
  refine ⟨s, ?_, rfl⟩
  obtain ⟨hstate, hhead, hlen, hroom⟩ := h
  have hpass : declEncodingValuePass T s = .again s := by
    cases hbuf : s.buf with
    | nil =>
      rw [hbuf] at hhead
      cases hhead
    | cons c rest =>
      have hc : c = '&'.toUInt8 := by
        rw [hbuf] at hhead
        exact Option.some.inj hhead
      have hends : ¬ endsEncoding s.state '&'.toUInt8 = true := by
        rcases hstate with hs | hs <;> rw [hs] <;> decide
      have hent : entref s.encoding Reader.setEncoding s = .ok (true, s) := by
        rw [entref, if_neg (by omega), if_neg (by omega)]
      simp [declEncodingValuePass, hbuf, hc, hends, hent]
  exact (Option.some.inj hn).symm.trans hpass

private theorem declEncodingValuePass_entref {c : UInt8} {rest : List UInt8}
    (hbuf : r.buf = c :: rest) (hends : ¬endsEncoding r.state c = true) (hc : c = '&'.toUInt8) :
    declEncodingValuePass T r =
      match entref r.encoding Reader.setEncoding r with
      | .error e => .done (.error e)
      | .ok (false, r') => .done (.ok (false, r'))
      | .ok (true, r') => .again r' := by
  rw [declEncodingValuePass, hbuf]
  exact (if_neg hends).trans (if_pos hc)

theorem encodingSpec
    (hstate : r.state = .declEncodingNameApos ∨ r.state = .declEncodingNameQuot) :
    EncodingSpec T r := by
  induction hlen : r.buf.length using Nat.strong_induction_on generalizing r with
  | _ len ih =>
    have htick : tick T r = tickEncoding T r := by rcases hstate with hs | hs <;> rw [tick, hs]
    cases hbuf : r.buf with
    | nil =>
      refine .waits r (EncodingSpec.ends_done ?_) (.refl r) rfl hbuf (.inl rfl)
      rw [declEncodingValuePass, hbuf]
    | cons c rest =>
      by_cases hends : endsEncoding r.state c = true
      · rw [tickEncoding, hbuf] at htick
        refine .takes _ (EncodingSpec.ends_done ?_) (.tick (htick.trans (if_pos hends))) rfl ?_
        · rw [declEncodingValuePass, hbuf]
          exact if_pos hends
        · exact Nat.lt_succ_self r.pos
      by_cases hc : c = '&'.toUInt8
      · have ht : tick T r = tickEntref r.encoding Reader.setEncoding r := by
          rw [htick, tickEncoding, hbuf]
          exact (if_neg hends).trans (if_pos hc)
        have hhead : r.buf.head? = some '&'.toUInt8 := by rw [hbuf, hc]; rfl
        have hpass := declEncodingValuePass_entref (T := T) hbuf hends hc
        cases entrefSpec r.encoding Reader.setEncoding r with
        | throws e heq hfail =>
          rw [heq] at hpass
          exact .throws r e (EncodingSpec.ends_done hpass) (.refl r) (ht.trans hfail) rfl
        | short heq hwait hshort hroom =>
          have hstuck : Stuck r := ⟨hstate, hhead, hshort, hroom⟩
          exact .hangs r (not_halts_of_stuck hstuck) (.refl r) hstuck
        | takes n chars hn hle heq hagain =>
          rw [heq] at hpass
          have hlt : ((r.setEncoding (r.encoding ++ chars)).advancePos n).buf.length < len := by
            simp only [Reader.advancePos, Reader.setEncoding, List.length_drop]
            omega
          refine .of_again hpass (ht.trans hagain) rfl ?_ rfl (ih _ hlt hstate rfl)
          simp only [Reader.advancePos, Reader.setEncoding]
          omega
        | declines heq hfail =>
          rw [heq] at hpass
          refine .declines r (EncodingSpec.ends_done hpass) (.refl r) hhead ?_ rfl
          rcases hfail with hfail | ⟨hwait, hcut⟩
          · exact .inl (ht.trans hfail)
          · refine .inr ⟨ht.trans hwait, ?_, hhead, hcut⟩
            rcases hstate with hs | hs <;> rw [hs] <;> decide
      by_cases hfull : maxValueSize < r.encoding.length + 1
      · refine .throws r ⟨r.pos, "Buffer overflow"⟩ (EncodingSpec.ends_done ?_) (.refl r) ?_ rfl
        · simp [declEncodingValuePass, hbuf, hends, hc, Reader.append, Reader.error, hfull]
        · rw [htick, tickEncoding, hbuf]
          exact (if_neg hends).trans ((if_neg hc).trans (if_pos hfull))
      · have hlt : ({ r.advancePos 1 with encoding := r.encoding ++ [c] } : Reader).buf.length <
            len := by
          rw [← hlen, hbuf]
          simp [Reader.advancePos, hbuf]
        have hpass : declEncodingValuePass T r =
            .again { r.advancePos 1 with encoding := r.encoding ++ [c] } := by
          simp [declEncodingValuePass, hbuf, hends, hc, Reader.append, hfull]
        refine .of_again hpass ?_ rfl (Nat.lt_succ_self r.pos) rfl (ih _ hlt hstate rfl)
        rw [htick, tickEncoding, hbuf]
        exact (if_neg hends).trans ((if_neg hc).trans (if_neg hfull))

private theorem switch_encoding
    (hstate : r.state = .declEncodingNameApos ∨ r.state = .declEncodingNameQuot) (fuel : Nat) :
    switch T fuel r =
      match declEncodingValue T fuel r with
      | none => none
      | some (.ok (false, r')) => some (spaceOrError "Expecting encoding value" r')
      | some result => some result := by
  rcases hstate with hs | hs <;> rw [switch, hs] <;> rfl

theorem passSpec_encoding
    (hstate : r.state = .declEncodingNameApos ∨ r.state = .declEncodingNameQuot) :
    PassSpec T r := by
  have hend : r.state ≠ .end_ := by rcases hstate with hs | hs <;> rw [hs] <;> decide
  have hne : r.state ≠ .content := by rcases hstate with hs | hs <;> rw [hs] <;> decide
  have hswitch := switch_encoding (T := T) hstate
  cases encodingSpec (T := T) hstate with
  | throws w e hends hreach hfail hev =>
    obtain ⟨n, hn⟩ := hends
    refine .throws w e ⟨n, ?_⟩ hreach (.inl hfail) hev
    rw [processPass, if_neg hend, hswitch, hn]
  | declines w hends hreach hhead hfail hev =>
    obtain ⟨n, hn⟩ := hends
    have hspace : spaceOrError "Expecting encoding value" w =
        .error ⟨w.pos, "Expecting encoding value"⟩ := by
      cases hbuf : w.buf with
      | nil =>
        rw [hbuf] at hhead
        cases hhead
      | cons c rest =>
        rw [hbuf] at hhead
        cases hhead
        have hc : ¬ isSpace '&'.toUInt8 = true := by decide
        simp [spaceOrError, Handler.orElse, skipSpace, Reader.needChars, hbuf, skipSpaceLoop, hc,
          Reader.error]
    refine .throws w ⟨w.pos, "Expecting encoding value"⟩ ⟨n, ?_⟩ hreach hfail hev
    rw [processPass, if_neg hend, hswitch, hn]
    simp only [hspace]
  | waits w hends hreach hs hbuf hpos =>
    obtain ⟨n, hn⟩ := hends
    rcases hpos with rfl | hpos
    · refine .rest w ⟨n, ?_⟩ hreach ?_ ?_ ?_ rfl
      · rw [processPass, if_neg hend, hswitch, hn]
        exact if_pos ⟨rfl, rfl⟩
      · rcases hstate with hs | hs <;> rw [tick, hs] <;> simp only [tickEncoding, hbuf]
      · rintro ⟨-, hhead, -⟩
        rw [hbuf] at hhead
        cases hhead
      · rintro ⟨-, hhead, -⟩
        rw [hbuf] at hhead
        cases hhead
    · refine .again w ⟨n, ?_⟩ hreach hpos
      rw [processPass, if_neg hend, hswitch, hn]
      exact (if_neg fun h => by omega).trans (if_neg fun h => hne (hs.symm.trans h.1))
  | takes w hends hreach hs hpos =>
    obtain ⟨n, hn⟩ := hends
    refine .again w ⟨n, ?_⟩ hreach hpos
    rw [processPass, if_neg hend, hswitch, hn]
    exact (if_neg fun h => by omega).trans (if_neg fun h => by simp [hs] at h)
  | hangs w hends hreach hstuck =>
    refine .hangs w ?_ hreach hstuck
    rintro pass ⟨n, hn⟩
    have hnone : declEncodingValue T n r = none := by
      rw [Option.eq_none_iff_forall_ne_some]
      intro x hx
      exact hends ⟨x, n, hx⟩
    rw [processPass, if_neg hend, hswitch, hnone] at hn
    cases hn

/-- What a pass of `process` does, in every state. -/
theorem passSpec (T : Charsets) (h : r.state ≠ .end_) : PassSpec T r := by
  cases hstate : r.state with
  | end_ => exact absurd hstate h
  | elementName => exact passSpec_elementName hstate
  | elementAttrName => exact passSpec_elementAttrName hstate
  | elementAttrValueApos => exact passSpec_elementAttrValue (.inl hstate)
  | elementAttrValueQuot => exact passSpec_elementAttrValue (.inr hstate)
  | declEncodingNameApos => exact passSpec_encoding (.inl hstate)
  | declEncodingNameQuot => exact passSpec_encoding (.inr hstate)
  | comment => exact passSpec_comment hstate
  | cdata => exact passSpec_cdata hstate
  | content => exact passSpec_content hstate
  | _ => exact passSpec_other (by rw [hstate]; decide)

end States

/-! ### What ticks keep -/

/-- What a tick leads to: not `STATE_END`, and no call of the `CallBack` is undone. -/
private structure Later (r r' : Reader) : Prop where
  not_end : r.state ≠ .end_ → r'.state ≠ .end_
  events : r.events <+: r'.events

private theorem Later.refl (r : Reader) : Later r r := ⟨id, List.prefix_rfl⟩

private theorem Later.trans {a b c : Reader} (hab : Later a b) (hbc : Later b c) : Later a c :=
  ⟨hbc.not_end ∘ hab.not_end, hab.events.trans hbc.events⟩

/-- The same calls, in a state that is not `STATE_END`. -/
private theorem Later.of_state {r r' : Reader} (hs : r'.state ≠ .end_) (he : r'.events = r.events) :
    Later r r' := ⟨fun _ => hs, he ▸ List.prefix_rfl⟩

/-- The same calls in the same state. -/
private theorem Later.of_eq {r r' : Reader} (hs : r'.state = r.state) (he : r'.events = r.events) :
    Later r r' := ⟨fun hr => hs ▸ hr, he ▸ List.prefix_rfl⟩

private theorem Later.behind {a b c : Reader} (h : Later b c) (hs : b.state = a.state)
    (he : b.events = a.events) : Later a c := (Later.of_eq hs he).trans h

/-- One more call. -/
private theorem Later.of_call {r r' : Reader} {e : Event} (hs : r'.state ≠ .end_)
    (he : r'.events = r.events ++ [e]) : Later r r' := ⟨fun _ => hs, he ▸ List.prefix_append _ _⟩

/-- What the handler leads to. -/
private def Handler.Later (h : Handler) : Prop := ∀ r b r', h r = .ok (b, r') → Xml.Later r r'

private theorem later_orElse {a b : Handler} (ha : a.Later) (hb : b.Later) :
    (a.orElse b).Later := by
  intro r handled r' h
  unfold Handler.orElse at h
  cases hres : a r with
  | error e =>
    rw [hres] at h
    cases h
  | ok p =>
    obtain ⟨_ | _, s⟩ := p
    · rw [hres] at h
      exact (ha r false s hres).trans (hb s handled r' h)
    · rw [hres] at h
      cases h
      exact ha r true _ hres

private theorem later_literal {lit : List UInt8} {withSpace : Bool} {newState : ParseState}
    (hs : newState ≠ .end_) : (literal lit withSpace newState).Later := by
  intro r b r' h
  unfold literal at h
  repeat' split at h
  all_goals cases h
  all_goals first | exact .refl r | exact .of_state hs rfl

private theorem later_character {c : UInt8} {newState : ParseState} (hs : newState ≠ .end_) :
    (character c newState).Later := by
  intro r b r' h
  unfold character at h
  repeat' split at h
  all_goals cases h
  all_goals first | exact .refl r | exact .of_state hs rfl

private theorem later_skipSpaceLoop {store : Bool} (buf : List UInt8) (skipped : Bool) :
    (skipSpaceLoop store buf skipped).Later := by
  induction buf generalizing skipped with
  | nil =>
    intro r b r' h
    cases h
    exact .refl r
  | cons c rest ih =>
    intro r b r' h
    rw [skipSpaceLoop] at h
    repeat' split at h
    · cases h
    · exact (ih true _ b r' h).behind rfl rfl
    · exact (ih true _ b r' h).behind rfl rfl
    · cases h
      exact .refl r

private theorem later_skipSpace {store : Bool} : (skipSpace store).Later := by
  intro r b r' h
  unfold skipSpace at h
  split at h
  · cases h
    exact .refl r
  · exact later_skipSpaceLoop r.buf false r b r' h

private theorem later_error {message : String} : Handler.Later fun r => r.error message := by
  intro r b r' h
  cases h

private theorem later_spaceOrError {message : String} : (spaceOrError message).Later :=
  later_orElse later_skipSpace later_error

private theorem later_element : element.Later := by
  intro r b r' h
  unfold element at h
  repeat' split at h
  all_goals cases h
  all_goals first | exact .refl r | exact .of_state (by simp) rfl

private theorem later_elementAttr : Handler.Later elementAttr := by
  intro r b r' h
  unfold elementAttr at h
  repeat' split at h
  all_goals cases h
  all_goals first | exact .refl r | exact .of_state (by simp) rfl

private theorem later_elementEndSimple : Handler.Later elementEndSimple := by
  intro r b r' h
  unfold elementEndSimple at h
  repeat' split at h
  all_goals cases h
  all_goals first | exact .refl r | exact .of_call (by simp) rfl

private theorem later_elementEndComplex : Handler.Later elementEndComplex := by
  intro r b r' h
  unfold elementEndComplex at h
  repeat' split at h
  all_goals cases h
  all_goals first | exact .refl r | exact .of_call (by simp) rfl

private theorem later_elementEndEnd {T : Charsets} : (elementEndEnd T).Later := by
  intro r b r' h
  unfold elementEndEnd at h
  by_cases hneed : (!r.needChars 1) = true
  · rw [if_pos hneed] at h
    cases h
    exact .refl r
  · rw [if_neg hneed] at h
    split at h <;> cases h <;> first | exact .refl r | exact .of_call (by simp) rfl

private theorem later_elementEnd : Handler.Later elementEnd := by
  intro r b r' h
  unfold elementEnd at h
  repeat' split at h
  all_goals cases h
  all_goals first | exact .refl r | exact .of_state (by simp) rfl

private theorem later_declVersionNum : Handler.Later declVersionNum := by
  intro r b r' h
  unfold declVersionNum at h
  simp only at h
  repeat' split at h
  all_goals cases h
  all_goals first | exact .refl r | exact .of_state (by simp) rfl

private theorem later_content : Handler.Later content := by
  intro r b r' h
  unfold content at h
  simp only at h
  split at h
  · cases h
    exact .refl r
  split at h
  · split at h <;> cases h
    exact .refl r
  split at h
  · unfold entref at h
    repeat' split at h
    all_goals cases h
    all_goals exact .of_eq rfl rfl
  · split at h <;> cases h
    exact .of_eq rfl rfl

private theorem later_handler {T : Charsets} {state : ParseState}
    (hstate : state ∉ [ParseState.elementName, .elementAttrName, .elementAttrValueApos,
      .elementAttrValueQuot, .comment, .cdata]) : (handler T state).Later := by
  cases state with
  | start =>
    exact later_orElse (later_literal (by decide)) <|
      later_orElse (later_literal (by decide)) <|
      later_orElse (later_literal (by decide)) <|
      later_orElse later_element later_spaceOrError
  | declVersion =>
    exact later_orElse later_skipSpace <|
      later_orElse (later_literal (by decide)) later_spaceOrError
  | declVersionEq | declEncodingEq | declStandaloneEq | elementAttrEq =>
    exact later_orElse (later_character (by decide)) later_spaceOrError
  | declVersionNum => exact later_orElse later_declVersionNum later_spaceOrError
  | declEncoding =>
    exact later_orElse (later_literal (by decide)) <|
      later_orElse (later_literal (by decide)) <|
      later_orElse (later_literal (by decide)) later_spaceOrError
  | declEncodingName | elementAttrValue =>
    exact later_orElse (later_character (by decide)) <|
      later_orElse (later_character (by decide)) later_spaceOrError
  | declStandalone | declStandaloneYes =>
    exact later_orElse (later_literal (by decide)) <|
      later_orElse (later_literal (by decide)) later_spaceOrError
  | declEnd => exact later_orElse (later_literal (by decide)) later_spaceOrError
  | declEncodingNameApos | declEncodingNameQuot | end_ => exact later_error
  | elementEndSimple => exact later_orElse later_elementEndSimple later_error
  | elementEnd => exact later_orElse later_elementEnd later_spaceOrError
  | elementEndEnd => exact later_orElse later_elementEndEnd later_spaceOrError
  | elementAttr =>
    exact later_orElse later_elementAttr <| later_orElse later_elementEndComplex <|
      later_orElse (later_character (by decide)) later_spaceOrError
  | content =>
    exact later_orElse later_skipSpace <| later_orElse (later_literal (by decide)) <|
      later_orElse (later_literal (by decide)) <| later_orElse later_element <|
      later_orElse (later_literal (by decide)) <| later_orElse later_content later_error
  | _ => simp at hstate

private theorem later_tickEntref {d : List UInt8} {set : Reader → List UInt8 → Reader}
    {r r' : Reader} (hstate : ∀ v, (set r v).state = r.state)
    (hevents : ∀ v, (set r v).events = r.events) (h : tickEntref d set r = .again r') :
    Later r r' := by
  unfold tickEntref at h
  split at h
  · cases h
  split at h
  · cases h
  split at h
  · cases h
    exact .of_eq (hstate _) (hevents _)
  · split at h <;> cases h

private theorem later_tickHandler {h : Handler} (hh : h.Later) {r r' : Reader}
    (ht : tickHandler h r = .again r') : Later r r' := by
  unfold tickHandler at ht
  split at ht
  · cases ht
  next b s hs =>
    split at ht
    · cases ht
    split at ht
    · cases ht
      exact (hh r b s hs).trans (.of_eq rfl rfl)
    · cases ht
      exact hh r b _ hs

private theorem later_tickScan {S : Slot} {inside : UInt8 → Bool}
    {behind : UInt8 → Reader → Tick Reader} {r r' : Reader}
    (hbehind : ∀ c, behind c r = .again r' → Later r r')
    (ht : tickScan S inside behind r = .again r') : Later r r' := by
  unfold tickScan at ht
  split at ht
  · cases ht
  split at ht
  · cases ht
  next c _ _ =>
    split at ht
    · split at ht
      · cases ht
        exact .of_eq rfl rfl
      · cases ht
    · exact hbehind c ht

theorem events_setAttribValue (r : Reader) (v : List UInt8) :
    (r.setAttribValue v).events = r.events := by
  unfold Reader.setAttribValue
  split <;> rfl

private theorem events_convertAttrib (T : Charsets) (r : Reader) :
    (r.convertAttrib T).events = r.events := by
  unfold Reader.convertAttrib
  split_ifs
  · exact events_setAttribValue _ _
  · rfl

private theorem later_behindAttrValue {T : Charsets} {r r' : Reader} (c : UInt8)
    (h : behindAttrValue T c r = .again r') : Later r r' := by
  unfold behindAttrValue at h
  split at h
  · cases h
    exact .of_state (by simp) (events_convertAttrib T r)
  · exact later_tickEntref (state_setAttribValue r) (events_setAttribValue r) h

private theorem later_tickEncoding {T : Charsets} {r r' : Reader}
    (h : tickEncoding T r = .again r') : Later r r' := by
  unfold tickEncoding at h
  split at h
  · cases h
  split at h
  · cases h
    exact .of_state (by simp) rfl
  split at h
  · exact later_tickEntref (fun _ => rfl) (fun _ => rfl) h
  split at h
  · cases h
  · cases h
    exact .of_eq rfl rfl

private theorem later_tickComment {r r' : Reader} (h : tickComment r = .again r') :
    Later r r' := by
  unfold tickComment at h
  repeat' split at h
  all_goals cases h
  all_goals first | exact .of_eq rfl rfl | exact .of_state (by simp) rfl

private theorem later_tickCdata {r r' : Reader} (h : tickCdata r = .again r') : Later r r' := by
  unfold tickCdata at h
  repeat' split at h
  all_goals cases h
  all_goals first | exact .of_eq rfl rfl | exact .of_state (by simp) rfl

private theorem later_tickContent {T : Charsets} {r r' : Reader}
    (h : tickContent T r = .again r') : Later r r' := by
  unfold tickContent at h
  split at h
  · cases h
  split at h
  · split at h
    · cases h
    · cases h
      exact .of_eq rfl rfl
  split at h
  · exact later_tickEntref (fun _ => rfl) (fun _ => rfl) h
  · exact later_tickHandler (later_handler (by decide)) h

private theorem later_tickOther {T : Charsets} {r r' : Reader} (hstate : r.state ∉ scanStates)
    (h : tickOther T r = .again r') : Later r r' := by
  unfold tickOther at h
  split at h
  · cases h
  split at h
  · cases h
    exact .of_eq rfl rfl
  · refine later_tickHandler (later_handler fun hmem => hstate ?_) h
    simp only [scanStates, List.mem_cons, List.not_mem_nil, or_false] at hmem ⊢
    tauto

private theorem later_tick {T : Charsets} {r r' : Reader} (ht : tick T r = .again r') :
    Later r r' := by
  cases hstate : r.state with
  | end_ =>
    rw [tick, hstate] at ht
    cases ht
  | elementName =>
    rw [tick, hstate] at ht
    refine later_tickScan (fun c hc => ?_) ht
    unfold behindName at hc
    repeat' split at hc
    all_goals cases hc
    all_goals first | exact .of_state (by simp) rfl | exact .of_call (by simp) rfl
  | elementAttrName =>
    rw [tick, hstate] at ht
    refine later_tickScan (fun c hc => ?_) ht
    unfold behindAttrName at hc
    repeat' split at hc
    all_goals cases hc
    all_goals exact .of_state (by simp) rfl
  | elementAttrValueApos | elementAttrValueQuot =>
    rw [tick, hstate] at ht
    exact later_tickScan (fun c hc => later_behindAttrValue c hc) ht
  | declEncodingNameApos | declEncodingNameQuot =>
    rw [tick, hstate] at ht
    exact later_tickEncoding ht
  | comment =>
    rw [tick, hstate] at ht
    exact later_tickComment ht
  | cdata =>
    rw [tick, hstate] at ht
    exact later_tickCdata ht
  | content =>
    rw [tick, hstate] at ht
    exact later_tickContent ht
  | _ =>
    have hscan : r.state ∉ scanStates := by rw [hstate]; decide
    rw [tick_eq_tickOther hscan] at ht
    exact later_tickOther hscan ht

/-- No tick enters `STATE_END`. -/
theorem state_ne_end_of_tick {T : Charsets} {r r' : Reader} (hr : r.state ≠ .end_)
    (ht : tick T r = .again r') : r'.state ≠ .end_ := (later_tick ht).not_end hr

theorem state_ne_end_of_reaches {T : Charsets} {r r' : Reader} (h : Reaches T r r')
    (hr : r.state ≠ .end_) : r'.state ≠ .end_ :=
  h.invariant (P := fun r => r.state ≠ .end_) (fun _ _ ha hab => state_ne_end_of_tick ha hab) hr

/-- The calls that have been made are those that will have been made first. -/
theorem events_prefix_of_reaches {T : Charsets} {r r' : Reader} (h : Reaches T r r') :
    r.events <+: r'.events :=
  h.invariant (P := fun w => r.events <+: w.events)
    (fun _ _ ha hab => ha.trans (later_tick hab).events) List.prefix_rfl

/-! ### The loop -/

theorem fuelMono_declEncodingValue (T : Charsets) : FuelMono (declEncodingValue T) :=
  loop_fuelMono fuelMono_encoding

theorem fuelMono_switch (T : Charsets) : FuelMono (switch T) := by
  intro m n r x hmn h
  by_cases henc : r.state = .declEncodingNameApos ∨ r.state = .declEncodingNameQuot
  · rw [switch_encoding henc] at h ⊢
    cases hm : declEncodingValue T m r with
    | none =>
      rw [hm] at h
      cases h
    | some result =>
      rw [hm] at h
      rw [fuelMono_declEncodingValue T hmn hm]
      exact h
  · rw [not_or] at henc
    rw [switch_eq_handler henc.1 henc.2] at h ⊢
    exact h

theorem fuelMono_processPass (T : Charsets) : FuelMono (processPass T) := by
  intro m n r x hmn h
  unfold processPass at h ⊢
  by_cases hend : r.state = .end_
  · rw [if_pos hend] at h ⊢
    exact h
  · rw [if_neg hend] at h ⊢
    cases hm : switch T m r with
    | none =>
      rw [hm] at h
      cases h
    | some result =>
      rw [hm] at h
      rw [fuelMono_switch T hmn hm]
      exact h

theorem fuelMono_process (T : Charsets) : FuelMono (process T) :=
  loop_fuelMono (fuelMono_processPass T)

/-- A reader that is stuck waits. -/
theorem tick_of_stuck {T : Charsets} {r : Reader} (h : Stuck r) : tick T r = .wait := by
  obtain ⟨hstate, hhead, hlen, hroom⟩ := h
  have htick : tick T r = tickEncoding T r := by rcases hstate with hs | hs <;> rw [tick, hs]
  cases hbuf : r.buf with
  | nil =>
    rw [hbuf] at hhead
    cases hhead
  | cons c rest =>
    have hc : c = '&'.toUInt8 := by
      rw [hbuf] at hhead
      exact Option.some.inj hhead
    have hends : ¬ endsEncoding r.state c = true := by
      rw [hc]
      rcases hstate with hs | hs <;> rw [hs] <;> decide
    rw [htick, tickEncoding, hbuf]
    refine (if_neg hends).trans ((if_pos hc).trans ?_)
    rw [tickEntref, if_neg (by omega), if_pos (by omega)]

/-- What `process` does with the characters at hand, by the state in which the reader rests that
takes them one at a time. -/
theorem process_spec (T : Charsets) {r w : Reader} (hr : r.state ≠ .end_) (hw : Reaches T r w)
    (hrest : (machine T).Rests w) :
    ((tick T w = .fail ∨ Cut w) ∧ ∃ e, Ends (process T) r (.error (e, w.events))) ∨
    (Stuck w ∧ ¬ Halts (process T) r) ∨
    (tick T w = .wait ∧ ¬ Cut w ∧ ¬ Stuck w ∧ ∃ r', Ends (process T) r (.ok (true, r')) ∧
      Reaches T r r' ∧ Reaches T r' w ∧ r'.events = w.events) := by
  induction hn : r.buf.length using Nat.strong_induction_on generalizing r with
  | _ n ih =>
    cases passSpec T hr with
    | rest v hends hv hwait hcut hstuck hev =>
      obtain rfl := hv.rest_unique hw (Incremental.rests_of_wait hwait) hrest
      exact .inr (.inr ⟨hwait, hcut, hstuck, r, hends.done, .refl r, hv, hev.symm⟩)
    | throws v e hends hv hfail hev =>
      have hrv : (machine T).Rests v := by
        rcases hfail with hfail | ⟨hwait, -⟩
        · exact Incremental.rests_of_fail hfail
        · exact Incremental.rests_of_wait hwait
      obtain rfl := hv.rest_unique hw hrv hrest
      refine .inl ⟨hfail.imp_right And.right, e, ?_⟩
      rw [hev]
      exact hends.done
    | again r' hends hreach hmoved =>
      have hne : r ≠ r' := by
        rintro rfl
        omega
      have hlt : r'.buf.length < n := hn ▸ hreach.size_lt hne
      have hagain : ∀ x, Ends (process T) r' x → Ends (process T) r x :=
        fun x hx => hends.again (fuelMono_processPass T) hx
      rcases ih r'.buf.length hlt (state_ne_end_of_reaches hreach hr) (hreach.to_rest hw hrest)
        rfl with ⟨hfail, e, he⟩ | ⟨hstuck, hhalt⟩ | ⟨hwait, hcut, hstuck, r'', he, h1, h2, hev⟩
      · exact .inl ⟨hfail, e, hagain _ he⟩
      · refine .inr (.inl ⟨hstuck, ?_⟩)
        rintro ⟨x, hx⟩
        rcases hx.cases with hdone | ⟨r'', hr'', hx'⟩
        · cases hends.unique (fuelMono_processPass T) hdone
        · cases hends.unique (fuelMono_processPass T) hr''
          exact hhalt ⟨x, hx'⟩
      · exact .inr (.inr ⟨hwait, hcut, hstuck, r'', hagain _ he, hreach.trans h1, h2, hev⟩)
    | hangs v hends hv hstuck =>
      obtain rfl := hv.rest_unique hw (Incremental.rests_of_wait (tick_of_stuck hstuck)) hrest
      refine .inr (.inl ⟨hstuck, ?_⟩)
      rintro ⟨x, hx⟩
      rcases hx.cases with hdone | ⟨r'', hr'', -⟩
      · exact hends _ hdone
      · exact hends _ hr''

end Blacklink.Xml
