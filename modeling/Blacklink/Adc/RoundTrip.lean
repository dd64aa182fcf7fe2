import Blacklink.Adc.AdcCommand

/-!
# Commands survive their text

The header's SIDs and the parameters are one list of fields to the parser, each introduced by a
space. A field's escape has no space of its own and is undone character by character, so the fields
come back one by one (`parse_toString`).
-/

namespace Blacklink.Adc
namespace AdcCommand

/-! ### SIDs -/

theorem toSID_fromSID (sid : UInt32) : toSID (fromSID sid) = sid := by
  apply UInt32.toNat.inj
  have hlt := UInt32.toNat_lt sid
  simp only [toSID, fromSID, UInt32.toNat_ofNat', UInt8.toNat_ofNat']
  omega

/-- A character of the base 32 alphabet, in either case. -/
def IsBase32 (c : UInt8) : Prop :=
  'A'.toUInt8 ≤ c ∧ c ≤ 'Z'.toUInt8 ∨ 'a'.toUInt8 ≤ c ∧ c ≤ 'z'.toUInt8 ∨
    '2'.toUInt8 ≤ c ∧ c ≤ '7'.toUInt8

/-- A SID of four base 32 characters. -/
def IsSID (sid : UInt32) : Prop := ∀ c ∈ fromSID sid, IsBase32 c

/-- A letter. -/
def IsLetter (c : UInt8) : Prop :=
  'A'.toUInt8 ≤ c ∧ c ≤ 'Z'.toUInt8 ∨ 'a'.toUInt8 ≤ c ∧ c ≤ 'z'.toUInt8

instance (c : UInt8) : Decidable (IsBase32 c) := inferInstanceAs (Decidable (_ ∨ _))

instance (c : UInt8) : Decidable (IsLetter c) := inferInstanceAs (Decidable (_ ∨ _))

instance (sid : UInt32) : Decidable (IsSID sid) := List.decidableBAll IsBase32 (fromSID sid)

private theorem plain_of_base32 {c : UInt8} (h : IsBase32 c) :
    c ≠ ' '.toUInt8 ∧ c ≠ '\n'.toUInt8 ∧ c ≠ '\\'.toUInt8 ∧ c ≠ 0 := by
  refine ⟨?_, ?_, ?_, ?_⟩ <;>
  · rintro rfl
    exact absurd h (by decide)

private theorem plain_of_letter {c : UInt8} (h : IsLetter c) : c ≠ '\n'.toUInt8 ∧ c ≠ 0 := by
  refine ⟨?_, ?_⟩ <;>
  · rintro rfl
    exact absurd h (by decide)

private theorem sid_ne_zero {sid : UInt32} (h : IsSID sid) : sid ≠ 0 := by
  rintro rfl
  exact absurd h (by decide)

/-! ### Escapes -/

private theorem escape_plain {s : List UInt8}
    (h : ∀ c ∈ s, c ≠ ' '.toUInt8 ∧ c ≠ '\n'.toUInt8 ∧ c ≠ '\\'.toUInt8) : escape false s = s := by
  induction s with
  | nil => rfl
  | cons c s ih =>
    obtain ⟨h1, h2, h3⟩ := h c List.mem_cons_self
    rw [escape, if_neg (by simp [h1, h2, h3]), ih fun d hd => h d (List.mem_cons_of_mem _ hd)]

theorem newline_not_mem_escape (s : List UInt8) : '\n'.toUInt8 ∉ escape false s := by
  induction s with
  | nil => exact List.not_mem_nil
  | cons c s ih =>
    rw [escape]
    split
    · have htwo : ∀ a b : UInt8, '\n'.toUInt8 ≠ a → '\n'.toUInt8 ≠ b →
          '\n'.toUInt8 ∉ a :: b :: escape false s := by
        intro a b ha hb hmem
        rcases List.mem_cons.mp hmem with heq | hmem
        · exact ha heq
        · rcases List.mem_cons.mp hmem with heq | hmem
          · exact hb heq
          · exact ih hmem
      simp only [Bool.false_eq_true, if_false]
      split
      · exact htwo _ _ (by decide) (by decide)
      · split
        · exact htwo _ _ (by decide) (by decide)
        · exact htwo _ _ (by decide) (by decide)
    · next hc =>
      rw [List.mem_cons, not_or]
      exact ⟨fun heq => hc (.inr (.inl heq.symm)), ih⟩

attribute [local simp] parseLoop

theorem parseLoop_plain {nmdc : Bool} {st : ParseState} {c : UInt8} {rest : List UInt8}
    (hslash : c ≠ '\\'.toUInt8) (hspace : c ≠ ' '.toUInt8) :
    parseLoop nmdc st (c :: rest) = parseLoop nmdc { st with cur := st.cur ++ [c] } rest := by
  cases rest <;> simp only [parseLoop, hslash, hspace, if_false]

theorem parseLoop_space (nmdc : Bool) (st : ParseState) (rest : List UInt8) :
    parseLoop nmdc st (' '.toUInt8 :: rest) =
      match takeParam st with
      | .error e => .error e
      | .ok st => parseLoop nmdc st rest := by
  have hslash : ' '.toUInt8 ≠ '\\'.toUInt8 := by decide
  cases rest with
  | nil =>
    rewrite [parseLoop, if_neg hslash, if_pos rfl]
    cases takeParam st <;> rfl
  | cons c rest =>
    rewrite [parseLoop, if_neg hslash, if_pos rfl]
    cases takeParam st <;> rfl

/-- The loop undoes the escape of a field. -/
def Unescapes (nmdc : Bool) (p : List UInt8) : Prop :=
  ∀ (st : ParseState) (rest : List UInt8), parseLoop nmdc st (escape nmdc p ++ rest) =
    parseLoop nmdc { st with cur := st.cur ++ p } rest

theorem parseLoop_escape (p : List UInt8) : Unescapes false p := by
  intro st rest
  induction p generalizing st with
  | nil => simp [escape]
  | cons c p ih =>
    have hnext := ih { st with cur := st.cur ++ [c] }
    simp only [List.append_assoc, List.singleton_append] at hnext
    rw [escape, ← hnext]
    by_cases hspace : c = ' '.toUInt8
    · rw [if_pos (.inl hspace), hspace]
      rfl
    · by_cases hline : c = '\n'.toUInt8
      · rw [if_pos (.inr (.inl hline)), hline]
        rfl
      · by_cases hslash : c = '\\'.toUInt8
        · rw [if_pos (.inr (.inr hslash)), hslash]
          rfl
        · rw [if_neg (by simp [hspace, hline, hslash]), List.cons_append,
            parseLoop_plain hslash hspace]

/-! ### Fields -/

/-- The fields are taken one after the other. -/
def takeFields (st : ParseState) : List (List UInt8) → Except ParseError ParseState
  | [] => .ok st
  | p :: ps =>
    match takeParam { st with cur := p } with
    | .error e => .error e
    | .ok st => takeFields st ps

/-- A field leaves nothing in `cur`. -/
theorem takeParam_cur {st st' : ParseState} (h : takeParam st = .ok st') :
    st'.cur = [] := by
  rw [takeParam] at h
  split at h
  · split at h
    · cases h
    · cases h
      rfl
  · split at h
    · split at h
      · cases h
      · cases h
        rfl
    · split at h
      · split at h
        · cases h
        · cases h
          rfl
      · cases h
        rfl

/-- The loop on a field and those behind it, with what `parse` does at the end of the text. The last
field is not empty, so that it is not taken for the absence of one. -/
theorem parseLoop_fields {nmdc : Bool} (st : ParseState) (p : List UInt8) (ps : List (List UInt8))
    (hescape : ∀ q ∈ p :: ps, Unescapes nmdc q) (hcur : st.cur = [])
    (hlast : (p :: ps).getLast? ≠ some []) :
    (parseLoop nmdc st (escape nmdc p ++ paramsText nmdc ps)).bind
        (fun st => if st.cur = [] then .ok st else takeParam st) = takeFields st (p :: ps) := by
  have hfirst := hescape p List.mem_cons_self
  induction ps generalizing st p with
  | nil =>
    have hne : p ≠ [] := by
      rintro rfl
      exact hlast rfl
    rw [paramsText, List.flatMap_nil, hfirst, hcur, List.nil_append, parseLoop]
    simp only [Except.bind, hne, if_false, takeFields]
    cases takeParam { st with cur := p } <;> rfl
  | cons p' ps ih =>
    rw [paramsText, List.flatMap_cons, hfirst, hcur, List.nil_append, List.cons_append,
      parseLoop_space, takeFields]
    cases htake : takeParam { st with cur := p } with
    | error e => rfl
    | ok st' =>
      have hescape' := fun q hq => hescape q (List.mem_cons_of_mem p hq)
      refine ih st' p' hescape' (takeParam_cur htake) ?_ (hescape' p' List.mem_cons_self)
      simpa using hlast

/-- The header is complete: a field is a parameter. -/
theorem takeFields_parameters (st : ParseState) (ps : List (List UInt8))
    (hcur : st.cur = []) (hfrom : st.cmd.type.hasFrom = true → st.fromSet = true)
    (hto : st.cmd.type.hasTo = true → st.toSet = true) (hfeature : st.cmd.type ≠ .feature) :
    takeFields st ps =
      .ok { st with cmd := { st.cmd with parameters := st.cmd.parameters ++ ps } } := by
  induction ps generalizing st with
  | nil =>
    rw [takeFields, List.append_nil]
  | cons p ps ih =>
    have htake : takeParam { st with cur := p } = .ok
        { st with cmd := { st.cmd with parameters := st.cmd.parameters ++ [p] }, cur := [] } := by
      rw [takeParam]
      have h1 : (st.cmd.type.hasFrom && !st.fromSet) = false := by
        cases h : st.cmd.type.hasFrom with
        | false => rfl
        | true => simp [hfrom h]
      have h2 : (st.cmd.type.hasTo && !st.toSet) = false := by
        cases h : st.cmd.type.hasTo with
        | false => rfl
        | true => simp [hto h]
      simp [h1, h2, hfeature]
    have hnext := ih
      { st with cmd := { st.cmd with parameters := st.cmd.parameters ++ [p] }, cur := [] }
      rfl hfrom hto hfeature
    rw [takeFields, htake]
    simpa [hcur] using hnext

/-! ### The round trip -/

/-- The fields behind the command name: the SIDs of the header, then the parameters. -/
private def fields (c : AdcCommand) (sid : UInt32) : List (List UInt8) :=
  (if c.type.hasFrom then [fromSID sid] else []) ++
    (if c.type.hasTo then [fromSID c.target] else []) ++ c.parameters

/-- The SIDs of the header are base 32. -/
private def HasSIDs (c : AdcCommand) (sid : UInt32) : Prop :=
  (c.type.hasFrom = true → IsSID sid) ∧ (c.type.hasTo = true → IsSID c.target)

private theorem escape_sid {sid : UInt32} (h : IsSID sid) :
    escape false (fromSID sid) = fromSID sid := by
  apply escape_plain
  intro c hc
  obtain ⟨h1, h2, h3, _⟩ := plain_of_base32 (h c hc)
  exact ⟨h1, h2, h3⟩

private theorem cmdString_letters {c : AdcCommand} (h1 : IsLetter c.cmdChar.1)
    (h2 : IsLetter c.cmdChar.2.1) (h3 : IsLetter c.cmdChar.2.2) :
    c.cmdString = [c.cmdChar.1, c.cmdChar.2.1, c.cmdChar.2.2] := by
  simp [cmdString, (plain_of_letter h1).2, (plain_of_letter h2).2, (plain_of_letter h3).2]

/-- The text is the type, the name, the fields and the terminator. -/
private theorem toString_eq {c : AdcCommand} {sid : UInt32} (hfeature : c.type ≠ .feature)
    (h1 : IsLetter c.cmdChar.1) (h2 : IsLetter c.cmdChar.2.1) (h3 : IsLetter c.cmdChar.2.2)
    (hsid : HasSIDs c sid) :
    c.toString sid false =
      c.type.toChar :: c.cmdChar.1 :: c.cmdChar.2.1 :: c.cmdChar.2.2 ::
        paramsText false (fields c sid) ++ ['\n'.toUInt8] := by
  have hfrom : (if c.type.hasFrom then ' '.toUInt8 :: fromSID sid else []) =
      paramsText false (if c.type.hasFrom then [fromSID sid] else []) := by
    split
    · next h => simp [paramsText, escape_sid (hsid.1 h)]
    · rfl
  have hto : (if c.type.hasTo then ' '.toUInt8 :: fromSID c.target else []) =
      paramsText false (if c.type.hasTo then [fromSID c.target] else []) := by
    split
    · next h => simp [paramsText, escape_sid (hsid.2 h)]
    · rfl
  rw [toString, getHeaderString, getParamString, hfrom, hto, cmdString_letters h1 h2 h3, fields]
  simp [hfeature, paramsText]

private theorem newline_not_mem_paramsText (ps : List (List UInt8)) :
    '\n'.toUInt8 ∉ paramsText false ps := by
  intro h
  obtain ⟨p, _, hmem⟩ := List.mem_flatMap.mp h
  rcases List.mem_cons.mp hmem with heq | hmem
  · exact absurd heq (by decide)
  · exact newline_not_mem_escape p hmem

/-- `parse` behind the last field. -/
def complete (st : ParseState) : Except ParseError AdcCommand :=
  if st.cmd.type.hasFrom && !st.fromSet then .error .missingFromSid
  else if st.cmd.type = .feature ∧ st.featureSet = false then .error .missingFeature
  else if st.cmd.type.hasTo && !st.toSet then .error .missingToSid
  else .ok st.cmd

theorem parseEnd_eq (st : ParseState) :
    parseEnd st = (if st.cur = [] then .ok st else takeParam st).bind complete := by
  rw [parseEnd]
  split
  · rfl
  · cases takeParam st <;> rfl

private theorem ofChar_toChar (t : MessageType) : MessageType.ofChar t.toChar = some t := by
  cases t <;> rfl

/-- The state before the first field. -/
private def start (t : MessageType) (name : UInt8 × UInt8 × UInt8) : ParseState :=
  ⟨{ empty with type := t, cmdChar := name, sender := if t = .info then hubSID else 0 },
    [], false, false, false⟩

private theorem parse_fields (t : MessageType) (name : UInt8 × UInt8 × UInt8)
    (ps : List (List UInt8)) (hlast : ps.getLast? ≠ some []) :
    empty.parse (t.toChar :: name.1 :: name.2.1 :: name.2.2 :: paramsText false ps) false =
      (takeFields (start t name) ps).bind complete := by
  have hlen :
      ¬ (t.toChar :: name.1 :: name.2.1 :: name.2.2 :: paramsText false ps).length < 1 + 3 := by
    simp
  simp only [parse, Bool.false_eq_true, if_false, hlen, List.getD_cons_zero, ofChar_toChar]
  cases ps with
  | nil => rfl
  | cons p ps =>
    rw [← parseLoop_fields (start t name) p ps (fun q _ => parseLoop_escape q) rfl hlast]
    show (parseLoop false (start t name) (escape false p ++ paramsText false ps)).bind parseEnd = _
    cases parseLoop false (start t name) (escape false p ++ paramsText false ps) with
    | error e => rfl
    | ok st => exact parseEnd_eq st

/-- The state behind the SIDs of the header. -/
private def headed (c : AdcCommand) (sid : UInt32) : ParseState :=
  { start c.type c.cmdChar with
    cmd := { (start c.type c.cmdChar).cmd with
      sender := if c.type.hasFrom then sid else (start c.type c.cmdChar).cmd.sender
      target := if c.type.hasTo then c.target else 0 }
    fromSet := c.type.hasFrom
    toSet := c.type.hasTo }

private theorem takeFields_header {c : AdcCommand} {sid : UInt32} (hfeature : c.type ≠ .feature)
    (hsid : HasSIDs c sid) :
    takeFields (start c.type c.cmdChar) (fields c sid) =
      takeFields (headed c sid) c.parameters := by
  obtain ⟨hfrom, hto⟩ := hsid
  rw [fields, headed]
  have hlen : ∀ sid, toSID (fromSID sid) = sid := toSID_fromSID
  cases htype : c.type with
  | feature => exact absurd htype hfeature
  | broadcast =>
    rw [htype] at hfrom
    have hne := sid_ne_zero (hfrom rfl)
    simp [MessageType.hasFrom, MessageType.hasTo, takeFields, takeParam, start, hlen, hne, empty]
  | direct | echo =>
    rw [htype] at hfrom hto
    have hne := sid_ne_zero (hfrom rfl)
    have hne' := sid_ne_zero (hto rfl)
    simp [MessageType.hasFrom, MessageType.hasTo, takeFields, takeParam, start, hlen, hne, hne',
      empty]
  | client | info | hub | udp => rfl

/-- For a command that is neither a feature broadcast nor a datagram, with a name of three letters
and SIDs of base 32 characters, the text is one line, and parsing it gives the command back with the
SID it was written with. An empty parameter at the end would be lost. -/
theorem parse_toString (c : AdcCommand) (sid : UInt32)
    (htype : c.type ≠ .feature ∧ c.type ≠ .udp)
    (hname : IsLetter c.cmdChar.1 ∧ IsLetter c.cmdChar.2.1 ∧ IsLetter c.cmdChar.2.2)
    (hfrom : c.type.hasFrom = true → IsSID sid) (hto : c.type.hasTo = true → IsSID c.target)
    (hlast : c.parameters.getLast? ≠ some []) :
    ∃ text, c.toString sid false = text ++ ['\n'.toUInt8] ∧ '\n'.toUInt8 ∉ text ∧
      ∃ c', empty.parse text false = .ok c' ∧ c'.type = c.type ∧ c'.cmdChar = c.cmdChar ∧
        (c.type.hasFrom = true → c'.sender = sid) ∧
        (c.type.hasTo = true → c'.target = c.target) ∧ c'.parameters = c.parameters := by
  obtain ⟨h1, h2, h3⟩ := hname
  have hsid : HasSIDs c sid := ⟨hfrom, hto⟩
  refine ⟨_, toString_eq htype.1 h1 h2 h3 hsid, ?_, ?_⟩
  · have htype : '\n'.toUInt8 ≠ c.type.toChar := by
      cases c.type <;> decide
    simp only [List.mem_cons, not_or]
    exact ⟨htype, (plain_of_letter h1).1.symm, (plain_of_letter h2).1.symm,
      (plain_of_letter h3).1.symm, newline_not_mem_paramsText _⟩
  · have hfields : (fields c sid).getLast? ≠ some [] := by
      cases hps : c.parameters.getLast? with
      | some p =>
        rw [fields, List.getLast?_append, hps]
        rw [hps] at hlast
        exact hlast
      | none =>
        rw [fields, List.getLast?_append, hps]
        cases c.type <;> simp [MessageType.hasFrom, MessageType.hasTo, fromSID]
    rw [parse_fields _ _ _ hfields, takeFields_header htype.1 hsid,
      takeFields_parameters (headed c sid) c.parameters rfl id id htype.1]
    refine ⟨{ (headed c sid).cmd with parameters := c.parameters }, ?_, rfl, rfl, ?_, ?_, rfl⟩
    · simp [Except.bind, complete, headed, htype.1, start, empty]
    · intro h
      exact if_pos h
    · intro h
      exact if_pos h

/-- A direct message from `ABCD` to `2222` with parameters that need every escape. -/
def directMessage : AdcCommand :=
  ⟨.direct, ('M'.toUInt8, 'S'.toUInt8, 'G'.toUInt8), 0, 842150450, [],
    [[' '.toUInt8, '\\'.toUInt8], [], ['\n'.toUInt8]]⟩

theorem parse_toString_directMessage :
    ∃ text, directMessage.toString 1145258561 false = text ++ ['\n'.toUInt8] ∧
      '\n'.toUInt8 ∉ text ∧
      ∃ c', empty.parse text false = .ok c' ∧ c'.type = .direct ∧
        c'.cmdChar = directMessage.cmdChar ∧ c'.sender = 1145258561 ∧ c'.target = 842150450 ∧
        c'.parameters = directMessage.parameters := by
  obtain ⟨text, htext, hline, c', hparse, htype, hname, hsender, htarget, hparams⟩ :=
    parse_toString directMessage 1145258561 (by decide) (by decide) (by decide) (by decide)
      (by decide)
  exact ⟨text, htext, hline, c', hparse, htype, hname, hsender rfl, htarget rfl, hparams⟩

end AdcCommand
end Blacklink.Adc
