import Mathlib.Data.List.TakeWhile
import Blacklink.Adc.RoundTrip

/-!
# Commands between NMDC clients

`$ADC` commands (`client/AdcCommand.cpp:43-170, 182-268`, with `nmdc`). The old escape puts a
backslash before a space, a backslash and a newline. The parser takes the first two back and has no
case for the third: a parameter with a newline in it makes the command malformed.
-/

namespace Blacklink.Adc
namespace AdcCommand

/-! ### The old escape -/

private theorem escape_old_cons (c : UInt8) (s : List UInt8) :
    escape true (c :: s) =
      if c = ' '.toUInt8 ∨ c = '\n'.toUInt8 ∨ c = '\\'.toUInt8 then
        '\\'.toUInt8 :: c :: escape true s
      else c :: escape true s := rfl

/-- A backslash and what is behind it. -/
private theorem parseLoop_backslash (nmdc : Bool) (st : ParseState) (e : UInt8)
    (rest : List UInt8) :
    parseLoop nmdc st ('\\'.toUInt8 :: e :: rest) =
      match unescape nmdc e with
      | none => .error .escapeAtEol
      | some x => parseLoop nmdc { st with cur := st.cur ++ [x] } rest := by
  cases hchar : unescape nmdc e with
  | none => rw [parseLoop, if_pos rfl, hchar]
  | some x => rw [parseLoop, if_pos rfl, hchar]

/-- Without a newline the old escape is undone. -/
theorem parseLoop_escape_old {p : List UInt8} (h : '\n'.toUInt8 ∉ p) : Unescapes true p := by
  intro st rest
  induction p generalizing st with
  | nil =>
    rw [List.append_nil]
    rfl
  | cons c p ih =>
    rw [List.mem_cons, not_or] at h
    have hnext := ih h.2 { st with cur := st.cur ++ [c] }
    simp only [List.append_assoc, List.singleton_append] at hnext
    rw [escape_old_cons, ← hnext]
    by_cases hspace : c = ' '.toUInt8
    · rw [if_pos (.inl hspace), hspace, List.cons_append, List.cons_append, parseLoop_backslash]
      rfl
    · by_cases hslash : c = '\\'.toUInt8
      · rw [if_pos (.inr (.inr hslash)), hslash, List.cons_append, List.cons_append,
          parseLoop_backslash]
        rfl
      · have hplain : ¬ (c = ' '.toUInt8 ∨ c = '\n'.toUInt8 ∨ c = '\\'.toUInt8) := by
          rintro (h' | h' | h')
          · exact hspace h'
          · exact h.1 h'.symm
          · exact hslash h'
        rw [if_neg hplain, List.cons_append, parseLoop_plain hslash hspace]

/-- An escaped newline is not taken back. -/
theorem parseLoop_newline {p : List UInt8} (h : '\n'.toUInt8 ∈ p) (st : ParseState)
    (rest : List UInt8) :
    parseLoop true st (escape true p ++ rest) = .error .escapeAtEol := by
  induction p generalizing st with
  | nil => exact absurd h List.not_mem_nil
  | cons c p ih =>
    rw [escape_old_cons]
    by_cases hline : c = '\n'.toUInt8
    · rw [if_pos (.inr (.inl hline)), hline, List.cons_append, List.cons_append,
        parseLoop_backslash]
      rfl
    · have hp : '\n'.toUInt8 ∈ p := (List.mem_cons.mp h).resolve_left (Ne.symm hline)
      by_cases hspace : c = ' '.toUInt8
      · rw [if_pos (.inl hspace), hspace, List.cons_append, List.cons_append, parseLoop_backslash]
        exact ih hp _
      · by_cases hslash : c = '\\'.toUInt8
        · rw [if_pos (.inr (.inr hslash)), hslash, List.cons_append, List.cons_append,
            parseLoop_backslash]
          exact ih hp _
        · have hplain : ¬ (c = ' '.toUInt8 ∨ c = '\n'.toUInt8 ∨ c = '\\'.toUInt8) := by
            rintro (h' | h' | h')
            · exact hspace h'
            · exact hline h'
            · exact hslash h'
          rw [if_neg hplain, List.cons_append, parseLoop_plain hslash hspace]
          exact ih hp _

theorem mem_escape_old {c : UInt8} (hc : c ≠ '\\'.toUInt8) {p : List UInt8}
    (h : c ∈ escape true p) : c ∈ p := by
  induction p with
  | nil => exact h
  | cons d p ih =>
    rw [escape_old_cons] at h
    split at h
    · rcases List.mem_cons.mp h with heq | h
      · exact absurd heq hc
      · rcases List.mem_cons.mp h with heq | h
        · exact heq ▸ List.mem_cons_self
        · exact List.mem_cons_of_mem d (ih h)
    · rcases List.mem_cons.mp h with heq | h
      · exact heq ▸ List.mem_cons_self
      · exact List.mem_cons_of_mem d (ih h)

/-! ### The parameters -/

/-- The state before the parameters of a command with the name. -/
private def nmdcStart (name : UInt8 × UInt8 × UInt8) : ParseState :=
  ⟨{ empty with cmdChar := name }, [], true, false, false⟩

private theorem parse_nmdc (name : UInt8 × UInt8 × UInt8) (ps : List (List UInt8)) :
    empty.parse (['$'.toUInt8, 'A'.toUInt8, 'D'.toUInt8, 'C'.toUInt8, name.1, name.2.1,
        name.2.2] ++ paramsText true ps) true =
      (parseLoop true (nmdcStart name) ((paramsText true ps).drop 1)).bind parseEnd := by
  have hlength : ¬ (['$'.toUInt8, 'A'.toUInt8, 'D'.toUInt8, 'C'.toUInt8, name.1, name.2.1,
      name.2.2] ++ paramsText true ps).length < 4 + 3 := by
    simp
  unfold parse
  rw [if_pos rfl]
  dsimp only
  rw [if_neg hlength]
  rfl

/-- The fields behind the name are the parameters. -/
private theorem takeFields_nmdc (name : UInt8 × UInt8 × UInt8) (ps : List (List UInt8)) :
    (takeFields (nmdcStart name) ps).bind complete =
      .ok { empty with cmdChar := name, parameters := ps } := by
  rw [takeFields_parameters (nmdcStart name) ps rfl nofun nofun nofun]
  rfl

/-- A newline in one of the parameters is found. -/
private theorem parseLoop_params {st : ParseState} {p : List UInt8} {ps : List (List UInt8)}
    (htype : st.cmd.type = .client) (h : ∃ q ∈ p :: ps, '\n'.toUInt8 ∈ q) :
    parseLoop true st (escape true p ++ paramsText true ps) = .error .escapeAtEol := by
  induction ps generalizing st p with
  | nil =>
    obtain ⟨q, hq, hline⟩ := h
    rw [List.mem_singleton.mp hq] at hline
    exact parseLoop_newline hline st _
  | cons p' ps ih =>
    by_cases hline : '\n'.toUInt8 ∈ p
    · exact parseLoop_newline hline st _
    · obtain ⟨q, hq, hnew⟩ := h
      have hlater : ∃ q ∈ p' :: ps, '\n'.toUInt8 ∈ q := by
        rcases List.mem_cons.mp hq with rfl | hq
        · exact absurd hnew hline
        · exact ⟨q, hq, hnew⟩
      rw [parseLoop_escape_old hline, paramsText, List.flatMap_cons, List.cons_append,
        parseLoop_space, takeParam, if_neg, if_neg, if_neg]
      · exact ih htype hlater
      · rw [htype]
        simp
      · rw [htype]
        simp [MessageType.hasTo]
      · rw [htype]
        simp [MessageType.hasFrom]

/-- The text of a command with the parameters. -/
private def nmdcText (name : UInt8 × UInt8 × UInt8) (ps : List (List UInt8)) : List UInt8 :=
  ['$'.toUInt8, 'A'.toUInt8, 'D'.toUInt8, 'C'.toUInt8, name.1, name.2.1, name.2.2] ++
    paramsText true ps

private theorem toString_nmdc {c : AdcCommand} (sid : UInt32) (htype : c.type = .client)
    (hname : ∀ x ∈ [c.cmdChar.1, c.cmdChar.2.1, c.cmdChar.2.2], x ≠ 0) :
    c.toString sid true = nmdcText c.cmdChar c.parameters ++ ['|'.toUInt8] := by
  have hstring : c.cmdString = [c.cmdChar.1, c.cmdChar.2.1, c.cmdChar.2.2] := by
    rw [cmdString, List.takeWhile_eq_self_iff]
    exact fun x hx => decide_eq_true (hname x hx)
  rw [toString, getHeaderString, getParamString, hstring, htype]
  rw [if_pos rfl, if_pos rfl, if_neg (by decide), if_neg (by decide), if_neg (by decide), nmdcText,
    List.append_nil, List.append_nil, List.append_nil, List.append_assoc, List.append_assoc]
  rfl

private theorem parse_nmdcText {name : UInt8 × UInt8 × UInt8} {ps : List (List UInt8)}
    (hlast : ps.getLast? ≠ some []) (hline : ∀ p ∈ ps, '\n'.toUInt8 ∉ p) :
    empty.parse (nmdcText name ps) true = .ok { empty with cmdChar := name, parameters := ps } := by
  rw [nmdcText, parse_nmdc, ← takeFields_nmdc]
  cases ps with
  | nil => rfl
  | cons p ps =>
    have hescape : ∀ q ∈ p :: ps, Unescapes true q := fun q hq => parseLoop_escape_old (hline q hq)
    rw [← parseLoop_fields (nmdcStart name) p ps hescape rfl hlast]
    show (parseLoop true (nmdcStart name) (escape true p ++ paramsText true ps)).bind parseEnd = _
    cases parseLoop true (nmdcStart name) (escape true p ++ paramsText true ps) with
    | error e => rfl
    | ok st => exact parseEnd_eq st

private theorem parse_nmdcText_newline {name : UInt8 × UInt8 × UInt8} {ps : List (List UInt8)}
    (hline : ∃ p ∈ ps, '\n'.toUInt8 ∈ p) :
    empty.parse (nmdcText name ps) true = .error .escapeAtEol := by
  rw [nmdcText, parse_nmdc]
  cases ps with
  | nil =>
    obtain ⟨p, hp, -⟩ := hline
    exact absurd hp List.not_mem_nil
  | cons p ps =>
    show (parseLoop true (nmdcStart name) (escape true p ++ paramsText true ps)).bind parseEnd = _
    rw [parseLoop_params rfl hline]
    rfl

private theorem bar_not_mem_nmdcText {name : UInt8 × UInt8 × UInt8} {ps : List (List UInt8)}
    (hname : ∀ x ∈ [name.1, name.2.1, name.2.2], x ≠ '|'.toUInt8)
    (hbar : ∀ p ∈ ps, '|'.toUInt8 ∉ p) : '|'.toUInt8 ∉ nmdcText name ps := by
  intro h
  rcases List.mem_append.mp h with h | h
  · have hprefix : '|'.toUInt8 ∈ [name.1, name.2.1, name.2.2] := by
      have hdecide : '|'.toUInt8 ∉ ['$'.toUInt8, 'A'.toUInt8, 'D'.toUInt8, 'C'.toUInt8] := by
        decide
      exact (List.mem_append.mp
        (h : _ ∈ ['$'.toUInt8, 'A'.toUInt8, 'D'.toUInt8, 'C'.toUInt8] ++ _)).resolve_left hdecide
    exact hname _ hprefix rfl
  · obtain ⟨p, hp, h⟩ := List.mem_flatMap.mp h
    rcases List.mem_cons.mp h with heq | h
    · exact absurd heq (by decide)
    · exact hbar p hp (mem_escape_old (by decide) h)

/-- The command comes back from its text without the `|` that ends it. -/
def ComesBack (c : AdcCommand) (sid : UInt32) : Prop :=
  ∃ text, c.toString sid true = text ++ ['|'.toUInt8] ∧ '|'.toUInt8 ∉ text ∧
    ∃ c', empty.parse text true = .ok c' ∧ c'.type = c.type ∧ c'.cmdChar = c.cmdChar ∧
      c'.parameters = c.parameters

/-- A command to another client comes back exactly when there is no newline in its parameters. -/
theorem comesBack_iff (c : AdcCommand) (sid : UInt32) (htype : c.type = .client)
    (hname : ∀ x ∈ [c.cmdChar.1, c.cmdChar.2.1, c.cmdChar.2.2], x ≠ 0 ∧ x ≠ '|'.toUInt8)
    (hbar : ∀ p ∈ c.parameters, '|'.toUInt8 ∉ p) (hlast : c.parameters.getLast? ≠ some []) :
    c.ComesBack sid ↔ ∀ p ∈ c.parameters, '\n'.toUInt8 ∉ p := by
  have htext := toString_nmdc sid htype fun x hx => (hname x hx).1
  constructor
  · rintro ⟨text, heq, -, c', hparse, -⟩ p hp hline
    rw [htext] at heq
    rw [← List.append_cancel_right heq, parse_nmdcText_newline ⟨p, hp, hline⟩] at hparse
    cases hparse
  · intro hline
    refine ⟨_, htext, bar_not_mem_nmdcText (fun x hx => (hname x hx).2) hbar, _,
      parse_nmdcText hlast hline, htype.symm, rfl, rfl⟩

/-- A request for the file with the path. -/
def getCommand (path : List UInt8) : AdcCommand :=
  ⟨.client, ('G'.toUInt8, 'E'.toUInt8, 'T'.toUInt8), 0, 0, [],
    ["file".toList.map Char.toUInt8, path, ['0'.toUInt8], ['-'.toUInt8, '1'.toUInt8]]⟩

set_option maxRecDepth 2000 in
/-- A path with a space and a backslash comes back. -/
theorem comesBack_path : (getCommand ['a'.toUInt8, ' '.toUInt8, '\\'.toUInt8]).ComesBack 0 :=
  (comesBack_iff (getCommand ['a'.toUInt8, ' '.toUInt8, '\\'.toUInt8]) 0 rfl
    (by decide) (by decide) (by decide)).mpr (by decide)

/-- A path with a newline, as a file may have it, does not come back. -/
theorem not_comesBack_newline : ¬ (getCommand ['a'.toUInt8, '\n'.toUInt8]).ComesBack 0 := by
  rintro ⟨text, heq, -, c', hparse, -⟩
  have htext : text = ((getCommand ['a'.toUInt8, '\n'.toUInt8]).toString 0 true).dropLast := by
    rw [heq, List.dropLast_concat]
  have herror : empty.parse ((getCommand ['a'.toUInt8, '\n'.toUInt8]).toString 0 true).dropLast
      true = .error .escapeAtEol := by
    decide +kernel
  rw [htext, herror] at hparse
  cases hparse

end AdcCommand
end Blacklink.Adc
