import Blacklink.Json.JsonParser

/-!
# The text in pieces

`process` may be given the text in any pieces: it does what it does when it is given one character
at a time. The part of a token that is in the buffer, from `tokenStart` on, stands for the same
characters at the end of `token`.
-/

namespace Blacklink.Json

open Blacklink.Text

/-! ### Parts of tokens -/

theorem slice_self (data : List UInt8) (n : Nat) : slice data n n = [] := by
  rw [slice, Nat.sub_self, List.take_zero]

theorem slice_length (data : List UInt8) (n : Nat) : slice data n data.length = data.drop n := by
  rw [slice, ← List.length_drop, List.take_length]

theorem slice_succ {data : List UInt8} {start pos : Nat} {c : UInt8} (h : start ≤ pos)
    (hc : data[pos]? = some c) : slice data start (pos + 1) = slice data start pos ++ [c] := by
  have hsub : pos + 1 - start = (pos - start) + 1 := by omega
  have hget : (data.drop start)[pos - start]? = some c := by
    rw [List.getElem?_drop, Nat.add_sub_cancel' h, hc]
  rw [slice, slice, hsub, List.take_add_one, hget]
  rfl

/-- The parser with the part of its token that is in the buffer. -/
def Parser.held (p : Parser) (data : List UInt8) (start pos : Nat) : Parser :=
  { p with token := if p.state.hasToken then p.token ++ slice data start pos else p.token }

theorem held_of_not_hasToken {p : Parser} (h : p.state.hasToken = false) (data : List UInt8)
    (start pos : Nat) : p.held data start pos = p := by
  rw [Parser.held, h]
  rfl

/-- What is seen of a state's work on a character: of an error, the code and the calls; else the
parser with its token, and whether the character is looked at again. -/
def moved (data : List UInt8) (pos : Nat) :
    Result Move → Except (JsonError × List Call) (Bool × Parser)
  | .error e => .error (e.1, e.2.calls)
  | .ok (.next p start) => .ok (false, p.held data start pos)
  | .ok (.again p) => .ok (true, p)

section Switch

variable {cb : Listener} {data : List UInt8} {start pos : Nat} {c : UInt8} {p : Parser}

private theorem slice_zero (data : List UInt8) : slice data 0 0 = [] := slice_self data 0

/-- A character that is part of the token. -/
private theorem moved_inside (hc : data[pos]? = some c) (hstart : start ≤ pos)
    (hstate : p.state.hasToken = true) (flags : BitVec 8) :
    moved data (pos + 1) (.ok (.next { p with stateFlags := flags } start)) =
      moved [c] 1 (.ok (.next { p.held data start pos with stateFlags := flags } 0)) := by
  have hslice : slice [c] 0 1 = [c] := rfl
  simp only [moved, Parser.held, hstate, if_true, slice_succ hstart hc, hslice, List.append_assoc]

/-- The end of a token. -/
private theorem moved_end (x : Result Parser) (f : Parser → Parser)
    (hf : ∀ p, (f p).state = .whitespace) (data' : List UInt8) (pos pos' : Nat) :
    moved data pos (match x with
      | .error e => .error e
      | .ok p => .ok (.next (f p) 0)) =
    moved data' pos' (match x with
      | .error e => .error e
      | .ok p => .ok (.next (f p) 0)) := by
  cases x with
  | error e => rfl
  | ok p =>
    have htoken : (f p).state.hasToken = false := by rw [hf]; rfl
    simp only [moved, held_of_not_hasToken htoken]

private theorem moved_again (x : Result Parser) (data' : List UInt8) (pos pos' : Nat) :
    moved data pos (match x with
      | .error e => .error e
      | .ok p => .ok (.again { p with state := .whitespace })) =
    moved data' pos' (match x with
      | .error e => .error e
      | .ok p => .ok (.again { p with state := .whitespace })) := by
  cases x <;> rfl

theorem moved_caseString (hc : data[pos]? = some c) (hstart : start ≤ pos)
    (hstate : p.state = .string) :
    moved data (pos + 1) (caseString cb data start pos c p) =
      moved [c] 1 (caseString cb [c] 0 0 c (p.held data start pos)) := by
  have htoken : p.state.hasToken = true := by rw [hstate]; rfl
  have hhandle : handleString cb [c] 0 0 (p.held data start pos) =
      handleString cb data start pos p := by
    simp only [handleString, Parser.held, htoken, if_true, slice_zero, List.append_nil]
  simp only [caseString, hhandle, show (p.held data start pos).stateFlags = p.stateFlags from rfl]
  split
  · split
    · exact moved_inside hc hstart htoken _
    · exact moved_end _ (fun p => { p with state := .whitespace }) (fun _ => rfl) _ _ _
  · split
    · rfl
    · split
      · exact moved_inside hc hstart htoken _
      · exact moved_inside hc hstart htoken _

private theorem handleNumber_held (hstate : p.state.hasToken = true) :
    handleNumber cb [c] 0 0 (p.held data start pos) = handleNumber cb data start pos p ∨
      handleNumber cb [c] 0 0 (p.held data start pos) =
          .error (.invalidNumber, p.held data start pos) ∧
        handleNumber cb data start pos p = .error (.invalidNumber, p) := by
  by_cases hwant : p.stateFlags &&& (flagWantDigit ||| flagWantExpDigit ||| flagWantFracDigit) ≠ 0
  · exact .inr ⟨if_pos hwant, if_pos hwant⟩
  · refine .inl ((if_neg hwant).trans (Eq.trans ?_ (if_neg hwant).symm))
    simp only [Parser.held, hstate, if_true, slice_zero, List.append_nil]

/-- The end of a number, seen from the buffer and from the token. -/
private theorem moved_handleNumber (hstate : p.state.hasToken = true) (f : Parser → Move)
    (hf : ∀ p data' pos', moved data (pos + 1) (.ok (f p)) = moved data' pos' (.ok (f p))) :
    moved data (pos + 1) (match handleNumber cb data start pos p with
      | .error e => .error e
      | .ok p => .ok (f p)) =
    moved [c] 1 (match handleNumber cb [c] 0 0 (p.held data start pos) with
      | .error e => .error e
      | .ok p => .ok (f p)) := by
  rcases handleNumber_held hstate with heq | ⟨hheld, hbuf⟩
  · rw [heq]
    cases handleNumber cb data start pos p with
    | error e => rfl
    | ok p => exact hf p [c] 1
  · rw [hheld, hbuf]
    rfl

theorem moved_caseNumber (hc : data[pos]? = some c) (hstart : start ≤ pos)
    (hstate : p.state = .number) :
    moved data (pos + 1) (caseNumber cb data start pos c p) =
      moved [c] 1 (caseNumber cb [c] 0 0 c (p.held data start pos)) := by
  have htoken : p.state.hasToken = true := by rw [hstate]; rfl
  simp only [caseNumber, show (p.held data start pos).stateFlags = p.stateFlags from rfl]
  split
  · split
    · rfl
    · exact moved_inside hc hstart htoken _
  split
  · split
    · rfl
    · exact moved_inside hc hstart htoken _
  split
  · split
    · rfl
    · exact moved_inside hc hstart htoken _
  split
  · exact moved_inside hc hstart htoken _
  split
  · exact moved_handleNumber htoken (fun p => .next { p with state := .whitespace } 0)
      fun _ _ _ => rfl
  split
  · exact moved_handleNumber htoken (fun p => .again { p with state := .whitespace })
      fun _ _ _ => rfl
  · rfl

theorem moved_caseKeyword (hc : data[pos]? = some c) (hstart : start ≤ pos)
    (hstate : p.state = .keyword) :
    moved data (pos + 1) (caseKeyword cb data start pos c p) =
      moved [c] 1 (caseKeyword cb [c] 0 0 c (p.held data start pos)) := by
  have htoken : p.state.hasToken = true := by rw [hstate]; rfl
  have hhandle : handleKeyword cb [c] 0 0 (p.held data start pos) =
      handleKeyword cb data start pos p := by
    simp only [handleKeyword, Parser.held, htoken, if_true, slice_zero, List.append_nil]
  simp only [caseKeyword, hhandle]
  split
  · exact moved_end _ (fun p => { p with state := .whitespace }) (fun _ => rfl) _ _ _
  split
  · exact moved_again _ _ _ _
  · exact moved_inside hc hstart htoken p.stateFlags

theorem moved_caseComment (hc : data[pos]? = some c) (hstart : start ≤ pos)
    (hstate : p.state = .comment) :
    moved data (pos + 1) (caseComment cb data start pos c p) =
      moved [c] 1 (caseComment cb [c] 0 0 c (p.held data start pos)) := by
  have htoken : p.state.hasToken = true := by rw [hstate]; rfl
  have hhandle : ∀ flag, endComment cb [c] 0 0 flag (p.held data start pos) =
      endComment cb data start pos flag p := by
    intro flag
    simp only [endComment, handleComment, Parser.held, htoken, if_true, slice_zero,
      List.append_nil]
  have hend : ∀ flag, moved data (pos + 1) (endComment cb data start pos flag p) =
      moved [c] 1 (endComment cb data start pos flag p) :=
    fun flag => moved_end _ _ (fun _ => rfl) _ _ _
  simp only [caseComment, hhandle,
    show (p.held data start pos).stateFlags = p.stateFlags from rfl]
  split
  · split
    · exact moved_inside hc hstart htoken _
    split
    · exact moved_inside hc hstart htoken _
    · exact moved_inside hc hstart htoken p.stateFlags
  split
  · split
    · exact moved_inside hc hstart htoken _
    split
    · exact hend _
    · exact moved_inside hc hstart htoken p.stateFlags
  split
  · split
    · rfl
    split
    · exact hend _
    · exact moved_inside hc hstart htoken _
  split
  · rfl
  · exact moved_inside hc hstart htoken _

/-! ### Between tokens -/

private theorem state_call {call : Call} {p' : Parser} (h : p.call cb call = .ok p') :
    p'.state = p.state := by
  rw [Parser.call] at h
  split at h
  · cases h
    rfl
  · cases h

theorem state_onAnyValue {value : List UInt8} {type : ValueType} {p' : Parser}
    (h : p.onAnyValue cb value type = .ok p') : p'.state = p.state := by
  rw [Parser.onAnyValue] at h
  split at h
  · split at h
    · cases h
    · next p₁ hcall =>
      cases h
      exact (state_call hcall : p₁.state = p.state)
  · exact state_call h

theorem state_beginStructure {type : ValueType} {p' : Parser}
    (h : beginStructure cb type p = .ok p') : p'.state = p.state := by
  rw [beginStructure] at h
  split at h
  · cases h
  split at h
  · cases h
  · next p₁ hvalue =>
    cases h
    exact (state_onAnyValue hvalue : p₁.state = p.state)

theorem state_endStructure {type : ValueType} {p' : Parser}
    (h : endStructure cb type p = .ok p') : p'.state = p.state := by
  rw [endStructure] at h
  split at h
  · cases h
  split at h
  · cases h
  · next p₁ hcall =>
    cases h
    exact (state_call hcall : p₁.state = p.state)

/-- What is seen of `STATE_WHITESPACE`'s work on a character. -/
def taken (data : List UInt8) (pos : Nat) :
    Result (Parser × Nat) → Except (JsonError × List Call) Parser
  | .error e => .error (e.1, e.2.calls)
  | .ok (p, start) => .ok (p.held data start pos)

private theorem taken_ite {cond : Prop} [Decidable cond] {x y x' y' : Result (Parser × Nat)}
    {data' : List UInt8} {pos' : Nat} (hx : taken data pos x = taken data' pos' x')
    (hy : taken data pos y = taken data' pos' y') :
    taken data pos (if cond then x else y) = taken data' pos' (if cond then x' else y') := by
  split
  · exact hx
  · exact hy

private theorem taken_whitespace (x : Result Parser) (start start' pos pos' : Nat)
    (data' : List UInt8) :
    (∀ p', x = .ok p' → p'.state = .whitespace) →
    taken data pos (match x with
      | .error e => .error e
      | .ok p => .ok (p, start)) =
    taken data' pos' (match x with
      | .error e => .error e
      | .ok p => .ok (p, start')) := by
  intro h
  cases x with
  | error e => rfl
  | ok p =>
    have htoken : p.state.hasToken = false := by rw [h p rfl]; rfl
    simp only [taken, held_of_not_hasToken htoken]

private theorem taken_closing (hstate : p.state = .whitespace) {type : ValueType} {other : Expect}
    (start start' pos pos' : Nat) (data' : List UInt8) :
    taken data pos (closing cb type other start p) =
      taken data' pos' (closing cb type other start' p) := by
  simp only [closing]
  split
  · rfl
  split
  · rfl
  split
  · rfl
  · exact taken_whitespace _ _ _ _ _ _ fun p' hp' => (state_endStructure hp').trans hstate

theorem taken_caseWhitespace (hc : data[pos]? = some c) (hstate : p.state = .whitespace)
    (start start' : Nat) :
    taken data (pos + 1) (caseWhitespace cb start pos c p) =
      taken [c] 1 (caseWhitespace cb start' 0 c p) := by
  have hsame : ∀ p' : Parser, p'.state = .whitespace → ∀ start start',
      taken data (pos + 1) (.ok (p', start)) = taken [c] 1 (.ok (p', start')) := by
    intro p' hp' start start'
    refine taken_whitespace (.ok p') start start' _ _ _ fun p'' hp'' => ?_
    cases hp''
    exact hp'
  have hhere : ∀ p' : Parser,
      taken data (pos + 1) (.ok (p', pos)) = taken [c] 1 (.ok (p', 0)) := by
    intro p'
    have hslice : slice [c] 0 1 = [c] := rfl
    simp only [taken, Parser.held, slice_succ (Nat.le_refl pos) hc, slice_self, hslice]
    rfl
  have hbehind : ∀ p' : Parser,
      taken data (pos + 1) (.ok (p', pos + 1)) = taken [c] 1 (.ok (p', 0 + 1)) := by
    intro p'
    simp only [taken, Parser.held, slice_self]
  have hbegin : taken data (pos + 1)
      (match beginStructure cb (if c = '['.toUInt8 then .array else .object) p with
        | .error e => .error e
        | .ok p => .ok (p, start)) =
      taken [c] 1 (match beginStructure cb (if c = '['.toUInt8 then .array else .object) p with
        | .error e => .error e
        | .ok p => .ok (p, start')) :=
    taken_whitespace _ _ _ _ _ _ fun p' hp' => (state_beginStructure hp').trans hstate
  refine taken_ite (taken_ite rfl (taken_ite rfl (hbehind _))) ?_
  refine taken_ite (taken_ite rfl (taken_ite rfl (taken_ite rfl (hhere _)))) ?_
  refine taken_ite (taken_ite rfl (taken_ite rfl (taken_ite rfl (hhere _)))) ?_
  refine taken_ite
    (taken_ite (hsame _ (by exact hstate) _ _) (taken_ite (hsame _ (by exact hstate) _ _) rfl)) ?_
  refine taken_ite (taken_ite rfl (hsame _ (by exact hstate) _ _)) ?_
  refine taken_ite (taken_ite rfl (taken_ite rfl (taken_ite rfl hbegin))) ?_
  refine taken_ite (taken_closing hstate _ _ _ _ _) ?_
  refine taken_ite (taken_closing hstate _ _ _ _ _) ?_
  exact taken_ite (hsame _ (by exact hstate) _ _) (taken_ite (hbehind _) rfl)

/-- A character in the buffer, and the same character alone. -/
theorem moved_switch (hc : data[pos]? = some c) (hstart : start ≤ pos) :
    moved data (pos + 1) (switch cb data start pos c p) =
      moved [c] 1 (switch cb [c] 0 0 c (p.held data start pos)) := by
  have hheld : (p.held data start pos).state = p.state := rfl
  cases hstate : p.state with
  | whitespace =>
    have htoken : p.state.hasToken = false := by rw [hstate]; rfl
    have htaken : taken data (pos + 1) (caseWhitespace cb start pos c p) =
        taken [c] 1 (caseWhitespace cb 0 0 c p) := taken_caseWhitespace hc hstate start 0
    rw [held_of_not_hasToken htoken]
    simp only [switch, hstate]
    cases h : caseWhitespace cb start pos c p with
    | error e =>
      cases h' : caseWhitespace cb 0 0 c p with
      | error e' =>
        rw [h, h'] at htaken
        simp only [taken, Except.error.injEq] at htaken
        simp only [moved, htaken]
      | ok x =>
        rw [h, h'] at htaken
        cases htaken
    | ok x =>
      cases h' : caseWhitespace cb 0 0 c p with
      | error e' =>
        rw [h, h'] at htaken
        cases htaken
      | ok x' =>
        rw [h, h'] at htaken
        simp only [taken, Except.ok.injEq] at htaken
        simp only [moved, htaken]
  | error =>
    simp only [switch, hheld, hstate]
    rfl
  | string =>
    simp only [switch, hheld, hstate]
    exact moved_caseString hc hstart hstate
  | number =>
    simp only [switch, hheld, hstate]
    exact moved_caseNumber hc hstart hstate
  | keyword =>
    simp only [switch, hheld, hstate]
    exact moved_caseKeyword hc hstart hstate
  | comment =>
    simp only [switch, hheld, hstate]
    exact moved_caseComment hc hstart hstate

/-! ### Where the token is -/

/-- The token does not begin behind the character, and a character is looked at again in
`STATE_WHITESPACE` only. -/
def Proper (pos : Nat) (x : Result Move) : Prop :=
  match x with
  | .error _ => True
  | .ok (.next _ start) => start ≤ pos + 1
  | .ok (.again p) => p.state = .whitespace

private theorem proper_ite {cond : Prop} [Decidable cond] {x y : Result Move} (hx : Proper pos x)
    (hy : Proper pos y) : Proper pos (if cond then x else y) := by
  split
  · exact hx
  · exact hy

private theorem proper_match (x : Result Parser) (f : Parser → Move)
    (hf : ∀ p, Proper pos (.ok (f p))) :
    Proper pos (match x with
      | .error e => .error e
      | .ok p => .ok (f p)) := by
  cases x with
  | error e => exact trivial
  | ok p => exact hf p

private theorem start_caseWhitespace {p' : Parser} {start' : Nat} (hstart : start ≤ pos)
    (h : caseWhitespace cb start pos c p = .ok (p', start')) : start' ≤ pos + 1 := by
  have hmatch : ∀ {x : Result Parser}, (match x with
      | .error e => Except.error e
      | .ok p => .ok (p, start)) = Except.ok (p', start') → start' = start := by
    intro x hx
    cases x with
    | error e => cases hx
    | ok p => cases hx; rfl
  have hclosing : ∀ {type other}, closing cb type other start p = .ok (p', start') →
      start' = start := by
    intro type other hx
    simp only [closing] at hx
    split at hx
    · cases hx
    split at hx
    · cases hx
    split at hx
    · cases hx
    · exact hmatch hx
  have hite : ∀ {cond : Prop} [Decidable cond] {x y : Result (Parser × Nat)},
      (x = .ok (p', start') → start' ≤ pos + 1) → (y = .ok (p', start') → start' ≤ pos + 1) →
      (if cond then x else y) = .ok (p', start') → start' ≤ pos + 1 := by
    intro cond _ x y hx hy hxy
    split at hxy
    · exact hx hxy
    · exact hy hxy
  have herror : ∀ {e : JsonError × Parser},
      (Except.error e : Result (Parser × Nat)) = .ok (p', start') → start' ≤ pos + 1 := by
    intro e he
    cases he
  have hok : ∀ {n : Nat} {p₁ : Parser}, n ≤ pos + 1 →
      (Except.ok (p₁, n) : Result (Parser × Nat)) = .ok (p', start') → start' ≤ pos + 1 := by
    intro n p₁ hn hp
    cases hp
    exact hn
  have hle : start ≤ pos + 1 := by omega
  have hkeep : start' = start → start' ≤ pos + 1 := by omega
  revert h
  refine hite (hite herror (hite herror (hok (Nat.le_refl _)))) ?_
  refine hite (hite herror (hite herror (hite herror (hok (Nat.le_succ _))))) ?_
  refine hite (hite herror (hite herror (hite herror (hok (Nat.le_succ _))))) ?_
  refine hite (hite (hok hle) (hite (hok hle) herror)) ?_
  refine hite (hite herror (hok hle)) ?_
  refine hite (hite herror (hite herror (hite herror fun h => hkeep (hmatch h)))) ?_
  refine hite (fun h => hkeep (hclosing h)) ?_
  refine hite (fun h => hkeep (hclosing h)) ?_
  exact hite (hok hle) (hite (hok (Nat.le_refl _)) herror)

theorem proper_switch (hstart : start ≤ pos) : Proper pos (switch cb data start pos c p) := by
  have hle : start ≤ pos + 1 := by omega
  have hnext : ∀ p', Proper pos (.ok (.next p' start)) := fun _ => hle
  have hend : ∀ {f : Parser → Parser} (p' : Parser), Proper pos (.ok (.next (f p') 0)) :=
    fun _ => Nat.zero_le _
  rw [switch]
  split
  · split
    · exact trivial
    · next h => exact start_caseWhitespace hstart h
  · exact trivial
  · refine proper_ite (proper_ite (hnext _) (proper_match _ _ hend)) ?_
    exact proper_ite trivial (proper_ite (hnext _) (hnext _))
  · refine proper_ite (proper_ite trivial (hnext _)) ?_
    refine proper_ite (proper_ite trivial (hnext _)) ?_
    refine proper_ite (proper_ite trivial (hnext _)) ?_
    refine proper_ite (hnext _) (proper_ite (proper_match _ _ hend) ?_)
    exact proper_ite (proper_match _ (fun p => .again { p with state := .whitespace }) fun _ => rfl)
      trivial
  · refine proper_ite (proper_match _ _ hend) ?_
    exact proper_ite (proper_match _ (fun p => .again { p with state := .whitespace }) fun _ => rfl)
      (hnext _)
  · have hcomment : ∀ flag, Proper pos (endComment cb data start pos flag p) :=
      fun flag => proper_match _ _ hend
    refine proper_ite (proper_ite (hnext _) (proper_ite (hnext _) (hnext _))) ?_
    refine proper_ite (proper_ite (hnext _) (proper_ite (hcomment _) (hnext _))) ?_
    refine proper_ite (proper_ite trivial (proper_ite (hcomment _) (hnext _))) ?_
    exact proper_ite trivial (hnext _)

end Switch

/-! ### One character at a time -/

/-- A character, given alone. -/
def takeChar (cb : Listener) (c : UInt8) (p : Parser) : Result Parser :=
  match switch cb [c] 0 0 c p with
  | .error e => .error e
  | .ok (.next p start) => .ok (p.held [c] start 1)
  | .ok (.again p) =>
    match caseWhitespace cb 0 0 c p with
    | .error e => .error e
    | .ok (p, start) => .ok (p.held [c] start 1)

/-- Characters, given one at a time from the position on. -/
def takeChars (cb : Listener) : List UInt8 → Nat → Parser → Except Failure Parser
  | [], _, p => .ok p
  | c :: rest, pos, p =>
    match takeChar cb c p with
    | .error (e, p) => .error (e, p, pos)
    | .ok p => takeChars cb rest (pos + 1) p

/-- What is seen of an error: the code, the calls and the position. -/
def noted {α : Type} : Except Failure α → Except (JsonError × List Call × Nat) α
  | .error (e, p, pos) => .error (e, p.calls, pos)
  | .ok x => .ok x

section Loop

variable {cb : Listener} {data : List UInt8}

/-- The parser behind the loop, with its token. -/
def closeToken (data : List UInt8) : Except Failure (Nat × Parser) → Except Failure Parser
  | .error e => .error e
  | .ok (start, p) => .ok (p.held data start data.length)

/-- The loop does what is done with one character at a time. -/
theorem noted_processLoop {rest : List UInt8} {start pos : Nat} {p : Parser}
    (hrest : data.drop pos = rest) (hlen : pos + rest.length = data.length) (hstart : start ≤ pos) :
    noted (closeToken data (processLoop cb data rest start pos p)) =
      noted (takeChars cb rest pos (p.held data start pos)) := by
  induction rest generalizing start pos p with
  | nil =>
    rw [List.length_nil, Nat.add_zero] at hlen
    rw [processLoop, takeChars, closeToken, hlen]
  | cons c rest ih =>
    have hc : data[pos]? = some c := by
      have hget := congrArg List.head? hrest
      rwa [List.head?_drop] at hget
    have hrest' : data.drop (pos + 1) = rest := by
      rw [← List.tail_drop, hrest, List.tail_cons]
    rw [List.length_cons] at hlen
    have hlen' : pos + 1 + rest.length = data.length := by omega
    have hmoved : moved data (pos + 1) (switch cb data start pos c p) =
        moved [c] 1 (switch cb [c] 0 0 c (p.held data start pos)) := moved_switch hc hstart
    have hproper : Proper pos (switch cb data start pos c p) := proper_switch hstart
    rw [processLoop, takeChars, takeChar]
    cases hbuf : switch cb data start pos c p with
    | error e =>
      cases halone : switch cb [c] 0 0 c (p.held data start pos) with
      | error e' =>
        rw [hbuf, halone] at hmoved
        simp only [moved, Except.error.injEq, Prod.mk.injEq] at hmoved
        simp only [closeToken, noted, hmoved]
      | ok m =>
        rw [hbuf, halone] at hmoved
        cases m <;> cases hmoved
    | ok m =>
      rw [hbuf] at hmoved hproper
      cases halone : switch cb [c] 0 0 c (p.held data start pos) with
      | error e' =>
        rw [halone] at hmoved
        cases m <;> cases hmoved
      | ok m' =>
        rw [halone] at hmoved
        cases m with
        | next p₁ start₁ =>
          cases m' with
          | again p₂ => cases hmoved
          | next p₂ start₂ =>
            simp only [moved, Except.ok.injEq, Prod.mk.injEq, true_and] at hmoved
            simp only
            rw [ih hrest' hlen' hproper, hmoved]
        | again p₁ =>
          cases m' with
          | next p₂ start₂ => cases hmoved
          | again p₂ =>
            simp only [moved, Except.ok.injEq, Prod.mk.injEq, true_and] at hmoved
            subst hmoved
            have htaken : taken data (pos + 1) (caseWhitespace cb 0 pos c p₁) =
                taken [c] 1 (caseWhitespace cb 0 0 c p₁) := taken_caseWhitespace hc hproper 0 0
            simp only
            cases hws : caseWhitespace cb 0 pos c p₁ with
            | error e =>
              cases hws' : caseWhitespace cb 0 0 c p₁ with
              | error e' =>
                rw [hws, hws'] at htaken
                simp only [taken, Except.error.injEq, Prod.mk.injEq] at htaken
                simp only [closeToken, noted, htaken]
              | ok x =>
                rw [hws, hws'] at htaken
                cases htaken
            | ok x =>
              cases hws' : caseWhitespace cb 0 0 c p₁ with
              | error e' =>
                rw [hws, hws'] at htaken
                cases htaken
              | ok x' =>
                rw [hws, hws'] at htaken
                simp only [taken, Except.ok.injEq] at htaken
                simp only
                rw [ih hrest' hlen' (start_caseWhitespace (Nat.zero_le pos) hws), htaken]

end Loop

/-! ### The calls of `process` -/

/-- What is seen of a call from outside: of an error the code, the calls and the position. -/
def viewed : Outcome → Except (JsonError × List Call × Nat) JsonParser
  | .error (e, j) => .error (e, j.parser.calls, j.errorPos)
  | .ok j => .ok j

/-- The parser behind so many characters. -/
def settle (j : JsonParser) (bomPos : Option Nat) (size : Nat) : Except Failure Parser → Outcome
  | .error (e, p, pos) => { j with bomPos := bomPos }.fail e p pos
  | .ok p =>
    .ok { j with bomPos := bomPos, totalProcessed := j.totalProcessed + size, parser := p }

/-- `process`, with the characters behind the byte order mark given one at a time. -/
def processChars (cb : Listener) (data : List UInt8) (j : JsonParser) : Outcome :=
  match skipBom data j with
  | .error pos => j.fail .invalidBom j.parser pos
  | .ok (bomPos, pos) =>
    settle j bomPos data.length (takeChars cb (data.drop pos) pos j.parser)

/-- While the byte order mark is being read, nothing else has been. -/
def Ready (j : JsonParser) : Prop :=
  ∀ n, j.bomPos = some n → j.totalProcessed < 3 →
    n = j.totalProcessed ∧ j.parser.state = .whitespace

theorem ready_new (flags : Flags) : Ready (.new flags) := by
  intro n hn _
  cases hn
  exact ⟨rfl, rfl⟩

private theorem viewed_settle {x y : Except Failure Parser} (h : noted x = noted y)
    (j : JsonParser) (bomPos : Option Nat) (size : Nat) :
    viewed (settle j bomPos size x) = viewed (settle j bomPos size y) := by
  cases x with
  | error e =>
    cases y with
    | error e' =>
      simp only [noted, Except.error.injEq, Prod.mk.injEq] at h
      simp only [settle, JsonParser.fail, viewed, h]
    | ok p => cases h
  | ok p =>
    cases y with
    | error e => cases h
    | ok p' =>
      cases h
      rfl

private theorem bomLoop_le {s : List UInt8} {n pos pos' : Nat} {bomPos : Option Nat}
    (h : bomLoop s n pos = .ok (bomPos, pos')) : pos ≤ pos' ∧ pos' ≤ pos + s.length := by
  induction s generalizing n pos with
  | nil =>
    cases h
    exact ⟨Nat.le_refl _, Nat.le_refl _⟩
  | cons c s ih =>
    rw [bomLoop] at h
    split at h
    · split at h
      · cases h
      · cases h
        exact ⟨Nat.le_refl _, Nat.le_add_right _ _⟩
    · have hih := ih h
      rw [List.length_cons]
      omega

private theorem skipBom_spec {data : List UInt8} {j : JsonParser} (hj : Ready j) {pos : Nat}
    {bomPos : Option Nat} (h : skipBom data j = .ok (bomPos, pos)) :
    pos ≤ data.length ∧ j.parser.held data 0 pos = j.parser := by
  rw [skipBom] at h
  split at h
  · next n hn =>
    split at h
    · next hlt =>
      have hle := (bomLoop_le h).2
      rw [List.length_take] at hle
      have htoken : j.parser.state.hasToken = false := by
        rw [(hj n hn hlt).2]
        rfl
      exact ⟨by omega, held_of_not_hasToken htoken _ _ _⟩
    · cases h
      refine ⟨Nat.zero_le _, ?_⟩
      simp [Parser.held, slice_self]
  · cases h
    refine ⟨Nat.zero_le _, ?_⟩
    simp [Parser.held, slice_self]

/-- `process` does what is done with one character at a time. -/
theorem viewed_process {cb : Listener} {data : List UInt8} {j : JsonParser} (hj : Ready j) :
    viewed (process cb data j) = viewed (processChars cb data j) := by
  rw [process, processChars]
  cases hbom : skipBom data j with
  | error pos => rfl
  | ok x =>
    obtain ⟨bomPos, pos⟩ := x
    obtain ⟨hpos, hheld⟩ := skipBom_spec hj hbom
    have hloop : noted (closeToken data (processLoop cb data (data.drop pos) 0 pos j.parser)) =
        noted (takeChars cb (data.drop pos) pos (j.parser.held data 0 pos)) :=
      noted_processLoop rfl (by rw [List.length_drop]; omega) (Nat.zero_le _)
    rw [hheld] at hloop
    have hclose : viewed (settle j bomPos data.length
        (closeToken data (processLoop cb data (data.drop pos) 0 pos j.parser))) =
        viewed (settle j bomPos data.length (takeChars cb (data.drop pos) pos j.parser)) :=
      viewed_settle hloop j bomPos data.length
    rw [← hclose]
    simp only
    cases processLoop cb data (data.drop pos) 0 pos j.parser with
    | error e => rfl
    | ok y =>
      obtain ⟨start, p⟩ := y
      have htoken : (if p.state.hasToken && start < data.length then p.token ++ data.drop start
          else p.token) = (if p.state.hasToken then p.token ++ data.drop start else p.token) := by
        cases p.state.hasToken with
        | false => rfl
        | true =>
          by_cases hlt : start < data.length
          · simp [hlt]
          · simp [hlt, List.drop_eq_nil_of_le (Nat.not_lt.mp hlt)]
      simp only [closeToken, settle, viewed, Parser.held, slice_length, htoken]

/-! ### Pieces -/

/-- One outcome after another. -/
def andThen (x : Outcome) (f : JsonParser → Outcome) : Outcome :=
  match x with
  | .error e => .error e
  | .ok j => f j

/-- The position in the text is what has been processed before, and the position in the buffer. -/
private theorem viewed_settle_shift (cb : Listener) (s : List UInt8) (pos k size : Nat)
    (p : Parser) {j j' : JsonParser} (htotal : j'.totalProcessed = j.totalProcessed + k)
    (herror : j'.errorPos = j.errorPos) (bomPos : Option Nat) :
    viewed (settle j bomPos (size + k) (takeChars cb s (pos + k) p)) =
      viewed (settle j' bomPos size (takeChars cb s pos p)) := by
  induction s generalizing pos p with
  | nil =>
    simp only [takeChars, settle, viewed, Except.ok.injEq, JsonParser.mk.injEq, true_and, htotal,
      herror, and_true]
    omega
  | cons c s ih =>
    rw [takeChars, takeChars]
    cases takeChar cb c p with
    | error e =>
      simp only [settle, JsonParser.fail, viewed, Except.error.injEq, Prod.mk.injEq, true_and,
        htotal]
      omega
    | ok p' =>
      simp only
      rw [show pos + k + 1 = pos + 1 + k by omega]
      exact ih (pos + 1) p'

private theorem bomLoop_shift (s : List UInt8) (n pos : Nat) :
    bomLoop s n (pos + 1) = match bomLoop s n pos with
      | .error pos => .error (pos + 1)
      | .ok (bomPos, pos) => .ok (bomPos, pos + 1) := by
  induction s generalizing n pos with
  | nil => rfl
  | cons c s ih =>
    rw [bomLoop, bomLoop]
    split
    · split <;> rfl
    · exact ih (n + 1) (pos + 1)

section Pieces

variable {cb : Listener} {c : UInt8} {data : List UInt8} {j : JsonParser}

private theorem skipBom_none (h : j.bomPos = none) : skipBom data j = .ok (none, 0) := by
  rw [skipBom, h]

private theorem skipBom_past {n : Nat} (h : j.bomPos = some n) (hlt : ¬ j.totalProcessed < 3) :
    skipBom data j = .ok (some n, 0) := by
  rw [skipBom, h]
  exact if_neg hlt

private theorem processChars_of_skip {bomPos : Option Nat} {pos : Nat}
    (h : skipBom data j = .ok (bomPos, pos)) :
    processChars cb data j =
      settle j bomPos data.length (takeChars cb (data.drop pos) pos j.parser) := by
  rw [processChars, h]

/-- A character behind the byte order mark, then the others. -/
private theorem viewed_cons_past {bomPos : Option Nat}
    (hskip : ∀ s, skipBom (c :: s) j = .ok (bomPos, 0))
    (hskip' : ∀ p n, skipBom data ⟨p, bomPos, j.totalProcessed + 1, n⟩ = .ok (bomPos, 0)) :
    viewed (processChars cb (c :: data) j) =
      viewed (andThen (processChars cb [c] j) (processChars cb data)) := by
  rw [processChars_of_skip (hskip data), processChars_of_skip (hskip []), List.drop_zero,
    List.drop_zero, takeChars, takeChars]
  cases takeChar cb c j.parser with
  | error e => rfl
  | ok p =>
    show viewed (settle j bomPos (data.length + 1) (takeChars cb data (0 + 1) p)) =
      viewed (processChars cb data ⟨p, bomPos, j.totalProcessed + 1, j.errorPos⟩)
    rw [processChars_of_skip (hskip' p j.errorPos)]
    exact viewed_settle_shift cb data 0 1 data.length p (by exact rfl) (by exact rfl) bomPos

/-- A character of the byte order mark, then the others. -/
private theorem viewed_cons_bom {n : Nat} (hn : n = j.totalProcessed) (hlt : n < 3)
    (hskip : ∀ s, skipBom (c :: s) j = bomLoop (s.take (2 - n)) (n + 1) 1) :
    viewed (processChars cb (c :: data) j) =
      viewed (andThen (processChars cb [c] j) (processChars cb data)) := by
  have hone : processChars cb [c] j =
      .ok ⟨j.parser, some (n + 1), j.totalProcessed + 1, j.errorPos⟩ := by
    have hskip1 : skipBom [c] j = .ok (some (n + 1), 1) := by
      rw [hskip, List.take_nil, bomLoop]
    rw [processChars_of_skip hskip1]
    rfl
  have hskip' : skipBom data ⟨j.parser, some (n + 1), j.totalProcessed + 1, j.errorPos⟩ =
      bomLoop (data.take (2 - n)) (n + 1) 0 := by
    rw [skipBom]
    by_cases htwo : j.totalProcessed + 1 < 3
    · exact (if_pos htwo).trans (by rw [show 3 - (n + 1) = 2 - n by omega])
    · refine (if_neg htwo).trans ?_
      rw [show 2 - n = 0 by omega, List.take_zero, bomLoop]
  rw [hone]
  show viewed (processChars cb (c :: data) j) = viewed (processChars cb data _)
  rw [processChars, processChars, hskip, hskip', bomLoop_shift]
  cases bomLoop (data.take (2 - n)) (n + 1) 0 with
  | error pos =>
    simp only [JsonParser.fail, viewed, Except.error.injEq, Prod.mk.injEq, true_and]
    omega
  | ok x =>
    obtain ⟨bomPos, pos⟩ := x
    exact viewed_settle_shift cb (data.drop pos) pos 1 data.length j.parser (by exact rfl)
      (by exact rfl) bomPos

/-- A character, then the others. -/
theorem viewed_cons (hj : Ready j) :
    viewed (processChars cb (c :: data) j) =
      viewed (andThen (processChars cb [c] j) (processChars cb data)) := by
  cases hbom : j.bomPos with
  | none =>
    exact viewed_cons_past (fun _ => skipBom_none hbom) fun p n => skipBom_none rfl
  | some n =>
    by_cases hlt : j.totalProcessed < 3
    · obtain ⟨hn, -⟩ := hj n hbom hlt
      have hskip : ∀ s, skipBom (c :: s) j = bomLoop (c :: s.take (2 - n)) n 0 := by
        intro s
        rw [skipBom, hbom]
        refine (if_pos hlt).trans ?_
        rw [show 3 - n = (2 - n) + 1 by omega, List.take_succ_cons]
      by_cases hc : byteOrderMark.getD n 0 = c
      · refine viewed_cons_bom hn (by omega) fun s => ?_
        rw [hskip, bomLoop, if_neg (not_not_intro hc)]
      · by_cases hzero : n = 0
        · have hskip' : ∀ s, skipBom (c :: s) j = .ok (none, 0) := by
            intro s
            rw [hskip, bomLoop, if_pos hc, if_neg (not_not_intro hzero)]
          exact viewed_cons_past hskip' fun p m => skipBom_none rfl
        · have hskip' : ∀ s, skipBom (c :: s) j = .error 0 := by
            intro s
            rw [hskip, bomLoop, if_pos hc, if_pos hzero]
          simp only [processChars, hskip', andThen]
          rfl
    · exact viewed_cons_past (fun _ => skipBom_past hbom hlt) fun p m =>
        skipBom_past rfl (by show ¬ j.totalProcessed + 1 < 3; omega)

private theorem viewed_eq_ok {x : Outcome} {j' : JsonParser} (h : viewed x = .ok j') :
    x = .ok j' := by
  cases x with
  | error e => cases h
  | ok j => exact congrArg Except.ok (Except.ok.inj h)

private theorem viewed_andThen_left {x y : Outcome} (h : viewed x = viewed y)
    (f : JsonParser → Outcome) : viewed (andThen x f) = viewed (andThen y f) := by
  cases x with
  | error e =>
    cases y with
    | error e' => exact h
    | ok j => cases h
  | ok j =>
    cases y with
    | error e => cases h
    | ok j' =>
      cases h
      rfl

private theorem viewed_andThen_right {x : Outcome} {f g : JsonParser → Outcome}
    (h : ∀ j, x = .ok j → viewed (f j) = viewed (g j)) :
    viewed (andThen x f) = viewed (andThen x g) := by
  cases x with
  | error e => rfl
  | ok j => exact h j rfl

private theorem andThen_assoc (x : Outcome) (f g : JsonParser → Outcome) :
    andThen (andThen x f) g = andThen x fun j => andThen (f j) g := by
  cases x <;> rfl

private theorem ready_single {j' : JsonParser} (hj : Ready j)
    (h : processChars cb [c] j = .ok j') : Ready j' := by
  rw [processChars] at h
  split at h
  · cases h
  · next bomPos pos hskip =>
    intro n hn hlt
    cases htake : takeChars cb ([c].drop pos) pos j.parser with
    | error e =>
      rw [htake] at h
      cases h
    | ok p =>
      rw [htake] at h
      cases h
      replace hlt : j.totalProcessed + 1 < 3 := hlt
      replace hn : bomPos = some n := hn
      subst hn
      rw [skipBom] at hskip
      split at hskip
      · next m hm =>
        obtain ⟨hm', hstate⟩ := hj m hm (by omega)
        rw [if_pos (by omega), show 3 - m = (2 - m) + 1 by omega, List.take_succ_cons,
          List.take_nil, bomLoop] at hskip
        split at hskip
        · split at hskip <;> cases hskip
        · cases hskip
          cases htake
          exact ⟨by rw [hm']; rfl, hstate⟩
      · cases hskip

private theorem processChars_nil : processChars cb [] j = .ok j := by
  have hskip : skipBom [] j = .ok (j.bomPos, 0) := by
    rw [skipBom]
    split
    · next n hn =>
      rw [List.take_nil, bomLoop, hn]
      exact ite_self _
    · next hn => rw [hn]
  rw [processChars_of_skip hskip]
  rfl

/-- Some characters, then the others. -/
theorem viewed_append {pre : List UInt8} (hj : Ready j) :
    viewed (processChars cb (pre ++ data) j) =
      viewed (andThen (processChars cb pre j) (processChars cb data)) := by
  induction pre generalizing j with
  | nil => rw [processChars_nil]; rfl
  | cons c pre ih =>
    calc viewed (processChars cb (c :: (pre ++ data)) j)
      _ = viewed (andThen (processChars cb [c] j) (processChars cb (pre ++ data))) :=
        viewed_cons hj
      _ = viewed (andThen (processChars cb [c] j) fun j =>
            andThen (processChars cb pre j) (processChars cb data)) :=
        viewed_andThen_right fun j' hj' => ih (ready_single hj hj')
      _ = viewed (andThen (andThen (processChars cb [c] j) (processChars cb pre))
            (processChars cb data)) := by rw [andThen_assoc]
      _ = viewed (andThen (processChars cb (c :: pre) j) (processChars cb data)) :=
        (viewed_andThen_left (viewed_cons hj) _).symm

theorem ready_processChars {j' : JsonParser} (hj : Ready j)
    (h : processChars cb data j = .ok j') : Ready j' := by
  induction data generalizing j with
  | nil =>
    rw [processChars_nil] at h
    cases h
    exact hj
  | cons c data ih =>
    have hcons : viewed (andThen (processChars cb [c] j) (processChars cb data)) = .ok j' := by
      rw [← viewed_cons hj, h]
      rfl
    have hone := viewed_eq_ok hcons
    cases hc : processChars cb [c] j with
    | error e =>
      rw [hc] at hone
      cases hone
    | ok j₁ =>
      rw [hc] at hone
      exact ih (ready_single hj hc) hone

/-- The pieces in turn, up to the first error, and `finish`. -/
def run (cb : Listener) : List (List UInt8) → JsonParser → Outcome
  | [], j => finish cb j
  | data :: rest, j => andThen (process cb data j) (run cb rest)

/-- The pieces, with the characters given one at a time. -/
theorem viewed_run (pieces : List (List UInt8)) (hj : Ready j) :
    viewed (run cb pieces j) =
      viewed (andThen (processChars cb pieces.flatten j) (finish cb)) := by
  induction pieces generalizing j with
  | nil => rw [List.flatten_nil, processChars_nil]; rfl
  | cons data rest ih =>
    rw [run, List.flatten_cons]
    calc viewed (andThen (process cb data j) (run cb rest))
      _ = viewed (andThen (processChars cb data j) (run cb rest)) :=
        viewed_andThen_left (viewed_process hj) _
      _ = viewed (andThen (processChars cb data j) fun j =>
            andThen (processChars cb rest.flatten j) (finish cb)) :=
        viewed_andThen_right fun j' hj' => ih (ready_processChars hj hj')
      _ = viewed (andThen (andThen (processChars cb data j) (processChars cb rest.flatten))
            (finish cb)) := by rw [andThen_assoc]
      _ = viewed (andThen (processChars cb (data ++ rest.flatten) j) (finish cb)) :=
        (viewed_andThen_left (viewed_append hj) _).symm

end Pieces

/-- What a caller sees of a run: the calls, the error code and the error position. -/
def reported : Outcome → List Call × Option JsonError × Nat
  | .error (e, j) => (j.parser.calls, some e, j.errorPos)
  | .ok j => (j.parser.calls, none, j.errorPos)

theorem reported_of_viewed {x y : Outcome} (h : viewed x = viewed y) : reported x = reported y := by
  cases x with
  | error e =>
    cases y with
    | error e' =>
      simp only [viewed, Except.error.injEq, Prod.mk.injEq] at h
      simp only [reported, h]
    | ok j => cases h
  | ok j =>
    cases y with
    | error e => cases h
    | ok j' =>
      cases h
      rfl

/-- However the text is cut into pieces, the calls, the error code and the error position are those
of the whole text. -/
theorem run_pieces (cb : Listener) (flags : Flags) (pieces : List (List UInt8)) :
    reported (run cb pieces (.new flags)) = reported (run cb [pieces.flatten] (.new flags)) := by
  apply reported_of_viewed
  rw [viewed_run pieces (ready_new flags), viewed_run [pieces.flatten] (ready_new flags),
    List.flatten_singleton]

end Blacklink.Json
