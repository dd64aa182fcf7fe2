import Mathlib.Data.List.TakeWhile
import Blacklink.Net.BufferedSocket

/-!
# Received bytes, one by one

`feed` says what one received byte does, without a buffer. It is what the receive path of a
`BufferedSocket` amounts to however the bytes are split into reads (`log_eq_frame`), as long as no
read finds the buffer full and the listener changes the mode between blocks only (`Tame`).
-/

namespace Blacklink.Net

open Base

/-- The session, and the bytes of the line that has not ended. -/
structure Framer where
  session : Session
  pending : List UInt8
  deriving DecidableEq

namespace Framer

/-- Nothing has been received. -/
def start : Framer := ⟨⟨.line, unlimited, [], none⟩, []⟩

variable (L : Listener) (separator : UInt8) (maxLineSize : Nat)

/-- A byte in data mode. The listener is not asked for mode switches before the count is down to
zero. -/
def feedData (s : Session) (b : UInt8) : Session :=
  let s := { s with log := s.log ++ [.data b] }
  if s.remainingSize = unlimited then s
  else
    let s := { s with remainingSize := s.remainingSize - 1 }
    if s.remainingSize = 0 then { s with mode := .line }.callback L [.modeChange] else s

/-- One byte. -/
def feed (A : Framer) (b : UInt8) : Framer :=
  match A.session.error with
  | some _ => A
  | none =>
    match A.session.mode with
    | .line =>
      if b = separator then ⟨A.session.callback L [.line A.pending], []⟩
      else if maxLineSize ≤ A.pending.length then ⟨A.session.fail .commandTooLong, A.pending⟩
      else ⟨A.session, A.pending ++ [b]⟩
    | .data => ⟨feedData L A.session b, []⟩

/-- The state after the bytes. -/
def frame (bytes : List UInt8) : Framer := run (feed L separator maxLineSize) start bytes

/-- The listener's mode switches around the byte: it does not leave a block before its count is down
to zero, and starts no block of zero bytes. -/
def Tame (A : Framer) (b : UInt8) : Prop :=
  (A.session.error = none → A.session.mode = .data →
    L (A.session.log ++ [.data b]) = [] ∨
      A.session.remainingSize = 1 ∧ ∀ sw ∈ L (A.session.log ++ [.data b]), sw = .line) ∧
  ¬ ((A.feed L separator maxLineSize b).session.mode = .data ∧
    (A.feed L separator maxLineSize b).session.remainingSize = 0)

end Framer

variable {L : Listener} {separator : UInt8} {maxLineSize : Nat}

/-! ### Callbacks -/

namespace Session

@[simp] theorem switch_log (s : Session) (sw : Switch) : (s.switch sw).log = s.log := by
  cases sw <;> rfl

@[simp] theorem switch_error (s : Session) (sw : Switch) : (s.switch sw).error = s.error := by
  cases sw <;> rfl

private theorem foldl_switch (s : Session) (sws : List Switch) :
    (sws.foldl switch s).log = s.log ∧ (sws.foldl switch s).error = s.error ∧
      (s.remainingSize < 2 ^ 64 → (sws.foldl switch s).remainingSize < 2 ^ 64) := by
  induction sws generalizing s with
  | nil => exact ⟨rfl, rfl, id⟩
  | cons sw sws ih =>
    obtain ⟨hlog, herror, hsize⟩ := ih (s.switch sw)
    refine ⟨hlog.trans (switch_log s sw), herror.trans (switch_error s sw), ?_⟩
    intro h
    apply hsize
    cases sw with
    | line => exact h
    | data bytes =>
      simp only [switch]
      omega

@[simp] theorem callback_log (s : Session) (items : List Item) :
    (s.callback L items).log = s.log ++ items := (foldl_switch _ _).1

@[simp] theorem callback_error (s : Session) (items : List Item) :
    (s.callback L items).error = s.error := (foldl_switch _ _).2.1

theorem callback_remainingSize {s : Session} (h : s.remainingSize < 2 ^ 64) (items : List Item) :
    (s.callback L items).remainingSize < 2 ^ 64 := (foldl_switch _ _).2.2 h

/-- Switches to line mode only. -/
private theorem foldl_switch_line (s : Session) (sws : List Switch) (h : ∀ sw ∈ sws, sw = .line) :
    sws.foldl switch s = s ∨ sws.foldl switch s = { s with mode := .line } := by
  induction sws generalizing s with
  | nil => exact .inl rfl
  | cons sw sws ih =>
    rw [h sw List.mem_cons_self, List.foldl_cons]
    right
    rcases ih (s.switch .line) (fun sw hsw => h sw (List.mem_cons_of_mem _ hsw)) with heq | heq
    · exact heq
    · exact heq

end Session

namespace Framer

/-! ### Lines -/

private theorem feed_failed {A : Framer} (h : A.session.error ≠ none) (b : UInt8) :
    A.feed L separator maxLineSize b = A := by
  rw [feed]
  cases herror : A.session.error with
  | none => exact absurd herror h
  | some e => rfl

theorem run_failed {A : Framer} (h : A.session.error ≠ none) (bytes : List UInt8) :
    run (feed L separator maxLineSize) A bytes = A := by
  induction bytes with
  | nil => rfl
  | cons b bytes ih => rw [run_cons, feed_failed h, ih]

section

variable {s : Session} (herror : s.error = none)
include herror

theorem feed_line (hmode : s.mode = .line) (p : List UInt8) (b : UInt8) :
    feed L separator maxLineSize ⟨s, p⟩ b =
      if b = separator then ⟨s.callback L [.line p], []⟩
      else if maxLineSize ≤ p.length then ⟨s.fail .commandTooLong, p⟩
      else ⟨s, p ++ [b]⟩ := by
  simp only [feed, herror, hmode]

/-- Bytes of a line that is not too long. -/
theorem run_line (hmode : s.mode = .line) (p : List UInt8) {l : List UInt8}
    (hsep : separator ∉ l) (hlen : p.length + l.length ≤ maxLineSize) :
    run (feed L separator maxLineSize) ⟨s, p⟩ l = ⟨s, p ++ l⟩ := by
  induction l generalizing p with
  | nil => simp
  | cons b l ih =>
    rw [List.mem_cons, not_or] at hsep
    rw [List.length_cons] at hlen
    rw [run_cons, feed_line herror hmode, if_neg (Ne.symm hsep.1), if_neg (by omega),
      ih (p ++ [b]) hsep.2 (by simp; omega)]
    simp

/-- Nothing can go wrong inside of a line. -/
private theorem tame_line (hmode : s.mode = .line) (p : List UInt8) {l : List UInt8}
    (hsep : separator ∉ l) (hlen : p.length + l.length ≤ maxLineSize) :
    Within (Tame L separator maxLineSize) (feed L separator maxLineSize) ⟨s, p⟩ l := by
  induction l generalizing p with
  | nil => exact within_nil _ _ _
  | cons b l ih =>
    rw [List.mem_cons, not_or] at hsep
    rw [List.length_cons] at hlen
    have hfeed : feed L separator maxLineSize ⟨s, p⟩ b = ⟨s, p ++ [b]⟩ := by
      rw [feed_line herror hmode, if_neg (Ne.symm hsep.1), if_neg (by omega)]
    refine ⟨⟨?_, ?_⟩, ?_⟩
    · intro _ hdata
      simp [hmode] at hdata
    · rw [hfeed]
      simp [hmode]
    · rw [hfeed]
      exact ih (p ++ [b]) hsep.2 (by simp; omega)

private theorem feed_data (hmode : s.mode = .data) (b : UInt8) :
    feed L separator maxLineSize ⟨s, []⟩ b = ⟨feedData L s b, []⟩ := by
  simp only [feed, herror, hmode]

/-- Bytes of a line that is too long. -/
theorem run_line_long (hmode : s.mode = .line) (p : List UInt8) {l : List UInt8}
    (hsep : separator ∉ l) (hlen : maxLineSize < p.length + l.length)
    (hp : p.length ≤ maxLineSize) (rest : List UInt8) :
    (run (feed L separator maxLineSize) ⟨s, p⟩ (l ++ rest)).session = s.fail .commandTooLong := by
  induction l generalizing p with
  | nil =>
    simp only [List.length_nil] at hlen
    omega
  | cons b l ih =>
    rw [List.mem_cons, not_or] at hsep
    rw [List.length_cons] at hlen
    rw [List.cons_append, run_cons, feed_line herror hmode, if_neg (Ne.symm hsep.1)]
    split
    · rw [run_failed (by simp [Session.fail])]
    · next h =>
      rw [Nat.not_le] at h
      exact ih (p ++ [b]) hsep.2 (by simp; omega) (by simp; omega)

end

/-! ### Data -/

private theorem run_data_unlimited (log : List Item) (l : List UInt8) :
    run (feed L separator maxLineSize) ⟨⟨.data, unlimited, log, none⟩, []⟩ l =
      ⟨⟨.data, unlimited, log ++ l.map .data, none⟩, []⟩ := by
  induction l generalizing log with
  | nil => simp
  | cons b l ih =>
    rw [run_cons]
    simp only [feed, feedData, if_true]
    rw [ih]
    simp

/-- Bytes of a block that do not end it. -/
private theorem run_data_count {size : Nat} (hsize : size < unlimited) (log : List Item)
    {l : List UInt8} (hlen : l.length < size) :
    run (feed L separator maxLineSize) ⟨⟨.data, size, log, none⟩, []⟩ l =
      ⟨⟨.data, size - l.length, log ++ l.map .data, none⟩, []⟩ := by
  induction l generalizing size log with
  | nil => simp
  | cons b l ih =>
    rw [List.length_cons] at hlen
    have hne : size ≠ unlimited := Nat.ne_of_lt hsize
    have hpos : size - 1 ≠ 0 := by omega
    rw [run_cons]
    simp only [feed, feedData, hne, hpos, if_false]
    rw [ih (by omega) _ (by omega), List.length_cons, Nat.sub_sub, Nat.add_comm 1]
    simp

/-- A block that the listener does not leave. -/
private theorem run_block {s : Session} (herror : s.error = none) (hmode : s.mode = .data)
    (hsize : s.remainingSize < 2 ^ 64) {block : List UInt8} (hne : block ≠ [])
    (hlen : s.remainingSize ≠ unlimited → block.length ≤ s.remainingSize)
    (htame : Within (Tame L separator maxLineSize) (feed L separator maxLineSize) ⟨s, []⟩ block) :
    run (feed L separator maxLineSize) ⟨s, []⟩ block = ⟨s.consumeBlock L block, []⟩ := by
  obtain ⟨mode, size, log, error⟩ := s
  subst hmode herror
  obtain ⟨l, b, rfl⟩ := List.eq_nil_or_concat block |>.resolve_left hne
  rw [List.concat_eq_append] at *
  rw [within_append, within_cons] at htame
  obtain ⟨_, ⟨hswitch, _⟩, _⟩ := htame
  have hmap : log ++ l.map .data ++ [.data b] = log ++ (l ++ [b]).map .data := by simp
  by_cases hun : size = unlimited
  · subst hun
    simp only [run_data_unlimited, hmap, forall_const] at hswitch
    rcases hswitch with hnone | ⟨hone, _⟩
    · rw [run_data_unlimited]
      simp only [Session.consumeBlock, Session.callback, hnone, List.foldl_nil, if_true]
    · exact absurd hone (by decide)
  · have hlt : size < unlimited := by
      simp only [unlimited] at hun ⊢
      simp only at hsize
      omega
    have hle := hlen hun
    simp only [List.length_append, List.length_singleton] at hle
    have hcount : (size + 2 ^ 64 - (l ++ [b]).length) % 2 ^ 64 = size - l.length - 1 := by
      simp only [List.length_append, List.length_singleton]
      simp only at hsize
      omega
    have hsub : size - l.length ≠ unlimited := by omega
    rw [run_append, run_data_count hlt _ (by omega), run_cons, run_nil]
    simp only [run_data_count hlt _ (show l.length < size by omega), hmap, forall_const] at hswitch
    simp only [feed, feedData, hsub, if_false, Session.consumeBlock, Session.callback, hmap]
    rcases hswitch with hnone | ⟨hone, hlines⟩
    · simp only [hnone, List.foldl_nil, hun, if_false, hcount]
    · have hzero : size - l.length - 1 = 0 := by omega
      rcases Session.foldl_switch_line ⟨.data, size, log ++ (l ++ [b]).map .data, none⟩ _ hlines
        with heq | heq
      · simp only [heq, hun, if_false, hcount, hzero, if_true]
      · simp only [heq, hun, if_false, hcount, hzero, if_true]

/-! ### The loops of the socket -/

/-- What the loops leave is what the bytes up to there lead to; an exception is the one that all of
the bytes lead to. -/
def Advances (L : Listener) (separator : UInt8) (maxLineSize : Nat) (s : Session)
    (unread : List UInt8) (r : Session × List UInt8) : Prop :=
  r.1.error = none ∧ (∃ done, unread = done ++ r.2 ∧
      run (feed L separator maxLineSize) ⟨s, []⟩ done = ⟨r.1, []⟩) ∨
    r.1.error ≠ none ∧ (run (feed L separator maxLineSize) ⟨s, []⟩ unread).session = r.1

private theorem Advances.refl {s : Session} (herror : s.error = none) (unread : List UInt8) :
    Advances L separator maxLineSize s unread (s, unread) :=
  .inl ⟨herror, [], rfl, rfl⟩

private theorem Advances.trans {s s' : Session} {done rest : List UInt8}
    {r : Session × List UInt8}
    (h : run (feed L separator maxLineSize) ⟨s, []⟩ done = ⟨s', []⟩)
    (h' : Advances L separator maxLineSize s' rest r) :
    Advances L separator maxLineSize s (done ++ rest) r := by
  rcases h' with ⟨herror, done', hrest, hrun⟩ | ⟨herror, hrun⟩
  · refine .inl ⟨herror, done ++ done', ?_, ?_⟩
    · rw [hrest, List.append_assoc]
    · rw [run_append, h, hrun]
  · refine .inr ⟨herror, ?_⟩
    rw [run_append, h, hrun]

theorem dropWhile_cons {l rest : List UInt8} {c : UInt8}
    (h : l.dropWhile (· ≠ separator) = c :: rest) :
    l = l.takeWhile (· ≠ separator) ++ c :: rest ∧ c = separator := by
  constructor
  · rw [← h, List.takeWhile_append_dropWhile]
  · have hc := List.head?_dropWhile_not (· ≠ separator) l
    rw [h] at hc
    simpa using hc

private theorem eq_append_of_dropWhile {l rest : List UInt8} {c : UInt8}
    (h : l.dropWhile (· ≠ separator) = c :: rest) :
    l = (l.takeWhile (· ≠ separator) ++ [separator]) ++ rest := by
  obtain ⟨hl, rfl⟩ := dropWhile_cons h
  rw [List.append_assoc]
  exact hl

theorem separator_not_mem_takeWhile (l : List UInt8) :
    separator ∉ l.takeWhile (· ≠ separator) := by
  intro h
  simpa using List.mem_takeWhile_imp h

theorem separator_not_mem_of_dropWhile {l : List UInt8}
    (h : l.dropWhile (· ≠ separator) = []) : separator ∉ l := by
  intro hmem
  simpa using List.dropWhile_eq_nil_iff.mp h separator hmem

/-- A line and its separator. -/
private theorem run_callback_line {s : Session} (herror : s.error = none) (hmode : s.mode = .line)
    {unread : List UInt8}
    (hlen : ¬ maxLineSize < (unread.takeWhile (· ≠ separator)).length) :
    run (feed L separator maxLineSize) ⟨s, []⟩ (unread.takeWhile (· ≠ separator) ++ [separator]) =
      ⟨s.callback L [.line (unread.takeWhile (· ≠ separator))], []⟩ := by
  rw [run_append,
    run_line herror hmode [] (separator_not_mem_takeWhile unread) (by simpa using hlen),
    List.nil_append, run_cons, run_nil, feed_line herror hmode, if_pos rfl]

/-- `parseData` gives the lines, and leaves bytes that are no line yet. -/
theorem advances_parseData (L : Listener) (separator : UInt8) (maxLineSize : Nat)
    {s : Session} (herror : s.error = none) (hmode : s.mode = .line) (unread : List UInt8) :
    Advances L separator maxLineSize s unread (s.parseData L separator maxLineSize unread) ∧
      ((s.parseData L separator maxLineSize unread).1.error = none →
        (s.parseData L separator maxLineSize unread).1.mode = .line →
        separator ∉ (s.parseData L separator maxLineSize unread).2 ∧
          (s.parseData L separator maxLineSize unread).2.length ≤ maxLineSize) ∧
      ((s.parseData L separator maxLineSize unread).1.error ≠ none →
        (s.parseData L separator maxLineSize unread).1.mode = .line) := by
  fun_induction Session.parseData L separator maxLineSize s unread with
  | case1 s unread hrest hlen =>
    have hsep := separator_not_mem_of_dropWhile hrest
    refine ⟨.inr ⟨by simp [Session.fail], ?_⟩, fun h => by simp [Session.fail] at h, fun _ => hmode⟩
    have hlong := run_line_long (L := L) herror hmode [] hsep (by simpa using hlen) (by simp) []
    rwa [List.append_nil] at hlong
  | case2 s unread hrest hlen =>
    exact ⟨.refl herror unread, fun _ _ =>
      ⟨separator_not_mem_of_dropWhile hrest, Nat.le_of_not_lt hlen⟩, fun _ => hmode⟩
  | case3 s unread c rest hrest line hlen =>
    refine ⟨.inr ⟨by simp [Session.fail], ?_⟩, fun h => by simp [Session.fail] at h, fun _ => hmode⟩
    rw [(dropWhile_cons hrest).1]
    have hlong : maxLineSize < ([] : List UInt8).length + line.length := by simpa using hlen
    exact run_line_long herror hmode [] (separator_not_mem_takeWhile unread) hlong (by simp) _
  | case4 s unread c rest hrest line hlen s' hne =>
    have hline := run_callback_line (L := L) herror hmode hlen
    have herror' : s'.error = none := by simp [s', herror]
    refine ⟨?_, fun _ h => absurd (h.trans hmode.symm) hne, fun h => absurd herror' h⟩
    rw [eq_append_of_dropWhile hrest]
    exact .trans hline (.refl herror' rest)
  | case5 s unread c rest hrest line hlen s' heq ih =>
    have hline := run_callback_line (L := L) herror hmode hlen
    have hmode' : s'.mode = .line := (Decidable.not_not.mp heq).trans hmode
    obtain ⟨hadv, hleft, hfailed⟩ := ih (by simp [s', herror]) hmode'
    refine ⟨?_, hleft, hfailed⟩
    rw [eq_append_of_dropWhile hrest]
    exact .trans hline hadv

/-- The count fits its type, and a block has a byte to come. -/
def Fit (s : Session) : Prop :=
  s.remainingSize < 2 ^ 64 ∧ ¬ (s.mode = .data ∧ s.remainingSize = 0)

private theorem feed_fit (A : Framer) (b : UInt8) (h : Fit A.session)
    (htame : Tame L separator maxLineSize A b) :
    Fit (A.feed L separator maxLineSize b).session := by
  refine ⟨?_, htame.2⟩
  have hsize := h.1
  rw [feed]
  cases A.session.error with
  | some e => exact hsize
  | none =>
    cases A.session.mode with
    | line =>
      simp only
      split
      · exact Session.callback_remainingSize hsize _
      · split
        · exact hsize
        · exact hsize
    | data =>
      simp only [feedData]
      split
      · exact hsize
      · split
        · exact Session.callback_remainingSize (Nat.lt_of_le_of_lt (Nat.sub_le _ _) hsize) _
        · exact Nat.lt_of_le_of_lt (Nat.sub_le _ _) hsize

theorem run_fit {A : Framer} {bytes : List UInt8} (h : Fit A.session)
    (htame : Within (Tame L separator maxLineSize) (feed L separator maxLineSize) A bytes) :
    Fit (run (feed L separator maxLineSize) A bytes).session :=
  htame.invariant (fun A => Fit A.session) feed_fit h

/-- An iteration of `consumeData`. -/
private theorem run_consumeBlock {s : Session} (herror : s.error = none) (hmode : s.mode = .data)
    (hfit : Fit s) {unread : List UInt8} (hne : unread ≠ [])
    (htame : Within (Tame L separator maxLineSize) (feed L separator maxLineSize) ⟨s, []⟩ unread) :
    run (feed L separator maxLineSize) ⟨s, []⟩ (unread.take (s.blockSize unread)) =
        ⟨s.consumeBlock L (unread.take (s.blockSize unread)), []⟩ ∧
      Within (Tame L separator maxLineSize) (feed L separator maxLineSize)
        ⟨s.consumeBlock L (unread.take (s.blockSize unread)), []⟩
        (unread.drop (s.blockSize unread)) := by
  have hzero : s.remainingSize ≠ 0 := fun h => hfit.2 ⟨hmode, h⟩
  have hpos := List.length_pos_iff.mpr hne
  have hsize : s.blockSize unread ≠ 0 ∧
      (s.remainingSize ≠ unlimited → s.blockSize unread ≤ s.remainingSize) := by
    rw [Session.blockSize]
    split
    · exact ⟨hzero, fun _ => Nat.le_refl _⟩
    · exact ⟨by omega, fun _ => by omega⟩
  rw [← List.take_append_drop (s.blockSize unread) unread, within_append] at htame
  have hblock : unread.take (s.blockSize unread) ≠ [] := by
    intro h
    rcases List.take_eq_nil_iff.mp h with h | h
    · exact hsize.1 h
    · exact hne h
  have hrun := run_block herror hmode hfit.1 hblock
    (fun h => Nat.le_trans (List.length_take_le _ _) (hsize.2 h)) htame.1
  rw [hrun] at htame
  exact ⟨hrun, htame.2⟩

private theorem consumeBlock_error (s : Session) (block : List UInt8) :
    (s.consumeBlock L block).error = s.error := by
  simp only [Session.consumeBlock]
  split
  · simp
  · split
    · simp
    · simp

/-- `consumeData` gives blocks, and in data mode leaves no byte. -/
private theorem advances_consumeData {s : Session} (herror : s.error = none)
    (hmode : s.mode = .data) (hfit : Fit s) {unread : List UInt8}
    (htame : Within (Tame L separator maxLineSize) (feed L separator maxLineSize) ⟨s, []⟩ unread) :
    Advances L separator maxLineSize s unread (s.consumeData L unread) ∧
      (s.consumeData L unread).1.error = none ∧
      ((s.consumeData L unread).1.mode = .data → (s.consumeData L unread).2 = []) := by
  fun_induction Session.consumeData L s unread with
  | case1 s => exact ⟨.refl herror [], herror, fun _ => rfl⟩
  | case2 s unread _ hzero => exact absurd ⟨hmode, hzero⟩ hfit.2
  | case3 s unread hnil hzero size s' hne =>
    obtain ⟨hrun, _⟩ := run_consumeBlock herror hmode hfit hnil htame
    have herror' : s'.error = none := (consumeBlock_error s _).trans herror
    refine ⟨?_, herror', fun h => absurd h hne⟩
    have hadv := Advances.trans hrun (.refl herror' (unread.drop size))
    rwa [List.take_append_drop] at hadv
  | case4 s unread hnil hzero size s' heq ih =>
    obtain ⟨hrun, hrest⟩ := run_consumeBlock herror hmode hfit hnil htame
    have herror' : s'.error = none := (consumeBlock_error s _).trans herror
    have hfit' : Fit s' := by
      rw [← List.take_append_drop size unread, within_append] at htame
      have hfit' := run_fit (A := ⟨s, []⟩) hfit htame.1
      rwa [hrun] at hfit'
    obtain ⟨hadv, hnone, hleft⟩ := ih herror' (Decidable.not_not.mp heq) hfit' hrest
    refine ⟨?_, hnone, hleft⟩
    have hadv' := Advances.trans hrun hadv
    rwa [List.take_append_drop] at hadv'

/-- The state that a run of the framer is in, seen from the socket: the session, and with no
exception the bytes not handled. -/
def Settled (unread : List UInt8) (A : Framer) (r : Session × List UInt8) : Prop :=
  A.session = r.1 ∧ (r.1.error = none → r.2 <:+ unread ∧ A.pending = r.2)

private theorem Settled.trans {s : Session} {unread : List UInt8} {r r' : Session × List UInt8}
    (hadv : Advances L separator maxLineSize s unread r) (hnone : r.1.error = none)
    (h : Settled r.2 (run (feed L separator maxLineSize) ⟨r.1, []⟩ r.2) r') :
    Settled unread (run (feed L separator maxLineSize) ⟨s, []⟩ unread) r' := by
  obtain ⟨_, done, hunread, hrun⟩ := hadv.resolve_right fun h => h.1 hnone
  rw [hunread, run_append, hrun]
  refine ⟨h.1, ?_⟩
  intro hnone'
  obtain ⟨hsuffix, hpending⟩ := h.2 hnone'
  exact ⟨hsuffix.trans (List.suffix_append done r.2), hpending⟩

/-- The rest of a loop begins in a state in which it may begin. -/
private theorem Advances.rest {s : Session} (hfit : Fit s) {unread : List UInt8}
    {r : Session × List UInt8} (hadv : Advances L separator maxLineSize s unread r)
    (hnone : r.1.error = none)
    (htame : Within (Tame L separator maxLineSize) (feed L separator maxLineSize) ⟨s, []⟩ unread) :
    Fit r.1 ∧
      Within (Tame L separator maxLineSize) (feed L separator maxLineSize) ⟨r.1, []⟩ r.2 := by
  obtain ⟨_, done, hunread, hrun⟩ := hadv.resolve_right fun h => h.1 hnone
  rw [hunread, within_append, hrun] at htame
  have hfit' := run_fit (A := ⟨s, []⟩) hfit htame.1
  rw [hrun] at hfit'
  exact ⟨hfit', htame.2⟩

/-- The loop of `readData` ends where the framer is. -/
theorem settled_process {s : Session} (herror : s.error = none) (hfit : Fit s)
    {unread : List UInt8}
    (htame : Within (Tame L separator maxLineSize) (feed L separator maxLineSize) ⟨s, []⟩ unread) :
    Settled unread (run (feed L separator maxLineSize) ⟨s, []⟩ unread)
      (s.process L separator maxLineSize unread) := by
  fun_induction Session.process L separator maxLineSize s unread with
  | case1 s => exact ⟨rfl, fun _ => ⟨List.suffix_rfl, rfl⟩⟩
  | case2 s unread hne hmode r hline =>
    obtain ⟨hadv, hleft, _⟩ := advances_parseData L separator maxLineSize herror hmode unread
    by_cases hnone : r.1.error = none
    · obtain ⟨hsep, hlen⟩ := hleft hnone hline
      apply Settled.trans hadv hnone
      rw [run_line hnone hline [] hsep (by simpa using hlen)]
      exact ⟨rfl, fun _ => ⟨List.suffix_rfl, rfl⟩⟩
    · have hrun := (hadv.resolve_left fun h => hnone h.1).2
      exact ⟨hrun, fun h => absurd h hnone⟩
  | case3 s unread hne hmode r hdata ih =>
    obtain ⟨hadv, _, hfailed⟩ := advances_parseData L separator maxLineSize herror hmode unread
    have hnone : r.1.error = none := Decidable.not_not.mp fun h => hdata (hfailed h)
    obtain ⟨hfit', htame'⟩ := hadv.rest hfit hnone htame
    exact Settled.trans hadv hnone (ih hnone hfit' htame')
  | case4 s unread hne hmode r hdata =>
    obtain ⟨hadv, hnone, hleft⟩ := advances_consumeData herror hmode hfit htame
    apply Settled.trans hadv hnone
    rw [hleft hdata, run_nil]
    exact ⟨rfl, fun _ => ⟨(hleft hdata).symm ▸ List.suffix_rfl, (hleft hdata).symm⟩⟩
  | case5 s unread hne hmode r hline ih =>
    obtain ⟨hadv, hnone, _⟩ := advances_consumeData herror hmode hfit htame
    obtain ⟨hfit', htame'⟩ := hadv.rest hfit hnone htame
    exact Settled.trans hadv hnone (ih hnone hfit' htame')

/-! ### Bytes kept -/

/-- The bytes that something given to the listener took from the peer. -/
def itemBytes (separator : UInt8) : Item → List UInt8
  | .line l => l ++ [separator]
  | .data b => [b]
  | .modeChange => []

private theorem feedData_error (s : Session) (b : UInt8) : (feedData L s b).error = s.error := by
  simp only [feedData]
  split
  · rfl
  · split
    · simp
    · rfl

private theorem feedData_bytes (s : Session) (b : UInt8) :
    (feedData L s b).log.flatMap (itemBytes separator) =
      s.log.flatMap (itemBytes separator) ++ [b] := by
  simp only [feedData]
  split
  · simp [itemBytes]
  · split
    · simp [itemBytes]
    · simp [itemBytes]

/-- What is known of every state: the bytes pending are no line yet, and together with what was
given they are all bytes. -/
private structure Kept (separator : UInt8) (maxLineSize : Nat) (A : Framer) (got : List UInt8) :
    Prop where
  error : A.session.error = none ∨ A.session.error = some .commandTooLong
  short : A.pending.length ≤ maxLineSize
  noSeparator : separator ∉ A.pending
  noData : A.session.mode = .data → A.pending = []
  bytes : A.session.error = none →
    A.session.log.flatMap (itemBytes separator) ++ A.pending = got
  taken : A.session.log.flatMap (itemBytes separator) <+: got

private theorem kept_feed {A : Framer} {got : List UInt8} (h : Kept separator maxLineSize A got)
    (b : UInt8) : Kept separator maxLineSize (A.feed L separator maxLineSize b) (got ++ [b]) := by
  obtain ⟨s, pending⟩ := A
  have hgrow := h.taken.trans (List.prefix_append got [b])
  cases herror : s.error with
  | some e =>
    rw [feed_failed (by simp [herror])]
    exact ⟨h.error, h.short, h.noSeparator, h.noData, by simp [herror], hgrow⟩
  | none =>
    have hbytes := h.bytes herror
    simp only at hbytes
    cases hmode : s.mode with
    | line =>
      rw [feed_line herror hmode]
      split
      · next hb =>
        subst hb
        have hall : (s.callback L [.line pending]).log.flatMap (itemBytes b) = got ++ [b] := by
          simp [itemBytes, ← hbytes]
        refine ⟨by simp [herror], by simp, by simp, fun _ => rfl, fun _ => ?_, ?_⟩
        · rw [hall, List.append_nil]
        · rewrite [hall]
          exact List.prefix_rfl
      · next hb =>
        split
        · exact ⟨.inr rfl, h.short, h.noSeparator, h.noData, by simp [Session.fail], hgrow⟩
        · next hlen =>
          refine ⟨.inl herror, ?_, ?_, ?_, ?_, hgrow⟩
          · simp only [List.length_append, List.length_singleton]
            omega
          · simp only [List.mem_append, List.mem_singleton, not_or]
            exact ⟨h.noSeparator, Ne.symm hb⟩
          · intro hdata
            simp only [hmode] at hdata
            cases hdata
          · intro _
            rw [← hbytes, List.append_assoc]
    | data =>
      have hnil : pending = [] := h.noData hmode
      subst hnil
      rw [feed_data herror hmode]
      rw [List.append_nil] at hbytes
      have hall : (feedData L s b).log.flatMap (itemBytes separator) = got ++ [b] := by
        rw [feedData_bytes, hbytes]
      refine ⟨by simp [feedData_error, herror], by simp, by simp, fun _ => rfl, fun _ => ?_, ?_⟩
      · rw [hall, List.append_nil]
      · rewrite [hall]
        exact List.prefix_rfl

private theorem kept_frame (got : List UInt8) :
    Kept separator maxLineSize (frame L separator maxLineSize got) got := by
  induction got using List.reverseRecOn with
  | nil => exact ⟨.inl rfl, by simp [frame, start], by simp [frame, start], by simp [frame, start],
      fun _ => rfl, List.prefix_rfl⟩
  | append_singleton got b ih =>
    rw [frame, run_append]
    exact kept_feed ih b

theorem frame_error (got : List UInt8) :
    (frame L separator maxLineSize got).session.error = none ∨
      (frame L separator maxLineSize got).session.error = some .commandTooLong :=
  (kept_frame got).error

/-- Every byte is in a line, is the separator behind a line, is a byte of data or is pending. -/
theorem frame_bytes {got : List UInt8}
    (h : (frame L separator maxLineSize got).session.error = none) :
    (frame L separator maxLineSize got).session.log.flatMap (itemBytes separator) ++
      (frame L separator maxLineSize got).pending = got :=
  (kept_frame got).bytes h

theorem length_pending_le (got : List UInt8) :
    (frame L separator maxLineSize got).pending.length ≤ maxLineSize := (kept_frame got).short

/-- The pending bytes lead to where they are pending. -/
theorem run_pending {got : List UInt8}
    (h : (frame L separator maxLineSize got).session.error = none) :
    run (feed L separator maxLineSize) ⟨(frame L separator maxLineSize got).session, []⟩
        (frame L separator maxLineSize got).pending = frame L separator maxLineSize got ∧
      Within (Tame L separator maxLineSize) (feed L separator maxLineSize)
        ⟨(frame L separator maxLineSize got).session, []⟩
        (frame L separator maxLineSize got).pending := by
  have hkept := @kept_frame L separator maxLineSize got
  generalize frame L separator maxLineSize got = A at *
  obtain ⟨s, pending⟩ := A
  cases hmode : s.mode with
  | line =>
    have hlen : ([] : List UInt8).length + pending.length ≤ maxLineSize := by
      simpa using hkept.short
    exact ⟨run_line h hmode [] hkept.noSeparator hlen, tame_line h hmode [] hkept.noSeparator hlen⟩
  | data =>
    have hnil : pending = [] := hkept.noData hmode
    subst hnil
    exact ⟨rfl, within_nil _ _ _⟩

end Framer
end Blacklink.Net
