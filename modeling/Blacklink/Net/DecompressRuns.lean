import Blacklink.Net.Decompress

/-!
# Decompressed lines over whole runs

The text before the unparsed part of `zb` is the beginning of the decompressed text, and the
listener has been given its lines. So the lines are right at every time, and none is missing when
the input is used up as long as the last call of the filter has completed none: `parseData` is
called for want of room and at the end of the stream only.
-/

namespace Blacklink.Net

open Blacklink.Base Blacklink.Stream Framer

/-! ### `parseData` for a listener that keeps the mode -/

namespace Session

variable {separator : UInt8} {maxLineSize : Nat}

theorem mode_parseData_quiet (s : Session) (unread : List UInt8) :
    (s.parseData quiet separator maxLineSize unread).1.mode = s.mode := by
  fun_induction Session.parseData quiet separator maxLineSize s unread with
  | case1 => rfl
  | case2 => rfl
  | case3 => rfl
  | case4 => rfl
  | case5 s unread c rest hrest line hlen s' hmode ih => exact ih

/-- What is left of the text has no separator, and the lines of the rest have been given. -/
theorem parseData_quiet {s : Session} (herror : s.error = none) (hmode : s.mode = .line)
    (unread : List UInt8)
    (hr : (s.parseData quiet separator maxLineSize unread).1.error = none) :
    ∃ done, unread = done ++ (s.parseData quiet separator maxLineSize unread).2 ∧
      run (feed quiet separator maxLineSize) ⟨s, []⟩ done =
        ⟨(s.parseData quiet separator maxLineSize unread).1, []⟩ ∧
      separator ∉ (s.parseData quiet separator maxLineSize unread).2 ∧
      (s.parseData quiet separator maxLineSize unread).2.length ≤ maxLineSize := by
  obtain ⟨hadv, hleft, -⟩ := advances_parseData quiet separator maxLineSize herror hmode unread
  obtain ⟨hsep, hlen⟩ := hleft hr ((mode_parseData_quiet s unread).trans hmode)
  rcases hadv with ⟨-, done, heq, hrun⟩ | ⟨hne, -⟩
  · exact ⟨done, heq, hrun, hsep, hlen⟩
  · exact absurd hr hne

/-- A line that is too long is found in any text that begins so. -/
theorem parseData_quiet_failed {s : Session} (herror : s.error = none) (hmode : s.mode = .line)
    (unread : List UInt8)
    (hr : (s.parseData quiet separator maxLineSize unread).1.error ≠ none) (rest : List UInt8) :
    (run (feed quiet separator maxLineSize) ⟨s, []⟩ (unread ++ rest)).session =
      (s.parseData quiet separator maxLineSize unread).1 := by
  obtain ⟨hadv, -, -⟩ := advances_parseData quiet separator maxLineSize herror hmode unread
  rcases hadv with ⟨hnone, -⟩ | ⟨-, hrun⟩
  · exact absurd hnone hr
  · rw [run_append, run_failed (by rw [hrun]; exact hr), hrun]

theorem parseData_of_not_mem {s : Session} {unread : List UInt8} (hsep : separator ∉ unread)
    (hlen : unread.length ≤ maxLineSize) :
    s.parseData quiet separator maxLineSize unread = (s, unread) := by
  have hdrop : unread.dropWhile (· ≠ separator) = [] := by
    rw [List.dropWhile_eq_nil_iff]
    intro b hb
    rw [decide_eq_true_iff]
    rintro rfl
    exact hsep hb
  rw [parseData]
  split
  · rw [if_neg (Nat.not_lt.mpr hlen)]
  · next hrest => rw [hdrop] at hrest; cases hrest

end Session

/-! ### The buffer -/

namespace Buffer

theorem unread_growTo (b : Buffer) (n : Nat) : (b.growTo n).unread = b.unread := by
  simp [growTo, unread]

theorem sound_growTo {b : Buffer} (h : b.Sound) {n : Nat} (hlow : b.capacity < n)
    (hhigh : n ≤ b.maxCapacity) : (b.growTo n).Sound := by
  obtain ⟨_, hwrite, hcap, hlarge⟩ := h
  have hlen := b.length_unread_le
  constructor
  · exact Nat.zero_le _
  · change b.unread.length ≤ max n _
    omega
  · change max n (max (min (b.capacity * 2) b.maxCapacity) initialCapacity) ≤ b.maxCapacity
    omega
  · exact hlarge

theorem sound_shift {b : Buffer} (h : b.Sound) : b.shift.Sound := by
  have hlen := b.length_unread_le
  have hwrite := h.write
  exact ⟨Nat.zero_le _, by change b.unread.length ≤ b.capacity; omega, h.capacity, h.large⟩

theorem unread_shift (b : Buffer) : b.shift.unread = b.unread := by
  simp [shift, unread]

theorem free_shift {b : Buffer} (h : b.Sound) (hread : b.readPtr ≠ 0) : b.shift.free ≠ 0 := by
  have hlen : b.unread.length = b.data.length - b.readPtr := List.length_drop
  have hle := h.read
  have hwrite := h.write
  change b.capacity - b.unread.length ≠ 0
  omega

@[simp] theorem capacity_maybeShift (b : Buffer) : b.maybeShift.capacity = b.capacity := by
  rw [maybeShift]
  split
  · rfl
  · split <;> rfl

/-- What is read up to a suffix of what has not been read. -/
theorem unread_of_suffix {b : Buffer} {rest : List UInt8} (h : rest <:+ b.unread) :
    { b with readPtr := b.writePtr - rest.length }.unread = rest := by
  have hdata : rest <:+ b.data := h.trans (List.drop_suffix _ _)
  exact (List.suffix_iff_eq_drop.mp hdata).symm

/-- A buffer with no room, of which nothing has been read, stays as it is. -/
theorem maybeShift_of_readPtr_zero {b : Buffer} (h : b.readPtr = 0) (hne : b.writePtr ≠ 0) :
    b.maybeShift = b := by
  rw [maybeShift, h, if_neg (Ne.symm hne), if_neg (fun h => h.1 rfl)]

end Buffer

/-! ### The lines of a text -/

variable {separator : UInt8} {maxLineSize : Nat}

private theorem log_feed (A : Framer) (b : UInt8) :
    A.session.log <+: (A.feed quiet separator maxLineSize b).session.log := by
  rw [feed]
  cases A.session.error with
  | some e => exact List.prefix_rfl
  | none =>
    cases A.session.mode with
    | line =>
      dsimp only
      split
      · rw [Session.callback_log]
        exact List.prefix_append _ _
      · split
        · exact List.prefix_rfl
        · exact List.prefix_rfl
    | data =>
      dsimp only [feedData]
      split
      · exact List.prefix_append _ _
      · split
        · rw [Session.callback_log]
          exact (List.prefix_append _ _).trans (List.prefix_append _ _)
        · exact List.prefix_append _ _

theorem log_run (A : Framer) (text : List UInt8) :
    A.session.log <+: (run (feed quiet separator maxLineSize) A text).session.log := by
  induction text generalizing A with
  | nil => exact List.prefix_rfl
  | cons b text ih => exact (log_feed A b).trans (ih _)

theorem lines_append (x y : List UInt8) :
    ZPipe.lines separator maxLineSize x <+: ZPipe.lines separator maxLineSize (x ++ y) := by
  rw [ZPipe.lines, ZPipe.lines, frame, frame, run_append]
  exact log_run _ y

/-- The listener is given nothing more exactly when the text begins with no line. -/
theorem log_run_eq_iff {s : Session} (herror : s.error = none) (hmode : s.mode = .line)
    (text : List UInt8) :
    (run (feed quiet separator maxLineSize) ⟨s, []⟩ text).session.log = s.log ↔
      ZPipe.NoLine separator maxLineSize text := by
  by_cases hsep : separator ∈ text
  · let l := text.takeWhile (· ≠ separator)
    obtain ⟨c, rest, hrest⟩ : ∃ c rest, text.dropWhile (· ≠ separator) = c :: rest := by
      cases hdrop : text.dropWhile (· ≠ separator) with
      | nil => exact absurd hsep (separator_not_mem_of_dropWhile hdrop)
      | cons c rest => exact ⟨c, rest, rfl⟩
    obtain ⟨heq, rfl⟩ := dropWhile_cons hrest
    have hl : c ∉ l := separator_not_mem_takeWhile text
    by_cases hlen : maxLineSize < l.length
    · have hlong := run_line_long (L := quiet) herror hmode [] hl (by simpa using hlen)
        (Nat.zero_le _) (c :: rest)
      rw [heq, hlong]
      exact iff_of_true rfl fun _ => heq ▸ hlen
    · -- The first line is given, so that the log grows.
      have hline : run (feed quiet c maxLineSize) ⟨s, []⟩ (l ++ [c]) =
          ⟨s.callback quiet [.line l], []⟩ := by
        rw [run_append, run_line herror hmode [] hl (by simpa using hlen), List.nil_append,
          run_cons, run_nil, feed_line herror hmode, if_pos rfl]
      have hgrow : (s.callback quiet [.line l]).log <+:
          (run (feed quiet c maxLineSize) ⟨s.callback quiet [.line l], []⟩ rest).session.log :=
        log_run ⟨s.callback quiet [.line l], []⟩ rest
      have hsplit : text = l ++ [c] ++ rest := by
        rw [List.append_assoc]
        exact heq
      rw [← hline, ← run_append, ← hsplit, Session.callback_log] at hgrow
      apply iff_of_false
      · intro hsame
        rw [hsame] at hgrow
        have hle := hgrow.length_le
        rw [List.length_append, List.length_singleton] at hle
        omega
      · exact fun hno => hlen (hno hsep)
  · refine iff_of_true ?_ fun hmem => absurd hmem hsep
    by_cases hlen : text.length ≤ maxLineSize
    · rw [run_line herror hmode [] hsep (by simpa using hlen)]
    · have hlong := run_line_long (L := quiet) herror hmode [] hsep
        (by simpa using Nat.not_le.mp hlen) (Nat.zero_le _) []
      rw [List.append_nil] at hlong
      rw [hlong]
      rfl

namespace ZPipe

variable {φ : Type} {F : Inflater φ}

/-! ### The invariant -/

/-- While the filter is active: what has been put out is `done`, whose lines have been given, and
what lies in `zb`. -/
structure Active (F : Inflater φ) (separator : UInt8) (maxLineSize : Nat) (s : ZPipe φ) : Prop where
  running : s.Running
  mode : s.session.mode = .line
  sound : s.zb.Sound
  room : s.input ≠ [] → 0 < s.zb.capacity
  fed : F.seen s.zfilter ++ s.input = s.received
  given : F.given s.zfilter ≤ (F.text (F.seen s.zfilter)).length
  parsed : ∃ done, (F.text (F.seen s.zfilter)).take (F.given s.zfilter) = done ++ s.zb.unread ∧
    frame quiet separator maxLineSize done = ⟨s.session, []⟩

/-- When the filter is not active any more. -/
structure Stopped (F : Inflater φ) (separator : UInt8) (maxLineSize : Nat) (s : ZPipe φ) :
    Prop where
  stopped : ¬ s.Running
  lines : s.session.log <+: lines separator maxLineSize (F.text s.received)
  all : s.session.error ≠ none ∨ s.status = .ended →
    s.session.log = ZPipe.lines separator maxLineSize (F.text s.received)

variable {s : ZPipe φ}

/-- What has not been parsed of the text of everything received. -/
theorem Active.text (ha : Active F separator maxLineSize s) (hF : F.Correct) :
    ∃ done, F.text s.received =
        done ++ (s.zb.unread ++ (F.text s.received).drop (F.given s.zfilter)) ∧
      frame quiet separator maxLineSize done = ⟨s.session, []⟩ := by
  obtain ⟨done, htake, hframe⟩ := ha.parsed
  refine ⟨done, ?_, hframe⟩
  obtain ⟨rest, hrest⟩ := hF.text_append (F.seen s.zfilter) s.input
  rw [ha.fed] at hrest
  have hsame : (F.text s.received).take (F.given s.zfilter) = done ++ s.zb.unread := by
    rw [← hrest, List.take_append_of_le_length ha.given, htake]
  rw [← List.append_assoc, ← hsame, List.take_append_drop]

theorem Active.lines (ha : Active F separator maxLineSize s) (hF : F.Correct) :
    s.session.log <+: lines separator maxLineSize (F.text s.received) := by
  obtain ⟨done, htext, hframe⟩ := ha.text hF
  have hlog : s.session.log = ZPipe.lines separator maxLineSize done := by
    rw [ZPipe.lines, hframe]
  rw [hlog, htext]
  exact lines_append done _

/-- All lines have been given exactly when what has not been parsed has none. -/
theorem Active.all_iff (ha : Active F separator maxLineSize s) (hF : F.Correct) :
    s.session.log = ZPipe.lines separator maxLineSize (F.text s.received) ↔
      NoLine separator maxLineSize
        (s.zb.unread ++ (F.text s.received).drop (F.given s.zfilter)) := by
  obtain ⟨done, htext, hframe⟩ := ha.text hF
  rw [← log_run_eq_iff ha.running.1 ha.mode, eq_comm]
  conv_lhs => rw [htext]
  rw [ZPipe.lines, frame, run_append]
  rw [frame] at hframe
  rw [hframe]

theorem active_start (hF : F.Correct) {zb : Buffer} (hzb : zb.Sound) :
    Active F separator maxLineSize (start F zb) where
  running := ⟨rfl, rfl⟩
  mode := rfl
  sound := ⟨Nat.le_refl _, Nat.zero_le _, hzb.capacity, hzb.large⟩
  room := fun h => absurd rfl h
  fed := by
    change F.seen F.start ++ [] = []
    rw [hF.seen_start]
    rfl
  given := by
    change F.given F.start ≤ _
    rw [hF.given_start]
    exact Nat.zero_le _
  parsed := by
    refine ⟨[], ?_, rfl⟩
    change (F.text (F.seen F.start)).take (F.given F.start) = [] ++ ([] : List UInt8).drop 0
    rw [hF.given_start]
    rfl

/-! ### The steps -/

/-- The buffer is moved. -/
theorem Active.moved (ha : Active F separator maxLineSize s) {zb : Buffer}
    (hunread : zb.unread = s.zb.unread) (hsound : zb.Sound)
    (hroom : s.input ≠ [] → 0 < zb.capacity) :
    Active F separator maxLineSize { s with zb := zb } where
  running := ha.running
  mode := ha.mode
  sound := hsound
  room := hroom
  fed := ha.fed
  given := ha.given
  parsed := by
    obtain ⟨done, htake, hframe⟩ := ha.parsed
    exact ⟨done, htake.trans (congrArg (done ++ ·) hunread.symm), hframe⟩

theorem Active.read (ha : Active F separator maxLineSize s) (hinput : s.input = [])
    {chunk : List UInt8} (hchunk : chunk ≠ []) :
    Active F separator maxLineSize
      (prepare { s with input := chunk, received := s.received ++ chunk }) := by
  have hseen : F.seen s.zfilter = s.received := by
    rw [← ha.fed, hinput, List.append_nil]
  have hpos : 0 < chunk.length := List.length_pos_iff.mpr hchunk
  have hlarge : 0 < s.zb.maxCapacity := Nat.lt_of_lt_of_le (by decide) ha.sound.large
  have hbuffer : ∀ zb : Buffer, zb.unread = s.zb.unread → zb.Sound → 0 < zb.capacity →
      Active F separator maxLineSize
        { s with input := chunk, received := s.received ++ chunk, zb := zb } := by
    intro zb hunread hsound hroom
    have hm := ha.moved hunread hsound fun _ => hroom
    exact ⟨hm.running, hm.mode, hm.sound, fun _ => hroom, congrArg (· ++ chunk) hseen, hm.given,
      hm.parsed⟩
  unfold prepare
  apply hbuffer
  · dsimp only
    split
    · exact Buffer.unread_growTo _ _
    · exact Buffer.unread_maybeShift _
  · dsimp only
    split
    · next hlt => exact Buffer.sound_growTo ha.sound hlt (Nat.min_le_right _ _)
    · exact Buffer.sound_maybeShift ha.sound
  · dsimp only
    split
    · next hlt => exact Nat.lt_of_lt_of_le (Nat.zero_lt_of_lt hlt) (Nat.le_max_left _ _)
    · next hge =>
      rw [Buffer.capacity_maybeShift]
      omega

/-- `parseData` on `zb` that throws nothing. -/
theorem Active.parse (ha : Active F separator maxLineSize s)
    (hnone : (parse separator maxLineSize s).session.error = none) :
    Active F separator maxLineSize (parse separator maxLineSize s) ∧
      (parse separator maxLineSize s).zb.unread <:+ s.zb.unread ∧
      separator ∉ (parse separator maxLineSize s).zb.unread ∧
      (parse separator maxLineSize s).zb.unread.length ≤ maxLineSize := by
  obtain ⟨done', hsplit, hrun, hsep, hlen⟩ :=
    Session.parseData_quiet ha.running.1 ha.mode s.zb.unread hnone
  obtain ⟨done, htake, hframe⟩ := ha.parsed
  have hsuffix : (s.session.parseData quiet separator maxLineSize s.zb.unread).2 <:+ s.zb.unread :=
    ⟨done', hsplit.symm⟩
  have hunread : (ZPipe.parse separator maxLineSize s).zb.unread =
      (s.session.parseData quiet separator maxLineSize s.zb.unread).2 :=
    Buffer.unread_of_suffix hsuffix
  rw [hunread]
  refine ⟨⟨⟨hnone, ha.running.2⟩, (Session.mode_parseData_quiet _ _).trans ha.mode, ?_, ha.room,
    ha.fed, ha.given, done ++ done', ?_, ?_⟩, hsuffix, hsep, hlen⟩
  · exact ⟨Nat.sub_le _ _, ha.sound.write, ha.sound.capacity, ha.sound.large⟩
  · rw [hunread, List.append_assoc, ← hsplit]
    exact htake
  · rw [frame, run_append]
    rw [frame] at hframe
    rw [hframe, hrun]
    rfl

/-- `parseData` on `zb` that throws. -/
theorem Active.parse_failed (ha : Active F separator maxLineSize s) (hF : F.Correct)
    (hne : (ZPipe.parse separator maxLineSize s).session.error ≠ none) :
    Stopped F separator maxLineSize (ZPipe.parse separator maxLineSize s) := by
  obtain ⟨done, htext, hframe⟩ := ha.text hF
  have hall : (ZPipe.parse separator maxLineSize s).session.log =
      ZPipe.lines separator maxLineSize (F.text s.received) := by
    rw [htext, ZPipe.lines, frame, run_append]
    rw [frame] at hframe
    rw [hframe, Session.parseData_quiet_failed ha.running.1 ha.mode s.zb.unread hne]
    rfl
  exact ⟨fun h => hne h.1, hall ▸ List.prefix_rfl, fun _ => hall⟩

/-- Nothing can be given out of a buffer that stays full. -/
theorem full_of_maybeShift {b b' : Buffer} (hb : b.Sound) (hb' : b'.Sound)
    (hdata : b'.data = b.data) (hcap : b'.capacity = b.capacity) (hpos : 0 < b.capacity)
    (hsuffix : b'.unread <:+ b.unread) (hfree : b'.maybeShift.free = 0)
    (hread : b'.maybeShift.readPtr = 0) : b.readPtr = 0 ∧ b'.unread = b.unread := by
  have hlen : b.unread.length = b.data.length - b.readPtr := List.length_drop
  have hlen' : b'.unread.length = b'.data.length - b'.readPtr := List.length_drop
  have hle := hsuffix.length_le
  have hwrite := hb.write
  have hread' := hb.read
  have hread'' := hb'.read
  unfold Buffer.maybeShift at hfree hread
  rw [hdata] at hlen' hread''
  have hzero : b'.readPtr = 0 := by
    split at hfree
    · unfold Buffer.free Buffer.writePtr at hfree
      dsimp only [List.length_nil] at hfree
      omega
    · next hne =>
      split at hfree
      · next hshift =>
        unfold Buffer.free Buffer.writePtr Buffer.shift at hfree
        dsimp only at hfree
        omega
      · next hshift =>
        rw [if_neg hne, if_neg hshift] at hread
        exact hread
  have hsame : b'.unread.length = b.unread.length := by omega
  exact ⟨by omega, hsuffix.eq_of_length hsame⟩

/-- A buffer with no room has room after `parseData`, unless it is full of a line. -/
theorem Active.makeRoom (ha : Active F separator maxLineSize s) (hF : F.Correct)
    (hinput : s.input ≠ []) :
    Stopped F separator maxLineSize (makeRoom separator maxLineSize s) ∧
      (makeRoom separator maxLineSize s).session.error ≠ none ∧
      (makeRoom separator maxLineSize s).status = .active ∨
    Active F separator maxLineSize (makeRoom separator maxLineSize s) ∧
      (makeRoom separator maxLineSize s).input = s.input ∧
      (makeRoom separator maxLineSize s).zb.free ≠ 0 ∨
    Stopped F separator maxLineSize (makeRoom separator maxLineSize s) ∧
      (makeRoom separator maxLineSize s).session.error = none ∧
      (makeRoom separator maxLineSize s).status = .capacityExceeded ∧
      (makeRoom separator maxLineSize s).zb.capacity = s.zb.capacity ∧
      (makeRoom separator maxLineSize s).zb.maxCapacity = s.zb.maxCapacity ∧
      s.zb.readPtr = 0 ∧ separator ∉ s.zb.unread ∧ s.zb.unread.length ≤ maxLineSize := by
  unfold ZPipe.makeRoom
  dsimp only
  split
  · next e herror =>
    have hne : (ZPipe.parse separator maxLineSize s).session.error ≠ none := by
      rw [herror]
      exact Option.some_ne_none e
    exact .inl ⟨ha.parse_failed hF hne, hne, ha.running.2⟩
  · next herror =>
    obtain ⟨hp, hsuffix, hsep, hlen⟩ := ha.parse herror
    have hpos := ha.room hinput
    have hsound := Buffer.sound_maybeShift hp.sound
    have hunread := Buffer.unread_maybeShift (ZPipe.parse separator maxLineSize s).zb
    have hcap := Buffer.capacity_maybeShift (ZPipe.parse separator maxLineSize s).zb
    split
    · next hfree => exact .inr (.inl ⟨hp.moved hunread hsound fun _ => hcap ▸ hpos, rfl, hfree⟩)
    · next hfree =>
      split
      · next hread =>
        exact .inr (.inl ⟨hp.moved ((Buffer.unread_shift _).trans hunread)
          (Buffer.sound_shift hsound) fun _ => hcap ▸ hpos, rfl, Buffer.free_shift hsound hread⟩)
      · next hread =>
        have hlines := hp.lines hF
        obtain ⟨hzero, hsame⟩ := full_of_maybeShift ha.sound hp.sound rfl rfl hpos hsuffix
          (not_not.mp hfree) (not_not.mp hread)
        rw [hsame] at hsep hlen
        refine .inr (.inr ⟨⟨fun h => ?_, hlines, ?_⟩, herror, rfl, hcap,
          Buffer.maxCapacity_maybeShift _, hzero, hsep, hlen⟩)
        · cases h.2
        · rintro (hne | hended)
          · exact absurd herror hne
          · cases hended

/-- The exception that the room runs out. -/
theorem makeRoom_exceeded (hread : s.zb.readPtr = 0) (hfull : s.zb.free = 0)
    (hpos : 0 < s.zb.capacity) (hnone : s.session.error = none)
    (hsep : separator ∉ s.zb.unread) (hlen : s.zb.unread.length ≤ maxLineSize) :
    (makeRoom separator maxLineSize s).status = .capacityExceeded := by
  have hunread : s.zb.unread = s.zb.data := by
    rw [Buffer.unread, hread, List.drop_zero]
  have hparse : ZPipe.parse separator maxLineSize s = s := by
    rw [ZPipe.parse, Session.parseData_of_not_mem hsep hlen, hunread, Buffer.writePtr, Nat.sub_self,
      ← hread]
  have hne : s.zb.writePtr ≠ 0 := by
    unfold Buffer.free at hfull
    omega
  have hshift := Buffer.maybeShift_of_readPtr_zero hread hne
  unfold ZPipe.makeRoom
  rw [hparse]
  dsimp only
  rw [hnone]
  dsimp only
  rw [hshift, if_neg (not_not.mpr hfull), if_neg (not_not.mpr hread)]

/-! ### The filter -/

/-- What the filter puts out is the text that follows. -/
theorem text_inflate (hF : F.Correct) {r : FilterResult φ} {room : Nat}
    (hgiven : F.given s.zfilter ≤ (F.text (F.seen s.zfilter)).length)
    (heff : F.Effect s.zfilter s.input room r) :
    (F.text (F.seen r.next)).take (F.given r.next) =
        (F.text (F.seen s.zfilter)).take (F.given s.zfilter) ++ r.out ∧
      F.given r.next ≤ (F.text (F.seen r.next)).length := by
  obtain ⟨rest, hrest⟩ := hF.text_append (F.seen s.zfilter) (s.input.take r.consumed)
  rw [← heff.seen] at hrest
  have hout := List.prefix_iff_eq_take.mp heff.out
  have hlen := heff.out.length_le
  rw [List.length_drop] at hlen
  have hle : (F.text (F.seen s.zfilter)).length ≤ (F.text (F.seen r.next)).length := by
    rw [← hrest, List.length_append]
    exact Nat.le_add_right _ _
  constructor
  · rw [heff.given, List.take_add, ← hout, ← hrest, List.take_append_of_le_length hgiven]
  · rw [heff.given]
    omega

/-- The call of the filter, for a stream that goes on. -/
theorem Active.more (ha : Active F separator maxLineSize s) (hF : F.Correct)
    {r : FilterResult φ} (heff : F.Effect s.zfilter s.input s.zb.free r) :
    Active F separator maxLineSize
      { s with input := s.input.drop r.consumed, zfilter := r.next,
               zb := { s.zb with data := s.zb.data ++ r.out } } := by
  obtain ⟨done, htake, hframe⟩ := ha.parsed
  obtain ⟨htext, hgiven⟩ := text_inflate hF ha.given heff
  have hfits := heff.fits
  have hread := ha.sound.read
  have hwrite := ha.sound.write
  unfold Buffer.free Buffer.writePtr at hfits
  refine ⟨ha.running, ha.mode, ⟨?_, ?_, ha.sound.capacity, ha.sound.large⟩, ?_, ?_, hgiven, done,
    ?_, hframe⟩
  · exact hread.trans (by rw [List.length_append]; exact Nat.le_add_right _ _)
  · change (s.zb.data ++ r.out).length ≤ s.zb.capacity
    rw [List.length_append]
    omega
  · intro hinput
    apply ha.room
    rintro hnil
    exact hinput (by rw [hnil, List.drop_nil])
  · rw [heff.seen, List.append_assoc, List.take_append_drop]
    exact ha.fed
  · change _ = done ++ (s.zb.data ++ r.out).drop s.zb.readPtr
    rw [List.drop_append_of_le_length hread, htext, htake, List.append_assoc]
    rfl

/-- The stream ends: what is in `zb` is parsed, and all lines have been given. -/
theorem Active.finish (ha : Active F separator maxLineSize s) (hF : F.Correct)
    {r : FilterResult φ} (heff : F.Effect s.zfilter s.input s.zb.free r)
    (herr : r.status ≠ .error) (hmore : r.status ≠ .more) {m s' : ZPipe φ}
    (hm : m = { s with input := s.input.drop r.consumed, zfilter := r.next,
                       zb := { s.zb with data := s.zb.data ++ r.out } })
    (hs' : s' = match (ZPipe.parse separator maxLineSize m).session.error with
      | some _ => ZPipe.parse separator maxLineSize m
      | none => { ZPipe.parse separator maxLineSize m with
          zb := (ZPipe.parse separator maxLineSize m).zb.maybeShift, status := .ended }) :
    Stopped F separator maxLineSize s' ∧ s'.status ≠ .capacityExceeded := by
  have hended : r.status = .ended := by
    cases h : r.status with
    | more => exact absurd h hmore
    | ended => rfl
    | error => exact absurd h herr
  have hact : Active F separator maxLineSize m := hm ▸ ha.more hF heff
  obtain ⟨hgiven, hend⟩ := heff.ended hended
  have hnext : m.zfilter = r.next := by rw [hm]
  have hdrop : (F.text m.received).drop (F.given m.zfilter) = [] := by
    rw [← hact.fed, hnext, hend]
    exact List.drop_eq_nil_of_le hgiven
  subst hs'
  split
  · next e herror =>
    have hne : (ZPipe.parse separator maxLineSize m).session.error ≠ none := by
      rw [herror]
      exact Option.some_ne_none e
    refine ⟨hact.parse_failed hF hne, ?_⟩
    change m.status ≠ _
    rw [hact.running.2]
    decide
  · next herror =>
    obtain ⟨hp, -, hsep, -⟩ := hact.parse herror
    have hlog : (ZPipe.parse separator maxLineSize m).session.log =
        ZPipe.lines separator maxLineSize (F.text m.received) := by
      apply (hp.all_iff hF).mpr
      change NoLine separator maxLineSize ((ZPipe.parse separator maxLineSize m).zb.unread ++
        (F.text m.received).drop (F.given m.zfilter))
      rw [hdrop, List.append_nil]
      exact fun hmem => absurd hmem hsep
    refine ⟨⟨fun h => ?_, hlog ▸ List.prefix_rfl, fun _ => hlog⟩, nofun⟩
    cases h.2

/-! ### What the listener has been given -/

theorem Stopped.delivered (hs : Stopped F separator maxLineSize s)
    (hroom : s.status = .capacityExceeded → s.zb.capacity = s.zb.maxCapacity) :
    Delivered F separator maxLineSize s := by
  refine ⟨hs.lines, ?_, hroom⟩
  rintro (hne | hended | ⟨hactive, -⟩)
  · exact hs.all (.inl hne)
  · exact hs.all (.inr hended)
  · exact hs.all (.inl fun hnone => hs.stopped ⟨hnone, hactive⟩)

theorem Active.delivered_iff (ha : Active F separator maxLineSize s) (hF : F.Correct) :
    Delivered F separator maxLineSize s ↔ (s.input = [] →
      NoLine separator maxLineSize
        (s.zb.unread ++ (F.text s.received).drop (F.given s.zfilter))) := by
  rw [← ha.all_iff hF]
  constructor
  · exact fun hd hinput => hd.all (.inr (.inr ⟨ha.running.2, hinput⟩))
  · intro hall
    refine ⟨ha.lines hF, ?_, ?_⟩
    · rintro (hne | hended | ⟨-, hinput⟩)
      · exact absurd ha.running.1 hne
      · rw [ha.running.2] at hended
        cases hended
      · exact hall hinput
    · intro hstatus
      rw [ha.running.2] at hstatus
      cases hstatus

/-- The filter is active, or is not any more. -/
def Inv (F : Inflater φ) (separator : UInt8) (maxLineSize : Nat) (s : ZPipe φ) : Prop :=
  Active F separator maxLineSize s ∨ Stopped F separator maxLineSize s

/-- One step of the loop: the invariant, and when the lines have been given behind it. -/
theorem Active.turn (ha : Active F separator maxLineSize s) (hF : F.Correct)
    (hinput : s.input ≠ []) :
    Inv F separator maxLineSize (step F separator maxLineSize s .turn) ∧
      (Delivered F separator maxLineSize (step F separator maxLineSize s .turn) ↔
        TurnOk F separator maxLineSize s) := by
  unfold step TurnOk
  rw [if_pos ⟨ha.running, hinput⟩]
  by_cases hfree : s.zb.free = 0
  · rw [if_pos hfree, if_pos hfree]
    have hexceeded := @makeRoom_exceeded separator maxLineSize φ s
    rcases ha.makeRoom hF hinput with ⟨hs, -, hactive⟩ | ⟨ha', hsame, -⟩ |
      ⟨hs, -, hstatus, hcap, hmax, hread, hsep, hlen⟩
    · refine ⟨.inr hs, iff_of_true (hs.delivered fun h => ?_) fun hread hsep hlen => ?_⟩
      · rw [hactive] at h
        cases h
      · rw [hexceeded hread hfree (ha.room hinput) ha.running.1 hsep hlen] at hactive
        cases hactive
    · refine ⟨.inl ha', iff_of_true ?_ fun hread hsep hlen => ?_⟩
      · rw [ha'.delivered_iff hF, hsame]
        exact fun h => absurd h hinput
      · have hactive := ha'.running.2
        rw [hexceeded hread hfree (ha.room hinput) ha.running.1 hsep hlen] at hactive
        cases hactive
    · refine ⟨.inr hs, ?_⟩
      constructor
      · intro hd _ _ _
        rw [← hcap, ← hmax]
        exact hd.room hstatus
      · intro hok
        apply hs.delivered
        intro _
        rw [hcap, hmax]
        exact hok hread hsep hlen
  · rw [if_neg hfree, if_neg hfree]
    unfold inflate
    dsimp only
    generalize hr : F.apply s.zfilter s.input s.zb.free = r
    by_cases herr : r.status = .error
    · rw [if_pos herr]
      have hs : Stopped F separator maxLineSize { s with status := .decompressionError } := by
        refine ⟨fun h => ?_, ha.lines hF, ?_⟩
        · cases h.2
        · rintro (hne | hended)
          · exact absurd ha.running.1 hne
          · cases hended
      refine ⟨.inr hs, iff_of_true (hs.delivered fun h => ?_) fun hmore => ?_⟩
      · cases h
      · rw [herr] at hmore
        cases hmore
    · rw [if_neg herr]
      have heff : F.Effect s.zfilter s.input s.zb.free r := by
        rw [← hr]
        exact hF.effect _ _ _ hinput (Nat.pos_of_ne_zero hfree) (by rw [hr]; exact herr)
      have hmore := ha.more hF heff
      by_cases hstatus : r.status = .more
      · rw [if_pos hstatus]
        refine ⟨.inl hmore, ?_⟩
        rw [hmore.delivered_iff hF]
        have hrest : r.consumed = s.input.length →
            s.zb.unread ++ (F.text s.received).drop (F.given s.zfilter) =
              ({ s.zb with data := s.zb.data ++ r.out } : Buffer).unread ++
                (F.text s.received).drop (F.given r.next) := by
          intro hconsumed
          have hseen : F.seen r.next = s.received := by
            rw [heff.seen, hconsumed, List.take_length, ha.fed]
          obtain ⟨held, hheld⟩ := heff.out
          rw [hseen] at hheld
          rw [heff.given, ← List.drop_drop, ← hheld, List.drop_left, ← List.append_assoc]
          congr 1
          exact (List.drop_append_of_le_length ha.sound.read).symm
        constructor
        · intro hno _ hconsumed
          rw [hrest hconsumed]
          apply hno
          rw [hconsumed, List.drop_length]
        · intro hok hnil
          have hconsumed : r.consumed = s.input.length :=
            Nat.le_antisymm heff.taken (List.drop_eq_nil_iff.mp hnil)
          change NoLine separator maxLineSize (({ s.zb with data := s.zb.data ++ r.out } :
            Buffer).unread ++ (F.text s.received).drop (F.given r.next))
          rw [← hrest hconsumed]
          exact hok hstatus hconsumed
      · rw [if_neg hstatus]
        obtain ⟨hs, hstatus'⟩ := ha.finish hF heff herr hstatus rfl rfl
        exact ⟨.inr hs, iff_of_true (hs.delivered fun h => absurd h hstatus')
          fun h => absurd h hstatus⟩

/-- The invariant goes on; and where the lines have been given, they are given behind an event
exactly when the condition is met. -/
theorem Inv.step (hF : F.Correct) (hi : Inv F separator maxLineSize s) (e : PipeEvent) :
    Inv F separator maxLineSize (ZPipe.step F separator maxLineSize s e) ∧
      (Delivered F separator maxLineSize s →
        (Delivered F separator maxLineSize (ZPipe.step F separator maxLineSize s e) ↔
          EventOk F separator maxLineSize s e)) := by
  cases e with
  | read chunk =>
    by_cases h : s.Running ∧ s.input = [] ∧ chunk ≠ []
    · have hstep : ZPipe.step F separator maxLineSize s (.read chunk) =
          prepare { s with input := chunk, received := s.received ++ chunk } := if_pos h
      rw [hstep]
      rcases hi with ha | hs
      · have hread := ha.read h.2.1 h.2.2
        refine ⟨.inl hread, fun _ => iff_of_true ?_ True.intro⟩
        rw [hread.delivered_iff hF]
        exact fun hnil => absurd hnil h.2.2
      · exact absurd h.1 hs.stopped
    · have hstep : ZPipe.step F separator maxLineSize s (.read chunk) = s := if_neg h
      rw [hstep]
      exact ⟨hi, fun hd => iff_of_true hd True.intro⟩
  | turn =>
    by_cases h : s.Running ∧ s.input ≠ []
    · rcases hi with ha | hs
      · obtain ⟨hi', hiff⟩ := ha.turn hF h.2
        exact ⟨hi', fun _ => hiff.trans ⟨fun hok _ _ => hok, fun hok => hok h.1 h.2⟩⟩
      · exact absurd h.1 hs.stopped
    · have hstep : ZPipe.step F separator maxLineSize s .turn = s := if_neg h
      rw [hstep]
      exact ⟨hi, fun hd => iff_of_true hd fun hrun hinput => absurd ⟨hrun, hinput⟩ h⟩

theorem delivered_start (hF : F.Correct) {zb : Buffer} (hzb : zb.Sound) :
    Delivered F separator maxLineSize (start F zb) := by
  rw [(active_start hF hzb).delivered_iff hF]
  intro _
  change NoLine separator maxLineSize (([] : List UInt8) ++
    (F.text []).drop (F.given F.start))
  rw [hF.text_nil, hF.given_start]
  exact fun hmem => absurd hmem List.not_mem_nil

theorem inv_run (hF : F.Correct) {zb : Buffer} (hzb : zb.Sound) (es : List PipeEvent) :
    Inv F separator maxLineSize (run (step F separator maxLineSize) (start F zb) es) :=
  run_invariant (Inv F separator maxLineSize) (fun _ e hi => (hi.step hF e).1)
    (.inl (active_start hF hzb)) es

/-! ### The loop ends -/

/-- What the loop has before it. -/
def left (F : Inflater φ) (s : ZPipe φ) : Nat :=
  2 * (s.input.length + ((F.text s.received).length - F.given s.zfilter)) +
    if s.zb.free = 0 then 1 else 0

private theorem makeRoom_kept :
    (makeRoom separator maxLineSize s).received = s.received ∧
      (makeRoom separator maxLineSize s).zfilter = s.zfilter := by
  unfold makeRoom
  dsimp only
  split
  · exact ⟨rfl, rfl⟩
  · split
    · exact ⟨rfl, rfl⟩
    · split
      · exact ⟨rfl, rfl⟩
      · exact ⟨rfl, rfl⟩

/-- A step behind which the loop goes on has done something. -/
theorem Active.left_lt (ha : Active F separator maxLineSize s) (hF : F.Correct)
    (hinput : s.input ≠ []) (hrun : (step F separator maxLineSize s .turn).Running) :
    left F (step F separator maxLineSize s .turn) < left F s := by
  have hstep : step F separator maxLineSize s .turn =
      if s.zb.free = 0 then ZPipe.makeRoom separator maxLineSize s
      else inflate F separator maxLineSize s := if_pos ⟨ha.running, hinput⟩
  rw [hstep] at hrun ⊢
  unfold left
  by_cases hfree : s.zb.free = 0
  · rw [if_pos hfree] at hrun ⊢
    obtain ⟨hreceived, hzfilter⟩ := @makeRoom_kept separator maxLineSize φ s
    rcases ha.makeRoom hF hinput with ⟨hs, -⟩ | ⟨-, hsame, hroom⟩ | ⟨hs, -⟩
    · exact absurd hrun hs.stopped
    · rw [hreceived, hzfilter, hsame, if_neg hroom, if_pos hfree]
      omega
    · exact absurd hrun hs.stopped
  · rw [if_neg hfree] at hrun ⊢
    unfold inflate at hrun ⊢
    dsimp only at hrun ⊢
    generalize hr : F.apply s.zfilter s.input s.zb.free = r at hrun ⊢
    by_cases herr : r.status = .error
    · rw [if_pos herr] at hrun
      cases hrun.2
    · rw [if_neg herr] at hrun ⊢
      have heff : F.Effect s.zfilter s.input s.zb.free r := by
        rw [← hr]
        exact hF.effect _ _ _ hinput (Nat.pos_of_ne_zero hfree) (by rw [hr]; exact herr)
      by_cases hstatus : r.status = .more
      · rw [if_pos hstatus]
        have hgiven := (text_inflate hF ha.given heff).2
        obtain ⟨rest, hrest⟩ := hF.text_append (F.seen r.next) (s.input.drop r.consumed)
        have hfed : F.seen r.next ++ s.input.drop r.consumed = s.received := (ha.more hF heff).fed
        rw [hfed] at hrest
        have hlen : (F.text (F.seen r.next)).length ≤ (F.text s.received).length := by
          rw [← hrest, List.length_append]
          exact Nat.le_add_right _ _
        have hnext := heff.given
        have htaken := heff.taken
        have hprogress : 0 < r.consumed ∨ 0 < r.out.length :=
          (heff.progress hstatus).imp_right List.length_pos_iff.mpr
        dsimp only
        rw [if_neg hfree, List.length_drop]
        split <;> omega
      · rw [if_neg hstatus] at hrun
        exact absurd hrun (ha.finish hF heff herr hstatus rfl rfl).1.stopped

/-- The loop of `decompress` ends: after some steps the input is used up, or the filter is not
active any more. -/
theorem turns_end (hF : F.Correct) (hi : Inv F separator maxLineSize s) :
    ∃ n ≤ left F s, ¬ ((run (step F separator maxLineSize) s (List.replicate n .turn)).Running ∧
      (run (step F separator maxLineSize) s (List.replicate n .turn)).input ≠ []) := by
  induction hn : left F s using Nat.strong_induction_on generalizing s with
  | _ n ih =>
    subst hn
    by_cases h : s.Running ∧ s.input ≠ []
    · rcases hi with ha | hs
      · by_cases hrun : (step F separator maxLineSize s .turn).Running
        · have hlt := ha.left_lt hF h.2 hrun
          obtain ⟨m, hle, hm⟩ := ih _ hlt (ha.turn hF h.2).1 rfl
          exact ⟨m + 1, hle.trans_lt hlt, hm⟩
        · have hpos := List.length_pos_iff.mpr h.2
          exact ⟨1, by unfold left; omega, fun hagain => hrun hagain.1⟩
      · exact absurd h.1 hs.stopped
    · exact ⟨0, Nat.zero_le _, h⟩

/-- However much is read and however often it has gone around: the loop of `decompress` ends, after
at most two steps for every byte of the input and of the text, and one more. -/
theorem turns_end_run (hF : F.Correct) {zb : Buffer} (hzb : zb.Sound) (es : List PipeEvent) :
    ∃ n ≤ left F (run (step F separator maxLineSize) (start F zb) es),
      ¬ ((run (step F separator maxLineSize) (start F zb)
          (es ++ List.replicate n .turn)).Running ∧
        (run (step F separator maxLineSize) (start F zb)
          (es ++ List.replicate n .turn)).input ≠ []) := by
  obtain ⟨n, hle, hn⟩ := turns_end hF (inv_run hF hzb es)
  exact ⟨n, hle, by rwa [run_append]⟩

/-- The stream of the text `a|`, of which the fifth byte completes the line. -/
def streamA : Inflater.Pieces :=
  [(0x78, []), (0x9c, []), (0x4b, []), (0xac, [0x61]), (0x01, [0x7c]), (0x00, []), (0x01, []),
    (0x40, []), (0x00, []), (0xde, [])]

theorem turns_end_run_streamA :
    ∃ n ≤ left streamA.inflater (run (step streamA.inflater 0x7c 16) (start streamA.inflater .new)
        [.read (streamA.map Prod.fst)]),
      ¬ ((run (step streamA.inflater 0x7c 16) (start streamA.inflater .new)
          ([.read (streamA.map Prod.fst)] ++ List.replicate n .turn)).Running ∧
        (run (step streamA.inflater 0x7c 16) (start streamA.inflater .new)
          ([.read (streamA.map Prod.fst)] ++ List.replicate n .turn)).input ≠ []) :=
  turns_end_run (Inflater.Pieces.correct_inflater streamA) Buffer.sound_new _

end ZPipe

end Blacklink.Net
