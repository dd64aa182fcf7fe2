import Blacklink.Net.Framing

/-!
# Received bytes, read by read

The buffer keeps the bytes that are no line yet, so the socket is after any reads where the framer
is after the bytes read (`log_eq_frame`). A read into a full buffer, or one for no bytes, takes the
connection for closed: `ReadOk` and `Framer.Tame` are what excludes them.
-/

namespace Blacklink.Net

open Base

/-! ### The buffer -/

namespace Buffer

/-- The positions are in order. -/
structure Sound (b : Buffer) : Prop where
  read : b.readPtr ≤ b.data.length
  write : b.data.length ≤ b.capacity
  capacity : b.capacity ≤ b.maxCapacity
  large : initialCapacity ≤ b.maxCapacity

theorem sound_new : new.Sound := by
  constructor <;> simp [new, initialCapacity]

theorem length_unread_le (b : Buffer) : b.unread.length ≤ b.data.length := by
  simp [unread]

theorem sound_grow {b : Buffer} (h : b.Sound) : b.grow.Sound := by
  obtain ⟨_, hwrite, hcap, hlarge⟩ := h
  have hlen := b.length_unread_le
  rw [grow]
  split
  · exact ⟨‹_›, hwrite, hcap, hlarge⟩
  · next hne =>
    constructor
    · simp
    · simp only
      omega
    · simp only
      omega
    · exact hlarge

theorem unread_grow (b : Buffer) : b.grow.unread = b.unread := by
  rw [grow]
  split
  · rfl
  · simp [unread]

/-- A buffer that may grow has room afterwards. -/
theorem writePtr_grow_lt {b : Buffer} (hlt : b.writePtr < b.maxCapacity)
    (hfull : b.writePtr = b.capacity) : b.grow.writePtr < b.grow.capacity := by
  have hlen := b.length_unread_le
  rw [writePtr] at hlt hfull
  rw [grow, if_neg (by omega)]
  simp only [writePtr, initialCapacity]
  omega

theorem sound_maybeShift {b : Buffer} (h : b.Sound) : b.maybeShift.Sound := by
  obtain ⟨hread, hwrite, hcap, hlarge⟩ := h
  have hlen := b.length_unread_le
  rw [maybeShift]
  split
  · exact ⟨by simp, by simp, hcap, hlarge⟩
  · split
    · exact ⟨by simp [shift], by simp only [shift]; omega, hcap, hlarge⟩
    · exact ⟨hread, hwrite, hcap, hlarge⟩

theorem unread_maybeShift (b : Buffer) : b.maybeShift.unread = b.unread := by
  rw [maybeShift]
  split
  · next h =>
    rw [writePtr] at h
    simp [unread, h]
  · split
    · simp [shift, unread]
    · rfl

@[simp] theorem maxCapacity_grow (b : Buffer) : b.grow.maxCapacity = b.maxCapacity := by
  rw [grow]
  split <;> rfl

@[simp] theorem maxCapacity_maybeShift (b : Buffer) :
    b.maybeShift.maxCapacity = b.maxCapacity := by
  rw [maybeShift]
  split
  · rfl
  · split <;> rfl

/-- At most half of the buffer has been read and is kept. -/
theorem readPtr_maybeShift_le {b : Buffer} (h : b.Sound) :
    b.maybeShift.readPtr ≤ b.maxCapacity / 2 := by
  have hcap := h.capacity
  rw [maybeShift]
  split
  · exact Nat.zero_le _
  · split
    · exact Nat.zero_le _
    · omega

end Buffer

namespace BufferedSocket

/-! ### One read -/

/-- The read has room. -/
def ReadOk (s : BufferedSocket) : ReadEvent → Prop
  | .read _ => s.session.error = none → s.rb.writePtr < s.rb.maxCapacity
  | .closed => True

theorem sound_readBuffer {s : BufferedSocket} (h : s.rb.Sound) : s.readBuffer.Sound := by
  rw [readBuffer]
  split
  · exact Buffer.sound_grow h
  · exact h

theorem unread_readBuffer (s : BufferedSocket) : s.readBuffer.unread = s.rb.unread := by
  rw [readBuffer]
  split
  · exact Buffer.unread_grow s.rb
  · rfl

theorem readSize_pos {s : BufferedSocket} (h : s.rb.Sound) (hfit : Framer.Fit s.session)
    (hlt : s.rb.writePtr < s.rb.maxCapacity) : s.readSize ≠ 0 := by
  have hroom : s.readBuffer.writePtr < s.readBuffer.capacity := by
    rw [readBuffer]
    split
    · next hfull => exact Buffer.writePtr_grow_lt hlt hfull
    · next hne => exact Nat.lt_of_le_of_ne h.write hne
  rw [readSize]
  split
  · next hcond => exact fun hzero => hfit.2 ⟨hcond.1, hzero⟩
  · omega

theorem readSize_le (s : BufferedSocket) :
    s.readSize ≤ s.readBuffer.capacity - s.readBuffer.writePtr := by
  rw [readSize]
  split <;> omega

theorem sound_receive {s : BufferedSocket} (h : s.rb.Sound) (bytes : Nat) :
    (s.receive bytes).rb.Sound := by
  obtain ⟨hread, hwrite, hcap, hlarge⟩ := sound_readBuffer h
  have hle := s.readSize_le
  rw [Buffer.writePtr] at hle
  simp only [receive]
  constructor
  · simp only [List.length_append]
    omega
  · simp only [List.length_append, List.length_take]
    omega
  · exact hcap
  · exact hlarge

theorem unread_receive {s : BufferedSocket} (h : s.rb.Sound) (bytes : Nat) :
    (s.receive bytes).rb.unread = s.rb.unread ++ s.input.take (min bytes s.readSize) := by
  rw [← unread_readBuffer s]
  exact List.drop_append_of_le_length (sound_readBuffer h).read

/-- The buffer after the loop: what the loop has left. -/
theorem handle_rb {L : Listener} {s : BufferedSocket} (h : s.rb.Sound)
    {r : Session × List UInt8} (hr : s.session.process L s.separator s.maxLineSize s.rb.unread = r)
    (hsuffix : r.1.error = none → r.2 <:+ s.rb.unread) :
    (s.handle L).rb.Sound ∧ (r.1.error = none → (s.handle L).rb.unread = r.2) := by
  have hsound : Buffer.Sound { s.rb with readPtr := s.rb.writePtr - r.2.length } :=
    ⟨Nat.sub_le _ _, h.write, h.capacity, h.large⟩
  simp only [handle, hr]
  cases herror : r.1.error with
  | some e => exact ⟨hsound, fun h => by cases h⟩
  | none =>
    have hunread : Buffer.unread { s.rb with readPtr := s.rb.writePtr - r.2.length } = r.2 := by
      have hdata := (hsuffix herror).trans (List.drop_suffix s.rb.readPtr s.rb.data)
      exact (List.suffix_iff_eq_drop.mp hdata).symm
    simp only [Buffer.unread_maybeShift]
    split
    · exact ⟨Buffer.sound_maybeShift (Buffer.sound_grow hsound), fun _ =>
        (Buffer.unread_grow _).trans hunread⟩
    · exact ⟨Buffer.sound_maybeShift hsound, fun _ => hunread⟩

/-! ### Runs -/

/-- The separator, which the first byte decides on where it was not given. -/
def separatorFor (separator : UInt8) (input : List UInt8) : UInt8 :=
  match input with
  | [] => separator
  | c :: _ =>
    if separator = 0 then if c = '$'.toUInt8 then '|'.toUInt8 else '\n'.toUInt8 else separator

private theorem separatorFor_ne_zero (separator : UInt8) {input : List UInt8} (h : input ≠ []) :
    separatorFor separator input ≠ 0 := by
  cases input with
  | nil => exact absurd rfl h
  | cons c input =>
    simp only [separatorFor]
    split
    · split <;> decide
    · assumption

section

variable (L : Listener) (separator : UInt8) (maxLineSize : Nat) (input : List UInt8)

/-- The socket is where the framer is after the bytes that have been read. -/
structure Follows (got : List UInt8) (s : BufferedSocket) : Prop where
  split : input = got ++ s.input
  sound : s.rb.Sound
  lineSize : s.maxLineSize = maxLineSize
  sep : s.separator = if got = [] then separator else separatorFor separator input
  session : s.session.error ≠ some .connectionClosed →
    (Framer.frame L (separatorFor separator input) maxLineSize got).session = s.session
  log : (Framer.frame L (separatorFor separator input) maxLineSize got).session.log = s.session.log
  unread : s.session.error ≠ some .commandTooLong →
    (Framer.frame L (separatorFor separator input) maxLineSize got).pending = s.rb.unread ∧
      (Framer.frame L (separatorFor separator input) maxLineSize got).session.error = none

end

variable {L : Listener} {separator : UInt8} {maxLineSize : Nat} {input : List UInt8}

theorem follows_start :
    Follows L separator maxLineSize input [] (start separator maxLineSize input) :=
  ⟨rfl, Buffer.sound_new, rfl, rfl, fun _ => rfl, rfl, fun _ => ⟨rfl, rfl⟩⟩

theorem separator_receive {got : List UInt8} {s : BufferedSocket}
    (h : Follows L separator maxLineSize input got s) (bytes : Nat) :
    (s.receive bytes).separator =
      if got ++ s.input.take (min bytes s.readSize) = [] then separator
      else separatorFor separator input := by
  have hsep := h.sep
  have hsplit := h.split
  simp only [receive]
  cases hchunk : s.input.take (min bytes s.readSize) with
  | nil =>
    rw [List.append_nil]
    exact hsep
  | cons c chunk =>
    rw [if_neg (by simp)]
    cases got with
    | nil =>
      obtain ⟨rest, hrest⟩ : ∃ rest, s.input = c :: rest := by
        cases hin : s.input with
        | nil => simp [hin] at hchunk
        | cons c' rest =>
          have hhead := congrArg List.head? hchunk
          cases hmin : min bytes s.readSize with
          | zero => simp [hmin] at hchunk
          | succ n =>
            simp only [hin, hmin, List.take_succ_cons, List.head?_cons, Option.some.injEq] at hhead
            exact ⟨rest, by rw [hhead]⟩
      rw [List.nil_append, hrest] at hsplit
      rw [hsplit, separatorFor, hsep, if_pos rfl]
    | cons g got =>
      rw [hsep, if_neg (by simp)]
      simp only
      split
      · next hzero => exact absurd hzero (separatorFor_ne_zero _ (by simp [hsplit]))
      · rfl

private theorem within_split {σ ε : Type} {ok : σ → ε → Prop} {f : σ → ε → σ} {s : σ}
    {es pre post : List ε} (h : Within ok f s es) (hes : es = pre ++ post) :
    Within ok f s pre ∧ Within ok f (run f s pre) post := by
  subst hes
  exact (within_append ok f s pre post).mp h

section

variable (htame : Within (Framer.Tame L (separatorFor separator input) maxLineSize)
    (Framer.feed L (separatorFor separator input) maxLineSize) Framer.start input)
include htame

private theorem fit_session {got : List UInt8} {s : BufferedSocket}
    (h : Follows L separator maxLineSize input got s) (herror : s.session.error = none) :
    Framer.Fit s.session := by
  rw [← h.session (by simp [herror])]
  exact Framer.run_fit (A := .start) ⟨by decide, by decide⟩ (within_split htame h.split).1

/-- The loop on the bytes in the buffer and those of a read. -/
private theorem settled_receive {got : List UInt8} {s : BufferedSocket}
    (h : Follows L separator maxLineSize input got s) (herror : s.session.error = none)
    (bytes : Nat) :
    Framer.Settled (s.receive bytes).rb.unread
      (Framer.frame L (separatorFor separator input) maxLineSize
        (got ++ s.input.take (min bytes s.readSize)))
      ((s.receive bytes).session.process L (s.receive bytes).separator (s.receive bytes).maxLineSize
        (s.receive bytes).rb.unread) := by
  obtain ⟨hpending, hnone⟩ := h.unread (by simp [herror])
  have hsession := h.session (by simp [herror])
  rw [unread_receive h.sound, separator_receive h]
  by_cases hgot : got ++ s.input.take (min bytes s.readSize) = []
  · obtain ⟨rfl, hchunk⟩ := List.append_eq_nil_iff.mp hgot
    have hnil : s.rb.unread = [] := hpending.symm
    rw [hnil, hchunk, List.append_nil, Session.process_nil]
    exact ⟨hsession, fun _ => ⟨List.suffix_rfl, rfl⟩⟩
  · have hframe : Framer.frame L (separatorFor separator input) maxLineSize got =
        ⟨s.session, s.rb.unread⟩ := by
      rw [← hsession, ← hpending]
    obtain ⟨hrun, htame'⟩ := Framer.run_pending hnone
    rw [hframe] at hrun htame'
    have hall : Within (Framer.Tame L (separatorFor separator input) maxLineSize)
        (Framer.feed L (separatorFor separator input) maxLineSize) ⟨s.session, []⟩
        (s.rb.unread ++ s.input.take (min bytes s.readSize)) := by
      rw [within_append, hrun]
      refine ⟨htame', ?_⟩
      have hrest := (within_split htame h.split).2
      rw [show run _ _ got = (⟨s.session, s.rb.unread⟩ : Framer) from hframe] at hrest
      exact (within_split hrest (List.take_append_drop _ _).symm).1
    have hset := Framer.settled_process herror (fit_session htame h herror) hall
    rw [run_append, hrun] at hset
    rw [if_neg hgot, Framer.frame, run_append]
    rw [show run _ _ got = (⟨s.session, s.rb.unread⟩ : Framer) from hframe]
    have hline : (s.receive bytes).maxLineSize = maxLineSize := h.lineSize
    rw [hline]
    exact hset

theorem follows_read {got : List UInt8} {s : BufferedSocket}
    (h : Follows L separator maxLineSize input got s) (herror : s.session.error = none)
    (hlt : s.rb.writePtr < s.rb.maxCapacity) (bytes : Nat) :
    Follows L separator maxLineSize input (got ++ s.input.take (min bytes s.readSize))
        (s.step L (.read bytes)) ∧
      (s.step L (.read bytes)).session.error ≠ some .connectionClosed := by
  have hsettled := settled_receive htame h herror bytes
  obtain ⟨hsound, hunread⟩ := handle_rb (L := L) (sound_receive h.sound bytes) rfl
    fun h => (hsettled.2 h).1
  have hstep : s.step L (.read bytes) = (s.receive bytes).handle L := by
    simp only [step, herror, readSize_pos h.sound (fit_session htame h herror) hlt, if_false]
  have hsession : ((s.receive bytes).handle L).session =
      (Framer.frame L (separatorFor separator input) maxLineSize
        (got ++ s.input.take (min bytes s.readSize))).session := hsettled.1.symm
  have herr := @Framer.frame_error L (separatorFor separator input) maxLineSize
    (got ++ s.input.take (min bytes s.readSize))
  rw [hstep]
  refine ⟨⟨?_, hsound, h.lineSize, separator_receive h bytes, fun _ => hsession.symm,
    by rw [hsession], ?_⟩, ?_⟩
  · rw [List.append_assoc]
    exact h.split.trans (congrArg _ (List.take_append_drop _ _).symm)
  · intro hlong
    rw [hsession] at hlong
    have hnone := herr.resolve_right hlong
    rw [hsettled.1] at hnone
    exact ⟨(hsettled.2 hnone).2.trans (hunread hnone).symm, hsettled.1 ▸ hnone⟩
  · rw [hsession]
    rcases herr with herr | herr <;> simp [herr]

omit htame in
private theorem run_failed {s : BufferedSocket} (h : s.session.error ≠ none)
    (events : List ReadEvent) : run (step L) s events = s := by
  induction events with
  | nil => rfl
  | cons e events ih =>
    have hstep : s.step L e = s := by
      unfold step
      cases herror : s.session.error with
      | none => exact absurd herror h
      | some e => rfl
    rw [run_cons, hstep, ih]

omit htame in
/-- The end of the connection changes nothing but the state. -/
private theorem follows_closed {got : List UInt8} {s : BufferedSocket}
    (h : Follows L separator maxLineSize input got s) (herror : s.session.error = none) :
    Follows L separator maxLineSize input got (s.step L .closed) := by
  have hstep : s.step L .closed = { s with session := s.session.fail .connectionClosed } := by
    simp only [step, herror]
  rw [hstep]
  exact ⟨h.split, h.sound, h.lineSize, h.sep, fun h => absurd rfl h, h.log,
    fun _ => h.unread (by simp [herror])⟩

private theorem follows_run {got : List UInt8} {s : BufferedSocket}
    (h : Follows L separator maxLineSize input got s)
    (hopen : s.session.error ≠ some .connectionClosed) {events : List ReadEvent}
    (hroom : Within ReadOk (step L) s events) :
    ∃ got', Follows L separator maxLineSize input got' (run (step L) s events) ∧
      ((run (step L) s events).session.error = some .connectionClosed → .closed ∈ events) := by
  induction events generalizing got s with
  | nil => exact ⟨got, h, fun hclosed => absurd hclosed hopen⟩
  | cons e events ih =>
    cases herror : s.session.error with
    | some err =>
      rw [run_failed (by simp [herror])]
      exact ⟨got, h, fun hclosed => absurd hclosed hopen⟩
    | none =>
      rw [run_cons]
      cases e with
      | closed =>
        have hfailed : (s.step L .closed).session.error ≠ none := by
          simp [step, herror, Session.fail]
        rw [run_failed hfailed]
        exact ⟨got, follows_closed h herror, fun _ => List.mem_cons_self⟩
      | read bytes =>
        obtain ⟨hnext, hopen'⟩ := follows_read htame h herror (hroom.1 herror) bytes
        obtain ⟨got', hgot', hclosed⟩ := ih hnext hopen' hroom.2
        exact ⟨got', hgot', fun h => List.mem_cons_of_mem _ (hclosed h)⟩

end

/-- However the bytes sent by the peer are split into reads, if every read has room and the listener
changes the mode between blocks, the listener has been given what the framer gives for the bytes
read so far, and an overlong line is found as by the framer. The connection does not end before the
peer ends it, and before an overlong line every byte read has been given once, in the mode of its
turn, or is in the buffer. -/
theorem log_eq_frame (L : Listener) (separator : UInt8) (maxLineSize : Nat) (input : List UInt8)
    (events : List ReadEvent)
    (hroom : Within ReadOk (step L) (start separator maxLineSize input) events)
    (htame : Within (Framer.Tame L (separatorFor separator input) maxLineSize)
      (Framer.feed L (separatorFor separator input) maxLineSize) Framer.start input) :
    ∃ got, input = got ++ (run (step L) (start separator maxLineSize input) events).input ∧
      (run (step L) (start separator maxLineSize input) events).session.log =
        (Framer.frame L (separatorFor separator input) maxLineSize got).session.log ∧
      ((run (step L) (start separator maxLineSize input) events).session.error =
          some .commandTooLong ↔
        (Framer.frame L (separatorFor separator input) maxLineSize got).session.error =
          some .commandTooLong) ∧
      ((run (step L) (start separator maxLineSize input) events).session.error =
        some .connectionClosed → .closed ∈ events) ∧
      ((run (step L) (start separator maxLineSize input) events).session.error ≠
          some .commandTooLong →
        (run (step L) (start separator maxLineSize input) events).session.log.flatMap
            (Framer.itemBytes (separatorFor separator input)) ++
          (run (step L) (start separator maxLineSize input) events).rb.unread = got) := by
  obtain ⟨got, h, hclosed⟩ := follows_run htame follows_start (by simp [start]) hroom
  refine ⟨got, h.split, h.log.symm, ?_, hclosed, ?_⟩
  · constructor
    · intro hlong
      rw [h.session (by simp [hlong]), hlong]
    · intro hlong
      by_contra hne
      have hnone := (h.unread hne).2
      rw [hlong] at hnone
      cases hnone
  · intro hne
    obtain ⟨hpending, hnone⟩ := h.unread hne
    rw [← h.log, ← hpending]
    exact Framer.frame_bytes hnone

/-! ### Short lines -/

/-- At most half of the buffer is taken by bytes that have been handled. -/
private def HalfFree (s : BufferedSocket) : Prop :=
  s.rb.maxCapacity = 1024 * 1024 ∧ (s.session.error = none → s.rb.readPtr ≤ 512 * 1024)

private theorem halfFree_handle {s : BufferedSocket} (h : s.rb.Sound)
    (hmax : s.rb.maxCapacity = 1024 * 1024) : HalfFree (s.handle L) := by
  generalize hr : s.session.process L s.separator s.maxLineSize s.rb.unread = r
  have hsound : Buffer.Sound { s.rb with readPtr := s.rb.writePtr - r.2.length } :=
    ⟨Nat.sub_le _ _, h.write, h.capacity, h.large⟩
  have hhalf : s.rb.maxCapacity / 2 = 512 * 1024 := by rw [hmax]
  simp only [HalfFree, handle, hr]
  cases r.1.error with
  | some e => exact ⟨hmax, fun h => by cases h⟩
  | none =>
    simp only [forall_const]
    split
    · have hle := Buffer.readPtr_maybeShift_le (Buffer.sound_grow hsound)
      rw [Buffer.maxCapacity_grow] at hle
      exact ⟨by simp [hmax], Nat.le_trans hle (Nat.le_of_eq hhalf)⟩
    · have hle := Buffer.readPtr_maybeShift_le hsound
      exact ⟨by simp [hmax], Nat.le_trans hle (Nat.le_of_eq hhalf)⟩

private theorem halfFree_step {s : BufferedSocket} (h : s.rb.Sound) (hhalf : HalfFree s)
    (e : ReadEvent) : HalfFree (s.step L e) := by
  unfold step
  cases s.session.error with
  | some e => exact hhalf
  | none =>
    cases e with
    | closed => exact ⟨hhalf.1, fun h => by cases h⟩
    | read bytes =>
      simp only
      split
      · exact ⟨hhalf.1, fun h => by cases h⟩
      · apply halfFree_handle (sound_receive h bytes)
        simp only [receive, readBuffer]
        split
        · rw [Buffer.maxCapacity_grow, hhalf.1]
        · exact hhalf.1

/-- Lines of less than half of the buffer always leave room for a read. -/
theorem within_readOk (hshort : maxLineSize < 512 * 1024)
    (htame : Within (Framer.Tame L (separatorFor separator input) maxLineSize)
      (Framer.feed L (separatorFor separator input) maxLineSize) Framer.start input)
    (events : List ReadEvent) :
    Within ReadOk (step L) (start separator maxLineSize input) events := by
  have hgen : ∀ (events : List ReadEvent) (s : BufferedSocket) (got : List UInt8),
      Follows L separator maxLineSize input got s → HalfFree s →
      Within ReadOk (step L) s events := by
    intro events
    induction events with
    | nil => exact fun _ _ _ _ => within_nil _ _ _
    | cons e events ih =>
      intro s got h hhalf
      have hok : ReadOk s e := by
        cases e with
        | closed => exact True.intro
        | read bytes =>
          intro herror
          have hlen := @Framer.length_pending_le L (separatorFor separator input) maxLineSize got
          rw [(h.unread (by simp [herror])).1, Buffer.unread, List.length_drop] at hlen
          have hread := hhalf.2 herror
          rw [hhalf.1, Buffer.writePtr]
          omega
      refine ⟨hok, ?_⟩
      have hhalf' := halfFree_step (L := L) h.sound hhalf e
      cases herror : s.session.error with
      | some err =>
        have hstep := run_failed (L := L) (s := s) (by simp [herror]) [e]
        rw [run_cons, run_nil] at hstep
        rw [hstep]
        exact ih s got h hhalf
      | none =>
        cases e with
        | closed => exact ih _ got (follows_closed h herror) hhalf'
        | read bytes => exact ih _ _ (follows_read htame h herror (hok herror) bytes).1 hhalf'
  exact hgen events _ [] follows_start ⟨rfl, fun _ => Nat.zero_le _⟩

/-- A listener that asks for a block of two bytes behind the line `a`. -/
def twoBytes : Listener := fun log => if log = [.line ['a'.toUInt8]] then [.data 2] else []

/-- The text `a|xy`, a byte at a time. -/
theorem log_eq_frame_bytewise :
    ∃ got, ['a'.toUInt8, '|'.toUInt8, 'x'.toUInt8, 'y'.toUInt8] = got ++
        (run (step twoBytes) (start '|'.toUInt8 100
          ['a'.toUInt8, '|'.toUInt8, 'x'.toUInt8, 'y'.toUInt8])
          [.read 1, .read 1, .read 1, .read 1]).input ∧
      (run (step twoBytes) (start '|'.toUInt8 100
        ['a'.toUInt8, '|'.toUInt8, 'x'.toUInt8, 'y'.toUInt8])
        [.read 1, .read 1, .read 1, .read 1]).session.log =
          (Framer.frame twoBytes '|'.toUInt8 100 got).session.log := by
  have htame : Within (Framer.Tame twoBytes '|'.toUInt8 100) (Framer.feed twoBytes '|'.toUInt8 100)
      Framer.start ['a'.toUInt8, '|'.toUInt8, 'x'.toUInt8, 'y'.toUInt8] := by
    refine ⟨⟨?_, ?_⟩, ⟨?_, ?_⟩, ⟨?_, ?_⟩, ⟨?_, ?_⟩, True.intro⟩ <;> decide
  obtain ⟨got, hinput, hlog, _⟩ := log_eq_frame twoBytes '|'.toUInt8 100
    ['a'.toUInt8, '|'.toUInt8, 'x'.toUInt8, 'y'.toUInt8] [.read 1, .read 1, .read 1, .read 1]
    (within_readOk (by decide) htame _) htame
  exact ⟨got, hinput, hlog⟩

/-- A listener that asks for a block of no bytes behind the line `a`. -/
def zeroBlock : Listener := fun log => if log = [.line ['a'.toUInt8]] then [.data 0] else []

private theorem parseData_first (rest : List UInt8) :
    Session.parseData zeroBlock '|'.toUInt8 100 ⟨.line, unlimited, [], none⟩
        ('a'.toUInt8 :: '|'.toUInt8 :: rest) =
      (⟨.data, 0, [.line ['a'.toUInt8]], none⟩, rest) := by
  rw [Session.parseData]
  rfl

private theorem process_zeroBlock :
    Session.process zeroBlock '|'.toUInt8 100 ⟨.line, unlimited, [], none⟩
        ['a'.toUInt8, '|'.toUInt8, 'b'.toUInt8, '|'.toUInt8] =
      (⟨.line, 0, [.line ['a'.toUInt8], .modeChange, .line ['b'.toUInt8]], none⟩, []) := by
  have hconsume : Session.consumeData zeroBlock ⟨.data, 0, [.line ['a'.toUInt8]], none⟩
      ['b'.toUInt8, '|'.toUInt8] =
      (⟨.line, 0, [.line ['a'.toUInt8], .modeChange], none⟩, ['b'.toUInt8, '|'.toUInt8]) := by
    rw [Session.consumeData]
    rfl
  have hsecond : Session.parseData zeroBlock '|'.toUInt8 100
      ⟨.line, 0, [.line ['a'.toUInt8], .modeChange], none⟩ ['b'.toUInt8, '|'.toUInt8] =
      Session.parseData zeroBlock '|'.toUInt8 100
        ⟨.line, 0, [.line ['a'.toUInt8], .modeChange, .line ['b'.toUInt8]], none⟩ [] := by
    rw [Session.parseData]
    rfl
  have hlast : Session.parseData zeroBlock '|'.toUInt8 100
      ⟨.line, 0, [.line ['a'.toUInt8], .modeChange, .line ['b'.toUInt8]], none⟩ [] =
      (⟨.line, 0, [.line ['a'.toUInt8], .modeChange, .line ['b'.toUInt8]], none⟩, []) := by
    rw [Session.parseData]
    rfl
  rw [Session.process]
  simp only [parseData_first]
  rw [Session.process]
  simp only [hconsume]
  rw [Session.process]
  simp only [hsecond, hlast]
  rfl

/-- When the next line is in the buffer already, it is given; otherwise the next read is one for no
bytes, and the connection counts as closed. -/
theorem log_depends_on_split :
    (run (step zeroBlock) (start '|'.toUInt8 100
        ['a'.toUInt8, '|'.toUInt8, 'b'.toUInt8, '|'.toUInt8]) [.read 4]).session =
      ⟨.line, 0, [.line ['a'.toUInt8], .modeChange, .line ['b'.toUInt8]], none⟩ ∧
    (run (step zeroBlock) (start '|'.toUInt8 100
        ['a'.toUInt8, '|'.toUInt8, 'b'.toUInt8, '|'.toUInt8]) [.read 2, .read 2]).session =
      ⟨.data, 0, [.line ['a'.toUInt8]], some .connectionClosed⟩ := by
  constructor
  · have h : (run (step zeroBlock) (start '|'.toUInt8 100
        ['a'.toUInt8, '|'.toUInt8, 'b'.toUInt8, '|'.toUInt8]) [.read 4]).session =
        (Session.process zeroBlock '|'.toUInt8 100 ⟨.line, unlimited, [], none⟩
          ['a'.toUInt8, '|'.toUInt8, 'b'.toUInt8, '|'.toUInt8]).1 := rfl
    rw [h, process_zeroBlock]
  · have hprocess : Session.process zeroBlock '|'.toUInt8 100 ⟨.line, unlimited, [], none⟩
        ['a'.toUInt8, '|'.toUInt8] = (⟨.data, 0, [.line ['a'.toUInt8]], none⟩, []) := by
      rw [Session.process]
      simp only [parseData_first, Session.process_nil]
      rfl
    have hfirst : step zeroBlock (start '|'.toUInt8 100
        ['a'.toUInt8, '|'.toUInt8, 'b'.toUInt8, '|'.toUInt8]) (.read 2) =
        ⟨⟨1024 * 1024, initialCapacity, [], 0⟩, ⟨.data, 0, [.line ['a'.toUInt8]], none⟩,
          '|'.toUInt8,
          100, ['b'.toUInt8, '|'.toUInt8]⟩ := by
      have hhandle : step zeroBlock (start '|'.toUInt8 100
          ['a'.toUInt8, '|'.toUInt8, 'b'.toUInt8, '|'.toUInt8]) (.read 2) =
          handle zeroBlock ⟨⟨1024 * 1024, initialCapacity, ['a'.toUInt8, '|'.toUInt8], 0⟩,
            ⟨.line, unlimited, [], none⟩, '|'.toUInt8, 100, ['b'.toUInt8, '|'.toUInt8]⟩ := rfl
      rw [hhandle, handle]
      simp only [Buffer.unread, List.drop_zero, hprocess]
      rfl
    rw [run_cons, hfirst]
    rfl

end BufferedSocket
end Blacklink.Net
