import Mathlib.Algebra.Group.Int.Defs
import Mathlib.Algebra.Group.Nat.Defs
import Mathlib.Data.List.Basic
import Blacklink.Base.Run

/-!
# Buffered sockets, receiving

Model of the receive path of `BufferedSocket` without a filter: `readData`, `parseData`,
`consumeData` and the read buffer (`client/BufferedSocket.cpp:57-146, 276-337, 420-476, 525-542`,
`client/BufferedSocket.h:60-65`). The socket is connected, `stopFlag` stays unset and there is a
listener.

The listener is a function from all it has been given to the calls of `setMode` and `setDataMode`
it makes before its callback returns. A data block is given as its bytes, so that what a listener
has been given does not tell where one block ended and the next began.
-/

namespace Blacklink.Net

/-- `Modes` without `MODE_ZPIPE`. -/
inductive Mode where
  | line
  | data
  deriving DecidableEq

/-- `setMode(MODE_LINE)`, or `setDataMode` with its argument. -/
inductive Switch where
  | line
  | data (bytes : Int)
  deriving DecidableEq

/-- What the listener is given: `onDataLine`, a byte of `onData`, `onModeChange`. -/
inductive Item where
  | line (bytes : List UInt8)
  | data (byte : UInt8)
  | modeChange
  deriving DecidableEq

/-- The exceptions of the receive path. -/
inductive SocketError where
  | connectionClosed
  | commandTooLong
  deriving DecidableEq

/-- The mode switches of a callback. -/
abbrev Listener := List Item → List Switch

/-- `(size_t) -1`: no byte count. -/
def unlimited : Nat := 2 ^ 64 - 1

/-! ### The buffer -/

/-- `INITIAL_CAPACITY`. -/
def initialCapacity : Nat := 8 * 1024

/-- `Buffer`. `data` is what lies before `writePtr`. -/
structure Buffer where
  maxCapacity : Nat
  capacity : Nat
  data : List UInt8
  readPtr : Nat
  deriving DecidableEq

namespace Buffer

/-- `Buffer()`. -/
def new : Buffer := ⟨1024 * 1024, 0, [], 0⟩

/-- `writePtr`. -/
def writePtr (b : Buffer) : Nat := b.data.length

/-- The bytes from `readPtr` to `writePtr`. -/
def unread (b : Buffer) : List UInt8 := b.data.drop b.readPtr

/-- `grow()`. -/
def grow (b : Buffer) : Buffer :=
  if b.capacity = b.maxCapacity then b
  else
    { b with
      capacity := max (min (b.capacity * 2) b.maxCapacity) initialCapacity
      data := b.unread
      readPtr := 0 }

/-- `shift`. -/
def shift (b : Buffer) : Buffer := { b with data := b.unread, readPtr := 0 }

/-- `maybeShift`. -/
def maybeShift (b : Buffer) : Buffer :=
  if b.readPtr = b.writePtr then { b with data := [], readPtr := 0 }
  else if b.readPtr ≠ 0 ∧ b.capacity / 2 < b.readPtr then b.shift
  else b

end Buffer

/-! ### Lines and data -/

/-- What a callback can change, what the listener has been given, and the exception thrown. -/
structure Session where
  mode : Mode
  remainingSize : Nat
  log : List Item
  error : Option SocketError
  deriving DecidableEq

namespace Session

/-- `setMode(MODE_LINE)` and `setDataMode`. -/
def switch (s : Session) : Switch → Session
  | .line => { s with mode := .line }
  | .data bytes => { s with mode := .data, remainingSize := (bytes % 2 ^ 64).toNat }

/-- The listener is given something and makes its mode switches. -/
def callback (L : Listener) (s : Session) (items : List Item) : Session :=
  (L (s.log ++ items)).foldl switch { s with log := s.log ++ items }

/-- An exception is thrown. -/
def fail (s : Session) (e : SocketError) : Session := { s with error := some e }

theorem length_lt_of_dropWhile {p : UInt8 → Bool} {l rest : List UInt8} {c : UInt8}
    (h : l.dropWhile p = c :: rest) : rest.length < l.length := by
  have hle := (List.dropWhile_suffix p : l.dropWhile p <:+ l).length_le
  rw [h, List.length_cons] at hle
  exact hle

variable (L : Listener) (separator : UInt8) (maxLineSize : Nat)

/-- `parseData` on the unread bytes, with those it leaves. -/
def parseData (s : Session) (unread : List UInt8) : Session × List UInt8 :=
  match _hrest : unread.dropWhile (· ≠ separator) with
  | [] =>
    -- no separator: the bytes stay, unless there are too many of them for a line
    if maxLineSize < unread.length then (s.fail .commandTooLong, unread) else (s, unread)
  | _ :: rest =>
    let line := unread.takeWhile (· ≠ separator)
    if maxLineSize < line.length then (s.fail .commandTooLong, unread)
    else
      let s' := s.callback L [.line line]
      if s'.mode ≠ s.mode then (s', rest) else parseData s' rest
termination_by unread.length
decreasing_by exact length_lt_of_dropWhile _hrest

/-- An iteration of `consumeData` for which there is a byte to consume: the block is given to the
listener, then the bytes left to come are counted. -/
def consumeBlock (s : Session) (block : List UInt8) : Session :=
  let s := s.callback L (block.map .data)
  if s.remainingSize = unlimited then s
  else
    let s := { s with remainingSize := (s.remainingSize + 2 ^ 64 - block.length) % 2 ^ 64 }
    if s.remainingSize = 0 then { s with mode := .line }.callback L [.modeChange] else s

/-- The size of the next block. -/
def blockSize (s : Session) (unread : List UInt8) : Nat :=
  if s.remainingSize ≠ unlimited ∧ s.remainingSize < unread.length then s.remainingSize
  else unread.length

/-- `consumeData` on the unread bytes, with those it leaves. -/
def consumeData (s : Session) (unread : List UInt8) : Session × List UInt8 :=
  if _h : unread = [] then (s, unread)
  else if _hzero : s.remainingSize = 0 then
    ({ s with mode := .line }.callback L [.modeChange], unread)
  else
    let size := s.blockSize unread
    let s' := s.consumeBlock L (unread.take size)
    if s'.mode ≠ .data then (s', unread.drop size) else consumeData s' (unread.drop size)
termination_by unread.length
decreasing_by
  have hlen := List.length_pos_iff.mpr _h
  rw [List.length_drop, blockSize]
  split <;> omega

/-- `parseData` leaves its mode only behind a line. -/
theorem length_parseData (s : Session) (unread : List UInt8)
    (h : (s.parseData L separator maxLineSize unread).1.mode ≠ s.mode) :
    (s.parseData L separator maxLineSize unread).2.length < unread.length := by
  fun_induction parseData L separator maxLineSize s unread with
  | case1 => exact absurd rfl h
  | case2 => exact absurd rfl h
  | case3 => exact absurd rfl h
  | case4 s unread c rest hrest => exact length_lt_of_dropWhile hrest
  | case5 s unread c rest hrest _ _ s' hmode ih =>
    have heq : s'.mode = s.mode := Decidable.not_not.mp hmode
    exact Nat.lt_trans (ih (heq ▸ h)) (length_lt_of_dropWhile hrest)

theorem length_consumeData (s : Session) (unread : List UInt8) :
    (s.consumeData L unread).2.length ≤ unread.length := by
  fun_induction consumeData L s unread with
  | case1 => exact Nat.le_refl _
  | case2 => exact Nat.le_refl _
  | case3 s unread _ _ size => simp
  | case4 s unread _ _ size _ _ ih => exact Nat.le_trans ih (by simp)

/-- The loop of `readData` over the unread bytes: as long as there are some and the mode has just
changed. -/
def process (s : Session) (unread : List UInt8) : Session × List UInt8 :=
  if unread = [] then (s, unread)
  else
    match _hmode : s.mode with
    | .line =>
      let r := s.parseData L separator maxLineSize unread
      if _h : r.1.mode = .line then r else process r.1 r.2
    | .data =>
      let r := s.consumeData L unread
      if _h : r.1.mode = .data then r else process r.1 r.2
termination_by (unread.length, if s.mode = .data then 1 else 0)
decreasing_by
  · apply Prod.Lex.left
    exact length_parseData L separator maxLineSize s unread (_hmode ▸ _h)
  · have hline : (s.consumeData L unread).1.mode = .line := by
      cases hm : (s.consumeData L unread).1.mode with
      | line => rfl
      | data => exact absurd hm _h
    apply Prod.Lex.right'
    · exact length_consumeData L s unread
    · simp [hline, _hmode]

theorem process_nil (s : Session) : s.process L separator maxLineSize [] = (s, []) := by
  rw [process, if_pos rfl]

end Session

/-! ### Reads -/

/-- `BufferedSocket`: the read buffer, the separator (zero until the first read decides on it) and
what the peer has sent that has not been read. -/
structure BufferedSocket where
  rb : Buffer
  session : Session
  separator : UInt8
  maxLineSize : Nat
  input : List UInt8
  deriving DecidableEq

/-- The outcome of a read: at most so many bytes, none of them when it would block; or the end of
the connection. -/
inductive ReadEvent where
  | read (bytes : Nat)
  | closed
  deriving DecidableEq

namespace BufferedSocket

/-- A connection before the first byte. -/
def start (separator : UInt8) (maxLineSize : Nat) (input : List UInt8) : BufferedSocket :=
  ⟨.new, ⟨.line, unlimited, [], none⟩, separator, maxLineSize, input⟩

/-- The buffer a read goes to. -/
def readBuffer (s : BufferedSocket) : Buffer :=
  if s.rb.writePtr = s.rb.capacity then s.rb.grow else s.rb

/-- `readSize`. -/
def readSize (s : BufferedSocket) : Nat :=
  let free := s.readBuffer.capacity - s.readBuffer.writePtr
  if s.session.mode = .data ∧ s.session.remainingSize ≠ unlimited ∧
      s.session.remainingSize < free then s.session.remainingSize
  else free

/-- The bytes of a read, and the separator if it is not known yet. -/
def receive (s : BufferedSocket) (bytes : Nat) : BufferedSocket :=
  let chunk := s.input.take (min bytes s.readSize)
  { s with
    rb := { s.readBuffer with data := s.readBuffer.data ++ chunk }
    input := s.input.drop (min bytes s.readSize)
    separator :=
      match chunk with
      | [] => s.separator
      | c :: _ =>
        if s.separator = 0 then if c = '$'.toUInt8 then '|'.toUInt8 else '\n'.toUInt8
        else s.separator }

/-- The bytes in the buffer are handled; then it grows if it was full. -/
def handle (L : Listener) (s : BufferedSocket) : BufferedSocket :=
  let r := s.session.process L s.separator s.maxLineSize s.rb.unread
  let rb := { s.rb with readPtr := s.rb.writePtr - r.2.length }
  { s with
    session := r.1
    rb :=
      match r.1.error with
      | some _ => rb
      | none => (if s.rb.writePtr = s.rb.capacity then rb.grow else rb).maybeShift }

/-- An iteration of `readData`. A read into no space returns zero, which counts as the end of the
connection. -/
def step (L : Listener) (s : BufferedSocket) (e : ReadEvent) : BufferedSocket :=
  match s.session.error with
  | some _ => s
  | none =>
    match e with
    | .closed => { s with session := s.session.fail .connectionClosed }
    | .read bytes =>
      if s.readSize = 0 then { s with session := s.session.fail .connectionClosed }
      else (s.receive bytes).handle L

end BufferedSocket
end Blacklink.Net
