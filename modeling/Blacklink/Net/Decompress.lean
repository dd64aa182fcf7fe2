import Blacklink.Net.Received
import Blacklink.Stream.Inflater

/-!
# Buffered sockets, receiving through the filter

Model of `decompress` and of `parseData` on its buffer `zb` (`client/BufferedSocket.cpp:92-112,
318-320, 420-448, 478-542`) while the mode is `MODE_ZPIPE`. The inflater is a parameter. The
listener does not change the mode meanwhile: only the listener of a hub turns the filter on, and
what it asks for then is `MODE_ZPIPE` again, which is ignored. One pass of the loop is two steps,
for `parseData` and for the call of the filter.
-/

namespace Blacklink.Net

open Blacklink.Base Blacklink.Stream

/-- The listener's mode switches: none. -/
def quiet : Listener := fun _ => []

namespace Buffer

/-- `grow(newCapacity)`. -/
def growTo (b : Buffer) (newCapacity : Nat) : Buffer :=
  { b with
    capacity := max newCapacity (max (min (b.capacity * 2) b.maxCapacity) initialCapacity)
    data := b.unread
    readPtr := 0 }

/-- The room behind `writePtr`. -/
def free (b : Buffer) : Nat := b.capacity - b.writePtr

end Buffer

/-- How the filter is left: at the end of the stream, or by one of two exceptions. -/
inductive PipeStatus where
  | active
  | ended
  | decompressionError
  | capacityExceeded
  deriving DecidableEq

/-- A `BufferedSocket` in `MODE_ZPIPE`. `input` is what lies before `writePtr` in the read buffer
and has not been decompressed; `received` is all that has been read since the mode was set. -/
structure ZPipe (φ : Type) where
  session : Session
  zb : Buffer
  zfilter : φ
  input : List UInt8
  received : List UInt8
  status : PipeStatus

/-- A read of some bytes, or a step of the loop over them. -/
inductive PipeEvent where
  | read (chunk : List UInt8)
  | turn
  deriving DecidableEq

namespace ZPipe

variable {φ : Type} (F : Inflater φ) (separator : UInt8) (maxLineSize : Nat)

/-- `setMode(MODE_ZPIPE)`; the buffer may be one that has been used before. -/
def start (zb : Buffer) : ZPipe φ :=
  ⟨⟨.line, unlimited, [], none⟩, { zb with data := [], readPtr := 0 }, F.start, [], [], .active⟩

variable (s : ZPipe φ)

/-- `parseData(zb)`. -/
def parse : ZPipe φ :=
  let r := s.session.parseData quiet separator maxLineSize s.zb.unread
  { s with session := r.1, zb := { s.zb with readPtr := s.zb.writePtr - r.2.length } }

/-- `decompress` before the loop. -/
def prepare : ZPipe φ :=
  let newCapacity := min (s.zb.unread.length + s.input.length * 2) s.zb.maxCapacity
  { s with zb := if s.zb.capacity < newCapacity then s.zb.growTo newCapacity else s.zb.maybeShift }

/-- The loop when there is no room for output. -/
def makeRoom : ZPipe φ :=
  let s := parse separator maxLineSize s
  match s.session.error with
  | some _ => s
  | none =>
    let s := { s with zb := s.zb.maybeShift }
    if s.zb.free ≠ 0 then s
    else if s.zb.readPtr ≠ 0 then { s with zb := s.zb.shift }
    else { s with status := .capacityExceeded }

/-- The call of the filter, and what follows it. -/
def inflate : ZPipe φ :=
  let r := F.apply s.zfilter s.input s.zb.free
  if r.status = .error then { s with status := .decompressionError }
  else
    let s := { s with
      input := s.input.drop r.consumed
      zfilter := r.next
      zb := { s.zb with data := s.zb.data ++ r.out } }
    if r.status = .more then s
    else
      let s := parse separator maxLineSize s
      match s.session.error with
      | some _ => s
      | none => { s with zb := s.zb.maybeShift, status := .ended }

/-- No exception has been thrown and the stream has not ended. -/
def Running : Prop := s.session.error = none ∧ s.status = .active

instance : Decidable s.Running := inferInstanceAs (Decidable (_ ∧ _))

/-- One event. A read comes when the loop is through; a step of the loop, while there is input. -/
def step : PipeEvent → ZPipe φ
  | .read chunk =>
    if s.Running ∧ s.input = [] ∧ chunk ≠ [] then
      prepare { s with input := chunk, received := s.received ++ chunk }
    else s
  | .turn =>
    if s.Running ∧ s.input ≠ [] then
      if s.zb.free = 0 then makeRoom separator maxLineSize s else inflate F separator maxLineSize s
    else s

/-! ### What is expected -/

/-- What the listener of a socket without a filter is given for the text. -/
def lines (text : List UInt8) : List Item :=
  (Framer.frame quiet separator maxLineSize text).session.log

/-- Everything received has been decompressed, or nothing more of it will be: the stream has ended,
or a line was too long. -/
def Waits : Prop :=
  s.session.error ≠ none ∨ s.status = .ended ∨ s.status = .active ∧ s.input = []

/-- The listener has been given the lines of the text in their order, all of them when everything
received has been decompressed; and the room runs out in a buffer of the greatest size only. -/
structure Delivered : Prop where
  lines : s.session.log <+: lines separator maxLineSize (F.text s.received)
  all : s.Waits → s.session.log = ZPipe.lines separator maxLineSize (F.text s.received)
  room : s.status = .capacityExceeded → s.zb.capacity = s.zb.maxCapacity

/-- The text begins with no line that can be given to the listener. -/
def NoLine (text : List UInt8) : Prop :=
  separator ∈ text → maxLineSize < (text.takeWhile (· ≠ separator)).length

/-- The buffer is not full of a line that has not ended; and a call of the filter that takes the
rest of the input, and does not end the stream, leaves no line that has not been parsed. -/
def TurnOk : Prop :=
  if s.zb.free = 0 then
    s.zb.readPtr = 0 → separator ∉ s.zb.unread → s.zb.unread.length ≤ maxLineSize →
      s.zb.capacity = s.zb.maxCapacity
  else
    (F.apply s.zfilter s.input s.zb.free).status = .more →
      (F.apply s.zfilter s.input s.zb.free).consumed = s.input.length →
      NoLine separator maxLineSize (s.zb.unread ++ (F.text s.received).drop (F.given s.zfilter))

/-- The condition on an event. -/
def EventOk : PipeEvent → Prop
  | .read _ => True
  | .turn => s.Running → s.input ≠ [] → TurnOk F separator maxLineSize s

end ZPipe

end Blacklink.Net
