import Blacklink.Http.BodyFraming
import Blacklink.Net.BufferedSocket

/-!
# HTTP connections, receiving a response

Model of what an `HttpConnection` does with a response (`client/HttpConnection.cpp:29-34, 187-201,
242-377`), and of the loops of its socket over what has been read (`client/BufferedSocket.cpp:
420-476`, `client/BufferedSocket.h:60-65`), one pass of a loop being one step. A connection that is
closed on purpose goes on to be given what is left in the buffer, of which it makes nothing.
-/

namespace Blacklink.Http

open Blacklink.Base Blacklink.Text Blacklink.Net

/-! ### Chunk sizes -/

/-- The sign and the `0x` that `strtoul` skips, with whether the sign is a minus. -/
def numberStart (s : List UInt8) : Bool × List UInt8 :=
  let t := s.dropWhile isWhiteSpace
  let u := if t.head? = some 0x2d ∨ t.head? = some 0x2b then t.tail else t
  let hex := u.head? = some 0x30 ∧ (u.getD 1 0 = 0x78 ∨ u.getD 1 0 = 0x58) ∧ isHexDigit (u.getD 2 0)
  (t.head? = some 0x2d, if hex then u.drop 2 else u)

/-- `strtoul` with base 16. -/
def strtoul (s : List UInt8) : Nat :=
  let n := hexValue ((numberStart s).2.takeWhile isHexDigit)
  if 2 ^ 64 ≤ n then 2 ^ 64 - 1 else if (numberStart s).1 then (2 ^ 64 - n) % 2 ^ 64 else n

/-- `chunkSizeStr`. -/
def chunkSizeStr (line : List UInt8) : List UInt8 :=
  if 0x3b ∈ line then line.takeWhile (· ≠ 0x3b) else line.dropLast

/-! ### The connection -/

/-- `ConnectionStates`. -/
inductive ConnectionState where
  | idle
  | sendRequest
  | processResponse
  | data
  | dataChunked
  | failed
  deriving DecidableEq

/-- The errors the client is told of, without the address of the request. -/
inductive HttpError where
  | malformedHttpResponse
  | malformedResponse
  | headersTooBig
  | chunkedEncoding
  | tooMuchData
  | fileTooLarge (size : Int)
  | socket (error : SocketError)
  deriving DecidableEq

/-- The calls of an `HttpClientCallback`. -/
inductive ClientCall where
  | data (bytes : List UInt8)
  | completed
  | failed (error : HttpError)
  | disconnected
  deriving DecidableEq

/-- `BODY_SIZE_UNKNOWN`. -/
def bodySizeUnknown : Int := -1

/-- `BODY_SIZE_CHUNKED`. -/
def bodySizeChunked : Int := -2

/-- `MAX_CHUNK_SIZE`. -/
def maxChunkSize : Nat := 512 * 1024

/-- `MAX_HEADERS_SIZE`. -/
def maxHeadersSize : Nat := 32 * 1024

/-- `HttpConnection`, with `mode` and `remainingSize` of its socket and the calls of its client. -/
structure HttpConnection where
  connState : ConnectionState
  bodySize : Int
  receivedBodySize : Int
  receivedHeadersSize : Nat
  resp : Response
  maxRespBodySize : Int
  maxErrorBodySize : Int
  mode : Mode
  remainingSize : Nat
  client : List ClientCall
  deriving DecidableEq

namespace HttpConnection

/-- The request has been sent. -/
def start (maxRespBodySize maxErrorBodySize : Int) : HttpConnection :=
  ⟨.processResponse, bodySizeUnknown, 0, 0, .new, maxRespBodySize, maxErrorBodySize, .line,
    unlimited, []⟩

variable (c : HttpConnection)

/-- A call of the client. -/
def call (e : ClientCall) : HttpConnection := { c with client := c.client ++ [e] }

/-- `setDataMode` of the socket. -/
def setDataMode (bytes : Int) : HttpConnection :=
  { c with mode := .data, remainingSize := (bytes % 2 ^ 64).toNat }

/-- `setFailedState`. -/
def setFailedState (error : HttpError) : HttpConnection :=
  { c with connState := .failed }.call (.failed error)

/-- `setIdleState`. -/
def setIdleState : HttpConnection := { c with connState := .idle }.call .completed

/-- The end of the head in `parseResponseHeader`. -/
def readBodySize : HttpConnection :=
  let r := c.resp.parseContentLength
  let c := { c with resp := r.1, bodySize := r.2 }
  if c.resp.error then c
  else if c.bodySize < 0 ∧ c.resp.isChunked then { c with bodySize := bodySizeChunked }
  else c

/-- `parseResponseHeader`. -/
def parseResponseHeader (line : List UInt8) : HttpConnection :=
  let c := { c with resp := c.resp.parseLine line }
  if c.resp.complete ∧ ¬ c.resp.error then c.readBodySize else c

/-- `maxBodySize`. -/
def maxBodySize : Int := if c.resp.code = 200 then c.maxRespBodySize else c.maxErrorBodySize

/-- The end of the head in `onDataLine`: there may be no body. -/
def skipBody : HttpConnection :=
  if c.bodySize = bodySizeUnknown ∧ (c.resp.code = 204 ∨ c.resp.code = 304) then
    { c with bodySize := 0 }
  else c

/-- The end of the head in `onDataLine`, then. -/
def beginBody : HttpConnection :=
  if 0 < c.bodySize then
    if c.maxBodySize < c.bodySize then c.setFailedState (.fileTooLarge c.bodySize)
    else { c.setDataMode c.bodySize with connState := .data }
  else if c.bodySize = 0 then c.setIdleState
  else if c.bodySize = bodySizeUnknown then { c.setDataMode (-1) with connState := .data }
  else if c.bodySize = bodySizeChunked then { c with connState := .dataChunked }
  else c.setFailedState .malformedResponse

/-- `onDataLine` behind `parseResponseHeader`. -/
def settleHead : HttpConnection :=
  if c.resp.error then c.setFailedState .malformedHttpResponse
  else if c.resp.complete then c.skipBody.beginBody
  else if maxHeadersSize < c.receivedHeadersSize then c.setFailedState .headersTooBig
  else c

/-- `onDataLine`. -/
def onDataLine (line : List UInt8) : HttpConnection :=
  if c.connState = .dataChunked ∧ 1 < line.length then
    let chunkSize := strtoul (chunkSizeStr line)
    if chunkSize = 0 then c.setIdleState
    else if maxChunkSize < chunkSize then c.setFailedState .chunkedEncoding
    else c.setDataMode chunkSize
  else if c.connState = .processResponse then
    let c := { c with receivedHeadersSize := c.receivedHeadersSize + line.length }
    (c.parseResponseHeader line).settleHead
  else c

/-- `onFailed`. -/
def onFailed (error : SocketError) : HttpConnection :=
  let failed := { c with connState := .failed }
  if c.connState = .idle then failed.call .disconnected
  else if c.connState ≠ .failed then failed.call (.failed (.socket error))
  else failed

/-- `onModeChange`. -/
def onModeChange : HttpConnection := if c.connState = .data then c.setIdleState else c

/-- `onData`. -/
def onData (data : List UInt8) : HttpConnection :=
  if c.connState ≠ .data ∧ c.connState ≠ .dataChunked then c
  else if c.bodySize ≠ -1 ∧ ((c.bodySize - c.receivedBodySize) % 2 ^ 64).toNat < data.length then
    c.setFailedState .tooMuchData
  else
    let newBodySize := c.receivedBodySize + data.length
    if c.maxBodySize < newBodySize then c.setFailedState (.fileTooLarge newBodySize)
    else
      let c : HttpConnection := { c.call (.data data) with receivedBodySize := newBodySize }
      if c.receivedBodySize = c.bodySize then c.setIdleState else c

/-! ### The socket -/

/-- An iteration of `consumeData` with a block of bytes. -/
def consumeBlock (block : List UInt8) : HttpConnection :=
  let c := c.onData block
  if c.remainingSize = unlimited then c
  else
    let c := { c with remainingSize := c.remainingSize - block.length }
    if c.remainingSize = 0 then { c with mode := .line }.onModeChange else c

/-- The size of the next block. -/
def blockSize (unread : List UInt8) : Nat :=
  if c.remainingSize ≠ unlimited ∧ c.remainingSize < unread.length then c.remainingSize
  else unread.length

end HttpConnection

/-- A connection and the read buffer of its socket: the bytes it has been given, line feeds
included, and those not yet. -/
structure Reception where
  conn : HttpConnection
  running : Bool
  handled : List UInt8
  unread : List UInt8
  deriving DecidableEq

/-- A read, a pass of the loop over what has been read, or the end of the connection. -/
inductive Event where
  | read (chunk : List UInt8)
  | turn
  | closed
  deriving DecidableEq

namespace Reception

/-- The request has been sent and nothing has been received. -/
def start (maxRespBodySize maxErrorBodySize : Int) : Reception :=
  ⟨.start maxRespBodySize maxErrorBodySize, true, [], []⟩

variable (maxLineSize : Nat) (s : Reception)

/-- An exception. -/
def fail (error : SocketError) : Reception :=
  { s with conn := s.conn.onFailed error, running := false }

/-- An iteration of `parseData`. -/
def parseLine : Reception :=
  match splitFirst 0x0a s.unread with
  | none => if maxLineSize < s.unread.length then s.fail .commandTooLong else s
  | some (line, rest) =>
    if maxLineSize < line.length then s.fail .commandTooLong
    else
      { s with
        conn := s.conn.onDataLine line
        handled := s.handled ++ (line ++ [0x0a])
        unread := rest }

/-- An iteration of `consumeData`. -/
def consumeData : Reception :=
  if s.unread = [] then s
  else if s.conn.remainingSize = 0 then
    { s with conn := { s.conn with mode := .line }.onModeChange }
  else
    let block := s.unread.take (s.conn.blockSize s.unread)
    { s with
      conn := s.conn.consumeBlock block
      handled := s.handled ++ block
      unread := s.unread.drop (s.conn.blockSize s.unread) }

/-- One event. -/
def step (e : Event) : Reception :=
  if s.running then
    match e with
    | .read chunk => { s with unread := s.unread ++ chunk }
    | .turn =>
      match s.conn.mode with
      | .line => parseLine maxLineSize s
      | .data => consumeData s
    | .closed => s.fail .connectionClosed
  else s

/-- What is read in a run. -/
def received (es : List Event) : List UInt8 :=
  es.flatMap fun
    | .read chunk => chunk
    | _ => []

end Reception

end Blacklink.Http
