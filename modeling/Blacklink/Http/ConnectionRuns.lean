import Blacklink.Http.SizeNumbers

/-!
# When a response is reported to be complete

However a response is split into reads, the client is told that it is complete only when it is
(`framed_run`), as long as the head and the chunk sizes are ones that are read as they are meant
(`EventOk`).
-/

namespace Blacklink.Http

open Blacklink.Base Blacklink.Text Blacklink.Net

/-- The bytes of a call of `onData`. -/
def ClientCall.bytes : ClientCall → List UInt8
  | .data bytes => bytes
  | _ => []

/-- The bytes the client has been given. -/
def given (calls : List ClientCall) : List UInt8 := calls.flatMap ClientCall.bytes

/-! ### What is expected -/

/-- What is reported complete is complete, and its body is what was given to the client before. -/
def Reported (calls : List ClientCall) (m : Framing) : Prop :=
  ∀ pre post, calls = pre ++ .completed :: post → m.phase = .complete ∧ given pre = m.body

/-- A connection that has handled a part of the input does well: it reports a response complete that
is complete, and has failed if it is malformed. -/
structure Framed (input : List UInt8) (s : Reception) : Prop where
  handled : s.handled <+: input
  completed : Reported s.conn.client (Framing.frame s.handled)
  malformed : (Framing.frame s.handled).phase = .malformed → s.conn.connState = .failed

/-- The size of the body is read as the head means it: without a `Content-Length`, unless what is
taken for the transfer coding is not what it is, or no body can follow; with one of up to 18 digits,
unless chunks come first, or bytes are announced where no body can follow; with one that is not all
digits, if it is not a number at all or below all sizes that have a meaning. -/
def HeadOk (r : Response) : Prop :=
  match r.headerValues "content-length" with
  | [] => if r.noBody then r.isChunked = false else r.isChunked = r.chunkedLast
  | [value] =>
    18 < value.length ∨
      if value ≠ [] ∧ value.all isDigit then
        if r.noBody then digitsValue value = 0 else r.chunkedLast = false
      else
        (Response.readInt value).2 ≠ value.length ∨
          (Response.readInt value).1 < bodySizeChunked ∧ r.isChunked = false
  | _ => True

/-- The line ends a head with a size that is read as it means it; or in a chunked body, it is the
line that is due there, or is refused as too large a size. -/
def LineOk (c : HttpConnection) (m : Framing) (line : List UInt8) : Prop :=
  match c.connState with
  | .processResponse =>
    (c.resp.parseLine line).error = false → (c.resp.parseLine line).complete = true →
      HeadOk (c.resp.parseLine line)
  | .dataChunked =>
    (run Framing.feed m (line ++ [0x0a])).phase ≠ .malformed ∨
      1 < line.length ∧ maxChunkSize < strtoul (chunkSizeStr line)
  | _ => True

/-- The condition on an event. -/
def EventOk (maxLineSize : Nat) (s : Reception) : Event → Prop
  | .turn =>
    match s.conn.mode, splitFirst 0x0a s.unread with
    | .line, some (line, _) =>
      line.length ≤ maxLineSize → LineOk s.conn (Framing.frame s.handled) line
    | _, _ => True
  | _ => True

instance (r : Response) : Decidable (HeadOk r) := by
  unfold HeadOk
  split <;> infer_instance

instance (c : HttpConnection) (m : Framing) (line : List UInt8) : Decidable (LineOk c m line) := by
  unfold LineOk
  split <;> infer_instance

instance (maxLineSize : Nat) (s : Reception) (e : Event) : Decidable (EventOk maxLineSize s e) := by
  cases e with
  | read chunk => exact instDecidableTrue
  | turn =>
    unfold EventOk
    dsimp only
    split <;> infer_instance
  | closed => exact instDecidableTrue

/-! ### Reports -/

theorem given_append (calls calls' : List ClientCall) :
    given (calls ++ calls') = given calls ++ given calls' := List.flatMap_append

namespace Reported

variable {calls : List ClientCall} {m : Framing}

theorem of_open (h : .completed ∉ calls) (m : Framing) : Reported calls m := by
  intro pre post heq
  rw [heq] at h
  exact absurd (List.mem_append_right pre List.mem_cons_self) h

/-- Only the first report counts: behind it nothing is given. -/
theorem concat (h : Reported calls m) {e : ClientCall} (he : e ≠ .completed) :
    Reported (calls ++ [e]) m := by
  intro pre post heq
  rcases List.eq_nil_or_concat post with rfl | ⟨post', e', rfl⟩
  · exact absurd (List.append_inj' heq rfl).2 (by simpa using he)
  · rw [List.concat_eq_append, ← List.cons_append, ← List.append_assoc] at heq
    exact h pre post' (List.append_inj' heq rfl).1

theorem report (h : .completed ∉ calls) : Reported (calls ++ [.completed])
    ⟨.complete, given calls⟩ := by
  intro pre post heq
  rcases List.eq_nil_or_concat post with rfl | ⟨post', e', rfl⟩
  · rw [(List.append_inj' heq rfl).1]
    exact ⟨rfl, rfl⟩
  · rw [List.concat_eq_append, ← List.cons_append, ← List.append_assoc] at heq
    rw [(List.append_inj' heq rfl).1] at h
    exact absurd (List.mem_append_right pre List.mem_cons_self) h

/-- Nothing follows a response that is complete. -/
theorem run (h : Reported calls m) (bytes : List UInt8) :
    Reported calls (run Framing.feed m bytes) := by
  intro pre post heq
  obtain ⟨hphase, hbody⟩ := h pre post heq
  obtain ⟨phase, body⟩ := m
  cases hphase
  rw [Framing.run_complete]
  exact ⟨rfl, hbody⟩

end Reported

/-! ### The connection and the response agree -/

/-- The state of a connection that has handled some bytes, and the response that they are. -/
inductive Agree (c : HttpConnection) : Framing → Prop
  | head (hstate : c.connState = .processResponse) (hmode : c.mode = .line)
      (hsize : c.bodySize = bodySizeUnknown) (hreceived : c.receivedBodySize = 0)
      (hclient : c.client = []) : Agree c ⟨.head c.resp [], []⟩
  | untilClose (hstate : c.connState = .data) (hmode : c.mode = .data)
      (hsize : c.bodySize = bodySizeUnknown) (hremaining : c.remainingSize = unlimited)
      (hreceived : 0 ≤ c.receivedBodySize) (hopen : .completed ∉ c.client) :
      Agree c ⟨.untilClose, given c.client⟩
  | sized (hstate : c.connState = .data) (hmode : c.mode = .data) (hpos : 0 < c.remainingSize)
      (hlt : c.remainingSize < 2 ^ 63) (hsize : c.bodySize = c.receivedBodySize + c.remainingSize)
      (hreceived : 0 ≤ c.receivedBodySize) (hopen : .completed ∉ c.client) :
      Agree c ⟨.block c.remainingSize false, given c.client⟩
  | chunk (hstate : c.connState = .dataChunked) (hmode : c.mode = .data)
      (hpos : 0 < c.remainingSize) (hle : c.remainingSize ≤ maxChunkSize)
      (hsize : c.bodySize = bodySizeChunked) (hreceived : 0 ≤ c.receivedBodySize)
      (hopen : .completed ∉ c.client) : Agree c ⟨.block c.remainingSize true, given c.client⟩
  | chunkLine {phase : Phase} (hstate : c.connState = .dataChunked) (hmode : c.mode = .line)
      (hsize : c.bodySize = bodySizeChunked) (hreceived : 0 ≤ c.receivedBodySize)
      (hopen : .completed ∉ c.client) (hphase : phase = .chunkSize [] ∨ phase = .chunkCr) :
      Agree c ⟨phase, given c.client⟩
  | done {m : Framing} (hstate : c.connState = .idle) (hphase : m.phase = .complete)
      (hreported : Reported c.client m) : Agree c m
  | failed {m : Framing} (hstate : c.connState = .failed) (hreported : Reported c.client m) :
      Agree c m

namespace Agree

variable {c : HttpConnection} {m : Framing}

theorem reported (h : Agree c m) : Reported c.client m := by
  cases h with
  | head _ _ _ _ hclient => exact .of_open (by rw [hclient]; exact List.not_mem_nil) _
  | untilClose _ _ _ _ _ hopen => exact .of_open hopen _
  | sized _ _ _ _ _ _ hopen => exact .of_open hopen _
  | chunk _ _ _ _ _ _ hopen => exact .of_open hopen _
  | chunkLine _ _ _ _ hopen => exact .of_open hopen _
  | done _ _ hreported => exact hreported
  | failed _ hreported => exact hreported

theorem state_of_malformed (h : Agree c m) (hm : m.phase = .malformed) :
    c.connState = .failed := by
  cases h with
  | chunkLine _ _ _ _ _ hphase =>
    rcases hphase with rfl | rfl
    · cases hm
    · cases hm
  | done _ hphase _ =>
    rw [hphase] at hm
    cases hm
  | failed hstate _ => exact hstate
  | _ => cases hm

theorem setFailedState (h : Reported c.client m) (error : HttpError) :
    Agree (c.setFailedState error) m := .failed rfl (h.concat nofun)

theorem setIdleState (hopen : .completed ∉ c.client) :
    Agree c.setIdleState ⟨.complete, given c.client⟩ := .done rfl rfl (.report hopen)

/-- The end of the connection. -/
theorem onFailed (h : Agree c m) (error : SocketError) : Agree (c.onFailed error) m := by
  unfold HttpConnection.onFailed
  dsimp only
  split
  · exact .failed rfl (h.reported.concat nofun)
  · split
    · exact .failed rfl (h.reported.concat nofun)
    · exact .failed rfl h.reported

/-! ### Blocks -/

theorem onData_cases (hstate : c.connState = .data ∨ c.connState = .dataChunked)
    (data : List UInt8) :
    (∃ error, c.onData data = c.setFailedState error) ∨
      c.onData data =
        let c' : HttpConnection :=
          { c.call (.data data) with receivedBodySize := c.receivedBodySize + data.length }
        if c'.receivedBodySize = c'.bodySize then c'.setIdleState else c' := by
  unfold HttpConnection.onData
  rw [if_neg (by rcases hstate with h | h <;> simp [h])]
  split
  · exact .inl ⟨_, rfl⟩
  · dsimp only
    split
    · exact .inl ⟨_, rfl⟩
    · exact .inr rfl

/-- Behind a response that has ended, the count changes nothing else. -/
theorem consumeBlock_ended {block : List UInt8} (h : (c.onData block).connState ≠ .data) :
    (c.consumeBlock block).connState = (c.onData block).connState ∧
      (c.consumeBlock block).client = (c.onData block).client := by
  unfold HttpConnection.consumeBlock HttpConnection.onModeChange
  dsimp only
  split
  · exact ⟨rfl, rfl⟩
  · split
    · exact ⟨rfl, rfl⟩
    · exact ⟨rfl, rfl⟩

theorem consumeBlock_failed {block : List UInt8} {error : HttpError}
    (h : c.onData block = c.setFailedState error) (hm : Reported c.client m) :
    Agree (c.consumeBlock block) m := by
  have hstate : (c.onData block).connState = .failed := by rw [h]; rfl
  obtain ⟨hstate', hclient⟩ := consumeBlock_ended (by rw [hstate]; nofun)
  apply Agree.failed (hstate'.trans hstate)
  rw [hclient, h]
  exact hm.concat nofun

/-- A block that is not the last. -/
theorem consumeBlock_part {block : List UInt8} {d : HttpConnection} (h : c.onData block = d)
    (hne : d.remainingSize ≠ unlimited) (hleft : d.remainingSize - block.length ≠ 0) :
    c.consumeBlock block = { d with remainingSize := d.remainingSize - block.length } := by
  unfold HttpConnection.consumeBlock
  rw [h]
  dsimp only
  rw [if_neg hne, if_neg hleft]

/-- The last block of a chunk. -/
theorem consumeBlock_chunk {block : List UInt8} {d : HttpConnection} (h : c.onData block = d)
    (hstate : d.connState = .dataChunked) (hne : d.remainingSize ≠ unlimited)
    (hleft : d.remainingSize - block.length = 0) :
    c.consumeBlock block =
      { d with mode := .line, remainingSize := d.remainingSize - block.length } := by
  unfold HttpConnection.consumeBlock HttpConnection.onModeChange
  rw [h]
  dsimp only
  rw [if_neg hne, if_pos hleft, if_neg (by rw [hstate]; nofun)]

/-- A connection that does not wait for a body. -/
theorem consumeBlock_of_ended (hdata : c.connState ≠ .data) (hchunked : c.connState ≠ .dataChunked)
    (block : List UInt8) :
    (c.consumeBlock block).connState = c.connState ∧ (c.consumeBlock block).client = c.client := by
  have hsame : c.onData block = c := if_pos ⟨hdata, hchunked⟩
  have hended := @consumeBlock_ended c block
  rw [hsame] at hended
  exact hended hdata

/-- A block of a body. -/
theorem block (h : Agree c m) (hmode : c.mode = .data) {bytes : List UInt8} (hne : bytes ≠ [])
    (hlen : c.remainingSize ≠ unlimited → bytes.length ≤ c.remainingSize) :
    Agree (c.consumeBlock bytes) (run Framing.feed m bytes) := by
  have hgiven : given (c.client ++ [.data bytes]) = given c.client ++ bytes := by
    rw [given_append]
    simp [given, ClientCall.bytes]
  have hstill : .completed ∉ c.client → .completed ∉ c.client ++ [.data bytes] := by
    intro hopen hmem
    rcases List.mem_append.mp hmem with hmem | hmem
    · exact hopen hmem
    · simp at hmem
  have hpos : 0 < bytes.length := List.length_pos_iff.mpr hne
  cases h with
  | head _ hline =>
    rw [hline] at hmode
    cases hmode
  | chunkLine _ hline =>
    rw [hline] at hmode
    cases hmode
  | untilClose hstate _ hsize hremaining hreceived hopen =>
    rw [Framing.run_untilClose]
    rcases onData_cases (.inl hstate) bytes with ⟨error, heq⟩ | heq
    · exact consumeBlock_failed heq (.of_open hopen _)
    · dsimp only at heq
      rw [if_neg (by simp only [HttpConnection.call, hsize, bodySizeUnknown]; omega)] at heq
      have hconsume : c.consumeBlock bytes = c.onData bytes := by
        unfold HttpConnection.consumeBlock
        rw [heq]
        exact if_pos hremaining
      rw [hconsume, heq, ← hgiven]
      exact .untilClose hstate hmode hsize hremaining (by dsimp only; omega) (hstill hopen)
  | sized hstate _ hleft hlt hsize hreceived hopen =>
    have hne : c.remainingSize ≠ unlimited := by
      unfold unlimited
      omega
    have hle := hlen hne
    rw [Framing.run_block false _ (List.length_pos_iff.mp hpos) hle]
    rcases onData_cases (.inl hstate) bytes with ⟨error, heq⟩ | heq
    · exact consumeBlock_failed heq (.of_open hopen _)
    · dsimp only at heq
      by_cases hall : bytes.length = c.remainingSize
      · -- The last byte has come; the mode change that follows finds the connection idle.
        rw [if_pos (by simp only [HttpConnection.call, hsize]; omega)] at heq
        have hidle : (c.onData bytes).connState = .idle := by rw [heq]; rfl
        obtain ⟨hstate', hclient⟩ := consumeBlock_ended (by rw [hidle]; nofun)
        rw [if_pos hall, ← hgiven]
        apply Agree.done (hstate'.trans hidle) rfl
        rw [hclient, heq]
        exact .report (hstill hopen)
      · rw [if_neg (by simp only [HttpConnection.call, hsize]; omega)] at heq
        have hless : bytes.length < c.remainingSize := Nat.lt_of_le_of_ne hle hall
        rw [if_neg hall, consumeBlock_part heq hne (Nat.sub_ne_zero_of_lt hless), ← hgiven]
        exact .sized hstate hmode (Nat.sub_pos_of_lt hless)
          (Nat.lt_of_le_of_lt (Nat.sub_le _ _) hlt)
          (by simp only [HttpConnection.call, hsize]; omega) (by dsimp only; omega) (hstill hopen)
  | chunk hstate _ hleft hmax hsize hreceived hopen =>
    have hne : c.remainingSize ≠ unlimited := by
      unfold unlimited
      unfold maxChunkSize at hmax
      omega
    have hle := hlen hne
    rw [Framing.run_block true _ (List.length_pos_iff.mp hpos) hle]
    rcases onData_cases (.inr hstate) bytes with ⟨error, heq⟩ | heq
    · exact consumeBlock_failed heq (.of_open hopen _)
    · dsimp only at heq
      rw [if_neg (by simp only [HttpConnection.call, hsize, bodySizeChunked]; omega)] at heq
      by_cases hall : bytes.length = c.remainingSize
      · have hzero : c.remainingSize - bytes.length = 0 := by omega
        rw [if_pos hall, consumeBlock_chunk heq hstate hne hzero, ← hgiven]
        exact .chunkLine hstate rfl hsize (by dsimp only; omega) (hstill hopen) (.inr rfl)
      · have hless : bytes.length < c.remainingSize := Nat.lt_of_le_of_ne hle hall
        rw [if_neg hall, consumeBlock_part heq hne (Nat.sub_ne_zero_of_lt hless), ← hgiven]
        exact .chunk hstate hmode (Nat.sub_pos_of_lt hless)
          (Nat.le_trans (Nat.sub_le _ _) hmax) hsize (by dsimp only; omega) (hstill hopen)
  | done hstate hphase hreported =>
    obtain ⟨hstate', hclient⟩ := consumeBlock_of_ended (by rw [hstate]; nofun)
      (by rw [hstate]; nofun) bytes
    obtain ⟨phase, body⟩ := m
    cases hphase
    rw [Framing.run_complete]
    exact .done (hstate'.trans hstate) rfl (hclient ▸ hreported)
  | failed hstate hreported =>
    obtain ⟨hstate', hclient⟩ := consumeBlock_of_ended (by rw [hstate]; nofun)
      (by rw [hstate]; nofun) bytes
    exact .failed (hstate'.trans hstate) (hclient ▸ hreported.run bytes)

/-! ### The end of the head -/

section

variable (hclient : c.client = [])

include hclient

private theorem open_of_nil : .completed ∉ c.client := by
  rw [hclient]
  exact List.not_mem_nil

private theorem given_of_nil : given c.client = [] := by
  rw [hclient]
  rfl

/-- An empty body. -/
theorem beginBody_zero (hsize : c.bodySize = 0) : Agree c.beginBody ⟨.complete, []⟩ := by
  unfold HttpConnection.beginBody
  rw [if_neg (by omega), if_pos hsize, ← given_of_nil hclient]
  exact setIdleState (open_of_nil hclient)

/-- A size that is none of those expected. -/
theorem beginBody_negative (hsize : c.bodySize < bodySizeChunked) (m : Framing) :
    Agree c.beginBody m := by
  unfold bodySizeChunked at hsize
  unfold HttpConnection.beginBody bodySizeUnknown bodySizeChunked
  rw [if_neg (by omega), if_neg (by omega), if_neg (by omega), if_neg (by omega)]
  exact setFailedState (.of_open (open_of_nil hclient) m) _

variable (hreceived : c.receivedBodySize = 0)

include hreceived

/-- A body that ends with the connection. -/
theorem beginBody_unknown (hsize : c.bodySize = bodySizeUnknown) :
    Agree c.beginBody ⟨.untilClose, []⟩ := by
  have hbegin : c.beginBody = { c.setDataMode (-1) with connState := .data } := by
    unfold HttpConnection.beginBody
    rw [hsize]
    rfl
  rw [hbegin, ← given_of_nil hclient]
  exact .untilClose rfl rfl hsize rfl hreceived.ge (open_of_nil hclient)

/-- A body with a size. -/
theorem beginBody_sized {n : Nat} (hsize : c.bodySize = (n + 1 : Nat)) (hlt : n + 1 < 2 ^ 63) :
    Agree c.beginBody ⟨.block (n + 1) false, []⟩ := by
  unfold HttpConnection.beginBody
  rw [if_pos (by omega)]
  split
  · exact setFailedState (.of_open (open_of_nil hclient) _) _
  · have hremaining : (c.bodySize % 2 ^ 64).toNat = n + 1 := by omega
    have hpos : 0 < (c.bodySize % 2 ^ 64).toNat := by omega
    have hlt' : (c.bodySize % 2 ^ 64).toNat < 2 ^ 63 := by omega
    rw [← hremaining, ← given_of_nil hclient]
    apply Agree.sized
    · rfl
    · rfl
    · exact hpos
    · exact hlt'
    · change c.bodySize = c.receivedBodySize + ((c.bodySize % 2 ^ 64).toNat : Nat)
      rw [hremaining, hreceived, hsize, Int.zero_add]
    · exact hreceived.ge
    · exact open_of_nil hclient

/-- A chunked body. -/
theorem beginBody_chunked (hmode : c.mode = .line) (hsize : c.bodySize = bodySizeChunked) :
    Agree c.beginBody ⟨.chunkSize [], []⟩ := by
  have hbegin : c.beginBody = { c with connState := .dataChunked } := by
    unfold HttpConnection.beginBody
    rw [hsize]
    rfl
  have hagree : Agree { c with connState := .dataChunked } ⟨.chunkSize [], given c.client⟩ :=
    .chunkLine rfl hmode hsize hreceived.ge (open_of_nil hclient) (.inl rfl)
  rw [hbegin]
  rwa [given_of_nil hclient] at hagree

/-- No size is given. -/
theorem skipBody_unknown (hsize : c.bodySize = bodySizeUnknown) :
    Agree c.skipBody.beginBody ⟨if c.resp.noBody then .complete else .untilClose, []⟩ := by
  unfold HttpConnection.skipBody
  cases hno : c.resp.noBody with
  | true =>
    have hcode : c.resp.code = 204 ∨ c.resp.code = 304 := by
      simpa only [Response.noBody, Bool.or_eq_true, decide_eq_true_eq] using hno
    rw [if_pos ⟨hsize, hcode⟩]
    exact beginBody_zero hclient rfl
  | false =>
    have hcode : ¬ (c.resp.code = 204 ∨ c.resp.code = 304) := by
      simpa only [Response.noBody, Bool.or_eq_false_iff, decide_eq_false_iff_not, not_or] using hno
    rw [if_neg fun h => hcode h.2]
    exact beginBody_unknown hclient hreceived hsize

end

theorem skipBody_of_ne (hsize : c.bodySize ≠ bodySizeUnknown) : c.skipBody = c :=
  if_neg fun h => hsize h.1

/-- A `Content-Length` that is refused. -/
theorem readBodySize_fail (h : c.resp.parseContentLength = (c.resp.fail, -1)) :
    c.readBodySize.resp.error = true ∧ c.readBodySize.client = c.client := by
  unfold HttpConnection.readBodySize
  rw [h]
  exact ⟨rfl, rfl⟩

/-- A size that chunks do not take the place of. -/
theorem readBodySize_plain {n : Int} (h : c.resp.parseContentLength = (c.resp, n))
    (herror : c.resp.error = false) (hplain : 0 ≤ n ∨ c.resp.isChunked = false) :
    c.readBodySize = { c with bodySize := n } := by
  unfold HttpConnection.readBodySize
  rw [h]
  dsimp only
  rw [if_neg (by rw [herror]; decide), if_neg]
  rintro ⟨hneg, hchunked⟩
  rcases hplain with hle | hno
  · omega
  · rw [hno] at hchunked
    cases hchunked

/-- Chunks take the place of no size. -/
theorem readBodySize_chunked {n : Int} (h : c.resp.parseContentLength = (c.resp, n))
    (herror : c.resp.error = false) (hneg : n < 0) (hchunked : c.resp.isChunked = true) :
    c.readBodySize = { c with bodySize := bodySizeChunked } := by
  unfold HttpConnection.readBodySize
  rw [h]
  dsimp only
  rw [if_neg (by rw [herror]; decide), if_pos ⟨hneg, hchunked⟩]

/-- The line that ends the head. -/
theorem settleHead_readBodySize (hclient : c.client = []) (hreceived : c.receivedBodySize = 0)
    (hmode : c.mode = .line) (herror : c.resp.error = false) (hcomplete : c.resp.complete = true)
    (hok : HeadOk c.resp) : Agree c.readBodySize.settleHead ⟨.body c.resp, []⟩ := by
  have hrefused (h : c.resp.parseContentLength = (c.resp.fail, -1)) (m : Framing) :
      Agree c.readBodySize.settleHead m := by
    obtain ⟨herror', hclient'⟩ := readBodySize_fail h
    unfold HttpConnection.settleHead
    rw [if_pos herror']
    exact setFailedState (.of_open (open_of_nil (hclient'.trans hclient)) m) _
  have hsettled (n : Int) : HttpConnection.settleHead { c with bodySize := n } =
      HttpConnection.beginBody (HttpConnection.skipBody { c with bodySize := n }) := by
    unfold HttpConnection.settleHead
    rw [if_neg (by dsimp only; rw [herror]; decide), if_pos hcomplete]
  unfold HeadOk at hok
  unfold Phase.body
  cases hvalues : c.resp.headerValues "content-length" with
  | nil =>
    rw [hvalues] at hok
    have hparse : c.resp.parseContentLength = (c.resp, -1) := by
      rw [Response.parseContentLength, hvalues]
    dsimp only [Phase.bodyStart] at hok ⊢
    cases hno : c.resp.noBody with
    | true =>
      rw [if_pos hno] at hok
      rw [readBodySize_plain hparse herror (.inr hok), hsettled, if_pos rfl]
      have hagree := skipBody_unknown (c := { c with bodySize := -1 }) hclient hreceived rfl
      rwa [if_pos hno] at hagree
    | false =>
      rw [if_neg (by rw [hno]; decide)] at hok
      rw [if_neg Bool.false_ne_true]
      cases hlast : c.resp.chunkedLast with
      | true =>
        rw [readBodySize_chunked hparse herror (by decide) (hok.trans hlast), hsettled,
          skipBody_of_ne (show bodySizeChunked ≠ bodySizeUnknown by decide), if_pos rfl]
        exact beginBody_chunked hclient hreceived hmode rfl
      | false =>
        rw [readBodySize_plain hparse herror (.inr (hok.trans hlast)), hsettled,
          if_neg Bool.false_ne_true]
        have hagree := skipBody_unknown (c := { c with bodySize := -1 }) hclient hreceived rfl
        rwa [if_neg (by rw [hno]; decide)] at hagree
  | cons value values =>
    cases values with
    | cons value' values =>
      apply hrefused
      rw [Response.parseContentLength, hvalues]
    | nil =>
      rw [hvalues] at hok
      dsimp only at hok ⊢
      by_cases hlong : 18 < value.length
      · apply hrefused
        rw [Response.parseContentLength, hvalues]
        exact if_pos hlong
      have hok := hok.resolve_left hlong
      by_cases hdigits : value ≠ [] ∧ value.all isDigit = true
      · rw [if_pos hdigits] at hok ⊢
        have hparse : c.resp.parseContentLength = (c.resp, (digitsValue value : Int)) := by
          rw [Response.parseContentLength, hvalues]
          dsimp only
          rw [readInt_digits hdigits.1 hdigits.2, if_neg hlong, if_neg (not_not.mpr rfl)]
        rw [readBodySize_plain hparse herror (.inl (Int.natCast_nonneg _)), hsettled,
          skipBody_of_ne (by unfold bodySizeUnknown; dsimp only; omega)]
        unfold Phase.bodyStart
        cases hno : c.resp.noBody with
        | true =>
          rw [if_pos hno] at hok
          exact beginBody_zero hclient (by dsimp only; omega)
        | false =>
          rw [if_neg (by rw [hno]; decide)] at hok
          rw [if_neg Bool.false_ne_true, hok, if_neg Bool.false_ne_true]
          have hlt : digitsValue value < 2 ^ 63 := by
            calc digitsValue value < 10 ^ value.length := digitsValue_lt value
              _ ≤ 10 ^ 18 := Nat.pow_le_pow_right (by decide) (Nat.le_of_not_lt hlong)
              _ < 2 ^ 63 := by decide
          cases hvalue : digitsValue value with
          | zero => exact beginBody_zero hclient rfl
          | succ n =>
            rw [hvalue] at hlt
            exact beginBody_sized (c := { c with bodySize := (n + 1 : Nat) }) hclient hreceived rfl
              hlt
      · rw [if_neg hdigits] at hok ⊢
        by_cases hjunk : (Response.readInt value).2 ≠ value.length
        · apply hrefused
          rw [Response.parseContentLength, hvalues]
          dsimp only
          rw [if_neg hlong, if_pos hjunk]
        · obtain ⟨hneg, hchunked⟩ := hok.resolve_left hjunk
          have hparse : c.resp.parseContentLength = (c.resp, (Response.readInt value).1) := by
            rw [Response.parseContentLength, hvalues]
            dsimp only
            rw [if_neg hlong, if_neg hjunk]
          have hne : (Response.readInt value).1 ≠ bodySizeUnknown := by
            unfold bodySizeChunked at hneg
            unfold bodySizeUnknown
            omega
          rw [readBodySize_plain hparse herror (.inr hchunked), hsettled, skipBody_of_ne hne]
          exact beginBody_negative (c := { c with bodySize := (Response.readInt value).1 }) hclient
            hneg _

/-! ### Lines -/

/-- A line of the head. -/
theorem headLine (hstate : c.connState = .processResponse) (hmode : c.mode = .line)
    (hsize : c.bodySize = bodySizeUnknown) (hreceived : c.receivedBodySize = 0)
    (hclient : c.client = []) {line : List UInt8}
    (hok : (c.resp.parseLine line).error = false → (c.resp.parseLine line).complete = true →
      HeadOk (c.resp.parseLine line)) :
    Agree (c.onDataLine line) ⟨.headLine (c.resp.parseLine line), []⟩ := by
  have hdata : c.onDataLine line = (HttpConnection.parseResponseHeader
      { c with receivedHeadersSize := c.receivedHeadersSize + line.length } line).settleHead := by
    unfold HttpConnection.onDataLine
    rw [if_neg (by rw [hstate]; exact fun h => nomatch h.1), if_pos hstate]
  rw [hdata]
  unfold HttpConnection.parseResponseHeader Phase.headLine
  dsimp only
  cases herror : (c.resp.parseLine line).error with
  | true =>
    rw [if_neg fun h => h.2 rfl, if_pos rfl]
    unfold HttpConnection.settleHead
    rw [if_pos herror]
    apply setFailedState
    exact .of_open (open_of_nil hclient) _
  | false =>
    rw [if_neg Bool.false_ne_true]
    cases hcomplete : (c.resp.parseLine line).complete with
    | true =>
      rw [if_pos ⟨rfl, Bool.false_ne_true⟩, if_pos rfl]
      exact settleHead_readBodySize (c := { c with
        receivedHeadersSize := c.receivedHeadersSize + line.length, resp := c.resp.parseLine line })
        hclient hreceived hmode herror hcomplete (hok herror hcomplete)
    | false =>
      rw [if_neg fun h => Bool.false_ne_true h.1, if_neg Bool.false_ne_true]
      unfold HttpConnection.settleHead
      rw [if_neg (by dsimp only; rw [herror]; decide),
        if_neg (by dsimp only; rw [hcomplete]; decide)]
      split
      · apply setFailedState
        exact .of_open (open_of_nil hclient) _
      · exact .head (c := { c with
          receivedHeadersSize := c.receivedHeadersSize + line.length
          resp := c.resp.parseLine line }) hstate hmode hsize hreceived hclient

/-- A line of a chunked body. -/
theorem chunkedLine {phase : Phase} (hstate : c.connState = .dataChunked) (hmode : c.mode = .line)
    (hsize : c.bodySize = bodySizeChunked) (hreceived : 0 ≤ c.receivedBodySize)
    (hopen : .completed ∉ c.client) (hphase : phase = .chunkSize [] ∨ phase = .chunkCr)
    {line : List UInt8} (hlf : (0x0a : UInt8) ∉ line)
    (hok : (run Framing.feed ⟨phase, given c.client⟩ (line ++ [0x0a])).phase ≠ .malformed ∨
      1 < line.length ∧ maxChunkSize < strtoul (chunkSizeStr line)) :
    Agree (c.onDataLine line) (run Framing.feed ⟨phase, given c.client⟩ (line ++ [0x0a])) := by
  unfold HttpConnection.onDataLine
  by_cases hbig : 1 < line.length ∧ maxChunkSize < strtoul (chunkSizeStr line)
  · rw [if_pos ⟨hstate, hbig.1⟩]
    dsimp only
    rw [if_neg (Nat.ne_of_gt (Nat.lt_of_le_of_lt (Nat.zero_le _) hbig.2)), if_pos hbig.2]
    exact setFailedState (.of_open hopen _) _
  have hok := hok.resolve_right hbig
  rcases hphase with rfl | rfl
  · rw [Framing.run_chunkSize _ _ hlf, List.nil_append] at hok ⊢
    unfold Phase.sizeLine at hok ⊢
    cases hchunk : chunkSizeOf line with
    | none =>
      rw [hchunk] at hok
      exact absurd rfl hok
    | some n =>
      obtain ⟨hlen, hvalue⟩ := strtoul_chunkSizeStr hchunk
      have hle : strtoul (chunkSizeStr line) ≤ maxChunkSize :=
        Nat.le_of_not_lt fun h => hbig ⟨hlen, h⟩
      have hn : strtoul (chunkSizeStr line) = n := by
        unfold maxChunkSize at hle
        omega
      rw [if_pos ⟨hstate, hlen⟩]
      rw [hn] at hle ⊢
      dsimp only
      cases n with
      | zero =>
        rw [if_pos rfl]
        exact setIdleState hopen
      | succ n =>
        rw [if_neg (Nat.succ_ne_zero n), if_neg (Nat.not_lt.mpr hle)]
        have hremaining : (c.setDataMode (n + 1 : Nat)).remainingSize = n + 1 := by
          unfold maxChunkSize at hle
          change (((n + 1 : Nat) : Int) % 2 ^ 64).toNat = n + 1
          omega
        have hagree : Agree (c.setDataMode (n + 1 : Nat))
            ⟨.block (c.setDataMode (n + 1 : Nat)).remainingSize true, given c.client⟩ := by
          apply Agree.chunk
          · exact hstate
          · rfl
          · rw [hremaining]
            exact Nat.succ_pos n
          · rw [hremaining]
            exact hle
          · exact hsize
          · exact hreceived
          · exact hopen
        rwa [hremaining] at hagree
  · -- The line behind a chunk is too short to be a chunk size.
    rw [Framing.run_chunkCr _ hlf] at hok ⊢
    by_cases hcr : line = [0x0d]
    · subst hcr
      rw [if_neg (by simp), if_neg (by rw [hstate]; nofun), if_pos rfl]
      exact .chunkLine hstate hmode hsize hreceived hopen (.inl rfl)
    · rw [if_neg hcr] at hok
      exact absurd rfl hok

/-- A line without its line feed. -/
theorem line (h : Agree c m) (hmode : c.mode = .line) {line : List UInt8}
    (hlf : (0x0a : UInt8) ∉ line) (hok : LineOk c m line) :
    Agree (c.onDataLine line) (run Framing.feed m (line ++ [0x0a])) := by
  unfold LineOk at hok
  have hignored (hchunked : c.connState ≠ .dataChunked)
      (hresponse : c.connState ≠ .processResponse) : c.onDataLine line = c := by
    unfold HttpConnection.onDataLine
    rw [if_neg fun h => hchunked h.1, if_neg hresponse]
  cases h with
  | head hstate _ hsize hreceived hclient =>
    rw [hstate] at hok
    rw [Framing.run_head _ _ _ hlf, List.nil_append]
    exact headLine hstate hmode hsize hreceived hclient hok
  | chunkLine hstate _ hsize hreceived hopen hphase =>
    rw [hstate] at hok
    exact chunkedLine hstate hmode hsize hreceived hopen hphase hlf hok
  | untilClose _ hdata =>
    rw [hdata] at hmode
    cases hmode
  | sized _ hdata =>
    rw [hdata] at hmode
    cases hmode
  | chunk _ hdata =>
    rw [hdata] at hmode
    cases hmode
  | done hstate hphase hreported =>
    rw [hignored (by rw [hstate]; nofun) (by rw [hstate]; nofun)]
    obtain ⟨phase, body⟩ := m
    cases hphase
    rw [Framing.run_complete]
    exact .done hstate rfl hreported
  | failed hstate hreported =>
    rw [hignored (by rw [hstate]; nofun) (by rw [hstate]; nofun)]
    exact .failed hstate (hreported.run _)

end Agree

/-! ### Runs -/

namespace Reception

variable {maxLineSize : Nat} {s : Reception}

/-- A passage to line mode without a byte. -/
theorem agree_modeChange {c : HttpConnection} {m : Framing} (h : Agree c m)
    (hmode : c.mode = .data) (hzero : c.remainingSize = 0) :
    Agree (HttpConnection.onModeChange { c with mode := .line }) m := by
  have hignored (hstate : c.connState ≠ .data) :
      HttpConnection.onModeChange { c with mode := .line } = { c with mode := .line } :=
    if_neg hstate
  cases h with
  | head _ hline =>
    rw [hline] at hmode
    cases hmode
  | chunkLine _ hline =>
    rw [hline] at hmode
    cases hmode
  | untilClose _ _ _ hremaining =>
    rw [hremaining] at hzero
    exact absurd hzero (by decide)
  | sized _ _ hpos => exact absurd hzero hpos.ne'
  | chunk _ _ hpos => exact absurd hzero hpos.ne'
  | done hstate hphase hreported =>
    rw [hignored (by rw [hstate]; nofun)]
    exact .done hstate hphase hreported
  | failed hstate hreported =>
    rw [hignored (by rw [hstate]; nofun)]
    exact .failed hstate hreported

theorem agree_parseLine (h : Agree s.conn (Framing.frame s.handled)) (hmode : s.conn.mode = .line)
    (hok : EventOk maxLineSize s .turn) :
    Agree (parseLine maxLineSize s).conn (Framing.frame (parseLine maxLineSize s).handled) := by
  unfold EventOk at hok
  unfold Reception.parseLine
  rw [hmode] at hok
  cases hline : splitFirst 0x0a s.unread with
  | none =>
    dsimp only
    split
    · exact h.onFailed _
    · exact h
  | some p =>
    obtain ⟨line, rest⟩ := p
    rw [hline] at hok
    dsimp only at hok ⊢
    split
    · exact h.onFailed _
    · next hlen =>
      rw [Framing.frame, run_append]
      exact h.line hmode (splitFirst_eq_some hline).2 (hok (Nat.le_of_not_lt hlen))

theorem agree_consumeData (h : Agree s.conn (Framing.frame s.handled))
    (hmode : s.conn.mode = .data) :
    Agree (consumeData s).conn (Framing.frame (consumeData s).handled) := by
  unfold Reception.consumeData
  split
  · exact h
  · next hne =>
    split
    · next hzero => exact agree_modeChange h hmode hzero
    · next hpos =>
      have hlen := List.length_pos_iff.mpr hne
      have hsize : 0 < s.conn.blockSize s.unread ∧
          (s.conn.remainingSize ≠ unlimited →
            s.conn.blockSize s.unread ≤ s.conn.remainingSize) := by
        unfold HttpConnection.blockSize
        split <;> omega
      rw [Framing.frame, run_append]
      apply h.block hmode
      · intro hnil
        rcases List.take_eq_nil_iff.mp hnil with h | h
        · exact hsize.1.ne' h
        · exact hne h
      · intro hlimited
        exact (List.length_take_le _ _).trans (hsize.2 hlimited)

/-- One event. -/
theorem agree_step (e : Event) (h : Agree s.conn (Framing.frame s.handled))
    (hok : EventOk maxLineSize s e) :
    Agree (step maxLineSize s e).conn (Framing.frame (step maxLineSize s e).handled) := by
  unfold Reception.step
  split
  · cases e with
    | read chunk => exact h
    | closed => exact h.onFailed _
    | turn =>
      dsimp only
      cases hmode : s.conn.mode with
      | line => exact agree_parseLine h hmode hok
      | data => exact agree_consumeData h hmode
  · exact h

/-- No byte is lost while the connection is there. -/
theorem step_bytes (e : Event) (h : s.running = true) :
    (step maxLineSize s e).handled ++ (step maxLineSize s e).unread =
      s.handled ++ s.unread ++ received [e] := by
  unfold Reception.step
  rw [if_pos h]
  cases e with
  | read chunk => simp [received]
  | closed => simp [received, Reception.fail]
  | turn =>
    have hnone : received [.turn] = [] := rfl
    rw [hnone, List.append_nil]
    dsimp only
    cases s.conn.mode with
    | line =>
      dsimp only
      unfold Reception.parseLine
      cases hline : splitFirst 0x0a s.unread with
      | none =>
        dsimp only
        split
        · rfl
        · rfl
      | some p =>
        dsimp only
        split
        · rfl
        · rw [(splitFirst_eq_some hline).1]
          simp
    | data =>
      dsimp only
      unfold Reception.consumeData
      split
      · rfl
      · split
        · rfl
        · dsimp only
          rw [List.append_assoc, List.take_append_drop]

theorem step_stopped (e : Event) (h : s.running = false) : step maxLineSize s e = s :=
  if_neg (by rw [h]; decide)

theorem run_bytes (s : Reception) (es : List Event) :
    (run (step maxLineSize) s es).handled ++ (run (step maxLineSize) s es).unread <+:
      s.handled ++ s.unread ++ received es := by
  induction es generalizing s with
  | nil => exact List.prefix_append _ _
  | cons e es ih =>
    have hsplit : received (e :: es) = received [e] ++ received es := by simp [received]
    rw [run_cons]
    cases hrun : s.running with
    | true =>
      rw [hsplit, ← List.append_assoc, ← @step_bytes maxLineSize s e hrun]
      exact ih _
    | false =>
      have hstay (es : List Event) : run (step maxLineSize) s es = s := by
        induction es with
        | nil => rfl
        | cons e es ih => rw [run_cons, step_stopped e hrun, ih]
      rw [step_stopped e hrun, hstay]
      exact List.prefix_append _ _

/-- However a response is split into reads: when the client is told that it is complete, it is, and
the client has been given its body before; and if it is malformed, the connection fails. -/
theorem framed_run (maxLineSize : Nat) (maxRespBodySize maxErrorBodySize : Int) (es : List Event)
    (h : Within (EventOk maxLineSize) (step maxLineSize) (start maxRespBodySize maxErrorBodySize)
      es) :
    Framed (received es)
      (run (step maxLineSize) (start maxRespBodySize maxErrorBodySize) es) := by
  have hagree := h.invariant (fun s => Agree s.conn (Framing.frame s.handled))
    (fun s e hs hok => agree_step e hs hok) (.head rfl rfl rfl rfl rfl)
  refine ⟨?_, hagree.reported, hagree.state_of_malformed⟩
  exact (List.prefix_append _ _).trans (run_bytes (start maxRespBodySize maxErrorBodySize) es)

/-- A chunked response in two reads. -/
def chunkedReads : List Event :=
  [.read (["HTTP/1.1 200 OK\r\n", "Transfer-Encoding: chunked\r\n", "\r\n",
      "3\r\nf"].flatMap ascii), .turn, .turn, .turn, .turn, .turn,
    .read (["oo\r\n", "0\r\n", "\r\n"].flatMap ascii), .turn, .turn, .turn]

theorem framed_run_chunkedReads :
    Framed (received chunkedReads)
        (run (step 16777216) (start 1048576 131072) chunkedReads) ∧
      (run (step 16777216) (start 1048576 131072) chunkedReads).conn.client =
        [.data (ascii "f"), .data (ascii "oo"), .completed] :=
  ⟨framed_run 16777216 1048576 131072 chunkedReads (by decide), by decide⟩

/-- A head with a `Content-Length` that has no digit. -/
def emptyLengthReads : List Event :=
  [.read (["HTTP/1.1 200 OK\r\n", "Content-Length: \r\n", "\r\n"].flatMap ascii), .turn, .turn,
    .turn]

/-- The length is read as zero, and the response reported complete. -/
theorem not_framed_emptyLengthReads :
    ¬ Framed (received emptyLengthReads)
      (run (step 16777216) (start 1048576 131072) emptyLengthReads) := by
  intro h
  exact absurd (h.malformed (by decide)) (by decide)

end Reception

end Blacklink.Http
