import Mathlib.Data.Multiset.Count
import Blacklink.Adc.AdcCommand
import Blacklink.Base.Run

/-!
# Tracked packets

Model of `Utils::checkFlood`, `cleanFlood` and `trackOutgoingPacket`
(`client/dht/Utils.cpp:72-171`): the commands received from every address since the last clean-up,
and the requests sent and not yet answered, in the order of sending. A command of the table is the
name of an `AdcCommand`.
-/

namespace Blacklink.Dht

open Blacklink.Adc Blacklink.Base

/-- A command name, `AdcCommand::getCommand`. -/
abbrev CommandName := UInt8 × UInt8 × UInt8

namespace CommandName

def sch : CommandName := ('S'.toUInt8, 'C'.toUInt8, 'H'.toUInt8)
def pub : CommandName := ('P'.toUInt8, 'U'.toUInt8, 'B'.toUInt8)
def inf : CommandName := ('I'.toUInt8, 'N'.toUInt8, 'F'.toUInt8)
def ctm : CommandName := ('C'.toUInt8, 'T'.toUInt8, 'M'.toUInt8)
def rcm : CommandName := ('R'.toUInt8, 'C'.toUInt8, 'M'.toUInt8)
def get : CommandName := ('G'.toUInt8, 'E'.toUInt8, 'T'.toUInt8)
def psr : CommandName := ('P'.toUInt8, 'S'.toUInt8, 'R'.toUInt8)
def sta : CommandName := ('S'.toUInt8, 'T'.toUInt8, 'A'.toUInt8)
def snd : CommandName := ('S'.toUInt8, 'N'.toUInt8, 'D'.toUInt8)
def res : CommandName := ('R'.toUInt8, 'E'.toUInt8, 'S'.toUInt8)

/-- `maxAllowedPacketsPerMinute`. -/
def maxAllowedPacketsPerMinute (cmd : CommandName) : Nat :=
  if cmd = sch then 20
  else if cmd = pub then 10
  else if cmd = inf then 3
  else if cmd = ctm then 2
  else if cmd = rcm then 2
  else if cmd = get then 2
  else if cmd = psr then 3
  else 0

/-- The command answers a request. -/
def IsResponse (cmd : CommandName) : Prop := cmd = snd ∨ cmd = res

instance (cmd : CommandName) : Decidable cmd.IsResponse :=
  inferInstanceAs (Decidable (_ ∨ _))

/-- `requestCmd`, the request that a response answers. -/
def requestCmd (cmd : CommandName) : CommandName := if cmd = snd then get else sch

/-- The requests that `trackOutgoingPacket` stores. -/
def IsTracked (cmd : CommandName) : Prop := cmd ∈ [sch, pub, inf, ctm, get, psr]

instance (cmd : CommandName) : Decidable cmd.IsTracked :=
  inferInstanceAs (Decidable (cmd ∈ _))

end CommandName

/-- `TIME_FOR_RESPONSE`. -/
def timeForResponse : UInt64 := 3 * 60 * 1000

/-- `Utils::OutPacket`. -/
structure OutPacket where
  ip : UInt32
  time : UInt64
  cmd : CommandName
  deriving DecidableEq

/-- The packet is a request to the address with the command. -/
def OutPacket.isRequest (ip : UInt32) (requestCmd : CommandName) (p : OutPacket) : Bool :=
  p.cmd = requestCmd && p.ip = ip

/-- `receivedPackets` and `sentPackets`. -/
structure Packets where
  receivedPackets : UInt32 → Multiset CommandName
  sentPackets : List OutPacket

namespace Packets

/-- Nothing received and nothing sent. -/
def init : Packets := ⟨fun _ => 0, []⟩

/-- `Utils::checkFlood`. -/
def checkFlood (t : Packets) (ip : UInt32) (cmd : AdcCommand) : Bool × Packets :=
  if cmd.parameters = [] then (false, t)
  else if cmd.cmdChar = CommandName.sta then (true, t)
  else if CommandName.IsResponse cmd.cmdChar then
    let isRequest := OutPacket.isRequest ip (CommandName.requestCmd cmd.cmdChar)
    if t.sentPackets.any isRequest then
      (true, { t with sentPackets := t.sentPackets.eraseP isRequest })
    else (false, t)
  else
    let packetsPerIp := cmd.cmdChar ::ₘ t.receivedPackets ip
    (packetsPerIp.count cmd.cmdChar ≤ CommandName.maxAllowedPacketsPerMinute cmd.cmdChar,
      { t with receivedPackets := Function.update t.receivedPackets ip packetsPerIp })

/-- `Utils::cleanFlood`. -/
def cleanFlood (t : Packets) : Packets := { t with receivedPackets := fun _ => 0 }

/-- `Utils::trackOutgoingPacket` at the tick `now`. -/
def trackOutgoingPacket (t : Packets) (ip : UInt32) (cmd : AdcCommand) (now : UInt64) : Packets :=
  let sentPackets :=
    if CommandName.IsTracked cmd.cmdChar then t.sentPackets ++ [⟨ip, now, cmd.cmdChar⟩]
    else t.sentPackets
  { t with sentPackets := sentPackets.dropWhile fun p => timeForResponse ≤ now - p.time }

end Packets

/-- A packet is received or sent at a tick, or the tables are cleaned. -/
inductive PacketEvent where
  | received (ip : UInt32) (cmd : AdcCommand) (tick : UInt64)
  | sent (ip : UInt32) (cmd : AdcCommand) (now : UInt64)
  | cleanFlood
  deriving DecidableEq

namespace Packets

/-- One event. -/
def step (t : Packets) : PacketEvent → Packets
  | .received ip cmd _ => (t.checkFlood ip cmd).2
  | .sent ip cmd now => t.trackOutgoingPacket ip cmd now
  | .cleanFlood => t.cleanFlood

variable {t : Packets} {ip : UInt32} {cmd : AdcCommand}

/-- What `checkFlood` can do: nothing, to use up a request, or to count a command. -/
theorem checkFlood_cases (t : Packets) (ip : UInt32) (cmd : AdcCommand) :
    (∃ result, t.checkFlood ip cmd = (result, t) ∧
      (result = true → cmd.cmdChar = CommandName.sta)) ∨
    (CommandName.IsResponse cmd.cmdChar ∧ cmd.parameters ≠ [] ∧
      t.sentPackets.any (OutPacket.isRequest ip (CommandName.requestCmd cmd.cmdChar)) = true ∧
      t.checkFlood ip cmd = (true, { t with
        sentPackets := t.sentPackets.eraseP
          (OutPacket.isRequest ip (CommandName.requestCmd cmd.cmdChar)) })) ∨
    (¬ CommandName.IsResponse cmd.cmdChar ∧
      t.checkFlood ip cmd =
        (decide ((t.receivedPackets ip).count cmd.cmdChar <
            CommandName.maxAllowedPacketsPerMinute cmd.cmdChar), { t with
          receivedPackets := Function.update t.receivedPackets ip
            (cmd.cmdChar ::ₘ t.receivedPackets ip) })) := by
  unfold checkFlood
  by_cases hparams : cmd.parameters = []
  · rw [if_pos hparams]
    exact .inl ⟨false, rfl, Bool.noConfusion⟩
  rw [if_neg hparams]
  by_cases hsta : cmd.cmdChar = CommandName.sta
  · rw [if_pos hsta]
    exact .inl ⟨true, rfl, fun _ => hsta⟩
  rw [if_neg hsta]
  by_cases hresponse : CommandName.IsResponse cmd.cmdChar
  · rw [if_pos hresponse]
    dsimp only
    split
    · next hany => exact .inr (.inl ⟨hresponse, hparams, hany, rfl⟩)
    · exact .inl ⟨false, rfl, Bool.noConfusion⟩
  · rw [if_neg hresponse]
    dsimp only
    rw [Multiset.count_cons_self]
    exact .inr (.inr ⟨hresponse, rfl⟩)

/-! ### Requests -/

/-- The event is an accepted command of the name from the address. -/
def Accepts (ip : UInt32) (name : CommandName) (t : Packets) : PacketEvent → Prop
  | .received ip' cmd _ => ip' = ip ∧ cmd.cmdChar = name ∧ (t.checkFlood ip' cmd).1 = true
  | _ => False

instance (ip : UInt32) (name : CommandName) (t : Packets) :
    ∀ e, Decidable (Accepts ip name t e)
  | .received ip' cmd _ =>
    inferInstanceAs (Decidable (ip' = ip ∧ cmd.cmdChar = name ∧ (t.checkFlood ip' cmd).1 = true))
  | .sent .. | .cleanFlood => isFalse id

/-- How many commands of the name from the address a run accepts. -/
def accepted (ip : UInt32) (name : CommandName) (t : Packets) : List PacketEvent → Nat
  | [] => 0
  | e :: es => (if Accepts ip name t e then 1 else 0) + accepted ip name (t.step e) es

variable {e : PacketEvent} {name : CommandName}

/-- What has been counted is only taken away by a clean-up. -/
theorem count_le_step (h : e ≠ .cleanFlood) (ip : UInt32) (name : CommandName) :
    (t.receivedPackets ip).count name ≤ ((t.step e).receivedPackets ip).count name := by
  cases e with
  | received ip' cmd _ =>
    rw [step]
    rcases t.checkFlood_cases ip' cmd with ⟨_, heq, -⟩ | ⟨-, -, -, heq⟩ | ⟨-, heq⟩
    · rw [heq]
    · rw [heq]
    · rw [heq]
      dsimp only
      by_cases hip : ip = ip'
      · rw [hip, Function.update_self]
        exact Multiset.count_le_count_cons _ _ _
      · rw [Function.update_of_ne hip]
  | sent ip' cmd now => exact Nat.le_refl _
  | cleanFlood => exact absurd rfl h

/-- An accepted request is counted, within its limit. -/
theorem Accepts.count (h : Accepts ip name t e) (hsta : name ≠ CommandName.sta)
    (hresponse : ¬ name.IsResponse) :
    ((t.step e).receivedPackets ip).count name = (t.receivedPackets ip).count name + 1 ∧
      (t.receivedPackets ip).count name < name.maxAllowedPacketsPerMinute := by
  cases e with
  | received ip' cmd _ =>
    obtain ⟨rfl, rfl, htrue⟩ := h
    rw [step]
    rcases t.checkFlood_cases ip' cmd with ⟨_, heq, hresult⟩ | ⟨hres, -⟩ | ⟨-, heq⟩
    · rw [heq] at htrue
      exact absurd (hresult htrue) hsta
    · exact absurd hres hresponse
    · rw [heq] at htrue ⊢
      constructor
      · dsimp only
        rw [Function.update_self, Multiset.count_cons_self]
      · exact of_decide_eq_true htrue
  | sent ip' cmd now => exact h.elim
  | cleanFlood => exact h.elim

/-- Between two clean-ups no more requests are accepted than the limit leaves. -/
theorem accepted_le_sub (hsta : name ≠ CommandName.sta) (hresponse : ¬ name.IsResponse)
    (t : Packets) {es : List PacketEvent} (hclean : PacketEvent.cleanFlood ∉ es) :
    accepted ip name t es ≤
      name.maxAllowedPacketsPerMinute - (t.receivedPackets ip).count name := by
  induction es generalizing t with
  | nil => exact Nat.zero_le _
  | cons e es ih =>
    rw [List.mem_cons, not_or] at hclean
    have hrest := ih (t.step e) hclean.2
    have hle := count_le_step (t := t) (Ne.symm hclean.1) ip name
    rw [accepted]
    split
    · next haccepts =>
      have hcount := haccepts.count hsta hresponse
      omega
    · omega

end Packets

end Blacklink.Dht
