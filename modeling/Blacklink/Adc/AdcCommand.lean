import Mathlib.Algebra.Group.Nat.Defs
import Mathlib.Data.List.Basic

/-!
# ADC commands

Model of `client/AdcCommand.h` and `client/AdcCommand.cpp:43-268`: a command, its text on the wire
and the parser. Characters are bytes. A `uint32_t` SID is the four characters in little-endian
order; the command name is the first three bytes of `cmdChar`, whose fourth byte is zero.
-/

namespace Blacklink.Adc

/-- The message types, `TYPE_BROADCAST` to `TYPE_UDP`. -/
inductive MessageType where
  | broadcast
  | client
  | direct
  | echo
  | feature
  | info
  | hub
  | udp
  deriving DecidableEq

namespace MessageType

/-- The character of the type. -/
def toChar : MessageType → UInt8
  | .broadcast => 'B'.toUInt8
  | .client => 'C'.toUInt8
  | .direct => 'D'.toUInt8
  | .echo => 'E'.toUInt8
  | .feature => 'F'.toUInt8
  | .info => 'I'.toUInt8
  | .hub => 'H'.toUInt8
  | .udp => 'U'.toUInt8

/-- The type of a character, if it is one. -/
def ofChar (c : UInt8) : Option MessageType :=
  [broadcast, client, direct, echo, feature, info, hub, udp].find? fun t => t.toChar = c

/-- The header has the sender's SID. -/
def hasFrom : MessageType → Bool
  | .broadcast | .direct | .echo | .feature => true
  | _ => false

/-- The header has the target's SID. -/
def hasTo : MessageType → Bool
  | .direct | .echo => true
  | _ => false

end MessageType

/-- `AdcCommand`. `sender` is `from`, `target` is `to`. -/
structure AdcCommand where
  type : MessageType
  cmdChar : UInt8 × UInt8 × UInt8
  sender : UInt32
  target : UInt32
  features : List UInt8
  parameters : List (List UInt8)
  deriving DecidableEq

/-- What `parse` returns other than `PARSE_OK`. An unknown escape is reported as
`PARSE_ERROR_ESCAPE_AT_EOL` too. -/
inductive ParseError where
  | tooShort
  | invalidType
  | escapeAtEol
  | invalidSidLength
  | invalidFeatureLength
  | missingFromSid
  | missingToSid
  | missingFeature
  deriving DecidableEq

namespace AdcCommand

/-- `AdcCommand(uint32_t cmd)` with the command zero, which is then parsed. -/
def empty : AdcCommand := ⟨.client, (0, 0, 0), 0, 0, [], []⟩

/-- `HUB_SID`. -/
def hubSID : UInt32 := 4294967295

/-- `toSID`. -/
def toSID : List UInt8 → UInt32
  | [a, b, c, d] =>
    .ofNat (a.toNat + 2 ^ 8 * b.toNat + 2 ^ 16 * c.toNat + 2 ^ 24 * d.toNat)
  | _ => 0

/-- `fromSID`. -/
def fromSID (sid : UInt32) : List UInt8 :=
  [.ofNat sid.toNat, .ofNat (sid.toNat / 2 ^ 8), .ofNat (sid.toNat / 2 ^ 16),
    .ofNat (sid.toNat / 2 ^ 24)]

/-- `getParam` with a position. -/
def paramAt (c : AdcCommand) (n : Nat) : List UInt8 := c.parameters.getD n []

/-- `getParam` with a name of two characters. -/
def getParam (c : AdcCommand) (name : List UInt8) (start : Nat) : Option (List UInt8) :=
  ((c.parameters.drop start).find? fun p => p.take 2 = name).map (·.drop 2)

/-! ### The text -/

/-- `escape`. The search goes on behind the two characters that stand for the one found. -/
def escape (old : Bool) : List UInt8 → List UInt8
  | [] => []
  | c :: s =>
    if c = ' '.toUInt8 ∨ c = '\n'.toUInt8 ∨ c = '\\'.toUInt8 then
      if old then '\\'.toUInt8 :: c :: escape old s
      else if c = ' '.toUInt8 then '\\'.toUInt8 :: 's'.toUInt8 :: escape old s
      else if c = '\n'.toUInt8 then '\\'.toUInt8 :: 'n'.toUInt8 :: escape old s
      else '\\'.toUInt8 :: '\\'.toUInt8 :: escape old s
    else c :: escape old s

/-- The C string in `cmdChar`. -/
def cmdString (c : AdcCommand) : List UInt8 :=
  [c.cmdChar.1, c.cmdChar.2.1, c.cmdChar.2.2].takeWhile (· ≠ 0)

/-- `getHeaderString` with a SID. -/
def getHeaderString (c : AdcCommand) (sid : UInt32) (nmdc : Bool) : List UInt8 :=
  (if nmdc then ['$'.toUInt8, 'A'.toUInt8, 'D'.toUInt8, 'C'.toUInt8] else [c.type.toChar]) ++
    c.cmdString ++
    (if c.type.hasFrom then ' '.toUInt8 :: fromSID sid else []) ++
    (if c.type.hasTo then ' '.toUInt8 :: fromSID c.target else []) ++
    (if c.type = .feature then ' '.toUInt8 :: c.features else [])

/-- The loop of `getParamString`. -/
def paramsText (nmdc : Bool) (ps : List (List UInt8)) : List UInt8 :=
  ps.flatMap fun p => ' '.toUInt8 :: escape nmdc p

/-- `getParamString`. -/
def getParamString (c : AdcCommand) (nmdc : Bool) : List UInt8 :=
  paramsText nmdc c.parameters ++ [if nmdc then '|'.toUInt8 else '\n'.toUInt8]

/-- `toString` with a SID. -/
def toString (c : AdcCommand) (sid : UInt32) (nmdc : Bool) : List UInt8 :=
  c.getHeaderString sid nmdc ++ c.getParamString nmdc

/-! ### The parser -/

/-- The variables of the loop of `parse`. -/
structure ParseState where
  cmd : AdcCommand
  cur : List UInt8
  fromSet : Bool
  toSet : Bool
  featureSet : Bool
  deriving DecidableEq

/-- A parameter is complete: the SIDs of the header, the features, then the parameters. `cur` is not
used after the one at the end of the text. -/
def takeParam (st : ParseState) : Except ParseError ParseState :=
  if st.cmd.type.hasFrom && !st.fromSet then
    if toSID st.cur = 0 then .error .invalidSidLength
    else .ok { st with cmd := { st.cmd with sender := toSID st.cur }, fromSet := true, cur := [] }
  else if st.cmd.type.hasTo && !st.toSet then
    if toSID st.cur = 0 then .error .invalidSidLength
    else .ok { st with cmd := { st.cmd with target := toSID st.cur }, toSet := true, cur := [] }
  else if st.cmd.type = .feature ∧ st.featureSet = false then
    if st.cur.length % 5 ≠ 0 then .error .invalidFeatureLength
    else .ok { st with featureSet := true, cur := [] }
  else
    .ok { st with cmd := { st.cmd with parameters := st.cmd.parameters ++ [st.cur] }, cur := [] }

/-- The character an escape stands for. -/
def unescape (nmdc : Bool) (c : UInt8) : Option UInt8 :=
  if c = 's'.toUInt8 then some ' '.toUInt8
  else if c = 'n'.toUInt8 then some '\n'.toUInt8
  else if c = '\\'.toUInt8 then some '\\'.toUInt8
  else if c = ' '.toUInt8 ∧ nmdc then some ' '.toUInt8
  else none

/-- The loop of `parse`; the list is what lies from `i` on. -/
def parseLoop (nmdc : Bool) : ParseState → List UInt8 → Except ParseError ParseState
  | st, [] => .ok st
  | st, c :: rest =>
    if c = '\\'.toUInt8 then
      match rest with
      | [] => .error .escapeAtEol
      | e :: rest =>
        match unescape nmdc e with
        | none => .error .escapeAtEol
        | some x => parseLoop nmdc { st with cur := st.cur ++ [x] } rest
    else if c = ' '.toUInt8 then
      match takeParam st with
      | .error e => .error e
      | .ok st => parseLoop nmdc st rest
    else parseLoop nmdc { st with cur := st.cur ++ [c] } rest

/-- `parse` behind the loop. -/
def parseEnd (st : ParseState) : Except ParseError AdcCommand := do
  let st ← if st.cur = [] then .ok st else takeParam st
  if st.cmd.type.hasFrom && !st.fromSet then .error .missingFromSid
  else if st.cmd.type = .feature ∧ st.featureSet = false then .error .missingFeature
  else if st.cmd.type.hasTo && !st.toSet then .error .missingToSid
  else .ok st.cmd

/-- `parse` into the command `c`. The character behind the command name is skipped. -/
def parse (c : AdcCommand) (buf : List UInt8) (nmdc : Bool) : Except ParseError AdcCommand :=
  let name := if nmdc then 4 else 1
  if buf.length < name + 3 then .error .tooShort
  else
    match if nmdc then some .client else MessageType.ofChar (buf.getD 0 0) with
    | none => .error .invalidType
    | some type => do
      let cmd : AdcCommand :=
        { c with
          type := type
          cmdChar := (buf.getD name 0, buf.getD (name + 1) 0, buf.getD (name + 2) 0)
          sender := if type = .info then hubSID else c.sender }
      let st ← parseLoop nmdc ⟨cmd, [], nmdc, false, false⟩ (buf.drop (name + 4))
      parseEnd st

end AdcCommand
end Blacklink.Adc
