import Blacklink.Hub.AdcUsers
import Blacklink.Hub.NmdcUsers

/-!
# The tables of a hub over whole sessions

What has been shared stays in the identity of our own user, and of the hub, when its entry is taken
away. While no message puts such an identity back, the total is right and the table is in order.
-/

namespace Blacklink.Hub

open Blacklink.Adc Blacklink.Base Blacklink.Share Blacklink.Text

/-- Over every sequence of messages, failures and connections in which no identity comes back with
what it had, and the hub's comes only under the hub's SID. -/
theorem tables_run (myCID : CID) :
    (∀ es : List AdcEvent, Within AdcHub.AddsBlank AdcHub.step (Client.new myCID) es →
      AdcHub.Consistent (run AdcHub.step (Client.new myCID) es)) ∧
    ∀ (makeCid : List UInt8 → CID) (es : List NmdcEvent),
      Within NmdcHub.AddsBlank (NmdcHub.step makeCid) (NmdcHub.new myCID) es →
      (run (NmdcHub.step makeCid) (NmdcHub.new myCID) es).client.SumsShared :=
  ⟨fun _ hes => AdcHub.consistent_of_within hes, fun _ _ hes => NmdcHub.sumsShared_of_within hes⟩

/-- An `INF` of the user `sid`. -/
def infOf (sid : UInt32) (params : List (List UInt8)) : AdcEvent :=
  .message ⟨.broadcast, (0x49, 0x4e, 0x46), sid, 0, [], params⟩

/-- A `QUI` of the user with a SID. -/
def quiOf (sid : List UInt8) : AdcEvent :=
  .message ⟨.info, (0x51, 0x55, 0x49), AdcCommand.hubSID, 0, [], [sid]⟩

/-- The text of our own ID. -/
def myIdText : List UInt8 := ascii "FRGGZDFMZTWQ2LKNNWG23TPOBYXE43UOV3HO6D"

/-- A session whose last `INF` is to come: our own user has come with five bytes and is gone. -/
def adcSession : List AdcEvent :=
  [.connect, infOf 1 [ascii "ID" ++ myIdText, ascii "SS5"],
    quiOf (AdcCommand.fromSID 1)]

/-- The same on an NMDC hub, with the nick `me`. -/
def nmdcSession : List NmdcEvent :=
  [.connect (ascii "me"), .message (.myINFO (ascii "$ALL me $ $A$$5$")),
    .message (.quit (ascii "me"))]

set_option maxRecDepth 20000 in
theorem tables_run_session :
    AdcHub.Consistent (run AdcHub.step (Client.new (.fromBase32 myIdText)) adcSession) ∧
      (run (NmdcHub.step id) (NmdcHub.new (.fromBase32 myIdText)) nmdcSession).client.SumsShared :=
  ⟨(tables_run (.fromBase32 myIdText)).1 adcSession (by decide),
    (tables_run (.fromBase32 myIdText)).2 id nmdcSession (by decide)⟩

set_option maxRecDepth 20000 in
/-- Our user comes back with its five bytes, which the total does not have; and the hub is found
under a foreign SID and once more under its own. -/
theorem not_tables_run :
    ¬ AdcHub.Consistent (run AdcHub.step (Client.new (.fromBase32 myIdText))
      (adcSession ++ [infOf 1 [ascii "ID" ++ myIdText]])) ∧
    ¬ AdcHub.Consistent (run AdcHub.step (Client.new (.fromBase32 myIdText))
      [.connect, infOf 7 [ascii "ID"], infOf AdcCommand.hubSID [ascii "NIhub"]]) ∧
    ¬ (run (NmdcHub.step id) (NmdcHub.new (.fromBase32 myIdText))
      (nmdcSession ++ [.message (.hello (ascii "me"))])).client.SumsShared := by
  refine ⟨fun h => absurd h.sums (by decide), fun h => absurd h.objects (by decide), by decide⟩

end Blacklink.Hub
