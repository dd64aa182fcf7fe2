import Mathlib
import Blacklink.AntiFlood.RequestCounter

/-!
# Bans of addresses

Model of `IpBans` and `HubRequestCounters` (`client/AntiFlood.cpp:11-77, 110-149`,
`client/AntiFlood.h:8-56`, `client/IpKey.h:44-94`). All hubs share one table of bans; every hub has
request counters of its own, and a mark on the addresses that it has banned. The mark stays when
the ban is removed from the table, and an address without a ban that has the mark is not banned
again.
-/

namespace Blacklink.AntiFlood

open Blacklink.Base

/-- `IpAddress`. -/
inductive IpAddress where
  | v4 (ip : UInt32)
  | v6 (data : Vector UInt8 16)
  deriving DecidableEq

/-- `IpPortKey`, with the bytes of the union. -/
structure IpPortKey where
  b : List UInt8
  port : UInt16
  deriving DecidableEq

/-- `IpPortKey::setIP`. -/
def IpPortKey.setIP (ip : IpAddress) (port : UInt16) : IpPortKey :=
  match ip with
  | .v4 ip =>
    ⟨List.replicate 10 (0 : UInt8) ++
      [(0xff : UInt8), 0xff, (ip >>> 24).toUInt8, (ip >>> 16).toUInt8,
      (ip >>> 8).toUInt8, ip.toUInt8], port⟩
  | .v6 data => ⟨data.toList, port⟩

/-- The settings `ANTIFLOOD_MIN_REQ_COUNT`, `ANTIFLOOD_MAX_REQ_PER_MIN`, `ANTIFLOOD_BAN_TIME`. -/
structure AntiFloodSettings where
  minReqCount : Int
  maxReqPerMin : Int
  banTime : Int

namespace AntiFloodSettings

/-- `maxReqPerMinute`, an `unsigned`. -/
def maxReqPerMinute (settings : AntiFloodSettings) : Nat := (settings.maxReqPerMin % 2 ^ 32).toNat

/-- `banDuration`, an `unsigned`. -/
def banDuration (settings : AntiFloodSettings) : Int := settings.banTime * 1000 % 2 ^ 32

end AntiFloodSettings

/-- `IpBans::BanInfo`. -/
structure BanInfo where
  unbanTime : Int
  reqCount : Int
  hubUrls : List String
  dontBan : Bool

/-- The results of `checkBan`. -/
inductive BanState where
  | noBan
  | banActive
  | banExpired
  | dontBan
  deriving DecidableEq

/-- `IpBans::data`. -/
def IpBans : Type := IpPortKey → Option BanInfo

namespace IpBans

/-- `IpBans::checkBan`. -/
def checkBan (bans : IpBans) (key : IpPortKey) (timestamp : Int) : BanState :=
  match bans key with
  | none => .noBan
  | some info =>
    if info.dontBan then .dontBan
    else if info.unbanTime < timestamp then .banExpired else .banActive

/-- `IpBans::addBan`. -/
def addBan (settings : AntiFloodSettings) (bans : IpBans) (key : IpPortKey) (timestamp : Int)
    (url : String) (reqCount : Int) : IpBans :=
  let hubUrls := ((bans key).map BanInfo.hubUrls).getD []
  Function.update bans key (some {
    dontBan := false
    unbanTime := timestamp + settings.banDuration
    reqCount := reqCount
    hubUrls := if url ∈ hubUrls then hubUrls else hubUrls ++ [url] })

/-- `IpBans::removeBan`. -/
def removeBan (bans : IpBans) (key : IpPortKey) : IpBans :=
  Function.update bans key ((bans key).filter (·.dontBan))

/-- `IpBans::protect`. -/
def protect (bans : IpBans) (key : IpPortKey) (enable : Bool) : IpBans :=
  Function.update bans key
    (if enable then some ⟨0, 0, [], true⟩ else (bans key).filter (!·.dontBan))

/-- `IpBans::removeExpired`. -/
def removeExpired (bans : IpBans) (timestamp : Int) : IpBans := fun key =>
  (bans key).filter fun info => info.dontBan || decide (timestamp ≤ info.unbanTime)

end IpBans

/-- `HubRequestCounters::IpItem`. -/
structure IpItem where
  rq : RequestCounter 120
  banned : Bool

/-- `HubRequestCounters::data`; a new address has a cleared counter and no mark. -/
def HubRequestCounters : Type := IpPortKey → IpItem

/-- Counters without requests. -/
def HubRequestCounters.empty : HubRequestCounters := fun _ => ⟨.clear 120, false⟩

/-- The result of `addRequest`, its `showMsg`, the table and the item. -/
structure AddResult where
  result : Bool
  showMsg : Bool
  bans : IpBans
  item : IpItem

/-- `flood`: there are enough requests, and too many in a minute. -/
def RequestCounter.isFlood (settings : AntiFloodSettings) (rq : RequestCounter 120) : Bool :=
  rq.getReqCount ≥ settings.minReqCount ∧ rq.getAvgPerMinute > settings.maxReqPerMinute

/-- `HubRequestCounters::addRequest`, for the item of the address. -/
def IpItem.addRequest (settings : AntiFloodSettings) (bans : IpBans) (item : IpItem)
    (key : IpPortKey) (timestamp : Int) (url : String) : AddResult :=
  let res := bans.checkBan key timestamp
  let item := { item with rq := item.rq.add timestamp }
  let reqCount := item.rq.getReqCount
  let flood := item.rq.isFlood settings
  let a : BanState × AddResult :=
    if flood && !item.banned && res != .dontBan then
      (.banActive, ⟨false, true, bans.addBan settings key timestamp url reqCount,
        { item with banned := true }⟩)
    else (res, ⟨true, false, bans, item⟩)
  let b : BanState × AddResult :=
    if a.1 = .banExpired then
      if flood then
        (.banActive, { a.2 with
          showMsg := if a.2.item.banned then a.2.showMsg else true
          item := { a.2.item with banned := true }
          bans := a.2.bans.addBan settings key timestamp url reqCount })
      else (a.1, { a.2 with bans := a.2.bans.removeBan key })
    else a
  { b.2 with result := b.1 != .banActive }

/-- The table that the hubs share, and the counters of every hub. -/
structure FloodState (Hub : Type) where
  bans : IpBans
  counters : Hub → HubRequestCounters

/-- The calls. -/
inductive FloodEvent (Hub : Type) where
  | addRequest (hub : Hub) (ip : IpAddress) (port : UInt16) (timestamp : Int) (url : String)
  | protect (ip : IpAddress) (port : UInt16) (enable : Bool)
  | removeBan (ip : IpAddress) (port : UInt16)
  | removeExpired (timestamp : Int)

namespace FloodState

variable {Hub : Type} [DecidableEq Hub]

/-- Neither bans nor requests. -/
def init (Hub : Type) : FloodState Hub := ⟨fun _ => none, fun _ => .empty⟩

/-- `HubRequestCounters::addRequest` of a hub, for the key of an address. -/
def addRequest (settings : AntiFloodSettings) (s : FloodState Hub) (hub : Hub) (key : IpPortKey)
    (timestamp : Int) (url : String) : Bool × FloodState Hub :=
  let r := (s.counters hub key).addRequest settings s.bans key timestamp url
  (r.result, {
    bans := r.bans
    counters := Function.update s.counters hub (Function.update (s.counters hub) key r.item) })

/-- One call. -/
def step (settings : AntiFloodSettings) (s : FloodState Hub) : FloodEvent Hub → FloodState Hub
  | .addRequest hub ip port timestamp url =>
    (s.addRequest settings hub (.setIP ip port) timestamp url).2
  | .protect ip port enable => { s with bans := s.bans.protect (.setIP ip port) enable }
  | .removeBan ip port => { s with bans := s.bans.removeBan (.setIP ip port) }
  | .removeExpired timestamp => { s with bans := s.bans.removeExpired timestamp }

end FloodState

end Blacklink.AntiFlood
