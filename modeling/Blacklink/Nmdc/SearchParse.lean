import Blacklink.AntiFlood.IpBans
import Blacklink.Share.SearchParams
import Blacklink.Text.Ip4Address
import Blacklink.Text.Split

/-!
# Search commands of an NMDC hub

Model of how a hub's search command becomes the parameters of a search (`client/NmdcHub.cpp:528-712,
1581-1601`), with the addresses of seekers (`client/UriUtil.cpp:326-362`,
`client/Ip6Address.cpp:31-44`, `client/IpAddress.cpp:57-76`). A command that is left out gives none.
-/

namespace Blacklink.Nmdc

open Blacklink.Text Blacklink.Share Blacklink.AntiFlood

/-! ### Addresses -/

/-- `toUInt32`. -/
def toUInt32 (s : List UInt8) : Nat :=
  match s.dropWhile isWhiteSpace with
  | 0x2b :: s => digitsValue s % 2 ^ 32
  | s => digitsValue s % 2 ^ 32

/-- An address in brackets loses these. -/
def stripBrackets (ip : List UInt8) : List UInt8 :=
  if 2 < ip.length ∧ ip.head? = some '['.toUInt8 ∧ ip.getLast? = some ']'.toUInt8 then
    (ip.drop 1).dropLast
  else ip

/-- `parseIpPort`; without a port this is zero. -/
def parseIpPort (ipPort : List UInt8) : Option (List UInt8 × UInt16) :=
  let parsed :=
    match splitLast ':'.toUInt8 ipPort with
    | none => some (ipPort, 0)
    | some (ip, port) =>
      if ipPort.head? = some '['.toUInt8 ∧ ']'.toUInt8 ∈ port then some (ipPort, 0)
      else if port.length ≤ 5 ∧ port ≠ [] ∧ toUInt32 port ≠ 0 ∧ toUInt32 port < 0x10000 then
        some (ip, (toUInt32 port).toUInt16)
      else none
  match parsed with
  | none => none
  | some (ip, port) => if stripBrackets ip = [] then none else some (stripBrackets ip, port)

/-- `inet_pton` and `inet_ntop` for IPv6 addresses. -/
structure Inet where
  pton : List UInt8 → Option (Vector UInt8 16)
  ntop : Vector UInt8 16 → List UInt8

/-- `parseIpAddress`. -/
def Inet.parseIpAddress (inet : Inet) (s : List UInt8) : Option IpAddress :=
  if s = [] then none
  else if ':'.toUInt8 ∈ s then
    (inet.pton ((stripBrackets s).takeWhile (· ≠ '%'.toUInt8))).map .v6
  else (Text.parseIpAddress s).map .v4

/-! ### The hub -/

/-- What is asked of a `FavoriteUser`. -/
structure FavoriteUser where
  hideShare : Bool
  shareGroup : CID

/-- The `OPT_INCOMING_SEARCH_` options. -/
structure SearchOptions where
  tthOnly : Bool
  ignoreBots : Bool
  ignorePassive : Bool

/-- What `searchParse` asks for. `udpAddr` is what `getMyUDPAddr` gives, `favoriteUser` finds the
favorite user that a nick has at the hub, `findUser` tells of a user of the hub whether it has
`NAT0`, and `checkSearchFlood` whether a search from the address is let through. -/
structure NmdcHub where
  inet : Inet
  normal : Bool
  hideShare : Bool
  shareGroup : CID
  myNick : List UInt8
  active : Bool
  udpAddr : List UInt8 × UInt16
  favoriteUser : List UInt8 → Option FavoriteUser
  findUser : List UInt8 → Option Bool
  allowNatTraversal : Bool
  options : SearchOptions
  ip : IpAddress
  checkSearchFlood : IpAddress → UInt16 → Bool

/-- `ST_SEARCH`, `ST_SA` and `ST_SP`. -/
inductive SearchType where
  | search
  | sa
  | sp
  deriving DecidableEq

/-- `NmdcSearchParam`; `passive` is its mode. -/
structure SearchParam where
  passive : Bool
  sizeMode : SizeMode
  size : Int
  maxResults : Nat
  fileType : Int
  filter : List UInt8
  cacheKey : List UInt8
  seeker : List UInt8
  shareGroup : CID
  deriving DecidableEq

/-- `NmdcSearchParam()` with its seeker. -/
def SearchParam.new (passive : Bool) (seeker : List UInt8) (shareGroup : CID) : SearchParam :=
  ⟨passive, .dontCare, 0, 0, 0, [], [], seeker, shareGroup⟩

namespace NmdcHub

variable (hub : NmdcHub)

/-- `getShareGroup` with the value the group has when there is none: nothing when the share is to
be hidden. -/
def getShareGroup (seeker : List UInt8) : Option CID :=
  match hub.favoriteUser seeker with
  | none => some hub.shareGroup
  | some favUser =>
    if favUser.hideShare then none
    else if favUser.shareGroup ≠ .zero then some favUser.shareGroup
    else some hub.shareGroup

/-- The seeker of a `$Search`, when the search is not an own one, and the group. -/
def parseSeeker (seeker : List UInt8) : Option SearchParam :=
  if (ascii "Hub:").isPrefixOf seeker then
    if (seeker.drop 4).take hub.myNick.length = hub.myNick then none
    else (hub.getShareGroup (seeker.drop 4)).map (.new true seeker)
  else if hub.active then
    if hub.udpAddr.2 = 0 then none
    else if seeker = hub.udpAddr.1 ++ ':'.toUInt8 :: natToString hub.udpAddr.2.toNat then none
    else some (.new false seeker .zero)
  else some (.new false seeker .zero)

end NmdcHub

/-- The fields of a query and the words behind them. -/
structure Query where
  sizeMode : SizeMode
  size : Int
  fileType : Int
  words : List UInt8

/-- The fields of the query of a `$Search`. -/
def parseQueryFields (query : List UInt8) : Option Query :=
  if query.length < 4 ∨ query[1]? ≠ some '?'.toUInt8 ∨ query[3]? ≠ some '?'.toUInt8 then none
  else
    let sizeMode : SizeMode :=
      if query[0]? = some 'F'.toUInt8 then .dontCare
      else if query[2]? = some 'F'.toUInt8 then .atLeast
      else .atMost
    match splitFirst '?'.toUInt8 (query.drop 4) with
    | none | some ([], _) => none
    | some (sizeText, rest) =>
      let size := if sizeText = ascii "0" then 0 else toInt64 (query.drop 4)
      match splitFirst '?'.toUInt8 rest with
      | none | some ([], _) => none
      | some (_, words) => some ⟨sizeMode, size, toInt rest - 1, words⟩

/-- The parameters with the query; only that of a text is kept in the cache. -/
def SearchParam.withQuery (p : SearchParam) (query : List UInt8) (q : Query) : SearchParam :=
  if q.fileType = fileTypeTTH then
    { p with
      sizeMode := q.sizeMode, size := q.size, fileType := q.fileType
      filter := if q.words.length = 39 + 4 then q.words else [] }
  else
    { p with
      sizeMode := q.sizeMode, size := q.size, fileType := q.fileType
      filter := unescapeNmdc q.words
      cacheKey := query ++
        if p.shareGroup = .zero then [] else '|'.toUInt8 :: toBase32 p.shareGroup }

/-- What a `$Search` with the query asks for. -/
def SearchParam.parseQuery (p : SearchParam) (query : List UInt8) : Option SearchParam :=
  ((parseQueryFields query).map (p.withQuery query)).filter fun p => p.filter ≠ []

/-- `isBase32`. -/
def isBase32 (s : List UInt8) : Bool :=
  s.all fun c => 'A'.toUInt8 ≤ c && c ≤ 'Z'.toUInt8 || '2'.toUInt8 ≤ c && c ≤ '7'.toUInt8

namespace NmdcHub

variable (hub : NmdcHub)

/-- What a command says, when it is not an own search. -/
def parseCommand (type : SearchType) (param : List UInt8) : Option SearchParam :=
  if type = .search then
    match splitFirst ' '.toUInt8 param with
    | none => none
    | some (seeker, query) =>
      if seeker = [] then none
      else (hub.parseSeeker seeker).bind fun p => p.parseQuery query
  else if param.length < 41 ∨ param[39]? ≠ some ' '.toUInt8 then none
  else if !isBase32 (param.take 39) then none
  else
    let seeker := param.drop 40
    let found (p : SearchParam) :=
      { p with filter := ascii "TTH:" ++ param.take 39, fileType := fileTypeTTH }
    if type = .sp then
      if seeker.take hub.myNick.length = hub.myNick then none
      else some (found (.new true (ascii "Hub:" ++ seeker) .zero))
    else some (found (.new false seeker .zero))

/-- The search is one to be answered. -/
def admits (p : SearchParam) : Bool :=
  if p.fileType ≠ fileTypeTTH ∧ hub.options.tthOnly then false
  else if p.passive then
    if hub.options.ignorePassive then false
    else
      match hub.findUser (p.seeker.drop 4) with
      | none => false
      | some nat0 => hub.active || nat0 && hub.allowNatTraversal
  else
    match parseIpPort p.seeker with
    | none => false
    | some (host, port) =>
      if port = 0 then false
      else
        match hub.inet.parseIpAddress host with
        | none => false
        | some ip =>
          if hub.options.ignoreBots ∧ ip = hub.ip then false else hub.checkSearchFlood ip port

/-- The parameters that `searchParse` calls `handleSearch` with. -/
def searchParse (type : SearchType) (param : List UInt8) : Option SearchParam :=
  if param.length < 4 then none
  else if !hub.normal || hub.hideShare then none
  else
    match hub.parseCommand type param with
    | none => none
    | some p =>
      if hub.admits p then
        let maxResults := if p.passive then 5 else 10
        some
          { p with
            maxResults := maxResults
            cacheKey :=
              if p.cacheKey = [] then [] else natToString maxResults ++ '='.toUInt8 :: p.cacheKey }
      else none

end NmdcHub

end Blacklink.Nmdc
