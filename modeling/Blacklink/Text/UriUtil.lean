import Blacklink.Text.Numbers
import Blacklink.Text.Split
import Blacklink.Text.ToLower

/-!
# URLs

Model of `Util::getDefaultPort`, `decodeUrl` and `formatUrl` (`client/UriUtil.cpp:101-324`).
`decodeUrl` looks for the parts of a URL by separate searches of it, each with what it may meet in
the other parts. Those of the query begin behind the last `?` before the fragment.
-/

namespace Blacklink.Text

/-- `ParsedUrl`. -/
structure ParsedUrl where
  protocol : List UInt8
  host : List UInt8
  user : List UInt8
  password : List UInt8
  port : UInt16
  path : List UInt8
  query : List UInt8
  fragment : List UInt8
  isSecure : Bool
  deriving DecidableEq

/-- What `getDefaultPort` returns and puts into `port` and `secure`. -/
def getDefaultPort (protocol : List UInt8) : Bool × UInt16 × Bool :=
  if protocol = ascii "dchub" ∨ protocol = ascii "nmdc" ∨ protocol = ascii "adc" then
    (true, 411, false)
  else if protocol = ascii "nmdcs" then (true, 411, true)
  else if protocol = ascii "adcs" then (true, 412, true)
  else if protocol = ascii "http" then (true, 80, false)
  else if protocol = ascii "https" then (true, 443, true)
  else if protocol = ascii "ftp" then (true, 21, false)
  else (false, 0, false)

/-- `"/#?"`. -/
def stops : List UInt8 := [0x2f, 0x23, 0x3f]

/-- `queryEnd` and `fragmentStart`. -/
def fragmentBounds (url : List UInt8) : Nat × Nat :=
  match rfind [0x23] url with
  | none => (url.length, url.length)
  | some i => (i, i + 1)

/-- `fileEnd` and `queryStart`; `rfind` does not look behind `queryEnd`. -/
def queryBounds (url : List UInt8) (queryEnd : Nat) : Nat × Nat :=
  match rfind [0x3f] (url.take (queryEnd + 1)) with
  | none => (queryEnd, queryEnd)
  | some i => (i, i + 1)

/-- `res.protocol` and `authorityStart`. -/
def decodeProtocol (towlower : Nat → Nat) (url defProto : List UInt8) : List UInt8 × Nat :=
  match findText (ascii "://") url with
  | none => (defProto, 0)
  | some protoEnd =>
    let protocol := toLower towlower (url.take protoEnd)
    (if protocol = [] then defProto else protocol, protoEnd + 3)

/-- `userStart` and `userEnd`, where there is a user, and `authorityStart` behind them. -/
def userBounds (url : List UInt8) (authorityStart : Nat) : Option (Nat × Nat) × Nat :=
  match find url 0x40 authorityStart with
  | none => (none, authorityStart)
  | some userEnd =>
    match findFirstOf url stops authorityStart with
    | none => (some (authorityStart, userEnd), userEnd + 1)
    | some pos =>
      if userEnd < pos then (some (authorityStart, userEnd), userEnd + 1)
      else (none, authorityStart)

/-- The host and `portStart`; `none` where `decodeUrl` returns. -/
def hostBounds (towlower : Nat → Nat) (url : List UInt8) (authorityStart authorityEnd : Nat) :
    Option (List UInt8 × Option Nat) :=
  if url.getD authorityStart 0 = 0x5b then
    match find url 0x5d 0 with
    | none => none
    | some hostEnd =>
      some (substr url (authorityStart + 1) hostEnd,
        if hostEnd + 1 < url.length ∧ url.getD (hostEnd + 1) 0 = 0x3a then some (hostEnd + 2)
        else none)
  else
    let upTo (hostEnd : Nat) : List UInt8 := toLower towlower (substr url authorityStart hostEnd)
    match find url 0x3a authorityStart with
    | none => some (upTo authorityEnd, none)
    | some portStart =>
      if authorityEnd < portStart then some (upTo authorityEnd, none)
      else some (upTo portStart, some (portStart + 1))

/-- The block for the host and the port; `none` where `decodeUrl` returns. -/
def decodeHost (towlower : Nat → Nat) (url : List UInt8) (authorityStart authorityEnd : Nat)
    (res : ParsedUrl) : Option ParsedUrl :=
  if authorityStart < authorityEnd then
    match hostBounds towlower url authorityStart authorityEnd with
    | none => none
    | some (host, portStart) =>
      let (_, defPort, isSecure) := getDefaultPort res.protocol
      let port :=
        match portStart with
        | some i => UInt16.ofInt (toInt (substr url i authorityEnd))
        | none => defPort
      some { res with host := host, isSecure := isSecure, port := port }
  else some res

/-- The block for the user and the password. -/
def decodeUser (url : List UInt8) (res : ParsedUrl) : Option (Nat × Nat) → ParsedUrl
  | none => res
  | some (userStart, userEnd) =>
    match find url 0x3a userStart with
    | none => { res with user := substr url userStart userEnd }
    | some pos =>
      if pos < userEnd then
        { res with user := substr url userStart pos, password := substr url (pos + 1) userEnd }
      else { res with user := substr url userStart userEnd }

/-- `isAscii`. -/
def isAscii (s : List UInt8) : Bool := s.all fun c => c &&& 0x80 = 0

/-- The end of `decodeUrl`. -/
def convertHost (toAce : List UInt8 → Option (List UInt8)) (res : ParsedUrl) : ParsedUrl :=
  if isAscii res.host then res
  else
    match toAce res.host with
    | none => res
    | some converted => { res with host := converted }

/-- `decodeUrl`; `toAce` is the conversion of a host name that is not ASCII, where it succeeds. -/
def decodeUrl (towlower : Nat → Nat) (toAce : List UInt8 → Option (List UInt8))
    (url : List UInt8) (res : ParsedUrl) (defProto : List UInt8) : ParsedUrl :=
  let (queryEnd, fragmentStart) := fragmentBounds url
  let (fileEnd, queryStart) := queryBounds url queryEnd
  let (protocol, afterProto) := decodeProtocol towlower url defProto
  let (user, authorityStart) := userBounds url afterProto
  let fileStart := (findFirstOf url stops authorityStart).getD fileEnd
  let res := { res with protocol, isSecure := false, port := 0, user := [], password := [] }
  match decodeHost towlower url authorityStart fileStart res with
  | none => res
  | some res =>
    convertHost toAce { decodeUser url res user with
      path := substr url fileStart fileEnd
      query := substr url queryStart queryEnd
      fragment := substr url fragmentStart url.length }

/-- What `formatUrl` puts before the host. -/
def formatUser (p : ParsedUrl) : List UInt8 :=
  if p.user = [] then []
  else p.user ++ ((if p.password = [] then [] else 0x3a :: p.password) ++ [0x40])

/-- What `formatUrl` puts for the host. -/
def formatHost (p : ParsedUrl) : List UInt8 :=
  if 0x3a ∈ p.host then 0x5b :: p.host ++ [0x5d] else p.host

/-- What `formatUrl` puts for the port. -/
def formatPort (p : ParsedUrl) (omitDefaultPort : Bool) : List UInt8 :=
  if p.port = 0 then []
  else if omitDefaultPort ∧ p.port = (getDefaultPort p.protocol).2.1 then []
  else 0x3a :: natToString p.port.toNat

/-- What `formatUrl` puts behind the authority. -/
def formatFile (p : ParsedUrl) : List UInt8 :=
  p.path ++ ((if p.query = [] then [] else 0x3f :: p.query) ++
    if p.fragment = [] then [] else 0x23 :: p.fragment)

/-- `formatUrl`. -/
def formatUrl (p : ParsedUrl) (omitDefaultPort : Bool) : List UInt8 :=
  if p.protocol = [] ∨ p.host = [] then []
  else
    p.protocol ++ (ascii "://" ++ (formatUser p ++
      (formatHost p ++ formatPort p omitDefaultPort ++ formatFile p)))

end Blacklink.Text
