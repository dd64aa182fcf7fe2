import Blacklink.Dht.IndexXml
import Blacklink.Nmdc.SearchToken

/-!
# Texts of search results

Model of how a search result is sent to the users of an NMDC and of an ADC hub
(`client/SearchResult.cpp:34-68`) and of what these read (`client/SearchManager.cpp:313-424,
557-604`), with the paths of files in the two protocols (`client/Util.cpp:525-558`). What is done
with the address of the sender is left out.
-/

namespace Blacklink.Searches

open Blacklink.Text Blacklink.Nmdc
open Blacklink.Share (SearchResultCore)
open Blacklink.Dht (TTHValue TTHValue.ofBase32)

/-- The hubs and users that a client knows. An unknown user is looked for at other hubs. -/
structure Contacts (User : Type) where
  findHub : List UInt8 → List UInt8
  findHubEncoding : List UInt8 → Encoding
  findUser : List UInt8 → List UInt8 → Option User
  findLegacyUser : List UInt8 → List UInt8 → Option (User × List UInt8)
  getHubs : User → List (List UInt8)
  getSlots : User → Option Nat

/-- `SLOTS_UNKNOWN`. -/
def slotsUnknown : Nat := 0xffff

/-- `SearchResult`. -/
structure SearchResult (User : Type) where
  user : User
  isDirectory : Bool
  slots : Nat
  freeSlots : Nat
  size : Int
  file : List UInt8
  hubURL : List UInt8
  tth : TTHValue
  token : Nat
  deriving DecidableEq

/-! ### NMDC -/

/-- `toSR`. -/
def toSR (r : SearchResultCore TTHValue) (enc : Encoding) (myNick ipPort : List UInt8)
    (freeSlots slots : Nat) : List UInt8 :=
  let acpFile := enc.fromUtf8 r.file
  ascii "$SR " ++ (enc.fromUtf8 myNick ++ 0x20 ::
    ((if r.isDirectory then acpFile.dropLast else acpFile ++ 0x05 :: intToString r.size) ++ 0x20 ::
      (natToString (if freeSlots = slotsUnknown then 0 else freeSlots) ++ 0x2f ::
        (natToString (if slots = slotsUnknown then 0 else slots) ++ 0x05 ::
          (ascii "TTH:" ++ toBase32 r.tth.toList ++ (ascii " (" ++ (ipPort ++ ascii ")|")))))))

/-- `isAscii`. -/
def isAscii (s : List UInt8) : Bool := s.all fun c => c < 0x80

/-- `isTTHBase32`. -/
def isTTHBase32 (s : List UInt8) : Bool :=
  s.length = 43 && s.take 4 = ascii "TTH:" && isBase32 (s.drop 4)

/-- The path and the size in a result, and where the slots begin. -/
structure FilePart where
  isDirectory : Bool
  file : List UInt8
  size : Int
  next : Nat

/-- The path begins at `i`, and the first `0x05` behind it is at `first05`. -/
def parseFilePart (x : List UInt8) (i first05 : Nat) : Option FilePart :=
  match find x 0x05 (first05 + 1) with
  | none =>
    match rfind [0x20] (x.take first05) with
    | none => none
    | some j => if j < i + 1 then none else some ⟨true, substr x i j ++ [0x5c], 0, j + 1⟩
  | some _ =>
    match find x 0x20 (first05 + 1) with
    | none => none
    | some j => some ⟨false, substr x i first05, toInt64 (substr x (first05 + 1) j), j + 1⟩

variable {User : Type}

/-- What is told of a result with the nick and the path as they were sent. -/
def nmdcResult (contacts : Contacts User) (nick hubIpPort hubNameOrTTH : List UInt8)
    (part : FilePart) (slots freeSlots : Int) : Option (SearchResult User) :=
  let url := contacts.findHub hubIpPort
  let decode (s : List UInt8) := if isAscii s then s else (contacts.findHubEncoding url).toUtf8 s
  let found :=
    match if url = [] then none else contacts.findUser (decode nick) url with
    | some user => some (user, url)
    | none => contacts.findLegacyUser (decode nick) url
  let tth := if isTTHBase32 hubNameOrTTH then hubNameOrTTH.drop 4 else []
  match found with
  | none => none
  | some (user, url) =>
    if tth = [] ∧ part.isDirectory = false then none
    else
      some ⟨user, part.isDirectory, slots.toNat, freeSlots.toNat, part.size, decode part.file, url,
        TTHValue.ofBase32 tth, 0⟩

/-- What `processNMDC` makes of what is behind the path and the size. -/
def processSlots (contacts : Contacts User) (x nick : List UInt8) (part : FilePart) :
    Option (Option (SearchResult User)) := do
  let j ← find x 0x2f part.next
  let freeSlots := toInt (substr x part.next j)
  let i := j + 1
  let j ← find x 0x05 i
  let slots := toInt (substr x i j)
  if slots < 0 then none
  else
    let i := j + 1
    let j ← rfind (ascii " (") x
    let hubNameOrTTH := substr x i j
    let i := j + 2
    let j ← rfind (ascii ")") x
    if freeSlots < 0 then some none
    else some (nmdcResult contacts nick (substr x i j) hubNameOrTTH part slots freeSlots)

/-- `processNMDC`: nothing when the text is no result, and else the result if it is told of. -/
def processNMDC (contacts : Contacts User) (x : List UInt8) :
    Option (Option (SearchResult User)) :=
  if !(ascii "$SR ").isPrefixOf x then none
  else do
    let j ← find x 0x20 4
    let first05 ← find x 0x05 j
    let part ← parseFilePart x (j + 1) first05
    processSlots contacts x (substr x 4 j) part

/-! ### ADC -/

/-- `toAdcFile`. -/
def toAdcFile (file : List UInt8) : List UInt8 :=
  if file = ascii "files.xml.bz2" ∨ file = ascii "files.xml" then file
  else (0x2f :: file).map fun c => if c = 0x5c then 0x2f else c

/-- `toNmdcFile`. -/
def toNmdcFile (file : List UInt8) : List UInt8 :=
  (file.drop 1).map fun c => if c = 0x2f then 0x5c else c

/-- The parameters that `toRES` adds. -/
def toRES (r : SearchResultCore TTHValue) (freeSlots : Nat) : List (List UInt8) :=
  [ascii "SI" ++ intToString r.size, ascii "SL" ++ natToString freeSlots,
    ascii "FN" ++ toAdcFile r.file, ascii "TR" ++ toBase32 r.tth.toList]

/-- What `onRES` has read. -/
structure RESFields where
  freeSlots : Nat
  size : Int
  file : List UInt8
  tth : List UInt8
  token : Nat

/-- The loop of `onRES` for one parameter. -/
def RESFields.add (st : RESFields) (str : List UInt8) : RESFields :=
  let value := str.drop 2
  if str.length ≤ 2 then st
  else if str.take 2 = ascii "FN" then { st with file := toNmdcFile (value.takeWhile (· ≠ 0)) }
  else if str.take 2 = ascii "SL" then { st with freeSlots := (toInt value % 2 ^ 16).toNat }
  else if str.take 2 = ascii "SI" then { st with size := toInt64 value }
  else if str.take 2 = ascii "TR" then { st with tth := value }
  else if str.take 2 = ascii "TO" then { st with token := toUInt32 value }
  else st

/-- What `onRES` makes of the parameters of a command from the user. -/
def onRES (contacts : Contacts User) (params : List (List UInt8)) (fromUser : User) :
    Option (SearchResult User) :=
  let st := params.foldl RESFields.add ⟨slotsUnknown, -1, [], [], 0⟩
  if st.file ≠ [] ∧ st.freeSlots ≠ slotsUnknown ∧ st.size ≠ -1 then
    let isDirectory := st.file.getLast? = some 0x5c
    if isDirectory = false ∧ st.tth = [] then none
    else
      some ⟨fromUser, isDirectory, (contacts.getSlots fromUser).getD slotsUnknown, st.freeSlots,
        st.size, st.file, (contacts.getHubs fromUser).headD [], TTHValue.ofBase32 st.tth, st.token⟩
  else none

end Blacklink.Searches
