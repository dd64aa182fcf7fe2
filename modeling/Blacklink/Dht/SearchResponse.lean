import Blacklink.Dht.IndexXml

/-!
# Responses to file searches

Model of the response that `processSearchRequest` builds for a search of `TYPE_FILE`
(`client/dht/DHTSearchManager.cpp:232-344`), and of the sources that `processSearchResult` reads
from it (`client/dht/DHTSearchManager.cpp:380-397`), as trees of XML; with `Utils::isGoodIPPort`
(`client/dht/Utils.cpp:58-67`). The addresses of indexed sources are written as numbers and read
with dots.
-/

namespace Blacklink.Dht

open Blacklink.Text Blacklink.Xml
open Blacklink.Share (getAttrib findChildren)

/-- `Utils::isGoodIPPort`. -/
def isGoodIPPort (ip : UInt32) (port : UInt16) : Bool :=
  if ip = 0 ∨ ip = 0xffffffff ∨ port < 1024 then false else isPublicIp ip

/-- `Util::toString` of a signed number. -/
def intToString (n : Int) : List UInt8 :=
  if n < 0 then '-'.toUInt8 :: natToString n.natAbs else natToString n.natAbs

/-- The text of a flag in an attribute. -/
def flagText (b : Bool) : List UInt8 := if b then ascii "1" else ascii "0"

/-- What `processSearchRequest` finds: the size of the file in the own share, the sources of the
index, and the closest nodes; with the own CID, address and port. -/
structure FileSearch where
  myCID : CID
  lastExternalIP : UInt32
  port : UInt16
  shared : Option Int
  sources : Option (List Source)
  nodes : List SourceNode

/-- The tag for the own share. -/
def FileSearch.ownTags (r : FileSearch) : List Tag :=
  match r.shared with
  | none => []
  | some size =>
    [.mk (ascii "Source")
      [(ascii "CID", r.myCID.toBase32), (ascii "I4", printIpAddress r.lastExternalIP),
        (ascii "U4", natToString r.port.toNat), (ascii "SI", intToString size),
        (ascii "PF", flagText false)] [] []]

/-- The tag for an indexed source. -/
def sourceTag (source : Source) : Tag :=
  .mk (ascii "Source")
    [(ascii "CID", source.cid.toBase32), (ascii "I4", natToString source.ip.toNat),
      (ascii "U4", natToString source.udpPort.toNat), (ascii "SI", natToString source.size.toNat),
      (ascii "PF", flagText source.isPartial)] [] []

/-- The tag for a node. -/
def nodeTag (node : SourceNode) : Tag :=
  .mk (ascii "Node")
    [(ascii "CID", node.cid.toBase32), (ascii "I4", printIpAddress node.ip4),
      (ascii "U4", natToString node.udp4Port.toNat)] [] []

namespace FileSearch

/-- The indexed sources there is room for. -/
def indexed (r : FileSearch) : List Source :=
  (r.sources.getD []).take (if r.shared.isSome then maxSearchResults - 1 else maxSearchResults)

/-- The tags of the response; without any no response is sent. -/
def response (r : FileSearch) : List Tag :=
  let tags := r.ownTags ++ r.indexed.map sourceTag
  if tags = [] then r.nodes.map nodeTag else tags

end FileSearch

/-- A source that is found. -/
structure FoundSource where
  cid : CID
  ip : UInt32
  udpPort : UInt16
  size : Int
  isPartial : Bool
  deriving DecidableEq

/-- The source that `processSearchResult` reads from a tag, if it does not pass over it. -/
def readFoundSource (myCID : CID) (t : Tag) : Option FoundSource :=
  let cid := CID.ofBase32 (getAttrib t.attribs (ascii "CID"))
  let u4 := UInt16.ofInt (toInt (getAttrib t.attribs (ascii "U4")))
  let size := toInt64 (getAttrib t.attribs (ascii "SI"))
  let isPartial : Bool := (getAttrib t.attribs (ascii "PF")).head? = some '1'.toUInt8
  match parseIpAddress (getAttrib t.attribs (ascii "I4")) with
  | none => none
  | some address =>
    if cid = .replicate 24 0 ∨ myCID = cid ∨ isGoodIPPort address u4 = false then none
    else some ⟨cid, address, u4, size, isPartial⟩

/-- The sources that `processSearchResult` reads from a response. -/
def foundSources (myCID : CID) (tags : List Tag) : List FoundSource :=
  (findChildren (ascii "Source") tags).filterMap (readFoundSource myCID)

/-- An indexed source as it is to be found. -/
def Source.toFound (source : Source) : FoundSource :=
  ⟨source.cid, source.ip, source.udpPort, source.size.toNat, source.isPartial⟩

/-- The requester finds the responder, if it shares the file, and the indexed sources other than
itself. -/
def FileSearch.Found (r : FileSearch) (requester : CID) : Prop :=
  foundSources requester r.response =
    foundSources requester r.ownTags ++
      (r.indexed.filter fun source => source.cid ≠ requester).map Source.toFound

private theorem foundSources_append (requester : CID) (tags tags' : List Tag) :
    foundSources requester (tags ++ tags') =
      foundSources requester tags ++ foundSources requester tags' := by
  rw [foundSources, findChildren, List.filter_append, List.filterMap_append]
  rfl

/-- No indexed source is read back. -/
theorem foundSources_indexed (requester : CID) (sources : List Source) :
    foundSources requester (sources.map sourceTag) = [] := by
  apply List.filterMap_eq_nil_iff.mpr
  intro t ht
  obtain ⟨source, -, rfl⟩ := List.mem_map.mp (List.mem_of_mem_filter ht)
  have hattrib : getAttrib (sourceTag source).attribs (ascii "I4") =
      natToString source.ip.toNat := rfl
  unfold readFoundSource
  rw [hattrib, parseIpAddress_natToString]

private theorem foundSources_nodes (requester : CID) (nodes : List SourceNode) :
    foundSources requester (nodes.map nodeTag) = [] := by
  have hnone : findChildren (ascii "Source") (nodes.map nodeTag) = [] := by
    apply List.filter_eq_nil_iff.mpr
    intro t ht
    obtain ⟨node, -, rfl⟩ := List.mem_map.mp ht
    have hname : (nodeTag node).name = ascii "Node" := rfl
    rw [hname]
    decide
  rw [foundSources, hnone]
  rfl

/-- Only the responder itself is found. -/
theorem foundSources_response (r : FileSearch) (requester : CID) :
    foundSources requester r.response = foundSources requester r.ownTags := by
  unfold FileSearch.response
  dsimp only
  split
  · next hnil => rw [foundSources_nodes, (List.append_eq_nil_iff.mp hnil).1]; rfl
  · rw [foundSources_append, foundSources_indexed, List.append_nil]

/-- The requester finds the sources of the index if and only if there are none but itself. -/
theorem FileSearch.found_iff (r : FileSearch) (requester : CID) :
    r.Found requester ↔ ∀ source ∈ r.indexed, source.cid = requester := by
  unfold Found
  rw [foundSources_response, List.self_eq_append_right, List.map_eq_nil_iff, List.filter_eq_nil_iff]
  apply forall₂_congr
  intro source _
  rw [decide_eq_true_eq, not_not]

/-- The index has one source for the file. -/
def oneIndexed : FileSearch :=
  { myCID := .replicate 24 1, lastExternalIP := 0x08080808, port := 6250, shared := none
    sources := some [⟨.replicate 24 2, 0x08080404, 18000000, 2000000, 6250, false⟩], nodes := [] }

/-- The requester does not find it. -/
theorem not_found_oneIndexed : ¬ oneIndexed.Found (.replicate 24 3) := by
  intro h
  have hresponse := (foundSources_response oneIndexed (.replicate 24 3)).symm.trans h
  have hlength := congrArg List.length hresponse
  revert hlength
  decide

end Blacklink.Dht
