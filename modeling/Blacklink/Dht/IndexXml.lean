import Blacklink.Dht.Index
import Blacklink.Share.ShareList
import Blacklink.Text.Ip4Address

/-!
# The saved index

Model of `IndexManager::saveIndexes` and `loadIndexes` (`client/dht/IndexManager.cpp:122-190`), as
trees of XML. The two disagree about the names of the tags and about the notation of addresses, so
that an index with full sources is never restored.
-/

namespace Blacklink.Dht

open Blacklink.Text Blacklink.Xml
open Blacklink.Share (getAttrib stepInto findChildren)

/-- `CID::toBase32`. -/
def CID.toBase32 (cid : CID) : List UInt8 := Text.toBase32 cid.toList

/-- `CID::fromBase32`. -/
def CID.ofBase32 (s : List UInt8) : CID :=
  ⟨(Share.CID.fromBase32 s).toArray, length_fromBase32 _ _⟩

/-- `TTHValue(const string&)`. -/
def TTHValue.ofBase32 (s : List UInt8) : TTHValue :=
  ⟨(fromBase32 s 24).toArray, length_fromBase32 _ _⟩

/-- The tag that `saveIndexes` adds for a source. -/
def savedSourceTag (source : Source) : Tag :=
  .mk (ascii "Source")
    [(ascii "CID", source.cid.toBase32), (ascii "I4", natToString source.ip.toNat),
      (ascii "U4", natToString source.udpPort.toNat), (ascii "SI", natToString source.size.toNat),
      (ascii "EX", natToString source.expires.toNat)] [] []

/-- The source that `loadIndexes` reads from a tag, if its address can be parsed. -/
def readSourceTag (t : Tag) : Option Source :=
  (parseIpAddress (getAttrib t.attribs (ascii "I4"))).map fun ip => {
    cid := .ofBase32 (getAttrib t.attribs (ascii "CID"))
    ip := ip
    udpPort := .ofInt (toInt (getAttrib t.attribs (ascii "U4")))
    size := .ofInt (toInt64 (getAttrib t.attribs (ascii "SI")))
    expires := .ofInt (toInt64 (getAttrib t.attribs (ascii "EX")))
    isPartial := false }

/-- The sources that are not partial. -/
def fullSources (sources : List Source) : List Source :=
  sources.filter fun source => !source.isPartial

namespace Index

/-- `saveIndexes`: the tag it adds. -/
def saveIndexes (s : Index) : Tag :=
  .mk (ascii "Files") [] []
    (s.tthList.entries.map fun i =>
      .mk (ascii "File") [(ascii "TTH", CID.toBase32 i.1)] []
        ((fullSources i.2).map savedSourceTag))

/-- `loadIndexes` for a tag of a file; what is known of the file is kept. -/
def loadIndexTag (s : Index) (t : Tag) : Index :=
  let tth := TTHValue.ofBase32 (getAttrib t.attribs (ascii "TTH"))
  let sources := (findChildren (ascii "Source") t.children).filterMap readSourceTag
  if tth ∈ s.tthList then s else ⟨s.tthList.insert tth sources⟩

/-- `loadIndexes` of the tags of the document. -/
def loadIndexes (s : Index) (tags : List Tag) : Index :=
  (findChildren (ascii "Index") (stepInto (ascii "Indexes") tags)).foldl loadIndexTag s

/-- Every file that has full sources has them back, in their order. -/
def Restored (s loaded : Index) : Prop :=
  ∀ tth, fullSources (s.sources tth) ≠ [] → loaded.sources tth = fullSources (s.sources tth)

/-- There is nothing to load in what has been saved. -/
theorem loadIndexes_saveIndexes (s loaded : Index) :
    loaded.loadIndexes [s.saveIndexes] = loaded := rfl

/-- The full sources are restored if and only if there are none. -/
theorem restored_iff (s : Index) :
    s.Restored (init.loadIndexes [s.saveIndexes]) ↔
      ∀ tth, ∀ source ∈ s.sources tth, source.isPartial = true := by
  rw [loadIndexes_saveIndexes]
  constructor
  · intro h tth source hsource
    by_contra hfull
    have hmem : source ∈ fullSources (s.sources tth) :=
      List.mem_filter.mpr ⟨hsource, by rw [Bool.eq_false_of_not_eq_true hfull]; rfl⟩
    rw [← h tth (List.ne_nil_of_mem hmem)] at hmem
    exact List.not_mem_nil hmem
  · intro h tth hne
    refine absurd ?_ hne
    apply List.filter_eq_nil_iff.mpr
    intro source hsource hnot
    rw [h tth source hsource] at hnot
    cases hnot

/-- An index with one full source. -/
def oneSource : Index :=
  init.addSource (.replicate 24 0)
    (.new ⟨.replicate 24 1, 0x08080808, 6250⟩ 2000000 false 0)

/-- It is not restored. -/
theorem not_restored_oneSource :
    ¬ oneSource.Restored (init.loadIndexes [oneSource.saveIndexes]) := by
  intro h
  have hback := h (.replicate 24 0) (by decide)
  revert hback
  decide

end Index

end Blacklink.Dht
