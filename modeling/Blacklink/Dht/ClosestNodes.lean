import Blacklink.Base.Smallest
import Blacklink.Dht.KBucket

/-!
# The closest nodes

Model of `KBucket::getClosestNodes` (`client/dht/KBucket.cpp:202-230`), `Utils::getDistance`
(`client/dht/Utils.cpp:40-53`) and the order of CIDs (`client/CID.h:60-63`). The flag
`User::PASSIVE` of the users comes from outside the table.
-/

namespace Blacklink.Dht

open Blacklink.Base

/-- `Utils::getDistance`; the words are those of the bytes. -/
def getDistance (cid1 cid2 : CID) : CID := Vector.zipWith (· ^^^ ·) cid1 cid2

theorem getDistance_injective (cid : CID) : Function.Injective (getDistance cid) := by
  intro a b h
  apply Vector.ext
  intro i hi
  have hbyte : cid[i] ^^^ a[i] = cid[i] ^^^ b[i] := by
    have := congrArg (fun v : CID => v[i]) h
    simpa [getDistance] using this
  have hnum := congrArg (fun c => cid[i] ^^^ c) hbyte
  simp only [← UInt8.xor_assoc, UInt8.xor_self, UInt8.zero_xor] at hnum
  exact hnum

namespace KBucket

/-- The node can be handed out. -/
def Eligible (s : KBucket) (passive : CID → Bool) (maxType : UInt8) (node : Nat) : Prop :=
  (s.heap node).type ≤ maxType ∧ (s.heap node).ipVerified = true ∧
    passive (s.heap node).cid = false

instance (s : KBucket) (passive : CID → Bool) (maxType : UInt8) (node : Nat) :
    Decidable (s.Eligible passive maxType node) := inferInstanceAs (Decidable (_ ∧ _ ∧ _))

/-- `getClosestNodes`: the loop over the nodes with the map `closest`. -/
def getClosestNodes (s : KBucket) (passive : CID → Bool) (cid : CID)
    (closest : List (CID × Nat)) (max : Nat) (maxType : UInt8) : List (CID × Nat) :=
  s.nodes.foldl (fun closest node =>
    if s.Eligible passive maxType node then
      offer max closest (getDistance cid (s.heap node).cid, node)
    else closest) closest

/-- The nodes that can be handed out, with their distances. -/
def entries (s : KBucket) (passive : CID → Bool) (cid : CID) (maxType : UInt8) :
    List (CID × Nat) :=
  (s.nodes.filter (s.Eligible passive maxType)).map fun node =>
    (getDistance cid (s.heap node).cid, node)

theorem getClosestNodes_eq (s : KBucket) (passive : CID → Bool) (cid : CID)
    (closest : List (CID × Nat)) (max : Nat) (maxType : UInt8) :
    s.getClosestNodes passive cid closest max maxType =
      (s.entries passive cid maxType).foldl (offer max) closest := by
  unfold getClosestNodes entries
  rw [List.foldl_map, List.foldl_filter]
  simp only [decide_eq_true_eq]

/-- Nodes of different users have different distances. -/
theorem nodup_entries {s : KBucket} (h : (s.nodes.map fun node => (s.heap node).cid).Nodup)
    (passive : CID → Bool) (cid : CID) (maxType : UInt8) :
    ((s.entries passive cid maxType).map Prod.fst).Nodup := by
  have hsub : ((s.nodes.filter (s.Eligible passive maxType)).map fun node =>
      (s.heap node).cid).Nodup := h.sublist (List.filter_sublist.map _)
  have hmap := hsub.map (getDistance_injective cid)
  unfold entries
  rw [List.map_map] at hmap ⊢
  exact hmap

/-- The nodes handed out are those of the smallest distances, as many as asked for, whatever the
order of the table. -/
theorem getClosestNodes_spec {s : KBucket}
    (h : (s.nodes.map fun node => (s.heap node).cid).Nodup) (passive : CID → Bool) (cid : CID)
    {max : Nat} (hmax : 1 ≤ max) (maxType : UInt8) :
    let closest := s.getClosestNodes passive cid [] max maxType
    let eligible := s.nodes.filter (s.Eligible passive maxType)
    closest.Pairwise (fun a b => a.1 < b.1) ∧
      closest.length = min max eligible.length ∧
      (∀ e ∈ closest, e.2 ∈ eligible ∧ e.1 = getDistance cid (s.heap e.2).cid) ∧
      (∀ node ∈ eligible, node ∉ closest.map Prod.snd →
        ∀ e ∈ closest, e.1 < getDistance cid (s.heap node).cid) ∧
      ∀ nodes, nodes.Perm s.nodes →
        ({ s with nodes := nodes } : KBucket).getClosestNodes passive cid [] max maxType =
          closest := by
  have hsmall := smallest_foldl hmax (nodup_entries h passive cid maxType)
  dsimp only
  rw [← getClosestNodes_eq] at hsmall
  refine ⟨hsmall.inOrder, ?_, ?_, ?_, ?_⟩
  · rw [hsmall.length_eq, entries, List.length_map]
  · intro e he
    obtain ⟨node, hnode, rfl⟩ := List.mem_map.mp (hsmall.mem he)
    exact ⟨hnode, rfl⟩
  · intro node hnode hnot e he
    refine hsmall.lt he (List.mem_map.mpr ⟨node, hnode, rfl⟩) fun hin => hnot ?_
    exact List.mem_map.mpr ⟨_, hin, rfl⟩
  · intro nodes hperm
    have hkeys : (nodes.map fun node => (s.heap node).cid).Nodup :=
      ((hperm.map _).nodup_iff).mpr h
    have hsmall' := smallest_foldl hmax
      (nodup_entries (s := { s with nodes := nodes }) hkeys passive cid maxType)
    rw [← getClosestNodes_eq] at hsmall'
    exact hsmall'.unique hsmall ((hperm.filter _).map _)

/-- A table of three nodes, of which the last one is not verified. -/
def sampleTable : KBucket :=
  { init with
    heap := fun n => { Node.new (.replicate 24 n.toUInt8) 0 0 (n != 3) 0 with type := 2 }
    nodes := [1, 3, 2] }

/-- One of the two nodes that can be handed out. -/
theorem getClosestNodes_sampleTable :
    (sampleTable.getClosestNodes (fun _ => false) (.replicate 24 2) [] 1 2).length = 1 :=
  (getClosestNodes_spec (s := sampleTable) (by decide) (fun _ => false) (.replicate 24 2)
    (by decide) 2).2.1.trans (by decide)

end KBucket

end Blacklink.Dht
