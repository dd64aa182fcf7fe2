import Blacklink.Dht.KBucket

/-!
# When the routing table stays consistent

What `createNode`, `insert` and `checkExpiration` (`client/dht/KBucket.cpp:102-200, 236-306`) do to
the table, its set of addresses and the marks of the nodes. Each of them can leave the table
inconsistent: an update does not look whether another node has the new address and changes the set
for nodes that are not in the table, an insertion does not look at the CID, and the mark of a
removed node stays.
-/

namespace Blacklink.Dht

open Blacklink.Base

namespace Node

/-- The nodes agree in all that the table rests on. -/
structure Same (n n' : Node) : Prop where
  cid : n'.cid = n.cid
  address : n'.address = n.address
  isInList : n'.isInList = n.isInList

theorem Same.refl (n : Node) : Same n n := ⟨rfl, rfl, rfl⟩

theorem Same.trans {n n' n'' : Node} (h : Same n n') (h' : Same n' n'') : Same n n'' :=
  ⟨h'.cid.trans h.cid, h'.address.trans h.address, h'.isInList.trans h.isInList⟩

theorem same_of_fields {n n' : Node} (hcid : n'.cid = n.cid) (hip : n'.ip4 = n.ip4)
    (hport : n'.udp4Port = n.udp4Port) (hinList : n'.isInList = n.isInList) : Same n n' :=
  ⟨hcid, congrArg₂ NodeAddress.mk hip hport, hinList⟩

theorem same_setAlive (n : Node) (now : UInt64) : Same n (n.setAlive now) := by
  unfold setAlive
  dsimp only
  split
  · exact same_of_fields rfl rfl rfl rfl
  · split <;> exact same_of_fields rfl rfl rfl rfl

theorem same_setTimeout (n : Node) (now : UInt64) : Same n (n.setTimeout now) := by
  unfold setTimeout
  split <;> exact same_of_fields rfl rfl rfl rfl

theorem update_frame (n : Node) (ip : UInt32) (port : UInt16) (isUdpKeyValid : Bool)
    (now : UInt64) :
    (n.update ip port isUdpKeyValid now).cid = n.cid ∧
      (n.update ip port isUdpKeyValid now).address = ⟨ip, port⟩ ∧
      (n.update ip port isUdpKeyValid now).isInList = n.isInList := by
  unfold update
  dsimp only
  generalize hn : (if n.address = ⟨ip, port⟩ then n else { n with ipVerified := false }) = n'
  have hsame : Same n n' := by
    rw [← hn]
    split
    · exact .refl n
    · exact same_of_fields rfl rfl rfl rfl
  have hverified : Same n' (if n'.ipVerified then n' else
      { n' with ipVerified := isUdpKeyValid }) := by
    split
    · exact .refl n'
    · exact same_of_fields rfl rfl rfl rfl
  have halive := (hsame.trans hverified).trans (same_setAlive _ now)
  exact ⟨halive.cid, rfl, halive.isInList⟩

end Node

namespace KBucket

variable {s s' : KBucket} {node : Nat}

theorem heap_modify_self (s : KBucket) (node : Nat) (f : Node → Node) :
    (s.modify node f).heap node = f (s.heap node) := Function.update_self _ _ _

theorem heap_modify_of_ne {other : Nat} (h : other ≠ node) (s : KBucket) (f : Node → Node) :
    (s.modify node f).heap other = s.heap other := Function.update_of_ne h _ _

/-- A change that keeps what the table rests on. -/
theorem same_modify {f : Node → Node} (hf : ∀ n, Node.Same n (f n)) (s : KBucket)
    (node other : Nat) :
    Node.Same (s.heap other) ((s.modify node f).heap other) := by
  by_cases h : other = node
  · rw [h, heap_modify_self]
    exact hf _
  · rw [heap_modify_of_ne h]
    exact .refl _

theorem Consistent.nodup (h : s.Consistent) : s.nodes.Nodup := .of_map _ h.distinctCids

/-- What the table rests on is the same. -/
theorem Consistent.congr (h : s.Consistent) (hnodes : s'.nodes.Perm s.nodes)
    (hipMap : s'.ipMap = s.ipMap)
    (hcid : ∀ node ∈ s.nodes, (s'.heap node).cid = (s.heap node).cid)
    (haddress : ∀ node ∈ s.nodes, (s'.heap node).address = (s.heap node).address)
    (hinList : ∀ node, (s'.heap node).isInList = (s.heap node).isInList) : s'.Consistent where
  distinctCids := by
    rw [(hnodes.map _).nodup_iff, List.map_congr_left hcid]
    exact h.distinctCids
  distinctAddresses := by
    rw [(hnodes.map _).nodup_iff, List.map_congr_left haddress]
    exact h.distinctAddresses
  mem_ipMap := by
    intro na
    rw [hipMap, h.mem_ipMap]
    constructor
    · rintro ⟨node, hnode, rfl⟩
      exact ⟨node, hnodes.mem_iff.mpr hnode, haddress node hnode⟩
    · rintro ⟨node, hnode, rfl⟩
      have hmem := hnodes.mem_iff.mp hnode
      exact ⟨node, hmem, (haddress node hmem).symm⟩
  isInList := by
    intro node
    rw [hinList, h.isInList, hnodes.mem_iff]
  length_le := by
    rw [hnodes.length_eq]
    exact h.length_le

theorem Consistent.of_same (h : s.Consistent) (hnodes : s'.nodes.Perm s.nodes)
    (hipMap : s'.ipMap = s.ipMap) (hsame : ∀ node, Node.Same (s.heap node) (s'.heap node)) :
    s'.Consistent :=
  h.congr hnodes hipMap (fun node _ => (hsame node).cid) (fun node _ => (hsame node).address)
    fun node => (hsame node).isInList

/-! ### Updates -/

theorem perm_moveToEnd (s : KBucket) (node : Nat) : (s.moveToEnd node).nodes.Perm s.nodes := by
  unfold moveToEnd
  split
  · next hmem => exact (List.perm_append_singleton _ _).trans (List.perm_cons_erase hmem).symm
  · exact .refl _

theorem moveToEnd_frame (s : KBucket) (node : Nat) :
    (s.moveToEnd node).heap = s.heap ∧ (s.moveToEnd node).ipMap = s.ipMap ∧
      (s.moveToEnd node).allocated = s.allocated := by
  unfold moveToEnd
  split <;> exact ⟨rfl, rfl, rfl⟩

theorem Consistent.moveToEnd (h : s.Consistent) (node : Nat) : (s.moveToEnd node).Consistent := by
  obtain ⟨hheap, hipMap, -⟩ := moveToEnd_frame s node
  refine h.of_same (perm_moveToEnd s node) hipMap fun other => ?_
  rw [hheap]
  exact .refl _

variable {ip : UInt32} {port : UInt16} {isUdpKeyValid : Bool} {now : UInt64}

/-- The objects after an update. -/
theorem heap_updateNode (s : KBucket) (node other : Nat) (ip : UInt32) (port : UInt16)
    (isUdpKeyValid : Bool) (now : UInt64) :
    ((s.updateNode node ip port isUdpKeyValid now).heap other).cid = (s.heap other).cid ∧
      ((s.updateNode node ip port isUdpKeyValid now).heap other).address =
        (if other = node then ⟨ip, port⟩ else (s.heap other).address) ∧
      ((s.updateNode node ip port isUdpKeyValid now).heap other).isInList =
        (s.heap other).isInList := by
  have hheap : (s.updateNode node ip port isUdpKeyValid now).heap =
      (s.modify node (·.update ip port isUdpKeyValid now)).heap := rfl
  rw [hheap]
  by_cases hother : other = node
  · rw [hother, if_pos rfl, heap_modify_self]
    exact Node.update_frame (s.heap node) ip port isUdpKeyValid now
  · rw [if_neg hother, heap_modify_of_ne hother]
    exact ⟨rfl, rfl, rfl⟩

/-- An update of a node in the table keeps it consistent if and only if no other node has the new
address. -/
theorem Consistent.updateNode_iff_of_mem (h : s.Consistent) (hnode : node ∈ s.nodes)
    (hchanged : (s.heap node).address ≠ ⟨ip, port⟩) :
    (s.updateNode node ip port isUdpKeyValid now).Consistent ↔
      (⟨ip, port⟩ : NodeAddress) ∉ s.ipMap := by
  have hheap := fun other => heap_updateNode s node other ip port isUdpKeyValid now
  constructor
  · intro h' hmem
    obtain ⟨other, hother, haddress⟩ := (h.mem_ipMap _).mp hmem
    have hne : other ≠ node := by
      rintro rfl
      exact hchanged haddress
    refine hne (List.inj_on_of_nodup_map h'.distinctAddresses hother hnode ?_)
    rw [(hheap other).2.1, (hheap node).2.1, if_neg hne, if_pos rfl]
    exact haddress
  · intro hnew
    have hfree : ∀ other ∈ s.nodes, (s.heap other).address ≠ ⟨ip, port⟩ := fun other hother heq =>
      hnew ((h.mem_ipMap _).mpr ⟨other, hother, heq⟩)
    constructor
    · rw [List.map_congr_left fun other _ => (hheap other).1]
      exact h.distinctCids
    · refine List.Nodup.map_on ?_ h.nodup
      intro x hx y hy heq
      rw [(hheap x).2.1, (hheap y).2.1] at heq
      by_cases hxn : x = node <;> by_cases hyn : y = node
      · rw [hxn, hyn]
      · rw [if_pos hxn, if_neg hyn] at heq
        exact absurd heq.symm (hfree y hy)
      · rw [if_neg hxn, if_pos hyn] at heq
        exact absurd heq (hfree x hx)
      · rw [if_neg hxn, if_neg hyn] at heq
        exact List.inj_on_of_nodup_map h.distinctAddresses hx hy heq
    · intro na
      change na ∈ (if _ then _ else _) ↔ _
      rw [if_neg hchanged, Finset.mem_insert, Finset.mem_erase, h.mem_ipMap]
      constructor
      · rintro (rfl | ⟨hne, other, hother, rfl⟩)
        · exact ⟨node, hnode, by rw [(hheap node).2.1, if_pos rfl]⟩
        · refine ⟨other, hother, ?_⟩
          rw [(hheap other).2.1, if_neg]
          rintro rfl
          exact hne rfl
      · rintro ⟨other, hother, rfl⟩
        rw [(hheap other).2.1]
        split
        · exact .inl rfl
        · next hne =>
          refine .inr ⟨fun heq => hne ?_, other, hother, rfl⟩
          exact List.inj_on_of_nodup_map h.distinctAddresses hother hnode heq
    · intro other
      rw [(hheap other).2.2]
      exact h.isInList other
    · exact h.length_le

/-- An update of a node outside of the table keeps it consistent if and only if it takes no address
out of the set and brings none into it. -/
theorem Consistent.updateNode_iff_of_not_mem (h : s.Consistent) (hnode : node ∉ s.nodes)
    (hchanged : (s.heap node).address ≠ ⟨ip, port⟩) :
    (s.updateNode node ip port isUdpKeyValid now).Consistent ↔
      (s.heap node).address ∉ s.ipMap ∧ (⟨ip, port⟩ : NodeAddress) ∈ s.ipMap := by
  have hheap := fun other => heap_updateNode s node other ip port isUdpKeyValid now
  have haddress : ∀ other ∈ s.nodes,
      ((s.updateNode node ip port isUdpKeyValid now).heap other).address =
        (s.heap other).address := by
    intro other hother
    rw [(hheap other).2.1, if_neg]
    rintro rfl
    exact hnode hother
  have hipMap : (s.updateNode node ip port isUdpKeyValid now).ipMap =
      Insert.insert ⟨ip, port⟩ (s.ipMap.erase (s.heap node).address) := if_neg hchanged
  constructor
  · intro h'
    have hsame : ∀ na, na ∈ (s.updateNode node ip port isUdpKeyValid now).ipMap ↔ na ∈ s.ipMap := by
      intro na
      rw [h'.mem_ipMap, h.mem_ipMap]
      exact exists_congr fun other => and_congr_right fun hother => by rw [haddress other hother]
    constructor
    · intro hold
      have hmem := (hsame _).mpr hold
      rw [hipMap, Finset.mem_insert] at hmem
      rcases hmem with heq | herased
      · exact hchanged heq
      · exact Finset.notMem_erase _ _ herased
    · refine (hsame _).mp ?_
      rw [hipMap]
      exact Finset.mem_insert_self _ _
  · rintro ⟨hold, hnew⟩
    refine h.congr (.refl _) ?_ (fun other _ => (hheap other).1) haddress
      fun other => (hheap other).2.2
    rw [hipMap, Finset.erase_eq_of_notMem hold, Finset.insert_eq_of_mem hnew]

/-- An update without a new address. -/
theorem Consistent.updateNode (h : s.Consistent) (hsame : (s.heap node).address = ⟨ip, port⟩) :
    (s.updateNode node ip port isUdpKeyValid now).Consistent := by
  have hheap := fun other => heap_updateNode s node other ip port isUdpKeyValid now
  refine h.of_same (.refl _) (if_pos hsame) fun other => ⟨(hheap other).1, ?_, (hheap other).2.2⟩
  rw [(hheap other).2.1]
  split
  · next heq => rw [heq, hsame]
  · rfl

/-- A new node object does not touch the table. -/
theorem Consistent.allocate (h : s.Consistent) (hallocated : ∀ node ∈ s.nodes, node < s.allocated)
    (cid : CID) (ip : UInt32) (port : UInt16) (ipVerified : Bool) (now : UInt64) :
    Consistent { s with
      dhtUsers := Insert.insert cid s.dhtUsers
      heap := Function.update s.heap s.allocated (.new cid ip port ipVerified now)
      allocated := s.allocated + 1 } := by
  have hold : ∀ node ∈ s.nodes, Function.update s.heap s.allocated
      (.new cid ip port ipVerified now) node = s.heap node := fun node hnode =>
    Function.update_of_ne (Nat.ne_of_lt (hallocated node hnode)) _ _
  refine h.congr (.refl _) rfl (fun node hnode => ?_) (fun node hnode => ?_) fun node => ?_
  · exact congrArg Node.cid (hold node hnode)
  · exact congrArg Node.address (hold node hnode)
  · dsimp only
    by_cases hnode : node = s.allocated
    · have hout : (s.heap s.allocated).isInList = false := by
        rw [← Bool.not_eq_true, h.isInList]
        exact fun hmem => Nat.lt_irrefl _ (hallocated _ hmem)
      rw [hnode, Function.update_self, hout]
      rfl
    · rw [Function.update_of_ne hnode]

theorem Consistent.createNode_iff (h : s.Consistent)
    (hallocated : ∀ node ∈ s.nodes, node < s.allocated) (cid : CID) (ip : UInt32) (port : UInt16)
    (update isUdpKeyValid : Bool) (now : UInt64) (dhtNode : Option Nat) :
    (s.createNode cid ip port update isUdpKeyValid now dhtNode).2.Consistent ↔
      s.Condition (.createNode cid ip port update isUdpKeyValid now dhtNode) := by
  unfold KBucket.createNode Condition
  cases hfound : s.findNode cid dhtNode with
  | none =>
    refine iff_of_true (h.allocate hallocated cid ip port isUdpKeyValid now) fun node hnode => ?_
    rw [hfound] at hnode
    cases hnode
  | some node =>
    have hmoved := h.moveToEnd node
    obtain ⟨hheap, hipMap, -⟩ := moveToEnd_frame s node
    have hmem : node ∈ (s.moveToEnd node).nodes ↔ node ∈ s.nodes := (perm_moveToEnd s node).mem_iff
    cases update with
    | false => exact iff_of_true hmoved fun _ _ hupdate => nomatch hupdate
    | true =>
      dsimp only
      rw [if_pos rfl]
      by_cases hchanged : (s.heap node).address = ⟨ip, port⟩
      · refine iff_of_true (hmoved.updateNode (by rw [hheap, hchanged])) ?_
        intro other hother _ hne
        rw [hfound] at hother
        cases hother
        exact absurd hchanged hne
      · have hchanged' : ((s.moveToEnd node).heap node).address ≠ ⟨ip, port⟩ := by
          rw [hheap]
          exact hchanged
        have hcondition : (∀ other, s.findNode cid dhtNode = some other → true = true →
            (s.heap other).address ≠ ⟨ip, port⟩ →
              if other ∈ s.nodes then (⟨ip, port⟩ : NodeAddress) ∉ s.ipMap
              else (s.heap other).address ∉ s.ipMap ∧ (⟨ip, port⟩ : NodeAddress) ∈ s.ipMap) ↔
            if node ∈ s.nodes then (⟨ip, port⟩ : NodeAddress) ∉ s.ipMap
            else (s.heap node).address ∉ s.ipMap ∧ (⟨ip, port⟩ : NodeAddress) ∈ s.ipMap := by
          constructor
          · exact fun hall => hall node hfound rfl hchanged
          · intro hone other hother _ _
            rw [hfound] at hother
            cases hother
            exact hone
        rw [hcondition]
        split
        · next hin =>
          rw [hmoved.updateNode_iff_of_mem (hmem.mpr hin) hchanged', hipMap]
        · next hout =>
          rw [hmoved.updateNode_iff_of_not_mem (fun hin => hout (hmem.mp hin)) hchanged', hipMap,
            hheap]

/-! ### Insertions -/

/-- A node with a new address that gets into the table keeps it consistent if and only if its CID
is new. -/
theorem Consistent.push_iff (h : s.Consistent) (hout : (s.heap node).isInList = false)
    (hnew : (s.heap node).address ∉ s.ipMap) (hroom : s.nodes.length < bucketSize * idBits) :
    Consistent { s.modify node fun n => { n with isInList := true } with
        nodes := s.nodes ++ [node]
        ipMap := Insert.insert (s.heap node).address s.ipMap } ↔
      ∀ other ∈ s.nodes, (s.heap other).cid ≠ (s.heap node).cid := by
  have hnot : node ∉ s.nodes := by
    rw [← h.isInList, hout]
    exact Bool.false_ne_true
  have hcid : ∀ other, ((s.modify node fun n => { n with isInList := true }).heap other).cid =
      (s.heap other).cid := by
    intro other
    by_cases hother : other = node
    · rw [hother, heap_modify_self]
    · rw [heap_modify_of_ne hother]
  have haddress : ∀ other,
      ((s.modify node fun n => { n with isInList := true }).heap other).address =
        (s.heap other).address := by
    intro other
    by_cases hother : other = node
    · rw [hother, heap_modify_self]
      rfl
    · rw [heap_modify_of_ne hother]
  constructor
  · intro h' other hother heq
    have hmem := List.mem_append_left [node] hother
    have hself : node ∈ s.nodes ++ [node] := List.mem_append_right _ (List.mem_singleton_self _)
    have hsame := List.inj_on_of_nodup_map h'.distinctCids hmem hself
      (((hcid other).trans heq).trans (hcid node).symm)
    exact hnot (hsame ▸ hother)
  · intro hfree
    constructor
    · change ((s.nodes ++ [node]).map fun other =>
        ((s.modify node fun n => { n with isInList := true }).heap other).cid).Nodup
      rw [List.map_congr_left fun other _ => hcid other, List.map_append, List.nodup_append']
      refine ⟨h.distinctCids, List.nodup_singleton _, ?_⟩
      intro cid hmem hsingle
      obtain ⟨other, hother, rfl⟩ := List.mem_map.mp hmem
      exact hfree other hother (List.mem_singleton.mp hsingle)
    · change ((s.nodes ++ [node]).map fun other =>
        ((s.modify node fun n => { n with isInList := true }).heap other).address).Nodup
      rw [List.map_congr_left fun other _ => haddress other, List.map_append, List.nodup_append']
      refine ⟨h.distinctAddresses, List.nodup_singleton _, ?_⟩
      intro na hmem hsingle
      obtain ⟨other, hother, rfl⟩ := List.mem_map.mp hmem
      refine hnew ((h.mem_ipMap _).mpr ⟨other, hother, ?_⟩)
      exact List.mem_singleton.mp hsingle
    · intro na
      change na ∈ Insert.insert _ s.ipMap ↔ ∃ other ∈ s.nodes ++ [node],
        ((s.modify node fun n => { n with isInList := true }).heap other).address = na
      rw [Finset.mem_insert, h.mem_ipMap]
      constructor
      · rintro (rfl | ⟨other, hother, rfl⟩)
        · exact ⟨node, List.mem_append_right _ (List.mem_singleton_self _), haddress node⟩
        · exact ⟨other, List.mem_append_left _ hother, haddress other⟩
      · rintro ⟨other, hother, rfl⟩
        rcases List.mem_append.mp hother with hold | hself
        · exact .inr ⟨other, hold, (haddress other).symm⟩
        · rw [List.mem_singleton.mp hself]
          exact .inl (haddress node)
    · intro other
      change ((s.modify node fun n => { n with isInList := true }).heap other).isInList = true ↔
        other ∈ s.nodes ++ [node]
      rw [List.mem_append, List.mem_singleton]
      by_cases hother : other = node
      · rw [hother, heap_modify_self]
        exact iff_of_true rfl (.inr rfl)
      · rw [heap_modify_of_ne hother, h.isInList]
        exact (or_iff_left hother).symm
    · change (s.nodes ++ [node]).length ≤ _
      rw [List.length_append]
      exact hroom

theorem Consistent.insert_iff (h : s.Consistent) (node : Nat) :
    (s.step (.insert node)).Consistent ↔ s.Condition (.insert node) := by
  unfold step Condition KBucket.insert
  dsimp only
  split
  · next hlt =>
    cases hmark : (s.heap node).isInList with
    | true => exact iff_of_true h fun _ hout => nomatch hout
    | false =>
      rw [if_neg Bool.false_ne_true]
      by_cases hpush : s.nodes.length < bucketSize * idBits ∧ (s.heap node).address ∉ s.ipMap
      · rw [if_pos ⟨hpush.1, decide_eq_true hpush.2⟩, h.push_iff hmark hpush.2 hpush.1]
        exact ⟨fun hfree _ _ _ _ => hfree, fun hall => hall hlt rfl hpush.2 hpush.1⟩
      · rw [if_neg fun hp => hpush ⟨hp.1, of_decide_eq_true hp.2⟩]
        exact iff_of_true h fun _ _ hnew hroom => absurd ⟨hroom, hnew⟩ hpush
  · next hlt => exact iff_of_true h fun hlt' => absurd hlt' hlt

/-! ### Expiration -/

/-- The change that `checkExpiration` makes to a node that is not dead. -/
private theorem same_expires (n : Node) (currentTime : UInt64) :
    Node.Same n (if n.expires = 0 then { n with expires := currentTime } else n) := by
  split
  · exact Node.same_of_fields rfl rfl rfl rfl
  · exact .refl n

/-- The loop removes the dead nodes, and changes nothing that the table rests on but the set of
addresses. -/
theorem expireLoop_spec (currentTime : UInt64) (pingCount : Nat) {nodes : List Nat}
    (hnodup : nodes.Nodup) (pinged : Nat) (s : KBucket) :
    (expireLoop currentTime pingCount nodes pinged s).nodes =
        nodes.filter (fun node => ¬ (s.heap node).IsDead currentTime) ∧
      (∀ node, Node.Same (s.heap node)
        ((expireLoop currentTime pingCount nodes pinged s).bucket.heap node)) ∧
      ((∀ node ∈ nodes, ¬ (s.heap node).IsDead currentTime) →
        (expireLoop currentTime pingCount nodes pinged s).bucket.ipMap = s.ipMap) := by
  induction nodes generalizing pinged s with
  | nil => exact ⟨rfl, fun _ => .refl _, fun _ => rfl⟩
  | cons node nodes ih =>
    rw [List.nodup_cons] at hnodup
    rw [expireLoop]
    by_cases hdead : (s.heap node).IsDead currentTime
    · rw [if_pos hdead]
      dsimp only
      obtain ⟨hnodes, hsame, -⟩ :=
        ih hnodup.2 pinged { s with ipMap := s.ipMap.erase (s.heap node).address }
      refine ⟨?_, hsame, fun h => absurd hdead (h node List.mem_cons_self)⟩
      rw [hnodes, List.filter_cons_of_neg (by simpa using hdead)]
    · rw [if_neg hdead]
      dsimp only
      generalize hs' : s.modify node (fun n =>
        if n.expires = 0 then { n with expires := currentTime } else n) = s'
      have hs's : ∀ other, Node.Same (s.heap other) (s'.heap other) := by
        rw [← hs']
        exact same_modify (same_expires · currentTime) s node
      generalize decide (pinged < pingCount ∧ (s'.heap node).type < 4 ∧
        (s'.heap node).expires ≤ currentTime) = ping
      generalize hs'' :
        (if ping = true then s'.modify node (·.setTimeout currentTime) else s') = s''
      have hrest : (∀ other, other ≠ node → s''.heap other = s.heap other) ∧
          (∀ other, Node.Same (s.heap other) (s''.heap other)) ∧ s''.ipMap = s.ipMap := by
        have hone : ∀ other, other ≠ node → s'.heap other = s.heap other := by
          intro other hother
          rw [← hs', heap_modify_of_ne hother]
        rw [← hs'']
        split
        · refine ⟨fun other hother => ?_, fun other => ?_, by rw [← hs']; rfl⟩
          · rw [heap_modify_of_ne hother, hone other hother]
          · exact (hs's other).trans
              (same_modify (Node.same_setTimeout · currentTime) s' node other)
        · exact ⟨hone, hs's, by rw [← hs']; rfl⟩
      obtain ⟨hother, hkept, hset⟩ := hrest
      obtain ⟨hnodes, hsame, hipMap⟩ :=
        ih hnodup.2 (if ping = true then pinged + 1 else pinged) s''
      have hheap : ∀ other ∈ nodes, s''.heap other = s.heap other := fun other hmem =>
        hother other fun heq => hnodup.1 (heq ▸ hmem)
      refine ⟨?_, fun other => (hkept other).trans (hsame other), ?_⟩
      · rw [hnodes, List.filter_cons_of_pos (by simpa using hdead)]
        refine congrArg (node :: ·) (List.filter_congr fun other hmem => ?_)
        rw [hheap other hmem]
      · intro h
        refine (hipMap fun other hmem => ?_).trans hset
        rw [hheap other hmem]
        exact h other (List.mem_cons_of_mem _ hmem)

/-- `checkExpiration` keeps the table consistent if and only if it removes nothing: the mark of a
removed node stays. -/
theorem Consistent.checkExpiration_iff (h : s.Consistent) (currentTime : UInt64) :
    (s.checkExpiration currentTime).2.Consistent ↔ s.Condition (.checkExpiration currentTime) := by
  obtain ⟨hnodes, hsame, hipMap⟩ := expireLoop_spec currentTime s.pingCount h.nodup 0 s
  constructor
  · intro h' node hnode hdead
    have hmark : ((s.checkExpiration currentTime).2.heap node).isInList = true :=
      (hsame node).isInList.trans ((h.isInList node).mpr hnode)
    have hmem := (h'.isInList node).mp hmark
    change node ∈ (expireLoop currentTime s.pingCount s.nodes 0 s).nodes at hmem
    rw [hnodes, List.mem_filter] at hmem
    exact of_decide_eq_true hmem.2 hdead
  · intro halive
    refine h.of_same ?_ (hipMap halive) hsame
    change (expireLoop currentTime s.pingCount s.nodes 0 s).nodes.Perm s.nodes
    rw [hnodes, List.filter_eq_self.mpr fun node hnode => decide_eq_true (halive node hnode)]

/-! ### Runs -/

/-- The nodes of the table have been created. -/
def Allocated (s : KBucket) : Prop := ∀ node ∈ s.nodes, node < s.allocated

private theorem expireLoop_sublist (currentTime : UInt64) (pingCount : Nat) (nodes : List Nat)
    (pinged : Nat) (s : KBucket) :
    (expireLoop currentTime pingCount nodes pinged s).nodes.Sublist nodes ∧
      (expireLoop currentTime pingCount nodes pinged s).bucket.allocated = s.allocated := by
  induction nodes generalizing pinged s with
  | nil => exact ⟨.refl _, rfl⟩
  | cons node nodes ih =>
    rw [expireLoop]
    split
    · obtain ⟨hsub, hallocated⟩ :=
        ih pinged { s with ipMap := s.ipMap.erase (s.heap node).address }
      exact ⟨hsub.cons _, hallocated⟩
    · dsimp only
      generalize hs' : s.modify node (fun n =>
        if n.expires = 0 then { n with expires := currentTime } else n) = s'
      generalize decide (pinged < pingCount ∧ (s'.heap node).type < 4 ∧
        (s'.heap node).expires ≤ currentTime) = ping
      obtain ⟨hsub, hallocated⟩ := ih (if ping = true then pinged + 1 else pinged)
        (if ping = true then s'.modify node (·.setTimeout currentTime) else s')
      refine ⟨hsub.cons_cons _, hallocated.trans ?_⟩
      rw [← hs']
      split <;> rfl

theorem Allocated.step (h : s.Allocated) (e : BucketEvent) : (s.step e).Allocated := by
  cases e with
  | createNode cid ip port update isUdpKeyValid now dhtNode =>
    rw [KBucket.step, createNode]
    cases s.findNode cid dhtNode with
    | none => exact fun node hnode => Nat.lt_succ_of_lt (h node hnode)
    | some node =>
      have hmoved : (s.moveToEnd node).Allocated := by
        intro other hother
        rw [(moveToEnd_frame s node).2.2]
        exact h other ((perm_moveToEnd s node).mem_iff.mp hother)
      dsimp only
      split
      · exact hmoved
      · exact hmoved
  | insert node =>
    rw [KBucket.step, KBucket.insert]
    split
    · next hlt =>
      split
      · exact h
      · dsimp only
        split
        · intro other hother
          rcases List.mem_append.mp hother with hold | hself
          · exact h other hold
          · rw [List.mem_singleton.mp hself]
            exact hlt
        · exact h
    · exact h
  | checkExpiration currentTime =>
    obtain ⟨hsub, hallocated⟩ := expireLoop_sublist currentTime s.pingCount s.nodes 0 s
    intro node hnode
    change node < (expireLoop currentTime s.pingCount s.nodes 0 s).bucket.allocated
    rw [hallocated]
    exact h node (hsub.subset hnode)
  | setOnline node => exact h

theorem consistent_init : init.Consistent where
  distinctCids := List.nodup_nil
  distinctAddresses := List.nodup_nil
  mem_ipMap := by
    intro na
    exact iff_of_false (Finset.notMem_empty na) fun ⟨_, hnode, _⟩ => List.not_mem_nil hnode
  isInList := fun _ => iff_of_false Bool.false_ne_true List.not_mem_nil
  length_le := Nat.zero_le _

/-- An operation keeps a consistent table so if and only if the condition holds. -/
theorem Consistent.step_iff (h : s.Consistent) (hallocated : s.Allocated) (e : BucketEvent) :
    (s.step e).Consistent ↔ s.Condition e := by
  cases e with
  | createNode cid ip port update isUdpKeyValid now dhtNode =>
    exact h.createNode_iff hallocated cid ip port update isUdpKeyValid now dhtNode
  | insert node => exact h.insert_iff node
  | checkExpiration currentTime => exact h.checkExpiration_iff currentTime
  | setOnline node =>
    refine iff_of_true (h.of_same (.refl _) rfl ?_) True.intro
    exact same_modify (f := fun n => { n with online := true })
      (fun n => Node.same_of_fields rfl rfl rfl rfl) s node

/-- In every run the table is consistent in all states if and only if every operation meets the
condition. -/
theorem tables_consistent_run_iff (es : List BucketEvent) :
    (∀ pre, pre <+: es → (run step init pre).Consistent) ↔ Within Condition step init es := by
  apply forall_prefix_iff_within
  · exact consistent_init
  · intro es e _ h
    have hallocated : (run step init es).Allocated :=
      run_invariant Allocated (fun _ e h => h.step e) (fun _ h => absurd h List.not_mem_nil) es
    rw [run_append]
    exact h.step_iff hallocated e

/-- Two nodes are in the table, and the second one is updated to the address of the first. -/
def sameAddress : List BucketEvent :=
  [.createNode (.replicate 24 1) 0x08080808 6250 false true 0 none, .insert 0,
    .createNode (.replicate 24 2) 0x08080404 6250 false true 0 none, .insert 1,
    .createNode (.replicate 24 2) 0x08080808 6250 true true 1 none]

/-- The two nodes of the table have one address. -/
theorem not_consistent_sameAddress :
    ¬ ∀ pre, pre <+: sameAddress → (run step init pre).Consistent := by
  intro h
  have hdistinct := (h sameAddress List.prefix_rfl).distinctAddresses
  revert hdistinct
  decide

end KBucket

end Blacklink.Dht
