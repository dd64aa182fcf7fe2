import Mathlib.Data.Finset.Basic
import Mathlib.Data.List.Nodup
import Blacklink.Dht.Publishing

/-!
# The routing table

Model of `Node` and `KBucket` (`client/dht/KBucket.cpp:32-86, 102-200, 236-306`,
`client/dht/KBucket.h:35-125`, `client/dht/NodeAddress.h`). Nodes are shared objects: the table
holds their places in a heap, and a node can be changed whether it is in the table or not. The node
that `ClientManager::findDHTNode` knows for a user comes with the event.
-/

namespace Blacklink.Dht

open Blacklink.Base

/-- `NodeAddress`. -/
structure NodeAddress where
  ip : UInt32
  port : UInt16
  deriving DecidableEq

/-- `ID_BITS`. -/
def idBits : Nat := 192

/-- `NODE_RESPONSE_TIMEOUT`. -/
def nodeResponseTimeout : UInt64 := 2 * 60 * 1000

/-- `NODE_EXPIRATION`. -/
def nodeExpiration : UInt64 := 2 * 60 * 60 * 1000

/-- `Node`, without its key. -/
structure Node where
  cid : CID
  ip4 : UInt32
  udp4Port : UInt16
  created : UInt64
  expires : UInt64
  type : UInt8
  ipVerified : Bool
  online : Bool
  isInList : Bool
  deriving DecidableEq

namespace Node

/-- The address of the node's identity. -/
def address (n : Node) : NodeAddress := ⟨n.ip4, n.udp4Port⟩

/-- A new node of a user. -/
def new (cid : CID) (ip : UInt32) (port : UInt16) (ipVerified : Bool) (now : UInt64) : Node :=
  ⟨cid, ip, port, now, 0, 3, ipVerified, false, false⟩

/-- `Node::setAlive`. -/
def setAlive (n : Node) (now : UInt64) : Node :=
  let hours := (now - n.created) / (60 * 60 * 1000)
  if hours = 0 then { n with type := 2, expires := now + nodeExpiration / 2 }
  else if hours = 1 then { n with type := 1, expires := now + 4800000 }
  else { n with type := 0, expires := now + nodeExpiration }

/-- What the update in `createNode` makes of the node. -/
def update (n : Node) (ip : UInt32) (port : UInt16) (isUdpKeyValid : Bool) (now : UInt64) : Node :=
  let n := if n.address = ⟨ip, port⟩ then n else { n with ipVerified := false }
  let n := if n.ipVerified then n else { n with ipVerified := isUdpKeyValid }
  { n.setAlive now with ip4 := ip, udp4Port := port }

/-- `Node::setTimeout`. -/
def setTimeout (n : Node) (now : UInt64) : Node :=
  if n.type = 4 then n
  else { n with type := n.type + 1, expires := now + nodeResponseTimeout }

/-- The node is dead. -/
def IsDead (n : Node) (currentTime : UInt64) : Prop :=
  n.type = 4 ∧ 0 < n.expires ∧ n.expires ≤ currentTime

instance (n : Node) (currentTime : UInt64) : Decidable (n.IsDead currentTime) :=
  inferInstanceAs (Decidable (_ ∧ _ ∧ _))

end Node

/-- `KBucket`, with all node objects and the users that have the flag `User::DHT`. -/
structure KBucket where
  heap : Nat → Node
  allocated : Nat
  dhtUsers : Finset CID
  nodes : List Nat
  ipMap : Finset NodeAddress

/-- The operations, and `Node::setOnline`. -/
inductive BucketEvent where
  | createNode (cid : CID) (ip : UInt32) (port : UInt16) (update isUdpKeyValid : Bool)
      (now : UInt64) (dhtNode : Option Nat)
  | insert (node : Nat)
  | checkExpiration (currentTime : UInt64)
  | setOnline (node : Nat)

namespace KBucket

/-- An empty table without nodes. -/
def init : KBucket := ⟨fun _ => .new (.replicate 24 0) 0 0 false 0, 0, ∅, [], ∅⟩

/-- A node object is changed. -/
def modify (s : KBucket) (node : Nat) (f : Node → Node) : KBucket :=
  { s with heap := Function.update s.heap node (f (s.heap node)) }

/-- The node in the table that has the CID. -/
def findInTable (s : KBucket) (cid : CID) : Option Nat :=
  s.nodes.find? fun node => (s.heap node).cid = cid

/-- `findDHTNode`: an online node of the user, if it is one. -/
def findDHTNode (s : KBucket) (cid : CID) (dhtNode : Option Nat) : Option Nat :=
  dhtNode.filter fun node => node < s.allocated ∧ (s.heap node).cid = cid ∧ (s.heap node).online

/-- The node that `createNode` finds. -/
def findNode (s : KBucket) (cid : CID) (dhtNode : Option Nat) : Option Nat :=
  if cid ∈ s.dhtUsers then (s.findInTable cid).or (s.findDHTNode cid dhtNode) else none

/-- The update of a node in `createNode`: the old address is erased and the new one remembered. -/
def updateNode (s : KBucket) (node : Nat) (ip : UInt32) (port : UInt16) (isUdpKeyValid : Bool)
    (now : UInt64) : KBucket :=
  let na := (s.heap node).address
  { s.modify node (·.update ip port isUdpKeyValid now) with
    ipMap := if na = ⟨ip, port⟩ then s.ipMap else Insert.insert ⟨ip, port⟩ (s.ipMap.erase na) }

/-- The node is put at the end of the list, if it is there. -/
def moveToEnd (s : KBucket) (node : Nat) : KBucket :=
  if node ∈ s.nodes then { s with nodes := s.nodes.erase node ++ [node] } else s

/-- `createNode`. -/
def createNode (s : KBucket) (cid : CID) (ip : UInt32) (port : UInt16)
    (update isUdpKeyValid : Bool) (now : UInt64) (dhtNode : Option Nat) : Nat × KBucket :=
  match s.findNode cid dhtNode with
  | some node =>
    let s := s.moveToEnd node
    (node, if update then s.updateNode node ip port isUdpKeyValid now else s)
  | none =>
    (s.allocated, {
      s with
      dhtUsers := insert cid s.dhtUsers
      heap := Function.update s.heap s.allocated (.new cid ip port isUdpKeyValid now)
      allocated := s.allocated + 1 })

/-- `insert`. -/
def insert (s : KBucket) (node : Nat) : Bool × KBucket :=
  if (s.heap node).isInList then (true, s)
  else
    let na := (s.heap node).address
    let isAcceptable : Bool := na ∉ s.ipMap
    if s.nodes.length < bucketSize * idBits ∧ isAcceptable then
      (true, { s.modify node fun n => { n with isInList := true } with
        nodes := s.nodes ++ [node]
        ipMap := Insert.insert na s.ipMap })
    else (isAcceptable, s)

/-- `pingCount`. -/
def pingCount (s : KBucket) : Nat :=
  max bucketSize (min (2 * bucketSize) (s.nodes.length / (bucketSize * 10) + 1))

/-- What the loop of `checkExpiration` leaves: the nodes, the online ones among those removed, and
the bucket. -/
structure Expired where
  nodes : List Nat
  removedList : List Nat
  bucket : KBucket

/-- The loop of `checkExpiration`. -/
def expireLoop (currentTime : UInt64) (pingCount : Nat) : List Nat → Nat → KBucket → Expired
  | [], _, s => ⟨[], [], s⟩
  | node :: nodes, pinged, s =>
    if (s.heap node).IsDead currentTime then
      let r := expireLoop currentTime pingCount nodes pinged
        { s with ipMap := s.ipMap.erase (s.heap node).address }
      { r with removedList :=
        if (s.heap node).online then node :: r.removedList else r.removedList }
    else
      let s := s.modify node fun n => if n.expires = 0 then { n with expires := currentTime } else n
      let ping : Bool :=
        pinged < pingCount ∧ (s.heap node).type < 4 ∧ (s.heap node).expires ≤ currentTime
      let r := expireLoop currentTime pingCount nodes (if ping then pinged + 1 else pinged)
        (if ping then s.modify node (·.setTimeout currentTime) else s)
      { r with nodes := node :: r.nodes }

/-- `checkExpiration`. -/
def checkExpiration (s : KBucket) (currentTime : UInt64) : List Nat × KBucket :=
  let r := expireLoop currentTime s.pingCount s.nodes 0 s
  (r.removedList, { r.bucket with nodes := r.nodes })

/-- One operation; only nodes that have been created are inserted. -/
def step (s : KBucket) : BucketEvent → KBucket
  | .createNode cid ip port update isUdpKeyValid now dhtNode =>
    (s.createNode cid ip port update isUdpKeyValid now dhtNode).2
  | .insert node => if node < s.allocated then (s.insert node).2 else s
  | .checkExpiration currentTime => (s.checkExpiration currentTime).2
  | .setOnline node => s.modify node fun n => { n with online := true }

/-- The table is consistent. -/
structure Consistent (s : KBucket) : Prop where
  distinctCids : (s.nodes.map fun node => (s.heap node).cid).Nodup
  distinctAddresses : (s.nodes.map fun node => (s.heap node).address).Nodup
  mem_ipMap : ∀ na, na ∈ s.ipMap ↔ ∃ node ∈ s.nodes, (s.heap node).address = na
  isInList : ∀ node, (s.heap node).isInList = true ↔ node ∈ s.nodes
  length_le : s.nodes.length ≤ bucketSize * idBits

/-- An update gives a node of the table an address that is not in the table, and a node outside of
it one that is there, in place of one that is not; an inserted node has a new CID; and no node
dies. -/
def Condition (s : KBucket) : BucketEvent → Prop
  | .createNode cid ip port update _ _ dhtNode =>
    ∀ node, s.findNode cid dhtNode = some node → update = true →
      (s.heap node).address ≠ ⟨ip, port⟩ →
        if node ∈ s.nodes then ⟨ip, port⟩ ∉ s.ipMap
        else (s.heap node).address ∉ s.ipMap ∧ ⟨ip, port⟩ ∈ s.ipMap
  | .insert node =>
    node < s.allocated → (s.heap node).isInList = false → (s.heap node).address ∉ s.ipMap →
      s.nodes.length < bucketSize * idBits →
        ∀ other ∈ s.nodes, (s.heap other).cid ≠ (s.heap node).cid
  | .checkExpiration currentTime => ∀ node ∈ s.nodes, ¬ (s.heap node).IsDead currentTime
  | .setOnline _ => True

end KBucket

end Blacklink.Dht
