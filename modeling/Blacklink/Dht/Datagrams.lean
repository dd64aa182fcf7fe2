import Mathlib.Data.Finset.Card
import Mathlib.Data.List.AList
import Blacklink.Adc.AdcCommand
import Blacklink.Base.StreamCipher
import Blacklink.Dht.IndexXml
import Blacklink.Dht.Packets
import Blacklink.Text.Ip4Address

/-!
# Packets on the wire

Model of `DHT::send`, `DHT::processIncoming` and `DHT::getUdpKey` (`client/dht/DHT.cpp:243-404,
1073-1079`) up to the call of `dispatch`, with `RC4` (`openssl/crypto/rc4`). zlib and the Tiger
hashes are parameters. A packet is plain, compressed or encrypted, and its first bytes tell which.
-/

namespace Blacklink.Dht

open Blacklink.Adc Blacklink.Base Blacklink.Text

/-! ### RC4 -/

/-- `RC4_KEY`. -/
structure Rc4Key where
  x : UInt8
  y : UInt8
  data : Vector UInt8 256

namespace Rc4Key

/-- `SK_LOOP`; `id2` is in `y`. -/
def mix (key : List UInt8) (k : Rc4Key) (n : Fin 256) : Rc4Key :=
  let tmp := k.data.get n
  let id2 := key.getD (n % key.length) 0 + tmp + k.y
  { k with y := id2, data := (k.data.set n (k.data.get id2.toFin)).set id2.toNat tmp id2.toNat_lt }

/-- `RC4_set_key`. -/
def set (key : List UInt8) : Rc4Key :=
  let k := (List.finRange 256).foldl (mix key) ⟨0, 0, .ofFn fun i => .ofNat i⟩
  { k with y := 0 }

/-- `LOOP`: the byte of the key stream, and the next state. -/
def next (k : Rc4Key) : UInt8 × Rc4Key :=
  let x := k.x + 1
  let tx := k.data.get x.toFin
  let y := tx + k.y
  let ty := k.data.get y.toFin
  let data := (k.data.set x.toNat ty x.toNat_lt).set y.toNat tx y.toNat_lt
  (data.get (tx + ty).toFin, ⟨x, y, data⟩)

end Rc4Key

/-- `RC4` with a new key. -/
def rc4 (key data : List UInt8) : List UInt8 := xorStream Rc4Key.next (.set key) data

theorem length_rc4 (key data : List UInt8) : (rc4 key data).length = data.length :=
  length_xorStream _ _ _

/-- What is encrypted is decrypted with the same key. -/
theorem rc4_rc4 (key data : List UInt8) : rc4 key (rc4 key data) = data :=
  xorStream_xorStream _ _ _

/-! ### zlib and Tiger -/

/-- `compress2` at the best level and `uncompress`, with the size of the buffer they write to. -/
structure Zlib where
  compress2 : List UInt8 → Nat → Option (List UInt8)
  uncompress : List UInt8 → Nat → Option (List UInt8)
  /-- What was compressed is read back into any buffer it fits into. -/
  lossless : ∀ data size out, compress2 data size = some out →
    ∀ size', data.length ≤ size' → uncompress out size' = some data
  /-- The empty stream is incomplete. -/
  uncompress_nil : ∀ size, uncompress [] size = none

/-- `TigerHash` and the root of `TigerTree`. -/
structure Tiger where
  hash : List UInt8 → Vector UInt8 24
  treeRoot : List UInt8 → CID

/-! ### The node -/

def packetBufSize : Nat := 16384
def magicvalueUdp : UInt8 := 0x5B
def adcPacketHeader : UInt8 := 'U'.toUInt8
def adcPacketFooter : UInt8 := 0x0A
def adcCompressedPacketHeader : UInt8 := 0xC1
def fwResponses : Nat := 3

/-- `DHT::State`. -/
inductive DhtState where
  | idle
  | initializing
  | bootstrap
  | active
  | stopping
  | failed
  deriving DecidableEq

/-- What `send` and `processIncoming` use of the node. -/
structure DHT where
  state : DhtState
  myCID : CID
  myUdpKey : CID
  port : UInt16
  requestFWCheck : Bool
  firewalledWanted : Finset UInt32
  firewalledChecks : AList fun _ : UInt32 => UInt32 × UInt16

namespace DHT

/-- `getUdpKey`. -/
def getUdpKey (tiger : Tiger) (d : DHT) (targetIp : List UInt8) : CID :=
  tiger.treeRoot (d.myUdpKey.toList ++ targetIp)

/-- The check of the firewall that `send` asks an address for, once. -/
def wantsFWCheck (d : DHT) (address : UInt32) : Bool :=
  d.requestFWCheck && d.firewalledWanted.card + d.firewalledChecks.entries.length < fwResponses &&
    address ∉ d.firewalledWanted

/-- The command with the parameters that `send` adds. -/
def complete (tiger : Tiger) (d : DHT) (cmd : AdcCommand) (address : UInt32) : AdcCommand :=
  let fw := if d.wantsFWCheck address then [ascii "FW" ++ natToString d.port.toNat] else []
  let uk := ascii "UK" ++ (d.getUdpKey tiger (printIpAddress address)).toBase32
  { cmd with parameters := cmd.parameters ++ fw ++ [uk] }

end DHT

/-- `AdcCommand::toString` with a CID, without the end of the line. -/
def lineOf (cmd : AdcCommand) (cid : CID) : List UInt8 :=
  cmd.type.toChar :: cmd.cmdString ++ ' '.toUInt8 :: cid.toBase32 ++
    AdcCommand.paramsText false cmd.parameters

/-- `AdcCommand::toString` with a CID. -/
def commandOf (cmd : AdcCommand) (cid : CID) : List UInt8 := lineOf cmd cid ++ [adcPacketFooter]

/-- The compressed command, if it is shorter. -/
def compressed (zlib : Zlib) (command : List UInt8) : Option (List UInt8) :=
  (zlib.compress2 command (packetBufSize - 3)).filter fun out => out.length < command.length

/-- The packet before the encryption. -/
def pack (zlib : Zlib) (command : List UInt8) : List UInt8 :=
  match compressed zlib command with
  | some out => adcCompressedPacketHeader :: out
  | none => command

/-- The first byte of an encrypted packet. -/
def encryptedHeader (randomByte : UInt8) : UInt8 :=
  if randomByte = adcPacketHeader ∨ randomByte = adcCompressedPacketHeader then randomByte + 1
  else randomByte

/-- `HashValue::isZero`. -/
def CID.isZero (cid : CID) : Bool := cid = .replicate 24 0

/-- The packet with the encryption, if there is a key. -/
def encrypt (tiger : Tiger) (targetCID udpKey : CID) (randomByte : UInt8) (body : List UInt8) :
    List UInt8 :=
  if udpKey.isZero then body
  else
    encryptedHeader randomByte ::
      rc4 (tiger.hash (udpKey.toList ++ targetCID.toList)).toList (magicvalueUdp :: body)

/-- `send`: the packet, if the command is not too large. `randomByte` is what `Util::rand`
gives. -/
def DHT.send (zlib : Zlib) (tiger : Tiger) (d : DHT) (cmd : AdcCommand) (address : UInt32)
    (targetCID udpKey : CID) (randomByte : UInt8) : DHT × Option (List UInt8) :=
  let command := commandOf (d.complete tiger cmd address) d.myCID
  (if d.wantsFWCheck address then
      { d with firewalledWanted := insert address d.firewalledWanted }
    else d,
    if packetBufSize - 3 < command.length then none
    else some (encrypt tiger targetCID udpKey randomByte (pack zlib command)))

/-- What is given to `dispatch`, and what is known of the packet it came in. -/
structure Incoming where
  line : List UInt8
  isUdpKeyValid : Bool
  isEncrypted : Bool
  isCompressed : Bool
  deriving DecidableEq

namespace DHT

/-- The two tries of the decryption: the data behind the magic value, and whether the own UDP key
decrypted it. -/
def decrypt (tiger : Tiger) (d : DHT) (remoteIp data : List UInt8) : Option (List UInt8 × Bool) :=
  let key := tiger.hash ((d.getUdpKey tiger remoteIp).toList ++ d.myCID.toList)
  let buf := rc4 key.toList data
  if buf.head? = some magicvalueUdp then some (buf.tail, true)
  else
    let buf := rc4 (tiger.hash d.myCID.toList).toList data
    if buf.head? = some magicvalueUdp then some (buf.tail, false) else none

/-- The packet without the encryption: the data, whether the UDP key was valid, and whether it was
encrypted. -/
def unwrap (tiger : Tiger) (d : DHT) (remoteIp data : List UInt8) :
    Option (List UInt8 × Bool × Bool) :=
  if data.head? ≠ some adcCompressedPacketHeader ∧ data.head? ≠ some adcPacketHeader then
    (d.decrypt tiger remoteIp data.tail).map fun r => (r.1, r.2, true)
  else some (data, false, false)

end DHT

/-- The packet without the compression, and whether it was compressed. -/
def unpack (zlib : Zlib) (src : List UInt8) : Option (List UInt8 × Bool) :=
  if src.head? = some adcCompressedPacketHeader ∧ 1 < src.length then
    (zlib.uncompress src.tail packetBufSize).map (·, true)
  else some (src, false)

/-- `processIncoming`, up to the call of `dispatch`. -/
def DHT.processIncoming (zlib : Zlib) (tiger : Tiger) (d : DHT) (data : List UInt8)
    (address : UInt32) : Option Incoming := do
  if d.state ≠ .active then none
  if data.length < 2 ∨ packetBufSize < data.length then none
  let (src, isUdpKeyValid, isEncrypted) ← d.unwrap tiger (printIpAddress address) data
  let (src, isCompressed) ← unpack zlib src
  if 2 < src.length ∧ src.head? = some adcPacketHeader ∧ src.getLast? = some adcPacketFooter then
    some ⟨src.dropLast, isUdpKeyValid, isEncrypted, isCompressed⟩
  else none

/-! ### Delivery -/

private theorem head?_commandOf {cmd : AdcCommand} (h : cmd.type = .udp) (cid : CID) :
    (commandOf cmd cid).head? = some adcPacketHeader := by
  rw [commandOf, lineOf, h]
  rfl

private theorem two_lt_length_commandOf (cmd : AdcCommand) (cid : CID) :
    2 < (commandOf cmd cid).length := by
  simp only [commandOf, lineOf, List.length_append, List.length_cons, List.length_nil]
  omega

private theorem of_compressed {zlib : Zlib} {command out : List UInt8}
    (h : compressed zlib command = some out) :
    zlib.compress2 command (packetBufSize - 3) = some out ∧ out.length < command.length := by
  obtain ⟨hout, hlt⟩ := Option.filter_eq_some_iff.mp h
  exact ⟨hout, of_decide_eq_true hlt⟩

/-- A packet that is not encrypted has one of the two headers. -/
theorem head?_pack (zlib : Zlib) {command : List UInt8}
    (h : command.head? = some adcPacketHeader) :
    (pack zlib command).head? = some adcCompressedPacketHeader ∨
      (pack zlib command).head? = some adcPacketHeader := by
  unfold pack
  split
  · exact .inl rfl
  · exact .inr h

/-- The first byte of an encrypted packet is none of the headers. -/
theorem encryptedHeader_ne (randomByte : UInt8) :
    encryptedHeader randomByte ≠ adcCompressedPacketHeader ∧
      encryptedHeader randomByte ≠ adcPacketHeader := by
  unfold encryptedHeader
  split
  · next h => cases h <;> subst randomByte <;> decide
  · next h => exact ⟨fun heq => h (.inr heq), fun heq => h (.inl heq)⟩

theorem length_pack_le (zlib : Zlib) {command : List UInt8}
    (h : command.length ≤ packetBufSize - 3) : (pack zlib command).length ≤ packetBufSize - 3 := by
  unfold pack
  split
  · next out hout =>
    have hlt := (of_compressed hout).2
    rw [List.length_cons]
    omega
  · exact h

private theorem compressed_ne_nil {zlib : Zlib} {command out : List UInt8}
    (h : compressed zlib command = some out) : out ≠ [] := by
  rintro rfl
  have hback := zlib.lossless _ _ _ (of_compressed h).1 _ le_rfl
  rw [zlib.uncompress_nil] at hback
  cases hback

theorem two_le_length_pack (zlib : Zlib) {command : List UInt8} (h : 2 ≤ command.length) :
    2 ≤ (pack zlib command).length := by
  unfold pack
  split
  · next out hout =>
    have hpos := List.length_pos_of_ne_nil (compressed_ne_nil hout)
    rw [List.length_cons]
    omega
  · exact h

/-- The compression is taken away. -/
theorem unpack_pack (zlib : Zlib) {command : List UInt8}
    (hhead : command.head? = some adcPacketHeader) (hsize : command.length ≤ packetBufSize - 3) :
    unpack zlib (pack zlib command) = some (command, (compressed zlib command).isSome) := by
  unfold pack
  split
  · next out hout =>
    have hback : zlib.uncompress out packetBufSize = some command :=
      zlib.lossless _ _ _ (of_compressed hout).1 _ (by omega)
    have hpos := List.length_pos_of_ne_nil (compressed_ne_nil hout)
    rw [unpack, if_pos ⟨rfl, by rw [List.length_cons]; omega⟩, List.tail_cons, hback, hout]
    rfl
  · next hnone =>
    have hplain : ¬(command.head? = some adcCompressedPacketHeader ∧ 1 < command.length) := by
      rw [hhead]
      exact fun h => absurd h.1 (by decide)
    rw [unpack, if_neg hplain, hnone]
    rfl

private theorem length_encrypt (tiger : Tiger) (targetCID udpKey : CID) (randomByte : UInt8)
    (body : List UInt8) :
    body.length ≤ (encrypt tiger targetCID udpKey randomByte body).length ∧
      (encrypt tiger targetCID udpKey randomByte body).length ≤ body.length + 2 := by
  unfold encrypt
  split
  · omega
  · rw [List.length_cons, length_rc4, List.length_cons]
    omega

/-- The first try decrypts what was encrypted with the own UDP key and CID. -/
theorem decrypt_rc4 (tiger : Tiger) (d : DHT) (remoteIp body : List UInt8) :
    d.decrypt tiger remoteIp
        (rc4 (tiger.hash ((d.getUdpKey tiger remoteIp).toList ++ d.myCID.toList)).toList
          (magicvalueUdp :: body)) =
      some (body, true) := by
  unfold DHT.decrypt
  dsimp only
  rw [rc4_rc4, if_pos List.head?_cons, List.tail_cons]

/-- The encryption is taken away with the key that the receiver has for the sender. -/
theorem unwrap_encrypt (tiger : Tiger) (d : DHT) (remoteIp : List UInt8) {udpKey : CID}
    (hkey : udpKey.isZero = true ∨ udpKey = d.getUdpKey tiger remoteIp) (randomByte : UInt8)
    {body : List UInt8} (hhead : body.head? = some adcCompressedPacketHeader ∨
      body.head? = some adcPacketHeader) :
    d.unwrap tiger remoteIp (encrypt tiger d.myCID udpKey randomByte body) =
      some (body, !udpKey.isZero, !udpKey.isZero) := by
  unfold encrypt
  cases hzero : udpKey.isZero with
  | true =>
    have hplain : ¬(body.head? ≠ some adcCompressedPacketHeader ∧
        body.head? ≠ some adcPacketHeader) := by
      rintro ⟨hc, hu⟩
      exact hhead.elim hc hu
    rw [if_pos rfl, DHT.unwrap, if_neg hplain]
    rfl
  | false =>
    have hne := encryptedHeader_ne randomByte
    have hfirst : udpKey = d.getUdpKey tiger remoteIp := by
      apply hkey.resolve_left
      rw [hzero]
      exact Bool.false_ne_true
    rw [if_neg Bool.false_ne_true, DHT.unwrap, if_pos (by simpa using hne), List.tail_cons,
      hfirst, decrypt_rc4]
    rfl

/-- The receiver finds the command in the packet, in the form that the sender chose. -/
theorem processIncoming_send (zlib : Zlib) (tiger : Tiger) (sender receiver : DHT)
    (cmd : AdcCommand) (senderIp receiverIp : UInt32) (udpKey : CID) (randomByte : UInt8)
    (hactive : receiver.state = .active) (hudp : cmd.type = .udp)
    (hkey : udpKey.isZero = true ∨ udpKey = receiver.getUdpKey tiger (printIpAddress senderIp))
    (hsize : (commandOf (sender.complete tiger cmd receiverIp) sender.myCID).length ≤
      packetBufSize - 3) :
    (sender.send zlib tiger cmd receiverIp receiver.myCID udpKey randomByte).2.bind
        (receiver.processIncoming zlib tiger · senderIp) =
      some {
        line := lineOf (sender.complete tiger cmd receiverIp) sender.myCID
        isUdpKeyValid := !udpKey.isZero
        isEncrypted := !udpKey.isZero
        isCompressed := (compressed zlib
          (commandOf (sender.complete tiger cmd receiverIp) sender.myCID)).isSome } := by
  have htype : (sender.complete tiger cmd receiverIp).type = .udp := hudp
  unfold DHT.send
  dsimp only
  rw [if_neg (Nat.not_lt.mpr hsize), Option.bind_some]
  generalize sender.complete tiger cmd receiverIp = full at hsize htype ⊢
  have hhead := head?_commandOf htype sender.myCID
  have hlong := two_lt_length_commandOf full sender.myCID
  have hlast : (commandOf full sender.myCID).getLast? = some adcPacketFooter :=
    List.getLast?_concat
  have hline : (commandOf full sender.myCID).dropLast = lineOf full sender.myCID :=
    List.dropLast_concat
  generalize commandOf full sender.myCID = command at *
  have hpack := length_pack_le zlib hsize
  have hpack_two := two_le_length_pack zlib (Nat.le_of_lt hlong)
  have hlen := length_encrypt tiger receiver.myCID udpKey randomByte (pack zlib command)
  have hfits : ¬((encrypt tiger receiver.myCID udpKey randomByte (pack zlib command)).length < 2 ∨
      packetBufSize < (encrypt tiger receiver.myCID udpKey randomByte
        (pack zlib command)).length) := by
    have hbuf : packetBufSize = 16384 := rfl
    omega
  unfold DHT.processIncoming
  rw [if_neg (not_not_intro hactive), if_neg hfits,
    unwrap_encrypt tiger receiver _ hkey randomByte (head?_pack zlib hhead)]
  simp only [Option.bind_eq_bind, Option.bind_some, unpack_pack zlib hhead hsize]
  rw [if_pos ⟨hlong, hhead, hlast⟩, hline]

/-! ### A request for nodes -/

/-- The command that `BootstrapManager::process` sends. -/
def nodesRequest : AdcCommand :=
  ⟨.udp, CommandName.get, 0, 0, [], [ascii "nodes", ascii "dht.xml"]⟩

/-- A node that does not check the firewall. -/
def checkedNode (cidByte keyByte : UInt8) : DHT :=
  ⟨.active, .replicate 24 cidByte, .replicate 24 keyByte, 6250, false, ∅, ∅⟩

/-- The key of `checkedNode 0 0` for 8.8.8.8. -/
def targetKey : CID :=
  #v[110, 154, 120, 125, 60, 213, 188, 51, 106, 70, 239, 3, 221, 252, 16, 1, 2, 211, 223, 107, 18,
    62, 192, 20]

/-- The key of `checkedNode 1 2` for 8.8.4.4. -/
def senderKey : CID :=
  #v[29, 108, 192, 209, 229, 12, 50, 221, 124, 167, 214, 32, 54, 40, 64, 170, 243, 53, 247, 72, 133,
    229, 177, 9]

/-- The hashes of the request and its answer. -/
def requestTiger : Tiger where
  hash data :=
    if data = senderKey.toList ++ .replicate 24 1 then
      #v[124, 122, 223, 151, 59, 133, 162, 248, 187, 26, 184, 218, 219, 182, 227, 201, 186, 246, 20,
        233, 146, 32, 175, 50]
    else .replicate 24 0
  treeRoot data :=
    if data = .replicate 24 0 ++ ascii "8.8.8.8" then targetKey
    else if data = .replicate 24 2 ++ ascii "8.8.4.4" then senderKey
    else .replicate 24 0

/-- The request as it is sent to 8.8.8.8. -/
def requestText : List UInt8 :=
  ascii "UGET AAAAAAAAAAAAAAAAAAAAAAAAAAAAAAAAAAAAAAA nodes dht.xml " ++
    ascii "UKN2NHQ7J42W6DG2SG54B537AQAEBNHX3LCI7MAFA\n"

/-- The request compressed. -/
def requestStream : List UInt8 :=
  [120, 218, 11, 117, 119, 13, 81, 112, 36, 14, 40, 228, 229, 167, 164, 22, 43, 164, 100, 148, 232,
    85, 228, 230, 40, 132, 122, 251, 25, 249, 121, 4, 154, 123, 153, 24, 133, 155, 185, 184, 27, 5,
    187, 155, 154, 56, 153, 26, 155, 59, 6, 58, 186, 58, 249, 121, 68, 24, 251, 56, 123, 154, 251,
    58, 186, 57, 114, 1, 0, 113, 80, 27, 58]

/-- zlib on the request. -/
def requestZlib : Zlib where
  compress2 data size := if data = requestText ∧ requestStream.length ≤ size then some requestStream
    else none
  uncompress data size := if data = requestStream ∧ requestText.length ≤ size then some requestText
    else none
  lossless data size out h size' hsize := by
    obtain ⟨⟨rfl, -⟩, hout⟩ := Option.ite_none_right_eq_some.mp h
    exact if_pos ⟨(Option.some.inj hout).symm, hsize⟩
  uncompress_nil size := if_neg fun h => absurd h.1 (List.cons_ne_nil _ _).symm

private theorem commandOf_nodesRequest :
    commandOf ((checkedNode 0 0).complete requestTiger nodesRequest 0x08080808)
      (checkedNode 0 0).myCID = requestText := by
  decide +kernel

/-- The request compressed and encrypted, from 8.8.4.4. -/
theorem processIncoming_nodesRequest :
    ((checkedNode 0 0).send requestZlib requestTiger nodesRequest 0x08080808
        (checkedNode 1 2).myCID senderKey 7).2.bind
        ((checkedNode 1 2).processIncoming requestZlib requestTiger · 0x08080404) =
      some ⟨requestText.dropLast, true, true, true⟩ := by
  have h := processIncoming_send requestZlib requestTiger (checkedNode 0 0) (checkedNode 1 2)
    nodesRequest 0x08080404 0x08080808 senderKey 7 rfl rfl (.inr (by rfl))
    (by rw [commandOf_nodesRequest]; decide)
  rw [h, commandOf_nodesRequest]
  rfl

end Blacklink.Dht
