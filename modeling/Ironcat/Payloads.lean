import Ironcat.HeaderMessage
import Ironcat.Locator
import Ironcat.Peers

/-!
# Message payloads

The payloads of the `inv`, `getheaders`, `headers`, `addr` and `version`
messages in `network/`, with the strings and network addresses of `network.rs`
they are made of. Each is written and read back field by field; bytes that
follow a payload are ignored.
-/

namespace Ironcat.Payloads

open Lib.ByteCodec Lib.ByteCodec.Reader Types BlockWire Peers LocatorReply Locator HeaderMessage

def maxVarstrLength : ℕ := 4096

def asBytes (s : String) : Bytes := s.toByteArray.data.toList

def writeVarstr (s : String) : Bytes := writeVarint (asBytes s).length ++ asBytes s

def decodeVarstr : Reader String := do
  let length ← decodeVarint
  require (length ≤ maxVarstrLength)
  let strBytes ← takeBytes length
  ofOption (String.fromUTF8? ⟨strBytes.toArray⟩)

theorem fromUTF8?_asBytes (s : String) : String.fromUTF8? ⟨(asBytes s).toArray⟩ = some s := by
  unfold String.fromUTF8? asBytes
  rw [Array.toArray_toList, dif_pos s.isValidUTF8]
  rfl

theorem decodeVarstr_reads {s : String} (h : (asBytes s).length ≤ maxVarstrLength) :
    Reads decodeVarstr (writeVarstr s) s := by
  have hlen : (asBytes s).length < 256 ^ 8 := h.trans_lt (by decide)
  refine (decodeVarint_reads hlen).bind (Reads.require_bind h ?_)
  exact (reads_takeBytes (asBytes s)).ofOption_bind (fromUTF8?_asBytes s)

structure ServiceMask where
  bits : UInt64
deriving DecidableEq, Repr

namespace ServiceMask

def nodeNetwork : UInt64 := 1
def nodeGetutxo : UInt64 := 2
def nodeBloom : UInt64 := 4
def nodeWitness : UInt64 := 8
def nodeXthin : UInt64 := 16
def nodeCompactFilters : UInt64 := 64
def nodeNetworkLimited : UInt64 := 1024

def all : UInt64 :=
  nodeNetwork ||| nodeGetutxo ||| nodeBloom ||| nodeWitness ||| nodeXthin ||| nodeCompactFilters |||
    nodeNetworkLimited

def fromBitsTruncate (bits : UInt64) : ServiceMask := ⟨bits &&& all⟩

/-- No bits but those of the services above. -/
def Known (s : ServiceMask) : Prop := s.bits &&& all = s.bits

instance (s : ServiceMask) : Decidable s.Known := inferInstanceAs (Decidable (_ = _))

theorem fromBitsTruncate_bits {s : ServiceMask} (h : s.Known) :
    fromBitsTruncate (UInt64.ofNat s.bits.toNat) = s := by
  rw [UInt64.ofNat_toNat, fromBitsTruncate, h]

end ServiceMask

/-- `IpAddr::to_canonical`: an IPv4-mapped IPv6 address becomes the IPv4 one. -/
def toCanonical : IpAddr → IpAddr
  | .v4 bits => .v4 bits
  | .v6 bits =>
    if bits.toNat / 2 ^ 32 = 0xffff then .v4 (BitVec.ofNat 32 bits.toNat) else .v6 bits

def ipv4ToMappedIpv6 (bits : BitVec 32) : Bytes :=
  List.replicate 10 0 ++ 0xff :: 0xff :: beBytes 4 bits.toNat

structure NetworkAddress where
  services : ServiceMask
  address : IpAddr
  port : UInt16
deriving DecidableEq, Repr

namespace NetworkAddress

def addressToNetworkBytes (a : NetworkAddress) : Bytes :=
  match a.address with
  | .v4 bits => ipv4ToMappedIpv6 bits
  | .v6 bits => beBytes 16 bits.toNat

def toBytes (a : NetworkAddress) : Bytes :=
  leBytes 8 a.services.bits.toNat ++ (a.addressToNetworkBytes ++ beBytes 2 a.port.toNat)

def fromBytes (bytes : Bytes) : Option NetworkAddress :=
  if bytes.length ≠ 26 then none
  else
    let services := ServiceMask.fromBitsTruncate (UInt64.ofNat (ofLeBytes (bytes.take 8)))
    let ipBytes := (bytes.drop 8).take 16
    let address := toCanonical (.v6 (BitVec.ofNat 128 (ofBeBytes ipBytes)))
    let port := UInt16.ofNat (ofBeBytes ((bytes.drop 24).take 2))
    some ⟨services, address, port⟩

/-- A canonical address with known services. -/
structure Plain (a : NetworkAddress) : Prop where
  services : a.services.Known
  address : toCanonical a.address = a.address

variable {a : NetworkAddress}

theorem addressToNetworkBytes_length (a : NetworkAddress) :
    a.addressToNetworkBytes.length = 16 := by
  unfold addressToNetworkBytes
  split <;> simp [ipv4ToMappedIpv6]

theorem toBytes_length (a : NetworkAddress) : a.toBytes.length = 26 := by
  simp [toBytes, addressToNetworkBytes_length]

theorem ofBeBytes_ipv4ToMappedIpv6 (bits : BitVec 32) :
    ofBeBytes (ipv4ToMappedIpv6 bits) = 0xffff * 2 ^ 32 + bits.toNat := by
  have hbits : bits.toNat < 256 ^ 4 := bits.isLt
  have hzero : ∀ b ∈ List.replicate 10 (0 : UInt8), b = 0 := fun b hb => List.eq_of_mem_replicate hb
  rw [ipv4ToMappedIpv6, ofBeBytes_append_zeros hzero, ofBeBytes_cons, ofBeBytes_cons,
    ofBeBytes_beBytes hbits, List.length_cons, beBytes_length,
    show (0xff : UInt8).toNat = 255 from rfl]
  omega

theorem toCanonical_networkBytes (h : toCanonical a.address = a.address) :
    toCanonical (.v6 (BitVec.ofNat 128 (ofBeBytes a.addressToNetworkBytes))) = a.address := by
  unfold addressToNetworkBytes
  cases haddr : a.address with
  | v4 bits =>
    have hbits := bits.isLt
    have hnat : (BitVec.ofNat 128 (0xffff * 2 ^ 32 + bits.toNat)).toNat =
        0xffff * 2 ^ 32 + bits.toNat := by
      rw [BitVec.toNat_ofNat]
      omega
    dsimp only
    rw [ofBeBytes_ipv4ToMappedIpv6, toCanonical, hnat, if_pos (by omega)]
    congr 1
    apply BitVec.eq_of_toNat_eq
    rw [BitVec.toNat_ofNat]
    omega
  | v6 bits =>
    have hbits : bits.toNat < 256 ^ 16 := bits.isLt
    dsimp only
    rw [ofBeBytes_beBytes hbits, BitVec.ofNat_toNat, BitVec.setWidth_eq, ← haddr, h]

theorem fromBytes_toBytes (h : a.Plain) : fromBytes a.toBytes = some a := by
  have hservices : a.services.bits.toNat < 256 ^ 8 := a.services.bits.toNat_lt
  have hport : a.port.toNat < 256 ^ 2 := a.port.toNat_lt
  have hhead : a.toBytes.take 8 = leBytes 8 a.services.bits.toNat := by
    rw [toBytes, List.take_left' (leBytes_length 8 _)]
  have htail : a.toBytes.drop 8 = a.addressToNetworkBytes ++ beBytes 2 a.port.toNat := by
    rw [toBytes, List.drop_left' (leBytes_length 8 _)]
  have hip : (a.toBytes.drop 8).take 16 = a.addressToNetworkBytes := by
    rw [htail, List.take_left' a.addressToNetworkBytes_length]
  have hlast : (a.toBytes.drop 24).take 2 = beBytes 2 a.port.toNat := by
    rw [show 24 = 8 + 16 from rfl, ← List.drop_drop, htail,
      List.drop_left' a.addressToNetworkBytes_length, List.take_of_length_le (by simp)]
  unfold fromBytes
  rw [if_neg (not_not.mpr a.toBytes_length)]
  dsimp only
  rw [hhead, hip, hlast, ofLeBytes_leBytes hservices, ofBeBytes_beBytes hport,
    ServiceMask.fromBitsTruncate_bits h.services, toCanonical_networkBytes h.address,
    UInt16.ofNat_toNat]

end NetworkAddress

def readNetworkAddress : Reader NetworkAddress := do
  let buffer ← takeBytes 26
  ofOption (NetworkAddress.fromBytes buffer)

theorem readNetworkAddress_reads {a : NetworkAddress} (h : a.Plain) :
    Reads readNetworkAddress a.toBytes a := by
  have htake := reads_takeBytes a.toBytes
  rw [a.toBytes_length] at htake
  exact htake.ofOption_bind (NetworkAddress.fromBytes_toBytes h)

def maxInvSize : ℕ := 50000

def msgWitnessFlag : UInt32 := (1 : UInt32) <<< 30

def msgMwebFlag : UInt32 := (1 : UInt32) <<< 29

inductive InvType
  | tx
  | block
  | filteredBlock
  | compactBlock
deriving DecidableEq, Repr

namespace InvType

def toU32 : InvType → UInt32
  | tx => 1
  | block => 2
  | filteredBlock => 3
  | compactBlock => 4

def fromU32 (n : UInt32) : Option InvType :=
  let stripped := n &&& ~~~(msgWitnessFlag ||| msgMwebFlag)
  if stripped = 1 then some tx
  else if stripped = 2 then some block
  else if stripped = 3 then some filteredBlock
  else if stripped = 4 then some compactBlock
  else none

theorem fromU32_toU32 (t : InvType) : fromU32 t.toU32 = some t := by
  cases t <;> decide

end InvType

structure InvItem where
  invType : InvType
  hash : Hash256
deriving DecidableEq, Repr

def InvItem.toBytes (i : InvItem) : Bytes := leBytes 4 i.invType.toU32.toNat ++ i.hash.asBytes

/-- `InvItem::from_cursor`: nothing for an unknown type. -/
def readInvItem : Reader (Option InvItem) := do
  let rawType ← readLe 4
  let hash ← readHash
  return (InvType.fromU32 (UInt32.ofNat rawType)).map fun invType => ⟨invType, hash⟩

theorem readInvItem_reads (i : InvItem) : Reads readInvItem i.toBytes (some i) := by
  have htype : i.invType.toU32.toNat < 256 ^ 4 := i.invType.toU32.toNat_lt
  refine (reads_readLe htype).bind fun t => ?_
  refine ((readHash_reads i.hash).map _ t).trans ?_
  rw [UInt32.ofNat_toNat, InvType.fromU32_toU32, Option.map_some]

structure MessageInv where
  items : List InvItem
deriving DecidableEq, Repr

namespace MessageInv

def toBytes (m : MessageInv) : Bytes :=
  writeVarint m.items.length ++ m.items.flatMap InvItem.toBytes

/-- Items of an unknown type are skipped. -/
def fromBytes (bytes : Bytes) : Option MessageInv :=
  ((readCounted maxInvSize readInvItem bytes).map Prod.fst).map fun items => ⟨items.filterMap id⟩

theorem fromBytes_toBytes {m : MessageInv} (h : m.items.length ≤ maxInvSize) :
    fromBytes m.toBytes = some m := by
  -- the reader returns an option for each item
  have hreads : Reads (readCounted maxInvSize readInvItem)
      (writeVarint (m.items.map some).length ++
        (m.items.map some).flatMap fun o => (o.map InvItem.toBytes).getD []) (m.items.map some) := by
    refine readCounted_reads (by decide) (by simpa using h) ?_
    simpa using fun i _ => readInvItem_reads i
  have hbytes : m.toBytes = writeVarint (m.items.map some).length ++
      (m.items.map some).flatMap fun o => (o.map InvItem.toBytes).getD [] := by
    simp [toBytes, List.flatMap_map]
  rw [fromBytes, hbytes, hreads.map_fst, Option.map_some]
  simp [List.filterMap_map]

end MessageInv

def getheadersVersion : UInt32 := 70012

structure MessageGetHeaders where
  locatorHashes : List Hash256
  hashStop : Hash256
deriving DecidableEq, Repr

namespace MessageGetHeaders

def toBytes (m : MessageGetHeaders) : Bytes :=
  leBytes 4 getheadersVersion.toNat ++ ((writeVarint m.locatorHashes.length ++
    m.locatorHashes.flatMap Hash256.asBytes) ++ m.hashStop.asBytes)

def read : Reader MessageGetHeaders := do
  let _ ← readLe 4
  let locatorHashes ← readCounted maxLocatorHashes readHash
  let hashStop ← readHash
  return ⟨locatorHashes, hashStop⟩

def fromBytes (bytes : Bytes) : Option MessageGetHeaders := (read bytes).map Prod.fst

theorem fromBytes_toBytes {m : MessageGetHeaders} (h : m.locatorHashes.length ≤ maxLocatorHashes) :
    fromBytes m.toBytes = some m := by
  have hversion : getheadersVersion.toNat < 256 ^ 4 := getheadersVersion.toNat_lt
  have hreads : Reads read m.toBytes m := (reads_readLe hversion).bind
    ((readCounted_reads (by decide) h fun x _ => readHash_reads x).bind
      ((readHash_reads m.hashStop).map _))
  exact hreads.map_fst

end MessageGetHeaders

structure MessageHeaders where
  headers : List BlockHeader
deriving DecidableEq, Repr

namespace MessageHeaders

def entryBytes (header : BlockHeader) : Bytes := header.toBytes ++ writeVarint 0

def toBytes (m : MessageHeaders) : Bytes :=
  writeVarint m.headers.length ++ m.headers.flatMap entryBytes

def fromBytes (bytes : Bytes) : Option MessageHeaders := (messageHeaders bytes).map .mk

theorem readHeaderEntry_reads (header : BlockHeader) :
    Reads readHeaderEntry (entryBytes header) header := by
  refine (readHeader_reads header).bind ?_
  rw [← List.append_nil (writeVarint 0)]
  exact (decodeVarint_reads (by decide)).bind (Reads.require_bind rfl fun t => rfl)

theorem fromBytes_toBytes {m : MessageHeaders} (h : m.headers.length ≤ maxHeadersPerMsg) :
    fromBytes m.toBytes = some m := by
  have hreads := readCounted_reads (by decide) h fun x _ => readHeaderEntry_reads x
  rw [fromBytes, messageHeaders, toBytes, hreads.map_fst, Option.map_some]

end MessageHeaders

def maxAddrEntries : ℕ := 1000

structure AddrEntry where
  timestamp : UInt32
  address : NetworkAddress
deriving DecidableEq, Repr

def AddrEntry.toBytes (e : AddrEntry) : Bytes := leBytes 4 e.timestamp.toNat ++ e.address.toBytes

def readAddrEntry : Reader AddrEntry := do
  let timestamp ← readLe 4
  let address ← readNetworkAddress
  return ⟨UInt32.ofNat timestamp, address⟩

theorem readAddrEntry_reads {e : AddrEntry} (h : e.address.Plain) :
    Reads readAddrEntry e.toBytes e := by
  have htimestamp : e.timestamp.toNat < 256 ^ 4 := e.timestamp.toNat_lt
  refine (reads_readLe htimestamp).bind fun t => ?_
  exact ((readNetworkAddress_reads h).map _ t).trans (by rw [UInt32.ofNat_toNat])

structure MessageAddr where
  addrList : List AddrEntry
deriving DecidableEq, Repr

namespace MessageAddr

def toBytes (m : MessageAddr) : Bytes :=
  writeVarint m.addrList.length ++ m.addrList.flatMap AddrEntry.toBytes

def fromBytes (bytes : Bytes) : Option MessageAddr :=
  ((readCounted maxAddrEntries readAddrEntry bytes).map Prod.fst).map .mk

theorem fromBytes_toBytes {m : MessageAddr} (h : m.addrList.length ≤ maxAddrEntries)
    (hplain : ∀ e ∈ m.addrList, e.address.Plain) : fromBytes m.toBytes = some m := by
  have hreads := readCounted_reads (by decide) h fun e he => readAddrEntry_reads (hplain e he)
  rw [fromBytes, toBytes, hreads.map_fst, Option.map_some]

end MessageAddr

structure MessageVersion where
  version : UInt32
  services : ServiceMask
  timestamp : Int64
  addrRecv : NetworkAddress
  nonce : UInt64
  userAgent : String
  startHeight : Int32
  relay : Bool
deriving DecidableEq, Repr

namespace MessageVersion

/-- The sender's own address is written as zeros. -/
def toBytes (m : MessageVersion) : Bytes :=
  leBytes 4 m.version.toNat ++ (leBytes 8 m.services.bits.toNat ++
    (leBytes 8 m.timestamp.toUInt64.toNat ++ (m.addrRecv.toBytes ++ (List.replicate 26 0 ++
    (leBytes 8 m.nonce.toNat ++ (writeVarstr m.userAgent ++
    (leBytes 4 m.startHeight.toUInt32.toNat ++ [m.relay.toUInt8])))))))

def readRelay : Reader Bool
  | [] => some (true, [])
  | b :: rest => some (b ≠ 0, rest)

def read : Reader MessageVersion := do
  let version ← readLe 4
  let services ← readLe 8
  let timestamp ← readLe 8
  let addrRecv ← readNetworkAddress
  let _ ← takeBytes 26
  let nonce ← readLe 8
  let userAgent ← decodeVarstr
  let startHeight ← readLe 4
  let relay ← readRelay
  return ⟨UInt32.ofNat version, ServiceMask.fromBitsTruncate (UInt64.ofNat services),
    (UInt64.ofNat timestamp).toInt64, addrRecv, UInt64.ofNat nonce, userAgent,
    (UInt32.ofNat startHeight).toInt32, relay⟩

def fromBytes (bytes : Bytes) : Option MessageVersion :=
  if bytes.length < 85 then none else (read bytes).map Prod.fst

variable {m : MessageVersion}

theorem readRelay_reads (relay : Bool) : Reads readRelay [relay.toUInt8] relay := by
  cases relay <;> exact fun t => rfl

theorem read_reads (hagent : (asBytes m.userAgent).length ≤ maxVarstrLength)
    (hservices : m.services.Known) (haddr : m.addrRecv.Plain) : Reads read m.toBytes m := by
  have hversion : m.version.toNat < 256 ^ 4 := m.version.toNat_lt
  have hbits : m.services.bits.toNat < 256 ^ 8 := m.services.bits.toNat_lt
  have htimestamp : m.timestamp.toUInt64.toNat < 256 ^ 8 := m.timestamp.toUInt64.toNat_lt
  have hnonce : m.nonce.toNat < 256 ^ 8 := m.nonce.toNat_lt
  have hheight : m.startHeight.toUInt32.toNat < 256 ^ 4 := m.startHeight.toUInt32.toNat_lt
  have hfrom := reads_takeBytes (List.replicate 26 0)
  rw [List.length_replicate] at hfrom
  refine (reads_readLe hversion).bind ((reads_readLe hbits).bind ((reads_readLe htimestamp).bind
    ((readNetworkAddress_reads haddr).bind (hfrom.bind ((reads_readLe hnonce).bind
    ((decodeVarstr_reads hagent).bind ((reads_readLe hheight).bind fun t => ?_)))))))
  refine ((readRelay_reads m.relay).map _ t).trans ?_
  rw [ServiceMask.fromBitsTruncate_bits hservices]
  simp

theorem length_toBytes (m : MessageVersion) : 85 ≤ m.toBytes.length := by
  simp only [toBytes, List.length_append, leBytes_length, NetworkAddress.toBytes_length,
    List.length_replicate, List.length_singleton, writeVarstr]
  have hvarint : 1 ≤ (writeVarint (asBytes m.userAgent).length).length := by
    unfold writeVarint
    split_ifs <;> simp
  omega

theorem fromBytes_toBytes (hagent : (asBytes m.userAgent).length ≤ maxVarstrLength)
    (hservices : m.services.Known) (haddr : m.addrRecv.Plain) : fromBytes m.toBytes = some m := by
  rw [fromBytes, if_neg (not_lt.mpr m.length_toBytes)]
  exact (read_reads hagent hservices haddr).map_fst

end MessageVersion

/-- Every payload within the limits of its reader is read back. -/
theorem payloads_roundTrip :
    (∀ m : MessageInv, m.items.length ≤ 50000 → MessageInv.fromBytes m.toBytes = some m) ∧
    (∀ m : MessageGetHeaders, m.locatorHashes.length ≤ 101 →
      MessageGetHeaders.fromBytes m.toBytes = some m) ∧
    (∀ m : MessageHeaders, m.headers.length ≤ 2000 →
      MessageHeaders.fromBytes m.toBytes = some m) ∧
    (∀ m : MessageAddr, m.addrList.length ≤ 1000 → (∀ e ∈ m.addrList, e.address.Plain) →
      MessageAddr.fromBytes m.toBytes = some m) ∧
    ∀ m : MessageVersion, m.userAgent.utf8ByteSize ≤ 4096 → m.services.Known →
      m.addrRecv.Plain → MessageVersion.fromBytes m.toBytes = some m :=
  ⟨fun _ h => MessageInv.fromBytes_toBytes h, fun _ h => MessageGetHeaders.fromBytes_toBytes h,
    fun _ h => MessageHeaders.fromBytes_toBytes h,
    fun _ h hplain => MessageAddr.fromBytes_toBytes h hplain,
    fun _ h hservices haddr => MessageVersion.fromBytes_toBytes h hservices haddr⟩

def sampleVersion : MessageVersion where
  version := 70012
  services := ⟨ServiceMask.nodeNetwork⟩
  timestamp := 1700000000
  addrRecv := ⟨⟨ServiceMask.nodeNetwork⟩, .v4 0x05060708, 9933⟩
  nonce := 7
  userAgent := "/Ironcat:0.1.0/"
  startHeight := 12
  relay := false

theorem sampleVersion_roundTrip :
    sampleVersion.services.Known ∧
    MessageVersion.fromBytes sampleVersion.toBytes = some sampleVersion :=
  ⟨by decide, payloads_roundTrip.2.2.2.2 sampleVersion (by decide) (by decide)
    ⟨by decide, rfl⟩⟩

end Ironcat.Payloads
