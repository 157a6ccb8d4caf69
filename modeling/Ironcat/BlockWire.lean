import Ironcat.Types

/-!
# Reading blocks from bytes

`decode_varint` and the `from_cursor` readers of `types/`. A value within the
readers' limits is read back from its serialization, whatever follows it.
-/

namespace Ironcat.BlockWire

open Lib.ByteCodec Lib.ByteCodec.Reader Types

def maxScriptSize : ℕ := 10000

def maxTxInOut : ℕ := 25000

def maxBlockTxs : ℕ := 100000

def decodeWide (size least : ℕ) : Reader ℕ := do
  let n ← readLe size
  require (least ≤ n)
  return n

def decodeVarint : Reader ℕ := do
  let firstByte ← readLe 1
  if firstByte = 0xfd then decodeWide 2 0xfd
  else if firstByte = 0xfe then decodeWide 4 0x10000
  else if firstByte = 0xff then decodeWide 8 0x100000000
  else return firstByte

def readHash : Reader Hash256 := do
  let raw ← readLe 32
  return BitVec.ofNat 256 raw

def readHeader : Reader BlockHeader := do
  let version ← readLe 4
  let prevHash ← readHash
  let merkleRoot ← readHash
  let timestamp ← readLe 4
  let bits ← readLe 4
  let nonce ← readLe 4
  return ⟨(UInt32.ofNat version).toInt32, prevHash, merkleRoot, UInt32.ofNat timestamp,
    UInt32.ofNat bits, UInt32.ofNat nonce⟩

def readOutPoint : Reader OutPoint := do
  let txid ← readHash
  let index ← readLe 4
  return ⟨txid, UInt32.ofNat index⟩

def readScript : Reader Bytes := do
  let scriptLen ← decodeVarint
  require (scriptLen ≤ maxScriptSize)
  takeBytes scriptLen

def readTxIn : Reader TxIn := do
  let prevOutput ← readOutPoint
  let scriptSig ← readScript
  let sequence ← readLe 4
  return ⟨prevOutput, scriptSig, UInt32.ofNat sequence⟩

def readTxOut : Reader TxOut := do
  let value ← readLe 8
  let scriptPubkey ← readScript
  return ⟨(UInt64.ofNat value).toInt64, scriptPubkey⟩

def readCounted {α : Type} (max : ℕ) (r : Reader α) : Reader (List α) := do
  let count ← decodeVarint
  require (count ≤ max)
  readMany r count

def readTransaction : Reader Transaction := do
  let version ← readLe 4
  let vin ← readCounted maxTxInOut readTxIn
  let vout ← readCounted maxTxInOut readTxOut
  let locktime ← readLe 4
  return ⟨(UInt32.ofNat version).toInt32, vin, vout, UInt32.ofNat locktime⟩

def readBlock : Reader Block := do
  let header ← readHeader
  let transactions ← readCounted maxBlockTxs readTransaction
  return ⟨header, transactions⟩

/-- `Block::from_bytes`: bytes after the last transaction are ignored. -/
def fromBytes (bytes : Bytes) : Option Block := (readBlock bytes).map Prod.fst

theorem readHeader_of_fromBytes {bytes : Bytes} {block : Block} (h : fromBytes bytes = some block) :
    ∃ rest, readHeader bytes = some (block.header, rest) := by
  obtain ⟨⟨b, rest⟩, hread, rfl⟩ := Option.map_eq_some_iff.mp h
  obtain ⟨header, mid, hheader, hread⟩ := bind_eq_some.mp hread
  obtain ⟨transactions, mid', _, hread⟩ := bind_eq_some.mp hread
  cases hread
  exact ⟨mid, hheader⟩

theorem readHash_reads (h : Hash256) : Reads readHash h.asBytes h := by
  have hlt : h.toNat < 256 ^ 32 := h.isLt
  intro t
  have hread := ((reads_readLe hlt).map fun raw => BitVec.ofNat 256 raw) t
  rwa [BitVec.ofNat_toNat, BitVec.setWidth_eq] at hread

theorem readHeader_reads (h : BlockHeader) : Reads readHeader h.toBytes h := by
  have hversion : h.version.toUInt32.toNat < 256 ^ 4 := h.version.toUInt32.toNat_lt
  have htimestamp : h.timestamp.toNat < 256 ^ 4 := h.timestamp.toNat_lt
  have hbits : h.bits.toNat < 256 ^ 4 := h.bits.toNat_lt
  have hnonce : h.nonce.toNat < 256 ^ 4 := h.nonce.toNat_lt
  have hheader : (⟨(UInt32.ofNat h.version.toUInt32.toNat).toInt32, h.prevHash, h.merkleRoot,
      UInt32.ofNat h.timestamp.toNat, UInt32.ofNat h.bits.toNat, UInt32.ofNat h.nonce.toNat⟩ :
      BlockHeader) = h := by
    cases h
    simp
  simp only [BlockHeader.toBytes, List.append_assoc]
  refine (reads_readLe hversion).bind ((readHash_reads _).bind ((readHash_reads _).bind
    ((reads_readLe htimestamp).bind ((reads_readLe hbits).bind fun t => ?_))))
  exact ((reads_readLe hnonce).map _ t).trans (by rw [hheader])

theorem decodeWide_reads {size least n : ℕ} (hn : n < 256 ^ size) (hleast : least ≤ n) :
    Reads (decodeWide size least) (leBytes size n) n := by
  intro t
  refine bind_eq_some.mpr ⟨n, t, reads_readLe hn t, ?_⟩
  exact bind_eq_some.mpr ⟨(), t, if_pos hleast, rfl⟩

theorem decodeVarint_reads {n : ℕ} (hn : n < 256 ^ 8) :
    Reads decodeVarint (writeVarint n) n := by
  intro t
  have hmarker : ∀ (b : UInt8) (bs : Bytes), readLe 1 (b :: bs) = some (b.toNat, bs) := by
    intro b bs
    simp [readLe]
    rfl
  unfold decodeVarint writeVarint
  split_ifs with h₁ h₂ h₃
  · refine bind_eq_some.mpr ⟨n, t, reads_readLe (by omega) t, ?_⟩
    rw [if_neg (by omega), if_neg (by omega), if_neg (by omega)]
    rfl
  · refine bind_eq_some.mpr ⟨0xfd, _, hmarker 0xfd _, ?_⟩
    exact decodeWide_reads (by omega) (by omega) t
  · refine bind_eq_some.mpr ⟨0xfe, _, hmarker 0xfe _, ?_⟩
    exact decodeWide_reads (by omega) (by omega) t
  · refine bind_eq_some.mpr ⟨0xff, _, hmarker 0xff _, ?_⟩
    exact decodeWide_reads hn (by omega) t

theorem readOutPoint_reads (o : OutPoint) : Reads readOutPoint o.toBytes o := by
  have hindex : o.index.toNat < 256 ^ 4 := o.index.toNat_lt
  refine (readHash_reads o.txid).bind fun t => ?_
  exact ((reads_readLe hindex).map _ t).trans (by simp)

theorem readScript_reads {script : Bytes} (h : script.length ≤ maxScriptSize) :
    Reads readScript (writeVarint script.length ++ script) script := by
  have hlen : script.length < 256 ^ 8 := by
    unfold maxScriptSize at h
    omega
  exact (decodeVarint_reads hlen).bind ((reads_takeBytes script).require_bind h)

theorem readTxIn_reads {i : TxIn} (h : i.scriptSig.length ≤ maxScriptSize) :
    Reads readTxIn i.toBytes i := by
  have hsequence : i.sequence.toNat < 256 ^ 4 := i.sequence.toNat_lt
  rw [TxIn.toBytes, List.append_assoc, List.append_assoc, ← List.append_assoc (writeVarint _)]
  refine (readOutPoint_reads _).bind ((readScript_reads h).bind fun t => ?_)
  exact ((reads_readLe hsequence).map _ t).trans (by simp)

theorem readTxOut_reads {o : TxOut} (h : o.scriptPubkey.length ≤ maxScriptSize) :
    Reads readTxOut o.toBytes o := by
  have hvalue : o.value.toUInt64.toNat < 256 ^ 8 := o.value.toUInt64.toNat_lt
  rw [TxOut.toBytes, List.append_assoc]
  refine (reads_readLe hvalue).bind fun t => ?_
  exact ((readScript_reads h).map _ t).trans (by simp)

theorem readCounted_reads {α : Type} {max : ℕ} {r : Reader α} {encode : α → Bytes} {xs : List α}
    (hmax : max < 256 ^ 8) (hlen : xs.length ≤ max) (h : ∀ x ∈ xs, Reads r (encode x) x) :
    Reads (readCounted max r) (writeVarint xs.length ++ xs.flatMap encode) xs :=
  (decodeVarint_reads (by omega)).bind ((reads_readMany h).require_bind hlen)

/-- The limits of the readers. -/
structure Readable (tx : Transaction) : Prop where
  vin : tx.vin.length ≤ maxTxInOut
  vout : tx.vout.length ≤ maxTxInOut
  scriptSig : ∀ i ∈ tx.vin, i.scriptSig.length ≤ maxScriptSize
  scriptPubkey : ∀ o ∈ tx.vout, o.scriptPubkey.length ≤ maxScriptSize

theorem readTransaction_reads {tx : Transaction} (h : Readable tx) :
    Reads readTransaction tx.toBytes tx := by
  have hversion : tx.version.toUInt32.toNat < 256 ^ 4 := tx.version.toUInt32.toNat_lt
  have hlocktime : tx.locktime.toNat < 256 ^ 4 := tx.locktime.toNat_lt
  have hmax : maxTxInOut < 256 ^ 8 := by decide
  have hbytes : tx.toBytes = leBytes 4 tx.version.toUInt32.toNat ++
      ((writeVarint tx.vin.length ++ tx.vin.flatMap TxIn.toBytes) ++
      ((writeVarint tx.vout.length ++ tx.vout.flatMap TxOut.toBytes) ++
      leBytes 4 tx.locktime.toNat)) := by
    simp [Transaction.toBytes]
  rw [hbytes]
  refine (reads_readLe hversion).bind
    ((readCounted_reads hmax h.vin fun i hi => readTxIn_reads (h.scriptSig i hi)).bind
    ((readCounted_reads hmax h.vout fun o ho => readTxOut_reads (h.scriptPubkey o ho)).bind
    fun t => ?_))
  exact ((reads_readLe hlocktime).map _ t).trans (by simp)

def blockBytes (block : Block) : Bytes :=
  block.header.toBytes ++
    (writeVarint block.transactions.length ++ block.transactions.flatMap Transaction.toBytes)

end Ironcat.BlockWire
