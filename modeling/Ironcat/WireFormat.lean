import Ironcat.BlockWire
import Ironcat.Validation

/-!
# The wire format

The readers of `types/` accept nothing but what the writers produce: a varint
has one encoding that `decode_varint` accepts, and every reader consumes the
serialization of the value it returns. A txid is therefore the hash of the bytes
received, and the size that `check_block` limits is the size on the wire.
-/

namespace Ironcat.WireFormat

open Lib.ByteCodec Lib.ByteCodec.Reader Types Validation BlockWire

theorem decodeWide_exact {size least n : ℕ} {bs rest : Bytes}
    (h : decodeWide size least bs = some (n, rest)) :
    bs = leBytes size n ++ rest ∧ n < 256 ^ size ∧ least ≤ n := by
  obtain ⟨m, mid, hm, h⟩ := bind_eq_some.mp h
  obtain ⟨_, mid', hcheck, h⟩ := bind_eq_some.mp h
  cases h
  obtain ⟨hleast, rfl⟩ := require_eq_some hcheck
  obtain ⟨hbs, hlt⟩ := readLe_exact hm
  exact ⟨hbs, hlt, hleast⟩

theorem exact_decodeVarint : Exact decodeVarint writeVarint := by
  intro bs n rest hread
  obtain ⟨firstByte, mid, hfirst, h⟩ := bind_eq_some.mp hread
  obtain ⟨hbs, hbyte⟩ := readLe_exact hfirst
  rw [hbs]
  unfold writeVarint
  split_ifs at h with hfd hfe hff
  · obtain ⟨rfl, hlt, hleast⟩ := decodeWide_exact h
    rw [if_neg (by omega), if_pos (by omega), hfd]
    rfl
  · obtain ⟨rfl, hlt, hleast⟩ := decodeWide_exact h
    rw [if_neg (by omega), if_neg (by omega), if_pos (by omega), hfe]
    rfl
  · obtain ⟨rfl, hlt, hleast⟩ := decodeWide_exact h
    rw [if_neg (by omega), if_neg (by omega), if_neg (by omega), hff]
    rfl
  · cases h
    rw [if_pos (by omega)]

theorem exact_readHash : Exact readHash Hash256.asBytes := by
  intro bs hash rest h
  obtain ⟨raw, mid, hraw, h⟩ := bind_eq_some.mp h
  cases h
  obtain ⟨hbs, hlt⟩ := readLe_exact hraw
  have htoNat : (BitVec.ofNat 256 raw).toNat = raw := Nat.mod_eq_of_lt hlt
  rw [hbs, Hash256.asBytes, htoNat]

theorem exact_readOutPoint : Exact readOutPoint OutPoint.toBytes := by
  intro bs o rest h
  obtain ⟨txid, mid, htxid, h⟩ := bind_eq_some.mp h
  obtain ⟨index, mid', hindex, h⟩ := bind_eq_some.mp h
  cases h
  obtain ⟨rfl, hlt⟩ := readLe_exact hindex
  have htoNat : (UInt32.ofNat index).toNat = index := UInt32.toNat_ofNat_of_lt' hlt
  rw [exact_readHash bs txid _ htxid, OutPoint.toBytes, htoNat, List.append_assoc]

theorem exact_readScript :
    Exact readScript fun script => writeVarint script.length ++ script := by
  intro bs script rest h
  obtain ⟨scriptLen, mid, hlen, hscript⟩ := bind_eq_some.mp h
  obtain ⟨_, mid', hmax, htake⟩ := bind_eq_some.mp hscript
  obtain ⟨_, rfl⟩ := require_eq_some hmax
  obtain ⟨rfl, rfl⟩ := takeBytes_exact htake
  rw [exact_decodeVarint bs _ _ hlen, List.append_assoc]

theorem exact_readTxIn : Exact readTxIn TxIn.toBytes := by
  intro bs i rest h
  obtain ⟨prevOutput, mid, hprev, h⟩ := bind_eq_some.mp h
  obtain ⟨scriptSig, mid', hscript, h⟩ := bind_eq_some.mp h
  obtain ⟨sequence, mid'', hsequence, h⟩ := bind_eq_some.mp h
  cases h
  obtain ⟨rfl, hlt⟩ := readLe_exact hsequence
  have htoNat : (UInt32.ofNat sequence).toNat = sequence := UInt32.toNat_ofNat_of_lt' hlt
  rw [exact_readOutPoint bs _ _ hprev, exact_readScript mid _ _ hscript, TxIn.toBytes, htoNat]
  simp only [List.append_assoc]

theorem exact_readTxOut : Exact readTxOut TxOut.toBytes := by
  intro bs o rest h
  obtain ⟨value, mid, hvalue, h⟩ := bind_eq_some.mp h
  obtain ⟨scriptPubkey, mid', hscript, h⟩ := bind_eq_some.mp h
  cases h
  obtain ⟨rfl, hlt⟩ := readLe_exact hvalue
  have htoNat : (UInt64.ofNat value).toInt64.toUInt64.toNat = value := UInt64.toNat_ofNat_of_lt' hlt
  rw [exact_readScript mid _ _ hscript, TxOut.toBytes, htoNat]
  simp only [List.append_assoc]

theorem exact_readCounted {α : Type} {max : ℕ} {r : Reader α} {encode : α → Bytes}
    (hr : Exact r encode) :
    Exact (readCounted max r) fun xs => writeVarint xs.length ++ xs.flatMap encode := by
  intro bs xs rest h
  obtain ⟨count, mid, hcount, hentries⟩ := bind_eq_some.mp h
  obtain ⟨_, mid', hmax, hmany⟩ := bind_eq_some.mp hentries
  obtain ⟨_, rfl⟩ := require_eq_some hmax
  obtain ⟨rfl, rfl⟩ := readMany_exact hr hmany
  rw [exact_decodeVarint bs _ _ hcount, List.append_assoc]

theorem exact_readTransaction : Exact readTransaction Transaction.toBytes := by
  intro bs tx rest h
  obtain ⟨version, mid, hversion, h⟩ := bind_eq_some.mp h
  obtain ⟨vin, mid₁, hvin, h⟩ := bind_eq_some.mp h
  obtain ⟨vout, mid₂, hvout, h⟩ := bind_eq_some.mp h
  obtain ⟨locktime, mid₃, hlocktime, h⟩ := bind_eq_some.mp h
  cases h
  obtain ⟨rfl, hvlt⟩ := readLe_exact hversion
  obtain ⟨rfl, hllt⟩ := readLe_exact hlocktime
  have hversionNat : (UInt32.ofNat version).toInt32.toUInt32.toNat = version :=
    UInt32.toNat_ofNat_of_lt' hvlt
  have hlocktimeNat : (UInt32.ofNat locktime).toNat = locktime := UInt32.toNat_ofNat_of_lt' hllt
  rw [exact_readCounted exact_readTxIn mid _ _ hvin,
    exact_readCounted exact_readTxOut mid₁ _ _ hvout, Transaction.toBytes, hversionNat,
    hlocktimeNat]
  simp only [List.append_assoc]

theorem exact_readHeader : Exact readHeader BlockHeader.toBytes := by
  intro bs header rest h
  obtain ⟨version, mid, hversion, h⟩ := bind_eq_some.mp h
  obtain ⟨prevHash, mid₁, hprev, h⟩ := bind_eq_some.mp h
  obtain ⟨merkleRoot, mid₂, hmerkle, h⟩ := bind_eq_some.mp h
  obtain ⟨timestamp, mid₃, htimestamp, h⟩ := bind_eq_some.mp h
  obtain ⟨bits, mid₄, hbits, h⟩ := bind_eq_some.mp h
  obtain ⟨nonce, mid₅, hnonce, h⟩ := bind_eq_some.mp h
  cases h
  obtain ⟨rfl, hvlt⟩ := readLe_exact hversion
  obtain ⟨rfl, htlt⟩ := readLe_exact htimestamp
  obtain ⟨rfl, hblt⟩ := readLe_exact hbits
  obtain ⟨rfl, hnlt⟩ := readLe_exact hnonce
  have hversionNat : (UInt32.ofNat version).toInt32.toUInt32.toNat = version :=
    UInt32.toNat_ofNat_of_lt' hvlt
  have htimestampNat : (UInt32.ofNat timestamp).toNat = timestamp := UInt32.toNat_ofNat_of_lt' htlt
  have hbitsNat : (UInt32.ofNat bits).toNat = bits := UInt32.toNat_ofNat_of_lt' hblt
  have hnonceNat : (UInt32.ofNat nonce).toNat = nonce := UInt32.toNat_ofNat_of_lt' hnlt
  rw [exact_readHash mid _ _ hprev, exact_readHash mid₁ _ _ hmerkle, BlockHeader.toBytes,
    hversionNat, htimestampNat, hbitsNat, hnonceNat]
  simp only [List.append_assoc]

theorem exact_readBlock : Exact readBlock blockBytes := by
  intro bs block rest h
  obtain ⟨header, mid, hheader, h⟩ := bind_eq_some.mp h
  obtain ⟨transactions, mid', htxs, h⟩ := bind_eq_some.mp h
  cases h
  rw [exact_readHeader bs _ _ hheader, exact_readCounted exact_readTransaction mid _ _ htxs,
    blockBytes]
  simp only [List.append_assoc]

theorem length_writeVarint (n : ℕ) : (writeVarint n).length = varintSize n := by
  unfold writeVarint varintSize
  split_ifs <;> simp

theorem length_blockBytes (block : Block) : (blockBytes block).length = blockSerializedSize block := by
  simp [blockBytes, blockSerializedSize, BlockHeader.toBytes_length, length_writeVarint,
    List.length_flatMap, Nat.add_assoc]

/-- Transactions are read back from their bytes, nothing but these bytes is read
as them, and the size of a block is the number of bytes it was read from. -/
theorem wire_format_exact (P : Primitives) :
    (∀ tx, Readable tx → ∀ suffix, readTransaction (tx.toBytes ++ suffix) = some (tx, suffix)) ∧
    (∀ bytes tx rest, readTransaction bytes = some (tx, rest) →
      ∃ consumed, bytes = consumed ++ rest ∧ tx.toBytes = consumed ∧
        tx.txid P = P.doubleSha256 consumed) ∧
    ∀ bytes block, fromBytes bytes = some block →
      ∃ consumed rest, readBlock bytes = some (block, rest) ∧ bytes = consumed ++ rest ∧
        blockSerializedSize block = consumed.length := by
  refine ⟨fun tx h => readTransaction_reads h, fun bytes tx rest h => ?_, fun bytes block h => ?_⟩
  · exact ⟨tx.toBytes, exact_readTransaction bytes tx rest h, rfl, rfl⟩
  · obtain ⟨⟨b, rest⟩, hread, rfl⟩ := Option.map_eq_some_iff.mp h
    exact ⟨blockBytes b, rest, hread, exact_readBlock bytes b rest hread, (length_blockBytes b).symm⟩

end Ironcat.WireFormat
