import Ironcat.Types

/-!
# Coins and undo records

The coins of the UTXO set and the records of spent coins written when a block
is connected, with the byte formats of `chainstate/coin.rs` and
`chainstate/undo.rs`. Lengths and counts are cut to 32 bits when written. The
main fact is that decoding a record that was cut short never yields a wrong
record.
-/

namespace Ironcat.Undo

open Lib.ByteCodec Lib.ByteCodec.Reader Types

structure Coin where
  txOut : TxOut
  height : UInt32
  isCoinbase : Bool
deriving DecidableEq, Repr

namespace Coin

def toBytes (c : Coin) : Bytes :=
  leBytes 4 c.height.toNat ++ (leBytes 1 c.isCoinbase.toNat ++
    (leBytes 8 c.txOut.value.toUInt64.toNat ++
      (leBytes 4 c.txOut.scriptPubkey.length ++ c.txOut.scriptPubkey)))

def fromCursor : Reader Coin := do
  let height ← readLe 4
  let flag ← readLe 1
  let value ← readLe 8
  let scriptLen ← readLe 4
  let scriptPubkey ← takeBytes scriptLen
  return ⟨⟨(UInt64.ofNat value).toInt64, scriptPubkey⟩, UInt32.ofNat height, flag ≠ 0⟩

def fromBytes (data : Bytes) : Option Coin := (fromCursor data).map (·.1)

theorem fromCursor_stable : Stable fromCursor :=
  (stable_readLe 4).bind fun _ => (stable_readLe 1).bind fun _ => (stable_readLe 8).bind fun _ =>
    (stable_readLe 4).bind fun n => (stable_takeBytes n).bind fun _ => Stable.pure _

theorem fromCursor_reads {c : Coin} (h : c.txOut.scriptPubkey.length < 256 ^ 4) :
    Reads fromCursor c.toBytes c := by
  have hheight : c.height.toNat < 256 ^ 4 := c.height.toNat_lt
  have hflag : c.isCoinbase.toNat < 256 ^ 1 := by cases c.isCoinbase <;> decide
  have hvalue : c.txOut.value.toUInt64.toNat < 256 ^ 8 := c.txOut.value.toUInt64.toNat_lt
  refine (reads_readLe hheight).bind ((reads_readLe hflag).bind ((reads_readLe hvalue).bind
    ((reads_readLe h).bind ?_)))
  have hcoin : (⟨⟨(UInt64.ofNat c.txOut.value.toUInt64.toNat).toInt64, c.txOut.scriptPubkey⟩,
      UInt32.ofNat c.height.toNat, c.isCoinbase.toNat ≠ 0⟩ : Coin) = c := by
    obtain ⟨⟨value, script⟩, height, isCoinbase⟩ := c
    cases isCoinbase <;> simp
  have hread := (reads_takeBytes c.txOut.scriptPubkey).map fun script =>
    (⟨⟨(UInt64.ofNat c.txOut.value.toUInt64.toNat).toInt64, script⟩,
      UInt32.ofNat c.height.toNat, c.isCoinbase.toNat ≠ 0⟩ : Coin)
  intro t
  exact (hread t).trans (by rw [hcoin])

theorem fromBytes_prefixExact {c : Coin} (h : c.txOut.scriptPubkey.length < 256 ^ 4) :
    PrefixExact c.toBytes fromBytes c :=
  prefixExact_of_stable fromCursor_stable (fromCursor_reads h)

theorem fromBytes_toBytes {c : Coin} (h : c.toBytes.length < 256 ^ 4) :
    fromBytes c.toBytes = some c := by
  have hscript : c.txOut.scriptPubkey.length < 256 ^ 4 := by
    simp only [toBytes, List.length_append, leBytes_length] at h
    omega
  exact (fromCursor_reads hscript).map_fst

end Coin

structure TxUndo where
  spentOutputs : List Coin
deriving DecidableEq, Repr

namespace TxUndo

def toBytes (u : TxUndo) : Bytes := encodeSeq Coin.toBytes u.spentOutputs

def fromBytes (data : Bytes) : Option TxUndo := (decodeSeq Coin.fromBytes data).map TxUndo.mk

structure Encodable (u : TxUndo) : Prop where
  count : u.spentOutputs.length < 256 ^ 4
  scripts : ∀ c ∈ u.spentOutputs, c.txOut.scriptPubkey.length < 256 ^ 4

theorem fromBytes_prefixExact {u : TxUndo} (h : u.Encodable) :
    PrefixExact u.toBytes fromBytes u :=
  (decodeSeq_prefixExact h.count fun c hc => Coin.fromBytes_prefixExact (h.scripts c hc)).map
    TxUndo.mk

theorem fromBytes_toBytes {u : TxUndo} (h : u.toBytes.length < 256 ^ 4) :
    fromBytes u.toBytes = some u :=
  Option.map_eq_some_iff.mpr ⟨u.spentOutputs, decodeSeq_encodeSeq h fun c hc =>
    Coin.fromBytes_toBytes (((le_length_encodeSeq _ _).2 c hc).trans_lt h), rfl⟩

end TxUndo

structure BlockUndo where
  txUndos : List TxUndo
deriving DecidableEq, Repr

namespace BlockUndo

def toBytes (u : BlockUndo) : Bytes := encodeSeq TxUndo.toBytes u.txUndos

def fromBytes (data : Bytes) : Option BlockUndo :=
  (decodeSeq TxUndo.fromBytes data).map BlockUndo.mk

structure Encodable (u : BlockUndo) : Prop where
  count : u.txUndos.length < 256 ^ 4
  txUndos : ∀ t ∈ u.txUndos, t.Encodable

theorem fromBytes_prefixExact {u : BlockUndo} (h : u.Encodable) :
    PrefixExact u.toBytes fromBytes u :=
  (decodeSeq_prefixExact h.count fun t ht => TxUndo.fromBytes_prefixExact (h.txUndos t ht)).map
    BlockUndo.mk

theorem fromBytes_toBytes {u : BlockUndo} (h : u.toBytes.length < 256 ^ 4) :
    fromBytes u.toBytes = some u :=
  Option.map_eq_some_iff.mpr ⟨u.txUndos, decodeSeq_encodeSeq h fun t ht =>
    TxUndo.fromBytes_toBytes (((le_length_encodeSeq _ _).2 t ht).trans_lt h), rfl⟩

end BlockUndo

end Ironcat.Undo
