import Ironcat.Lib.ByteCodec

/-!
# Hashes, transactions and blocks

The data types of `types/` with their wire serialization. A 256-bit hash is
kept as the number its 32 wire bytes spell in little-endian order. The hash
functions and the script interpreter are parameters, collected in `Primitives`.
-/

namespace Ironcat.Types

open Lib.ByteCodec

abbrev Hash256 := BitVec 256

instance lawfulBEqHash256 : LawfulBEq Hash256 := inferInstance

namespace Hash256

def zero : Hash256 := 0

def asBytes (h : Hash256) : Bytes := leBytes 32 h.toNat

end Hash256

/-- `write_varint` of `network.rs`, with the bytes returned instead of pushed. -/
def writeVarint (n : ℕ) : Bytes :=
  if n < 0xfd then leBytes 1 n
  else if n ≤ 0xffff then 0xfd :: leBytes 2 n
  else if n ≤ 0xffffffff then 0xfe :: leBytes 4 n
  else 0xff :: leBytes 8 n

structure OutPoint where
  txid : Hash256
  index : UInt32
deriving DecidableEq, Repr

namespace OutPoint

def coinbase : OutPoint := ⟨Hash256.zero, 0xFFFFFFFF⟩

def toBytes (o : OutPoint) : Bytes := o.txid.asBytes ++ leBytes 4 o.index.toNat

end OutPoint

structure TxIn where
  prevOutput : OutPoint
  scriptSig : Bytes
  sequence : UInt32
deriving DecidableEq, Repr

def TxIn.toBytes (i : TxIn) : Bytes :=
  i.prevOutput.toBytes ++ writeVarint i.scriptSig.length ++ i.scriptSig ++
    leBytes 4 i.sequence.toNat

structure TxOut where
  value : Int64
  scriptPubkey : Bytes
deriving DecidableEq, Repr

def TxOut.toBytes (o : TxOut) : Bytes :=
  leBytes 8 o.value.toUInt64.toNat ++ writeVarint o.scriptPubkey.length ++ o.scriptPubkey

structure Transaction where
  version : Int32
  vin : List TxIn
  vout : List TxOut
  locktime : UInt32
deriving DecidableEq, Repr

namespace Transaction

def toBytes (tx : Transaction) : Bytes :=
  leBytes 4 tx.version.toUInt32.toNat ++
    writeVarint tx.vin.length ++ tx.vin.flatMap TxIn.toBytes ++
    writeVarint tx.vout.length ++ tx.vout.flatMap TxOut.toBytes ++
    leBytes 4 tx.locktime.toNat

def isCoinbase (tx : Transaction) : Bool :=
  match tx.vin with
  | [input] => input.prevOutput = OutPoint.coinbase
  | _ => false

def prevOutputs (tx : Transaction) : List OutPoint := tx.vin.map TxIn.prevOutput

end Transaction

structure BlockHeader where
  version : Int32
  prevHash : Hash256
  merkleRoot : Hash256
  timestamp : UInt32
  bits : UInt32
  nonce : UInt32
deriving DecidableEq, Repr

def headerSize : ℕ := 80

def BlockHeader.toBytes (h : BlockHeader) : Bytes :=
  leBytes 4 h.version.toUInt32.toNat ++ h.prevHash.asBytes ++ h.merkleRoot.asBytes ++
    leBytes 4 h.timestamp.toNat ++ leBytes 4 h.bits.toNat ++ leBytes 4 h.nonce.toNat

theorem BlockHeader.toBytes_length (h : BlockHeader) : h.toBytes.length = headerSize := by
  simp [BlockHeader.toBytes, Hash256.asBytes, headerSize]

structure Block where
  header : BlockHeader
  transactions : List Transaction
deriving DecidableEq, Repr

/-- An order in which a set or map keyed by hashes is iterated. -/
structure IterOrder where
  list : List Hash256 → List Hash256
  perm : ∀ l, (list l).Perm l

def IterOrder.id : IterOrder := ⟨fun l => l, List.Perm.refl⟩

/-- What the modelled code calls and does not define: SHA-256 twice over, the
scrypt proof-of-work hash, the script interpreter applied to an unlocking
script, a locking script, the spending transaction and the input's index, and
the floating-point formula of the CIP04 controller as a function of the error,
the average timespan and the target spacing. -/
structure Primitives where
  doubleSha256 : Bytes → Hash256
  scryptHash : Bytes → Hash256
  verifyScript : Bytes → Bytes → Transaction → ℕ → Bool
  pidResult : ℤ → ℤ → ℤ → ℤ

def Transaction.txid (P : Primitives) (tx : Transaction) : Hash256 := P.doubleSha256 tx.toBytes

def BlockHeader.blockHash (P : Primitives) (h : BlockHeader) : Hash256 :=
  P.doubleSha256 h.toBytes

/-! ## A concrete instance

A polynomial hash stands in for SHA-256 where a run is exhibited. -/

def polyHash (bs : Bytes) : Hash256 :=
  BitVec.ofNat 256 (bs.foldl (fun h b => (h * 257 + b.toNat + 1) % 2 ^ 256) 0)

def poly : Primitives where
  doubleSha256 := polyHash
  scryptHash _ := 0
  verifyScript _ _ _ _ := true
  pidResult _ _ _ := 0

def coinbaseTx (tag : UInt8) (value : Int64) : Transaction where
  version := 1
  vin := [⟨OutPoint.coinbase, [tag, tag], 0⟩]
  vout := [⟨value, []⟩]
  locktime := 0

def blockOn (prevHash : Hash256) (nonce : UInt32) (transactions : List Transaction) : Block where
  header := ⟨1, prevHash, 0, 0, 0, nonce⟩
  transactions := transactions

end Ironcat.Types
