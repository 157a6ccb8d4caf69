import Ironcat.Chainstate
import Mathlib.Data.Int.Log

/-!
# The mempool

`Mempool` of `mempool/mod.rs`: unconfirmed transactions by txid and the index
of the outpoints they spend. Fee rates are the doubles of the source as
rationals; the iteration order of the transaction map is left to an
`IterOrder`. The time a transaction was added and the relay channel are left
out.
-/

namespace Ironcat.Mempool

open Lib.Checked Lib.FiniteMap Types Validation Chainstate

def maxMempoolSize : ℕ := 50 * 1024 * 1024

def maxTxSize : ℕ := 100 * 1024

def minRelayFeeRate : ℚ := 1

def roundHalfEven (q : ℚ) : ℤ :=
  let n := ⌊q⌋
  let r := q - n
  if r < 1 / 2 then n else if 1 / 2 < r then n + 1 else if n % 2 = 0 then n else n + 1

def toF64 (q : ℚ) : ℚ :=
  if q = 0 then 0
  else
    let ulp : ℚ := 2 ^ (Int.log 2 |q| - 52)
    roundHalfEven (q / ulp) * ulp

def feeRate (fee size : ℕ) : ℚ := toF64 (toF64 fee / toF64 size)

structure MempoolEntry where
  tx : Transaction
  fee : ℕ
  size : ℕ
  feeRate : ℚ
deriving DecidableEq, Repr

structure Pool where
  txs : AList (fun _ : Hash256 => MempoolEntry)
  spends : Map OutPoint Hash256
  totalSize : ℕ
  maxSize : ℕ

inductive AcceptError
  | invalid (error : TxError)
  | coinbase
  | tooLarge (size : ℕ)
  | duplicate (txid : Hash256)
  | doubleSpend (outpoint : OutPoint)
  | noParentOutput (outpoint : OutPoint)
  | inputNotFound (outpoint : OutPoint)
  | inputOverflow
  | outputsExceedInputs (inputSum outputSum : ℤ)
  | feeTooLow (feeRate : ℚ)
  | scriptNotFound (inputIdx : ℕ)
  | scriptFailed (inputIdx : ℕ)
deriving DecidableEq, Repr

namespace Pool

def empty (maxSize : ℕ) : Pool := ⟨∅, ∅, 0, maxSize⟩

def new : Pool := empty maxMempoolSize

def contains (pool : Pool) (txid : Hash256) : Bool := txid ∈ pool.txs

def drop (pool : Pool) (txid : Hash256) (entry : MempoolEntry) : Pool :=
  { pool with
    txs := pool.txs.erase txid
    spends := eraseAll pool.spends entry.tx.prevOutputs
    totalSize := pool.totalSize - entry.size }

def children (pool : Pool) (txid : Hash256) (entry : MempoolEntry) : List Hash256 :=
  entry.tx.vout.zipIdx.filterMap fun (_, i) => pool.spends.lookup (outputOutpoint txid i)

/-- The loop of `remove_with_descendants`, with the stack's top first. Txids
that are no longer in the pool are popped without effect. -/
def removeLoop : ℕ → Pool → List Hash256 → Pool
  | 0, pool, _ => pool
  | fuel+1, pool, toRemove =>
    match toRemove.dropWhile fun txid => !pool.contains txid with
    | [] => pool
    | current :: rest =>
      match pool.txs.lookup current with
      | none => pool
      | some entry =>
        let pool := pool.drop current entry
        removeLoop fuel pool ((pool.children current entry).reverse ++ rest)

def removeWithDescendants (pool : Pool) (txid : Hash256) : Pool :=
  pool.removeLoop (pool.txs.keys.length + 1) [txid]

/-- `min_by` on fee rates: the first transaction of least fee rate. -/
def worst (pool : Pool) (ord : IterOrder) : Option Hash256 :=
  let rates := (ord.list pool.txs.keys).filterMap fun txid =>
    (pool.txs.lookup txid).map fun e => (txid, e.feeRate)
  (rates.foldl (fun best e =>
    match best with
    | none => some e
    | some b => if e.2 < b.2 then some e else some b) none).map Prod.fst

def evictLoop (ord : IterOrder) : ℕ → Pool → Pool
  | 0, pool => pool
  | fuel+1, pool =>
    if pool.maxSize < pool.totalSize then
      match pool.worst ord with
      | none => pool
      | some txid => evictLoop ord fuel (pool.removeWithDescendants txid)
    else pool

section

variable (P : Primitives) (ord : IterOrder)

def evictIfNeeded (pool : Pool) : Pool :=
  evictLoop ord (pool.txs.keys.length + 1) pool

def resolveInputValue (pool : Pool) (outpoint : OutPoint) (cs : ChainState) :
    Except AcceptError ℤ :=
  match cs.utxos.lookup outpoint with
  | some coin => return coin.txOut.value.toInt
  | none =>
    match pool.txs.lookup outpoint.txid with
    | some parent => do
      let output ← okOr (.noParentOutput outpoint) parent.tx.vout[outpoint.index.toNat]?
      return output.value.toInt
    | none => .error (.inputNotFound outpoint)

def addInput (pool : Pool) (cs : ChainState) (inputSum : ℤ) (input : TxIn) :
    Except AcceptError ℤ := do
  ensure (input.prevOutput ∉ pool.spends) (.doubleSpend input.prevOutput)
  let value ← pool.resolveInputValue input.prevOutput cs
  okOr .inputOverflow (checkedAdd inputSum value)

def inputScript (pool : Pool) (cs : ChainState) (input : TxIn × ℕ) :
    Except AcceptError Lib.ByteCodec.Bytes :=
  match cs.utxos.lookup input.1.prevOutput with
  | some coin => return coin.txOut.scriptPubkey
  | none =>
    match pool.txs.lookup input.1.prevOutput.txid with
    | some parent => do
      let output ← okOr (.noParentOutput input.1.prevOutput)
        parent.tx.vout[input.1.prevOutput.index.toNat]?
      return output.scriptPubkey
    | none => .error (.scriptNotFound input.2)

def verifyInput (pool : Pool) (cs : ChainState) (tx : Transaction) (input : TxIn × ℕ) :
    Except AcceptError Unit := do
  let scriptPubkey ← pool.inputScript cs input
  ensure (P.verifyScript input.1.scriptSig scriptPubkey tx input.2) (.scriptFailed input.2)

/-- Adds an entry with its inputs to the two maps. The size counter is at most
the bytes held in memory, so `saturating_add` is the sum. -/
def insert (pool : Pool) (txid : Hash256) (entry : MempoolEntry) : Pool :=
  { pool with
    txs := pool.txs.insert txid entry
    spends := insertAll pool.spends (entry.tx.prevOutputs.map fun o => (o, txid))
    totalSize := pool.totalSize + entry.size }

def acceptTx (pool : Pool) (tx : Transaction) (cs : ChainState) :
    Except AcceptError (Pool × Hash256) := do
  (checkTransaction tx).mapError .invalid
  ensure (¬ tx.isCoinbase) .coinbase
  let size := tx.toBytes.length
  ensure (size ≤ maxTxSize) (.tooLarge size)
  let txid := tx.txid P
  ensure (txid ∉ pool.txs) (.duplicate txid)
  let inputSum ← tx.vin.foldlM (pool.addInput cs) 0
  let outputSum := (outputValues tx).sum
  ensure (outputSum ≤ inputSum) (.outputsExceedInputs inputSum outputSum)
  let fee := (inputSum - outputSum).toNat
  ensure (minRelayFeeRate ≤ feeRate fee size) (.feeTooLow (feeRate fee size))
  forM tx.vin.zipIdx (pool.verifyInput P cs tx)
  return ((pool.insert txid ⟨tx, fee, size, feeRate fee size⟩).evictIfNeeded ord, txid)

/-- Step 1 of `remove_block_txs` for one transaction. -/
def removeConfirmed (pool : Pool) (txid : Hash256) : Pool :=
  match pool.txs.lookup txid with
  | some entry => pool.drop txid entry
  | none => pool

/-- Step 2 of `remove_block_txs` for one transaction. -/
def conflicts (pool : Pool) (txid : Hash256) (tx : Transaction) : List Hash256 :=
  if tx.isCoinbase then []
  else (tx.prevOutputs.filterMap pool.spends.lookup).filter fun c => c ≠ txid

def confirmTx (st : Pool × List Hash256) (tx : Transaction) : Pool × List Hash256 :=
  let txid := tx.txid P
  let pool := st.1.removeConfirmed txid
  (pool, st.2 ++ pool.conflicts txid tx)

def removeConflict (pool : Pool) (txid : Hash256) : Pool :=
  if pool.contains txid then pool.removeWithDescendants txid else pool

def removeBlockTxs (pool : Pool) (block : Block) : Pool :=
  let (pool, conflicting) := block.transactions.foldl (confirmTx P) (pool, [])
  conflicting.foldl removeConflict pool

structure Readd where
  pool : Pool
  remaining : List Transaction
  added : UInt32
  progress : Bool

def readdTx (cs : ChainState) (st : Readd) (tx : Transaction) : Readd :=
  match st.pool.acceptTx P ord tx cs with
  | .ok (pool, _) => ⟨pool, st.remaining, saturatingSucc st.added, true⟩
  | .error _ => { st with remaining := st.remaining ++ [tx] }

/-- The passes of `readd_disconnected_txs`; every pass but the last accepts a
transaction. -/
def readdLoop (P : Primitives) (ord : IterOrder) (cs : ChainState) :
    ℕ → Pool → List Transaction → UInt32 → Pool × UInt32
  | 0, pool, _, added => (pool, added)
  | fuel+1, pool, pending, added =>
    if pending = [] then (pool, added)
    else
      let st := pending.foldl (readdTx P ord cs) ⟨pool, [], added, false⟩
      if st.progress then readdLoop P ord cs fuel st.pool st.remaining st.added
      else (st.pool, st.added)

def readdDisconnectedTxs (pool : Pool) (txs : List Transaction) (cs : ChainState) : Pool × UInt32 :=
  let pending := txs.filter fun tx => !tx.isCoinbase
  readdLoop P ord cs (pending.length + 1) pool pending 0

end

end Pool

end Ironcat.Mempool
