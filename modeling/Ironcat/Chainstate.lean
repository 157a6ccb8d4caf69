import Ironcat.Lib.UndoLog
import Ironcat.UndoFiles
import Ironcat.Validation

/-!
# Connecting and disconnecting blocks

`ChainState::connect_block` and `ChainState::disconnect_block`. The database
transaction is modelled by the returned state: an error leaves the caller with
the state it had. The UTXO table is kept as a map to coins rather than to
their serialized form.
-/

namespace Ironcat.Chainstate

open Lib.Checked Lib.FiniteMap Types Undo UndoFiles Validation

abbrev Utxos := Map OutPoint Coin

structure ChainState where
  utxos : Utxos
  undoStore : UndoStore
  undoIndex : UndoIndex
  tip : Hash256 × UInt32
  scriptVerifyHeight : UInt32

def coinbaseMaturity : ℕ := 100

inductive ConnectError
  | unexpectedHeight (expected got : UInt32)
  | noTransactions
  | noInputs (txid : Hash256)
  | missingUtxo (outpoint : OutPoint)
  | immatureCoinbase (confirmations : ℕ)
  | inputSumOverflow
  | scriptFailed (inputIdx : ℕ) (txid : Hash256)
  | outputSumOverflow
  | outputsExceedInputs (txid : Hash256) (outputSum inputSum : ℤ)
  | feeOverflow
  | coinbaseSumOverflow
  | subsidyOverflow
  | coinbaseTooLarge (value max subsidy fees : ℤ)
  | undo (error : UndoError)
deriving DecidableEq, Repr

def saturatingSucc (h : UInt32) : UInt32 := if h = 0xFFFFFFFF then h else h + 1

theorem toNat_saturatingSucc {h : UInt32} (hmax : h ≠ 0xFFFFFFFF) :
    (saturatingSucc h).toNat = h.toNat + 1 := by
  rw [saturatingSucc, if_neg hmax]
  have hne : h.toNat ≠ 4294967295 := fun heq => hmax (UInt32.toNat_inj.mp heq)
  have hlt := h.toNat_lt
  rw [UInt32.toNat_add, UInt32.toNat_one]
  exact Nat.mod_eq_of_lt (by omega)

theorem saturatingSucc_ne_zero (h : UInt32) : saturatingSucc h ≠ 0 := by
  by_cases hmax : h = 0xFFFFFFFF
  · rw [saturatingSucc, if_pos hmax, hmax]
    decide
  · intro hzero
    have hsucc := toNat_saturatingSucc hmax
    rw [hzero] at hsucc
    exact Nat.succ_ne_zero _ hsucc.symm

def outputOutpoint (txid : Hash256) (voutIdx : ℕ) : OutPoint := ⟨txid, UInt32.ofNat voutIdx⟩

def outputEntries (txid : Hash256) (vout : List TxOut) (height : UInt32) (isCoinbase : Bool) :
    List (OutPoint × Coin) :=
  vout.zipIdx.map fun (output, i) => (outputOutpoint txid i, ⟨output, height, isCoinbase⟩)

def insertOutputs (utxos : Utxos) (txid : Hash256) (vout : List TxOut) (height : UInt32)
    (isCoinbase : Bool) : Utxos :=
  insertAll utxos (outputEntries txid vout height isCoinbase)

structure SpendState where
  utxos : Utxos
  inputSum : ℤ
  spentOutputs : List Coin

def spendInput (height : UInt32) (st : SpendState) (input : TxIn) :
    Except ConnectError SpendState := do
  let coin ← okOr (.missingUtxo input.prevOutput) (st.utxos.lookup input.prevOutput)
  let confirmations := height.toNat - coin.height.toNat
  ensure (¬ (coin.isCoinbase ∧ confirmations < coinbaseMaturity)) (.immatureCoinbase confirmations)
  let inputSum ← okOr .inputSumOverflow (checkedAdd st.inputSum coin.txOut.value.toInt)
  return ⟨st.utxos.erase input.prevOutput, inputSum, st.spentOutputs ++ [coin]⟩

def verifyScripts (P : Primitives) (scriptVerifyHeight height : UInt32) (tx : Transaction)
    (spentOutputs : List Coin) : Except ConnectError Unit :=
  if scriptVerifyHeight < height then
    forM (tx.vin.zip spentOutputs).zipIdx fun ((input, coin), inputIdx) =>
      ensure (P.verifyScript input.scriptSig coin.txOut.scriptPubkey tx inputIdx)
        (.scriptFailed inputIdx (tx.txid P))
  else
    return ()

structure ConnectState where
  utxos : Utxos
  txUndos : List TxUndo
  totalFees : ℤ

def connectTx (P : Primitives) (scriptVerifyHeight height : UInt32) (st : ConnectState)
    (tx : Transaction) : Except ConnectError ConnectState :=
  let txid := tx.txid P
  if tx.isCoinbase then
    return { st with utxos := insertOutputs st.utxos txid tx.vout height true }
  else do
    ensure (tx.vin ≠ []) (.noInputs txid)
    let spend ← tx.vin.foldlM (spendInput height) ⟨st.utxos, 0, []⟩
    verifyScripts P scriptVerifyHeight height tx spend.spentOutputs
    let outputSum ← okOr .outputSumOverflow (checkedSum (outputValues tx))
    ensure (outputSum ≤ spend.inputSum) (.outputsExceedInputs txid outputSum spend.inputSum)
    let totalFees ← okOr .feeOverflow (checkedAdd st.totalFees (spend.inputSum - outputSum))
    return ⟨insertOutputs spend.utxos txid tx.vout height false,
      st.txUndos ++ [⟨spend.spentOutputs⟩], totalFees⟩

def checkCoinbaseValue (block : Block) (height : UInt32) (totalFees : ℤ) :
    Except ConnectError Unit :=
  match block.transactions with
  | [] => return ()
  | coinbase :: _ => do
    let coinbaseValue ← okOr .coinbaseSumOverflow (checkedSum (outputValues coinbase))
    let subsidy := getBlockSubsidy height
    let maxCoinbase ← okOr .subsidyOverflow (checkedAdd subsidy totalFees)
    ensure (coinbaseValue ≤ maxCoinbase)
      (.coinbaseTooLarge coinbaseValue maxCoinbase subsidy totalFees)

def storeUndo (cs : ChainState) (blockHash : Hash256) (undo : BlockUndo) :
    Except ConnectError (UndoStore × UndoIndex) :=
  if undo.txUndos = [] then
    return (cs.undoStore, cs.undoIndex)
  else do
    let (undoStore, loc) ← (cs.undoStore.storeUndoToFile blockHash undo).mapError .undo
    return (undoStore, cs.undoIndex.insert loc.hash (loc.fileNumber, loc.offset, loc.size))

section

variable (P : Primitives) (cs : ChainState) (block : Block) (height : UInt32) (blockHash : Hash256)

def connectBlock : Except ConnectError ChainState := do
  let expected := saturatingSucc cs.tip.2
  ensure (height = expected) (.unexpectedHeight expected height)
  ensure (block.transactions ≠ []) .noTransactions
  let st ← block.transactions.foldlM (connectTx P cs.scriptVerifyHeight height) ⟨cs.utxos, [], 0⟩
  checkCoinbaseValue block height st.totalFees
  let (undoStore, undoIndex) ← storeUndo cs blockHash ⟨st.txUndos⟩
  return { cs with utxos := st.utxos, undoStore, undoIndex, tip := (blockHash, height) }

inductive DisconnectError
  | genesis
  | notTip (tip : Hash256) (tipHeight : UInt32) (hash : Hash256) (height : UInt32)
  | undo (error : UndoError)
  | undoCount (entries nonCoinbase : ℕ)
  | missingTxUndo (undoIdx : ℕ)
  | missingSpentOutput (inputIdx : ℕ)
deriving DecidableEq, Repr

def restoreInput (txUndo : TxUndo) (utxos : Utxos) (input : TxIn × ℕ) :
    Except DisconnectError Utxos := do
  let coin ← okOr (.missingSpentOutput input.2) (txUndo.spentOutputs[input.2]?)
  return utxos.insert input.1.prevOutput coin

def txUndoAt (undo : BlockUndo) (txIdx : ℕ) : Option TxUndo :=
  if txIdx = 0 then none else undo.txUndos[txIdx - 1]?

def disconnectTx (blockUndo : Option BlockUndo) (utxos : Utxos) (entry : Transaction × ℕ) :
    Except DisconnectError Utxos :=
  let (tx, txIdx) := entry
  let txid := tx.txid P
  let utxos := eraseAll utxos (tx.vout.zipIdx.map fun (_, i) => outputOutpoint txid i)
  match blockUndo with
  | none => return utxos
  | some undo =>
    if tx.isCoinbase then
      return utxos
    else do
      let txUndo ← okOr (.missingTxUndo (txIdx - 1)) (txUndoAt undo txIdx)
      tx.vin.zipIdx.foldlM (restoreInput txUndo) utxos

def loadBlockUndo : Except DisconnectError (Option BlockUndo) :=
  let nonCoinbaseCount := (block.transactions.filter fun tx => !tx.isCoinbase).length
  if 0 < nonCoinbaseCount then do
    let undo ← (cs.undoStore.loadUndo cs.undoIndex blockHash).mapError .undo
    ensure (undo.txUndos.length = nonCoinbaseCount)
      (.undoCount undo.txUndos.length nonCoinbaseCount)
    return some undo
  else
    return none

def disconnectBlock : Except DisconnectError ChainState := do
  ensure (height ≠ 0) .genesis
  ensure (blockHash = cs.tip.1 ∧ height = cs.tip.2) (.notTip cs.tip.1 cs.tip.2 blockHash height)
  let blockUndo ← loadBlockUndo cs block blockHash
  -- transactions are undone from the last to the first, each with its position
  let utxos ← block.transactions.zipIdx.reverse.foldlM (disconnectTx P blockUndo) cs.utxos
  return { cs with utxos, tip := (block.header.prevHash, height - 1) }

end

def emptyState : ChainState where
  utxos := ∅
  undoStore := ⟨0xFFFFFFFF, le_refl _, ∅, 0, 0⟩
  undoIndex := ∅
  tip := (Hash256.zero, 0)
  scriptVerifyHeight := 0

end Ironcat.Chainstate
