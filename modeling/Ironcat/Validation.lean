import Ironcat.Lib.Checked
import Ironcat.Types

/-!
# Context-free consensus checks and the subsidy schedule

`check_transaction`, `check_block` and `get_block_subsidy` of `validation/`.
Each check is shown equivalent to a structure that names the conditions it
enforces, and the weight limit is turned into bounds on the sizes of scripts,
inputs and transaction lists.
-/

namespace Ironcat.Validation

open Lib.ByteCodec Lib.Checked Types

def coin : ℤ := 100000000

def maxMoney : ℤ := 21000000 * coin

def halvingInterval : ℕ := 210000

def initialSubsidy : ℤ := 50 * coin

def getBlockSubsidy (height : UInt32) : ℤ :=
  let halvings := height.toNat / halvingInterval
  if 64 ≤ halvings then 0 else initialSubsidy >>> halvings

inductive TxError
  | noInputs
  | noOutputs
  | negativeValue (value : Int64)
  | valueExceedsMaxMoney (value : Int64)
  | totalExceedsMaxMoney
  | duplicateInputs
  | scriptsigLength (len : ℕ)
  | nullPrevout
deriving DecidableEq, Repr

def maxCoinbaseScriptsig : ℕ := 100

def minCoinbaseScriptsig : ℕ := 2

def outputValues (tx : Transaction) : List ℤ := tx.vout.map (fun o => o.value.toInt)

def checkOutput (output : TxOut) : Except TxError Unit := do
  ensure (0 ≤ output.value.toInt) (.negativeValue output.value)
  ensure (output.value.toInt ≤ maxMoney) (.valueExceedsMaxMoney output.value)

def checkInputs (tx : Transaction) : Except TxError Unit :=
  if tx.isCoinbase then
    let scriptsigLen := (tx.vin.map (fun input => input.scriptSig.length)).headD 0
    ensure (minCoinbaseScriptsig ≤ scriptsigLen ∧ scriptsigLen ≤ maxCoinbaseScriptsig)
      (.scriptsigLength scriptsigLen)
  else
    forM tx.vin fun input => ensure (input.prevOutput ≠ OutPoint.coinbase) .nullPrevout

def checkTransaction (tx : Transaction) : Except TxError Unit := do
  ensure (tx.vin ≠ []) .noInputs
  ensure (tx.vout ≠ []) .noOutputs
  forM tx.vout checkOutput
  ensure ((checkedSum (outputValues tx)).any (· ≤ maxMoney)) .totalExceedsMaxMoney
  ensure tx.prevOutputs.Nodup .duplicateInputs
  checkInputs tx

structure TxWellFormed (tx : Transaction) : Prop where
  inputs : tx.vin ≠ []
  outputs : tx.vout ≠ []
  values : ∀ v ∈ outputValues tx, 0 ≤ v ∧ v ≤ maxMoney
  total : (outputValues tx).sum ≤ maxMoney
  nodup : tx.prevOutputs.Nodup
  prevouts : checkInputs tx = .ok ()

theorem checkOutput_ok_iff {o : TxOut} :
    checkOutput o = .ok () ↔ 0 ≤ o.value.toInt ∧ o.value.toInt ≤ maxMoney := by
  simp [checkOutput, bind_eq_ok]

theorem checkedSum_any_iff {l : List ℤ} (h : ∀ v ∈ l, 0 ≤ v) :
    (checkedSum l).any (· ≤ maxMoney) ↔ l.sum ≤ maxMoney := by
  constructor
  · intro hany
    obtain ⟨s, hs, hle⟩ := (Option.any_eq_true _ _).mp hany
    rw [← checkedSum_eq hs]
    exact of_decide_eq_true hle
  · intro hle
    have hmax : maxMoney ≤ i64Max := by decide
    rw [checkedSum_of_nonneg h (hle.trans hmax)]
    exact decide_eq_true hle

variable {tx : Transaction}

theorem checkTransaction_ok_iff : checkTransaction tx = .ok () ↔ TxWellFormed tx := by
  have hvals : (∀ o ∈ tx.vout, checkOutput o = .ok ()) ↔
      ∀ v ∈ outputValues tx, 0 ≤ v ∧ v ≤ maxMoney := by
    simp [outputValues, checkOutput_ok_iff]
  simp only [checkTransaction, bind_eq_ok, forM_eq_ok, ensure_eq_ok, exists_const, hvals]
  constructor
  · rintro ⟨hin, hout, hv, hsum, hdup, hcb⟩
    exact ⟨hin, hout, hv, (checkedSum_any_iff fun v h => (hv v h).1).mp hsum, hdup, hcb⟩
  · rintro ⟨hin, hout, hv, hsum, hdup, hcb⟩
    exact ⟨hin, hout, hv, (checkedSum_any_iff fun v h => (hv v h).1).mpr hsum, hdup, hcb⟩

inductive BlockError
  | noTransactions
  | firstNotCoinbase
  | multipleCoinbase (index : ℕ)
  | tooHeavy (weight : ℕ)
  | badTransaction (index : ℕ) (error : TxError)
deriving DecidableEq, Repr

def maxBlockWeight : ℕ := 4000000

def witnessScaleFactor : ℕ := 4

def varintSize (val : ℕ) : ℕ :=
  if val < 0xFD then 1 else if val ≤ 0xFFFF then 3 else if val ≤ 0xFFFFFFFF then 5 else 9

def blockSerializedSize (block : Block) : ℕ :=
  headerSize + varintSize block.transactions.length +
    (block.transactions.map (fun tx => tx.toBytes.length)).sum

def blockWeight (block : Block) : ℕ := blockSerializedSize block * witnessScaleFactor

def checkBlock (block : Block) : Except BlockError Unit := do
  ensure (block.transactions ≠ []) .noTransactions
  ensure (block.transactions.head?.any Transaction.isCoinbase) .firstNotCoinbase
  forM (block.transactions.zipIdx.drop 1) fun (tx, i) =>
    ensure (¬ tx.isCoinbase) (.multipleCoinbase i)
  ensure (blockWeight block ≤ maxBlockWeight) (.tooHeavy (blockWeight block))
  forM block.transactions.zipIdx fun (tx, i) =>
    (checkTransaction tx).mapError (.badTransaction i)

/-- The conditions `check_block` enforces; the coinbase is named apart from
the other transactions. -/
structure BlockWellFormed (block : Block) : Prop where
  split : ∃ cb txs, block.transactions = cb :: txs ∧ cb.isCoinbase ∧ ∀ tx ∈ txs, ¬ tx.isCoinbase
  weight : blockWeight block ≤ maxBlockWeight
  transactions : ∀ tx ∈ block.transactions, TxWellFormed tx

variable {α : Type} {l : List α}

theorem forall_mem_zipIdx_fst {k : ℕ} {p : α → Prop} :
    (∀ e ∈ l.zipIdx k, p e.1) ↔ ∀ a ∈ l, p a := by
  induction l generalizing k with
  | nil => simp
  | cons a l ih => simp [List.zipIdx_cons, ← ih (k := k + 1)]

theorem checkBlock_ok_iff {block : Block} : checkBlock block = .ok () ↔ BlockWellFormed block := by
  have htx : (∀ e ∈ block.transactions.zipIdx,
      (checkTransaction e.1).mapError (BlockError.badTransaction e.2) = .ok ()) ↔
        ∀ tx ∈ block.transactions, TxWellFormed tx := by
    simp only [mapError_eq_ok, checkTransaction_ok_iff]
    exact forall_mem_zipIdx_fst (p := TxWellFormed)
  simp only [checkBlock, bind_eq_ok, forM_eq_ok, ensure_eq_ok, exists_const, htx]
  constructor
  · rintro ⟨-, hfirst, hothers, hweight, htxs⟩
    refine ⟨?_, hweight, htxs⟩
    cases hcs : block.transactions with
    | nil => simp [hcs] at hfirst
    | cons cb txs =>
      rw [hcs, List.zipIdx_cons, List.drop_one, List.tail_cons] at hothers
      refine ⟨cb, txs, rfl, by simpa [hcs] using hfirst, ?_⟩
      exact (forall_mem_zipIdx_fst (p := fun tx : Transaction => ¬ tx.isCoinbase)).mp hothers
  · rintro ⟨⟨cb, txs, hcs, hcb, hothers⟩, hweight, htxs⟩
    refine ⟨by simp [hcs], by simp [hcs, hcb], ?_, hweight, htxs⟩
    rw [hcs, List.zipIdx_cons, List.drop_one, List.tail_cons]
    exact (forall_mem_zipIdx_fst (p := fun tx : Transaction => ¬ tx.isCoinbase)).mpr hothers

theorem length_le_length_flatMap {β : Type} {f : α → List β} {a : α} (h : a ∈ l) :
    (f a).length ≤ (l.flatMap f).length := by
  rw [List.length_flatMap]
  exact List.single_le_sum (by simp) _ (List.mem_map_of_mem h)

theorem length_le_flatMap_length {β : Type} {f : α → List β} (h : ∀ a ∈ l, 1 ≤ (f a).length) :
    l.length ≤ (l.flatMap f).length := by
  rw [List.length_flatMap]
  simpa using List.card_nsmul_le_sum (l.map fun a => (f a).length) 1 (by simpa using h)

theorem vin_length_le_toBytes (tx : Transaction) : tx.vin.length ≤ tx.toBytes.length := by
  have h : tx.vin.length ≤ (tx.vin.flatMap TxIn.toBytes).length :=
    length_le_flatMap_length fun i _ => by
      simp only [TxIn.toBytes, List.length_append, leBytes_length]
      omega
  simp only [Transaction.toBytes, List.length_append]
  omega

theorem scriptPubkey_length_le_toBytes {o : TxOut} (ho : o ∈ tx.vout) :
    o.scriptPubkey.length ≤ tx.toBytes.length := by
  have h := length_le_length_flatMap (f := TxOut.toBytes) ho
  have ho : o.scriptPubkey.length ≤ o.toBytes.length := by
    simp only [TxOut.toBytes, List.length_append]
    omega
  simp only [Transaction.toBytes, List.length_append]
  omega

namespace BlockWellFormed
variable {block : Block}

theorem size_le (h : BlockWellFormed block) :
    (block.transactions.map (fun tx => tx.toBytes.length)).sum ≤ 1000000 := by
  have hw := h.weight
  unfold blockWeight blockSerializedSize witnessScaleFactor maxBlockWeight at hw
  omega

theorem toBytes_le (h : BlockWellFormed block) (htx : tx ∈ block.transactions) :
    tx.toBytes.length ≤ 1000000 :=
  (List.single_le_sum (by simp) _
    (List.mem_map_of_mem (f := fun tx : Transaction => tx.toBytes.length) htx)).trans h.size_le

theorem transactions_length_le (h : BlockWellFormed block) :
    block.transactions.length ≤ 1000000 := by
  refine le_trans ?_ h.size_le
  have hpos : ∀ tx ∈ block.transactions, 1 ≤ tx.toBytes.length := by
    intro tx _
    simp only [Transaction.toBytes, List.length_append, leBytes_length]
    omega
  simpa using List.card_nsmul_le_sum
    (block.transactions.map fun tx => tx.toBytes.length) 1 (by simpa using hpos)

end BlockWellFormed

end Ironcat.Validation
