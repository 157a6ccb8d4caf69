import Ironcat.Calls
import Ironcat.Mempool
import Ironcat.Supply

/-!
# Admission to the pool against connection in a block

`accept_tx` and `connect_block` resolve the inputs of a transaction, add them up
and run its scripts each in its own code. The pool's checks are those of a block
except for one: it never looks at the maturity of a coinbase output.
-/

namespace Ironcat.Admission

open Lib.Checked Lib.FiniteMap Lib.UndoLog Types Undo UndoFiles Validation Chainstate Mempool Ledger
open Calls

variable {P : Primitives} {pool : Pool} {cs : ChainState} {tx coinbase : Transaction}
variable {coins : List Coin} {height : UInt32}

theorem addInputs_coins {vin : List TxIn} {sum sum' : ℤ}
    (hspends : Spends cs.utxos (vin.map TxIn.prevOutput) coins)
    (h : vin.foldlM (pool.addInput cs) sum = .ok sum') :
    (coinValues coins).foldlM checkedAdd sum = some sum' := by
  induction vin generalizing sum coins with
  | nil =>
    obtain rfl : coins = [] := List.eq_nil_of_length_eq_zero hspends.length_eq.symm
    exact congrArg some (foldlM_nil_eq_ok.mp h)
  | cons input vin ih =>
    cases coins with
    | nil => cases hspends.length_eq
    | cons c coins =>
      obtain ⟨hlook, hspends⟩ := spends_cons.mp hspends
      obtain ⟨mid, hmid, hrest⟩ := foldlM_cons_eq_ok.mp h
      simp only [Pool.addInput, Pool.resolveInputValue, hlook, bind_eq_ok, ensure_eq_ok, okOr_eq_ok,
        pure_eq_ok] at hmid
      obtain ⟨_, _, _, rfl, hadd⟩ := hmid
      rw [coinValues, List.map_cons, List.foldlM_cons, hadd]
      exact ih hspends hrest

theorem verifyInputs_coins (svh height : UInt32) (hspends : Spends cs.utxos tx.prevOutputs coins)
    (h : forM tx.vin.zipIdx (pool.verifyInput P cs tx) = .ok ()) :
    verifyScripts P svh height tx coins = .ok () := by
  rw [forM_eq_ok] at h
  unfold verifyScripts
  split_ifs
  · rw [forM_eq_ok]
    rintro ⟨⟨input, coin⟩, i⟩ hmem
    obtain ⟨hinput, hcoin⟩ := List.getElem?_zip_eq_some.mp (List.mk_mem_zipIdx_iff_getElem?.mp hmem)
    have hlook : cs.utxos.lookup input.prevOutput = some coin := by
      refine hspends.lookup_zip (input.prevOutput, coin) (List.mem_of_getElem? (i := i) ?_)
      exact List.getElem?_zip_eq_some.mpr ⟨by simp [Transaction.prevOutputs, hinput], hcoin⟩
    have hverify := h (input, i) (List.mk_mem_zipIdx_iff_getElem?.mpr hinput)
    simpa [Pool.verifyInput, Pool.inputScript, hlook, bind_eq_ok, pure_eq_ok] using hverify
  · rfl

structure Admitted (P : Primitives) (cs : ChainState) (tx : Transaction) (coins : List Coin) :
    Prop where
  wellFormed : TxWellFormed tx
  notCoinbase : ¬ tx.isCoinbase
  spends : Spends cs.utxos tx.prevOutputs coins
  inputSum : checkedSum (coinValues coins) = some (coinValues coins).sum
  noInflation : (outputValues tx).sum ≤ (coinValues coins).sum
  scripts : ∀ svh height, verifyScripts P svh height tx coins = .ok ()

theorem admitted_of_acceptTx {ord : IterOrder} {r : Pool × Hash256}
    (h : pool.acceptTx P ord tx cs = .ok r) (hspends : Spends cs.utxos tx.prevOutputs coins) :
    Admitted P cs tx coins := by
  simp only [Pool.acceptTx, bind_eq_ok, ensure_eq_ok, pure_eq_ok, mapError_eq_ok] at h
  obtain ⟨_, hcheck, _, hcb, _, _, _, _, inputSum, hsum, _, hle, _, _, _, hscripts, _⟩ := h
  have hvalues : checkedSum (coinValues coins) = some inputSum := addInputs_coins hspends hsum
  obtain rfl := checkedSum_eq hvalues
  exact ⟨checkTransaction_ok_iff.mp hcheck, hcb, hspends, hvalues, hle,
    fun svh height => verifyInputs_coins svh height hspends hscripts⟩

def spentCoins (cs : ChainState) (tx : Transaction) : List Coin :=
  tx.prevOutputs.filterMap cs.utxos.lookup

def Mature (height : UInt32) (c : Coin) : Prop :=
  c.isCoinbase → coinbaseMaturity ≤ height.toNat - c.height.toNat

instance (height : UInt32) (c : Coin) : Decidable (Mature height c) :=
  inferInstanceAs (Decidable (_ → _))

/-- The block of `coinbase` and `tx` finds the coins it spends mature, and none
of its sums or files is full. -/
structure Connectable (P : Primitives) (cs : ChainState) (coinbase tx : Transaction)
    (height : UInt32) : Prop where
  distinct : ∀ o ∈ tx.prevOutputs, o ∉ (txUpdate P height coinbase).created.map Prod.fst
  mature : ∀ c ∈ spentCoins cs tx, Mature height c
  coinbaseSum : (checkedSum (outputValues coinbase)).isSome
  fees : getBlockSubsidy height + ((coinValues (spentCoins cs tx)).sum - (outputValues tx).sum) ≤
    i64Max
  undoRoom : (cs.undoStore.rotate
    (entryPrefixSize + (BlockUndo.toBytes ⟨[⟨spentCoins cs tx⟩]⟩).length)).isOk

theorem mature_iff {c : Coin} : Mature height c ↔
    ¬ (c.isCoinbase ∧ height.toNat - c.height.toNat < coinbaseMaturity) := by
  rw [Mature, not_and, not_lt]

theorem not_mature_created (hcb : coinbase.isCoinbase) {e : OutPoint × Coin}
    (he : e ∈ (txUpdate P height coinbase).created) : ¬ Mature height e.2 := by
  simp only [txUpdate, outputEntries, List.mem_map] at he
  obtain ⟨_, _, rfl⟩ := he
  simp [Mature, hcb, coinbaseMaturity]

theorem lookup_coinbase_of_notMem (hcb : coinbase.isCoinbase) {o : OutPoint}
    (ho : o ∉ (txUpdate P height coinbase).created.map Prod.fst) :
    ((txUpdate P height coinbase).apply cs.utxos).lookup o = cs.utxos.lookup o := by
  have hspent : (txUpdate P height coinbase).spent = [] := if_pos hcb
  rw [Update.apply, hspent, eraseAll_nil, lookup_insertAll_of_notMem _ ho]

theorem Admitted.spendable_iff (h : Admitted P cs tx coins) (hcb : coinbase.isCoinbase)
    (svh : UInt32) {coins' : List Coin} :
    Spendable P svh height ((txUpdate P height coinbase).apply cs.utxos) tx coins' ↔
      coins' = coins ∧
      (∀ o ∈ tx.prevOutputs, o ∉ (txUpdate P height coinbase).created.map Prod.fst) ∧
        ∀ c ∈ coins, Mature height c := by
  have hspent : (txUpdate P height coinbase).spent = [] := if_pos hcb
  constructor
  · intro hspend
    have hdistinct : ∀ o ∈ tx.prevOutputs,
        o ∉ (txUpdate P height coinbase).created.map Prod.fst := by
      intro o ho hcreated
      obtain ⟨c, hc, hlook⟩ := lookup_insertAll_of_mem cs.utxos hcreated
      have hmem : c ∈ coins' := by
        have hsome : some c ∈
            tx.prevOutputs.map ((txUpdate P height coinbase).apply cs.utxos).lookup := by
          refine List.mem_map.mpr ⟨o, ho, ?_⟩
          rw [Update.apply, hspent, eraseAll_nil, hlook]
        rw [hspend.spends] at hsome
        simpa using hsome
      exact not_mature_created hcb hc (mature_iff.mpr (hspend.mature c hmem))
    have hcoins : coins' = coins :=
      h.spends.unique (hspend.spends.congr fun o ho =>
        (lookup_coinbase_of_notMem hcb (hdistinct o ho)).symm)
    exact ⟨hcoins, hdistinct, fun c hc => mature_iff.mpr (hspend.mature c (hcoins ▸ hc))⟩
  · rintro ⟨rfl, hdistinct, hmature⟩
    have hmoney : maxMoney ≤ i64Max := by decide
    refine ⟨h.wellFormed.inputs, ?_, h.wellFormed.nodup, fun c hc => mature_iff.mp (hmature c hc),
      h.scripts svh height, h.inputSum, ?_, h.noInflation⟩
    · exact h.spends.congr fun o ho => lookup_coinbase_of_notMem hcb (hdistinct o ho)
    · exact checkedSum_of_nonneg (fun v hv => (h.wellFormed.values v hv).1)
        (h.wellFormed.total.trans hmoney)

theorem storeUndo_isOk_iff {undo : BlockUndo} {hash : Hash256} (hne : undo.txUndos ≠ []) :
    (storeUndo cs hash undo).isOk ↔
      (cs.undoStore.rotate (entryPrefixSize + undo.toBytes.length)).isOk := by
  rw [storeUndo, if_neg hne, UndoStore.storeUndoToFile]
  cases cs.undoStore.rotate (entryPrefixSize + undo.toBytes.length) <;> exact Iff.rfl

theorem checkCoinbaseValue_iff {header : BlockHeader} {txs : List Transaction} {fees : ℤ}
    (hfees : 0 ≤ fees) (hpays : (outputValues coinbase).sum ≤ getBlockSubsidy height) :
    checkCoinbaseValue ⟨header, coinbase :: txs⟩ height fees = .ok () ↔
      (checkedSum (outputValues coinbase)).isSome ∧ getBlockSubsidy height + fees ≤ i64Max := by
  obtain ⟨hsubsidy, _⟩ := Supply.getBlockSubsidy_bounds height
  have hmin : i64Min ≤ 0 := by decide
  simp only [checkCoinbaseValue, bind_eq_ok, okOr_eq_ok, ensure_eq_ok, Option.isSome_iff_exists,
    checkedAdd_eq_some]
  constructor
  · rintro ⟨value, hvalue, _, ⟨_, _, hmax⟩, _⟩
    exact ⟨⟨value, hvalue⟩, hmax⟩
  · rintro ⟨⟨value, hvalue⟩, hmax⟩
    have hle := checkedSum_eq hvalue
    exact ⟨value, hvalue, _, ⟨rfl, by omega, hmax⟩, by omega⟩

theorem Admitted.connectTxs_iff (h : Admitted P cs tx coins) (hcb : coinbase.isCoinbase)
    (svh : UInt32) {st : ConnectState} :
    [coinbase, tx].foldlM (connectTx P svh height) ⟨cs.utxos, [], 0⟩ = .ok st ↔
      (∀ o ∈ tx.prevOutputs, o ∉ (txUpdate P height coinbase).created.map Prod.fst) ∧
        (∀ c ∈ coins, Mature height c) ∧
        st = ⟨(txUpdate P height tx).apply ((txUpdate P height coinbase).apply cs.utxos), [⟨coins⟩],
          (coinValues coins).sum - (outputValues tx).sum⟩ := by
  have hfees : checkedAdd 0 ((coinValues coins).sum - (outputValues tx).sum) =
      some ((coinValues coins).sum - (outputValues tx).sum) := by
    have hmin : i64Min ≤ 0 := by decide
    have hin := checkedSum_le h.inputSum
    have hout := (Supply.outputSum_bounds h.wellFormed).1
    have hle := h.noInflation
    exact checkedAdd_eq_some.mpr ⟨by omega, by omega, by omega⟩
  rw [foldlM_cons_of_eq_ok (connectTx_coinbase_eq hcb)]
  constructor
  · intro hrun
    obtain ⟨st', hstep, hnil⟩ := foldlM_cons_eq_ok.mp hrun
    obtain rfl := foldlM_nil_eq_ok.mp hnil
    obtain ⟨coins', hspend, hst_fees, hutxos, hundos⟩ := connectTx_eq_ok h.notCoinbase hstep
    obtain ⟨rfl, hdistinct, hmature⟩ := (h.spendable_iff hcb svh).mp hspend
    refine ⟨hdistinct, hmature, ?_⟩
    cases st' with
    | mk utxos txUndos totalFees =>
      simp only at hutxos hundos hst_fees
      rw [hutxos, hundos, Option.mem_unique hst_fees hfees, List.nil_append]
  · rintro ⟨hdistinct, hmature, rfl⟩
    have hspend := (h.spendable_iff hcb svh).mpr ⟨rfl, hdistinct, hmature⟩
    exact foldlM_cons_eq_ok.mpr ⟨_, connectTx_of_spendable h.notCoinbase hspend hfees, rfl⟩

theorem Admitted.connects_iff (h : Admitted P cs tx (spentCoins cs tx)) (hcb : coinbase.isCoinbase)
    (hpays : (outputValues coinbase).sum ≤ getBlockSubsidy (saturatingSucc cs.tip.2))
    (header : BlockHeader) (hash : Hash256) :
    (connectBlock P cs ⟨header, [coinbase, tx]⟩ (saturatingSucc cs.tip.2) hash).isOk ↔
      Connectable P cs coinbase tx (saturatingSucc cs.tip.2) := by
  have hfees : 0 ≤ (coinValues (spentCoins cs tx)).sum - (outputValues tx).sum :=
    sub_nonneg.mpr h.noInflation
  have hundo := @storeUndo_isOk_iff cs ⟨[⟨spentCoins cs tx⟩]⟩ hash (List.cons_ne_nil _ _)
  rw [isOk_iff]
  constructor
  · rintro ⟨cs', hconn⟩
    obtain ⟨_, _, st, hrun, hvalue, hstore, _⟩ := connectBlock_eq_ok hconn
    obtain ⟨hdistinct, hmature, rfl⟩ := (h.connectTxs_iff hcb _).mp hrun
    obtain ⟨hsum, hmax⟩ := (checkCoinbaseValue_iff hfees hpays).mp hvalue
    exact ⟨hdistinct, hmature, hsum, hmax, hundo.mp (isOk_iff.mpr ⟨_, hstore⟩)⟩
  · intro hc
    have hrun := (h.connectTxs_iff hcb cs.scriptVerifyHeight).mpr ⟨hc.distinct, hc.mature, rfl⟩
    have hvalue := (@checkCoinbaseValue_iff _ _ header [tx] _ hfees hpays).mpr
      ⟨hc.coinbaseSum, hc.fees⟩
    obtain ⟨_, hstore⟩ := isOk_iff.mp (hundo.mpr hc.undoRoom)
    exact ⟨_, connectBlock_of_ok rfl (List.cons_ne_nil _ _) hrun hvalue hstore⟩

theorem connects_accepted_iff (P : Primitives) (ord : IterOrder) (pool : Pool) (cs : ChainState)
    (tx coinbase : Transaction) (header : BlockHeader) (hash : Hash256)
    (haccept : (pool.acceptTx P ord tx cs).isOk) (hin : ∀ o ∈ tx.prevOutputs, o ∈ cs.utxos)
    (hcb : coinbase.isCoinbase)
    (hpays : (outputValues coinbase).sum ≤ getBlockSubsidy (saturatingSucc cs.tip.2)) :
    (connectBlock P cs ⟨header, [coinbase, tx]⟩ (saturatingSucc cs.tip.2) hash).isOk ↔
      Connectable P cs coinbase tx (saturatingSucc cs.tip.2) := by
  obtain ⟨_, haccept⟩ := isOk_iff.mp haccept
  exact (admitted_of_acceptTx haccept (spends_filterMap hin)).connects_iff hcb hpays header hash

def minedBlock : Block := blockOn 7 0 [coinbaseTx 0 5000000000]

def minedState : ChainState :=
  runCalls poly emptyState [.connect minedBlock 1 (minedBlock.header.blockHash poly)]

def spendMined : Transaction where
  version := 1
  vin := [⟨⟨(coinbaseTx 0 5000000000).txid poly, 0⟩, [], 0⟩]
  vout := [⟨4999990000, []⟩]
  locktime := 0

def maturedState : ChainState := { minedState with tip := (minedState.tip.1, 100) }

theorem mature_spend_connects :
    (connectBlock poly maturedState (blockOn 0 0 [coinbaseTx 1 5000000000, spendMined])
      (saturatingSucc maturedState.tip.2) 0).isOk :=
  (connects_accepted_iff poly .id Pool.new maturedState spendMined
    (coinbaseTx 1 5000000000) _ 0 (by decide +kernel) (by decide +kernel) (by decide +kernel)
    (by decide +kernel)).mpr
    ⟨by decide +kernel, by decide +kernel, by decide +kernel, by decide +kernel, by decide +kernel⟩

/-- The pool takes a spend of the coin mined one block before, and no block
connects it. -/
theorem immature_spend_accepted :
    (Pool.new.acceptTx poly .id spendMined minedState).isOk ∧
      (∀ o ∈ spendMined.prevOutputs, o ∈ minedState.utxos) ∧
      minedState.scriptVerifyHeight < saturatingSucc minedState.tip.2 ∧
      (coinbaseTx 1 5000000000).isCoinbase ∧
      (outputValues (coinbaseTx 1 5000000000)).sum ≤
        getBlockSubsidy (saturatingSucc minedState.tip.2) ∧
      ¬ (connectBlock poly minedState (blockOn 0 0 [coinbaseTx 1 5000000000, spendMined])
        (saturatingSucc minedState.tip.2) 0).isOk := by
  decide +kernel

end Ironcat.Admission
