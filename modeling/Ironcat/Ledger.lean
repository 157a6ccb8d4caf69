import Ironcat.Chainstate

/-!
# Blocks as reversible updates of the UTXO map

What a successful `connect_block` means for the UTXO map: each transaction is
an update that removes its inputs and writes its outputs, and the undo record
lists the coins removed. `disconnect_block` given that record is the reversal
of these updates.
-/

namespace Ironcat.Ledger

open Lib.Checked Lib.FiniteMap Lib.UndoLog Types Undo UndoFiles Validation Chainstate

variable {P : Primitives} {svh height : UInt32}

def spentOutpoints (tx : Transaction) : List OutPoint :=
  if tx.isCoinbase then [] else tx.prevOutputs

def txUpdate (P : Primitives) (height : UInt32) (tx : Transaction) : Update OutPoint Coin :=
  ⟨spentOutpoints tx, outputEntries (tx.txid P) tx.vout height tx.isCoinbase⟩

/-- The outpoint is an output of the transaction. -/
def Creates (P : Primitives) (tx : Transaction) (o : OutPoint) : Prop :=
  tx.txid P = o.txid ∧ o.index.toNat < tx.vout.length

variable {tx : Transaction}

theorem creates_of_mem {o : OutPoint}
    (h : o ∈ tx.vout.zipIdx.map fun e => outputOutpoint (tx.txid P) e.2) : Creates P tx o := by
  obtain ⟨e, he, rfl⟩ := List.mem_map.mp h
  have hindex := List.snd_lt_of_mem_zipIdx he
  refine ⟨rfl, Nat.lt_of_le_of_lt ?_ hindex⟩
  simpa [outputOutpoint] using Nat.mod_le _ _

def blockUpdates (P : Primitives) (height : UInt32) (block : Block) : List (Update OutPoint Coin) :=
  block.transactions.map (txUpdate P height)

def coinValues (coins : List Coin) : List ℤ := coins.map fun c => c.txOut.value.toInt

structure Spendable (P : Primitives) (svh height : UInt32) (utxos : Utxos) (tx : Transaction)
    (coins : List Coin) : Prop where
  inputs : tx.vin ≠ []
  spends : Spends utxos tx.prevOutputs coins
  nodup : tx.prevOutputs.Nodup
  mature : ∀ c ∈ coins, ¬ (c.isCoinbase ∧ height.toNat - c.height.toNat < coinbaseMaturity)
  scripts : verifyScripts P svh height tx coins = .ok ()
  inputSum : checkedSum (coinValues coins) = some (coinValues coins).sum
  outputSum : checkedSum (outputValues tx) = some (outputValues tx).sum
  noInflation : (outputValues tx).sum ≤ (coinValues coins).sum

theorem outputEntries_keys (txid : Hash256) (vout : List TxOut) (height : UInt32) (cb : Bool) :
    (outputEntries txid vout height cb).map Prod.fst =
      vout.zipIdx.map fun (_, i) => outputOutpoint txid i := by
  simp [outputEntries]

theorem txid_of_mem_outputEntries {txid : Hash256} {vout : List TxOut} {cb : Bool} {o : OutPoint}
    (h : o ∈ (outputEntries txid vout height cb).map Prod.fst) : o.txid = txid := by
  rw [outputEntries_keys] at h
  obtain ⟨e, -, rfl⟩ := List.mem_map.mp h
  rfl

theorem spendInput_eq_ok {st st' : SpendState} {input : TxIn}
    (h : spendInput height st input = .ok st') :
    ∃ c, st.utxos.lookup input.prevOutput = some c ∧
      ¬ (c.isCoinbase ∧ height.toNat - c.height.toNat < coinbaseMaturity) ∧
      checkedAdd st.inputSum c.txOut.value.toInt = some st'.inputSum ∧
      st'.utxos = st.utxos.erase input.prevOutput ∧ st'.spentOutputs = st.spentOutputs ++ [c] := by
  obtain ⟨c, hc, h⟩ := bind_eq_ok.mp h
  obtain ⟨_, hmature, h⟩ := bind_eq_ok.mp h
  obtain ⟨sum, hsum, h⟩ := bind_eq_ok.mp h
  cases h
  exact ⟨c, okOr_eq_ok.mp hc, ensure_eq_ok.mp hmature, okOr_eq_ok.mp hsum, rfl, rfl⟩

variable {vin : List TxIn}

theorem spendInputs_eq_ok {st st' : SpendState} (h : vin.foldlM (spendInput height) st = .ok st') :
    ∃ coins, Spends st.utxos (vin.map TxIn.prevOutput) coins ∧
      (vin.map TxIn.prevOutput).Nodup ∧
      (∀ c ∈ coins, ¬ (c.isCoinbase ∧ height.toNat - c.height.toNat < coinbaseMaturity)) ∧
      (coinValues coins).foldlM checkedAdd st.inputSum = some st'.inputSum ∧
      st'.utxos = eraseAll st.utxos (vin.map TxIn.prevOutput) ∧
      st'.spentOutputs = st.spentOutputs ++ coins := by
  induction vin generalizing st with
  | nil =>
    obtain rfl := foldlM_nil_eq_ok.mp h
    exact ⟨[], Spends.nil _, List.nodup_nil, by simp, rfl, rfl, by simp⟩
  | cons input vin ih =>
    obtain ⟨mid, hmid, hrest⟩ := foldlM_cons_eq_ok.mp h
    obtain ⟨c, hlook, hmat, hsum, hutxos, hspent⟩ := spendInput_eq_ok hmid
    obtain ⟨coins, hspends, hnodup, hmats, hsums, hutxos', hspent'⟩ := ih hrest
    rw [hutxos] at hspends hutxos'
    obtain ⟨hspends, hnotMem⟩ := spends_erase.mp hspends
    refine ⟨c :: coins, spends_cons.mpr ⟨hlook, hspends⟩, List.nodup_cons.mpr ⟨hnotMem, hnodup⟩,
      List.forall_mem_cons.mpr ⟨hmat, hmats⟩, ?_, hutxos', ?_⟩
    · rw [coinValues, List.map_cons, List.foldlM_cons, hsum]
      exact hsums
    · rw [hspent', hspent, List.append_assoc, List.singleton_append]

theorem spendInputs_of_spends {st : SpendState} {coins : List Coin} {sum : ℤ}
    (hspends : Spends st.utxos (vin.map TxIn.prevOutput) coins)
    (hnodup : (vin.map TxIn.prevOutput).Nodup)
    (hmature : ∀ c ∈ coins, ¬ (c.isCoinbase ∧ height.toNat - c.height.toNat < coinbaseMaturity))
    (hsum : (coinValues coins).foldlM checkedAdd st.inputSum = some sum) :
    vin.foldlM (spendInput height) st = .ok ⟨eraseAll st.utxos (vin.map TxIn.prevOutput), sum,
      st.spentOutputs ++ coins⟩ := by
  induction vin generalizing st coins with
  | nil =>
    obtain rfl : coins = [] := List.eq_nil_of_length_eq_zero hspends.length_eq.symm
    cases hsum
    simp [pure, Except.pure]
  | cons input vin ih =>
    cases coins with
    | nil => cases hspends.length_eq
    | cons c coins =>
      obtain ⟨hlook, hspends⟩ := spends_cons.mp hspends
      obtain ⟨hnotMem, hnodup⟩ := List.nodup_cons.mp hnodup
      rw [List.forall_mem_cons] at hmature
      rw [coinValues, List.map_cons, List.foldlM_cons] at hsum
      obtain ⟨mid, hmid, hsum⟩ := Option.bind_eq_some_iff.mp hsum
      have hstep : spendInput height st input = .ok ⟨st.utxos.erase input.prevOutput, mid,
          st.spentOutputs ++ [c]⟩ := by
        simp only [spendInput, bind_eq_ok, ensure_eq_ok, okOr_eq_ok, pure_eq_ok]
        exact ⟨c, hlook, (), hmature.1, mid, hmid, rfl⟩
      rw [foldlM_cons_of_eq_ok hstep, ih (spends_erase.mpr ⟨hspends, hnotMem⟩) hnodup hmature.2 hsum]
      simp

variable {st : ConnectState}

theorem connectTx_coinbase_eq (hcb : tx.isCoinbase) :
    connectTx P svh height st tx =
      .ok { st with utxos := (txUpdate P height tx).apply st.utxos } := by
  rw [connectTx, if_pos hcb, Update.apply, txUpdate, spentOutpoints, if_pos hcb, eraseAll_nil, hcb]
  rfl

theorem connectTx_eq_ok {st' : ConnectState} (hcb : ¬ tx.isCoinbase)
    (h : connectTx P svh height st tx = .ok st') :
    ∃ coins, Spendable P svh height st.utxos tx coins ∧
      checkedAdd st.totalFees ((coinValues coins).sum - (outputValues tx).sum) =
        some st'.totalFees ∧
      st'.utxos = (txUpdate P height tx).apply st.utxos ∧
      st'.txUndos = st.txUndos ++ [⟨coins⟩] := by
  rw [connectTx, if_neg hcb] at h
  obtain ⟨_, hvin, h⟩ := bind_eq_ok.mp h
  obtain ⟨spend, hspend, h⟩ := bind_eq_ok.mp h
  obtain ⟨_, hscripts, h⟩ := bind_eq_ok.mp h
  obtain ⟨outputSum, hout, h⟩ := bind_eq_ok.mp h
  obtain ⟨_, hle, h⟩ := bind_eq_ok.mp h
  obtain ⟨fees, hfees, h⟩ := bind_eq_ok.mp h
  cases h
  obtain ⟨coins, hspends, hnodup, hmature, hsum, hutxos, hspent⟩ := spendInputs_eq_ok hspend
  rw [List.nil_append] at hspent
  rw [hspent] at hscripts
  have hin := checkedSum_eq hsum
  have hout' := checkedSum_eq (okOr_eq_ok.mp hout)
  rw [hin] at hsum hle hfees
  rw [hout'] at hout hle hfees
  refine ⟨coins, ⟨ensure_eq_ok.mp hvin, hspends, hnodup, hmature, hscripts, hsum,
    okOr_eq_ok.mp hout, ensure_eq_ok.mp hle⟩, okOr_eq_ok.mp hfees, ?_, by rw [hspent]⟩
  have hcb' : tx.isCoinbase = false := by simpa using hcb
  rw [hutxos, Update.apply, txUpdate, spentOutpoints, if_neg hcb, hcb']
  rfl

theorem connectTx_of_spendable {coins : List Coin} {fees : ℤ} (hcb : ¬ tx.isCoinbase)
    (h : Spendable P svh height st.utxos tx coins)
    (hfees : checkedAdd st.totalFees ((coinValues coins).sum - (outputValues tx).sum) = some fees) :
    connectTx P svh height st tx =
      .ok ⟨(txUpdate P height tx).apply st.utxos, st.txUndos ++ [⟨coins⟩], fees⟩ := by
  have hspend : tx.vin.foldlM (spendInput height) ⟨st.utxos, 0, []⟩ = .ok
      ⟨eraseAll st.utxos tx.prevOutputs, (coinValues coins).sum, [] ++ coins⟩ :=
    @spendInputs_of_spends _ _ ⟨st.utxos, 0, []⟩ _ _ h.spends h.nodup h.mature h.inputSum
  have hcb' : tx.isCoinbase = false := by simpa using hcb
  have happly : insertOutputs (eraseAll st.utxos tx.prevOutputs) (tx.txid P) tx.vout height false =
      (txUpdate P height tx).apply st.utxos := by
    rw [Update.apply, txUpdate, spentOutpoints, if_neg hcb, hcb']
    rfl
  simp only [connectTx, hcb, Bool.false_eq_true, if_false, bind_eq_ok, ensure_eq_ok, okOr_eq_ok,
    pure_eq_ok]
  refine ⟨(), h.inputs, _, hspend, (), h.scripts, _, h.outputSum, (), h.noInflation, fees, hfees, ?_⟩
  rw [happly, List.nil_append]

def undoEntries (txs : List Transaction) (log : List (List Coin)) : List TxUndo :=
  ((txs.zip log).filter fun e => !e.1.isCoinbase).map fun e => ⟨e.2⟩

theorem undoEntries_cons_coinbase (hcb : tx.isCoinbase) (txs : List Transaction) (coins : List Coin)
    (log : List (List Coin)) : undoEntries (tx :: txs) (coins :: log) = undoEntries txs log := by
  simp [undoEntries, hcb]

theorem undoEntries_cons (hcb : ¬ tx.isCoinbase) (txs : List Transaction) (coins : List Coin)
    (log : List (List Coin)) :
    undoEntries (tx :: txs) (coins :: log) = ⟨coins⟩ :: undoEntries txs log := by
  simp [undoEntries, hcb]

theorem connectTxs_eq_ok {txs : List Transaction} {st' : ConnectState}
    (h : txs.foldlM (connectTx P svh height) st = .ok st') :
    ∃ log, Records st.utxos (txs.map (txUpdate P height)) log ∧
      st'.utxos = applyAll st.utxos (txs.map (txUpdate P height)) ∧
      st'.txUndos = st.txUndos ++ undoEntries txs log := by
  induction txs generalizing st with
  | nil =>
    obtain rfl := foldlM_nil_eq_ok.mp h
    exact ⟨[], Records.nil _, rfl, by simp [undoEntries]⟩
  | cons tx txs ih =>
    obtain ⟨mid, hmid, hrest⟩ := foldlM_cons_eq_ok.mp h
    obtain ⟨log, hrec, hutxos, hundos⟩ := ih hrest
    by_cases hcb : tx.isCoinbase
    · rw [connectTx_coinbase_eq hcb] at hmid
      cases hmid
      have hspent : Spends st.utxos (txUpdate P height tx).spent [] := by
        simp [txUpdate, spentOutpoints, hcb, Spends]
      exact ⟨[] :: log, Records.cons hspent hrec, hutxos,
        by rw [undoEntries_cons_coinbase hcb]; exact hundos⟩
    · obtain ⟨coins, hspend, -, hmid_utxos, hmid_undos⟩ := connectTx_eq_ok hcb hmid
      rw [hmid_utxos] at hrec hutxos
      have hspent : Spends st.utxos (txUpdate P height tx).spent coins := by
        simpa [txUpdate, spentOutpoints, hcb] using hspend.spends
      refine ⟨coins :: log, Records.cons hspent hrec, hutxos, ?_⟩
      rw [undoEntries_cons hcb, hundos, hmid_undos, List.append_assoc, List.singleton_append]

variable {block : Block} {cs cs' : ChainState} {hash : Hash256}

theorem connectBlock_eq_ok (h : connectBlock P cs block height hash = .ok cs') :
    height = saturatingSucc cs.tip.2 ∧ block.transactions ≠ [] ∧
      ∃ st, block.transactions.foldlM (connectTx P cs.scriptVerifyHeight height)
          ⟨cs.utxos, [], 0⟩ = .ok st ∧
        checkCoinbaseValue block height st.totalFees = .ok () ∧
        storeUndo cs hash ⟨st.txUndos⟩ = .ok (cs'.undoStore, cs'.undoIndex) ∧
        cs'.utxos = st.utxos ∧ cs'.tip = (hash, height) ∧
        cs'.scriptVerifyHeight = cs.scriptVerifyHeight := by
  obtain ⟨_, hheight, h⟩ := bind_eq_ok.mp h
  obtain ⟨_, hne, h⟩ := bind_eq_ok.mp h
  obtain ⟨st, hst, h⟩ := bind_eq_ok.mp h
  obtain ⟨_, hcb, h⟩ := bind_eq_ok.mp h
  obtain ⟨⟨store, index⟩, hstore, h⟩ := bind_eq_ok.mp h
  cases h
  exact ⟨ensure_eq_ok.mp hheight, ensure_eq_ok.mp hne, st, hst, hcb, hstore, rfl, rfl, rfl⟩

theorem connectBlock_of_ok {undo : UndoStore × UndoIndex}
    (hheight : height = saturatingSucc cs.tip.2) (hne : block.transactions ≠ [])
    (hrun : block.transactions.foldlM (connectTx P cs.scriptVerifyHeight height)
      ⟨cs.utxos, [], 0⟩ = .ok st) (hvalue : checkCoinbaseValue block height st.totalFees = .ok ())
    (hundo : storeUndo cs hash ⟨st.txUndos⟩ = .ok undo) :
    connectBlock P cs block height hash = .ok { cs with
      utxos := st.utxos, undoStore := undo.1, undoIndex := undo.2, tip := (hash, height) } := by
  simp only [connectBlock, bind_eq_ok, ensure_eq_ok, pure_eq_ok]
  exact ⟨(), hheight, (), hne, st, hrun, (), hvalue, undo, hundo, rfl⟩

theorem connectBlock_utxos (h : connectBlock P cs block height hash = .ok cs') :
    cs'.utxos = applyAll cs.utxos (blockUpdates P height block) := by
  obtain ⟨-, -, st, hst, -, -, hutxos, -, -⟩ := connectBlock_eq_ok h
  obtain ⟨log, -, happly, -⟩ := connectTxs_eq_ok hst
  rw [hutxos, happly, blockUpdates]

variable {utxos : Utxos}

theorem restoreInputs_eq {txUndo : TxUndo} {k : ℕ}
    (h : vin.length = (txUndo.spentOutputs.drop k).length) :
    (vin.zipIdx k).foldlM (restoreInput txUndo) utxos =
      .ok (insertAll utxos ((vin.map TxIn.prevOutput).zip (txUndo.spentOutputs.drop k))) := by
  induction vin generalizing k utxos with
  | nil => rfl
  | cons input vin ih =>
    have hk : k < txUndo.spentOutputs.length := by
      rw [List.length_cons, List.length_drop] at h
      omega
    rw [List.drop_eq_getElem_cons hk] at h ⊢
    have hstep : restoreInput txUndo utxos (input, k) =
        .ok (utxos.insert input.prevOutput (txUndo.spentOutputs.get ⟨k, hk⟩)) := by
      simp [restoreInput, okOr, hk]
    rw [List.zipIdx_cons, foldlM_cons_of_eq_ok hstep, ih (Nat.succ.inj h)]
    rfl

variable {undo : Option BlockUndo}

theorem disconnectTx_coinbase_eq {i : ℕ} (hcb : tx.isCoinbase) :
    disconnectTx P undo utxos (tx, i) = .ok ((txUpdate P height tx).revert utxos []) := by
  rw [Update.revert, txUpdate, outputEntries_keys, List.zip_nil_right, insertAll_nil]
  cases undo with
  | none => rfl
  | some undo => exact if_pos hcb

theorem disconnectTx_eq {undo : BlockUndo} {coins : List Coin} {i : ℕ} (hcb : ¬ tx.isCoinbase)
    (hundo : undo.txUndos[i]? = some ⟨coins⟩) (hlen : tx.vin.length = coins.length) :
    disconnectTx P (some undo) utxos (tx, i + 1) =
      .ok ((txUpdate P height tx).revert utxos coins) := by
  have hat : txUndoAt undo (i + 1) = some ⟨coins⟩ := by simpa [txUndoAt] using hundo
  rw [Update.revert, txUpdate, outputEntries_keys, spentOutpoints, if_neg hcb]
  have hdrop : tx.vin.length = ((⟨coins⟩ : TxUndo).spentOutputs.drop 0).length := hlen
  rw [disconnectTx]
  simp only [if_neg hcb, hat, okOr]
  exact restoreInputs_eq hdrop

theorem disconnectTxs_eq {undo : BlockUndo} {txs : List Transaction} {log : List (List Coin)}
    {k : ℕ} (hcb : ∀ tx ∈ txs, ¬ tx.isCoinbase) (hundo : undo.txUndos.drop k = log.map TxUndo.mk)
    (hlen : List.Forall₂ (fun tx coins => (spentOutpoints tx).length = coins.length) txs log) :
    (txs.zipIdx (k + 1)).reverse.foldlM (disconnectTx P (some undo)) utxos =
      .ok (revertAll utxos (txs.map (txUpdate P height)) log) := by
  induction hlen generalizing k with
  | nil => rfl
  | @cons tx coins txs log hlen _ ih =>
    rw [List.forall_mem_cons] at hcb
    have hk : undo.txUndos[k]? = some ⟨coins⟩ := by
      rw [← List.head?_drop, hundo]
      rfl
    have hdrop : undo.txUndos.drop (k + 1) = log.map TxUndo.mk := by
      rw [← List.drop_drop, hundo]
      rfl
    rw [spentOutpoints, if_neg hcb.1, Transaction.prevOutputs, List.length_map] at hlen
    rw [List.zipIdx_cons, List.reverse_cons, foldlM_concat_of_eq_ok (ih hcb.2 hdrop)]
    exact disconnectTx_eq hcb.1 hk hlen

theorem undoEntries_of_not_coinbase {txs : List Transaction} {log : List (List Coin)}
    (hcb : ∀ tx ∈ txs, ¬ tx.isCoinbase) (hlen : txs.length = log.length) :
    undoEntries txs log = log.map TxUndo.mk := by
  have hall : (txs.zip log).filter (fun e => !e.1.isCoinbase) = txs.zip log := by
    refine List.filter_eq_self.mpr fun e he => ?_
    simpa using hcb e.1 (List.of_mem_zip he).1
  have hmap : (fun e : Transaction × List Coin => TxUndo.mk e.2) = TxUndo.mk ∘ Prod.snd := rfl
  rw [undoEntries, hall, hmap, ← List.map_map, List.map_snd_zip (le_of_eq hlen.symm)]

def Matches (block : Block) (log : List (List Coin)) : Prop :=
  List.Forall₂ (fun tx coins => (spentOutpoints tx).length = coins.length) block.transactions log

theorem matches_of_records {log : List (List Coin)}
    (h : Records utxos (blockUpdates P height block) log) : Matches block log :=
  List.forall₂_map_left_iff.mp h.lengths

theorem disconnectBlockTxs_eq (height : UInt32) {log : List (List Coin)}
    (hwf : BlockWellFormed block) (hlog : Matches block log)
    (hundo : (∃ tx ∈ block.transactions, ¬ tx.isCoinbase) →
      undo = some ⟨undoEntries block.transactions log⟩) :
    block.transactions.zipIdx.reverse.foldlM (disconnectTx P undo) utxos =
      .ok (revertAll utxos (blockUpdates P height block) log) := by
  obtain ⟨cb, txs, hsplit, hcb, hothers⟩ := hwf.split
  rw [Matches, hsplit] at hlog
  obtain ⟨coins, log', hcoins, hlog', rfl⟩ := List.forall₂_cons_left_iff.mp hlog
  have hnil : coins = [] := by
    rw [spentOutpoints, if_pos hcb] at hcoins
    exact List.length_eq_zero_iff.mp hcoins.symm
  have hentries : undoEntries block.transactions (coins :: log') = log'.map TxUndo.mk := by
    rw [hsplit, undoEntries_cons_coinbase hcb,
      undoEntries_of_not_coinbase hothers hlog'.length_eq]
  have htail : (txs.zipIdx 1).reverse.foldlM (disconnectTx P undo) utxos =
      .ok (revertAll utxos (txs.map (txUpdate P height)) log') := by
    cases hlog' with
    | nil => rfl
    | @cons tx c txs log hc hrest =>
      have hex : ∃ tx ∈ block.transactions, ¬ tx.isCoinbase :=
        ⟨tx, by simp [hsplit], hothers tx List.mem_cons_self⟩
      rw [hundo hex, hentries]
      exact disconnectTxs_eq (k := 0) hothers rfl (List.Forall₂.cons hc hrest)
  rw [blockUpdates, hsplit, List.zipIdx_cons, List.reverse_cons, foldlM_concat_of_eq_ok htail,
    disconnectTx_coinbase_eq hcb, hnil]
  rfl

theorem nonCoinbase_pos_iff :
    0 < (block.transactions.filter fun tx => !tx.isCoinbase).length ↔
      ∃ tx ∈ block.transactions, ¬ tx.isCoinbase := by
  simp [List.length_pos_iff_exists_mem]

theorem loadBlockUndo_eq_ok (h : loadBlockUndo cs block hash = .ok undo)
    (hex : ∃ tx ∈ block.transactions, ¬ tx.isCoinbase) :
    ∃ u, cs.undoStore.loadUndo cs.undoIndex hash = .ok u ∧ undo = some u := by
  rw [loadBlockUndo, if_pos (nonCoinbase_pos_iff.mpr hex)] at h
  obtain ⟨u, hu, h⟩ := bind_eq_ok.mp h
  obtain ⟨_, -, h⟩ := bind_eq_ok.mp h
  cases h
  exact ⟨u, mapError_eq_ok.mp hu, rfl⟩

variable {h' : UInt32}

theorem disconnectBlock_tip (h : disconnectBlock P cs block h' hash = .ok cs') :
    h' ≠ 0 ∧ cs.tip = (hash, h') ∧ cs'.tip = (block.header.prevHash, h' - 1) := by
  obtain ⟨_, hpos, h⟩ := bind_eq_ok.mp h
  obtain ⟨_, htip, h⟩ := bind_eq_ok.mp h
  obtain ⟨_, _, h⟩ := bind_eq_ok.mp h
  obtain ⟨_, _, h⟩ := bind_eq_ok.mp h
  cases h
  obtain ⟨rfl, rfl⟩ := ensure_eq_ok.mp htip
  exact ⟨ensure_eq_ok.mp hpos, rfl, rfl⟩

def UndoSound (cs : ChainState) (block : Block) (hash : Hash256) (log : List (List Coin)) : Prop :=
  (∃ tx ∈ block.transactions, ¬ tx.isCoinbase) →
    ∀ u, cs.undoStore.loadUndo cs.undoIndex hash = .ok u →
      u = ⟨undoEntries block.transactions log⟩

theorem UndoSound.undo_eq {log : List (List Coin)} (hsound : UndoSound cs block hash log)
    (hload : loadBlockUndo cs block hash = .ok undo)
    (hex : ∃ tx ∈ block.transactions, ¬ tx.isCoinbase) :
    undo = some ⟨undoEntries block.transactions log⟩ := by
  obtain ⟨u, hu, rfl⟩ := loadBlockUndo_eq_ok hload hex
  rw [hsound hex u hu]

theorem disconnectBlock_eq_ok (height : UInt32) {log : List (List Coin)}
    (hwf : BlockWellFormed block) (hlog : Matches block log) (hsound : UndoSound cs block hash log)
    (h : disconnectBlock P cs block h' hash = .ok cs') :
    h' ≠ 0 ∧ cs.tip = (hash, h') ∧
      cs' = { cs with
        utxos := revertAll cs.utxos (blockUpdates P height block) log
        tip := (block.header.prevHash, h' - 1) } := by
  obtain ⟨_, hpos, h⟩ := bind_eq_ok.mp h
  obtain ⟨_, htip, h⟩ := bind_eq_ok.mp h
  obtain ⟨undo, hload, h⟩ := bind_eq_ok.mp h
  obtain ⟨utxos, hutxos, h⟩ := bind_eq_ok.mp h
  cases h
  obtain ⟨rfl, rfl⟩ := ensure_eq_ok.mp htip
  rw [disconnectBlockTxs_eq height hwf hlog (hsound.undo_eq hload)] at hutxos
  cases hutxos
  exact ⟨ensure_eq_ok.mp hpos, rfl, rfl⟩

theorem disconnectBlock_of_undo {log : List (List Coin)} (hwf : BlockWellFormed block)
    (hlog : Matches block log) (hsound : UndoSound cs block hash log)
    (hload : loadBlockUndo cs block hash = .ok undo) (hpos : h' ≠ 0) (htip : cs.tip = (hash, h')) :
    ∃ cs', disconnectBlock P cs block h' hash = .ok cs' := by
  have hstand : hash = cs.tip.1 ∧ h' = cs.tip.2 := by simp [htip]
  have htxs : block.transactions.zipIdx.reverse.foldlM (disconnectTx P undo) cs.utxos = _ :=
    disconnectBlockTxs_eq 0 hwf hlog (hsound.undo_eq hload)
  exact ⟨_, bind_eq_ok.mpr ⟨(), ensure_eq_ok.mpr hpos, bind_eq_ok.mpr ⟨(), ensure_eq_ok.mpr hstand,
    bind_eq_ok.mpr ⟨undo, hload, bind_eq_ok.mpr ⟨_, htxs, rfl⟩⟩⟩⟩⟩

end Ironcat.Ledger
