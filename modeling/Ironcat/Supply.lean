import Ironcat.History
import Ironcat.Lib.MapTotal

/-!
# The supply bound

The total value of the UTXO set never exceeds what the subsidy schedule has
issued up to the tip. Blocks may create an outpoint that already exists, so
disconnecting a block does not always restore the map it was connected to; it
restores a part of it, and the bound only needs that. The invariant stacks,
for each connected block, the map right after it.
-/

namespace Ironcat.Supply

open Lib.Checked Lib.FiniteMap Lib.UndoLog Lib.MapTotal Types Undo Validation Chainstate
open Ledger

def issued (height : UInt32) : ℤ :=
  ∑ i ∈ Finset.range height.toNat, getBlockSubsidy (UInt32.ofNat (i + 1))

def eraSubsidy (halvings : ℕ) : ℤ := if 64 ≤ halvings then 0 else initialSubsidy >>> halvings

theorem eraSubsidy_nonneg (k : ℕ) : 0 ≤ eraSubsidy k := by
  unfold eraSubsidy
  split_ifs
  · exact le_refl 0
  · rw [Int.shiftRight_eq_div_pow]
    exact Int.ediv_nonneg (by decide) (by positivity)

theorem sum_range_mul_div (f : ℕ → ℤ) (n b : ℕ) (hb : 0 < b) :
    ∑ i ∈ Finset.range (n * b), f (i / b) = b * ∑ k ∈ Finset.range n, f k := by
  induction n with
  | zero => simp
  | succ n ih =>
    have hera : ∀ x ∈ Finset.range b, f ((n * b + x) / b) = f n := by
      intro x hx
      rw [Nat.mul_comm, Nat.mul_add_div hb, Nat.div_eq_of_lt (Finset.mem_range.mp hx), Nat.add_zero]
    rw [Nat.succ_mul, Finset.sum_range_add, ih, Finset.sum_congr rfl hera, Finset.sum_const,
      Finset.card_range, Finset.sum_range_succ, nsmul_eq_mul]
    ring

theorem sum_eraSubsidy_le (n : ℕ) :
    ∑ i ∈ Finset.range n, eraSubsidy (i / halvingInterval) ≤ maxMoney := by
  have hpos : ∀ i, 0 ≤ eraSubsidy (i / halvingInterval) := fun i => eraSubsidy_nonneg _
  have hextend : ∑ i ∈ Finset.range n, eraSubsidy (i / halvingInterval) ≤
      ∑ i ∈ Finset.range ((64 + n) * halvingInterval), eraSubsidy (i / halvingInterval) := by
    refine Finset.sum_le_sum_of_subset_of_nonneg (Finset.range_mono ?_) fun i _ _ => hpos i
    unfold halvingInterval
    omega
  rw [sum_range_mul_div _ _ _ (by decide), Finset.sum_range_add] at hextend
  have htail : ∑ k ∈ Finset.range n, eraSubsidy (64 + k) = 0 :=
    Finset.sum_eq_zero fun k _ => if_pos (Nat.le_add_right 64 k)
  rw [htail, add_zero] at hextend
  exact hextend.trans (by decide)

theorem issued_le_maxMoney (height : UInt32) : issued height ≤ maxMoney := by
  have hlt := height.toNat_lt
  have hpos : ∀ i, 0 ≤ eraSubsidy (i / halvingInterval) := fun i => eraSubsidy_nonneg _
  have hterm : ∀ i ∈ Finset.range height.toNat,
      getBlockSubsidy (UInt32.ofNat (i + 1)) = eraSubsidy ((i + 1) / halvingInterval) := by
    intro i hi
    have hi' := Finset.mem_range.mp hi
    have hsize : i + 1 < 2 ^ 32 := by omega
    rw [getBlockSubsidy, UInt32.toNat_ofNat_of_lt' hsize]
    rfl
  rw [issued, Finset.sum_congr rfl hterm]
  have hshift := Finset.sum_range_succ' (fun i => eraSubsidy (i / halvingInterval)) height.toNat
  have hbound := sum_eraSubsidy_le (height.toNat + 1)
  have hzero := hpos 0
  omega

theorem issued_succ {h h' : UInt32} (hh : h'.toNat = h.toNat + 1) :
    issued h' = issued h + getBlockSubsidy h' := by
  rw [issued, hh, Finset.sum_range_succ, issued, ← hh, UInt32.ofNat_toNat]

variable {P : Primitives} {svh height : UInt32}

def coinValue (c : Coin) : ℤ := c.txOut.value.toInt

def supply (utxos : Utxos) : ℤ := total coinValue utxos

def InRange (utxos : Utxos) : Prop :=
  ∀ o c, utxos.lookup o = some c → 0 ≤ coinValue c ∧ coinValue c ≤ maxMoney

variable {utxos : Utxos}

theorem InRange.nonneg (h : InRange utxos) : ∀ o c, utxos.lookup o = some c → 0 ≤ coinValue c :=
  fun o c hc => (h o c hc).1

theorem InRange.supply_nonneg (h : InRange utxos) : 0 ≤ supply utxos := by
  have hle := total_le_of_submap (m := ∅) h.nonneg fun k v hk => by
    rw [Finmap.lookup_empty] at hk
    cases hk
  rwa [total_empty] at hle

theorem InRange.submap {utxos' : Utxos} (h : InRange utxos') (hsub : Submap utxos utxos') :
    InRange utxos :=
  fun o c hc => h o c (hsub o c hc)

theorem outputEntries_values (txid : Hash256) (tx : Transaction) (height : UInt32) (cb : Bool) :
    ((outputEntries txid tx.vout height cb).map fun e => coinValue e.2) = outputValues tx := by
  have hval : (fun e : OutPoint × Coin => coinValue e.2) ∘
      (fun e : TxOut × ℕ => (outputOutpoint txid e.2, (⟨e.1, height, cb⟩ : Coin))) =
        (fun o : TxOut => o.value.toInt) ∘ Prod.fst := rfl
  rw [outputEntries, List.map_map, hval, ← List.map_map, List.zipIdx_map_fst, outputValues]

variable {tx : Transaction}

theorem created_inRange (hwf : TxWellFormed tx) :
    ∀ e ∈ (txUpdate P height tx).created, 0 ≤ coinValue e.2 ∧ coinValue e.2 ≤ maxMoney := by
  intro e he
  have hmem : coinValue e.2 ∈ outputValues tx := by
    rw [← outputEntries_values (tx.txid P) tx height tx.isCoinbase]
    exact List.mem_map_of_mem he
  exact hwf.values _ hmem

theorem apply_inRange (hwf : TxWellFormed tx) (h : InRange utxos) :
    InRange ((txUpdate P height tx).apply utxos) :=
  Update.apply_forall (Q := fun _ c => 0 ≤ coinValue c ∧ coinValue c ≤ maxMoney) h
    (created_inRange hwf)

theorem supply_apply_le (P : Primitives) (height : UInt32) {coins : List Coin}
    (hwf : TxWellFormed tx) (h : InRange utxos) (hspent : Spends utxos (spentOutpoints tx) coins)
    (hnodup : (spentOutpoints tx).Nodup) :
    supply ((txUpdate P height tx).apply utxos) ≤
      supply utxos - (coinValues coins).sum + (outputValues tx).sum := by
  have herase : supply (eraseAll utxos (spentOutpoints tx)) + (coinValues coins).sum =
      supply utxos := total_eraseAll hspent hnodup
  have hpos := (h.submap (eraseAll_submap utxos (spentOutpoints tx))).nonneg
  have hinsert := total_insertAll_le (l := (txUpdate P height tx).created) hpos
    fun e he => (created_inRange hwf e he).1
  have hvalues : ((txUpdate P height tx).created.map fun e => coinValue e.2) = outputValues tx :=
    outputEntries_values _ _ _ _
  rw [hvalues] at hinsert
  change supply ((txUpdate P height tx).apply utxos) ≤
    supply (eraseAll utxos (spentOutpoints tx)) + _ at hinsert
  omega

theorem supply_apply_coinbase_le (P : Primitives) (height : UInt32) (hwf : TxWellFormed tx)
    (hcb : tx.isCoinbase) (h : InRange utxos) :
    supply ((txUpdate P height tx).apply utxos) ≤ supply utxos + (outputValues tx).sum := by
  have hnone : spentOutpoints tx = [] := if_pos hcb
  have hspent : Spends utxos (spentOutpoints tx) [] := hnone ▸ Spends.nil utxos
  have hle := supply_apply_le P height hwf h hspent (hnone ▸ List.nodup_nil)
  have hsum : (coinValues []).sum = 0 := rfl
  omega

variable {st st' : ConnectState}

theorem connectTx_supply (hwf : TxWellFormed tx) (hcb : ¬ tx.isCoinbase) (h : InRange st.utxos)
    (hstep : connectTx P svh height st tx = .ok st') :
    InRange st'.utxos ∧ st.totalFees ≤ st'.totalFees ∧
      supply st'.utxos + st'.totalFees ≤ supply st.utxos + st.totalFees := by
  obtain ⟨coins, hspend, hfees, hutxos, -⟩ := connectTx_eq_ok hcb hstep
  obtain ⟨hfees, -⟩ := checkedAdd_eq_some.mp hfees
  have hspent : spentOutpoints tx = tx.prevOutputs := if_neg hcb
  have hle := supply_apply_le P height hwf h (hspent ▸ hspend.spends)
    (hspent ▸ hspend.nodup)
  have hno := hspend.noInflation
  rw [hutxos]
  exact ⟨apply_inRange hwf h, by omega, by omega⟩

theorem connectTxs_supply {txs : List Transaction} (hwf : ∀ tx ∈ txs, TxWellFormed tx)
    (hcb : ∀ tx ∈ txs, ¬ tx.isCoinbase) (h : InRange st.utxos)
    (hrun : txs.foldlM (connectTx P svh height) st = .ok st') :
    supply st'.utxos + st'.totalFees ≤ supply st.utxos + st.totalFees := by
  have hinv := foldlM_invariant (b := st) (l := txs)
    (fun m => InRange m.utxos ∧
      supply m.utxos + m.totalFees ≤ supply st.utxos + st.totalFees)
    (fun tx htx m m' hm hstep => by
      obtain ⟨hrange, -, hle⟩ := connectTx_supply (hwf tx htx) (hcb tx htx) hm.1 hstep
      exact ⟨hrange, hle.trans hm.2⟩)
    ⟨h, le_refl _⟩ hrun
  exact hinv.2

theorem outputSum_bounds (hwf : TxWellFormed tx) :
    0 ≤ (outputValues tx).sum ∧ (outputValues tx).sum ≤ maxMoney :=
  ⟨List.sum_nonneg fun v hv => (hwf.values v hv).1, hwf.total⟩

variable {block : Block} {cb : Transaction}

theorem checkCoinbaseValue_eq_ok {txs : List Transaction} {fees : ℤ}
    (hsplit : block.transactions = cb :: txs) (h : checkCoinbaseValue block height fees = .ok ()) :
    (outputValues cb).sum ≤ getBlockSubsidy height + fees := by
  rw [checkCoinbaseValue, hsplit] at h
  obtain ⟨value, hvalue, h⟩ := bind_eq_ok.mp h
  obtain ⟨max, hmax, h⟩ := bind_eq_ok.mp h
  obtain ⟨hmax, -⟩ := checkedAdd_eq_some.mp (okOr_eq_ok.mp hmax)
  rw [← checkedSum_eq (okOr_eq_ok.mp hvalue), ← hmax]
  exact ensure_eq_ok.mp h

theorem block_supply (hwf : BlockWellFormed block) (h : InRange utxos)
    (hrun : block.transactions.foldlM (connectTx P svh height) ⟨utxos, [], 0⟩ = .ok st)
    (hvalue : checkCoinbaseValue block height st.totalFees = .ok ()) :
    InRange st.utxos ∧ supply st.utxos ≤ supply utxos + getBlockSubsidy height := by
  obtain ⟨cb, txs, hsplit, hcb, hothers⟩ := hwf.split
  have htxs := hwf.transactions
  have hle := checkCoinbaseValue_eq_ok hsplit hvalue
  rw [hsplit, List.forall_mem_cons] at htxs
  obtain ⟨-, -, hutxos, -⟩ := connectTxs_eq_ok hrun
  rw [hsplit, foldlM_cons_of_eq_ok (connectTx_coinbase_eq hcb)] at hrun
  have hcoinbase := supply_apply_coinbase_le P height htxs.1 hcb h
  have hrest := connectTxs_supply htxs.2 hothers (apply_inRange htxs.1 h) hrun
  refine ⟨?_, by dsimp only at hrest; omega⟩
  rw [hutxos]
  refine applyAll_forall (Q := fun _ c => 0 ≤ coinValue c ∧ coinValue c ≤ maxMoney) h ?_
  intro u hu
  obtain ⟨tx, htx, rfl⟩ := List.mem_map.mp hu
  exact created_inRange (hwf.transactions tx htx)

def ConnectError.IsOverflow : ConnectError → Prop
  | .inputSumOverflow | .outputSumOverflow | .feeOverflow => True
  | .coinbaseSumOverflow | .subsidyOverflow => True
  | _ => False

theorem spendInput_avoids {st : SpendState} {input : TxIn} (h : InRange st.utxos)
    (hsum : 0 ≤ st.inputSum) (hmax : st.inputSum + supply st.utxos ≤ i64Max) :
    Avoids ConnectError.IsOverflow (spendInput height st input) := by
  refine (avoids_okOr (fun hbad => hbad.elim)).bind fun c hc => ?_
  refine (avoids_ensure id).bind fun _ _ => ?_
  refine (avoids_okOr fun _ => ?_).bind fun _ _ => avoids_ok _
  have hlook := okOr_eq_ok.mp hc
  have herase : coinValue c + supply (st.utxos.erase input.prevOutput) = supply st.utxos :=
    total_erase hlook
  have hrest := (h.submap (erase_submap st.utxos input.prevOutput)).supply_nonneg
  have hc := (h _ c hlook).1
  have hmin : i64Min ≤ 0 := by decide
  exact ⟨_, checkedAdd_eq_some.mpr ⟨rfl, by unfold coinValue at *; omega,
    by unfold coinValue at *; omega⟩⟩

theorem spendInputs_avoids {vin : List TxIn} {st : SpendState} (h : InRange st.utxos)
    (hsum : 0 ≤ st.inputSum) (hmax : st.inputSum + supply st.utxos ≤ i64Max) :
    Avoids ConnectError.IsOverflow (vin.foldlM (spendInput height) st) := by
  refine avoids_foldlM (fun m => InRange m.utxos ∧ 0 ≤ m.inputSum ∧
    m.inputSum + supply m.utxos ≤ i64Max) ⟨h, hsum, hmax⟩ fun input _ m hm => ?_
  refine ⟨spendInput_avoids hm.1 hm.2.1 hm.2.2, fun m' hstep => ?_⟩
  obtain ⟨c, hlook, -, hadd, hutxos, -⟩ := spendInput_eq_ok hstep
  obtain ⟨hadd, -⟩ := checkedAdd_eq_some.mp hadd
  have herase : coinValue c + supply (m.utxos.erase input.prevOutput) = supply m.utxos :=
    total_erase hlook
  have hc : 0 ≤ coinValue c := (hm.1 _ c hlook).1
  have hsum : m'.inputSum = m.inputSum + coinValue c := hadd
  rw [hutxos]
  exact ⟨hm.1.submap (erase_submap _ _), by omega, by omega⟩

theorem connectTx_avoids (hwf : TxWellFormed tx) (hcb : ¬ tx.isCoinbase) (h : InRange st.utxos)
    (hfees : 0 ≤ st.totalFees) (hmax : st.totalFees + supply st.utxos ≤ i64Max) :
    Avoids ConnectError.IsOverflow (connectTx P svh height st tx) := by
  rw [connectTx, if_neg hcb]
  refine (avoids_ensure id).bind fun _ _ => ?_
  refine (spendInputs_avoids h (le_refl 0) ?_).bind fun spend hspend => ?_
  · dsimp only
    omega
  refine Avoids.bind ?_ fun _ _ => ?_
  · unfold verifyScripts
    split_ifs
    · exact avoids_forM fun _ _ => avoids_ensure id
    · exact avoids_ok ()
  obtain ⟨hout, houtMax⟩ := outputSum_bounds hwf
  have hmoney : maxMoney ≤ i64Max := by decide
  have hmin : i64Min ≤ 0 := by decide
  have hsum := checkedSum_of_nonneg (fun v hv => (hwf.values v hv).1) (houtMax.trans hmoney)
  refine (avoids_okOr fun _ => ⟨_, hsum⟩).bind fun out hout' => ?_
  refine (avoids_ensure id).bind fun _ hle => ?_
  refine (avoids_okOr fun _ => ?_).bind fun _ _ => avoids_ok _
  obtain ⟨coins, hspends, hnodup, -, hin, -, -⟩ := spendInputs_eq_ok hspend
  have hin := checkedSum_eq hin
  have htotal : supply (eraseAll st.utxos (tx.vin.map TxIn.prevOutput)) + (coinValues coins).sum =
      supply st.utxos := total_eraseAll hspends hnodup
  have hrest := (h.submap (eraseAll_submap st.utxos (tx.vin.map TxIn.prevOutput))).supply_nonneg
  have hout_eq := checkedSum_eq (okOr_eq_ok.mp hout')
  have hle := ensure_eq_ok.mp hle
  exact ⟨_, checkedAdd_eq_some.mpr ⟨rfl, by omega, by omega⟩⟩

/-- The fees collected so far and the coins left never exceed `bound`. -/
def Within (bound : ℤ) (st : ConnectState) : Prop :=
  InRange st.utxos ∧ 0 ≤ st.totalFees ∧ st.totalFees + supply st.utxos ≤ bound

theorem connectTx_within {bound : ℤ} (hwf : TxWellFormed tx) (hcb : ¬ tx.isCoinbase)
    (h : Within bound st) (hstep : connectTx P svh height st tx = .ok st') : Within bound st' := by
  obtain ⟨hrange, hfees, hbound⟩ := h
  obtain ⟨hrange', hmono, hle⟩ := connectTx_supply hwf hcb hrange hstep
  exact ⟨hrange', by omega, by omega⟩

theorem coinbase_within (P : Primitives) (height : UInt32) (hwf : TxWellFormed cb)
    (hcb : cb.isCoinbase) (h : InRange utxos) (hmax : supply utxos ≤ maxMoney) :
    Within (maxMoney + maxMoney) ⟨(txUpdate P height cb).apply utxos, [], 0⟩ := by
  obtain ⟨hout, houtMax⟩ := outputSum_bounds hwf
  have hcoinbase := supply_apply_coinbase_le P height hwf hcb h
  refine ⟨apply_inRange hwf h, le_refl 0, ?_⟩
  dsimp only
  omega

theorem getBlockSubsidy_bounds (height : UInt32) :
    0 ≤ getBlockSubsidy height ∧ getBlockSubsidy height ≤ initialSubsidy := by
  have hera : getBlockSubsidy height = eraSubsidy (height.toNat / halvingInterval) := rfl
  rw [hera]
  refine ⟨eraSubsidy_nonneg _, ?_⟩
  unfold eraSubsidy
  split_ifs
  · decide
  · rw [Int.shiftRight_eq_div_pow]
    exact Int.ediv_le_self _ (by decide)

theorem checkCoinbaseValue_avoids {txs : List Transaction} {fees : ℤ}
    (hsplit : block.transactions = cb :: txs) (hwf : TxWellFormed cb) (hfees : 0 ≤ fees)
    (hmax : fees ≤ maxMoney + maxMoney) :
    Avoids ConnectError.IsOverflow (checkCoinbaseValue block height fees) := by
  obtain ⟨hout, houtMax⟩ := outputSum_bounds hwf
  have hsum := checkedSum_of_nonneg (fun v hv => (hwf.values v hv).1) (houtMax.trans (by decide))
  have hsubsidy := getBlockSubsidy_bounds height
  have hroom : maxMoney + maxMoney + initialSubsidy ≤ i64Max := by decide
  have hmin : i64Min ≤ 0 := by decide
  have hadd : checkedAdd (getBlockSubsidy height) fees = some (getBlockSubsidy height + fees) :=
    checkedAdd_eq_some.mpr ⟨rfl, by omega, by omega⟩
  rw [checkCoinbaseValue, hsplit]
  refine (avoids_okOr fun _ => ⟨_, hsum⟩).bind fun _ _ => ?_
  exact (avoids_okOr fun _ => ⟨_, hadd⟩).bind fun _ _ => avoids_ensure id

theorem storeUndo_avoids (cs : ChainState) (hash : Hash256) (undo : BlockUndo) :
    Avoids ConnectError.IsOverflow (storeUndo cs hash undo) := by
  unfold storeUndo
  split_ifs
  · exact avoids_ok _
  · refine Avoids.bind (fun e he hbad => ?_) fun _ _ => avoids_ok _
    cases hstore : cs.undoStore.storeUndoToFile hash undo with
    | ok p => simp [hstore, Except.mapError] at he
    | error e' =>
      rw [hstore] at he
      cases he
      exact hbad

theorem connectBlock_avoids {cs : ChainState} {hash : Hash256} (hwf : BlockWellFormed block)
    (h : InRange cs.utxos) (hmax : supply cs.utxos ≤ maxMoney) :
    Avoids ConnectError.IsOverflow (connectBlock P cs block height hash) := by
  obtain ⟨cb, txs, hsplit, hcb, hothers⟩ := hwf.split
  have htxs := hwf.transactions
  rw [hsplit, List.forall_mem_cons] at htxs
  have hroom : maxMoney + maxMoney ≤ i64Max := by decide
  have hfirst := coinbase_within P height htxs.1 hcb h hmax
  have hfold : block.transactions.foldlM (connectTx P cs.scriptVerifyHeight height)
      ⟨cs.utxos, [], 0⟩ = txs.foldlM (connectTx P cs.scriptVerifyHeight height)
        ⟨(txUpdate P height cb).apply cs.utxos, [], 0⟩ := by
    rw [hsplit, foldlM_cons_of_eq_ok (connectTx_coinbase_eq hcb)]
  refine (avoids_ensure id).bind fun _ _ => (avoids_ensure id).bind fun _ _ => ?_
  rw [hfold]
  refine (avoids_foldlM (Within (maxMoney + maxMoney)) hfirst fun tx htx m hm => ⟨?_, ?_⟩).bind
    fun st hst => ?_
  · exact connectTx_avoids (htxs.2 tx htx) (hothers tx htx) hm.1 hm.2.1 (hm.2.2.trans hroom)
  · exact fun m' hstep => connectTx_within (htxs.2 tx htx) (hothers tx htx) hm hstep
  obtain ⟨hrange, hfees, hbound⟩ := foldlM_invariant (Within (maxMoney + maxMoney))
    (fun tx htx m m' hm hstep => connectTx_within (htxs.2 tx htx) (hothers tx htx) hm hstep)
    hfirst hst
  have hsupply := hrange.supply_nonneg
  refine Avoids.bind ?_ fun _ _ => (storeUndo_avoids _ _ _).bind fun _ _ => avoids_ok _
  exact checkCoinbaseValue_avoids hsplit htxs.1 hfees (by omega)

end Ironcat.Supply
