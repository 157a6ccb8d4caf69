import Ironcat.MempoolEviction
import Ironcat.ReorgMempool

/-!
# What a new branch leaves in the mempool

Connecting the blocks of the new path takes out of the mempool what they
confirm, what conflicts with them, and the descendants of the latter, and
nothing else.
-/

namespace Ironcat.ReorgSurvivors

open Lib.Checked Lib.FiniteMap Types BlockFiles Chainstate Ledger History Mempool
open MempoolClosure MempoolReadd MempoolEviction Reorg ReorgHistory ReorgMempool

variable {P : Primitives} {ord : IterOrder} {bs : BlockStore} {pool : Pool}
variable {cs cs' : ChainState} {path : List (Hash256 × ℕ)} {st st' : Connecting}

def pathOutputs (P : Primitives) (bs : BlockStore) (path : List (Hash256 × ℕ)) : Set OutPoint :=
  {o | ∃ block, Stores bs path block ∧ ∃ tx ∈ block.transactions, Creates P tx o}

variable {o : OutPoint} {utxos : Utxos}

theorem restoreInputs_mem {txUndo : Undo.TxUndo} {inputs : List (TxIn × ℕ)} {utxos' : Utxos}
    (ho : o ∈ utxos) (h : inputs.foldlM (restoreInput txUndo) utxos = .ok utxos') : o ∈ utxos' := by
  refine foldlM_invariant (fun m => o ∈ m) (fun input _ m m' hm hstep => ?_) ho h
  simp only [restoreInput, bind_eq_ok, pure_eq_ok] at hstep
  obtain ⟨coin, _, rfl⟩ := hstep
  exact Finmap.mem_insert.mpr (.inr hm)

theorem disconnectTx_mem {undo : Option Undo.BlockUndo} {utxos' : Utxos} {entry : Transaction × ℕ}
    (ho : o ∈ utxos) (h : disconnectTx P undo utxos entry = .ok utxos') :
    o ∈ utxos' ∨ Creates P entry.1 o := by
  obtain ⟨tx, i⟩ := entry
  by_cases herased : o ∈ tx.vout.zipIdx.map fun e => outputOutpoint (tx.txid P) e.2
  · exact .inr (creates_of_mem herased)
  · have hkept : o ∈ eraseAll utxos (tx.vout.zipIdx.map fun e => outputOutpoint (tx.txid P) e.2) :=
      mem_eraseAll.mpr ⟨herased, ho⟩
    left
    cases undo with
    | none =>
      obtain rfl := Except.ok.inj h
      exact hkept
    | some undo =>
      unfold disconnectTx at h
      dsimp only at h
      split_ifs at h with hcb
      · obtain rfl := Except.ok.inj h
        exact hkept
      · obtain ⟨txUndo, _, hrestore⟩ := bind_eq_ok.mp h
        exact restoreInputs_mem hkept hrestore

variable {block : Block}

theorem disconnectBlock_mem {height : UInt32} {hash : Hash256} (ho : o ∈ cs.utxos)
    (h : disconnectBlock P cs block height hash = .ok cs') :
    o ∈ cs'.utxos ∨ ∃ tx ∈ block.transactions, Creates P tx o := by
  simp only [disconnectBlock, bind_eq_ok, pure_eq_ok] at h
  obtain ⟨_, _, _, _, undo, _, utxos, hutxos, rfl⟩ := h
  refine foldlM_invariant (fun m => o ∈ m ∨ ∃ tx ∈ block.transactions, Creates P tx o)
    (fun entry hentry m m' hm hstep => ?_) (.inl ho) hutxos
  rcases hm with hm | hcreated
  · refine (disconnectTx_mem hm hstep).imp_right fun hcreates => ⟨entry.1, ?_, hcreates⟩
    exact List.fst_mem_of_mem_zipIdx (List.mem_reverse.mp hentry)
  · exact .inr hcreated

theorem disconnectPath_mem (ho : o ∈ cs.utxos)
    (h : path.reverse.foldlM (disconnectNew P bs) cs = .ok cs') :
    o ∈ cs'.utxos ∨ o ∈ pathOutputs P bs path := by
  refine foldlM_invariant (fun m : ChainState => o ∈ m.utxos ∨ o ∈ pathOutputs P bs path)
    (fun e he m m' hm hstep => ?_) (.inl ho) h
  rcases hm with hm | hcreated
  · obtain ⟨block, hload, hdisc⟩ := disconnectNew_eq_ok.mp hstep
    refine (disconnectBlock_mem hm hdisc).imp_right fun hcreates => ⟨block, ?_, hcreates⟩
    exact ⟨e, List.mem_reverse.mp he, hload⟩
  · exact .inr hcreated

theorem connectBlock_advances_path {e : Hash256 × ℕ} {back : Set OutPoint}
    (hload : bs.loadAndDeserialize e.1 = .ok block)
    (h : connectBlock P cs block (UInt32.ofNat e.2) e.1 = .ok cs') :
    Advances P block.transactions (unspentOf cs ∪ pathOutputs P bs (e :: path) ∪ back)
      (unspentOf cs' ∪ pathOutputs P bs path ∪ back) := by
  have hadvances := connectBlock_advances h
  refine ⟨?_, fun tx htx o hid hindex hspent =>
    .inl (.inl (hadvances.created tx htx o hid hindex hspent))⟩
  rintro o ((ho | ⟨block', ⟨e', he', hload'⟩, tx, htx, hcreates⟩) | ho) hspent
  · exact .inl (.inl (hadvances.kept o ho hspent))
  · rcases List.mem_cons.mp he' with rfl | he'
    · obtain rfl := Except.ok.inj (hload.symm.trans hload')
      exact .inl (.inl (hadvances.created tx htx o hcreates.1 hcreates.2 hspent))
    · exact .inl (.inr ⟨block', ⟨e', he', hload'⟩, tx, htx, hcreates⟩)
  · exact .inr ho

theorem connectSteps_closed {back : Set OutPoint} {pending : List Hash256}
    (hindexed : Indexed P st.mempool)
    (hdistinct : ∀ block, Stores bs path block → TxidsDistinct P st.mempool block.transactions)
    (hclosed : ClosedExcept (unspentOf st.chainstate ∪ pathOutputs P bs path ∪ back) st.mempool
      pending)
    (h : path.foldlM (connectStep P bs) st = .ok st') :
    ClosedExcept (unspentOf st'.chainstate ∪ back) st'.mempool pending := by
  induction path generalizing st with
  | nil =>
    obtain rfl := foldlM_nil_eq_ok.mp h
    have hempty : pathOutputs P bs [] = ∅ := by
      ext o
      simp [pathOutputs, Stores]
    simpa [hempty] using hclosed
  | cons e path ih =>
    obtain ⟨mid, hstep, hrest⟩ := foldlM_cons_eq_ok.mp h
    obtain ⟨block, hload, hconn, hpool, _⟩ := connectStep_eq_ok hstep
    have hfirst : Stores bs (e :: path) block := ⟨e, List.mem_cons_self, hload⟩
    obtain ⟨hindexed', hwithin, _⟩ := removeBlockTxs_clean hindexed block
    have hclosed' := removeBlockTxs_closed hindexed hclosed (hdistinct block hfirst)
      (connectBlock_advances_path hload hconn)
    rw [← hpool] at hindexed' hclosed' hwithin
    refine ih hindexed' (fun b hb => ?_) hclosed' hrest
    obtain ⟨e', he', hload'⟩ := hb
    exact fun txid entry h =>
      hdistinct b ⟨e', List.mem_cons_of_mem e he', hload'⟩ txid entry (hwithin txid entry h)

/-- A transaction of the new path other than the entry spends one of its inputs. -/
def Rivaled (P : Primitives) (bs : BlockStore) (path : List (Hash256 × ℕ)) (pool : Pool)
    (txid : Hash256) : Prop :=
  ∃ e, pool.txs.lookup txid = some e ∧ ∃ block, Stores bs path block ∧ ∃ tx ∈ block.transactions,
    tx.txid P ≠ txid ∧ ∃ o ∈ spentOutpoints tx, o ∈ e.tx.prevOutputs

/-- No block of the path confirms the transaction, and neither it nor an
ancestor in the mempool has a rival there. -/
structure Stays (P : Primitives) (bs : BlockStore) (path : List (Hash256 × ℕ)) (pool : Pool)
    (txid : Hash256) : Prop where
  unconfirmed : ∀ block, Stores bs path block → ∀ tx ∈ block.transactions, tx.txid P ≠ txid
  unrivaled : ∀ a, Ancestor pool a txid → ¬ Rivaled P bs path pool a

/-- A mempool with the entries of `pool` that stay. -/
structure Survivors (P : Primitives) (bs : BlockStore) (path : List (Hash256 × ℕ))
    (pool rest : Pool) : Prop where
  accounted : Accounted P rest
  maxSize : rest.maxSize = pool.maxSize
  lookup : ∀ txid e, rest.txs.lookup txid = some e ↔
    pool.txs.lookup txid = some e ∧ Stays P bs path pool txid

theorem removeConflicts_spares {full : Pool} {kept : Set Hash256} {conflicting : List Hash256}
    (hparents : ParentsIn full kept) (h : Spared P full kept pool)
    (hnot : ∀ txid ∈ conflicting, txid ∉ kept) :
    Spared P full kept (conflicting.foldl Pool.removeConflict pool) := by
  induction conflicting generalizing pool with
  | nil => exact h
  | cons txid rest ih =>
    rw [List.forall_mem_cons] at hnot
    refine ih ?_ hnot.2
    unfold Pool.removeConflict
    split_ifs
    · exact hparents.removeLoop h (List.forall_mem_singleton.mpr hnot.1)
    · exact h

theorem removeBlockTxs_spares {full : Pool} (haccounted : Accounted P pool)
    (hwithin : Subpool pool full) (hblock : Stores bs path block) {txid : Hash256} {e : MempoolEntry}
    (he : pool.txs.lookup txid = some e) (hfree : ∀ tx ∈ block.transactions, tx.txid P ≠ txid)
    (hunrivaled : ∀ a, Ancestor full a txid → ¬ Rivaled P bs path full a) :
    (pool.removeBlockTxs P block).txs.lookup txid = some e := by
  have hconfirming := confirmTxs_spec haccounted.indexed block.transactions
  have hconflicts := confirmTxs_conflicts haccounted.indexed block.transactions
  have hmid : Accounted P (block.transactions.foldl (Pool.confirmTx P) (pool, [])).1 :=
    confirmTxs_keeps (fun _ _ _ hp hentry => hp.drop hentry) haccounted
  change (List.foldl Pool.removeConflict _ _).txs.lookup txid = some e
  generalize block.transactions.foldl (Pool.confirmTx P) (pool, []) = mid at *
  have hmidfull := hconfirming.within.trans hwithin
  let kept : Set Hash256 :=
    {k | k ∈ mid.1.txs ∧ ∀ a, Ancestor full a k → ¬ Rivaled P bs path full a}
  have hparents : ParentsIn mid.1 kept := by
    rintro parent child ⟨p, c, hp, hc, ho⟩ ⟨-, hchild⟩
    refine ⟨mem_iff_lookup.mpr ⟨p, hp⟩, fun a ha => hchild a (ha.tail ?_)⟩
    exact ⟨p, c, hmidfull _ _ hp, hmidfull _ _ hc, ho⟩
  have hspared : Spared P mid.1 kept (mid.2.foldl Pool.removeConflict mid.1) := by
    refine removeConflicts_spares hparents ⟨hmid, Subpool.refl _, rfl, fun k hk => hk.1⟩ ?_
    rintro c hc ⟨-, hnone⟩
    obtain ⟨tx, htx, hne, o, ho, hspends⟩ := hconflicts c hc
    obtain ⟨ec, hec, hmem⟩ := (haccounted.indexed.spends o c).mp hspends
    exact hnone c Relation.ReflTransGen.refl
      ⟨ec, hwithin _ _ hec, block, hblock, tx, htx, hne.symm, o, ho, hmem⟩
  have hin : mid.1.txs.lookup txid = some e := by
    refine (hconfirming.confirmed txid e he).resolve_right ?_
    rintro ⟨tx, htx, hid⟩
    exact hfree tx htx hid
  obtain ⟨e', he'⟩ := mem_iff_lookup.mp
    (hspared.present txid ⟨mem_iff_lookup.mpr ⟨e, hin⟩, hunrivaled⟩)
  rw [he', ← hin]
  exact (hspared.within _ _ he').symm

theorem connectSteps_spares (hstart : Accounted P st.mempool)
    (hwithin : Subpool st.mempool pool) {full : List (Hash256 × ℕ)} (hsub : path ⊆ full)
    (h : path.foldlM (connectStep P bs) st = .ok st') {txid : Hash256} {e : MempoolEntry}
    (he : st.mempool.txs.lookup txid = some e) (hstays : Stays P bs full pool txid) :
    st'.mempool.txs.lookup txid = some e := by
  induction path generalizing st with
  | nil =>
    obtain rfl := foldlM_nil_eq_ok.mp h
    exact he
  | cons entry path ih =>
    rw [List.cons_subset] at hsub
    obtain ⟨mid, hstep, hrest⟩ := foldlM_cons_eq_ok.mp h
    obtain ⟨block, hload, _, hpool, _⟩ := connectStep_eq_ok hstep
    have hblock : Stores bs full block := ⟨entry, hsub.1, hload⟩
    have hkeeps : Accounted P mid.mempool ∧ Subpool mid.mempool pool := by
      rw [hpool]
      exact removeBlockTxs_keeps (I := fun p => Accounted P p ∧ Subpool p pool)
        (fun _ _ _ hp hentry => ⟨hp.1.drop hentry, drop_within.trans hp.2⟩) ⟨hstart, hwithin⟩
    refine ih hkeeps.1 hkeeps.2 hsub.2 hrest ?_
    rw [hpool]
    exact removeBlockTxs_spares hstart hwithin hblock he
      (hstays.unconfirmed block hblock) hstays.unrivaled

/-- An ancestor of a transaction that is left in the mempool is left as well or
on the chain. -/
theorem ancestor_left {chain : Set Transaction} {left : Pool} (honce : SpentOnce P chain utxos)
    (hindexed : Indexed P pool)
    (hregular : ∀ txid e, pool.txs.lookup txid = some e → ¬ e.tx.isCoinbase)
    (hdistinct : ∀ tx ∈ chain, ∀ txid e, pool.txs.lookup txid = some e → tx.txid P = txid → tx = e.tx)
    (hwithin : Subpool left pool) (hclosed : Closed ({o | o ∈ utxos} ∪ external pool) left)
    {a txid : Hash256} (ha : Ancestor pool a txid) (htxid : txid ∈ left.txs) :
    a ∈ left.txs ∨ ∃ tx ∈ chain, tx.txid P = a := by
  induction ha using Relation.ReflTransGen.head_induction_on with
  | refl => exact .inl htxid
  | @head a child hparent _ ih =>
    obtain ⟨p, e, hp, he, o, ho, rfl, hindex⟩ := hparent
    rcases ih with hin | ⟨tx, htx, hid⟩
    · obtain ⟨e', he'⟩ := mem_iff_lookup.mp hin
      obtain rfl : e = e' := Option.some.inj (he.symm.trans (hwithin _ _ he'))
      rcases hclosed child e he' o ho with (hutxo | hext) | ⟨p', hp', _⟩
      · obtain ⟨t, ht, hid, -⟩ := honce.created o hutxo
        exact .inr ⟨t, ht, hid⟩
      · -- an output that its own transaction spends has no other spender
        have hspends := (hindexed.spends o child).mpr ⟨e, he, ho⟩
        have hspends' := (hindexed.spends o o.txid).mpr ⟨p, hp, hext p hp hindex⟩
        exact .inl (Option.mem_unique hspends hspends' ▸ hin)
      · exact .inl (mem_iff_lookup.mpr ⟨p', hp'⟩)
    · obtain rfl := hdistinct tx htx child e he hid
      have hspent : o ∈ spentOutpoints e.tx := by
        rw [spentOutpoints, if_neg (hregular child e he)]
        exact ho
      exact .inr (honce.spent e.tx htx o hspent).2

/-- What the theorems on the mempool ask of it before the call: index and size
counter are those of its entries, their inputs are available, none is a
coinbase, none is on the old path, and on the new branch their txids stand for
no other transaction. -/
structure Fit (P : Primitives) (bs : BlockStore) (node : Node) (branch : List Block)
    (down up : List (Hash256 × ℕ)) : Prop where
  accounted : Accounted P node.mempool
  closed : Closed (unspentOf node.chainstate) node.mempool
  regular : ∀ txid e, node.mempool.txs.lookup txid = some e → ¬ e.tx.isCoinbase
  new : ∀ block, Stores bs down block → ∀ tx ∈ block.transactions, tx.txid P ∉ node.mempool.txs
  distinct : ∀ block, Stores bs up block ∨ block ∈ branch.drop down.length →
    TxidsDistinct P node.mempool block.transactions

section Call

variable {genesis : BlockHeader} {cs₀ : ChainState} {branch : List Block} {node : Node}
variable {down up : List (Hash256 × ℕ)} {old : Disconnecting} {new : Connecting}
variable (hready : Ready P genesis bs cs₀ node branch) (hfit : Fit P bs node branch down up)
variable (hplan : Planned bs node down up) (hreach : Reaches P bs node down up old new)
include hready hfit hplan hreach

theorem survivors_of_reaches : Survivors P bs up node.mempool new.mempool := by
  have hindexed := hfit.accounted.indexed
  have hconfirmed : Confirmed P bs node.mempool up new :=
    connectSteps_confirmed hindexed hreach.connected
  obtain ⟨_, _, newBlocks, hwalked, -⟩ := hready.toBased.walked hplan (List.prefix_refl up)
    (fun _ => hready.distinct_of_prefix hplan (List.prefix_refl up)) hreach
  have honce := hwalked.current.run.spentOnce hready.setting.fresh
  have hon : ∀ {block tx}, Stores bs up block → tx ∈ block.transactions →
      tx ∈ branchTxs (newBlocks.reverse ++ branch.drop down.length) := fun hb htx =>
    ⟨_, List.mem_append_left _ (List.mem_reverse.mpr ((mem_of_loads hwalked.newLoads).mp hb)), htx⟩
  have hdistinct : ∀ tx ∈ branchTxs (newBlocks.reverse ++ branch.drop down.length), ∀ txid e,
      node.mempool.txs.lookup txid = some e → tx.txid P = txid → tx = e.tx := by
    rintro tx ⟨block, hblock, htx⟩ txid e he hid
    refine hfit.distinct block ?_ txid e he tx htx (hid.trans (hindexed.keyed txid e he).symm)
    refine (List.mem_append.mp hblock).imp_left fun hb => ?_
    exact (mem_of_loads hwalked.newLoads).mpr (List.mem_reverse.mp hb)
  have hclosed : Closed (unspentOf new.chainstate ∪ external node.mempool) new.mempool := by
    have hexternal : Closed (external node.mempool) node.mempool := by
      refine (closed_external_iff hindexed (Subpool.refl _)).mpr ?_
      rintro parent child ⟨p, _, hp, _⟩ _
      exact mem_iff_lookup.mpr ⟨p, hp⟩
    refine closedExcept_nil.mp (connectSteps_closed hindexed
      (fun b hb => hfit.distinct b (.inl hb)) (closedExcept_nil.mpr ?_) hreach.connected)
    exact fun k e he o ho => (hexternal k e he o ho).imp_left .inr
  refine ⟨?_, ?_, fun txid e => ⟨fun he => ⟨hconfirmed.within txid e he, ?_, ?_⟩, ?_⟩⟩
  · exact connectSteps_keeps (fun _ _ _ hp hentry => hp.drop hentry) hfit.accounted hreach.connected
  · exact connectSteps_keeps (I := fun p => p.maxSize = node.mempool.maxSize)
      (fun _ _ _ hp _ => hp) rfl hreach.connected
  · rintro block hblock tx htx rfl
    exact hconfirmed.gone block hblock tx htx (mem_iff_lookup.mpr ⟨e, he⟩)
  · rintro a ha ⟨ea, hea, block, hblock, tx, htx, hne, o, ho, hmem⟩
    rcases ancestor_left honce hindexed hfit.regular hdistinct hconfirmed.within hclosed ha
      (mem_iff_lookup.mpr ⟨e, he⟩) with hin | ⟨t, ht, hid⟩
    · obtain ⟨e', he'⟩ := mem_iff_lookup.mp hin
      obtain rfl : e' = ea := Option.some.inj ((hconfirmed.within _ _ he').symm.trans hea)
      have hspends := (hconfirmed.indexed.spends o a).mpr ⟨e', he', hmem⟩
      exact hconfirmed.clean block hblock tx htx o ho (Finmap.mem_of_lookup_eq_some hspends)
    · obtain rfl := hdistinct t ht a ea hea hid
      have ho' : o ∈ spentOutpoints ea.tx := by
        rw [spentOutpoints, if_neg (hfit.regular a ea hea)]
        exact hmem
      exact hne (honce.once tx (hon hblock htx) ea.tx ht o ho ho' ▸ hid)
  · rintro ⟨he, hstays⟩
    exact connectSteps_spares hfit.accounted (Subpool.refl _) (List.Subset.refl up) hreach.connected
      he hstays

end Call

end Ironcat.ReorgSurvivors
