import Ironcat.MempoolOrder
import Ironcat.ReorgSurvivors

/-!
# Closed mempools after a reorganization

Disconnecting a block takes its outputs away from the mempool transactions
that spend them. They come back when a block of the new branch creates them as
well, or when the transaction that creates them is accepted into the mempool
again; nothing else looks at the spenders.
-/

namespace Ironcat.ReorgClosure

open Lib.Checked Types BlockFiles Chainstate Ledger History HeaderRuns Mempool
open MempoolClosure MempoolReadd MempoolOrder Reorg ReorgHistory ReorgMempool ReorgSurvivors

variable {P : Primitives} {ord : IterOrder} {bs : BlockStore} {pool : Pool}
variable {cs cs' : ChainState} {path : List (Hash256 × ℕ)} {txs : List Transaction}

def txOutputs (P : Primitives) (txs : Set Transaction) : Set OutPoint :=
  {o | ∃ tx ∈ txs, Creates P tx o}

/-- What `readd_disconnected_txs` is given for the disconnected blocks. -/
def offeredTxs (blocks : List Block) : List Transaction :=
  (blocks.flatMap Block.transactions).filter fun tx => !tx.isCoinbase

/-- The outputs of the old path that a transaction left in the mempool spends
and that the new path does not create again. -/
def Lost (P : Primitives) (bs : BlockStore) (node : Node) (down up : List (Hash256 × ℕ))
    (left : Pool) : Set OutPoint :=
  {o | (∃ txid e, left.txs.lookup txid = some e ∧ o ∈ e.tx.prevOutputs) ∧
    o ∈ node.chainstate.utxos ∧ o ∈ pathOutputs P bs down ∧ o ∉ pathOutputs P bs up}

section

variable (P : Primitives) (ord : IterOrder) (cs : ChainState) (left : Pool) (txs : List Transaction)

/-- The least set of the offered transactions that is closed under acceptance
next to `left`. -/
def Returning : Set Transaction :=
  {tx | ∀ S, Lib.Saturation.Closed (Accepts P ord cs left) {t | t ∈ txs} S → tx ∈ S}

/-- The offered transactions that an empty mempool takes and whose inputs
nothing in `left` spends. -/
def Independent : Set Transaction :=
  {tx | tx ∈ txs ∧ (∃ r, (Pool.empty left.maxSize).acceptTx P ord tx cs = .ok r) ∧
    ∀ o ∈ tx.prevOutputs, o ∉ left.spends}

end

theorem disconnectSteps_txs {old old' : Disconnecting} {blocks : List Block}
    (hloads : Loads bs path blocks) (h : path.foldlM (disconnectStep P bs) old = .ok old') :
    old'.disconnectedTxs = old.disconnectedTxs ++ offeredTxs blocks := by
  induction path generalizing old blocks with
  | nil =>
    obtain rfl := foldlM_nil_eq_ok.mp h
    obtain rfl : blocks = [] := by simpa [Loads] using hloads
    simp [offeredTxs]
  | cons e path ih =>
    obtain ⟨mid, hstep, hrest⟩ := foldlM_cons_eq_ok.mp h
    simp only [disconnectStep, disconnectEntry, bind_eq_ok, pure_eq_ok, mapError_eq_ok] at hstep
    obtain ⟨_, ⟨block, hload, _, _, rfl⟩, rfl⟩ := hstep
    cases blocks with
    | nil => simp [Loads] at hloads
    | cons block' blocks =>
      simp only [Loads, List.map_cons, List.cons.injEq] at hloads
      obtain rfl := Except.ok.inj (hload.symm.trans hloads.1)
      rw [ih hloads.2 hrest]
      simp [offeredTxs]

/-- A pass over the offered transactions, from the ones still to come. -/
structure Awaiting (P : Primitives) (unspent : Set OutPoint) (back : Set Transaction)
    (pending : List Transaction) (pool : Pool) : Prop where
  indexed : Indexed P pool
  closed : Closed (unspent ∪ txOutputs P {t ∈ back | t ∈ pending}) pool
  new : ∀ t ∈ back, t ∈ pending → t.txid P ∉ pool.txs
  unspent : ∀ t ∈ back, t ∈ pending → ∀ o ∈ t.prevOutputs, o ∉ pool.spends

section Offer

variable {unspent : Set OutPoint} {back : Set Transaction} {pending : List Transaction}
variable {tx : Transaction}

theorem Awaiting.accept {pool' : Pool} {txid : Hash256}
    (h : Awaiting P unspent back (tx :: pending) pool) (hutxos : unspentOf cs ⊆ unspent)
    (hdistinct : ∀ t ∈ pending, t.txid P ≠ tx.txid P ∧ ∀ o ∈ t.prevOutputs, o ∉ tx.prevOutputs)
    (haccept : pool.acceptTx P ord tx cs = .ok (pool', txid)) :
    Awaiting P unspent back pending pool' := by
  obtain ⟨entry, rfl, _, rfl, hnew, havail, rfl⟩ := acceptTx_eq_ok haccept
  have hindexed := h.indexed.insert rfl hnew fun o ho => (havail o ho).1
  have hclosed : Closed (unspent ∪ txOutputs P {t ∈ back | t ∈ pending})
      (pool.insert (entry.tx.txid P) entry) := by
    intro k e he o ho
    rw [lookup_insert] at he
    split_ifs at he with hk
    · obtain rfl := Option.some.inj he
      subst hk
      refine Available.insert ((havail o ho).2.imp_left fun hin => ?_) hnew
      exact Or.inl (hutxos hin)
    · rcases h.closed k e he o ho with (hin | ⟨t, ⟨hback, ht⟩, hcreates⟩) | hparent
      · exact .inl (.inl hin)
      · rcases List.mem_cons.mp ht with rfl | ht
        · -- the parent has just come back
          refine .inr ⟨entry, by rw [lookup_insert, if_pos hcreates.1.symm], ?_, hcreates.2⟩
          exact fun heq => hk (heq.symm.trans hcreates.1.symm)
        · exact .inl (.inr ⟨t, ⟨hback, ht⟩, hcreates⟩)
      · exact Available.insert (.inr hparent) hnew
  obtain ⟨hindexed', hclosed'⟩ : Indexed P ((pool.insert (entry.tx.txid P) entry).evictIfNeeded ord) ∧
      Closed (unspent ∪ txOutputs P {t ∈ back | t ∈ pending})
        ((pool.insert (entry.tx.txid P) entry).evictIfNeeded ord) :=
    evictLoop_closed hindexed hclosed
  have hwithin : Subpool ((pool.insert (entry.tx.txid P) entry).evictIfNeeded ord)
      (pool.insert (entry.tx.txid P) entry) := evictLoop_within
  refine ⟨hindexed', hclosed', fun t hback ht => hwithin.notMem ?_, fun t hback ht o ho => ?_⟩
  · rw [mem_iff_lookup, lookup_insert, if_neg (hdistinct t ht).1, ← mem_iff_lookup]
    exact h.new t hback (List.mem_cons_of_mem _ ht)
  · refine notMem_spends hindexed' fun k e he hmem => ?_
    rcases eq_or_lookup_of_insert (hwithin k e he) with rfl | hold
    · exact (hdistinct t ht).2 o ho hmem
    · exact h.unspent t hback (List.mem_cons_of_mem _ ht) o ho
        (Finmap.mem_of_lookup_eq_some ((h.indexed.spends o k).mpr ⟨e, hold, hmem⟩))

theorem Awaiting.pass {st : Pool.Readd} {maxSize : ℕ} (hutxos : unspentOf cs ⊆ unspent)
    (hpending : pending.Pairwise fun tx t => t.txid P ≠ tx.txid P ∧
      ∀ o ∈ t.prevOutputs, o ∉ tx.prevOutputs)
    (hback : ∀ t ∈ back, ∃ r, (Pool.empty maxSize).acceptTx P ord t cs = .ok r)
    (h : Awaiting P unspent back pending st.pool) :
    Awaiting P unspent back [] (pending.foldl (Pool.readdTx P ord cs) st).pool := by
  induction pending generalizing st with
  | nil => exact h
  | cons tx pending ih =>
    rw [List.pairwise_cons] at hpending
    refine ih hpending.2 ?_
    rcases readdTx_cases P ord cs st tx with ⟨pool, txid, haccept, heq⟩ | ⟨e, hreject, heq⟩
    · rw [heq]
      exact h.accept hutxos hpending.1 haccept
    · rw [heq]
      -- a transaction that an empty mempool takes is not rejected here
      have hnot : tx ∉ back := by
        intro htx
        obtain ⟨r, hr⟩ := hback tx htx
        obtain ⟨r', hr'⟩ : ∃ r', st.pool.acceptTx P ord tx cs = .ok r' :=
          acceptTx_of_agree rfl (fun o _ e he => by simp [Pool.empty] at he) hr
            (h.new tx htx List.mem_cons_self) (h.unspent tx htx List.mem_cons_self)
        cases hr'.symm.trans hreject
      have hset : {t ∈ back | t ∈ tx :: pending} = {t ∈ back | t ∈ pending} := by
        ext t
        simp only [Set.mem_ofPred_eq, List.mem_cons, and_congr_right_iff, or_iff_right_iff_imp]
        rintro htx rfl
        exact absurd htx hnot
      exact ⟨h.indexed, hset ▸ h.closed, fun t ht hin => h.new t ht (List.mem_cons_of_mem _ hin),
        fun t ht hin => h.unspent t ht (List.mem_cons_of_mem _ hin)⟩

/-- The first pass takes all independent transactions, whatever it evicts. -/
theorem readdDisconnectedTxs_closed (hoffer : Offer P pool txs) (hindexed : Indexed P pool)
    (hutxos : unspentOf cs ⊆ unspent)
    (hclosed : Closed (unspent ∪ txOutputs P (Independent P ord cs pool txs)) pool) :
    Closed unspent (pool.readdDisconnectedTxs P ord txs cs).1 := by
  have hfilter : (txs.filter fun tx => !tx.isCoinbase) = txs :=
    List.filter_eq_self.mpr fun tx htx => by simp [hoffer.regular tx htx]
  have hpairwise : txs.Pairwise fun tx t => t.txid P ≠ tx.txid P ∧
      ∀ o ∈ t.prevOutputs, o ∉ tx.prevOutputs := by
    refine (List.pairwise_map.mp hoffer.distinct).imp_of_mem fun {tx t} htx ht hne => ?_
    refine ⟨hne.symm, fun o ho ho' => hne ?_⟩
    rw [hoffer.disjoint t ht tx htx o ho ho']
  have hset : {t ∈ Independent P ord cs pool txs | t ∈ txs} = Independent P ord cs pool txs :=
    Set.sep_eq_self_iff_mem_true.mpr fun t ht => ht.1
  have hstart : Awaiting P unspent (Independent P ord cs pool txs) txs pool :=
    ⟨hindexed, hset.symm ▸ hclosed, fun t _ => hoffer.new t, fun t ht _ => ht.2.2⟩
  have hpass : Awaiting P unspent (Independent P ord cs pool txs) []
      (txs.foldl (Pool.readdTx P ord cs) ⟨pool, [], 0, false⟩).pool :=
    Awaiting.pass hutxos hpairwise (fun t ht => ht.2.1) hstart
  have hfirst : Indexed P (txs.foldl (Pool.readdTx P ord cs) ⟨pool, [], 0, false⟩).pool ∧
      Closed unspent (txs.foldl (Pool.readdTx P ord cs) ⟨pool, [], 0, false⟩).pool := by
    refine ⟨hpass.indexed, ?_⟩
    simpa [txOutputs] using hpass.closed
  unfold Pool.readdDisconnectedTxs
  dsimp only
  rw [hfilter, Pool.readdLoop]
  dsimp only
  split_ifs with hnil
  · simpa [hnil] using hfirst.2
  · exact (readdLoop_keeps (I := fun p => Indexed P p ∧ Closed unspent p)
      (fun _ _ _ _ _ hp => acceptTx_closed hutxos hp.1 hp.2) (List.Subset.refl _) hfirst).2
  · exact hfirst.2

end Offer

section Same

variable {left left' : Pool} (hsame : SameContents left left') (hutxos : cs.utxos = cs'.utxos)
include hsame

theorem lookup_withTxs (l : List Transaction) :
    (∀ k, (withTxs P left l).txs.lookup k = (withTxs P left' l).txs.lookup k) ∧
      (withTxs P left l).spends = (withTxs P left' l).spends := by
  have hstart : (∀ k, left.txs.lookup k = left'.txs.lookup k) ∧ left.spends = left'.spends :=
    ⟨hsame.txs, hsame.spends⟩
  clear hsame
  induction l generalizing left left' with
  | nil => exact hstart
  | cons tx l ih =>
    refine ih ⟨fun k => ?_, by simp only [Pool.insert, hstart.2]⟩
    rw [lookup_insert, lookup_insert, hstart.1]

include hutxos

theorem Accepts.congr {S : Set Transaction} {tx : Transaction}
    (h : Accepts P ord cs left S tx) : Accepts P ord cs' left' S tx := by
  obtain ⟨l, hl, ⟨pool', txid⟩, haccept⟩ := h
  obtain ⟨hlookup, hspends⟩ := lookup_withTxs (P := P) hsame l
  refine ⟨l, hl, acceptTx_of_agree hutxos.symm (fun o _ e he => ⟨e, hlookup _ ▸ he, rfl⟩) haccept ?_
    fun o ho => ?_⟩
  · obtain ⟨_, -, hkey, hnew, -⟩ := acceptTx_eq_insert haccept
    rwa [← hkey, mem_iff_lookup, hlookup, ← mem_iff_lookup] at hnew
  · obtain ⟨_, hsum, -⟩ := acceptTx_eq_insert haccept
    exact hspends ▸ notMem_spends_of_addInputs hsum o ho

end Same

theorem SameContents.symm {left left' : Pool} (h : SameContents left left') :
    SameContents left' left :=
  ⟨fun k => (h.txs k).symm, h.spends.symm, h.totalSize.symm, h.maxSize.symm⟩

theorem accepts_congr {left left' : Pool} (hsame : SameContents left left')
    (hutxos : cs.utxos = cs'.utxos) :
    Accepts P ord cs left = Accepts P ord cs' left' := by
  ext S tx
  exact ⟨Accepts.congr hsame hutxos, Accepts.congr (SameContents.symm hsame) hutxos.symm⟩

theorem Survivors.sameContents {left left' : Pool} (h : Survivors P bs path pool left)
    (h' : Survivors P bs path pool left') : SameContents left left' := by
  have htxs : ∀ k, left.txs.lookup k = left'.txs.lookup k := fun k =>
    Option.ext fun e => (h.lookup k e).trans (h'.lookup k e).symm
  have hperm : left.txs.entries.Perm left'.txs.entries := by
    refine (List.perm_ext_iff_of_nodup left.txs.nodupKeys.nodup left'.txs.nodupKeys.nodup).mpr ?_
    intro e
    rw [mem_entries, mem_entries, htxs]
  refine ⟨htxs, Finmap.ext_lookup fun o => Option.ext fun k => ?_, ?_, h.maxSize.trans h'.maxSize.symm⟩
  · rw [h.accounted.indexed.spends, h'.accounted.indexed.spends]
    simp only [htxs]
  · rw [h.accounted.total, h'.accounted.total]
    exact (hperm.map _).sum_eq

section Call

variable {genesis : BlockHeader} {cs₀ : ChainState} {branch : List Block} {node : Node}
variable {down up : List (Hash256 × ℕ)} {old : Disconnecting} {new : Connecting}
variable (hready : Ready P genesis bs cs₀ node branch) (hplan : Planned bs node down up)
variable (hreach : Reaches P bs node down up old new)
include hready hplan hreach

theorem loads_down : Loads bs down (branch.take down.length).reverse := by
  obtain ⟨_, oldBlocks, hunwound⟩ :=
    hready.toBased.unwound hplan (disconnectSteps_eq_ok hreach.disconnected).1
  have heq := hunwound.branch_eq
  nth_rewrite 1 [← List.take_append_drop down.length branch] at heq
  rw [List.append_cancel_right heq]
  exact hunwound.oldLoads

theorem disconnectedTxs_eq : old.disconnectedTxs = offeredTxs (branch.take down.length) := by
  have hloads : Loads bs down.reverse (branch.take down.length) := by
    have h := congrArg List.reverse (loads_down hready hplan hreach)
    rwa [← List.map_reverse, ← List.map_reverse, List.reverse_reverse] at h
  rw [disconnectSteps_txs hloads hreach.disconnected]
  rfl

theorem mem_offeredTxs {tx : Transaction} : tx ∈ offeredTxs (branch.take down.length) ↔
    ¬ tx.isCoinbase ∧ ∃ block, Stores bs down block ∧ tx ∈ block.transactions := by
  simp only [offeredTxs, List.mem_filter, List.mem_flatMap, Bool.not_eq_true', Bool.not_eq_true,
    mem_of_loads (loads_down hready hplan hreach), List.mem_reverse]
  exact and_comm

theorem mem_branchTxs {tx : Transaction} (h : tx ∈ offeredTxs (branch.take down.length)) :
    tx ∈ branchTxs branch ∧ spentOutpoints tx = tx.prevOutputs := by
  obtain ⟨hcb, block, hblock, htx⟩ := (mem_offeredTxs hready hplan hreach).mp h
  have hmem := (mem_of_loads (loads_down hready hplan hreach)).mp hblock
  exact ⟨⟨block, List.mem_of_mem_take (List.mem_reverse.mp hmem), htx⟩, if_neg hcb⟩

variable (hfit : Fit P bs node branch down up)
include hfit

theorem offer_of_fit : Offer P new.mempool (offeredTxs (branch.take down.length)) where
  distinct := by
    have hnodup := (hready.start.run.consistent hready.setting.fresh).distinct.txids
    rw [branchTxids, ← List.take_append_drop down.length branch, List.flatMap_append,
      List.nodup_append] at hnodup
    refine List.Nodup.sublist (List.filter_sublist.map _) ?_
    rw [List.map_flatMap]
    exact hnodup.1
  regular tx htx := by simpa using ((mem_offeredTxs hready hplan hreach).mp htx).1
  new tx htx := by
    obtain ⟨-, block, hblock, hmem⟩ := (mem_offeredTxs hready hplan hreach).mp htx
    have hwithin : Subpool new.mempool node.mempool := fun k e he =>
      (((survivors_of_reaches hready hfit hplan hreach).lookup k e).mp he).1
    exact hwithin.notMem (hfit.new block hblock tx hmem)
  disjoint tx htx tx' htx' o ho ho' := by
    obtain ⟨hon, hspent⟩ := mem_branchTxs hready hplan hreach htx
    obtain ⟨hon', hspent'⟩ := mem_branchTxs hready hplan hreach htx'
    exact (hready.start.run.spentOnce hready.setting.fresh).once tx hon tx' hon' o
      (hspent ▸ ho) (hspent' ▸ ho')

theorem closed_after_connect : Closed (unspentOf new.chainstate ∪
    Lost P bs node down up new.mempool) new.mempool := by
  have hindexed := hfit.accounted.indexed
  have hsurvivors := survivors_of_reaches hready hfit hplan hreach
  let pending := node.mempool.txs.keys.filter fun txid => decide (txid ∉ new.mempool.txs)
  have hstart : ClosedExcept (unspentOf old.chainstate ∪ pathOutputs P bs up ∪
      Lost P bs node down up new.mempool) node.mempool pending := by
    intro txid e he hnot o ho
    have hin : new.mempool.txs.lookup txid = some e := by
      by_contra hne
      refine hnot (List.mem_filter.mpr ⟨AList.mem_keys.mp (mem_iff_lookup.mpr ⟨e, he⟩), ?_⟩)
      rw [decide_eq_true_eq, mem_iff_lookup]
      rintro ⟨e', he'⟩
      exact hne (he'.trans ((((hsurvivors.lookup _ _).mp he').1.symm.trans he)))
    refine (hfit.closed txid e he o ho).imp_left fun hutxo => ?_
    rcases disconnectPath_mem hutxo (disconnectSteps_eq_ok hreach.disconnected).1 with hkept | hout
    · exact .inl (.inl hkept)
    · by_cases hup : o ∈ pathOutputs P bs up
      · exact .inl (.inr hup)
      · exact .inr ⟨⟨txid, e, hin, ho⟩, hutxo, hout, hup⟩
  refine closedExcept_nil.mp ((connectSteps_closed hindexed
    (fun b hb => hfit.distinct b (.inl hb)) hstart hreach.connected).of_notMem fun txid hmem => .inl ?_)
  simpa using (List.mem_filter.mp hmem).2

/-- A lost output is in neither the new UTXO set nor the mempool. -/
theorem not_available_of_lost {o : OutPoint} {txid : Hash256}
    (ho : o ∈ Lost P bs node down up new.mempool) :
    ¬ Available (unspentOf new.chainstate) new.mempool txid o := by
  obtain ⟨-, -, ⟨block, hblock, tx, htx, hcreates⟩, hup⟩ := ho
  rintro (hutxo | ⟨p, hp, -⟩)
  · obtain ⟨_, _, newBlocks, hwalked, -⟩ := hready.toBased.walked hplan (List.prefix_refl up)
      (fun _ => hready.distinct_of_prefix hplan (List.prefix_refl up)) hreach
    have honce := hwalked.current.run.spentOnce hready.setting.fresh
    obtain ⟨t, ⟨b, hb, ht⟩, hcreates'⟩ := honce.created o hutxo
    rcases List.mem_append.mp hb with hb | hb
    · exact hup ⟨b, (mem_of_loads hwalked.newLoads).mpr (List.mem_reverse.mp hb), t, ht, hcreates'⟩
    · -- below the fork no transaction has a txid of the old path
      have hnodup := (hready.start.run.consistent hready.setting.fresh).distinct.txids
      rw [branchTxids, ← List.take_append_drop down.length branch, List.flatMap_append,
        List.nodup_append] at hnodup
      have hold := (mem_of_loads (loads_down hready hplan hreach)).mp hblock
      refine hnodup.2.2 (tx.txid P) ?_ (t.txid P) ?_ (hcreates.1.trans hcreates'.1.symm)
      · exact List.mem_flatMap.mpr ⟨block, List.mem_reverse.mp hold, List.mem_map_of_mem htx⟩
      · exact List.mem_flatMap.mpr ⟨b, hb, List.mem_map_of_mem ht⟩
  · have hin := ((survivors_of_reaches hready hfit hplan hreach).lookup _ _).mp hp
    exact hfit.new block hblock tx htx (hcreates.1 ▸ mem_iff_lookup.mpr ⟨p, hin.1⟩)

theorem closed_of_independent
    (hlost : Lost P bs node down up new.mempool ⊆ txOutputs P (Independent P ord new.chainstate
      new.mempool (offeredTxs (branch.take down.length)))) :
    Closed (unspentOf new.chainstate)
      (new.mempool.readdDisconnectedTxs P ord old.disconnectedTxs new.chainstate).1 := by
  rw [disconnectedTxs_eq hready hplan hreach]
  refine readdDisconnectedTxs_closed (offer_of_fit hready hplan hreach hfit)
    (survivors_of_reaches hready hfit hplan hreach).accounted.indexed subset_rfl ?_
  intro txid e he o ho
  refine (closed_after_connect hready hplan hreach hfit txid e he o ho).imp_left ?_
  exact Or.imp_right fun hin => hlost hin

/-- With room for all that comes back, the mempool is closed if and only if the
lost outputs are among theirs. -/
theorem closed_iff_returning (hroom : Room P ord new.chainstate new.mempool
      (offeredTxs (branch.take down.length))) :
    Closed (unspentOf new.chainstate)
      (new.mempool.readdDisconnectedTxs P ord old.disconnectedTxs new.chainstate).1 ↔
    Lost P bs node down up new.mempool ⊆ txOutputs P (Returning P ord new.chainstate new.mempool
      (offeredTxs (branch.take down.length))) := by
  have hoffer := offer_of_fit hready hplan hreach hfit
  rw [disconnectedTxs_eq hready hplan hreach]
  obtain ⟨added, hextended, hleast⟩ := readdDisconnectedTxs_extended hoffer hroom ord
  have hreturning : Returning P ord new.chainstate new.mempool
      (offeredTxs (branch.take down.length)) = {t | t ∈ added} :=
    Set.Subset.antisymm (fun t ht => ht _ hleast.1) fun t ht S hS => hleast.2 hS ht
  rw [hreturning]
  constructor
  · -- what a survivor has lost is an output of something that was added
    rintro hclosed o ho
    obtain ⟨txid, e, he, hmem⟩ := ho.1
    have hnone : ¬ Available (unspentOf new.chainstate) new.mempool txid o :=
      not_available_of_lost hready hplan hreach hfit ho
    have hold : ∀ {k}, k ∈ new.mempool.txs → ∀ t ∈ {t | t ∈ added}, t.txid P ≠ k := by
      rintro k hk t ht rfl
      exact hoffer.new t (hextended.built.subset ht) hk
    have he' := (hextended.holds.old txid (hold (mem_iff_lookup.mpr ⟨e, he⟩))).trans he
    rcases hclosed txid e he' o hmem with hutxo | ⟨p, hp, hne, hindex⟩
    · exact absurd (.inl hutxo) hnone
    · by_cases hadded : ∃ t ∈ {t | t ∈ added}, t.txid P = o.txid
      · obtain ⟨t, ht, hid⟩ := hadded
        obtain ⟨p', hp', rfl⟩ := hextended.holds.known t ht
        obtain rfl : p = p' := Option.some.inj (hp.symm.trans (hid ▸ hp'))
        exact ⟨p.tx, ht, hid, hindex⟩
      · rw [hextended.holds.old o.txid fun t ht hid => hadded ⟨t, ht, hid⟩] at hp
        exact absurd (.inr ⟨p, hp, hne, hindex⟩) hnone
  · intro hlost
    have hstart := closed_after_connect hready hplan hreach hfit
    have hreadd := @readdDisconnectedTxs_keeps P ord _ _ (offeredTxs (branch.take down.length)) _
      (fun p => Indexed P p ∧ Closed (unspentOf new.chainstate ∪
        Lost P bs node down up new.mempool) p)
      (fun _ _ _ _ _ hp => acceptTx_closed Set.subset_union_left hp.1 hp.2) (List.Subset.refl _)
      ⟨(survivors_of_reaches hready hfit hplan hreach).accounted.indexed, hstart⟩
    intro txid e he o ho
    rcases hreadd.2 txid e he o ho with (hutxo | hin) | hparent
    · exact .inl hutxo
    · obtain ⟨t, ht, hid, hindex⟩ := hlost hin
      obtain ⟨p, hp, rfl⟩ := hextended.holds.known t ht
      refine .inr ⟨p, hid ▸ hp, ?_, hindex⟩
      -- a transaction that comes back does not spend its own outputs
      rintro rfl
      obtain rfl : p = e := Option.some.inj ((hid ▸ hp).symm.trans he)
      obtain ⟨hon, hspent⟩ := mem_branchTxs hready hplan hreach (hextended.built.subset ht)
      exact (hready.start.run.spentOnce hready.setting.fresh).foreign p.tx hon o (hspent ▸ ho)
        hid.symm
    · exact .inr hparent

end Call

/-- After a reorganization every input of the mempool is available if what its
transactions lost with the old path comes back; while there is room for what
comes back, only then. -/
theorem mempool_closed_iff_lost_returns (P : Primitives) (ord : IterOrder) (genesis : BlockHeader)
    (bs : BlockStore) (cs₀ : ChainState) (node node' : Node) (branch : List Block)
    (oldTip newTip : Hash256) (disconnected connected : ℕ) (down up : List (Hash256 × ℕ))
    (blocks : List Block) (r : ChainState) (left : Pool)
    (hready : Ready P genesis bs cs₀ node branch) (hplan : Planned bs node down up)
    (hloads : Loads bs up blocks)
    (hreplay : connectBranch P cs₀ (blocks.reverse ++ branch.drop down.length) = .ok r)
    (hfit : Fit P bs node branch down up) (hleft : Survivors P bs up node.mempool left)
    (hcall : activateBestChain P ord bs node =
      .returned node' (.ok (.reorganized oldTip newTip disconnected connected))) :
    (Lost P bs node down up left ⊆
        txOutputs P (Independent P ord r left (offeredTxs (branch.take down.length))) →
      Closed (unspentOf node'.chainstate) node'.mempool) ∧
    (Room P ord r left (offeredTxs (branch.take down.length)) →
      (Closed (unspentOf node'.chainstate) node'.mempool ↔ Lost P bs node down up left ⊆
        txOutputs P (Returning P ord r left (offeredTxs (branch.take down.length))))) := by
  obtain ⟨down', up', old, new, hplan', hreach, hcs, -, hmempool⟩ := activateBestChain_reorganized hcall
  obtain ⟨rfl, rfl⟩ := Prod.mk.inj (Except.ok.inj (hplan'.paths.symm.trans hplan.paths))
  have hsame : SameContents left new.mempool :=
    Survivors.sameContents hleft (survivors_of_reaches hready hfit hplan hreach)
  have hutxos : r.utxos = new.chainstate.utxos := by
    obtain ⟨_, _, newBlocks, hwalked, -⟩ := hready.toBased.walked hplan (List.prefix_refl _)
      (fun _ => hready.distinct_of_prefix hplan (List.prefix_refl _)) hreach
    obtain ⟨r', hr', hutxos, -⟩ := hwalked.current.run.connectBranch hready.setting.fresh
    rw [hwalked.newLoads.unique hloads, hreplay] at hr'
    exact Except.ok.inj hr' ▸ hutxos
  have hlost : Lost P bs node down' up' left = Lost P bs node down' up' new.mempool := by
    simp only [Lost, hsame.txs]
  have hindependent : Independent P ord r left (offeredTxs (branch.take down'.length)) ⊆
      Independent P ord new.chainstate new.mempool (offeredTxs (branch.take down'.length)) := by
    rintro tx ⟨htx, ⟨_, hr⟩, hspends⟩
    refine ⟨htx, ?_, hsame.spends ▸ hspends⟩
    exact acceptTx_of_agree hutxos.symm (fun o _ e he => by simp [Pool.empty] at he) hr
      (AList.notMem_empty _) (fun _ _ => Finmap.notMem_empty)
  have haccepts : Accepts P ord r left = Accepts P ord new.chainstate new.mempool :=
    accepts_congr hsame hutxos
  rw [hcs, hmempool, hlost]
  refine ⟨fun h => closed_of_independent hready hplan hreach hfit (h.trans ?_), fun hroom => ?_⟩
  · rintro o ⟨tx, htx, hcreates⟩
    exact ⟨tx, hindependent htx, hcreates⟩
  · rw [Returning, haccepts]
    refine closed_iff_returning hready hplan hreach hfit ?_
    rwa [Room, haccepts, hsame.totalSize, hsame.maxSize] at hroom

def parentTx : Transaction where
  version := 1
  vin := [⟨⟨(coinbaseTx 1 5000).txid poly, 0⟩, [], 0⟩]
  vout := [⟨4500, []⟩]
  locktime := 0

def keptChild : Transaction where
  version := 1
  vin := [⟨⟨parentTx.txid poly, 0⟩, [], 0⟩]
  vout := [⟨500, []⟩]
  locktime := 0

def spentParent : OutPoint := ⟨parentTx.txid poly, 0⟩

theorem keptChild_input {txid : Hash256} {e : MempoolEntry} {o : OutPoint}
    (he : (singlePool keptChild).txs.lookup txid = some e) (ho : o ∈ e.tx.prevOutputs) :
    o = spentParent := by
  obtain ⟨_, rfl⟩ := lookup_singlePool he
  simpa [keptChild, spentParent, Transaction.prevOutputs] using ho

/-- `A101` confirms `parentTx`, and the mempool spends its output. -/
def familyNode : Node := towerNode [coinbaseTx 101 0, parentTx] (singlePool keptChild)

theorem familyNode_mempool : familyNode.mempool = singlePool keptChild := by
  simp only [familyNode, towerNode]

def familyStore : BlockStore :=
  towerStore [coinbaseTx 101 0, parentTx] [coinbaseTx 102 0] [coinbaseTx 103 0]

def familyFork : List Block := [⟨headerB101, [coinbaseTx 102 0]⟩, ⟨headerB102, [coinbaseTx 103 0]⟩]

def familyState : ChainState :=
  (connectBranch poly emptyState (familyFork.reverse ++ trunk 100)).toOption.getD emptyState

theorem familyNode_fit {down up : List (Hash256 × ℕ)}
    (hdown : Loads familyStore down [⟨headerA101, [coinbaseTx 101 0, parentTx]⟩])
    (hup : Loads familyStore up familyFork)
    (hunspent : (familyNode.chainstate.utxos.lookup spentParent).isSome = true) :
    Fit poly familyStore familyNode (tower [coinbaseTx 101 0, parentTx]) down up := by
  have hother : ∀ b ∈ tower [coinbaseTx 101 0, parentTx] ++ familyFork, ∀ tx ∈ b.transactions,
      tx.txid poly ≠ keptChild.txid poly := by
    decide +kernel
  have hpool : Orderly poly (singlePool keptChild) := orderly_singlePool (by decide +kernel)
  rw [← familyNode_mempool] at hpool
  refine ⟨⟨hpool.stocked.indexed, hpool.stocked.sized, hpool.stocked.total⟩, ?_, ?_, ?_, ?_⟩ <;>
    rw [familyNode_mempool]
  · intro txid e he o ho
    rw [keptChild_input he ho]
    refine .inl ?_
    rw [unspentOf, Set.mem_ofPred_eq, ← Finmap.lookup_isSome]
    exact hunspent
  · intro txid e he
    rw [(lookup_singlePool he).2]
    decide +kernel
  · intro block hblock tx htx hmem
    obtain ⟨e, he⟩ := mem_iff_lookup.mp hmem
    rw [mem_of_loads hdown, List.mem_singleton] at hblock
    subst hblock
    exact hother _ (List.mem_append_left _ List.mem_cons_self) tx htx (lookup_singlePool he).1
  · intro block hblock txid e he tx htx hid
    obtain ⟨_, rfl⟩ := lookup_singlePool he
    refine absurd hid (hother block (List.mem_append.mpr ?_) tx htx)
    rcases hblock with hblock | hblock
    · exact .inr ((mem_of_loads hup).mp hblock)
    · exact .inl (List.mem_of_mem_drop hblock)

theorem familyNode_survivors {up : List (Hash256 × ℕ)} (hup : Loads familyStore up familyFork) :
    Survivors poly familyStore up (singlePool keptChild) (singlePool keptChild) := by
  have hfork : ∀ b ∈ familyFork, ∀ tx ∈ b.transactions, tx.isCoinbase ∧
      tx.txid poly ≠ keptChild.txid poly := by
    decide +kernel
  have hpool : Orderly poly (singlePool keptChild) := orderly_singlePool (by decide +kernel)
  refine ⟨⟨hpool.stocked.indexed, hpool.stocked.sized, hpool.stocked.total⟩, rfl, fun txid e =>
    ⟨fun he => ⟨he, fun block hblock tx htx => ?_, fun a _ => ?_⟩, And.left⟩⟩
  · rw [(lookup_singlePool he).1]
    exact (hfork block ((mem_of_loads hup).mp hblock) tx htx).2
  · rintro ⟨_, _, block, hblock, tx, htx, _, o, ho, _⟩
    simp [spentOutpoints, (hfork block ((mem_of_loads hup).mp hblock) tx htx).1] at ho

/-- `parentTx` comes back with its child. -/
theorem mempool_closed_on_fork :
    ∃ node', activateBestChain poly .id familyStore familyNode =
        .returned node' (.ok (.reorganized (headerA101.blockHash poly)
          (headerB102.blockHash poly) 1 2)) ∧
      Closed (unspentOf node'.chainstate) node'.mempool ∧
      parentTx.txid poly ∈ node'.mempool.txs ∧
      keptChild.txid poly ∈ node'.mempool.txs := by
  have hsound : TowerSound [coinbaseTx 101 0, parentTx] [coinbaseTx 102 0] [coinbaseTx 103 0] := by
    decide +kernel
  obtain ⟨hresult, hparent, hchild, hunspent⟩ :
      (activateBestChain poly .id familyStore familyNode).result = some (.reorganized
        (headerA101.blockHash poly) (headerB102.blockHash poly) 1 2) ∧
      parentTx.txid poly ∈ (activateBestChain poly .id familyStore familyNode).node.mempool.txs ∧
      keptChild.txid poly ∈ (activateBestChain poly .id familyStore familyNode).node.mempool.txs ∧
      (familyNode.chainstate.utxos.lookup spentParent).isSome = true := by
    decide +kernel
  obtain ⟨hreplay, haccept⟩ :
      (connectBranch poly emptyState (familyFork.reverse ++ trunk 100)).toOption.isSome = true ∧
      ((Pool.empty 1000).acceptTx poly .id parentTx familyState).toOption.isSome = true := by
    decide +kernel
  obtain ⟨r, hr⟩ := Option.isSome_iff_exists.mp hreplay
  have hstate : familyState = r := by rw [familyState, hr, Option.getD_some]
  obtain ⟨accepted, haccepted⟩ := Option.isSome_iff_exists.mp haccept
  obtain ⟨node', hcall⟩ := result_eq_some.mp hresult
  rw [hcall] at hparent hchild
  obtain ⟨down, up, _, _, hplan, -⟩ := activateBestChain_reorganized hcall
  obtain ⟨hdown, hup⟩ := hsound.loads hplan
  have hdrop : (tower [coinbaseTx 101 0, parentTx]).drop down.length = trunk 100 := by
    rw [hdown.length_eq, tower, List.length_singleton, List.drop_succ_cons, List.drop_zero]
  have hoffered : offeredTxs ((tower [coinbaseTx 101 0, parentTx]).take down.length) =
      [parentTx] := by
    rw [hdown.length_eq, tower, List.length_singleton, List.take_succ_cons, List.take_zero]
    decide +kernel
  have hready : Ready poly easyGenesis familyStore emptyState familyNode
      (tower [coinbaseTx 101 0, parentTx]) :=
    hsound.ready
  have hspends : ∀ o ∈ parentTx.prevOutputs, o ∉ (singlePool keptChild).spends := by decide +kernel
  have hfit := familyNode_fit hdown hup hunspent
  have hleft := familyNode_survivors hup
  rw [← familyNode_mempool] at hleft
  have hclosed := (mempool_closed_iff_lost_returns poly .id easyGenesis familyStore emptyState
    familyNode node' _ _ _ _ _ down up familyFork familyState (singlePool keptChild) hready hplan hup
    (by rw [hdrop, hstate]; exact toOption_eq_some.mp hr) hfit hleft hcall).1
  refine ⟨node', hcall, hclosed ?_, hparent, hchild⟩
  rintro o ⟨⟨txid, e, he, ho⟩, -⟩
  rw [keptChild_input he ho, hoffered]
  exact ⟨parentTx, ⟨List.mem_singleton_self _, ⟨accepted, toOption_eq_some.mp haccepted⟩, hspends⟩, rfl, by decide⟩

/-- The mempool spends the coinbase output of `A1`. -/
def paidNode : Node where
  headers := forkHeaders
  chainstate := (connectBlock poly emptyState ⟨headerA1, [coinbaseTx 1 5000]⟩ 1
    (headerA1.blockHash poly)).toOption.getD emptyState
  mempool := singlePool towerSpend

def strandStore : BlockStore :=
  flatStore [⟨headerA1, [coinbaseTx 1 5000]⟩, ⟨headerB1, [coinbaseTx 3 5000]⟩,
    ⟨headerB2, [coinbaseTx 2 0]⟩]

theorem reorganized_fork_strands_spend :
    ∃ node', activateBestChain poly .id strandStore paidNode =
        .returned node' (.ok (.reorganized (headerA1.blockHash poly)
          (headerB2.blockHash poly) 1 2)) ∧
      Closed (unspentOf paidNode.chainstate) paidNode.mempool ∧
      ¬ Closed (unspentOf node'.chainstate) node'.mempool := by
  have hresult : (activateBestChain poly .id strandStore paidNode).result =
      some (.reorganized (headerA1.blockHash poly) (headerB2.blockHash poly) 1 2) := by
    decide +kernel
  have hkept : ((activateBestChain poly .id strandStore paidNode).node.mempool.txs.lookup
      (towerSpend.txid poly)).map MempoolEntry.tx = some towerSpend := by
    decide +kernel
  have hspent : (⟨(coinbaseTx 1 5000).txid poly, 0⟩ : OutPoint) ∉
      (activateBestChain poly .id strandStore paidNode).node.chainstate.utxos := by
    decide +kernel
  have hparent : (coinbaseTx 1 5000).txid poly ∉
      (activateBestChain poly .id strandStore paidNode).node.mempool.txs := by
    decide +kernel
  obtain ⟨node', hcall⟩ := result_eq_some.mp hresult
  rw [hcall] at hkept hspent hparent
  refine ⟨node', hcall, fun txid e he o ho => .inl ?_, fun hclosed => ?_⟩
  · obtain ⟨_, rfl⟩ := lookup_singlePool he
    obtain rfl : o = ⟨(coinbaseTx 1 5000).txid poly, 0⟩ := by
      simpa [towerSpend, Transaction.prevOutputs] using ho
    change _ ∈ paidNode.chainstate.utxos
    decide +kernel
  · obtain ⟨e, he, htx⟩ := Option.map_eq_some_iff.mp hkept
    have hinput : (⟨(coinbaseTx 1 5000).txid poly, 0⟩ : OutPoint) ∈ e.tx.prevOutputs := by
      simp [htx, towerSpend, Transaction.prevOutputs]
    rcases hclosed _ e he _ hinput with hutxo | ⟨p, hp, _⟩
    · exact hspent hutxo
    · exact hparent (mem_iff_lookup.mpr ⟨p, hp⟩)

end Ironcat.ReorgClosure
