import Ironcat.MempoolReadd
import Ironcat.ReorgAtomicity

/-!
# The mempool across a failed reorganization

Connecting the blocks of a fork takes their transactions out of the mempool,
and every transaction that conflicts with them. After a rollback only the
former are offered again, so the mempool is whole again exactly when there was
no conflict and the mempool would still take the former.
-/

namespace Ironcat.ReorgMempool

open Lib.Checked Lib.Runs Types Validation BlockFiles Chainstate Ledger History
open Difficulty Headers HeaderTree HeaderRuns Mempool MempoolClosure MempoolReadd Reorg
open ReorgHistory ReorgAtomicity

variable {P : Primitives} {ord : IterOrder} {bs : BlockStore} {pool : Pool}
variable {path : List (Hash256 × ℕ)} {st st' : Connecting}

def Stores (bs : BlockStore) (path : List (Hash256 × ℕ)) (block : Block) : Prop :=
  ∃ e ∈ path, bs.loadAndDeserialize e.1 = .ok block

variable {block : Block} {path' : List (Hash256 × ℕ)}

theorem stores_append :
    Stores bs (path ++ path') block ↔ Stores bs path block ∨ Stores bs path' block := by
  simp [Stores, or_and_right, exists_or]

theorem stores_concat {e : Hash256 × ℕ} :
    Stores bs (path ++ [e]) block ↔
      Stores bs path block ∨ bs.loadAndDeserialize e.1 = .ok block := by
  rw [stores_append]
  simp [Stores]

theorem mem_of_loads {blocks : List Block} (h : Loads bs path blocks) :
    Stores bs path block ↔ block ∈ blocks := by
  have hiff : Except.ok block ∈ path.map (fun e => bs.loadAndDeserialize e.1) ↔ block ∈ blocks := by
    rw [h]
    simp
  rw [← hiff, List.mem_map]
  exact Iff.rfl

def NoConflict (P : Primitives) (pool : Pool) (block : Block) : Prop :=
  ∀ tx ∈ block.transactions, ∀ o ∈ spentOutpoints tx, ∀ txid,
    pool.spends.lookup o = some txid → txid = tx.txid P

theorem connectStep_eq_ok {e : Hash256 × ℕ} (h : connectStep P bs st e = .ok st') :
    ∃ block, bs.loadAndDeserialize e.1 = .ok block ∧
      connectBlock P st.chainstate block (UInt32.ofNat e.2) e.1 = .ok st'.chainstate ∧
      st'.mempool = st.mempool.removeBlockTxs P block ∧
      st'.mempoolRemovedTxs = st.mempoolRemovedTxs ++
        block.transactions.filter fun tx => !tx.isCoinbase && st.mempool.contains (tx.txid P) := by
  simp only [connectStep, connectEntry, bind_eq_ok, pure_eq_ok, mapError_eq_ok] at h
  obtain ⟨_, ⟨block, hload, cs, hconn, rfl⟩, rfl⟩ := h
  exact ⟨block, hload, hconn, rfl, rfl⟩

theorem connectSteps_keeps {I : Pool → Prop} (hI : KeptByDrop I) (h : I st.mempool)
    (hsteps : path.foldlM (connectStep P bs) st = .ok st') : I st'.mempool := by
  refine foldlM_invariant (fun st => I st.mempool) (fun e _ m m' hm hstep => ?_) h hsteps
  obtain ⟨block, _, _, hpool, _⟩ := connectStep_eq_ok hstep
  rw [hpool]
  exact removeBlockTxs_keeps hI hm

structure Confirmed (P : Primitives) (bs : BlockStore) (pool : Pool) (path : List (Hash256 × ℕ))
    (st : Connecting) : Prop where
  indexed : Indexed P st.mempool
  within : Subpool st.mempool pool
  clean : ∀ block, Stores bs path block → ∀ tx ∈ block.transactions, ∀ o ∈ spentOutpoints tx,
    o ∉ st.mempool.spends
  gone : ∀ block, Stores bs path block → ∀ tx ∈ block.transactions, tx.txid P ∉ st.mempool.txs
  origin : ∀ tx ∈ st.mempoolRemovedTxs, ¬ tx.isCoinbase ∧ tx.txid P ∈ pool.txs ∧
    ∃ block, Stores bs path block ∧ tx ∈ block.transactions

theorem notMem_spends (h : Indexed P pool) {o : OutPoint}
    (hnot : ∀ txid e, pool.txs.lookup txid = some e → o ∉ e.tx.prevOutputs) : o ∉ pool.spends := by
  intro ho
  obtain ⟨txid, htxid⟩ := Finmap.mem_iff.mp ho
  obtain ⟨e, he, hmem⟩ := (h.spends o txid).mp htxid
  exact hnot txid e he hmem

theorem Confirmed.step {e : Hash256 × ℕ} (h : Confirmed P bs pool path st)
    (hstep : connectStep P bs st e = .ok st') : Confirmed P bs pool (path ++ [e]) st' := by
  obtain ⟨block, hload, _, hpool, hremoved⟩ := connectStep_eq_ok hstep
  obtain ⟨hindexed, hwithin, hgone, hspent⟩ := removeBlockTxs_clean h.indexed block
  rw [← hpool] at hindexed hwithin hgone hspent
  refine ⟨hindexed, hwithin.trans h.within, fun block' hblock' tx htx o ho => ?_,
    fun block' hblock' tx htx => ?_, fun tx htx => ?_⟩
  · refine notMem_spends hindexed fun txid e' he' hmem => ?_
    rcases stores_concat.mp hblock' with hbefore | hload'
    · refine h.clean block' hbefore tx htx o ho ?_
      exact Finmap.mem_of_lookup_eq_some ((h.indexed.spends o txid).mpr ⟨e', hwithin _ _ he', hmem⟩)
    · obtain rfl := Except.ok.inj (hload.symm.trans hload')
      exact hspent txid e' he' o hmem tx htx ho
  · rcases stores_concat.mp hblock' with hbefore | hload'
    · exact hwithin.notMem (h.gone block' hbefore tx htx)
    · obtain rfl := Except.ok.inj (hload.symm.trans hload')
      exact hgone tx htx
  · rw [hremoved] at htx
    rcases List.mem_append.mp htx with htx | htx
    · obtain ⟨hcb, hin, block', hblock', hmem⟩ := h.origin tx htx
      exact ⟨hcb, hin, block', stores_concat.mpr (.inl hblock'), hmem⟩
    · simp only [List.mem_filter, Bool.and_eq_true, Bool.not_eq_true', Pool.contains,
        decide_eq_true_eq] at htx
      obtain ⟨hmem, hcb, hin⟩ := htx
      obtain ⟨e', he'⟩ := mem_iff_lookup.mp hin
      exact ⟨by simp [hcb], mem_iff_lookup.mpr ⟨e', h.within _ _ he'⟩, block,
        stores_concat.mpr (.inr hload), hmem⟩

theorem connectSteps_confirmed {old : Disconnecting} {node : Node} (hindexed : Indexed P node.mempool)
    (hsteps : path.foldlM (connectStep P bs) (node.connecting old) = .ok st) :
    Confirmed P bs node.mempool path st := by
  induction path using List.reverseRecOn generalizing st with
  | nil =>
    obtain rfl := foldlM_nil_eq_ok.mp hsteps
    exact ⟨hindexed, Subpool.refl _, by simp [Stores], by simp [Stores], by simp [Node.connecting]⟩
  | append_singleton path e ih =>
    obtain ⟨mid, hmid, hstep⟩ := foldlM_concat_eq_ok.mp hsteps
    exact (ih hmid).step hstep

variable {tx : Transaction}

theorem mem_conflicts {txid c : Hash256} (h : c ∈ pool.conflicts txid tx) :
    c ≠ txid ∧ ∃ o ∈ spentOutpoints tx, pool.spends.lookup o = some c := by
  unfold Pool.conflicts at h
  split_ifs at h with hcb
  · exact absurd h List.not_mem_nil
  · rw [List.mem_filter, List.mem_filterMap] at h
    obtain ⟨⟨o, ho, hlookup⟩, hne⟩ := h
    exact ⟨by simpa using hne, o, by simpa [spentOutpoints, hcb] using ho, hlookup⟩

theorem confirmTxs_conflicts (hindexed : Indexed P pool) (txs : List Transaction) :
    ∀ c ∈ (txs.foldl (Pool.confirmTx P) (pool, [])).2, ∃ tx ∈ txs, c ≠ tx.txid P ∧
      ∃ o ∈ spentOutpoints tx, pool.spends.lookup o = some c := by
  induction txs using List.reverseRecOn with
  | nil => simp
  | append_singleton txs tx ih =>
    intro c hc
    have hbefore := confirmTxs_spec hindexed txs
    obtain ⟨hindexed', hwithin, _⟩ := hbefore.indexed.removeConfirmed (tx.txid P)
    rw [List.foldl_append] at hc
    rcases List.mem_append.mp hc with hc | hc
    · obtain ⟨tx', htx', hne, hspends⟩ := ih c hc
      exact ⟨tx', List.mem_append_left _ htx', hne, hspends⟩
    · obtain ⟨hne, o, ho, hlookup⟩ := mem_conflicts hc
      refine ⟨tx, by simp, hne, o, ho, ?_⟩
      exact hindexed'.spends_within hindexed (hwithin.trans hbefore.within) hlookup

theorem removeBlockTxs_of_noConflict (hindexed : Indexed P pool) (hfree : NoConflict P pool block)
    {txid : Hash256} {e : MempoolEntry} (he : pool.txs.lookup txid = some e) :
    (pool.removeBlockTxs P block).txs.lookup txid = some e ∨
      ∃ tx ∈ block.transactions, tx.txid P = txid := by
  have hnone : (block.transactions.foldl (Pool.confirmTx P) (pool, [])).2 = [] := by
    refine List.eq_nil_iff_forall_not_mem.mpr fun c hc => ?_
    obtain ⟨tx, htx, hne, o, ho, hlookup⟩ := confirmTxs_conflicts hindexed _ c hc
    exact hne (hfree tx htx o ho c hlookup)
  change (List.foldl Pool.removeConflict _ _).txs.lookup txid = some e ∨ _
  rw [hnone]
  exact (confirmTxs_spec hindexed block.transactions).confirmed txid e he

theorem NoConflict.within {pool' : Pool} (h : NoConflict P pool block) (hindexed' : Indexed P pool')
    (hindexed : Indexed P pool) (hwithin : Subpool pool' pool) : NoConflict P pool' block :=
  fun tx htx o ho txid hlookup =>
    h tx htx o ho txid (hindexed'.spends_within hindexed hwithin hlookup)

/-- Each transaction of the pool is still there or in the snapshot. -/
def Restorable (pool : Pool) (st : Connecting) : Prop :=
  ∀ txid e, pool.txs.lookup txid = some e →
    st.mempool.txs.lookup txid = some e ∨ e.tx ∈ st.mempoolRemovedTxs

theorem Restorable.step {e : Hash256 × ℕ} (h : Restorable pool st)
    (hconfirmed : Confirmed P bs pool path st) (hindexed : Indexed P pool)
    (hcoinbase : ∀ txid e, pool.txs.lookup txid = some e → e.tx ∈ block.transactions →
      ¬ e.tx.isCoinbase) (hload : bs.loadAndDeserialize e.1 = .ok block)
    (hdistinct : TxidsDistinct P pool block.transactions) (hfree : NoConflict P pool block)
    (hstep : connectStep P bs st e = .ok st') : Restorable pool st' := by
  obtain ⟨block', hload', _, hpool, hremoved⟩ := connectStep_eq_ok hstep
  obtain rfl := Except.ok.inj (hload.symm.trans hload')
  intro txid entry hentry
  rw [hpool, hremoved]
  rcases h txid entry hentry with hin | hin
  · have hfree' := hfree.within hconfirmed.indexed hindexed hconfirmed.within
    rcases removeBlockTxs_of_noConflict hconfirmed.indexed hfree' hin with hkept | ⟨tx, htx, hid⟩
    · exact .inl hkept
    · obtain rfl : tx = entry.tx := hdistinct txid entry hentry tx htx
        (hid.trans (hindexed.keyed txid entry hentry).symm)
      refine .inr (List.mem_append_right _ (List.mem_filter.mpr ⟨htx, ?_⟩))
      have hcontains : st.mempool.contains (entry.tx.txid P) = true := by
        simpa [Pool.contains, hid] using mem_iff_lookup.mpr ⟨entry, hin⟩
      simp [hcoinbase txid entry hentry htx, hcontains]
  · exact .inr (List.mem_append_left _ hin)

theorem connectSteps_recoverable {old : Disconnecting} {node : Node}
    (hindexed : Indexed P node.mempool)
    (hcoinbase : ∀ block, Stores bs path block → ∀ txid e,
      node.mempool.txs.lookup txid = some e → e.tx ∈ block.transactions → ¬ e.tx.isCoinbase)
    (hdistinct : ∀ block, Stores bs path block → TxidsDistinct P node.mempool block.transactions)
    (hfree : ∀ block, Stores bs path block → NoConflict P node.mempool block)
    (hsteps : path.foldlM (connectStep P bs) (node.connecting old) = .ok st) :
    Restorable node.mempool st := by
  induction path using List.reverseRecOn generalizing st with
  | nil =>
    obtain rfl := foldlM_nil_eq_ok.mp hsteps
    exact fun _ _ => .inl
  | append_singleton path e ih =>
    obtain ⟨mid, hmid, hstep⟩ := foldlM_concat_eq_ok.mp hsteps
    have hbelow : ∀ block, Stores bs path block → Stores bs (path ++ [e]) block :=
      fun block hblock => stores_concat.mpr (.inl hblock)
    have hbefore := ih (fun block h => hcoinbase block (hbelow block h))
      (fun block h => hdistinct block (hbelow block h)) (fun block h => hfree block (hbelow block h))
      hmid
    obtain ⟨block, hload, _⟩ := connectStep_eq_ok hstep
    have hblock : Stores bs (path ++ [e]) block := stores_concat.mpr (.inr hload)
    exact hbefore.step (connectSteps_confirmed hindexed hmid) hindexed (hcoinbase block hblock) hload
      (hdistinct block hblock) (hfree block hblock) hstep

/-- Index and size counter are those of the entries, and parents come before
children. -/
structure Orderly (P : Primitives) (pool : Pool) : Prop where
  stocked : Stocked P (poolTxs pool) pool
  ordered : ∃ rank : Hash256 → ℕ, ∀ txid e, pool.txs.lookup txid = some e →
    ∀ o ∈ e.tx.prevOutputs, o.txid ∈ pool.txs → rank o.txid < rank txid

/-- The transaction would be accepted again if it were taken out. -/
def Reaccepts (P : Primitives) (ord : IterOrder) (cs : ChainState) (pool : Pool) (txid : Hash256)
    (e : MempoolEntry) : Prop :=
  ∃ r, (pool.drop txid e).acceptTx P ord e.tx cs = .ok r

/-- A block does not conflict with the mempool, and what it confirms would be
accepted again. -/
structure Reversible (P : Primitives) (ord : IterOrder) (node : Node) (block : Block) : Prop where
  free : NoConflict P node.mempool block
  reaccepts : ∀ tx ∈ block.transactions, ∀ e, node.mempool.txs.lookup (tx.txid P) = some e →
    Reaccepts P ord node.chainstate node.mempool (tx.txid P) e

/-- Every block of a valid start of the fork is reversible. -/
def ReversibleFork (P : Primitives) (ord : IterOrder) (bs : BlockStore) (cs₀ : ChainState)
    (node : Node) (branch : List Block) : Prop :=
  ∀ down up, Planned bs node down up → ∀ done, done <+: up →
    ValidFork P bs cs₀ (branch.drop down.length) done →
    ∀ block, Stores bs done block → Reversible P ord node block

/-- The blocks of the fork hold no other transaction under a txid of the
mempool. -/
def ForkDistinct (P : Primitives) (bs : BlockStore) (node : Node) : Prop :=
  ∀ down up, Planned bs node down up → ∀ block, Stores bs up block →
    TxidsDistinct P node.mempool block.transactions

theorem Stores.mono (h : Stores bs path block) (hpre : path <+: path') : Stores bs path' block := by
  obtain ⟨e, he, hload⟩ := h
  exact ⟨e, hpre.subset he, hload⟩

theorem mem_poolTxs {txid : Hash256} {e : MempoolEntry} (h : pool.txs.lookup txid = some e) :
    e.tx ∈ poolTxs pool := by
  have hmem : (⟨txid, e⟩ : Sigma fun _ : Hash256 => MempoolEntry) ∈ pool.txs.entries :=
    mem_entries.mpr h
  exact List.mem_map.mpr ⟨_, hmem, rfl⟩

section Orderly

variable {cs cs' : ChainState} {refill : Pool} {txid : Hash256} {e : MempoolEntry}

theorem Reaccepts.not_coinbase (h : Reaccepts P ord cs pool txid e) : ¬ e.tx.isCoinbase := by
  obtain ⟨r, hr⟩ := h
  simp only [Pool.acceptTx, bind_eq_ok, ensure_eq_ok] at hr
  obtain ⟨_, _, _, hcb, _⟩ := hr
  exact hcb

theorem lookup_of_taken (hindexed : Indexed P pool) (hrefill : Stocked P (poolTxs pool) refill)
    (he : refill.txs.lookup txid = some e) : ∃ e', pool.txs.lookup txid = some e' ∧ e'.tx = e.tx := by
  obtain ⟨entry, hentry, htx⟩ := List.mem_map.mp (hrefill.taken txid e he)
  have hlookup := mem_entries.mp hentry
  have hid := hindexed.keyed _ _ hlookup
  rw [htx, hrefill.indexed.keyed txid e he] at hid
  exact ⟨entry.2, hid ▸ hlookup, htx⟩

theorem Reaccepts.accepts (h : Reaccepts P ord cs pool txid e) (hindexed : Indexed P pool)
    (hutxos : cs'.utxos = cs.utxos) (hrefill : Stocked P (poolTxs pool) refill)
    (he : pool.txs.lookup txid = some e) (hmissing : txid ∉ refill.txs)
    (hparents : ∀ o ∈ e.tx.prevOutputs, o.txid ∈ pool.txs → o.txid ∈ refill.txs) :
    ∃ r, refill.acceptTx P ord e.tx cs' = .ok r := by
  obtain ⟨r, hr⟩ := h
  have hshares : SharesParents (pool.drop txid e) refill e.tx := by
    intro o ho p hp
    have hp' := drop_within _ _ hp
    obtain ⟨p', hp''⟩ := mem_iff_lookup.mp (hparents o ho (mem_iff_lookup.mpr ⟨p, hp'⟩))
    obtain ⟨p₀, hp₀, htx⟩ := lookup_of_taken hindexed hrefill hp''
    obtain rfl := Option.mem_unique hp' hp₀
    exact ⟨p', hp'', htx.symm⟩
  refine acceptTx_of_agree hutxos hshares hr ?_ fun o ho => ?_
  · rw [hindexed.keyed txid e he]
    exact hmissing
  · refine notMem_spends hrefill.indexed fun k e' hk hmem => ?_
    -- the spender in `refill` is a transaction of `pool` too, hence the same one
    obtain ⟨e₀, he₀, htx⟩ := lookup_of_taken hindexed hrefill hk
    have hspends := (hindexed.spends o k).mpr ⟨e₀, he₀, htx ▸ hmem⟩
    have hspends' := (hindexed.spends o txid).mpr ⟨e, he, ho⟩
    have hid : k = txid := Option.mem_unique hspends hspends'
    exact hmissing (hid ▸ mem_iff_lookup.mpr ⟨e', hk⟩)

/-- Conversely, a transaction that is accepted next to some of the others would
be accepted next to all of them. -/
theorem reaccepts_of_acceptTx {r : Pool × Hash256} (hindexed : Indexed P pool)
    (hutxos : cs'.utxos = cs.utxos) (hrefill : Stocked P (poolTxs pool) refill)
    (he : pool.txs.lookup txid = some e) (h : refill.acceptTx P ord e.tx cs' = .ok r) :
    Reaccepts P ord cs pool txid e := by
  obtain ⟨_, _⟩ := r
  obtain ⟨_, -, hkey, hnew, -⟩ := acceptTx_eq_insert h
  rw [← hkey, hindexed.keyed txid e he] at hnew
  have hshares : SharesParents refill (pool.drop txid e) e.tx := by
    intro o _ p hp
    obtain ⟨p₀, hp₀, htx⟩ := lookup_of_taken hindexed hrefill hp
    refine ⟨p₀, ?_, htx⟩
    rw [lookup_drop, if_neg, hp₀]
    exact fun heq => hnew (heq ▸ mem_iff_lookup.mpr ⟨p, hp⟩)
  refine acceptTx_of_agree hutxos.symm hshares h ?_ fun o ho => ?_
  · rw [hindexed.keyed txid e he]
    exact notMem_drop
  · refine notMem_spends (hindexed.drop he) fun k e' hk hmem => ?_
    have hspends := ((hindexed.drop he).spends o k).mpr ⟨e', hk, hmem⟩
    have hspends' := (hindexed.spends o txid).mpr ⟨e, he, ho⟩
    have hid := (hindexed.drop he).spends_within hindexed drop_within hspends
    obtain rfl := Option.mem_unique hid hspends'
    exact notMem_drop (mem_iff_lookup.mpr ⟨e', hk⟩)

variable {rest : Pool} {removed : List Transaction}

theorem Orderly.restored (h : Orderly P pool) (hlimit : pool.totalSize ≤ pool.maxSize)
    (hutxos : cs'.utxos = cs.utxos) (hrest : Stocked P (poolTxs pool) rest)
    (hmax : rest.maxSize = pool.maxSize) (hremoved : removed ⊆ poolTxs pool)
    (hall : ∀ txid e, pool.txs.lookup txid = some e → rest.txs.lookup txid = some e ∨
      e.tx ∈ removed ∧ Reaccepts P ord cs pool txid e) :
    ∀ txid ∈ pool.txs, txid ∈ (rest.readdDisconnectedTxs P ord removed cs').1.txs := by
  have hroom : byteSizes (poolTxs pool) ≤ pool.maxSize := h.stocked.totalSize_eq ▸ hlimit
  have hrefilled : Refilled P ord cs' (poolTxs pool) rest _ _ :=
    readdDisconnectedTxs_refilled hroom hremoved hrest hmax
  obtain ⟨rank, hrank⟩ := h.ordered
  -- by induction on the rank: the parents of a transaction are back before it
  suffices hrec : ∀ n txid, rank txid = n → txid ∈ pool.txs →
      txid ∈ (rest.readdDisconnectedTxs P ord removed cs').1.txs from
    fun txid htxid => hrec _ txid rfl htxid
  intro n
  induction n using Nat.strong_induction_on with
  | _ n ih =>
    intro txid hn htxid
    obtain ⟨e, he⟩ := mem_iff_lookup.mp htxid
    rcases hall txid e he with hin | ⟨hin, hreaccepts⟩
    · exact hrefilled.kept txid (mem_iff_lookup.mpr ⟨e, hin⟩)
    · by_contra hmissing
      have hparents : ∀ o ∈ e.tx.prevOutputs, o.txid ∈ pool.txs →
          o.txid ∈ (rest.readdDisconnectedTxs P ord removed cs').1.txs := by
        intro o ho hparent
        exact ih _ (hn ▸ hrank txid e he o ho hparent) o.txid rfl hparent
      have hoffered : e.tx ∈ removed.filter fun tx => !tx.isCoinbase :=
        List.mem_filter.mpr ⟨hin, by simp [hreaccepts.not_coinbase]⟩
      rcases hrefilled.settled e.tx hoffered with hback | ⟨error, hreject⟩
      · exact hmissing (h.stocked.indexed.keyed txid e he ▸ hback)
      · obtain ⟨r, hr⟩ := hreaccepts.accepts h.stocked.indexed hutxos hrefilled.stocked he hmissing
          hparents
        cases hr.symm.trans hreject

theorem reaccepts_of_readded (hstocked : Stocked P (poolTxs pool) pool)
    (hlimit : pool.totalSize ≤ pool.maxSize) (hutxos : cs'.utxos = cs.utxos)
    (hrest : Stocked P (poolTxs pool) rest) (hmax : rest.maxSize = pool.maxSize)
    (hremoved : removed ⊆ poolTxs pool) (he : pool.txs.lookup txid = some e)
    (hmissing : txid ∉ rest.txs)
    (h : txid ∈ (rest.readdDisconnectedTxs P ord removed cs').1.txs) :
    Reaccepts P ord cs pool txid e := by
  have hroom : byteSizes (poolTxs pool) ≤ pool.maxSize := hstocked.totalSize_eq ▸ hlimit
  let I : Pool → Prop := fun p => Stocked P (poolTxs pool) p ∧ p.maxSize = pool.maxSize ∧
    ∀ k ∈ p.txs, k ∈ rest.txs ∨ ∀ e, pool.txs.lookup k = some e → Reaccepts P ord cs pool k e
  have hstep : ∀ tx ∈ removed, ∀ p p' k, I p → p.acceptTx P ord tx cs' = .ok (p', k) → I p' := by
    rintro tx htx p p' k ⟨hp, hpmax, hold⟩ haccept
    obtain ⟨hp', hpmax', -⟩ := hp.acceptTx (hpmax ▸ hroom) (hremoved htx) haccept
    refine ⟨hp', hpmax'.trans hpmax, ?_⟩
    obtain ⟨entry, hentry, rfl⟩ := List.mem_map.mp (hremoved htx)
    have hlookup := mem_entries.mp hentry
    obtain ⟨inputSum, -, hkey, -, rfl⟩ := acceptTx_eq_insert haccept
    have hdrop : KeptByDrop fun p => ∀ k ∈ p.txs, k ∈ rest.txs ∨
        ∀ e, pool.txs.lookup k = some e → Reaccepts P ord cs pool k e :=
      fun p _ _ hp _ k hk => hp k (AList.mem_erase.mp hk).2
    refine evictLoop_keeps hdrop fun k' hk' => ?_
    rcases (AList.mem_insert _).mp hk' with rfl | hk'
    · rw [← hkey, hstocked.indexed.keyed _ _ hlookup]
      refine .inr fun e he => ?_
      obtain rfl := Option.mem_unique hlookup he
      exact reaccepts_of_acceptTx hstocked.indexed hutxos hp hlookup haccept
    · exact hold k' hk'
  have hend : I _ := readdDisconnectedTxs_keeps hstep (List.Subset.refl removed)
    ⟨hrest, hmax, fun k hk => .inl hk⟩
  exact (hend.2.2 txid h).resolve_left hmissing e he

end Orderly

section Call

variable {genesis : BlockHeader} {cs₀ : ChainState} {branch : List Block} {node node' : Node}
variable {down done rest : List (Hash256 × ℕ)} {entry : Hash256 × ℕ} {old : Disconnecting}
variable {new : Connecting} {height : ℕ} {e : ConnectError}
variable (h : Rejection P ord bs node node' down done entry rest old new height e)
variable (hdistinct : ForkDistinct P bs node)
variable (hstocked : Stocked P (poolTxs node.mempool) node.mempool)
include h

theorem prefix_of_valid (hready : Ready P genesis bs cs₀ node branch)
    (hroot : node.headers.get genesis.prevHash = none)
    (hroom : node.chainstate.undoStore.fileNumber + (done ++ entry :: rest).length ≤ 0xFFFF)
    {part : List (Hash256 × ℕ)} (hpart : part <+: done ++ entry :: rest)
    (hvalid : ValidFork P bs cs₀ (branch.drop down.length) part) : part <+: done := by
  rcases List.prefix_or_prefix_of_prefix hpart (List.prefix_append done (entry :: rest)) with
    hshort | ⟨more, rfl⟩
  · exact hshort
  · cases more with
    | nil => simp
    | cons first more =>
      rw [List.prefix_append_right_inj] at hpart
      obtain ⟨rfl, -⟩ := List.cons_prefix_cons.mp hpart
      refine absurd (hvalid.of_prefix ⟨more, by simp⟩)
        (Based.not_valid_of_rejected hready.toBased hroot h.plan hroom h.reach ?_ h.fail)
      exact ⟨rest, by simp⟩

include hdistinct in
theorem fork_txidsDistinct (hblock : Stores bs done block) :
    TxidsDistinct P node.mempool block.transactions :=
  hdistinct _ _ h.plan block (hblock.mono (List.prefix_append _ _))

include hstocked in
theorem confirmed_of_rejection : Confirmed P bs node.mempool done new :=
  connectSteps_confirmed hstocked.indexed h.reach.connected

include hdistinct hstocked

/-- What the rollback leaves to be re-added. -/
theorem rollback_pool (hready : Ready P genesis bs cs₀ node branch) :
    node'.chainstate.utxos = node.chainstate.utxos ∧
      Stocked P (poolTxs node.mempool) new.mempool ∧
      new.mempool.maxSize = node.mempool.maxSize ∧
      new.mempoolRemovedTxs ⊆ poolTxs node.mempool := by
  refine ⟨?_, ?_, ?_, fun tx htx => ?_⟩
  · exact utxos_eq_of_at hready.setting.fresh
      (hready.rollback h.plan (List.prefix_append _ _) h.reach h.rollback).1 hready.start
  · exact connectSteps_keeps (fun _ _ _ hp hentry => hp.drop hentry) hstocked h.reach.connected
  · exact connectSteps_keeps (I := fun p => p.maxSize = node.mempool.maxSize)
      (fun _ _ _ hp _ => hp) rfl h.reach.connected
  · obtain ⟨-, hin, block, hblock, hmem⟩ :=
      (confirmed_of_rejection h hstocked).origin tx htx
    obtain ⟨entry', hentry'⟩ := mem_iff_lookup.mp hin
    rw [fork_txidsDistinct h hdistinct hblock _ _ hentry' tx hmem
      (hstocked.indexed.keyed _ _ hentry').symm]
    exact mem_poolTxs hentry'

theorem mempool_kept_of_reversible (hready : Ready P genesis bs cs₀ node branch)
    (hordered : Orderly P node.mempool)
    (hlimit : node.mempool.totalSize ≤ node.mempool.maxSize)
    (hreversible : ReversibleFork P ord bs cs₀ node branch) :
    ∀ txid ∈ node.mempool.txs, txid ∈ node'.mempool.txs := by
  have hindexed := hstocked.indexed
  obtain ⟨_, _, -, -, hreplayed⟩ :=
    Based.reached hready.toBased h.plan (List.prefix_append done (entry :: rest)) h.reach
  have hblocks : ∀ block, Stores bs done block → Reversible P ord node block :=
    hreversible _ _ h.plan done (List.prefix_append _ _) hreplayed.valid
  have hreaccepts : ∀ block, Stores bs done block → ∀ txid e,
      node.mempool.txs.lookup txid = some e → e.tx ∈ block.transactions →
      Reaccepts P ord node.chainstate node.mempool txid e := by
    intro block hblock txid e he hmem
    have hid := hindexed.keyed txid e he
    exact hid ▸ (hblocks block hblock).reaccepts e.tx hmem e (hid.symm ▸ he)
  have hrestorable : Restorable node.mempool new :=
    connectSteps_recoverable hindexed
      (fun block hb txid e he hmem => (hreaccepts block hb txid e he hmem).not_coinbase)
      (fun _ => fork_txidsDistinct h hdistinct) (fun block hb => (hblocks block hb).free)
      h.reach.connected
  obtain ⟨hutxos, hrest, hmax, hremoved⟩ := rollback_pool h hdistinct hstocked hready
  rw [h.mempool]
  refine hordered.restored hlimit hutxos hrest hmax hremoved fun txid e he => ?_
  refine (hrestorable txid e he).imp_right fun hin => ⟨hin, ?_⟩
  obtain ⟨-, -, block, hblock, hmem⟩ :=
    (confirmed_of_rejection h hstocked).origin e.tx hin
  exact hreaccepts block hblock txid e he hmem

theorem noConflict_of_mempool_kept (hready : Ready P genesis bs cs₀ node branch)
    (hkept : ∀ txid ∈ node.mempool.txs, txid ∈ node'.mempool.txs) (hblock : Stores bs done block) :
    NoConflict P node.mempool block := by
  intro tx htx o ho c hc
  have hindexed := hstocked.indexed
  have hpre : done <+: done ++ entry :: rest := List.prefix_append _ _
  have hconfirmed := confirmed_of_rejection h hstocked
  obtain ⟨ec, hec, hoc⟩ := (hindexed.spends o c).mp hc
  have hback := hkept c (mem_iff_lookup.mpr ⟨ec, hec⟩)
  rw [h.mempool] at hback
  rcases readdDisconnectedTxs_origin hback with hstayed | ⟨tx', htx', hid⟩
  · obtain ⟨e', he'⟩ := mem_iff_lookup.mp hstayed
    obtain rfl := Option.some.inj ((hconfirmed.within c e' he').symm.trans hec)
    have hspends := (hconfirmed.indexed.spends o c).mpr ⟨e', he', hoc⟩
    exact absurd (Finmap.mem_of_lookup_eq_some hspends) (hconfirmed.clean block hblock tx htx o ho)
  · obtain ⟨hcb, _, block', hblock', hmem⟩ := hconfirmed.origin tx' htx'
    have htx'' : tx' = ec.tx := fork_txidsDistinct h hdistinct hblock' c ec hec tx' hmem
      (hid.trans (hindexed.keyed c ec hec).symm)
    have ho' : o ∈ spentOutpoints tx' := by
      rw [spentOutpoints, if_neg hcb, htx'']
      exact hoc
    -- both transactions are on the new branch, which spends `o` once
    obtain ⟨_, _, newBlocks, below, hwalked, -⟩ := hready.walked h.plan hpre h.reach
    have honce := hwalked.current.run.spentOnce hready.setting.fresh
    have hon : ∀ {b t}, Stores bs done b → t ∈ b.transactions →
        t ∈ branchTxs (newBlocks.reverse ++ below) := fun hb ht =>
      ⟨_, List.mem_append_left _ (List.mem_reverse.mpr ((mem_of_loads hwalked.newLoads).mp hb)), ht⟩
    rw [honce.once tx (hon hblock htx) tx' (hon hblock' hmem) o ho ho', hid]

theorem reversible_of_mempool_kept (hready : Ready P genesis bs cs₀ node branch)
    (hlimit : node.mempool.totalSize ≤ node.mempool.maxSize)
    (hkept : ∀ txid ∈ node.mempool.txs, txid ∈ node'.mempool.txs) (hblock : Stores bs done block) :
    Reversible P ord node block := by
  refine ⟨noConflict_of_mempool_kept h hdistinct hstocked hready hkept hblock, ?_⟩
  intro tx htx e he
  obtain ⟨hutxos, hrest, hmax, hremoved⟩ := rollback_pool h hdistinct hstocked hready
  have hback := hkept _ (mem_iff_lookup.mpr ⟨e, he⟩)
  rw [h.mempool] at hback
  exact reaccepts_of_readded hstocked hlimit hutxos hrest hmax hremoved he
    ((confirmed_of_rejection h hstocked).gone block hblock tx htx) hback

end Call

/-- After a rollback the mempool has all its transactions again if and only if
no valid block of the fork conflicts with one of them and those they confirm
would be accepted again. -/
theorem mempool_kept_iff_reversible (P : Primitives) (ord : IterOrder) (genesis : BlockHeader)
    (bs : BlockStore) (cs₀ : ChainState) (node node' : Node) (branch : List Block) (height : ℕ)
    (e : ConnectError) (hready : Ready P genesis bs cs₀ node branch)
    (hroot : node.headers.get genesis.prevHash = none)
    (hroom : ∀ down up, Planned bs node down up →
      node.chainstate.undoStore.fileNumber + up.length ≤ 0xFFFF)
    (hpool : Orderly P node.mempool) (hlimit : node.mempool.totalSize ≤ node.mempool.maxSize)
    (hdistinct : ForkDistinct P bs node)
    (hcall : activateBestChain P ord bs node = .returned node' (.error (.connect height e))) :
    (∀ txid ∈ node.mempool.txs, txid ∈ node'.mempool.txs) ↔
      ReversibleFork P ord bs cs₀ node branch := by
  obtain ⟨down, done, entry, rest, old, new, h⟩ := activateBestChain_rejected hcall
  constructor
  · intro hkept down' up' hplan' part hpart hvalid block hblock
    obtain ⟨rfl, rfl⟩ := Prod.mk.inj (Except.ok.inj (hplan'.paths.symm.trans h.plan.paths))
    have hpre := prefix_of_valid h hready hroot (hroom _ _ h.plan) hpart hvalid
    exact reversible_of_mempool_kept h hdistinct hpool.stocked hready hlimit hkept (hblock.mono hpre)
  · exact mempool_kept_of_reversible h hdistinct hpool.stocked hready hpool hlimit

/-- The `n` first blocks above genesis, the last one first. -/
def trunk : ℕ → List Block
  | 0 => []
  | n + 1 => ⟨childOf ((trunk n).head?.elim easyGenesis Block.header) 0,
      [coinbaseTx (UInt8.ofNat (n + 1)) 5000]⟩ :: trunk n

def headerA101 : BlockHeader := childOf ((trunk 100).head?.elim easyGenesis Block.header) 1

def headerB101 : BlockHeader := childOf ((trunk 100).head?.elim easyGenesis Block.header) 2

def headerB102 : BlockHeader := childOf headerB101 0

def towerHeaders : HeaderStore :=
  run (HeaderOp.apply poly) easyStore
    (((trunk 100).reverse.map Block.header ++ [headerA101, headerB101, headerB102]).map .acceptHeader)

/-- High enough for the coinbase of the first block to be spent. -/
def tower (txs : List Transaction) : List Block := ⟨headerA101, txs⟩ :: trunk 100

def towerState (txs : List Transaction) : ChainState :=
  (connectBranch poly emptyState (tower txs)).toOption.getD emptyState

def towerNode (txs : List Transaction) (mempool : Pool) : Node :=
  ⟨towerHeaders, towerState txs, mempool⟩

def towerStore (txsA txsB txsC : List Transaction) : BlockStore :=
  flatStore [⟨headerA101, txsA⟩, ⟨headerB101, txsB⟩, ⟨headerB102, txsC⟩]

theorem towerHeaders_tree : Tree poly easyGenesis towerHeaders :=
  tree_run (tree_makeFresh poly easyGenesis ConsensusParams.testing none)
    (by decide +kernel) (by decide +kernel)

theorem towerHeaders_fork :
    (towerHeaders.get (headerA101.blockHash poly)).map StoredHeader.height = some 101 ∧
    towerHeaders.get easyGenesis.prevHash = none ∧
    towerHeaders.bestTip.1 = headerB102.blockHash poly ∧
    (findPaths towerHeaders (headerA101.blockHash poly) 101 (headerB102.blockHash poly)).toOption =
        some ([(headerA101.blockHash poly, 101)], [(headerB101.blockHash poly, 101),
            (headerB102.blockHash poly, 102)]) := by
  decide +kernel

theorem trunk_length (n : ℕ) : (trunk n).length = n := by
  induction n with
  | zero => rfl
  | succ n ih => rw [trunk, List.length_cons, ih]

theorem tower_linked (txs : List Transaction) :
    (tower txs).IsChain fun b below => b.header.prevHash = below.header.blockHash poly := by
  have htrunk : ∀ n, (trunk n).IsChain fun b below =>
      b.header.prevHash = below.header.blockHash poly := by
    intro n
    induction n with
    | zero => exact .nil
    | succ n ih =>
      rw [trunk]
      cases h : trunk n with
      | nil => exact .singleton _
      | cons below rest => exact .cons_cons rfl (h ▸ ih)
  have h := htrunk 100
  rw [tower, headerA101]
  generalize trunk 100 = rest at h ⊢
  cases rest with
  | nil => exact .singleton _
  | cons below rest => exact .cons_cons rfl h

structure TowerSound (txsA txsB txsC : List Transaction) : Prop where
  connected : (connectBranch poly emptyState (tower txsA)).toOption.isSome = true
  checked : ∀ b ∈ tower txsA, checkBlock b = .ok ()
  old : DistinctBranch poly (tower txsA)
  new : DistinctBranch poly (⟨headerB102, txsC⟩ :: ⟨headerB101, txsB⟩ :: trunk 100)
  stored : [⟨headerA101, txsA⟩, ⟨headerB101, txsB⟩, ⟨headerB102, txsC⟩].all
    (holds towerHeaders (towerStore txsA txsB txsC)) = true

instance (P : Primitives) (branch : List Block) : Decidable (DistinctBranch P branch) :=
  decidable_of_iff ((branchTxids P branch).Nodup ∧ (branchHashes P branch).Nodup)
    ⟨fun h => ⟨h.1, h.2⟩, fun h => ⟨h.1, h.2⟩⟩

instance (txsA txsB txsC : List Transaction) : Decidable (TowerSound txsA txsB txsC) :=
  decidable_of_iff (_ ∧ _ ∧ _ ∧ _ ∧ _)
    ⟨fun h => ⟨h.1, h.2.1, h.2.2.1, h.2.2.2.1, h.2.2.2.2⟩, fun h => ⟨h.1, h.2, h.3, h.4, h.5⟩⟩

namespace TowerSound

variable {txsA txsB txsC : List Transaction} {mempool : Pool} {down up : List (Hash256 × ℕ)}
variable (h : TowerSound txsA txsB txsC)
include h

theorem run : BlockRun poly emptyState (towerState txsA) (tower txsA) ∧
    (towerState txsA).tip = (headerA101.blockHash poly, 101) := by
  obtain ⟨cs, hcs⟩ := Option.isSome_iff_exists.mp h.connected
  have hstate : towerState txsA = cs := by rw [towerState, hcs, Option.getD_some]
  have hlength : (tower txsA).length = 101 := by rw [tower, List.length_cons, trunk_length]
  obtain ⟨hrun, hheight, htip⟩ := blockRun_of_connectBranch h.checked (tower_linked txsA) h.old
    (by rw [hlength]; decide) (toOption_eq_some.mp hcs)
  rw [hlength] at hheight
  rw [hstate]
  refine ⟨hrun, Prod.ext (htip ⟨headerA101, txsA⟩ ?_)
    (UInt32.toNat_inj.mp (hheight.trans (by decide)))⟩
  rw [tower, List.head?_cons]
  rfl

theorem paths (hplan : Planned bs (towerNode txsA mempool) down up) :
    down = [(headerA101.blockHash poly, 101)] ∧ up = [(headerB101.blockHash poly, 101),
        (headerB102.blockHash poly, 102)] := by
  obtain ⟨-, -, hbest, hpaths⟩ := towerHeaders_fork
  have hplanned := hplan.paths
  simp only [towerNode, h.run.2, hbest, toOption_eq_some.mp hpaths, Except.ok.injEq,
    Prod.mk.injEq] at hplanned
  exact ⟨hplanned.1.symm, hplanned.2.symm⟩

theorem loads (hplan : Planned bs (towerNode txsA mempool) down up) :
    Loads (towerStore txsA txsB txsC) down [⟨headerA101, txsA⟩] ∧
      Loads (towerStore txsA txsB txsC) up [⟨headerB101, txsB⟩, ⟨headerB102, txsC⟩] := by
  obtain ⟨rfl, rfl⟩ := h.paths hplan
  exact ⟨loads_of_holds h.stored (by simp) rfl, loads_of_holds h.stored (by simp) rfl⟩

theorem ready : Ready poly easyGenesis (towerStore txsA txsB txsC) emptyState
    (towerNode txsA mempool) (tower txsA) := by
  obtain ⟨s, hs, hheight⟩ := Option.map_eq_some_iff.mp towerHeaders_fork.1
  have hat : At poly towerHeaders emptyState (towerState txsA) (tower txsA) :=
    ⟨h.run.1, by rw [h.run.2]; exact ⟨s, hs, hheight⟩⟩
  have htree := towerHeaders_tree
  have hstored := h.stored
  have hheaders : (towerNode txsA mempool).headers = towerHeaders := by simp only [towerNode]
  have hstate : (towerNode txsA mempool).chainstate = towerState txsA := by simp only [towerNode]
  rw [← hheaders] at htree hstored hat
  rw [← hstate] at hat
  refine fork_ready htree hat hstored (fun down up hplan => ?_) h.new
  obtain ⟨rfl, rfl⟩ := h.paths hplan
  exact ⟨rfl, rfl⟩

end TowerSound

def towerSpend : Transaction where
  version := 1
  vin := [⟨⟨(coinbaseTx 1 5000).txid poly, 0⟩, [], 0⟩]
  vout := [⟨1000, []⟩]
  locktime := 0

def singlePool (tx : Transaction) : Pool :=
  (Pool.empty 1000).insert (tx.txid poly) ⟨tx, 4000, tx.toBytes.length, 1⟩

theorem lookup_singlePool {txid : Hash256} {e : MempoolEntry}
    (h : (singlePool tx).txs.lookup txid = some e) :
    txid = tx.txid poly ∧ e = ⟨tx, 4000, tx.toBytes.length, 1⟩ := by
  rw [singlePool, lookup_insert] at h
  split_ifs at h with hid
  · exact ⟨hid, (Option.some.inj h).symm⟩
  · simp [Pool.empty] at h

theorem orderly_singlePool (hparents : ∀ o ∈ tx.prevOutputs, o.txid ≠ tx.txid poly) :
    Orderly poly (singlePool tx) := by
  have hempty : Stocked poly [tx] (Pool.empty 1000) :=
    ⟨indexed_empty _ _, by simp [Pool.empty], by simp [Pool.empty], rfl⟩
  have hstocked : Stocked poly [tx] (singlePool tx) :=
    hempty.insert rfl (AList.notMem_empty _) (fun _ _ => Finmap.notMem_empty) (by simp) rfl
  refine ⟨⟨hstocked.indexed, fun _ _ => mem_poolTxs, hstocked.sized, hstocked.total⟩,
    fun _ => 0, ?_⟩
  intro txid e he o ho hparent
  obtain ⟨_, rfl⟩ := lookup_singlePool he
  obtain ⟨p, hp⟩ := mem_iff_lookup.mp hparent
  exact absurd (lookup_singlePool hp).1 (hparents o ho)

def spentNode : Node := towerNode [coinbaseTx 101 0] (singlePool towerSpend)

/-- `B101` confirms the transaction in the mempool, and `B102` claims more than
its subsidy. -/
def overpaidStore : BlockStore :=
  towerStore [coinbaseTx 101 0] [coinbaseTx 102 0, towerSpend] [coinbaseTx 103 6000000000]

theorem mempool_kept_on_rejected_fork :
    ∃ node' e, activateBestChain poly .id overpaidStore spentNode =
        .returned node' (.error (.connect 102 e)) ∧
      towerSpend.txid poly ∈ node'.mempool.txs := by
  have hsound : TowerSound [coinbaseTx 101 0] [coinbaseTx 102 0, towerSpend]
      [coinbaseTx 103 6000000000] := by
    decide +kernel
  obtain ⟨hrejected, hnumber, haccept⟩ :
      (activateBestChain poly .id overpaidStore spentNode).rejectedAt = some 102 ∧
      spentNode.chainstate.undoStore.fileNumber + 2 ≤ 0xFFFF ∧
      (((singlePool towerSpend).drop (towerSpend.txid poly)
        ⟨towerSpend, 4000, towerSpend.toBytes.length, 1⟩).acceptTx poly .id towerSpend
          spentNode.chainstate).toOption.isSome = true := by
    decide +kernel
  obtain ⟨r, hr⟩ := Option.isSome_iff_exists.mp haccept
  obtain ⟨node', e, hcall⟩ := rejectedAt_eq_some.mp hrejected
  have hpool : Orderly poly spentNode.mempool := orderly_singlePool (by decide +kernel)
  have htxs : ∀ down up, Planned overpaidStore spentNode down up → ∀ block,
      Stores overpaidStore up block → ∀ tx ∈ block.transactions, tx = towerSpend ∨
        tx.isCoinbase ∧ tx.txid poly ≠ towerSpend.txid poly := by
    intro down up hplan block hblock
    have hall : ∀ b ∈ ([⟨headerB101, [coinbaseTx 102 0, towerSpend]⟩,
        ⟨headerB102, [coinbaseTx 103 6000000000]⟩] : List Block), ∀ tx ∈ b.transactions,
        tx = towerSpend ∨ tx.isCoinbase ∧ tx.txid poly ≠ towerSpend.txid poly := by
      decide +kernel
    exact hall block ((mem_of_loads (hsound.loads hplan).2).mp hblock)
  refine ⟨node', e, hcall, ?_⟩
  refine (mempool_kept_iff_reversible poly .id easyGenesis overpaidStore emptyState spentNode
    node' _ 102 e hsound.ready ?_ ?_ hpool (by decide) ?_ hcall).mpr ?_ _
      ((AList.mem_insert _).mpr (.inl rfl))
  · simp only [spentNode, towerNode]
    exact towerHeaders_fork.2.1
  · intro down up hplan
    have hlength : up.length = 2 := by rw [(hsound.paths hplan).2]; rfl
    rw [hlength]
    exact hnumber
  · intro down up hplan block hblock txid entry hentry tx htx hid
    obtain ⟨rfl, rfl⟩ := lookup_singlePool hentry
    rcases htxs down up hplan block hblock tx htx with rfl | ⟨-, hne⟩
    · rfl
    · exact absurd hid hne
  · intro down up hplan done hdone _ block hblock
    refine ⟨fun tx htx o ho txid hspent => ?_, fun tx htx entry hentry => ?_⟩
    · obtain ⟨entry, hentry, -⟩ := (hpool.stocked.indexed.spends o txid).mp hspent
      rcases htxs down up hplan block (hblock.mono hdone) tx htx with rfl | ⟨hcb, -⟩
      · exact (lookup_singlePool hentry).1
      · simp [spentOutpoints, hcb] at ho
    · obtain ⟨hid, rfl⟩ := lookup_singlePool hentry
      rw [hid]
      exact ⟨r, toOption_eq_some.mp hr⟩

def rivalTx : Transaction := { payTx with vout := [⟨500, []⟩] }

def rivalStore : BlockStore :=
  flatStore [blockA1, ⟨headerB1, [coinbaseTx 1 0, rivalTx]⟩, blockB2 [coinbaseTx 2 6000000000]]

def rivalNode : Node where
  headers := forkHeaders
  chainstate := (connectBlock poly fundedState blockA1 1
    (headerA1.blockHash poly)).toOption.getD fundedState
  mempool := payPool

theorem rejected_fork_loses_payment :
    ∃ node' e, activateBestChain poly .id rivalStore rivalNode =
        .returned node' (.error (.connect 2 e)) ∧
      rivalNode.mempool.totalSize ≤ rivalNode.mempool.maxSize ∧
      payTx.txid poly ∈ rivalNode.mempool.txs ∧
      payTx.txid poly ∉ node'.mempool.txs := by
  have hrejected : (activateBestChain poly .id rivalStore rivalNode).rejectedAt = some 2 := by
    decide +kernel
  have hlost : payTx.txid poly ∉
      (activateBestChain poly .id rivalStore rivalNode).node.mempool.txs := by
    decide +kernel
  obtain ⟨node', e, hcall⟩ := rejectedAt_eq_some.mp hrejected
  rw [hcall] at hlost
  exact ⟨node', e, hcall, by decide, by decide +kernel, hlost⟩

end Ironcat.ReorgMempool
