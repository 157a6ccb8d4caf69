import Ironcat.CoinFrame
import Ironcat.DownloadWindow
import Ironcat.MempoolReadd

/-!
# The mempool after connected blocks

`connect_and_store` drops the confirmed and the conflicting transactions only if
it gets the lock of the mempool at once, and no later pass makes up for it.
`handle_tx` waits for the lock and reads coins while it holds it; a block may be
connected in between. Where each attempt to get the lock succeeds, the pool has
nothing in it that a connected block has confirmed or made unspendable.
-/

namespace Ironcat.MempoolLock

open Lib.Checked Lib.Runs Types Validation Chainstate Ledger CoinFrame
open Mempool MempoolClosure MempoolReadd BlockDownload

variable {P : Primitives} {pool pool' : Pool} {past T : Set Transaction} {s : PoolTasks}

/-- No pool transaction is one of the transactions or spends what they spend. -/
def Clean (P : Primitives) (pool : Pool) (txs : Set Transaction) : Prop :=
  (∀ tx ∈ txs, tx.txid P ∉ pool.txs) ∧
    ∀ txid e, pool.txs.lookup txid = some e → ∀ o ∈ e.tx.prevOutputs, ∀ tx ∈ txs,
      o ∉ spentOutpoints tx

/-- Who holds the lock: a number of readers, or `handle_tx` with the chainstate as
it has read it. -/
inductive Lock
  | shared (readers : ℕ)
  | handleTx (tx : Transaction) (view : ChainState)

def Lock.free : Lock := .shared 0

def Lock.readers : Lock → Option ℕ
  | .shared readers => some readers
  | .handleTx _ _ => none

/-- The chainstate, the mempool and its lock. Between `connect_block` and
`try_write` the manager has a block in its hands; `connected` lists those it is
done with and is read by no function. -/
structure PoolTasks where
  chainstate : ChainState
  pool : Pool
  lock : Lock
  connecting : Option Block
  connected : List Block

inductive PoolMove
  | lockRead
  | unlockRead
  | lockWrite (tx : Transaction)
  | readCoins
  | acceptTx (ord : IterOrder)
  | connectBlock (hash : Hash256) (block : Block) (height : UInt32)
  | tryWrite

def PoolMove.txs : PoolMove → List Transaction
  | .lockWrite tx => [tx]
  | .connectBlock _ block _ => block.transactions
  | _ => []

/-- The pool after the attempt to remove the transactions of the block. -/
def PoolTasks.cleaned (P : Primitives) (s : PoolTasks) (block : Block) : Pool :=
  match s.lock with
  | .shared 0 => s.pool.removeBlockTxs P block
  | _ => s.pool

/-- One move of `handle_tx`, of a task that reads the pool or of
`connect_and_store`. A task that cannot have the lock tries again later. -/
def PoolTasks.step (P : Primitives) (s : PoolTasks) : PoolMove → PoolTasks
  | .lockRead =>
    match s.lock with
    | .shared readers => { s with lock := .shared (readers + 1) }
    | .handleTx _ _ => s
  | .unlockRead =>
    match s.lock with
    | .shared readers => { s with lock := .shared (readers - 1) }
    | .handleTx _ _ => s
  | .lockWrite tx =>
    match s.lock with
    | .shared 0 => { s with lock := .handleTx tx s.chainstate }
    | _ => s
  | .readCoins =>
    match s.lock with
    | .handleTx tx _ => { s with lock := .handleTx tx s.chainstate }
    | .shared _ => s
  | .acceptTx ord =>
    match s.lock with
    | .handleTx tx view =>
      match s.pool.acceptTx P ord tx view with
      | .ok (pool, _) => { s with pool, lock := .free }
      | .error _ => { s with lock := .free }
    | .shared _ => s
  | .connectBlock hash block height =>
    match s.connecting, Chainstate.connectBlock P s.chainstate block height hash with
    | none, .ok chainstate => { s with chainstate, connecting := some block }
    | _, _ => s
  | .tryWrite =>
    match s.connecting with
    | none => s
    | some block =>
      { s with
        pool := s.cleaned P block
        connecting := none
        connected := s.connected ++ [block] }

def txsOf (blocks : List Block) : Set Transaction := {tx | ∃ b ∈ blocks, tx ∈ b.transactions}

/-- The transactions confirmed before the run and in it; those of a block that has
yet to reach the pool come with the second. -/
def PoolTasks.settled (past : Set Transaction) (s : PoolTasks) : Set Transaction :=
  txsOf s.connected ∪ past

def PoolTasks.confirmed (past : Set Transaction) (s : PoolTasks) : Set Transaction :=
  txsOf s.connecting.toList ∪ s.settled past

variable {lock : Lock}

theorem Lock.eq_free (h : lock.readers = some 0) : lock = .shared 0 := by
  cases lock with
  | shared readers => rw [Option.some.inj h]
  | handleTx => cases h

theorem clean_removeBlockTxs (hindexed : Indexed P pool) (block : Block) :
    Indexed P (pool.removeBlockTxs P block) ∧ Subpool (pool.removeBlockTxs P block) pool ∧
      Clean P (pool.removeBlockTxs P block) {tx | tx ∈ block.transactions} := by
  obtain ⟨hindexed', hwithin, hgone, hspent⟩ := removeBlockTxs_clean hindexed block
  exact ⟨hindexed', hwithin, hgone, hspent⟩

variable {block : Block}

/-- The two moves of `connect_and_store` do what it does at once. -/
theorem connectAndStore_of_moves {s s' : System} {amb : Ambient} {hash : Hash256}
    {rawBytes : Lib.ByteCodec.Bytes} {height : ℕ} {connected : List Block}
    (h : s.connectAndStore P amb hash block rawBytes height = (true, s'))
    (hlock : lock = .free ↔ amb.mempoolLocked hash = false) :
    run (PoolTasks.step P) ⟨s.node.chainstate, s.node.mempool, lock, none, connected⟩
        [.connectBlock hash block (UInt32.ofNat height), .tryWrite] =
      ⟨s'.node.chainstate, s'.node.mempool, lock, none, connected ++ [block]⟩ := by
  unfold System.connectAndStore at h
  cases hconnect : Chainstate.connectBlock P s.node.chainstate block (UInt32.ofNat height) hash with
  | error e =>
    rw [hconnect] at h
    cases h
  | ok cs =>
    obtain ⟨_, _, _, hstore⟩ := storeBlockData_eq amb
      ((s.setChainstate cs).removeConfirmed P amb hash block) hash rawBytes
    rw [hconnect] at h
    dsimp only at h
    rw [hstore] at h
    cases h
    simp only [run_cons, run_nil, PoolTasks.step, PoolTasks.cleaned, hconnect, System.removeConfirmed]
    by_cases hfree : lock = .free
    · simp [hfree, hlock.mp hfree, Lock.free, System.setChainstate]
    · have hlocked : amb.mempoolLocked hash = true :=
        Bool.eq_true_of_not_eq_false fun hf => hfree (hlock.mpr hf)
      cases lock with
      | handleTx => simp [hlocked, System.setChainstate]
      | shared readers =>
        cases readers with
        | zero => exact absurd rfl hfree
        | succ readers => simp [hlocked, System.setChainstate]

theorem Clean.within (h : Clean P pool past) (hwithin : Subpool pool' pool) : Clean P pool' past :=
  ⟨fun tx htx => hwithin.notMem (h.1 tx htx), fun txid e he => h.2 txid e (hwithin txid e he)⟩

theorem Clean.union {txs : Set Transaction} (h : Clean P pool past) (h' : Clean P pool txs) :
    Clean P pool (txs ∪ past) :=
  ⟨fun tx htx => htx.elim (h'.1 tx) (h.1 tx),
    fun txid e he o ho tx htx => htx.elim (h'.2 txid e he o ho tx) (h.2 txid e he o ho tx)⟩

/-- What `accept_tx` reads has no coin that a settled block spent: it accepts
nothing that is confirmed or spends such a coin. -/
theorem Clean.acceptTx {ord : IterOrder} {tx : Transaction} {view : ChainState} {txid : Hash256}
    (h : Clean P pool past) (hindexed : Indexed P pool)
    (hsource : ∀ t ∈ past, ∀ o ∈ spentOutpoints t, ∃ t' ∈ past, o.txid = t'.txid P)
    (hview : ∀ t ∈ past, ∀ o ∈ spentOutpoints t, o ∉ view.utxos)
    (hinj : Set.InjOn (Transaction.txid P) T) (hpast : past ⊆ T) (htx : tx ∈ T)
    (haccept : pool.acceptTx P ord tx view = .ok (pool', txid)) :
    Indexed P pool' ∧ Clean P pool' past := by
  obtain ⟨entry, rfl, _, hkey, hnew, havail, rfl⟩ := acceptTx_eq_ok haccept
  have hinserted := hindexed.insert hkey hnew fun o ho => (havail o ho).1
  have hunspent : ∀ o ∈ entry.tx.prevOutputs, ∀ t ∈ past, o ∉ spentOutpoints t := by
    intro o ho t ht hspent
    rcases (havail o ho).2 with hcoin | ⟨p, hp, _⟩
    · exact hview t ht o hspent hcoin
    · obtain ⟨t', ht', htxid⟩ := hsource t ht o hspent
      exact h.1 t' ht' (htxid ▸ mem_iff_lookup.mpr ⟨p, hp⟩)
  have hinputs : entry.tx.isCoinbase = false ∧ entry.tx.prevOutputs ≠ [] := by
    simp only [Pool.acceptTx, bind_eq_ok, ensure_eq_ok, mapError_eq_ok] at haccept
    obtain ⟨_, hcheck, _, hcoinbase, _⟩ := haccept
    have hvin := (checkTransaction_ok_iff.mp hcheck).inputs
    exact ⟨by simpa using hcoinbase, by simpa [Transaction.prevOutputs] using hvin⟩
  have hclean : Clean P (pool.insert txid entry) past := by
    constructor
    · intro t ht hmem
      rcases (AList.mem_insert _).mp hmem with heq | hold
      · obtain rfl := hinj (hpast ht) htx (heq.trans hkey.symm)
        obtain ⟨o, ho⟩ := List.exists_mem_of_ne_nil _ hinputs.2
        exact hunspent o ho _ ht (by rwa [spentOutpoints, if_neg (by simp [hinputs.1])])
      · exact h.1 t ht hold
    · intro k e he o ho
      rw [lookup_insert] at he
      split_ifs at he
      · exact hunspent o (Option.some.inj he ▸ ho)
      · exact h.2 k e he o ho
  exact ⟨(evictLoop_closed hinserted fun _ _ _ _ _ => .inl (Set.mem_univ _)).1,
    hclean.within evictLoop_within⟩

/-- A block passes `check_block`, and its coinbase is not one confirmed before; the
mempool lock is free when `connect_and_store` tries to get it, or only readers
hold it and there is nothing to remove. -/
def PoolReady (P : Primitives) (past : Set Transaction) (s : PoolTasks) : PoolMove → Prop
  | .connectBlock _ block _ => checkBlock block = .ok () ∧
      ∀ tx ∈ block.transactions, tx.isCoinbase → (∀ b ∈ s.connected, tx ∉ b.transactions) ∧ tx ∉ past
  | .tryWrite => ∀ block, s.connecting = some block → s.lock.readers = some 0 ∨
      s.lock.readers.isSome ∧ Clean P s.pool {tx | tx ∈ block.transactions}
  | _ => True

structure PoolInv (P : Primitives) (T past : Set Transaction) (s : PoolTasks) : Prop where
  known : s.confirmed past ⊆ T
  issued : Issued P s.chainstate.utxos (s.confirmed past)
  source : ∀ t ∈ s.settled past, ∀ o ∈ spentOutpoints t, ∃ t' ∈ s.settled past, o.txid = t'.txid P
  indexed : Indexed P s.pool
  clean : Clean P s.pool (s.settled past)
  view : ∀ tx view, s.lock = .handleTx tx view → tx ∈ T ∧
    ∀ t ∈ s.settled past, ∀ o ∈ spentOutpoints t, o ∉ view.utxos

theorem PoolInv.coins (h : PoolInv P T past s) :
    ∀ t ∈ s.settled past, ∀ o ∈ spentOutpoints t, o ∉ s.chainstate.utxos :=
  fun t ht o ho => (h.issued.spent t (.inr ht) o ho).2

/-- Only the lock changes hands. -/
theorem PoolInv.relock (h : PoolInv P T past s)
    (hview : ∀ tx view, lock = .handleTx tx view → tx ∈ T ∧
      ∀ t ∈ s.settled past, ∀ o ∈ spentOutpoints t, o ∉ view.utxos) :
    PoolInv P T past { s with lock } :=
  ⟨h.known, h.issued, h.source, h.indexed, h.clean, hview⟩

theorem PoolInv.acceptTx (hinj : Set.InjOn (Transaction.txid P) T) (h : PoolInv P T past s)
    (ord : IterOrder) : PoolInv P T past (s.step P (.acceptTx ord)) := by
  simp only [PoolTasks.step]
  split
  · next tx view hlock =>
    obtain ⟨htx, hview⟩ := h.view tx view hlock
    split
    · next pool txid haccept =>
      obtain ⟨hindexed, hclean⟩ := h.clean.acceptTx h.indexed h.source hview hinj
        (Set.subset_union_right.trans h.known) htx haccept
      exact ⟨h.known, h.issued, h.source, hindexed, hclean, fun _ _ hfree => nomatch hfree⟩
    · exact h.relock fun _ _ hfree => nomatch hfree
  · exact h

theorem PoolInv.connectBlock (hinj : Set.InjOn (Transaction.txid P) T) (h : PoolInv P T past s)
    {hash : Hash256} {height : UInt32} (hsub : ∀ tx ∈ block.transactions, tx ∈ T)
    (hready : PoolReady P past s (.connectBlock hash block height)) :
    PoolInv P T past (s.step P (.connectBlock hash block height)) := by
  simp only [PoolTasks.step]
  split
  · next cs hnone hconnect =>
    have hsettled : s.confirmed past = s.settled past := by
      simp [PoolTasks.confirmed, hnone, txsOf]
    have hnew : txsOf (some block).toList = {tx | tx ∈ block.transactions} := by simp [txsOf]
    have hknown : {tx | tx ∈ block.transactions} ∪ s.settled past ⊆ T :=
      Set.union_subset hsub (hsettled ▸ h.known)
    refine ⟨?_, ?_, h.source, h.indexed, h.clean, h.view⟩
    · change txsOf (some block).toList ∪ s.settled past ⊆ T
      rwa [hnew]
    · change Issued P cs.utxos (txsOf (some block).toList ∪ s.settled past)
      rw [hnew]
      have hissued := hsettled ▸ h.issued
      refine (hissued.connectBlock hready.1 hconnect (fun tx htx hcb => ?_) (hinj.mono hknown)).1
      obtain ⟨hblocks, hpast⟩ := hready.2 tx htx hcb
      rintro (⟨b, hb, hmem⟩ | hmem)
      · exact hblocks b hb hmem
      · exact hpast hmem
  · exact h

theorem PoolInv.cleaned (h : PoolInv P T past s) (hblock : s.connecting = some block)
    (hready : PoolReady P past s .tryWrite) :
    Indexed P (s.cleaned P block) ∧ Clean P (s.cleaned P block) (s.confirmed past) := by
  obtain ⟨hindexed, hwithin, hclean⟩ := clean_removeBlockTxs h.indexed block
  have hconfirmed : s.confirmed past = {tx | tx ∈ block.transactions} ∪ s.settled past := by
    simp [PoolTasks.confirmed, hblock, txsOf]
  rw [hconfirmed]
  have hremoved := (h.clean.within hwithin).union hclean
  have hlock := hready block hblock
  unfold PoolTasks.cleaned
  split
  · exact ⟨hindexed, hremoved⟩
  · next hheld =>
    rcases hlock with hfree | ⟨_, hnothing⟩
    · exact absurd (Lock.eq_free hfree) hheld
    · exact ⟨h.indexed, h.clean.union hnothing⟩

theorem txsOf_append (blocks : List Block) (block : Block) :
    txsOf (blocks ++ [block]) = txsOf [block] ∪ txsOf blocks := by
  ext tx
  simp only [txsOf, List.mem_append, List.mem_singleton, Set.mem_union, Set.mem_ofPred_eq]
  constructor
  · rintro ⟨b, hb | rfl, htx⟩
    · exact .inr ⟨b, hb, htx⟩
    · exact .inl ⟨_, rfl, htx⟩
  · rintro (⟨b, rfl, htx⟩ | ⟨b, hb, htx⟩)
    · exact ⟨_, .inr rfl, htx⟩
    · exact ⟨b, .inl hb, htx⟩

theorem PoolInv.tryWrite (h : PoolInv P T past s) (hready : PoolReady P past s .tryWrite) :
    PoolInv P T past (s.step P .tryWrite) := by
  simp only [PoolTasks.step]
  split
  · exact h
  · next block hblock =>
    obtain ⟨hindexed, hclean⟩ := h.cleaned hblock hready
    have hsettled : txsOf (s.connected ++ [block]) ∪ past = s.confirmed past := by
      rw [txsOf_append, Set.union_assoc, PoolTasks.confirmed, hblock]
      rfl
    have hempty : txsOf (none : Option Block).toList = ∅ := by simp [txsOf]
    refine ⟨?_, ?_, ?_, hindexed, ?_, fun tx view hlock => ?_⟩
    · simpa only [PoolTasks.confirmed, PoolTasks.settled, hempty, Set.empty_union, hsettled]
        using h.known
    · simpa only [PoolTasks.confirmed, PoolTasks.settled, hempty, Set.empty_union, hsettled]
        using h.issued
    · simp only [PoolTasks.settled, hsettled]
      exact fun t ht o ho => (h.issued.spent t ht o ho).1
    · simpa only [PoolTasks.settled, hsettled] using hclean
    · have hshared := hready block hblock
      simp [show s.lock = .handleTx tx view from hlock, Lock.readers] at hshared

theorem poolInv_step (hinj : Set.InjOn (Transaction.txid P) T) {move : PoolMove}
    (hsub : ∀ tx ∈ move.txs, tx ∈ T) (h : PoolInv P T past s) (hready : PoolReady P past s move) :
    PoolInv P T past (s.step P move) := by
  cases move with
  | lockRead | unlockRead =>
    simp only [PoolTasks.step]
    split
    · exact h.relock fun _ _ hshared => nomatch hshared
    · exact h
  | lockWrite tx =>
    simp only [PoolTasks.step]
    split
    · refine h.relock fun _ _ heq => ?_
      cases heq
      exact ⟨hsub tx (List.mem_singleton_self tx), h.coins⟩
    · exact h
  | readCoins =>
    simp only [PoolTasks.step]
    split
    · next tx view hlock =>
      refine h.relock fun _ _ heq => ?_
      cases heq
      exact ⟨(h.view tx view hlock).1, h.coins⟩
    · exact h
  | acceptTx ord => exact h.acceptTx hinj ord
  | connectBlock hash block height => exact h.connectBlock hinj hsub hready
  | tryWrite => exact h.tryWrite hready

/-- In every run whose blocks get the lock, the pool is clean of every block that
`connect_and_store` is done with, at all later times. -/
theorem clean_of_connected (P : Primitives) (T past : Set Transaction)
    (hinj : Set.InjOn (Transaction.txid P) T) (hpast : past ⊆ T) (cs : ChainState) (pool : Pool)
    (hissued : Issued P cs.utxos past) (hindexed : Indexed P pool) (hclean : Clean P pool past)
    (moves : List PoolMove) (hsub : ∀ move ∈ moves, ∀ tx ∈ move.txs, tx ∈ T)
    (hready : Along (PoolTasks.step P) (PoolReady P past) ⟨cs, pool, .free, none, []⟩ moves) :
    ∀ block ∈ (run (PoolTasks.step P) ⟨cs, pool, .free, none, []⟩ moves).connected,
      Clean P (run (PoolTasks.step P) ⟨cs, pool, .free, none, []⟩ moves).pool
        {tx | tx ∈ block.transactions} := by
  have hempty : ∀ lock, PoolTasks.settled past ⟨cs, pool, lock, none, []⟩ = past ∧
      PoolTasks.confirmed past ⟨cs, pool, lock, none, []⟩ = past := by
    simp [PoolTasks.settled, PoolTasks.confirmed, txsOf]
  have hstart : PoolInv P T past ⟨cs, pool, .free, none, []⟩ := by
    refine ⟨?_, ?_, ?_, hindexed, ?_, fun _ _ hfree => nomatch hfree⟩ <;>
      simp only [(hempty _).1, (hempty _).2]
    · exact hpast
    · exact hissued
    · exact fun t ht o ho => (hissued.spent t ht o ho).1
    · exact hclean
  have hrun := run_invariant (PoolInv P T past)
    (fun s move h hcond => poolInv_step hinj hcond.2 h hcond.1) hstart (hready.and hsub)
  intro block hblock
  have hsettled : {tx | tx ∈ block.transactions} ⊆
      (run (PoolTasks.step P) ⟨cs, pool, .free, none, []⟩ moves).settled past :=
    fun tx htx => .inl ⟨block, hblock, htx⟩
  exact ⟨fun tx htx => hrun.clean.1 tx (hsettled htx),
    fun txid e he o ho tx htx => hrun.clean.2 txid e he o ho tx (hsettled htx)⟩

def mintTx : Transaction := coinbaseTx 7 2000

def mintedState : ChainState :=
  { emptyState with
    utxos := (∅ : Utxos).insert ⟨mintTx.txid poly, 0⟩ ⟨⟨2000, []⟩, 0, false⟩
    scriptVerifyHeight := 100 }

def spendTx : Transaction := { payTx with vin := [⟨⟨mintTx.txid poly, 0⟩, [], 0⟩] }

def spendBlock : Block := blockOn 0 0 [coinbaseTx 0 0, spendTx]

/-- The payment is accepted, and another task reads the pool. -/
def paying (moves : List PoolMove) : List PoolMove :=
  .lockWrite spendTx :: .readCoins :: .acceptTx .id :: .lockRead :: moves

def paid (moves : List PoolMove) : PoolTasks :=
  run (PoolTasks.step poly) ⟨mintedState, Pool.new, .free, none, []⟩ (paying moves)

theorem issued_mintedState : Issued poly mintedState.utxos {mintTx} := by
  refine ⟨fun o ho => ⟨mintTx, rfl, ?_⟩, ?_⟩
  · rcases Finmap.mem_insert.mp ho with rfl | hnone
    · rfl
    · exact absurd hnone Finmap.notMem_empty
  · rintro tx rfl o ho
    have hnone : spentOutpoints mintTx = [] := by decide
    simp [hnone] at ho

theorem clean_after_reader :
    Clean poly (paid [.unlockRead, .connectBlock 9 spendBlock 1, .tryWrite]).pool
      {tx | tx ∈ spendBlock.transactions} := by
  refine clean_of_connected poly {tx | tx ∈ [mintTx, coinbaseTx 0 0, spendTx]} {mintTx}
    (List.inj_on_of_nodup_map (by decide +kernel)) (by simp) mintedState Pool.new issued_mintedState
    (indexed_empty _ _) (by simp [Clean, Pool.new, Pool.empty])
    (paying [.unlockRead, .connectBlock 9 spendBlock 1, .tryWrite])
    (by simp [paying, PoolMove.txs, spendBlock, blockOn])
    ⟨trivial, trivial, trivial, trivial, trivial, ⟨by decide +kernel, ?_⟩,
      fun _ _ => .inl (by decide +kernel), trivial⟩ spendBlock (by decide +kernel)
  have hnew : ∀ tx ∈ spendBlock.transactions, tx.isCoinbase → tx ≠ mintTx := by decide +kernel
  have hnone : (paid [.unlockRead]).connected = [] := by decide +kernel
  refine fun tx htx hcb => ⟨fun b hb => ?_, hnew tx htx hcb⟩
  simp only [paid, paying, run_cons, run_nil] at hnone
  rw [hnone] at hb
  cases hb

/-- A task still reads the pool when the block is connected: its transaction stays. -/
theorem confirmed_kept_when_locked :
    ¬ ∀ block ∈ (paid [.connectBlock 9 spendBlock 1, .tryWrite, .unlockRead]).connected,
      Clean poly (paid [.connectBlock 9 spendBlock 1, .tryWrite, .unlockRead]).pool
        {tx | tx ∈ block.transactions} := by
  intro h
  have hkept : (paid [.connectBlock 9 spendBlock 1, .tryWrite, .unlockRead]).pool.contains
      (spendTx.txid poly) = true := by
    decide +kernel
  have hmem : spendTx ∈ spendBlock.transactions := by simp [spendBlock, blockOn]
  exact (h spendBlock (by decide +kernel)).1 spendTx hmem (of_decide_eq_true hkept)

end Ironcat.MempoolLock
