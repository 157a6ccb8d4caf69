import Ironcat.Lib.Saturation
import Ironcat.MempoolReadd

/-!
# The order of transactions that are accepted again

A transaction that the mempool accepts is still accepted after others were
added, as long as none of them has its txid or spends one of its inputs. The
passes of `readd_disconnected_txs` therefore end at the same mempool whatever
the order of the list: the one with the least set of transactions that is
closed under acceptance.
-/

namespace Ironcat.MempoolOrder

open Lib.Checked Lib.Saturation Types Chainstate Mempool
open Ironcat.MempoolClosure (mem_iff_lookup lookup_insert lookup_insert_of_notMem
  lookup_insert_spends notMem_spends_of_addInputs newEntry acceptTx_eq_insert fundedState payTx
  childTx)
open MempoolReadd

variable {P : Primitives} {ord : IterOrder} {cs : ChainState} {pool q q' : Pool}
variable {txs : List Transaction} {tx : Transaction} {S T : Set Transaction}

/-- Transactions other than coinbases that are new to the mempool and have
distinct txids, no two of which spend the same outpoint. -/
structure Offer (P : Primitives) (pool : Pool) (txs : List Transaction) : Prop where
  distinct : (txs.map fun tx => tx.txid P).Nodup
  regular : ∀ tx ∈ txs, tx.isCoinbase = false
  new : ∀ tx ∈ txs, tx.txid P ∉ pool.txs
  disjoint : ∀ tx ∈ txs, ∀ tx' ∈ txs, ∀ o ∈ tx.prevOutputs, o ∈ tx'.prevOutputs → tx = tx'

theorem Offer.eq_of_txid (h : Offer P pool txs) {tx' : Transaction} (htx : tx ∈ txs)
    (htx' : tx' ∈ txs) (heq : tx.txid P = tx'.txid P) : tx = tx' :=
  List.inj_on_of_nodup_map h.distinct htx htx' heq

variable {txs' : List Transaction}

theorem Offer.perm (h : Offer P pool txs) (hperm : txs.Perm txs') :
    Offer P pool txs' where
  distinct := (hperm.map _).nodup_iff.mp h.distinct
  regular tx htx := h.regular tx (hperm.mem_iff.mpr htx)
  new tx htx := h.new tx (hperm.mem_iff.mpr htx)
  disjoint tx htx tx' htx' := h.disjoint tx (hperm.mem_iff.mpr htx) tx' (hperm.mem_iff.mpr htx')

/-- The mempool `pool` with the transactions of a set added, as far as
`accept_tx` can tell. -/
structure HoldsTxs (P : Primitives) (pool : Pool) (S : Set Transaction) (q : Pool) : Prop where
  known : ∀ tx ∈ S, ∃ e, q.txs.lookup (tx.txid P) = some e ∧ e.tx = tx
  old : ∀ k, (∀ tx ∈ S, tx.txid P ≠ k) → q.txs.lookup k = pool.txs.lookup k
  spender : ∀ tx ∈ S, ∀ o ∈ tx.prevOutputs, q.spends.lookup o = some (tx.txid P)
  unspent : ∀ o, (∀ tx ∈ S, o ∉ tx.prevOutputs) → q.spends.lookup o = pool.spends.lookup o

theorem holds_empty : HoldsTxs P pool ∅ pool :=
  ⟨by simp, fun _ _ => rfl, by simp, fun _ _ => rfl⟩

variable {ord' : IterOrder}

section Offer

variable (hoffer : Offer P pool txs)
include hoffer

theorem HoldsTxs.add {entry : MempoolEntry} (h : HoldsTxs P pool S q) (hS : S ⊆ {t | t ∈ txs})
    (htx : tx ∈ txs) (hentry : entry.tx = tx) :
    HoldsTxs P pool (insert tx S) (q.insert (tx.txid P) entry) := by
  have hmem : insert tx S ⊆ {t | t ∈ txs} := Set.insert_subset htx hS
  constructor
  · intro t ht
    rw [lookup_insert]
    split_ifs with hkey
    · exact ⟨entry, rfl, hentry.trans (hoffer.eq_of_txid (hmem ht) htx hkey).symm⟩
    · refine h.known t (ht.resolve_left ?_)
      rintro rfl
      exact hkey rfl
  · intro k hk
    rw [lookup_insert, if_neg fun heq => hk tx (Set.mem_insert tx S) heq.symm]
    exact h.old k fun t ht => hk t (Set.mem_insert_of_mem tx ht)
  · intro t ht o ho
    rw [lookup_insert_spends, hentry]
    split_ifs with hin
    · rw [hoffer.disjoint t (hmem ht) tx htx o ho hin]
    · refine h.spender t (ht.resolve_left ?_) o ho
      rintro rfl
      exact hin ho
  · intro o ho
    rw [lookup_insert_spends, hentry, if_neg (ho tx (Set.mem_insert tx S))]
    exact h.unspent o fun t ht => ho t (Set.mem_insert_of_mem tx ht)

theorem HoldsTxs.notMem (h : HoldsTxs P pool S q) (hS : S ⊆ {t | t ∈ txs}) (htx : tx ∈ txs)
    (hnot : tx ∉ S) : tx.txid P ∉ q.txs := by
  have hother : ∀ t ∈ S, t.txid P ≠ tx.txid P := by
    intro t ht heq
    exact hnot (hoffer.eq_of_txid (hS ht) htx heq ▸ ht)
  rw [mem_iff_lookup, h.old _ hother, ← mem_iff_lookup]
  exact hoffer.new tx htx

theorem HoldsTxs.lookup_spends (h : HoldsTxs P pool S q) (hS : S ⊆ {t | t ∈ txs}) (htx : tx ∈ txs)
    (hnot : tx ∉ S) {o : OutPoint} (ho : o ∈ tx.prevOutputs) :
    q.spends.lookup o = pool.spends.lookup o := by
  refine h.unspent o fun t ht hin => hnot ?_
  exact hoffer.disjoint t (hS ht) tx htx o hin ho ▸ ht

theorem HoldsTxs.lookup_mono (h : HoldsTxs P pool S q) (h' : HoldsTxs P pool T q') (hST : S ⊆ T)
    (hT : T ⊆ {t | t ∈ txs}) {k : Hash256} {e : MempoolEntry} (hk : q.txs.lookup k = some e) :
    ∃ e', q'.txs.lookup k = some e' ∧ e'.tx = e.tx := by
  by_cases hadded : ∃ t ∈ S, t.txid P = k
  · obtain ⟨t, ht, rfl⟩ := hadded
    obtain ⟨e₁, he₁, htx₁⟩ := h.known t ht
    obtain ⟨e₂, he₂, htx₂⟩ := h'.known t (hST ht)
    obtain rfl := Option.mem_unique he₁ hk
    exact ⟨e₂, he₂, htx₂.trans htx₁.symm⟩
  · rw [h.old k fun t ht heq => hadded ⟨t, ht, heq⟩] at hk
    refine ⟨e, ?_, rfl⟩
    rw [h'.old k, hk]
    -- an offered txid is not in the mempool that the offer is made to
    rintro t ht rfl
    exact hoffer.new t (hT ht) (mem_iff_lookup.mpr ⟨e, hk⟩)

theorem HoldsTxs.acceptTx_mono {r : Pool × Hash256} (h : HoldsTxs P pool S q) (h' : HoldsTxs P pool T q')
    (hST : S ⊆ T) (hT : T ⊆ {t | t ∈ txs}) (htx : tx ∈ txs) (hnot : tx ∉ T)
    (haccept : q.acceptTx P ord tx cs = .ok r) : ∃ r', q'.acceptTx P ord' tx cs = .ok r' := by
  have hparents : SharesParents q q' tx := fun o _ e he =>
    h.lookup_mono hoffer h' hST hT he
  refine acceptTx_of_agree rfl hparents haccept (h'.notMem hoffer hT htx hnot) fun o ho => ?_
  obtain ⟨_, _⟩ := r
  obtain ⟨inputSum, hsum, -⟩ := acceptTx_eq_insert haccept
  have hunspent := notMem_spends_of_addInputs hsum o ho
  rw [Finmap.mem_iff, h.lookup_spends hoffer (hST.trans hT) htx (fun hS => hnot (hST hS)) ho]
    at hunspent
  rwa [Finmap.mem_iff, h'.lookup_spends hoffer hT htx hnot ho]

end Offer

/-- The mempool with the transactions of a list put in. `accept_tx` does not
read the fees of the entries that are there. -/
def withTxs (P : Primitives) (pool : Pool) (l : List Transaction) : Pool :=
  l.foldl (fun p tx => p.insert (tx.txid P) (newEntry tx 0)) pool

/-- `accept_tx` accepts the transaction once those of the set are in the
mempool. -/
def Accepts (P : Primitives) (ord : IterOrder) (cs : ChainState) (pool : Pool)
    (S : Set Transaction) (tx : Transaction) : Prop :=
  ∃ l : List Transaction, (∀ t, t ∈ l ↔ t ∈ S) ∧
    ∃ r, (withTxs P pool l).acceptTx P ord tx cs = .ok r

def Room (P : Primitives) (ord : IterOrder) (cs : ChainState) (pool : Pool)
    (txs : List Transaction) : Prop :=
  ∃ kept : List Transaction, Closed (Accepts P ord cs pool) {t | t ∈ txs} {t | t ∈ kept} ∧
    pool.totalSize + byteSizes kept ≤ pool.maxSize

theorem room_of_le (h : pool.totalSize + byteSizes txs ≤ pool.maxSize) : Room P ord cs pool txs :=
  ⟨txs, ⟨subset_rfl, fun _ htx _ => htx⟩, h⟩

theorem setOf_mem_cons (tx : Transaction) (l : List Transaction) :
    {t | t ∈ tx :: l} = insert tx {t | t ∈ l} := by
  ext t
  simp

theorem exists_list_of_subset (hS : S ⊆ {t | t ∈ txs}) :
    ∃ l : List Transaction, ∀ t, t ∈ l ↔ t ∈ S := by
  classical
  refine ⟨txs.filter fun t => t ∈ S, fun t => ?_⟩
  rw [List.mem_filter, decide_eq_true_eq]
  exact ⟨fun h => h.2, fun h => ⟨hS h, h⟩⟩

section Offer

variable (hoffer : Offer P pool txs)
include hoffer

theorem holds_withTxs {l : List Transaction} (hl : l ⊆ txs) :
    HoldsTxs P pool {t | t ∈ l} (withTxs P pool l) := by
  induction l using List.reverseRecOn with
  | nil => simpa [withTxs] using holds_empty
  | append_singleton l tx ih =>
    obtain ⟨hl, htx⟩ := List.append_subset.mp hl
    have hset : {t | t ∈ l ++ [tx]} = insert tx {t | t ∈ l} := by
      ext t
      simp [or_comm]
    rw [withTxs, List.foldl_append, hset]
    exact (ih hl).add hoffer hl (htx (List.mem_singleton_self tx)) rfl

theorem HoldsTxs.accepts_iff (h : HoldsTxs P pool S q) (hS : S ⊆ {t | t ∈ txs}) (htx : tx ∈ txs)
    (hnot : tx ∉ S) : Accepts P ord cs pool S tx ↔ ∃ r, q.acceptTx P ord' tx cs = .ok r := by
  have hlist : ∀ l : List Transaction, (∀ t, t ∈ l ↔ t ∈ S) → HoldsTxs P pool S (withTxs P pool l) := by
    intro l hl
    have hset : {t | t ∈ l} = S := Set.ext hl
    exact hset ▸ holds_withTxs hoffer fun t ht => hS ((hl t).mp ht)
  constructor
  · rintro ⟨l, hl, r, haccept⟩
    exact (hlist l hl).acceptTx_mono hoffer h subset_rfl hS htx hnot haccept
  · rintro ⟨r, haccept⟩
    obtain ⟨l, hl⟩ := exists_list_of_subset hS
    exact ⟨l, hl, h.acceptTx_mono hoffer (hlist l hl) subset_rfl hS htx hnot haccept⟩

theorem persistent_accepts : Persistent (Accepts P ord cs pool) {t | t ∈ txs} := by
  rintro S T tx hST hT htx hnot ⟨l, hl, r, haccept⟩
  obtain ⟨l', hl'⟩ := exists_list_of_subset hT
  have hsub : l ⊆ l' := fun t ht => (hl' t).mpr (hST ((hl t).mp ht))
  have hin : l' ⊆ txs := fun t ht => hT ((hl' t).mp ht)
  have hheld := holds_withTxs hoffer fun t ht => hin (hsub ht)
  exact ⟨l', hl', hheld.acceptTx_mono hoffer (holds_withTxs hoffer hin) hsub hin htx
    (fun ht => hnot ((hl' tx).mp ht)) haccept⟩

end Offer

/-- The value of the inputs of a transaction, as `accept_tx` adds it up. -/
def inputsValue (q : Pool) (cs : ChainState) (tx : Transaction) : Except AcceptError ℤ :=
  tx.vin.foldlM (fun inputSum input => do
    let value ← q.resolveInputValue input.prevOutput cs
    okOr .inputOverflow (checkedAdd inputSum value)) 0

variable {inputSum : ℤ}

theorem inputsValue_of_addInputs (h : tx.vin.foldlM (q.addInput cs) 0 = .ok inputSum) :
    inputsValue q cs tx = .ok inputSum := by
  refine foldlM_ok_imp (fun input _ sum sum' hstep => ?_) h
  simp only [Pool.addInput, bind_eq_ok] at hstep ⊢
  obtain ⟨_, _, hvalue⟩ := hstep
  exact hvalue

theorem inputsValue_of_agree (hparents : SharesParents q q' tx)
    (h : inputsValue q cs tx = .ok inputSum) : inputsValue q' cs tx = .ok inputSum := by
  refine foldlM_ok_imp (fun input hinput sum sum' hstep => ?_) h
  simp only [bind_eq_ok] at hstep ⊢
  obtain ⟨value, hvalue, hadd⟩ := hstep
  exact ⟨value, resolveInputValue_of_agree rfl hparents (List.mem_map_of_mem hinput) hvalue, hadd⟩

structure Extended (P : Primitives) (ord : IterOrder) (cs : ChainState) (pool : Pool)
    (txs added : List Transaction) (q : Pool) : Prop where
  nodup : added.Nodup
  built : Built (Accepts P ord cs pool) {t | t ∈ txs} {t | t ∈ added}
  holds : HoldsTxs P pool {t | t ∈ added} q
  entries : ∀ tx ∈ added, ∃ inputSum, inputsValue q cs tx = .ok inputSum ∧
    q.txs.lookup (tx.txid P) = some (newEntry tx inputSum)
  total : q.totalSize = pool.totalSize + byteSizes added
  limit : q.maxSize = pool.maxSize

theorem extended_nil : Extended P ord cs pool txs [] pool where
  nodup := List.nodup_nil
  built := by simpa using Built.empty
  holds := by simpa using holds_empty
  entries := by simp
  total := rfl
  limit := rfl

variable {added : List Transaction}

theorem Extended.totalSize_cons (h : Extended P ord cs pool txs added q) (tx : Transaction) :
    q.totalSize + tx.toBytes.length = pool.totalSize + byteSizes (tx :: added) := by
  rw [h.total, byteSizes, byteSizes, List.map_cons, List.sum_cons]
  omega

section Offer

variable (hoffer : Offer P pool txs)
include hoffer

theorem Extended.evictIfNeeded_insert (hroom : Room P ord cs pool txs)
    (h : Extended P ord cs pool txs added q) (hnot : tx ∉ added)
    (hbuilt : Built (Accepts P ord cs pool) {t | t ∈ txs} {t | t ∈ tx :: added}) :
    (q.insert (tx.txid P) (newEntry tx inputSum)).evictIfNeeded ord' =
      q.insert (tx.txid P) (newEntry tx inputSum) := by
  obtain ⟨kept, hclosed, hle⟩ := hroom
  have hkept : tx :: added ⊆ kept := hbuilt.subset_of_closed (persistent_accepts hoffer) hclosed
  have hsize := byteSizes_le_of_subset (List.nodup_cons.mpr ⟨hnot, h.nodup⟩) hkept
  refine evictLoop_of_le ?_
  calc q.totalSize + tx.toBytes.length
      = pool.totalSize + byteSizes (tx :: added) := h.totalSize_cons tx
    _ ≤ pool.totalSize + byteSizes kept := Nat.add_le_add_left hsize _
    _ ≤ pool.maxSize := hle
    _ = q.maxSize := h.limit.symm

theorem Extended.acceptTx (hroom : Room P ord cs pool txs) {txid : Hash256}
    (h : Extended P ord cs pool txs added q) (htx : tx ∈ txs)
    (haccept : q.acceptTx P ord' tx cs = .ok (q', txid)) :
    Extended P ord cs pool txs (tx :: added) q' ∧ tx.txid P ∈ q'.txs ∧
      ∀ k ∈ q.txs, k ∈ q'.txs := by
  obtain ⟨inputSum, hsum, rfl, hnew, rfl⟩ := acceptTx_eq_insert haccept
  have hsub : {t | t ∈ added} ⊆ {t | t ∈ txs} := h.built.subset
  have hnot : tx ∉ added := by
    intro hin
    obtain ⟨e, he, _⟩ := h.holds.known tx hin
    exact hnew (mem_iff_lookup.mpr ⟨e, he⟩)
  have hbuilt : Built (Accepts P ord cs pool) {t | t ∈ txs} {t | t ∈ tx :: added} := by
    rw [setOf_mem_cons]
    exact .insert h.built htx ((h.holds.accepts_iff hoffer hsub htx hnot).mpr ⟨_, haccept⟩)
  rw [h.evictIfNeeded_insert hoffer hroom hnot hbuilt]
  have hvalue : ∀ t sum, inputsValue q cs t = .ok sum →
      inputsValue (q.insert (tx.txid P) (newEntry tx inputSum)) cs t = .ok sum :=
    fun t sum => inputsValue_of_agree fun o _ e he => ⟨e, lookup_insert_of_notMem hnew he, rfl⟩
  refine ⟨⟨List.nodup_cons.mpr ⟨hnot, h.nodup⟩, hbuilt, ?_, ?_, h.totalSize_cons tx, h.limit⟩,
    (AList.mem_insert _).mpr (.inl rfl), fun k hk => (AList.mem_insert _).mpr (.inr hk)⟩
  · rw [setOf_mem_cons]
    exact h.holds.add hoffer hsub htx rfl
  · refine List.forall_mem_cons.mpr ⟨⟨inputSum, ?_, ?_⟩, fun t ht => ?_⟩
    · exact hvalue tx inputSum (inputsValue_of_addInputs hsum)
    · rw [lookup_insert, if_pos rfl]
    · obtain ⟨sum, hsum, he⟩ := h.entries t ht
      exact ⟨sum, hvalue t sum hsum, lookup_insert_of_notMem hnew he⟩

theorem readdDisconnectedTxs_extended (hroom : Room P ord cs pool txs) (ord' : IterOrder) :
    ∃ added, Extended P ord cs pool txs added (pool.readdDisconnectedTxs P ord' txs cs).1 ∧
      IsLeast {S | Closed (Accepts P ord cs pool) {t | t ∈ txs} S} {t | t ∈ added} := by
  have hstep : ∀ tx ∈ txs, ∀ q q' txid, (∃ added, Extended P ord cs pool txs added q) →
      q.acceptTx P ord' tx cs = .ok (q', txid) →
      (∃ added, Extended P ord cs pool txs added q') ∧ tx.txid P ∈ q'.txs ∧
        ∀ k ∈ q.txs, k ∈ q'.txs := by
    rintro tx htx q q' txid ⟨added, h⟩ haccept
    obtain ⟨h', hadded, hkept⟩ := h.acceptTx hoffer hroom htx haccept
    exact ⟨⟨_, h'⟩, hadded, hkept⟩
  obtain ⟨⟨added, h⟩, hsettled⟩ := readdDisconnectedTxs_settled hstep (List.Subset.refl txs)
    ⟨[], extended_nil⟩
  refine ⟨added, h, h.built.isLeast (persistent_accepts hoffer) fun tx htx hnot haccepts => ?_⟩
  have hsub : {t | t ∈ added} ⊆ {t | t ∈ txs} := h.built.subset
  have hpending : tx ∈ txs.filter fun tx => !tx.isCoinbase :=
    List.mem_filter.mpr ⟨htx, by simp [hoffer.regular tx htx]⟩
  rcases hsettled.settled tx hpending with hin | ⟨e, hreject⟩
  · exact h.holds.notMem hoffer hsub htx hnot hin
  · obtain ⟨r, haccept⟩ := (h.holds.accepts_iff hoffer hsub htx hnot).mp haccepts
    cases hreject.symm.trans haccept

theorem HoldsTxs.mem_iff (h : HoldsTxs P pool S q) (hS : S ⊆ {t | t ∈ txs}) :
    {tx | tx ∈ txs ∧ tx.txid P ∈ q.txs} = S := by
  ext tx
  constructor
  · rintro ⟨htx, hin⟩
    by_contra hnot
    exact h.notMem hoffer hS htx hnot hin
  · intro htx
    obtain ⟨e, he, _⟩ := h.known tx htx
    exact ⟨hS htx, mem_iff_lookup.mpr ⟨e, he⟩⟩

end Offer

/-- The same entries, index and sizes; the order in which the entries were
inserted does not count. -/
structure SameContents (q q' : Pool) : Prop where
  txs : ∀ txid, q.txs.lookup txid = q'.txs.lookup txid
  spends : q.spends = q'.spends
  totalSize : q.totalSize = q'.totalSize
  maxSize : q.maxSize = q'.maxSize

theorem Extended.sameContents {added' : List Transaction} (hoffer : Offer P pool txs)
    (h : Extended P ord cs pool txs added q) (h' : Extended P ord cs pool txs' added' q')
    (hset : {t | t ∈ added} = {t | t ∈ added'}) : SameContents q q' := by
  have hsub : {t | t ∈ added'} ⊆ {t | t ∈ txs} := hset ▸ h.built.subset
  have hperm : added.Perm added' :=
    (List.perm_ext_iff_of_nodup h.nodup h'.nodup).mpr fun t => Set.ext_iff.mp hset t
  have hheld : HoldsTxs P pool {t | t ∈ added} q' := hset ▸ h'.holds
  constructor
  · intro k
    by_cases hadded : ∃ t ∈ added, t.txid P = k
    · obtain ⟨t, ht, rfl⟩ := hadded
      obtain ⟨sum, hsum, he⟩ := h.entries t ht
      obtain ⟨sum', hsum', he'⟩ := h'.entries t (hperm.subset ht)
      -- the parents are the same transactions, so the inputs are worth the same
      have hparents : SharesParents q q' t := fun o _ _ =>
        h.holds.lookup_mono hoffer h'.holds hset.subset hsub
      have heq := (inputsValue_of_agree hparents hsum).symm.trans hsum'
      rw [he, he', Except.ok.inj heq]
    · have hother : ∀ t ∈ {t | t ∈ added}, t.txid P ≠ k := fun t ht heq => hadded ⟨t, ht, heq⟩
      rw [h.holds.old k hother, hheld.old k hother]
  · refine Finmap.ext_lookup fun o => ?_
    by_cases hspent : ∃ t ∈ added, o ∈ t.prevOutputs
    · obtain ⟨t, ht, ho⟩ := hspent
      rw [h.holds.spender t ht o ho, hheld.spender t ht o ho]
    · have hother : ∀ t ∈ {t | t ∈ added}, o ∉ t.prevOutputs := fun t ht ho => hspent ⟨t, ht, ho⟩
      rw [h.holds.unspent o hother, hheld.unspent o hother]
  · rw [h.total, h'.total]
    exact congrArg _ (hperm.map _).sum_eq
  · rw [h.limit, h'.limit]

/-- While the limit is not reached, `readd_disconnected_txs` ends at the same mempool
for every order of the list, and the listed transactions it has are the least
set closed under acceptance. -/
theorem readd_independent_of_order (P : Primitives) (ord ord' : IterOrder) (cs : ChainState)
    (pool : Pool) (txs txs' : List Transaction) (hoffer : Offer P pool txs)
    (hroom : Room P ord cs pool txs) (hperm : txs.Perm txs') :
    SameContents (pool.readdDisconnectedTxs P ord txs cs).1
      (pool.readdDisconnectedTxs P ord' txs' cs).1 ∧
    IsLeast {S | Closed (Accepts P ord cs pool) {t | t ∈ txs} S}
      {tx | tx ∈ txs ∧ tx.txid P ∈ (pool.readdDisconnectedTxs P ord txs cs).1.txs} := by
  have hitems : {t | t ∈ txs'} = {t | t ∈ txs} := Set.ext fun t => hperm.mem_iff.symm
  have hroom' : Room P ord cs pool txs' := by rwa [Room, hitems]
  obtain ⟨added, h, hleast⟩ := readdDisconnectedTxs_extended hoffer hroom ord
  obtain ⟨added', h', hleast'⟩ := readdDisconnectedTxs_extended (hoffer.perm hperm) hroom' ord'
  rw [hitems] at hleast'
  refine ⟨h.sameContents hoffer h' (hleast.unique hleast'), ?_⟩
  rw [h.holds.mem_iff hoffer h.built.subset]
  exact hleast

theorem readd_child_before_parent :
    SameContents ((Pool.empty 1000).readdDisconnectedTxs poly .id [childTx, payTx] fundedState).1
      ((Pool.empty 1000).readdDisconnectedTxs poly .id [payTx, childTx] fundedState).1 ∧
    ((Pool.empty 1000).readdDisconnectedTxs poly .id [childTx, payTx]
      fundedState).1.contains (childTx.txid poly) = true := by
  have hpay : payTx.prevOutputs = [⟨1, 0⟩] := rfl
  have hchild : childTx.prevOutputs = [⟨payTx.txid poly, 0⟩] := rfl
  have hne : payTx.txid poly ≠ 1#256 := by decide +kernel
  have hoffer : Offer poly (Pool.empty 1000) [childTx, payTx] :=
    ⟨by decide +kernel, by decide +kernel, fun _ _ => by simp [Pool.empty],
      by simp [hpay, hchild, hne, hne.symm]⟩
  exact ⟨(readd_independent_of_order poly .id .id fundedState _ _ _ hoffer
    (room_of_le (by decide +kernel)) (List.Perm.swap payTx childTx [])).1, by decide +kernel⟩

end Ironcat.MempoolOrder
