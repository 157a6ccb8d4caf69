import Ironcat.MempoolClosure

/-!
# Accepting transactions again

`readd_disconnected_txs` offers a list of transactions to the mempool in
passes until a pass accepts none. While the mempool has room for all of them,
nothing is evicted, and what is still missing at the end is rejected by the
mempool as it then is.
-/

namespace Ironcat.MempoolReadd

open Lib.Checked Types Validation Chainstate Mempool MempoolClosure

variable {P : Primitives} {ord : IterOrder} {cs : ChainState} {pool pool' : Pool}
variable {txs : List Transaction}

def KeptByDrop (I : Pool → Prop) : Prop :=
  ∀ pool txid entry, I pool → pool.txs.lookup txid = some entry → I (pool.drop txid entry)

section KeptByDrop

variable {I : Pool → Prop} (hI : KeptByDrop I)
include hI

theorem removeLoop_keeps {fuel : ℕ} {toRemove : List Hash256} (h : I pool) :
    I (pool.removeLoop fuel toRemove) := by
  induction fuel generalizing pool toRemove with
  | zero => exact h
  | succ fuel ih =>
    unfold Pool.removeLoop
    split
    · exact h
    · split
      · exact h
      · next entry hentry => exact ih (hI pool _ entry h hentry)

theorem evictLoop_keeps {fuel : ℕ} (h : I pool) : I (pool.evictLoop ord fuel) :=
  evictLoop_rec (fun _ _ hp _ _ => removeLoop_keeps hI hp) h

theorem confirmTxs_keeps {conflicting : List Hash256} (h : I pool) :
    I (txs.foldl (Pool.confirmTx P) (pool, conflicting)).1 := by
  induction txs generalizing pool conflicting with
  | nil => exact h
  | cons tx txs ih =>
    have hstep : I (pool.removeConfirmed (tx.txid P)) := by
      rcases removeConfirmed_cases pool (tx.txid P) with ⟨_, heq⟩ | ⟨e, he, heq⟩
      · rw [heq]
        exact h
      · rw [heq]
        exact hI pool _ e h he
    exact ih hstep

theorem removeBlockTxs_keeps {block : Block} (h : I pool) : I (pool.removeBlockTxs P block) := by
  have hconfirmed : I (block.transactions.foldl (Pool.confirmTx P) (pool, [])).1 :=
    confirmTxs_keeps hI h
  change I (List.foldl Pool.removeConflict _ _)
  generalize (block.transactions.foldl (Pool.confirmTx P) (pool, [])).2 = conflicting
  generalize (block.transactions.foldl (Pool.confirmTx P) (pool, [])).1 = mid at hconfirmed
  induction conflicting generalizing mid with
  | nil => exact hconfirmed
  | cons txid rest ih =>
    refine ih _ ?_
    unfold Pool.removeConflict
    split_ifs
    · exact removeLoop_keeps hI hconfirmed
    · exact hconfirmed

end KeptByDrop

theorem evictLoop_within {fuel : ℕ} : Subpool (pool.evictLoop ord fuel) pool :=
  evictLoop_keeps (I := fun p => Subpool p pool) (fun _ _ _ hp _ => drop_within.trans hp) (.refl pool)

def byteSizes (txs : List Transaction) : ℕ := (txs.map fun tx => tx.toBytes.length).sum

def poolTxs (pool : Pool) : List Transaction := pool.txs.entries.map fun e => e.2.tx

/-- The indexes are those of the entries, and the size counter is what they
take. -/
structure Accounted (P : Primitives) (pool : Pool) : Prop where
  indexed : Indexed P pool
  sized : ∀ txid e, pool.txs.lookup txid = some e → e.size = e.tx.toBytes.length
  total : pool.totalSize = (pool.txs.entries.map fun e => e.2.size).sum

theorem mem_entries {e : Sigma fun _ : Hash256 => MempoolEntry} :
    e ∈ pool.txs.entries ↔ pool.txs.lookup e.1 = some e.2 :=
  (AList.mem_lookup_iff (s := pool.txs)).symm

variable {entry : MempoolEntry}

theorem entries_erase_perm {txid : Hash256} (hentry : pool.txs.lookup txid = some entry) :
    pool.txs.entries.Perm (⟨txid, entry⟩ :: (pool.txs.erase txid).entries) := by
  have hmem : txid ∈ pool.txs.entries.keys := mem_iff_lookup.mpr ⟨entry, hentry⟩
  obtain ⟨e, before, after, _, heq, herase⟩ := List.exists_of_kerase hmem
  obtain rfl : e = entry := by
    have he : (⟨txid, e⟩ : Sigma fun _ : Hash256 => MempoolEntry) ∈ pool.txs.entries := by
      simp [heq]
    exact Option.some.inj ((mem_entries.mp he).symm.trans hentry)
  change pool.txs.entries.Perm (_ :: pool.txs.entries.kerase txid)
  rw [herase, heq]
  exact List.perm_middle

theorem Accounted.drop {txid : Hash256} (h : Accounted P pool)
    (hentry : pool.txs.lookup txid = some entry) : Accounted P (pool.drop txid entry) := by
  refine ⟨h.indexed.drop hentry, fun k e hk => h.sized k e (drop_within k e hk), ?_⟩
  have htotal := ((entries_erase_perm hentry).map fun e => e.2.size).sum_eq
  rw [List.map_cons, List.sum_cons, ← h.total] at htotal
  change pool.totalSize - entry.size = ((pool.txs.erase txid).entries.map fun e => e.2.size).sum
  rw [htotal]
  exact Nat.add_sub_cancel_left ..

theorem eq_or_lookup_of_insert {txid k : Hash256} {e : MempoolEntry}
    (h : (pool.insert txid entry).txs.lookup k = some e) :
    e = entry ∨ pool.txs.lookup k = some e := by
  rw [lookup_insert] at h
  split_ifs at h
  · exact .inl (Option.some.inj h).symm
  · exact .inr h

theorem Accounted.insert {txid : Hash256} (h : Accounted P pool) (hkey : entry.tx.txid P = txid)
    (hnew : txid ∉ pool.txs) (hspends : ∀ o ∈ entry.tx.prevOutputs, o ∉ pool.spends)
    (hsize : entry.size = entry.tx.toBytes.length) : Accounted P (pool.insert txid entry) := by
  refine ⟨h.indexed.insert hkey hnew hspends, fun k e hk => ?_, ?_⟩
  · rcases eq_or_lookup_of_insert hk with rfl | hk
    · exact hsize
    · exact h.sized k e hk
  · change pool.totalSize + entry.size = ((pool.txs.insert txid entry).entries.map _).sum
    rw [AList.entries_insert_of_notMem hnew, List.map_cons, List.sum_cons, h.total, add_comm]

/-- The entries are taken from `txs`, and the size counter is what they take. -/
structure Stocked (P : Primitives) (txs : List Transaction) (pool : Pool) : Prop where
  indexed : Indexed P pool
  taken : ∀ txid e, pool.txs.lookup txid = some e → e.tx ∈ txs
  sized : ∀ txid e, pool.txs.lookup txid = some e → e.size = e.tx.toBytes.length
  total : pool.totalSize = (pool.txs.entries.map fun e => e.2.size).sum

theorem Stocked.accounted (h : Stocked P txs pool) : Accounted P pool :=
  ⟨h.indexed, h.sized, h.total⟩

theorem Accounted.stocked (h : Accounted P pool)
    (htaken : ∀ txid e, pool.txs.lookup txid = some e → e.tx ∈ txs) : Stocked P txs pool :=
  ⟨h.indexed, htaken, h.sized, h.total⟩

theorem Stocked.drop {txid : Hash256} (h : Stocked P txs pool)
    (hentry : pool.txs.lookup txid = some entry) : Stocked P txs (pool.drop txid entry) :=
  (h.accounted.drop hentry).stocked fun k e hk => h.taken k e (drop_within k e hk)

theorem Stocked.insert {txid : Hash256} (h : Stocked P txs pool) (hkey : entry.tx.txid P = txid)
    (hnew : txid ∉ pool.txs) (hspends : ∀ o ∈ entry.tx.prevOutputs, o ∉ pool.spends)
    (htaken : entry.tx ∈ txs) (hsize : entry.size = entry.tx.toBytes.length) :
    Stocked P txs (pool.insert txid entry) := by
  refine (h.accounted.insert hkey hnew hspends hsize).stocked fun k e hk => ?_
  rcases eq_or_lookup_of_insert hk with rfl | hk
  · exact htaken
  · exact h.taken k e hk

theorem Stocked.totalSize_eq (h : Stocked P txs pool) :
    pool.totalSize = byteSizes (poolTxs pool) := by
  rw [h.total, byteSizes, poolTxs, List.map_map]
  exact congrArg List.sum (List.map_congr_left fun e he => h.sized e.1 e.2 (mem_entries.mp he))

theorem byteSizes_le_of_subset {txs' : List Transaction} (hnodup : txs'.Nodup) (hsub : txs' ⊆ txs) :
    byteSizes txs' ≤ byteSizes txs := by
  obtain ⟨l, hperm, hsublist⟩ := hnodup.subperm hsub
  calc byteSizes txs' = byteSizes l := ((hperm.map _).sum_eq).symm
    _ ≤ byteSizes txs := (hsublist.map _).sum_le_sum fun _ _ => Nat.zero_le _

theorem Stocked.totalSize_le (h : Stocked P txs pool) : pool.totalSize ≤ byteSizes txs := by
  have hnodup : (poolTxs pool).Nodup := by
    refine List.Nodup.map_on ?_ pool.txs.nodupKeys.nodup
    intro e he e' he' heq
    have hkey := h.indexed.keyed e.1 e.2 (mem_entries.mp he)
    have hkey' := h.indexed.keyed e'.1 e'.2 (mem_entries.mp he')
    have hfst : e.1 = e'.1 := by rw [← hkey, ← hkey', heq]
    exact pool.txs.nodupKeys.eq_of_fst_eq he he' hfst
  have hsub : poolTxs pool ⊆ txs := by
    intro tx htx
    obtain ⟨e, he, rfl⟩ := List.mem_map.mp htx
    exact h.taken e.1 e.2 (mem_entries.mp he)
  exact h.totalSize_eq.trans_le (byteSizes_le_of_subset hnodup hsub)

theorem evictLoop_of_le {fuel : ℕ} (h : pool.totalSize ≤ pool.maxSize) :
    pool.evictLoop ord fuel = pool := by
  cases fuel with
  | zero => rfl
  | succ fuel =>
    unfold Pool.evictLoop
    rw [if_neg (Nat.not_lt.mpr h)]

def SharesParents (known pool : Pool) (tx : Transaction) : Prop :=
  ∀ o ∈ tx.prevOutputs, ∀ e, known.txs.lookup o.txid = some e →
    ∃ e', pool.txs.lookup o.txid = some e' ∧ e'.tx = e.tx

section Agree

variable {known : Pool} {cs' : ChainState} {tx : Transaction}
variable (hutxos : cs'.utxos = cs.utxos) (hparents : SharesParents known pool tx)
include hutxos hparents

theorem resolveInputValue_of_agree {o : OutPoint} {value : ℤ} (ho : o ∈ tx.prevOutputs)
    (h : known.resolveInputValue o cs = .ok value) : pool.resolveInputValue o cs' = .ok value := by
  unfold Pool.resolveInputValue at h ⊢
  rw [hutxos]
  cases hcoin : cs.utxos.lookup o with
  | some coin => simpa [hcoin] using h
  | none =>
    cases hparent : known.txs.lookup o.txid with
    | none => simp [hcoin, hparent] at h
    | some e =>
      obtain ⟨e', he', htx⟩ := hparents o ho e hparent
      simpa [hcoin, hparent, he', htx] using h

theorem inputScript_of_agree {input : TxIn × ℕ} {script : Lib.ByteCodec.Bytes}
    (ho : input.1.prevOutput ∈ tx.prevOutputs) (h : known.inputScript cs input = .ok script) :
    pool.inputScript cs' input = .ok script := by
  unfold Pool.inputScript at h ⊢
  rw [hutxos]
  cases hcoin : cs.utxos.lookup input.1.prevOutput with
  | some coin => simpa [hcoin] using h
  | none =>
    cases hparent : known.txs.lookup input.1.prevOutput.txid with
    | none => simp [hcoin, hparent] at h
    | some e =>
      obtain ⟨e', he', htx⟩ := hparents _ ho e hparent
      simpa [hcoin, hparent, he', htx] using h

theorem acceptTx_of_agree {ord' : IterOrder} {r : Pool × Hash256}
    (h : known.acceptTx P ord tx cs = .ok r) (hnew : tx.txid P ∉ pool.txs)
    (hspends : ∀ o ∈ tx.prevOutputs, o ∉ pool.spends) :
    ∃ r', pool.acceptTx P ord' tx cs' = .ok r' := by
  simp only [Pool.acceptTx, bind_eq_ok, ensure_eq_ok, pure_eq_ok] at h ⊢
  obtain ⟨u, hcheck, u₁, hcb, u₂, hsize, u₃, _, inputSum, hsum, u₄, hle, u₅, hfee, u₆, hscripts,
    _⟩ := h
  have hsum' : tx.vin.foldlM (pool.addInput cs') 0 = .ok inputSum := by
    refine foldlM_ok_imp (fun input hinput sum sum' hstep => ?_) hsum
    have ho : input.prevOutput ∈ tx.prevOutputs := List.mem_map_of_mem hinput
    simp only [Pool.addInput, bind_eq_ok, ensure_eq_ok] at hstep ⊢
    obtain ⟨u, _, value, hvalue, hadd⟩ := hstep
    exact ⟨u, hspends _ ho, value, resolveInputValue_of_agree hutxos hparents ho hvalue, hadd⟩
  have hscripts' : forM tx.vin.zipIdx (pool.verifyInput P cs' tx) = .ok u₆ := by
    refine forM_eq_ok.mpr fun input hinput => ?_
    have hverify := forM_eq_ok.mp hscripts input hinput
    have ho : input.1.prevOutput ∈ tx.prevOutputs :=
      List.mem_map_of_mem (List.fst_mem_of_mem_zipIdx hinput)
    simp only [Pool.verifyInput, bind_eq_ok] at hverify ⊢
    obtain ⟨script, hscript, hok⟩ := hverify
    exact ⟨script, inputScript_of_agree hutxos hparents ho hscript, hok⟩
  exact ⟨_, u, hcheck, u₁, hcb, u₂, hsize, u₃, hnew, inputSum, hsum', u₄, hle, u₅, hfee, u₆,
    hscripts', rfl⟩

end Agree

theorem Stocked.acceptTx {tx : Transaction} {txid : Hash256} (h : Stocked P txs pool)
    (hroom : byteSizes txs ≤ pool.maxSize) (htx : tx ∈ txs)
    (haccept : pool.acceptTx P ord tx cs = .ok (pool', txid)) :
    Stocked P txs pool' ∧ pool'.maxSize = pool.maxSize ∧ tx.txid P ∈ pool'.txs ∧
      ∀ k ∈ pool.txs, k ∈ pool'.txs := by
  obtain ⟨entry, rfl, hsize, rfl, hnew, havail, rfl⟩ := acceptTx_eq_ok haccept
  have hinsert : Stocked P txs (pool.insert (entry.tx.txid P) entry) :=
    h.insert rfl hnew (fun o ho => (havail o ho).1) htx hsize
  have hle : (pool.insert (entry.tx.txid P) entry).totalSize ≤
      (pool.insert (entry.tx.txid P) entry).maxSize :=
    hinsert.totalSize_le.trans hroom
  rw [Pool.evictIfNeeded, evictLoop_of_le hle]
  refine ⟨hinsert, rfl, (AList.mem_insert _).mpr (.inl rfl), fun k hk => ?_⟩
  exact (AList.mem_insert _).mpr (.inr hk)

theorem readdTx_cases (P : Primitives) (ord : IterOrder) (cs : ChainState) (st : Pool.Readd)
    (tx : Transaction) :
    (∃ pool txid, st.pool.acceptTx P ord tx cs = .ok (pool, txid) ∧
      Pool.readdTx P ord cs st tx = ⟨pool, st.remaining, saturatingSucc st.added, true⟩) ∨
    ∃ e, st.pool.acceptTx P ord tx cs = .error e ∧
      Pool.readdTx P ord cs st tx = { st with remaining := st.remaining ++ [tx] } := by
  unfold Pool.readdTx
  cases haccept : st.pool.acceptTx P ord tx cs with
  | ok r => exact .inl ⟨r.1, r.2, rfl, rfl⟩
  | error e => exact .inr ⟨e, rfl, rfl⟩

theorem readdTxs_remaining (P : Primitives) (ord : IterOrder) (cs : ChainState)
    (pending : List Transaction) (st : Pool.Readd) :
    (pending.foldl (Pool.readdTx P ord cs) st).remaining ⊆ st.remaining ++ pending ∧
      (pending.foldl (Pool.readdTx P ord cs) st).remaining.length ≤
        st.remaining.length + pending.length := by
  induction pending generalizing st with
  | nil => simp
  | cons tx pending ih =>
    rw [List.foldl_cons]
    obtain ⟨hsub, hlen⟩ := ih (Pool.readdTx P ord cs st tx)
    rcases readdTx_cases P ord cs st tx with ⟨pool, txid, _, heq⟩ | ⟨e, _, heq⟩
    · rw [heq] at hsub hlen ⊢
      refine ⟨fun t ht => ?_, hlen.trans (by simp)⟩
      rcases List.mem_append.mp (hsub ht) with hold | hlater
      · exact List.mem_append_left _ hold
      · exact List.mem_append_right _ (List.mem_cons_of_mem tx hlater)
    · rw [heq] at hsub hlen ⊢
      refine ⟨fun t ht => by simpa using hsub ht, ?_⟩
      simp only [List.length_append, List.length_cons, List.length_nil] at hlen ⊢
      omega

variable {pending offered : List Transaction}

section Invariant

variable {I : Pool → Prop}
variable (hstep : ∀ tx ∈ txs, ∀ pool pool' txid, I pool →
  pool.acceptTx P ord tx cs = .ok (pool', txid) → I pool')
include hstep

theorem readdTxs_keeps {st : Pool.Readd} (hpending : pending ⊆ txs) (h : I st.pool) :
    I (pending.foldl (Pool.readdTx P ord cs) st).pool := by
  induction pending generalizing st with
  | nil => exact h
  | cons tx pending ih =>
    rw [List.cons_subset] at hpending
    refine ih hpending.2 ?_
    rcases readdTx_cases P ord cs st tx with ⟨pool, txid, haccept, heq⟩ | ⟨e, _, heq⟩
    · rw [heq]
      exact hstep tx hpending.1 st.pool pool txid h haccept
    · rw [heq]
      exact h

theorem readdLoop_keeps {fuel : ℕ} {added : UInt32} (hpending : pending ⊆ txs) (h : I pool) :
    I (Pool.readdLoop P ord cs fuel pool pending added).1 := by
  induction fuel generalizing pool pending added with
  | zero => exact h
  | succ fuel ih =>
    have hpass : I (pending.foldl (Pool.readdTx P ord cs) ⟨pool, [], added, false⟩).pool :=
      readdTxs_keeps hstep hpending h
    have hsub := (readdTxs_remaining P ord cs pending ⟨pool, [], added, false⟩).1
    unfold Pool.readdLoop
    dsimp only
    split_ifs
    · exact h
    · exact ih (fun tx htx => hpending (by simpa using hsub htx)) hpass
    · exact hpass

theorem readdDisconnectedTxs_keeps (hoffered : offered ⊆ txs) (h : I pool) :
    I (pool.readdDisconnectedTxs P ord offered cs).1 :=
  readdLoop_keeps hstep (fun _ htx => hoffered (List.mem_of_mem_filter htx)) h

end Invariant

theorem readdDisconnectedTxs_origin {txid : Hash256}
    (h : txid ∈ (pool.readdDisconnectedTxs P ord offered cs).1.txs) :
    txid ∈ pool.txs ∨ ∃ tx ∈ offered, tx.txid P = txid := by
  let I : Pool → Prop := fun p => ∀ k ∈ p.txs, k ∈ pool.txs ∨ ∃ tx ∈ offered, tx.txid P = k
  have hdrop : KeptByDrop I := fun p k e hp _ k' hk' => hp k' (AList.mem_erase.mp hk').2
  have hstep : ∀ tx ∈ offered, ∀ p p' k, I p → p.acceptTx P ord tx cs = .ok (p', k) → I p' := by
    intro tx htx p p' k hp haccept
    obtain ⟨entry, _, _, hkey, _, _, rfl⟩ := acceptTx_eq_ok haccept
    refine evictLoop_keeps hdrop fun k' hk' => ?_
    rcases (AList.mem_insert _).mp hk' with rfl | hk'
    · exact .inr ⟨tx, htx, hkey⟩
    · exact hp k' hk'
  exact readdDisconnectedTxs_keeps hstep (List.Subset.refl offered) (fun k hk => .inl hk) txid h

/-- One pass of `readd_disconnected_txs` from `st` to `st'`. -/
structure Pass (P : Primitives) (ord : IterOrder) (cs : ChainState) (pending : List Transaction)
    (st st' : Pool.Readd) : Prop where
  kept : ∀ txid ∈ st.pool.txs, txid ∈ st'.pool.txs
  settled : ∀ tx ∈ st.remaining ++ pending, tx.txid P ∈ st'.pool.txs ∨ tx ∈ st'.remaining
  idle : st'.progress = false → st'.pool = st.pool ∧ st.progress = false ∧
    ∀ tx ∈ pending, ∃ e, st.pool.acceptTx P ord tx cs = .error e
  shorter : st.progress = false → st'.progress = true →
    st'.remaining.length < st.remaining.length + pending.length

structure Settled (P : Primitives) (ord : IterOrder) (cs : ChainState) (pool : Pool)
    (offered : List Transaction) (pool' : Pool) : Prop where
  kept : ∀ txid ∈ pool.txs, txid ∈ pool'.txs
  settled : ∀ tx ∈ offered, tx.txid P ∈ pool'.txs ∨
    ∃ e, pool'.acceptTx P ord tx cs = .error e

section Retry

variable {I : Pool → Prop}
variable (hstep : ∀ tx ∈ txs, ∀ pool pool' txid, I pool →
  pool.acceptTx P ord tx cs = .ok (pool', txid) →
  I pool' ∧ tx.txid P ∈ pool'.txs ∧ ∀ k ∈ pool.txs, k ∈ pool'.txs)
include hstep

theorem readdTxs_pass {st : Pool.Readd} (hpending : pending ⊆ txs) (hst : I st.pool) :
    Pass P ord cs pending st (pending.foldl (Pool.readdTx P ord cs) st) := by
  induction pending generalizing st with
  | nil =>
    refine ⟨fun _ => id, fun tx htx => .inr (by simpa using htx), fun h => ⟨rfl, h, by simp⟩, ?_⟩
    intro h h'
    cases h.symm.trans h'
  | cons tx pending ih =>
    rw [List.cons_subset] at hpending
    rw [List.foldl_cons]
    rcases readdTx_cases P ord cs st tx with
      ⟨pool, txid, haccept, heq⟩ | ⟨e, hreject, heq⟩
    · rw [heq]
      obtain ⟨hpool, hadded, hkept⟩ := hstep tx hpending.1 st.pool pool txid hst haccept
      have hpass : Pass P ord cs pending ⟨pool, st.remaining, saturatingSucc st.added, true⟩ _ :=
        ih hpending.2 hpool
      have hlen := (readdTxs_remaining P ord cs pending
        ⟨pool, st.remaining, saturatingSucc st.added, true⟩).2
      refine ⟨fun k hk => hpass.kept k (hkept k hk), fun t ht => ?_, fun h => ?_, fun _ _ => ?_⟩
      · rcases List.mem_append.mp ht with ht | ht
        · exact hpass.settled t (List.mem_append_left _ ht)
        · rcases List.mem_cons.mp ht with rfl | ht
          · exact .inl (hpass.kept _ hadded)
          · exact hpass.settled t (List.mem_append_right _ ht)
      · cases (hpass.idle h).2.1
      · exact Nat.lt_of_le_of_lt hlen (by simp)
    · rw [heq]
      have hpass : Pass P ord cs pending { st with remaining := st.remaining ++ [tx] } _ :=
        ih hpending.2 hst
      refine ⟨hpass.kept, fun t ht => hpass.settled t (by simpa using ht), fun h => ?_,
        fun h h' => ?_⟩
      · obtain ⟨hpool, hprogress, hrejected⟩ := hpass.idle h
        exact ⟨hpool, hprogress, List.forall_mem_cons.mpr ⟨⟨e, hreject⟩, hrejected⟩⟩
      · have hshort := hpass.shorter h h'
        simp only [List.length_append, List.length_cons, List.length_nil] at hshort ⊢
        omega

theorem readdLoop_settled {fuel : ℕ} {added : UInt32} (hpending : pending ⊆ txs) (hpool : I pool)
    (hfuel : pending.length < fuel) :
    Settled P ord cs pool pending (Pool.readdLoop P ord cs fuel pool pending added).1 := by
  induction fuel generalizing pool pending added with
  | zero => omega
  | succ fuel ih =>
    have hkeeps : ∀ tx ∈ txs, ∀ pool pool' txid, I pool →
        pool.acceptTx P ord tx cs = .ok (pool', txid) → I pool' :=
      fun tx htx pool pool' txid h haccept => (hstep tx htx pool pool' txid h haccept).1
    have hpass : Pass P ord cs pending ⟨pool, [], added, false⟩ _ :=
      readdTxs_pass hstep hpending hpool
    have hafter : I (pending.foldl (Pool.readdTx P ord cs) ⟨pool, [], added, false⟩).pool :=
      readdTxs_keeps hkeeps hpending hpool
    have hsub := (readdTxs_remaining P ord cs pending ⟨pool, [], added, false⟩).1
    unfold Pool.readdLoop
    dsimp only
    generalize pending.foldl (Pool.readdTx P ord cs) ⟨pool, [], added, false⟩ = st
      at hpass hafter hsub ⊢
    split_ifs with hempty hprogress
    · exact ⟨fun _ => id, by simp [hempty]⟩
    · have hshort : st.remaining.length < fuel := by
        have := hpass.shorter rfl hprogress
        simp only [List.length_nil] at this
        omega
      have hrest : Settled P ord cs st.pool st.remaining
          (Pool.readdLoop P ord cs fuel st.pool st.remaining st.added).1 :=
        ih (fun tx htx => hpending (by simpa using hsub htx)) hafter hshort
      refine ⟨fun k hk => hrest.kept k (hpass.kept k hk), fun tx htx => ?_⟩
      rcases hpass.settled tx htx with hin | hremaining
      · exact .inl (hrest.kept _ hin)
      · exact hrest.settled tx hremaining
    · obtain ⟨hpool, _, hrejected⟩ := hpass.idle (by simpa using hprogress)
      exact ⟨hpass.kept, fun tx htx => .inr (hpool ▸ hrejected tx htx)⟩

theorem readdDisconnectedTxs_settled (hoffered : offered ⊆ txs) (hpool : I pool) :
    I (pool.readdDisconnectedTxs P ord offered cs).1 ∧
      Settled P ord cs pool (offered.filter fun tx => !tx.isCoinbase)
        (pool.readdDisconnectedTxs P ord offered cs).1 := by
  constructor
  · refine readdDisconnectedTxs_keeps (fun tx htx p p' k h haccept => ?_) hoffered hpool
    exact (hstep tx htx p p' k h haccept).1
  · exact readdLoop_settled hstep (fun _ htx => hoffered (List.mem_of_mem_filter htx)) hpool
      (Nat.lt_succ_self _)

end Retry

structure Refilled (P : Primitives) (ord : IterOrder) (cs : ChainState) (txs : List Transaction)
    (pool : Pool) (offered : List Transaction) (pool' : Pool) : Prop where
  stocked : Stocked P txs pool'
  kept : ∀ txid ∈ pool.txs, txid ∈ pool'.txs
  settled : ∀ tx ∈ offered, tx.txid P ∈ pool'.txs ∨
    ∃ e, pool'.acceptTx P ord tx cs = .error e

theorem readdDisconnectedTxs_refilled {limit : ℕ} (hroom : byteSizes txs ≤ limit)
    (hoffered : offered ⊆ txs) (hstocked : Stocked P txs pool) (hlimit : pool.maxSize = limit) :
    Refilled P ord cs txs pool (offered.filter fun tx => !tx.isCoinbase)
      (pool.readdDisconnectedTxs P ord offered cs).1 := by
  have hstep : ∀ tx ∈ txs, ∀ pool pool' txid, Stocked P txs pool ∧ pool.maxSize = limit →
      pool.acceptTx P ord tx cs = .ok (pool', txid) →
      (Stocked P txs pool' ∧ pool'.maxSize = limit) ∧ tx.txid P ∈ pool'.txs ∧
        ∀ k ∈ pool.txs, k ∈ pool'.txs := by
    intro tx htx pool pool' txid h haccept
    obtain ⟨hstocked', hmax, hadded, hkept⟩ := h.1.acceptTx (h.2 ▸ hroom) htx haccept
    exact ⟨⟨hstocked', hmax.trans h.2⟩, hadded, hkept⟩
  obtain ⟨hafter, hsettled⟩ := readdDisconnectedTxs_settled hstep hoffered ⟨hstocked, hlimit⟩
  exact ⟨hafter.1, hsettled.kept, hsettled.settled⟩

end Ironcat.MempoolReadd
