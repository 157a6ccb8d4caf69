import Ironcat.MempoolReadd

/-!
# The indexes of the mempool

Whatever calls a mempool has gone through since it was empty, `spends` lists
the inputs of its entries and nothing else, `total_size` is the sum of their
sizes, and eviction has brought that sum under the limit.
-/

namespace Ironcat.MempoolIndex

open Types Chainstate Mempool MempoolClosure MempoolReadd

variable {P : Primitives} {ord : IterOrder} {cs : ChainState} {pool pool' : Pool}

def feeRates (pool : Pool) (ord : IterOrder) : List (Hash256 × ℚ) :=
  (ord.list pool.txs.keys).filterMap fun txid =>
    (pool.txs.lookup txid).map fun e => (txid, e.feeRate)

theorem mem_feeRates {txid : Hash256} {rate : ℚ} :
    (txid, rate) ∈ feeRates pool ord ↔
      ∃ e, pool.txs.lookup txid = some e ∧ e.feeRate = rate := by
  simp only [feeRates, List.mem_filterMap, (ord.perm _).mem_iff, Option.map_eq_some_iff,
    Prod.mk.injEq]
  constructor
  · rintro ⟨k, _, e, he, rfl, rfl⟩
    exact ⟨e, he, rfl⟩
  · rintro ⟨e, he, rfl⟩
    exact ⟨txid, AList.mem_keys.mp (mem_iff_lookup.mpr ⟨e, he⟩), e, he, rfl, rfl⟩

theorem worst_eq_argmin :
    pool.worst ord = ((feeRates pool ord).argmin Prod.snd).map Prod.fst := by
  refine congrArg (Option.map Prod.fst) ?_
  change List.foldl _ none (feeRates pool ord) = List.foldl _ none (feeRates pool ord)
  congr 1
  funext best e
  cases best with
  | none => rfl
  | some b => rfl

theorem worst_le {txid k : Hash256} {e : MempoolEntry} (h : pool.worst ord = some txid)
    (hk : pool.txs.lookup k = some e) :
    ∃ e', pool.txs.lookup txid = some e' ∧ e'.feeRate ≤ e.feeRate := by
  rw [worst_eq_argmin, Option.map_eq_some_iff] at h
  obtain ⟨⟨txid, rate⟩, hmin, rfl⟩ := h
  obtain ⟨e', he', rfl⟩ := mem_feeRates.mp (List.argmin_mem hmin)
  have hrate : (k, e.feeRate) ∈ feeRates pool ord := mem_feeRates.mpr ⟨e, hk, rfl⟩
  exact ⟨e', he', List.le_of_mem_argmin (f := Prod.snd) hrate hmin⟩

theorem worst_mem {txid : Hash256} (h : pool.worst ord = some txid) : txid ∈ pool.txs := by
  rw [worst_eq_argmin, Option.map_eq_some_iff] at h
  obtain ⟨⟨txid, rate⟩, hmin, rfl⟩ := h
  obtain ⟨e, he, _⟩ := mem_feeRates.mp (List.argmin_mem hmin)
  exact mem_iff_lookup.mpr ⟨e, he⟩

theorem entries_eq_nil_of_worst (h : pool.worst ord = none) : pool.txs.entries = [] := by
  rw [worst_eq_argmin, Option.map_eq_none_iff, List.argmin_eq_none] at h
  refine List.eq_nil_iff_forall_not_mem.mpr fun e he => ?_
  have hmem : (e.1, e.2.feeRate) ∈ feeRates pool ord :=
    mem_feeRates.mpr ⟨e.2, mem_entries.mp he, rfl⟩
  simp [h] at hmem

theorem length_removeLoop_le {fuel : ℕ} {toRemove : List Hash256} :
    (pool.removeLoop fuel toRemove).txs.keys.length ≤ pool.txs.keys.length := by
  refine removeLoop_keeps (I := fun p => p.txs.keys.length ≤ pool.txs.keys.length) ?_ le_rfl
  intro p txid entry hp hentry
  have := length_drop hentry
  omega

theorem length_removeWithDescendants_lt {txid : Hash256} (h : txid ∈ pool.txs) :
    (pool.removeWithDescendants txid).txs.keys.length < pool.txs.keys.length := by
  obtain ⟨entry, hentry⟩ := mem_iff_lookup.mp h
  have hcontains : (!pool.contains txid) = false := by simpa [Pool.contains] using h
  have hlen := length_drop hentry
  unfold Pool.removeWithDescendants Pool.removeLoop
  rw [List.dropWhile_cons_of_neg (by simp [hcontains])]
  simp only [hentry]
  exact Nat.lt_of_le_of_lt length_removeLoop_le (by omega)

theorem keptByDrop_maxSize (limit : ℕ) : KeptByDrop fun p => p.maxSize = limit :=
  fun _ _ _ h _ => h

theorem evictLoop_totalSize_le {fuel : ℕ} (h : Accounted P pool)
    (hfuel : pool.txs.keys.length < fuel) :
    (pool.evictLoop ord fuel).totalSize ≤ pool.maxSize := by
  induction fuel generalizing pool with
  | zero => omega
  | succ fuel ih =>
    unfold Pool.evictLoop
    split_ifs with hover
    · cases hworst : pool.worst ord with
      | none =>
        -- an empty mempool takes no bytes, so it was not over the limit
        have htotal := h.total
        rw [entries_eq_nil_of_worst hworst, List.map_nil, List.sum_nil] at htotal
        omega
      | some txid =>
        have hshorter := length_removeWithDescendants_lt (worst_mem hworst)
        have hremoved : Accounted P (pool.removeWithDescendants txid) :=
          removeLoop_keeps (fun _ _ _ hp hentry => hp.drop hentry) h
        have hmax : (pool.removeWithDescendants txid).maxSize = pool.maxSize :=
          removeLoop_keeps (keptByDrop_maxSize pool.maxSize) rfl
        exact hmax ▸ ih hremoved (by omega)
    · exact Nat.not_lt.mp hover

inductive Call
  | acceptTx (ord : IterOrder) (tx : Transaction) (cs : ChainState)
  | removeWithDescendants (txid : Hash256)
  | removeBlockTxs (block : Block)
  | readdDisconnectedTxs (ord : IterOrder) (txs : List Transaction) (cs : ChainState)

/-- The mempool after a call; a rejected transaction leaves it as it is. -/
def Call.apply (P : Primitives) (pool : Pool) : Call → Pool
  | .acceptTx ord tx cs =>
    match pool.acceptTx P ord tx cs with
    | .ok (pool', _) => pool'
    | .error _ => pool
  | .removeWithDescendants txid => pool.removeWithDescendants txid
  | .removeBlockTxs block => pool.removeBlockTxs P block
  | .readdDisconnectedTxs ord txs cs => (pool.readdDisconnectedTxs P ord txs cs).1

def runCalls (P : Primitives) (maxSize : ℕ) (calls : List Call) : Pool :=
  calls.foldl (Call.apply P) (Pool.empty maxSize)

structure Exact (P : Primitives) (maxSize : ℕ) (pool : Pool) : Prop where
  accounted : Accounted P pool
  limit : pool.maxSize = maxSize
  fits : pool.totalSize ≤ maxSize

theorem exact_empty (P : Primitives) (maxSize : ℕ) : Exact P maxSize (Pool.empty maxSize) :=
  ⟨⟨indexed_empty P maxSize, by simp [Pool.empty], by simp [Pool.empty]⟩, rfl, Nat.zero_le _⟩

theorem exact_keptByDrop (P : Primitives) (maxSize : ℕ) : KeptByDrop (Exact P maxSize) :=
  fun _ _ _ h hentry => ⟨h.accounted.drop hentry, h.limit, (Nat.sub_le _ _).trans h.fits⟩

theorem Accounted.acceptTx {tx : Transaction} {txid : Hash256} (h : Accounted P pool)
    (haccept : pool.acceptTx P ord tx cs = .ok (pool', txid)) :
    ∃ entry, entry.tx = tx ∧ Accounted P (pool.insert txid entry) ∧
      pool' = (pool.insert txid entry).evictIfNeeded ord := by
  obtain ⟨entry, rfl, hsize, hkey, hnew, havail, hpool⟩ := acceptTx_eq_ok haccept
  exact ⟨entry, rfl, h.insert hkey hnew (fun o ho => (havail o ho).1) hsize, hpool⟩

theorem Exact.acceptTx {maxSize : ℕ} {tx : Transaction} {txid : Hash256} (h : Exact P maxSize pool)
    (haccept : pool.acceptTx P ord tx cs = .ok (pool', txid)) : Exact P maxSize pool' := by
  obtain ⟨entry, _, hinsert, rfl⟩ := Accounted.acceptTx h.accounted haccept
  refine ⟨evictLoop_keeps (fun _ _ _ hp hentry => hp.drop hentry) hinsert,
    evictLoop_keeps (keptByDrop_maxSize maxSize) h.limit, ?_⟩
  have hle : ((pool.insert txid entry).evictIfNeeded ord).totalSize ≤ pool.maxSize :=
    evictLoop_totalSize_le hinsert (Nat.lt_succ_self _)
  exact h.limit ▸ hle

theorem Exact.apply {maxSize : ℕ} (h : Exact P maxSize pool) (call : Call) :
    Exact P maxSize (call.apply P pool) := by
  cases call with
  | acceptTx ord tx cs =>
    unfold Call.apply
    dsimp only
    split
    · next haccept => exact h.acceptTx haccept
    · exact h
  | removeWithDescendants txid => exact removeLoop_keeps (exact_keptByDrop P maxSize) h
  | removeBlockTxs block => exact removeBlockTxs_keeps (exact_keptByDrop P maxSize) h
  | readdDisconnectedTxs ord txs cs =>
    exact readdDisconnectedTxs_keeps (fun _ _ _ _ _ hp haccept => hp.acceptTx haccept)
      (List.Subset.refl txs) h

theorem exact_runCalls (P : Primitives) (maxSize : ℕ) (calls : List Call) :
    Exact P maxSize (runCalls P maxSize calls) := by
  unfold runCalls
  have hstart := exact_empty P maxSize
  generalize Pool.empty maxSize = pool at hstart
  induction calls generalizing pool with
  | nil => exact hstart
  | cons call calls ih => exact ih _ (hstart.apply call)

/-- After any calls, `spends` maps an outpoint to a txid just when the entry of
that txid spends it, no two entries share an input, and the size counter is the
sum of the entries' sizes and within the limit. -/
theorem mempool_indexes_exact (P : Primitives) (maxSize : ℕ) (calls : List Call) :
    let pool := runCalls P maxSize calls
    (∀ txid e, pool.txs.lookup txid = some e → e.tx.txid P = txid ∧
      e.size = e.tx.toBytes.length) ∧
    (∀ o txid, pool.spends.lookup o = some txid ↔
      ∃ e, pool.txs.lookup txid = some e ∧ o ∈ e.tx.prevOutputs) ∧
    (∀ o txid txid' e e', pool.txs.lookup txid = some e → pool.txs.lookup txid' = some e' →
      o ∈ e.tx.prevOutputs → o ∈ e'.tx.prevOutputs → txid = txid') ∧
    pool.totalSize = (pool.txs.entries.map fun e => e.2.size).sum ∧
    pool.maxSize = maxSize ∧ pool.totalSize ≤ maxSize := by
  intro pool
  have h : Exact P maxSize pool := exact_runCalls P maxSize calls
  have hspends := h.accounted.indexed.spends
  refine ⟨fun txid e he => ⟨h.accounted.indexed.keyed txid e he, h.accounted.sized txid e he⟩,
    hspends, ?_, h.accounted.total, h.limit, h.fits⟩
  intro o txid txid' e e' he he' ho ho'
  have hspent := (hspends o txid).mpr ⟨e, he, ho⟩
  have hspent' := (hspends o txid').mpr ⟨e', he', ho'⟩
  exact Option.mem_unique hspent hspent'

end Ironcat.MempoolIndex
