import Ironcat.Ledger
import Ironcat.Mempool

/-!
# Closed mempools

A mempool is closed over a set of unspent outpoints when every input of its
transactions is in the set or an output of another of its transactions. The
removal loops keep a mempool closed up to the transactions that are still to
be removed.
-/

namespace Ironcat.MempoolClosure

open Lib.Checked Lib.FiniteMap Lib.UndoLog Types Validation Chainstate Ledger Mempool

variable {P : Primitives} {unspent : Set OutPoint} {pool pool' : Pool}

/-- Entries are keyed by their txid and `spends` holds exactly their inputs. -/
structure Indexed (P : Primitives) (pool : Pool) : Prop where
  keyed : ∀ txid e, pool.txs.lookup txid = some e → e.tx.txid P = txid
  spends : ∀ o txid, pool.spends.lookup o = some txid ↔
    ∃ e, pool.txs.lookup txid = some e ∧ o ∈ e.tx.prevOutputs

def unspentOf (cs : ChainState) : Set OutPoint := {o | o ∈ cs.utxos}

def Available (unspent : Set OutPoint) (pool : Pool) (txid : Hash256) (o : OutPoint) : Prop :=
  o ∈ unspent ∨ ∃ p, pool.txs.lookup o.txid = some p ∧ o.txid ≠ txid ∧
    o.index.toNat < p.tx.vout.length

def Closed (unspent : Set OutPoint) (pool : Pool) : Prop :=
  ∀ txid e, pool.txs.lookup txid = some e → ∀ o ∈ e.tx.prevOutputs, Available unspent pool txid o

def ClosedExcept (unspent : Set OutPoint) (pool : Pool) (pending : List Hash256) : Prop :=
  ∀ txid e, pool.txs.lookup txid = some e → txid ∉ pending →
    ∀ o ∈ e.tx.prevOutputs, Available unspent pool txid o

theorem closedExcept_nil : ClosedExcept unspent pool [] ↔ Closed unspent pool := by
  simp [ClosedExcept, Closed]

/-- The entries of `pool'` are entries of `pool`. -/
def Subpool (pool' pool : Pool) : Prop :=
  ∀ txid e, pool'.txs.lookup txid = some e → pool.txs.lookup txid = some e

theorem Subpool.refl (pool : Pool) : Subpool pool pool := fun _ _ => id

theorem Subpool.trans {pool₁ pool₂ pool₃ : Pool} (h₁₂ : Subpool pool₁ pool₂)
    (h₂₃ : Subpool pool₂ pool₃) : Subpool pool₁ pool₃ :=
  fun txid e h => h₂₃ txid e (h₁₂ txid e h)

theorem Subpool.notMem (h : Subpool pool' pool) {txid : Hash256} (hnot : txid ∉ pool.txs) :
    txid ∉ pool'.txs := by
  intro hmem
  obtain ⟨e, he⟩ := Option.isSome_iff_exists.mp (AList.lookup_isSome.mpr hmem)
  exact hnot (AList.lookup_isSome.mp (Option.isSome_iff_exists.mpr ⟨e, h txid e he⟩))

theorem mem_iff_lookup {txid : Hash256} :
    txid ∈ pool.txs ↔ ∃ e, pool.txs.lookup txid = some e := by
  rw [← AList.lookup_isSome, Option.isSome_iff_exists]

variable {o : OutPoint} {k : Hash256} {pending : List Hash256}

section Drop

variable {txid : Hash256} {entry : MempoolEntry}

theorem lookup_drop (k : Hash256) :
    (pool.drop txid entry).txs.lookup k = if k = txid then none else pool.txs.lookup k := by
  by_cases hk : k = txid
  · subst hk
    simp [Pool.drop]
  · simp [Pool.drop, hk]

theorem drop_within : Subpool (pool.drop txid entry) pool := by
  intro k e hk
  rw [lookup_drop] at hk
  split_ifs at hk
  exact hk

theorem notMem_drop : txid ∉ (pool.drop txid entry).txs := by
  simp [mem_iff_lookup, lookup_drop]

theorem Indexed.drop (h : Indexed P pool) (hentry : pool.txs.lookup txid = some entry) :
    Indexed P (pool.drop txid entry) := by
  refine ⟨fun k e hk => h.keyed k e (drop_within k e hk), fun o k => ?_⟩
  change (eraseAll pool.spends entry.tx.prevOutputs).lookup o = some k ↔ _
  rw [lookup_eraseAll]
  constructor
  · intro hk
    split_ifs at hk with ho
    obtain ⟨e, he, hmem⟩ := (h.spends o k).mp hk
    refine ⟨e, ?_, hmem⟩
    rw [lookup_drop, if_neg, he]
    rintro rfl
    exact ho (Option.mem_unique he hentry ▸ hmem)
  · rintro ⟨e, he, hmem⟩
    rw [lookup_drop] at he
    split_ifs at he with hk
    have hspends := (h.spends o k).mpr ⟨e, he, hmem⟩
    rw [if_neg, hspends]
    intro ho
    have hspends' := (h.spends o txid).mpr ⟨entry, hentry, ho⟩
    exact hk (Option.mem_unique hspends hspends')

theorem length_drop (hentry : pool.txs.lookup txid = some entry) :
    (pool.drop txid entry).txs.keys.length + 1 = pool.txs.keys.length := by
  have hmem : txid ∈ pool.txs.keys := AList.mem_keys.mp (mem_iff_lookup.mpr ⟨entry, hentry⟩)
  change (pool.txs.erase txid).keys.length + 1 = _
  rw [AList.keys_erase, List.length_erase_of_mem hmem]
  have := List.length_pos_of_mem hmem
  omega

theorem Indexed.mem_children (h : Indexed P (pool.drop txid entry)) {e : MempoolEntry}
    (hk : (pool.drop txid entry).txs.lookup k = some e) (ho : o ∈ e.tx.prevOutputs)
    (htxid : o.txid = txid) (hindex : o.index.toNat < entry.tx.vout.length) :
    k ∈ (pool.drop txid entry).children txid entry := by
  have hspends := (h.spends o k).mpr ⟨e, hk, ho⟩
  refine List.mem_filterMap.mpr ⟨(entry.tx.vout.get ⟨_, hindex⟩, o.index.toNat), ?_, ?_⟩
  · rw [List.mk_mem_zipIdx_iff_getElem?]
    simp
  · have hout : outputOutpoint txid o.index.toNat = o := by
      cases o
      simp_all [outputOutpoint]
    change (pool.drop txid entry).spends.lookup (outputOutpoint txid o.index.toNat) = some k
    rw [hout, hspends]

theorem ClosedExcept.drop (h : ClosedExcept unspent pool pending) (hindexed : Indexed P pool)
    (hentry : pool.txs.lookup txid = some entry) :
    ClosedExcept unspent (pool.drop txid entry)
      ((pool.drop txid entry).children txid entry ++ pending) := by
  intro k e hk hnot o ho
  rw [List.mem_append, not_or] at hnot
  rcases h k e (drop_within k e hk) hnot.2 o ho with hutxo | ⟨p, hp, hne, hindex⟩
  · exact .inl hutxo
  · by_cases htxid : o.txid = txid
    · rw [htxid, hentry, Option.some.injEq] at hp
      exact absurd ((hindexed.drop hentry).mem_children hk ho htxid (hp ▸ hindex)) hnot.1
    · exact .inr ⟨p, by rw [lookup_drop, if_neg htxid, hp], hne, hindex⟩

end Drop

structure Removed (P : Primitives) (unspent : Set OutPoint) (pool : Pool) (txids pending : List Hash256)
    (pool' : Pool) : Prop where
  indexed : Indexed P pool'
  closed : ClosedExcept unspent pool' pending
  within : Subpool pool' pool
  gone : ∀ txid ∈ txids, txid ∉ pool'.txs

theorem ClosedExcept.of_notMem {rest : List Hash256} (h : ClosedExcept unspent pool pending)
    (hgone : ∀ txid ∈ pending, txid ∉ pool.txs ∨ txid ∈ rest) : ClosedExcept unspent pool rest := by
  intro txid e he hnot
  refine h txid e he fun hmem => ?_
  rcases hgone txid hmem with hgone | hrest
  · exact hgone (mem_iff_lookup.mpr ⟨e, he⟩)
  · exact hnot hrest

theorem dropWhile_cases {α : Type} (p : α → Bool) (l : List α) :
    (l.dropWhile p = [] ∧ ∀ a ∈ l, p a = true) ∨
      ∃ skipped a rest, l = skipped ++ a :: rest ∧ l.dropWhile p = a :: rest ∧
        (∀ b ∈ skipped, p b = true) ∧ p a = false := by
  induction l with
  | nil => simp
  | cons a l ih =>
    cases hp : p a with
    | false => exact .inr ⟨[], a, l, rfl, by simp [hp], by simp, hp⟩
    | true =>
      rw [List.dropWhile_cons_of_pos hp]
      rcases ih with ⟨hnil, hall⟩ | ⟨skipped, b, rest, rfl, hdrop, hall, hb⟩
      · exact .inl ⟨hnil, List.forall_mem_cons.mpr ⟨hp, hall⟩⟩
      · exact .inr ⟨a :: skipped, b, rest, rfl, hdrop, List.forall_mem_cons.mpr ⟨hp, hall⟩, hb⟩

theorem removeLoop_spec {fuel : ℕ} {toRemove : List Hash256} (hindexed : Indexed P pool)
    (hclosed : ClosedExcept unspent pool (toRemove ++ pending))
    (hfuel : pool.txs.keys.length < fuel) :
    Removed P unspent pool toRemove pending (pool.removeLoop fuel toRemove) := by
  induction fuel generalizing pool toRemove with
  | zero => omega
  | succ fuel ih =>
    unfold Pool.removeLoop
    rcases dropWhile_cases (fun txid => !pool.contains txid) toRemove with
      ⟨hdrop, hskip⟩ | ⟨skipped, current, rest, rfl, hdrop, hskip, hcurrent⟩
    · have hgone : ∀ txid ∈ toRemove, txid ∉ pool.txs := by
        simpa [Pool.contains] using hskip
      rw [hdrop]
      refine ⟨hindexed, hclosed.of_notMem fun txid hmem => ?_, Subpool.refl pool, hgone⟩
      exact (List.mem_append.mp hmem).imp_left (hgone txid)
    · have hgone : ∀ txid ∈ skipped, txid ∉ pool.txs := by
        simpa [Pool.contains] using hskip
      have hmem : current ∈ pool.txs := by simpa [Pool.contains] using hcurrent
      obtain ⟨entry, hentry⟩ := mem_iff_lookup.mp hmem
      rw [hdrop]
      simp only [hentry]
      have hlen := length_drop hentry
      have hdropped : ∀ txid ∈ skipped ++ [current], txid ∉ (pool.drop current entry).txs := by
        intro txid htxid
        rcases List.mem_append.mp htxid with htxid | htxid
        · exact drop_within.notMem (hgone txid htxid)
        · exact List.mem_singleton.mp htxid ▸ notMem_drop
      have hrest : ClosedExcept unspent (pool.drop current entry)
          (((pool.drop current entry).children current entry).reverse ++ rest ++ pending) := by
        refine (hclosed.drop hindexed hentry).of_notMem fun txid htxid => ?_
        by_cases hin : txid ∈ skipped ++ [current]
        · exact .inl (hdropped txid hin)
        · right
          simp only [List.mem_append, List.mem_cons, List.mem_reverse, not_or] at htxid hin ⊢
          tauto
      have hdone := ih (hindexed.drop hentry) hrest (by omega)
      refine ⟨hdone.indexed, hdone.closed, hdone.within.trans drop_within, fun txid htxid => ?_⟩
      by_cases hin : txid ∈ skipped ++ [current]
      · exact hdone.within.notMem (hdropped txid hin)
      · refine hdone.gone txid ?_
        simp only [List.mem_append, List.mem_cons, List.mem_reverse, not_or] at htxid hin ⊢
        tauto

theorem removeWithDescendants_spec {txid : Hash256} (hindexed : Indexed P pool)
    (hclosed : ClosedExcept unspent pool (txid :: pending)) :
    Removed P unspent pool [txid] pending (pool.removeWithDescendants txid) :=
  removeLoop_spec hindexed hclosed (Nat.lt_succ_self _)

theorem Closed.except (h : Closed unspent pool) (pending : List Hash256) :
    ClosedExcept unspent pool pending :=
  fun txid e he _ => h txid e he

variable {ord : IterOrder}

theorem evictLoop_rec {fuel : ℕ} {I : Pool → Prop}
    (step : ∀ p txid, I p → p.maxSize < p.totalSize → p.worst ord = some txid →
      I (p.removeWithDescendants txid)) (h : I pool) : I (pool.evictLoop ord fuel) := by
  induction fuel generalizing pool with
  | zero => exact h
  | succ fuel ih =>
    unfold Pool.evictLoop
    split_ifs with hover
    · cases hworst : pool.worst ord with
      | none => exact h
      | some txid => exact ih (step pool txid h hover hworst)
    · exact h

theorem evictLoop_closed {fuel : ℕ} (hindexed : Indexed P pool) (hclosed : Closed unspent pool) :
    Indexed P (pool.evictLoop ord fuel) ∧ Closed unspent (pool.evictLoop ord fuel) := by
  refine evictLoop_rec (I := fun p => Indexed P p ∧ Closed unspent p) ?_ ⟨hindexed, hclosed⟩
  intro p txid h _ _
  have hremoved := removeWithDescendants_spec h.1 (h.2.except [txid])
  exact ⟨hremoved.indexed, closedExcept_nil.mp hremoved.closed⟩

theorem lookup_insert {txid : Hash256} {entry : MempoolEntry} (k : Hash256) :
    (pool.insert txid entry).txs.lookup k = if k = txid then some entry else pool.txs.lookup k := by
  by_cases hk : k = txid
  · subst hk
    simp [Pool.insert]
  · simp [Pool.insert, hk]

theorem lookup_insert_of_notMem {txid : Hash256} {entry e : MempoolEntry} (hnew : txid ∉ pool.txs)
    (hk : pool.txs.lookup k = some e) : (pool.insert txid entry).txs.lookup k = some e := by
  rw [lookup_insert, if_neg, hk]
  rintro rfl
  exact hnew (mem_iff_lookup.mpr ⟨e, hk⟩)

theorem lookup_insert_spends {txid : Hash256} {entry : MempoolEntry} (o : OutPoint) :
    (pool.insert txid entry).spends.lookup o =
      if o ∈ entry.tx.prevOutputs then some txid else pool.spends.lookup o := by
  change (insertAll pool.spends (entry.tx.prevOutputs.map fun o => (o, txid))).lookup o = _
  have hkeys : (entry.tx.prevOutputs.map fun o => (o, txid)).map Prod.fst = entry.tx.prevOutputs := by
    rw [List.map_map]
    exact List.map_id _
  split_ifs with ho
  · obtain ⟨v, hv, hlookup⟩ := lookup_insertAll_of_mem pool.spends (hkeys.symm ▸ ho)
    obtain ⟨_, _, heq⟩ := List.mem_map.mp hv
    rw [hlookup, (Prod.mk.inj heq).2]
  · exact lookup_insertAll_of_notMem pool.spends (hkeys.symm ▸ ho)

theorem Indexed.insert {txid : Hash256} {entry : MempoolEntry} (h : Indexed P pool)
    (hkey : entry.tx.txid P = txid) (hnew : txid ∉ pool.txs)
    (hspends : ∀ o ∈ entry.tx.prevOutputs, o ∉ pool.spends) : Indexed P (pool.insert txid entry) := by
  constructor
  · intro k e hk
    rw [lookup_insert] at hk
    split_ifs at hk with heq
    · exact heq ▸ Option.some.inj hk ▸ hkey
    · exact h.keyed k e hk
  · intro o k
    rw [lookup_insert_spends]
    by_cases ho : o ∈ entry.tx.prevOutputs
    · rw [if_pos ho, Option.some.injEq]
      constructor
      · rintro rfl
        exact ⟨entry, by rw [lookup_insert, if_pos rfl], ho⟩
      · rintro ⟨e, he, hmem⟩
        by_contra hne
        rw [lookup_insert, if_neg fun heq => hne heq.symm] at he
        exact hspends o ho (Finmap.mem_of_lookup_eq_some ((h.spends o k).mpr ⟨e, he, hmem⟩))
    · rw [if_neg ho, h.spends]
      constructor
      · rintro ⟨e, he, hmem⟩
        exact ⟨e, lookup_insert_of_notMem hnew he, hmem⟩
      · rintro ⟨e, he, hmem⟩
        rw [lookup_insert] at he
        split_ifs at he
        · exact absurd (Option.some.inj he ▸ hmem) ho
        · exact ⟨e, he, hmem⟩

theorem Available.insert {txid : Hash256} {entry : MempoolEntry} (h : Available unspent pool k o)
    (hnew : txid ∉ pool.txs) : Available unspent (pool.insert txid entry) k o := by
  refine h.imp_right ?_
  rintro ⟨p, hp, hne, hindex⟩
  exact ⟨p, lookup_insert_of_notMem hnew hp, hne, hindex⟩

theorem Closed.insert {txid : Hash256} {entry : MempoolEntry} (h : Closed unspent pool)
    (hnew : txid ∉ pool.txs)
    (havail : ∀ o ∈ entry.tx.prevOutputs, Available unspent pool txid o) :
    Closed unspent (pool.insert txid entry) := by
  intro k e hk o ho
  rw [lookup_insert] at hk
  split_ifs at hk with heq
  · subst heq
    exact (havail o (Option.some.inj hk ▸ ho)).insert hnew
  · exact (h k e hk o ho).insert hnew

variable {cs : ChainState}

theorem resolveInputValue_available {txid : Hash256} {value : ℤ}
    (h : pool.resolveInputValue o cs = .ok value) (hnew : txid ∉ pool.txs) :
    Available (unspentOf cs) pool txid o := by
  unfold Pool.resolveInputValue at h
  cases hutxo : cs.utxos.lookup o with
  | some coin => exact .inl (Finmap.mem_of_lookup_eq_some hutxo)
  | none =>
    right
    cases hparent : pool.txs.lookup o.txid with
    | none => simp [hutxo, hparent] at h
    | some p =>
      simp only [hutxo, hparent, bind_eq_ok, okOr_eq_ok] at h
      obtain ⟨output, houtput, _⟩ := h
      refine ⟨p, rfl, ?_, (List.getElem?_eq_some_iff.mp houtput).1⟩
      rintro rfl
      exact hnew (mem_iff_lookup.mpr ⟨p, hparent⟩)

theorem addInputs_eq_ok {vin : List TxIn} {sum sum' : ℤ}
    (h : vin.foldlM (pool.addInput cs) sum = .ok sum') :
    ∀ input ∈ vin, input.prevOutput ∉ pool.spends ∧
      ∃ value, pool.resolveInputValue input.prevOutput cs = .ok value := by
  induction vin generalizing sum with
  | nil => simp
  | cons input vin ih =>
    obtain ⟨mid, hmid, hrest⟩ := foldlM_cons_eq_ok.mp h
    simp only [Pool.addInput, bind_eq_ok, ensure_eq_ok] at hmid
    obtain ⟨_, hspends, value, hvalue, _⟩ := hmid
    exact List.forall_mem_cons.mpr ⟨⟨hspends, value, hvalue⟩, ih hrest⟩

variable {tx : Transaction}

theorem notMem_spends_of_addInputs {sum sum' : ℤ}
    (h : tx.vin.foldlM (pool.addInput cs) sum = .ok sum') : ∀ o ∈ tx.prevOutputs, o ∉ pool.spends :=
  List.forall_mem_map.mpr fun input hinput => (addInputs_eq_ok h input hinput).1

/-- The entry that `accept_tx` makes of a transaction and the sum of its inputs. -/
def newEntry (tx : Transaction) (inputSum : ℤ) : MempoolEntry :=
  let fee := (inputSum - (outputValues tx).sum).toNat
  ⟨tx, fee, tx.toBytes.length, feeRate fee tx.toBytes.length⟩

theorem acceptTx_eq_insert {txid : Hash256} (h : pool.acceptTx P ord tx cs = .ok (pool', txid)) :
    ∃ inputSum, tx.vin.foldlM (pool.addInput cs) 0 = .ok inputSum ∧ tx.txid P = txid ∧
      txid ∉ pool.txs ∧ pool' = (pool.insert txid (newEntry tx inputSum)).evictIfNeeded ord := by
  simp only [Pool.acceptTx, bind_eq_ok, ensure_eq_ok, pure_eq_ok, Prod.mk.injEq] at h
  obtain ⟨_, _, _, _, _, _, _, hnew, inputSum, hsum, _, _, _, _, _, _, rfl, rfl⟩ := h
  exact ⟨inputSum, hsum, rfl, hnew, rfl⟩

theorem acceptTx_eq_ok {txid : Hash256} (h : pool.acceptTx P ord tx cs = .ok (pool', txid)) :
    ∃ entry, entry.tx = tx ∧ entry.size = tx.toBytes.length ∧ tx.txid P = txid ∧ txid ∉ pool.txs ∧
      (∀ o ∈ tx.prevOutputs, o ∉ pool.spends ∧ Available (unspentOf cs) pool txid o) ∧
      pool' = (pool.insert txid entry).evictIfNeeded ord := by
  obtain ⟨inputSum, hsum, hkey, hnew, hpool⟩ := acceptTx_eq_insert h
  refine ⟨newEntry tx inputSum, rfl, rfl, hkey, hnew, fun o ho => ?_, hpool⟩
  obtain ⟨input, hinput, rfl⟩ := List.mem_map.mp ho
  obtain ⟨hspends, value, hvalue⟩ := addInputs_eq_ok hsum input hinput
  exact ⟨hspends, resolveInputValue_available hvalue hnew⟩

theorem acceptTx_closed {txid : Hash256} (hunspent : unspentOf cs ⊆ unspent)
    (hindexed : Indexed P pool) (hclosed : Closed unspent pool)
    (h : pool.acceptTx P ord tx cs = .ok (pool', txid)) :
    Indexed P pool' ∧ Closed unspent pool' := by
  obtain ⟨entry, rfl, _, hkey, hnew, havail, rfl⟩ := acceptTx_eq_ok h
  exact evictLoop_closed (hindexed.insert hkey hnew fun o ho => (havail o ho).1)
    (hclosed.insert hnew fun o ho => (havail o ho).2.imp_left fun h => hunspent h)

/-- The first loop of `remove_block_txs` after the transactions `done`. -/
structure Confirming (P : Primitives) (pool : Pool) (done : List Transaction)
    (st : Pool × List Hash256) : Prop where
  indexed : Indexed P st.1
  within : Subpool st.1 pool
  confirmed : ∀ txid e, pool.txs.lookup txid = some e →
    st.1.txs.lookup txid = some e ∨ ∃ tx ∈ done, tx.txid P = txid
  gone : ∀ tx ∈ done, tx.txid P ∉ st.1.txs
  conflicts : ∀ tx ∈ done, ∀ o ∈ spentOutpoints tx, ∀ txid,
    st.1.spends.lookup o = some txid → txid ∈ st.2

theorem removeConfirmed_cases (pool : Pool) (txid : Hash256) :
    (txid ∉ pool.txs ∧ pool.removeConfirmed txid = pool) ∨
      ∃ e, pool.txs.lookup txid = some e ∧ pool.removeConfirmed txid = pool.drop txid e := by
  unfold Pool.removeConfirmed
  cases hlookup : pool.txs.lookup txid with
  | none => exact .inl ⟨by simp [mem_iff_lookup, hlookup], rfl⟩
  | some e => exact .inr ⟨e, rfl, rfl⟩

theorem Indexed.removeConfirmed (h : Indexed P pool) (txid : Hash256) :
    Indexed P (pool.removeConfirmed txid) ∧ Subpool (pool.removeConfirmed txid) pool ∧
      txid ∉ (pool.removeConfirmed txid).txs ∧
      (∀ k, k ≠ txid → (pool.removeConfirmed txid).txs.lookup k = pool.txs.lookup k) := by
  rcases removeConfirmed_cases pool txid with ⟨hnot, heq⟩ | ⟨e, he, heq⟩
  · rw [heq]
    exact ⟨h, Subpool.refl pool, hnot, fun _ _ => rfl⟩
  · rw [heq]
    exact ⟨h.drop he, drop_within, notMem_drop, fun k hk => by rw [lookup_drop, if_neg hk]⟩

theorem Indexed.spends_within (h' : Indexed P pool') (h : Indexed P pool)
    (hwithin : Subpool pool' pool) {txid : Hash256} (ho : pool'.spends.lookup o = some txid) :
    pool.spends.lookup o = some txid := by
  obtain ⟨e, he, hmem⟩ := (h'.spends o txid).mp ho
  exact (h.spends o txid).mpr ⟨e, hwithin txid e he, hmem⟩

variable {st : Pool × List Hash256}

theorem Confirming.step {done : List Transaction}
    (h : Confirming P pool done st) (tx : Transaction) :
    Confirming P pool (done ++ [tx]) (Pool.confirmTx P st tx) := by
  obtain ⟨hindexed, hwithin, hgone, hkept⟩ := h.indexed.removeConfirmed (tx.txid P)
  refine ⟨hindexed, hwithin.trans h.within, ?_, ?_, ?_⟩
  · intro txid e he
    by_cases htxid : txid = tx.txid P
    · exact .inr ⟨tx, by simp, htxid.symm⟩
    · rcases h.confirmed txid e he with hin | ⟨tx', htx', hkey⟩
      · exact .inl ((hkept txid htxid).trans hin)
      · exact .inr ⟨tx', List.mem_append_left _ htx', hkey⟩
  · intro tx' htx'
    rcases List.mem_append.mp htx' with htx' | htx'
    · exact hwithin.notMem (h.gone tx' htx')
    · exact List.mem_singleton.mp htx' ▸ hgone
  · intro tx' htx' o ho txid hspends
    change txid ∈ st.2 ++ _
    rcases List.mem_append.mp htx' with htx' | htx'
    · refine List.mem_append_left _ (h.conflicts tx' htx' o ho txid ?_)
      exact hindexed.spends_within h.indexed hwithin hspends
    · obtain rfl := List.mem_singleton.mp htx'
      refine List.mem_append_right _ ?_
      have hne : txid ≠ tx'.txid P := by
        rintro rfl
        obtain ⟨e, he, _⟩ := (hindexed.spends o _).mp hspends
        exact hgone (mem_iff_lookup.mpr ⟨e, he⟩)
      by_cases hcb : tx'.isCoinbase
      · simp [spentOutpoints, hcb] at ho
      · simp only [spentOutpoints, hcb, Bool.false_eq_true, if_false] at ho
        simp only [Pool.conflicts, hcb, Bool.false_eq_true, if_false, List.mem_filter,
          List.mem_filterMap, decide_eq_true_eq]
        exact ⟨⟨o, ho, hspends⟩, hne⟩

theorem confirmTxs_spec (hindexed : Indexed P pool) (txs : List Transaction) :
    Confirming P pool txs (txs.foldl (Pool.confirmTx P) (pool, [])) := by
  induction txs using List.reverseRecOn with
  | nil => exact ⟨hindexed, Subpool.refl pool, fun _ _ => .inl, by simp, by simp⟩
  | append_singleton txs tx ih =>
    rw [List.foldl_append]
    exact ih.step tx

theorem removeConflicts_spec {conflicting : List Hash256} (hindexed : Indexed P pool)
    (hclosed : ClosedExcept unspent pool (conflicting ++ pending)) :
    Removed P unspent pool conflicting pending (conflicting.foldl Pool.removeConflict pool) := by
  induction conflicting generalizing pool with
  | nil => exact ⟨hindexed, hclosed, Subpool.refl pool, by simp⟩
  | cons txid rest ih =>
    have hfirst : Removed P unspent pool [txid] (rest ++ pending) (pool.removeConflict txid) := by
      unfold Pool.removeConflict
      split_ifs with hcontains
      · exact removeWithDescendants_spec hindexed hclosed
      · have hnot : txid ∉ pool.txs := by simpa [Pool.contains] using hcontains
        refine ⟨hindexed, hclosed.of_notMem fun k hk => ?_, Subpool.refl pool, by simpa using hnot⟩
        rcases List.mem_cons.mp hk with rfl | hk
        · exact .inl hnot
        · exact .inr hk
    have hrest := ih hfirst.indexed hfirst.closed
    refine ⟨hrest.indexed, hrest.closed, hrest.within.trans hfirst.within, ?_⟩
    refine List.forall_mem_cons.mpr ⟨?_, hrest.gone⟩
    exact hrest.within.notMem (hfirst.gone txid (List.mem_singleton_self txid))

/-- A mempool transaction with the txid of a block transaction is that
transaction. -/
def TxidsDistinct (P : Primitives) (pool : Pool) (txs : List Transaction) : Prop :=
  ∀ txid e, pool.txs.lookup txid = some e → ∀ tx ∈ txs, tx.txid P = e.tx.txid P → tx = e.tx

theorem mem_created {height : UInt32} (htxid : tx.txid P = o.txid)
    (hindex : o.index.toNat < tx.vout.length) :
    o ∈ (txUpdate P height tx).created.map Prod.fst := by
  change o ∈ (outputEntries (tx.txid P) tx.vout height tx.isCoinbase).map Prod.fst
  rw [outputEntries_keys]
  refine List.mem_map.mpr ⟨(tx.vout.get ⟨_, hindex⟩, o.index.toNat), ?_, ?_⟩
  · rw [List.mk_mem_zipIdx_iff_getElem?]
    simp
  · cases o
    simp_all [outputOutpoint]

structure Advances (P : Primitives) (txs : List Transaction) (unspent unspent' : Set OutPoint) :
    Prop where
  kept : ∀ o ∈ unspent, (∀ tx ∈ txs, o ∉ spentOutpoints tx) → o ∈ unspent'
  created : ∀ tx ∈ txs, ∀ o : OutPoint, tx.txid P = o.txid → o.index.toNat < tx.vout.length →
    (∀ tx ∈ txs, o ∉ spentOutpoints tx) → o ∈ unspent'

variable {block : Block}

theorem connectBlock_advances {cs' : ChainState} {height : UInt32} {hash : Hash256}
    (h : connectBlock P cs block height hash = .ok cs') :
    Advances P block.transactions (unspentOf cs) (unspentOf cs') := by
  have hutxos := connectBlock_utxos h
  have hspent : ∀ {o}, (∀ tx ∈ block.transactions, o ∉ spentOutpoints tx) →
      ∀ u ∈ blockUpdates P height block, o ∉ u.spent := by
    intro o ho u hu
    obtain ⟨tx, htx, rfl⟩ := List.mem_map.mp hu
    exact ho tx htx
  constructor
  · intro o ho hnot
    change o ∈ cs'.utxos
    rw [hutxos]
    exact mem_applyAll (.inl ho) (hspent hnot)
  · intro tx htx o htxid hindex hnot
    change o ∈ cs'.utxos
    rw [hutxos]
    refine mem_applyAll (.inr ⟨txUpdate P height tx, List.mem_map_of_mem htx, ?_⟩) (hspent hnot)
    exact mem_created htxid hindex

variable {unspent' : Set OutPoint}

theorem Confirming.closedExcept {txs : List Transaction} (h : Confirming P pool txs st)
    (hindexed : Indexed P pool) (hclosed : ClosedExcept unspent pool pending)
    (hdistinct : TxidsDistinct P pool txs) (hadvances : Advances P txs unspent unspent') :
    ClosedExcept unspent' st.1 (st.2 ++ pending) := by
  intro txid e he hpending o ho
  rw [List.mem_append, not_or] at hpending
  obtain ⟨hnot, hpending⟩ := hpending
  have hspent : ∀ tx ∈ txs, o ∉ spentOutpoints tx := by
    intro tx htx hmem
    exact hnot (h.conflicts tx htx o hmem txid ((h.indexed.spends o txid).mpr ⟨e, he, ho⟩))
  rcases hclosed txid e (h.within txid e he) hpending o ho with hunspent | ⟨p, hp, hne, hindex⟩
  · exact .inl (hadvances.kept o hunspent hspent)
  · rcases h.confirmed o.txid p hp with hin | ⟨tx, htx, htxid⟩
    · exact .inr ⟨p, hin, hne, hindex⟩
    · have htx' : tx = p.tx := hdistinct o.txid p hp tx htx (htxid.trans (hindexed.keyed _ _ hp).symm)
      exact .inl (hadvances.created tx htx o htxid (htx' ▸ hindex) hspent)

theorem removeBlockTxs_clean (hindexed : Indexed P pool) (block : Block) :
    Indexed P (pool.removeBlockTxs P block) ∧ Subpool (pool.removeBlockTxs P block) pool ∧
      (∀ tx ∈ block.transactions, tx.txid P ∉ (pool.removeBlockTxs P block).txs) ∧
      ∀ txid e, (pool.removeBlockTxs P block).txs.lookup txid = some e → ∀ o ∈ e.tx.prevOutputs,
        ∀ tx ∈ block.transactions, o ∉ spentOutpoints tx := by
  have hconf := confirmTxs_spec hindexed block.transactions
  generalize hst : block.transactions.foldl (Pool.confirmTx P) (pool, []) = st at hconf
  -- every outpoint counts as unspent, so that closedness says nothing
  have hall : ClosedExcept Set.univ st.1 (st.2 ++ []) := fun _ _ _ _ o _ => .inl (Set.mem_univ o)
  have hremoved := removeConflicts_spec hconf.indexed hall
  rw [Pool.removeBlockTxs, hst]
  refine ⟨hremoved.indexed, hremoved.within.trans hconf.within, ?_, ?_⟩
  · exact fun tx htx => hremoved.within.notMem (hconf.gone tx htx)
  · intro txid e he o ho tx htx hspent
    have hspends := (hconf.indexed.spends o txid).mpr ⟨e, hremoved.within txid e he, ho⟩
    exact hremoved.gone txid (hconf.conflicts tx htx o hspent txid hspends)
      (mem_iff_lookup.mpr ⟨e, he⟩)

theorem removeBlockTxs_closed (hindexed : Indexed P pool)
    (hclosed : ClosedExcept unspent pool pending)
    (hdistinct : TxidsDistinct P pool block.transactions)
    (hadvances : Advances P block.transactions unspent unspent') :
    ClosedExcept unspent' (pool.removeBlockTxs P block) pending := by
  have hconf := confirmTxs_spec hindexed block.transactions
  exact (removeConflicts_spec hconf.indexed
    (hconf.closedExcept hindexed hclosed hdistinct hadvances)).closed

theorem mempool_stays_closed (P : Primitives) (ord : IterOrder) (pool : Pool) (cs : ChainState)
    (hindexed : Indexed P pool) (hclosed : Closed (unspentOf cs) pool) :
    (∀ tx pool' txid, pool.acceptTx P ord tx cs = .ok (pool', txid) →
      Indexed P pool' ∧ Closed (unspentOf cs) pool') ∧
    (∀ txid, Indexed P (pool.removeWithDescendants txid) ∧
      Closed (unspentOf cs) (pool.removeWithDescendants txid)) ∧
    (∀ block height hash cs', TxidsDistinct P pool block.transactions →
      connectBlock P cs block height hash = .ok cs' →
      Indexed P (pool.removeBlockTxs P block) ∧
      Closed (unspentOf cs') (pool.removeBlockTxs P block) ∧
      (∀ tx ∈ block.transactions, tx.txid P ∉ (pool.removeBlockTxs P block).txs) ∧
      ∀ txid e, (pool.removeBlockTxs P block).txs.lookup txid = some e → ∀ o ∈ e.tx.prevOutputs,
        ∀ tx ∈ block.transactions, o ∉ spentOutpoints tx) := by
  refine ⟨?_, ?_, ?_⟩
  · exact fun tx pool' txid h => acceptTx_closed (Set.Subset.refl _) hindexed hclosed h
  · intro txid
    have hremoved := removeWithDescendants_spec hindexed (hclosed.except [txid])
    exact ⟨hremoved.indexed, closedExcept_nil.mp hremoved.closed⟩
  · intro block height hash cs' hdistinct hconnect
    obtain ⟨hindexed', _, hgone, hspent⟩ := removeBlockTxs_clean hindexed block
    have hclosed' := removeBlockTxs_closed hindexed (closedExcept_nil.mpr hclosed) hdistinct
      (connectBlock_advances hconnect)
    exact ⟨hindexed', closedExcept_nil.mp hclosed', hgone, hspent⟩

def fundedState : ChainState :=
  { emptyState with
    utxos := (∅ : Utxos).insert ⟨1, 0⟩ ⟨⟨2000, []⟩, 0, false⟩
    scriptVerifyHeight := 100 }

def payTx : Transaction where
  version := 1
  vin := [⟨⟨1, 0⟩, [], 0⟩]
  vout := [⟨1000, []⟩]
  locktime := 0

def childTx : Transaction where
  version := 1
  vin := [⟨⟨payTx.txid poly, 0⟩, [], 0⟩]
  vout := [⟨100, []⟩]
  locktime := 0

def payPool : Pool :=
  (Pool.empty 1000).insert (payTx.txid poly) ⟨payTx, 1000, 60, 16⟩

def chainPool : Pool := payPool.insert (childTx.txid poly) ⟨childTx, 900, 60, 15⟩

theorem indexed_empty (P : Primitives) (maxSize : ℕ) : Indexed P (Pool.empty maxSize) :=
  ⟨by simp [Pool.empty], by simp [Pool.empty]⟩

theorem closed_empty (unspent : Set OutPoint) (maxSize : ℕ) :
    Closed unspent (Pool.empty maxSize) := by
  simp [Closed, Pool.empty]

/-- The block confirms the parent, and the child stays with an input that is now
unspent. -/
theorem mempool_closed_after_payment :
    ∃ cs', connectBlock poly fundedState (blockOn 0 0 [coinbaseTx 0 0, payTx]) 1 9 = .ok cs' ∧
      Closed (unspentOf cs') (chainPool.removeBlockTxs poly
        (blockOn 0 0 [coinbaseTx 0 0, payTx])) ∧
      childTx.txid poly ∈ (chainPool.removeBlockTxs poly
        (blockOn 0 0 [coinbaseTx 0 0, payTx])).txs := by
  have hindexed : Indexed poly payPool :=
    (indexed_empty _ _).insert rfl (by decide) (by decide +kernel)
  have hclosed : Closed (unspentOf fundedState) payPool :=
    (closed_empty _ _).insert (by decide) fun o ho => .inl (by
      obtain rfl : o = ⟨1, 0⟩ := by simpa [payTx, Transaction.prevOutputs] using ho
      exact (by decide +kernel : (⟨1, 0⟩ : OutPoint) ∈ fundedState.utxos))
  have hnew : childTx.txid poly ∉ payPool.txs := by decide +kernel
  have hindexed' : Indexed poly chainPool := hindexed.insert rfl hnew (by decide +kernel)
  have hclosed' : Closed (unspentOf fundedState) chainPool :=
    hclosed.insert hnew fun o ho => .inr (by
      obtain rfl : o = ⟨payTx.txid poly, 0⟩ := by
        simpa [childTx, Transaction.prevOutputs] using ho
      exact ⟨⟨payTx, 1000, 60, 16⟩, by decide +kernel⟩)
  have hok : (connectBlock poly fundedState (blockOn 0 0 [coinbaseTx 0 0, payTx]) 1
      9).toOption.isSome = true := by
    decide +kernel
  obtain ⟨cs', hcs'⟩ := Option.isSome_iff_exists.mp hok
  rw [toOption_eq_some] at hcs'
  refine ⟨cs', hcs', ?_, by decide +kernel⟩
  have hall := mempool_stays_closed poly .id chainPool fundedState hindexed' hclosed'
  refine (hall.2.2 _ _ _ cs' ?_ hcs').2.1
  intro txid e he tx htx hkey
  have htx' : e.tx = payTx ∨ e.tx = childTx := by
    rw [chainPool, lookup_insert, payPool, lookup_insert] at he
    split_ifs at he
    · exact .inr (Option.some.inj he ▸ rfl)
    · exact .inl (Option.some.inj he ▸ rfl)
    · simp [Pool.empty] at he
  have hcases : tx = coinbaseTx 0 0 ∨ tx = payTx := by simpa [blockOn] using htx
  have hids : (coinbaseTx 0 0).txid poly ≠ payTx.txid poly ∧
      (coinbaseTx 0 0).txid poly ≠ childTx.txid poly ∧
      payTx.txid poly ≠ childTx.txid poly := by decide +kernel
  rcases hcases with rfl | rfl <;> rcases htx' with heq | heq <;> rw [heq] at hkey ⊢
  · exact absurd hkey hids.1
  · exact absurd hkey hids.2.1
  · exact absurd hkey hids.2.2

end Ironcat.MempoolClosure
