import Ironcat.MempoolIndex

/-!
# What eviction leaves

`accept_tx` evicts after it has inserted, so the transaction it reports as
accepted may be evicted in the same call. Eviction takes the transactions that
have a worse fee rate than it and its ancestors, with their descendants, before
it can reach one of these. So it stays, in whatever order the map is iterated,
exactly if the other transactions fit under the limit together with it.
-/

namespace Ironcat.MempoolEviction

open Lib.Checked Types Chainstate Mempool MempoolClosure MempoolReadd MempoolIndex

variable {P : Primitives} {ord : IterOrder} {cs : ChainState} {full pool : Pool}
variable {kept : Set Hash256} {txid : Hash256}

def feeRateOf (pool : Pool) (txid : Hash256) : ℚ :=
  ((pool.txs.lookup txid).map MempoolEntry.feeRate).getD 0

/-- `child` spends an output of `parent`, and both are in the mempool. -/
def Parent (pool : Pool) (parent child : Hash256) : Prop :=
  ∃ p e, pool.txs.lookup parent = some p ∧ pool.txs.lookup child = some e ∧
    ∃ o ∈ e.tx.prevOutputs, o.txid = parent ∧ o.index.toNat < p.tx.vout.length

/-- A transaction itself and its ancestors in the mempool. -/
def Ancestor (pool : Pool) : Hash256 → Hash256 → Prop := Relation.ReflTransGen (Parent pool)

/-- No ancestor of `other`, itself included, has a worse fee rate than all
ancestors of `txid`. -/
def Outlasts (pool : Pool) (txid other : Hash256) : Prop :=
  ∀ j, Ancestor pool j other → ∃ a, Ancestor pool a txid ∧ feeRateOf pool a ≤ feeRateOf pool j

open Classical in
/-- The bytes that are left when all that eviction takes before `txid` is gone. -/
noncomputable def outlastingSize (pool : Pool) (txid : Hash256) : ℕ :=
  ((pool.txs.entries.filter fun e => Outlasts pool txid e.1).map fun e => e.2.size).sum

variable {k : Hash256}

theorem Ancestor.mem {j : Hash256} (h : Ancestor full j k) (hk : k ∈ full.txs) : j ∈ full.txs := by
  rcases Relation.ReflTransGen.cases_head h with rfl | ⟨_, ⟨p, _, hp, _⟩, _⟩
  · exact hk
  · exact mem_iff_lookup.mpr ⟨p, hp⟩

theorem outlasts_self (pool : Pool) (txid : Hash256) : Outlasts pool txid txid :=
  fun j hj => ⟨j, hj, le_rfl⟩

theorem Outlasts.parent {parent child : Hash256} (h : Outlasts full txid child)
    (hparent : Parent full parent child) : Outlasts full txid parent :=
  fun j hj => h j (Relation.ReflTransGen.tail hj hparent)

/-- The mempools that eviction from `full` goes through while it spares `kept`. -/
structure Spared (P : Primitives) (full : Pool) (kept : Set Hash256) (pool : Pool) : Prop where
  accounted : Accounted P pool
  within : Subpool pool full
  limit : pool.maxSize = full.maxSize
  present : ∀ txid ∈ kept, txid ∈ pool.txs

theorem Spared.drop {txid : Hash256} {entry : MempoolEntry} (h : Spared P full kept pool)
    (hnot : txid ∉ kept) (hentry : pool.txs.lookup txid = some entry) :
    Spared P full kept (pool.drop txid entry) := by
  refine ⟨h.accounted.drop hentry, drop_within.trans h.within, h.limit, fun k hk => ?_⟩
  refine AList.mem_erase.mpr ⟨?_, h.present k hk⟩
  rintro rfl
  exact hnot hk

def ParentsIn (full : Pool) (kept : Set Hash256) : Prop :=
  ∀ parent child, Parent full parent child → child ∈ kept → parent ∈ kept

theorem ParentsIn.ancestor {j : Hash256} (h : ParentsIn full kept) (hj : Ancestor full j k)
    (hk : k ∈ kept) : j ∈ kept := by
  induction hj using Relation.ReflTransGen.head_induction_on with
  | refl => exact hk
  | head hparent _ ih => exact h _ _ hparent ih

theorem Indexed.exists_of_mem_children (h : Indexed P pool) {txid child : Hash256}
    {entry : MempoolEntry} (hchild : child ∈ pool.children txid entry) :
    ∃ e, pool.txs.lookup child = some e ∧
      ∃ o ∈ e.tx.prevOutputs, o.txid = txid ∧ o.index.toNat < entry.tx.vout.length := by
  obtain ⟨⟨output, i⟩, hi, hspent⟩ := List.mem_filterMap.mp hchild
  obtain ⟨e, he, ho⟩ := (h.spends _ _).mp hspent
  refine ⟨e, he, _, ho, rfl, ?_⟩
  have hlt : i < entry.tx.vout.length := by
    have := List.snd_lt_of_mem_zipIdx hi
    simpa using this
  exact (UInt32.toNat_ofNat' ▸ Nat.mod_le i _).trans_lt hlt

theorem ParentsIn.removeLoop (h : ParentsIn full kept) {fuel : ℕ} {toRemove : List Hash256}
    (hpool : Spared P full kept pool) (hremove : ∀ txid ∈ toRemove, txid ∉ kept) :
    Spared P full kept (pool.removeLoop fuel toRemove) := by
  induction fuel generalizing pool toRemove with
  | zero => exact hpool
  | succ fuel ih =>
    unfold Pool.removeLoop
    split
    · exact hpool
    · next current rest hdrop =>
      have hsub : ∀ txid ∈ current :: rest, txid ∉ kept := fun txid htxid =>
        hremove txid ((List.dropWhile_suffix _).subset (hdrop ▸ htxid))
      have hcurrent : current ∉ kept := hsub current List.mem_cons_self
      split
      · exact hpool
      · next entry hentry =>
        have hdropped := hpool.drop hcurrent hentry
        refine ih hdropped fun txid htxid => ?_
        rcases List.mem_append.mp htxid with hchild | hrest
        · intro hkept
          obtain ⟨e, he, ho⟩ := Indexed.exists_of_mem_children hdropped.accounted.indexed
            (List.mem_reverse.mp hchild)
          exact hcurrent (h current txid ⟨entry, e, hpool.within _ _ hentry,
            hdropped.within _ _ he, ho⟩ hkept)
        · exact hsub txid (List.mem_cons_of_mem current hrest)

/-- The outpoints that are no output of another transaction of the mempool. -/
def external (full : Pool) : Set OutPoint :=
  {o | ∀ p, full.txs.lookup o.txid = some p → o.index.toNat < p.tx.vout.length →
    o ∈ p.tx.prevOutputs}

theorem closed_external_iff (hindexed : Indexed P full) (hwithin : Subpool pool full) :
    Closed (external full) pool ↔ ParentsIn full {k | k ∈ pool.txs} := by
  constructor
  · rintro hclosed parent child ⟨p, e, hp, he, o, ho, rfl, hindex⟩ hchild
    obtain ⟨e', he'⟩ := mem_iff_lookup.mp hchild
    obtain rfl : e = e' := Option.some.inj (he.symm.trans (hwithin _ _ he'))
    rcases hclosed child e he' o ho with hext | ⟨p', hp', _⟩
    · -- an output that its own transaction spends has that transaction as its only spender
      have hspends := (hindexed.spends o child).mpr ⟨e, he, ho⟩
      have hspends' := (hindexed.spends o o.txid).mpr ⟨p, hp, hext p hp hindex⟩
      rw [Option.mem_unique hspends' hspends]
      exact hchild
    · exact mem_iff_lookup.mpr ⟨p', hp'⟩
  · intro hparents k e hk o ho
    by_cases hext : o ∈ external full
    · exact .inl hext
    · obtain ⟨p, hp, hindex, hnot⟩ : ∃ p, full.txs.lookup o.txid = some p ∧
          o.index.toNat < p.tx.vout.length ∧ o ∉ p.tx.prevOutputs := by
        simpa [external] using hext
      have hfull := hwithin k e hk
      have hmem : o.txid ∈ pool.txs := hparents o.txid k ⟨p, e, hp, hfull, o, ho, rfl, hindex⟩
        (mem_iff_lookup.mpr ⟨e, hk⟩)
      obtain ⟨p', hp'⟩ := mem_iff_lookup.mp hmem
      obtain rfl : p = p' := Option.some.inj (hp.symm.trans (hwithin _ _ hp'))
      refine .inr ⟨p, hp', ?_, hindex⟩
      rintro rfl
      exact hnot (Option.mem_unique hp hfull ▸ ho)

/-- A mempool between two rounds of eviction: what is left has its parents. -/
structure Round (P : Primitives) (full : Pool) (kept : Set Hash256) (pool : Pool) : Prop where
  spared : Spared P full kept pool
  parents : ParentsIn full {k | k ∈ pool.txs}

theorem Round.start (h : Accounted P full) (hkept : ∀ k ∈ kept, k ∈ full.txs) :
    Round P full kept full := by
  refine ⟨⟨h, Subpool.refl _, rfl, hkept⟩, ?_⟩
  rintro parent child ⟨p, _, hp, _⟩ _
  exact mem_iff_lookup.mpr ⟨p, hp⟩

theorem Round.removed {worst : Hash256} (h : Round P full kept pool) (hfull : Accounted P full) :
    ParentsIn full {k | k ∈ (pool.removeWithDescendants worst).txs} ∧
      worst ∉ (pool.removeWithDescendants worst).txs := by
  have hclosed := (closed_external_iff hfull.indexed h.spared.within).mpr h.parents
  have hremoved := removeWithDescendants_spec h.spared.accounted.indexed (hclosed.except [worst])
  refine ⟨?_, hremoved.gone worst (List.mem_singleton_self worst)⟩
  exact (closed_external_iff hfull.indexed (hremoved.within.trans h.spared.within)).mp
    (closedExcept_nil.mp hremoved.closed)

theorem Round.remove {worst : Hash256} (h : Round P full kept pool) (hfull : Accounted P full)
    (hkept : ParentsIn full kept) (hnot : worst ∉ kept) :
    Round P full kept (pool.removeWithDescendants worst) :=
  ⟨hkept.removeLoop h.spared fun _ hk => List.mem_singleton.mp hk ▸ hnot, (h.removed hfull).1⟩

theorem sum_size_le {l l' : List (Sigma fun _ : Hash256 => MempoolEntry)} (hnodup : l.Nodup)
    (hsub : l ⊆ l') : (l.map fun e => e.2.size).sum ≤ (l'.map fun e => e.2.size).sum := by
  obtain ⟨m, hperm, hsublist⟩ := hnodup.subperm hsub
  calc (l.map fun e => e.2.size).sum = (m.map fun e => e.2.size).sum :=
        ((hperm.map _).sum_eq).symm
    _ ≤ (l'.map fun e => e.2.size).sum := (hsublist.map _).sum_le_sum fun _ _ => Nat.zero_le _

def outlasting (full : Pool) (txid : Hash256) : Set Hash256 :=
  {k | k ∈ full.txs ∧ Outlasts full txid k}

theorem parentsIn_outlasting (full : Pool) (txid : Hash256) :
    ParentsIn full (outlasting full txid) := by
  rintro parent child hparent ⟨-, hchild⟩
  obtain ⟨p, _, hp, _⟩ := id hparent
  exact ⟨mem_iff_lookup.mpr ⟨p, hp⟩, hchild.parent hparent⟩

theorem feeRateOf_eq {e : MempoolEntry} (hwithin : Subpool pool full)
    (hk : pool.txs.lookup k = some e) : feeRateOf full k = e.feeRate := by
  rw [feeRateOf, hwithin k e hk]
  rfl

theorem worst_feeRateOf_le {worst : Hash256} (hwithin : Subpool pool full)
    (hworst : pool.worst ord = some worst) (hk : k ∈ pool.txs) :
    feeRateOf full worst ≤ feeRateOf full k := by
  obtain ⟨e, he⟩ := mem_iff_lookup.mp hk
  obtain ⟨e', he', hle⟩ := worst_le hworst he
  rw [feeRateOf_eq hwithin he', feeRateOf_eq hwithin he]
  exact hle

/-- While the mempool holds a transaction that does not outlast `txid`, the worst
one does not outlast it either. -/
theorem Round.worst_notMem {other worst : Hash256} (h : Round P full (outlasting full txid) pool)
    (hother : other ∈ pool.txs) (hnot : ¬ Outlasts full txid other)
    (hworst : pool.worst ord = some worst) : worst ∉ outlasting full txid := by
  rintro ⟨-, hout⟩
  obtain ⟨j, hj, hlow⟩ : ∃ j, Ancestor full j other ∧
      ∀ a, Ancestor full a txid → feeRateOf full j < feeRateOf full a := by
    simpa [Outlasts] using hnot
  obtain ⟨a, ha, hle⟩ := hout worst Relation.ReflTransGen.refl
  have hmin := worst_feeRateOf_le h.spared.within hworst (h.parents.ancestor hj hother)
  exact absurd (hlow a ha) (not_lt.mpr (hle.trans hmin))

theorem Round.exists_other (h : Round P full (outlasting full txid) pool)
    (hover : outlastingSize full txid < pool.totalSize) :
    ∃ other ∈ pool.txs, ¬ Outlasts full txid other := by
  classical
  by_contra! hall
  refine absurd hover (not_lt.mpr ?_)
  rw [h.spared.accounted.total]
  refine sum_size_le pool.txs.nodupKeys.nodup fun e he => ?_
  have hlookup := mem_entries.mp he
  refine List.mem_filter.mpr ⟨mem_entries.mpr (h.spared.within _ _ hlookup), decide_eq_true ?_⟩
  exact hall e.1 (mem_iff_lookup.mpr ⟨e.2, hlookup⟩)

theorem Round.outlastingSize_le (h : Round P full (outlasting full txid) pool) :
    outlastingSize full txid ≤ pool.totalSize := by
  classical
  rw [h.spared.accounted.total]
  refine sum_size_le (full.txs.nodupKeys.nodup.filter _) fun e he => ?_
  obtain ⟨hmem, hout⟩ := List.mem_filter.mp he
  have hlookup := mem_entries.mp hmem
  obtain ⟨e', he'⟩ := mem_iff_lookup.mp (h.spared.present e.1
    ⟨mem_iff_lookup.mpr ⟨e.2, hlookup⟩, of_decide_eq_true hout⟩)
  rw [mem_entries, he', ← h.spared.within _ _ he', hlookup]

theorem Round.evictLoop {fuel : ℕ} (h : Round P full (outlasting full txid) pool)
    (hfull : Accounted P full) (hfits : outlastingSize full txid ≤ full.maxSize) :
    Round P full (outlasting full txid) (pool.evictLoop ord fuel) := by
  refine evictLoop_rec (fun p worst h hover hworst => ?_) h
  have hlimit := h.spared.limit
  obtain ⟨other, hother, hnot⟩ := h.exists_other (by omega)
  exact h.remove hfull (parentsIn_outlasting full txid) (h.worst_notMem hother hnot hworst)

/-- The order that begins with one given txid. -/
def firstOrder (first : Hash256) : IterOrder where
  list l := if first ∈ l then first :: l.erase first else l
  perm l := by
    split_ifs with h
    · exact (List.perm_cons_erase h).symm
    · exact List.Perm.refl l

theorem worst_firstOrder {first worst : Hash256} (hwithin : Subpool pool full)
    (hfirst : first ∈ pool.txs) (hworst : pool.worst (firstOrder first) = some worst)
    (hle : feeRateOf full first ≤ feeRateOf full worst) : worst = first := by
  obtain ⟨e, he⟩ := mem_iff_lookup.mp hfirst
  obtain ⟨rest, hrates⟩ : ∃ rest, feeRates pool (firstOrder first) = (first, e.feeRate) :: rest := by
    have hlist : (firstOrder first).list pool.txs.keys = first :: pool.txs.keys.erase first :=
      if_pos (AList.mem_keys.mp hfirst)
    rw [feeRates, hlist, List.filterMap_cons_some (b := (first, e.feeRate)) (by rw [he]; rfl)]
    exact ⟨_, rfl⟩
  rw [worst_eq_argmin, Option.map_eq_some_iff] at hworst
  obtain ⟨⟨k, rate⟩, hmin, rfl⟩ := hworst
  obtain ⟨e', he', rfl⟩ := mem_feeRates.mp (List.argmin_mem hmin)
  rw [feeRateOf_eq hwithin he, feeRateOf_eq hwithin he'] at hle
  rw [hrates, List.argmin_cons] at hmin
  generalize rest.argmin Prod.snd = tail at hmin
  cases tail with
  | none => exact (Prod.mk.inj (Option.some.inj hmin)).1.symm
  | some c =>
    dsimp only at hmin
    split_ifs at hmin with hlt
    · obtain rfl := Option.some.inj hmin
      exact absurd hle (not_le.mpr hlt)
    · exact (Prod.mk.inj (Option.some.inj hmin)).1.symm

theorem exists_least_ancestor (hmem : txid ∈ full.txs) : ∃ a, Ancestor full a txid ∧
    ∀ j, Ancestor full j txid → feeRateOf full a ≤ feeRateOf full j := by
  classical
  have hself : txid ∈ full.txs.keys.toFinset.filter (Ancestor full · txid) := by
    rw [Finset.mem_filter, List.mem_toFinset]
    exact ⟨AList.mem_keys.mp hmem, Relation.ReflTransGen.refl⟩
  obtain ⟨a, ha, hleast⟩ := Finset.exists_min_image _ (feeRateOf full) ⟨txid, hself⟩
  refine ⟨a, (Finset.mem_filter.mp ha).2, fun j hj => hleast j ?_⟩
  rw [Finset.mem_filter, List.mem_toFinset]
  exact ⟨AList.mem_keys.mp (hj.mem hmem), hj⟩

theorem Round.evictLoop_least {a : Hash256} {fuel : ℕ}
    (h : Round P full (outlasting full txid) pool) (hfull : Accounted P full)
    (hmem : txid ∈ full.txs) (ha : Ancestor full a txid)
    (hleast : ∀ j, Ancestor full j txid → feeRateOf full a ≤ feeRateOf full j) :
    txid ∉ (pool.evictLoop (firstOrder a) fuel).txs ∨
      Round P full (outlasting full txid) (pool.evictLoop (firstOrder a) fuel) := by
  refine evictLoop_rec (I := fun p => txid ∉ p.txs ∨ Round P full (outlasting full txid) p)
    (fun p worst h _ hworst => ?_) (.inr h)
  rcases h with hgone | h
  · refine .inl (removeLoop_keeps (I := fun p => txid ∉ p.txs) ?_ hgone)
    exact fun _ _ _ hp _ => drop_within.notMem hp
  · by_cases hout : worst ∈ outlasting full txid
    · have hself : txid ∈ outlasting full txid := ⟨hmem, outlasts_self full txid⟩
      have hpresent := h.spared.present a ((parentsIn_outlasting full txid).ancestor ha hself)
      obtain ⟨j, hj, hle⟩ := hout.2 worst Relation.ReflTransGen.refl
      obtain rfl := worst_firstOrder h.spared.within hpresent hworst ((hleast j hj).trans hle)
      -- a transaction whose ancestor is gone is gone
      obtain ⟨hparents, hgone⟩ := h.removed hfull
      exact .inl fun htxid => hgone (hparents.ancestor ha htxid)
    · exact .inr (h.remove hfull (parentsIn_outlasting full txid) hout)

/-- Which transactions of a full mempool stay when eviction is over, whatever the
order in which it goes through the map. -/
theorem evictIfNeeded_keeps_iff (hfull : Accounted P full) (hmem : txid ∈ full.txs) :
    (∀ ord, txid ∈ (full.evictIfNeeded ord).txs) ↔ outlastingSize full txid ≤ full.maxSize := by
  have hstart : Round P full (outlasting full txid) full := Round.start hfull fun _ hk => hk.1
  constructor
  · intro hall
    obtain ⟨a, ha, hleast⟩ := exists_least_ancestor hmem
    have hround : Round P full (outlasting full txid) (full.evictIfNeeded (firstOrder a)) :=
      (hstart.evictLoop_least hfull hmem ha hleast).resolve_left (not_not.mpr (hall _))
    have hle : (full.evictIfNeeded (firstOrder a)).totalSize ≤ full.maxSize :=
      evictLoop_totalSize_le hfull (Nat.lt_succ_self _)
    exact hround.outlastingSize_le.trans hle
  · intro hfits ord
    exact (hstart.evictLoop hfull hfits).spared.present txid ⟨hmem, outlasts_self full txid⟩

theorem acceptTx_any_order {tx : Transaction} {pool' : Pool} {inputSum : ℤ}
    (haccept : pool.acceptTx P ord tx cs = .ok (pool', txid))
    (hsum : tx.vin.foldlM (pool.addInput cs) 0 = .ok inputSum) (ord' : IterOrder) :
    pool.acceptTx P ord' tx cs =
      .ok ((pool.insert txid (newEntry tx inputSum)).evictIfNeeded ord', txid) := by
  simp only [Pool.acceptTx, bind_eq_ok, ensure_eq_ok, pure_eq_ok, Prod.mk.injEq] at haccept ⊢
  obtain ⟨u₁, h₁, u₂, h₂, u₃, h₃, u₄, h₄, sum, hsum', u₅, h₅, u₆, h₆, u₇, h₇, -, rfl⟩ := haccept
  obtain rfl : inputSum = sum := Except.ok.inj (hsum.symm.trans hsum')
  exact ⟨u₁, h₁, u₂, h₂, u₃, h₃, u₄, h₄, inputSum, hsum, u₅, h₅, u₆, h₆, u₇, h₇, rfl, rfl⟩

/-- A transaction that `accept_tx` reports as accepted, by a mempool that calls have
built up, is there when it returns, in whatever order eviction goes through the
map, exactly if what outlasts it fits under the limit once it is inserted. -/
theorem accepted_stays_iff (P : Primitives) (cs : ChainState) (maxSize : ℕ) (calls : List Call)
    (tx : Transaction) (txid : Hash256) (inputSum : ℤ)
    (haccept : ∃ ord pool', (runCalls P maxSize calls).acceptTx P ord tx cs = .ok (pool', txid))
    (hsum : tx.vin.foldlM ((runCalls P maxSize calls).addInput cs) 0 = .ok inputSum) :
    (∀ ord pool', (runCalls P maxSize calls).acceptTx P ord tx cs = .ok (pool', txid) →
        pool'.contains txid = true) ↔
      outlastingSize ((runCalls P maxSize calls).insert txid (newEntry tx inputSum)) txid ≤
        maxSize := by
  have hexact := exact_runCalls P maxSize calls
  generalize runCalls P maxSize calls = pool at *
  obtain ⟨ord₀, pool₀, haccept⟩ := haccept
  obtain ⟨inputSum', hsum', hkey, hnew, rfl⟩ := acceptTx_eq_insert haccept
  obtain rfl : inputSum = inputSum' := Except.ok.inj (hsum.symm.trans hsum')
  have hinsert : Accounted P (pool.insert txid (newEntry tx inputSum)) :=
    hexact.accounted.insert hkey hnew (notMem_spends_of_addInputs hsum) rfl
  have hmem : txid ∈ (pool.insert txid (newEntry tx inputSum)).txs :=
    (AList.mem_insert _).mpr (.inl rfl)
  rw [← hexact.limit, ← show (pool.insert txid (newEntry tx inputSum)).maxSize = pool.maxSize from rfl,
    ← evictIfNeeded_keeps_iff hinsert hmem]
  refine forall_congr' fun ord => ?_
  have hany := acceptTx_any_order haccept hsum ord
  simp only [hany, Except.ok.injEq, Prod.mk.injEq, and_true, forall_eq', Pool.contains,
    decide_eq_true_eq]

def twoCoins : ChainState :=
  { fundedState with utxos := fundedState.utxos.insert ⟨2, 0⟩ ⟨⟨1500, []⟩, 0, false⟩ }

def cheapTx : Transaction := { payTx with vin := [⟨⟨2, 0⟩, [], 0⟩] }

def lowTx : Transaction := { cheapTx with vout := [⟨1400, []⟩] }

def highTx : Transaction :=
  { lowTx with vin := [⟨⟨lowTx.txid poly, 0⟩, [], 0⟩], vout := [⟨0, []⟩] }

def familyCalls : List Call := [.acceptTx .id lowTx twoCoins, .acceptTx .id highTx twoCoins]

def crowded : Pool :=
  (runCalls poly 150 familyCalls).insert (payTx.txid poly) (newEntry payTx 2000)

theorem crowded_entries : crowded.txs.entries = [⟨payTx.txid poly, newEntry payTx 2000⟩,
      ⟨highTx.txid poly, newEntry highTx 1400⟩,
      ⟨lowTx.txid poly, newEntry lowTx 1500⟩] := by
  decide +kernel

theorem lookup_of_entries {entries : List (Sigma fun _ : Hash256 => MempoolEntry)}
    {e : MempoolEntry} (hentries : pool.txs.entries = entries) (h : ⟨k, e⟩ ∈ entries) :
    pool.txs.lookup k = some e :=
  mem_entries.mp (hentries ▸ h)

theorem crowded_ancestor {a : Hash256} (h : Ancestor crowded a (payTx.txid poly)) :
    a = payTx.txid poly := by
  rcases Relation.ReflTransGen.cases_tail h with heq | ⟨b, _, p, e, hp, he, o, ho, rfl, _⟩
  · exact heq.symm
  · have hpay : crowded.txs.lookup (payTx.txid poly) = some (newEntry payTx 2000) :=
      lookup_of_entries crowded_entries List.mem_cons_self
    obtain rfl := Option.mem_unique he hpay
    obtain rfl : o = ⟨1, 0⟩ := by simpa [newEntry, payTx, Transaction.prevOutputs] using ho
    have hnone : crowded.txs.lookup 1 = none := by decide +kernel
    rw [hnone] at hp
    cases hp

/-- A mempool of 150 bytes has a transaction of low fee rate with a child of high
fee rate. Both make room for `payTx`, whose fee rate is between theirs. -/
theorem payTx_stays :
    (∃ ord pool', (runCalls poly 150 familyCalls).acceptTx poly ord payTx
        twoCoins = .ok (pool', payTx.txid poly)) ∧
      ∀ ord pool', (runCalls poly 150 familyCalls).acceptTx poly ord payTx
        twoCoins = .ok (pool', payTx.txid poly) → pool'.contains (payTx.txid poly) = true := by
  have hrun : ((runCalls poly 150 familyCalls).acceptTx poly .id payTx
      twoCoins).toOption.map Prod.snd = some (payTx.txid poly) := by
    decide +kernel
  obtain ⟨⟨pool', txid⟩, haccept, rfl⟩ := Option.map_eq_some_iff.mp hrun
  rw [toOption_eq_some] at haccept
  have hsum : payTx.vin.foldlM ((runCalls poly 150 familyCalls).addInput twoCoins) 0 = .ok 2000 :=
    toOption_eq_some.mp (by decide +kernel)
  refine ⟨⟨.id, pool', haccept⟩, (accepted_stays_iff poly twoCoins 150 familyCalls payTx _
    2000 ⟨.id, pool', haccept⟩ hsum).mpr ?_⟩
  change outlastingSize crowded _ ≤ 150
  have hparent : Parent crowded (lowTx.txid poly) (highTx.txid poly) :=
    ⟨newEntry lowTx 1500, newEntry highTx 1400,
      lookup_of_entries crowded_entries (by simp only [List.mem_cons, true_or, or_true]),
      lookup_of_entries crowded_entries (by simp only [List.mem_cons, true_or, or_true]),
      ⟨lowTx.txid poly, 0⟩, List.mem_singleton_self _, rfl, by decide⟩
  have hlow : ∀ k, Ancestor crowded (lowTx.txid poly) k →
      ¬ Outlasts crowded (payTx.txid poly) k := by
    intro k hk hout
    obtain ⟨a, ha, hle⟩ := hout _ hk
    rw [crowded_ancestor ha] at hle
    exact absurd hle (by decide +kernel)
  classical
  have hle : outlastingSize crowded (payTx.txid poly) ≤
      ([⟨payTx.txid poly, newEntry payTx 2000⟩].map
        fun e : Sigma fun _ : Hash256 => MempoolEntry => e.2.size).sum := by
    refine sum_size_le (crowded.txs.nodupKeys.nodup.filter _) fun e he => ?_
    obtain ⟨hmem, hout⟩ := List.mem_filter.mp he
    rw [crowded_entries] at hmem
    rcases List.mem_cons.mp hmem with rfl | hmem
    · exact List.mem_singleton_self _
    · rcases List.mem_cons.mp hmem with rfl | hmem
      · exact absurd (of_decide_eq_true hout) (hlow _ (Relation.ReflTransGen.single hparent))
      · rw [List.mem_singleton] at hmem
        subst hmem
        exact absurd (of_decide_eq_true hout) (hlow _ Relation.ReflTransGen.refl)
  exact hle.trans (by decide)

def fullPool : Pool := runCalls poly 100 [.acceptTx .id payTx twoCoins]

/-- With the mempool full, a transaction of lower fee rate is accepted and
evicted in the same call. -/
theorem cheapTx_accepted_and_evicted :
    ∃ pool', fullPool.acceptTx poly .id cheapTx twoCoins = .ok (pool', cheapTx.txid poly) ∧
      pool'.contains (cheapTx.txid poly) = false ∧
      pool'.contains (payTx.txid poly) = true := by
  have hrun : ((fullPool.acceptTx poly .id cheapTx twoCoins).toOption.map fun r =>
      (r.2, r.1.contains (cheapTx.txid poly), r.1.contains (payTx.txid poly))) =
      some (cheapTx.txid poly, false, true) := by
    decide +kernel
  obtain ⟨⟨pool', txid⟩, haccept, heq⟩ := Option.map_eq_some_iff.mp hrun
  simp only [Prod.mk.injEq] at heq
  obtain ⟨rfl, hcheap, hpay⟩ := heq
  exact ⟨pool', toOption_eq_some.mp haccept, hcheap, hpay⟩

end Ironcat.MempoolEviction
