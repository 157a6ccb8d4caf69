import Ironcat.BlockContext
import Ironcat.Ledger

/-!
# Coins a block does not spend

`insert_outputs` writes under (txid, index) without looking, so a coin survives
a block that does not spend it only if no transaction of the chain is repeated.
A repeated transaction that is not a coinbase would spend coins that are gone;
a repeated coinbase is stopped by the height in its script, from the height on
where that is checked.
-/

namespace Ironcat.CoinFrame

open Lib.ByteCodec Lib.Checked Lib.FiniteMap Lib.UndoLog Types Undo Validation BlockContext
open Chainstate Ledger

variable {P : Primitives} {height : UInt32} {utxos : Utxos} {past : Set Transaction}

structure Issued (P : Primitives) (utxos : Utxos) (past : Set Transaction) : Prop where
  source : ∀ o ∈ utxos, ∃ tx ∈ past, o.txid = tx.txid P
  spent : ∀ tx ∈ past, ∀ o ∈ spentOutpoints tx, (∃ t ∈ past, o.txid = t.txid P) ∧ o ∉ utxos

theorem Issued.empty : Issued P ∅ ∅ where
  source _ ho := absurd ho Finmap.notMem_empty
  spent tx htx := absurd htx (Set.notMem_empty tx)

variable {tx : Transaction}

theorem Issued.notMem {coins : List Coin} (h : Issued P utxos past) (hcb : ¬ tx.isCoinbase)
    (hvin : tx.vin ≠ []) (hspends : Spends utxos (spentOutpoints tx) coins) : tx ∉ past := by
  intro hmem
  have hprev : spentOutpoints tx = tx.prevOutputs := if_neg hcb
  have hne : tx.prevOutputs ≠ [] := by simpa [Transaction.prevOutputs] using hvin
  obtain ⟨o, ho⟩ := List.exists_mem_of_ne_nil _ hne
  rw [← hprev] at ho
  exact (h.spent tx hmem o ho).2 (hspends.mem ho)

theorem lookup_apply_of_past {o : OutPoint} (hnew : tx ∉ past)
    (hinj : Set.InjOn (Transaction.txid P) (insert tx past)) (ho : ∃ t ∈ past, o.txid = t.txid P) :
    ((txUpdate P height tx).apply utxos).lookup o =
      if o ∈ spentOutpoints tx then none else utxos.lookup o := by
  obtain ⟨t, ht, htxid⟩ := ho
  have hkey : o ∉ (txUpdate P height tx).created.map Prod.fst := by
    intro hmem
    have heq : t.txid P = tx.txid P := htxid.symm.trans (txid_of_mem_outputEntries hmem)
    rw [hinj (Set.mem_insert_of_mem tx ht) (Set.mem_insert tx past) heq] at ht
    exact hnew ht
  rw [Update.apply, lookup_insertAll_of_notMem _ hkey, lookup_eraseAll]
  rfl

theorem Issued.step {coins : List Coin} (h : Issued P utxos past) (hnew : tx ∉ past)
    (hinj : Set.InjOn (Transaction.txid P) (insert tx past))
    (hspends : Spends utxos (spentOutpoints tx) coins) :
    Issued P ((txUpdate P height tx).apply utxos) (insert tx past) := by
  constructor
  · intro o ho
    rcases mem_insertAll.mp ho with hmem | hmem
    · exact ⟨tx, Set.mem_insert tx past, txid_of_mem_outputEntries hmem⟩
    · obtain ⟨t, ht, htxid⟩ := h.source o (mem_eraseAll.mp hmem).2
      exact ⟨t, Set.mem_insert_of_mem tx ht, htxid⟩
  · intro t ht o ho
    -- what the new transaction spends was made before it
    have hsource : (∃ t ∈ past, o.txid = t.txid P) ∧ (o ∉ spentOutpoints tx → o ∉ utxos) := by
      rcases Set.mem_insert_iff.mp ht with rfl | ht
      · exact ⟨h.source o (hspends.mem ho), fun hnot => absurd ho hnot⟩
      · exact ⟨(h.spent t ht o ho).1, fun _ => (h.spent t ht o ho).2⟩
    refine ⟨?_, ?_⟩
    · obtain ⟨t', ht', htxid⟩ := hsource.1
      exact ⟨t', Set.mem_insert_of_mem tx ht', htxid⟩
    · rw [← Finmap.lookup_eq_none, lookup_apply_of_past hnew hinj hsource.1]
      split_ifs with hspent
      · rfl
      · exact Finmap.lookup_eq_none.mpr (hsource.2 hspent)

theorem Issued.run {txs : List Transaction} {log : List (List Coin)} (h : Issued P utxos past)
    (hrec : Records utxos (txs.map (txUpdate P height)) log)
    (hfirst : ∀ tx ∈ txs, tx.isCoinbase → tx ∉ past)
    (hothers : txs.Pairwise fun _ tx => ¬ tx.isCoinbase) (hvin : ∀ tx ∈ txs, tx.vin ≠ [])
    (hinj : Set.InjOn (Transaction.txid P) ({tx | tx ∈ txs} ∪ past)) :
    Issued P (applyAll utxos (txs.map (txUpdate P height))) ({tx | tx ∈ txs} ∪ past) ∧
      ∀ o, (∃ t ∈ past, o.txid = t.txid P) → (∀ tx ∈ txs, o ∉ spentOutpoints tx) →
        (applyAll utxos (txs.map (txUpdate P height))).lookup o = utxos.lookup o := by
  induction txs generalizing utxos past log with
  | nil =>
    have hset : {tx : Transaction | tx ∈ []} ∪ past = past := by simp
    rw [hset]
    exact ⟨h, fun _ _ _ => rfl⟩
  | cons tx txs ih =>
    rw [List.map_cons] at hrec ⊢
    rw [List.forall_mem_cons] at hfirst hvin
    rw [List.pairwise_cons] at hothers
    have hset : {t | t ∈ tx :: txs} ∪ past = {t | t ∈ txs} ∪ insert tx past := by
      ext t
      simp only [List.mem_cons, Set.mem_union, Set.mem_ofPred_eq, Set.mem_insert_iff]
      tauto
    rw [hset] at hinj ⊢
    cases hrec with
    | cons hspends hrest =>
      have hnew : tx ∉ past := by
        by_cases hcb : tx.isCoinbase
        · exact hfirst.1 hcb
        · exact h.notMem hcb hvin.1 hspends
      have hinj' : Set.InjOn (Transaction.txid P) (insert tx past) :=
        hinj.mono Set.subset_union_right
      obtain ⟨hissued, hframe⟩ := ih (h.step hnew hinj' hspends) hrest
        (fun t ht hcb => absurd hcb (hothers.1 t ht)) hothers.2 hvin.2 hinj
      refine ⟨hissued, fun o ho hnot => ?_⟩
      rw [List.forall_mem_cons] at hnot
      have hkept : ((txUpdate P height tx).apply utxos).lookup o = utxos.lookup o := by
        rw [lookup_apply_of_past hnew hinj' ho, if_neg hnot.1]
      obtain ⟨t, ht, htxid⟩ := ho
      exact (hframe o ⟨t, Set.mem_insert_of_mem tx ht, htxid⟩ hnot.2).trans hkept

theorem pairwise_of_wellFormed {block : Block} (h : BlockWellFormed block) :
    block.transactions.Pairwise fun _ tx => ¬ tx.isCoinbase := by
  obtain ⟨cb, txs, hsplit, -, hothers⟩ := h.split
  rw [hsplit, List.pairwise_cons]
  exact ⟨hothers, List.pairwise_of_forall_mem_list fun _ _ b hb => hothers b hb⟩

theorem connectBlock_records {cs cs' : ChainState} {block : Block} {hash : Hash256}
    (h : connectBlock P cs block height hash = .ok cs') :
    ∃ log, Records cs.utxos (blockUpdates P height block) log := by
  obtain ⟨-, -, st, hst, -⟩ := connectBlock_eq_ok h
  obtain ⟨log, hrec, -⟩ := connectTxs_eq_ok hst
  exact ⟨log, hrec⟩

theorem Issued.connectBlock {cs cs' : ChainState} {block : Block} {hash : Hash256}
    (h : Issued P cs.utxos past) (hcheck : checkBlock block = .ok ())
    (hconnect : connectBlock P cs block height hash = .ok cs')
    (hfirst : ∀ tx ∈ block.transactions, tx.isCoinbase → tx ∉ past)
    (hinj : Set.InjOn (Transaction.txid P) ({tx | tx ∈ block.transactions} ∪ past)) :
    Issued P cs'.utxos ({tx | tx ∈ block.transactions} ∪ past) ∧
      ∀ o ∈ cs.utxos, (∀ tx ∈ block.transactions, o ∉ spentOutpoints tx) →
        cs'.utxos.lookup o = cs.utxos.lookup o := by
  have hwf := checkBlock_ok_iff.mp hcheck
  obtain ⟨log, hrec⟩ := connectBlock_records hconnect
  rw [connectBlock_utxos hconnect]
  obtain ⟨hissued, hframe⟩ := h.run hrec hfirst (pairwise_of_wellFormed hwf)
    (fun tx htx => (hwf.transactions tx htx).inputs) hinj
  exact ⟨hissued, fun o ho => hframe o (h.source o ho)⟩

def decodeScriptHeight : Bytes → ℕ
  | [] => 0
  | b :: rest =>
    if 0x50 < b.toNat then b.toNat - 0x50 else ofLeBytes (rest.take b.toNat)

theorem ofLeBytes_append_zero (bs : Bytes) : ofLeBytes (bs ++ [0]) = ofLeBytes bs := by
  simp [ofLeBytes_append, ofLeBytes]

theorem decodeScriptHeight_push {data : Bytes} (h : data.length ≤ 5) (rest : Bytes) :
    decodeScriptHeight (UInt8.ofNat data.length :: (data ++ rest)) = ofLeBytes data := by
  have hlen : (UInt8.ofNat data.length).toNat = data.length := by
    rw [UInt8.toNat_ofNat', Nat.mod_eq_of_lt (by omega)]
  rw [decodeScriptHeight, hlen, if_neg (by omega), List.take_left]

theorem decodeScriptHeight_append (height : UInt32) (rest : Bytes) :
    decodeScriptHeight (encodeScriptHeight height ++ rest) = height.toNat := by
  have hbound : height.toNat < 256 ^ 4 := height.toNat_lt
  have hlen := length_minimalBytes 4 height.toNat
  unfold encodeScriptHeight
  dsimp only
  split_ifs with hzero hsmall hsign
  · subst hzero
    rfl
  · have hle : height.toNat ≤ 16 := hsmall
    have hpos : height.toNat ≠ 0 := fun h => hzero (UInt32.toNat_inj.mp h)
    have hbyte : (UInt8.ofNat (0x50 + height.toNat)).toNat = 0x50 + height.toNat := by
      rw [UInt8.toNat_ofNat', Nat.mod_eq_of_lt (by omega)]
    rw [List.singleton_append, decodeScriptHeight, hbyte, if_pos (by omega), Nat.add_sub_cancel_left]
  · have hlen' : (minimalBytes 4 height.toNat ++ [0x00]).length ≤ 5 := by
      rw [List.length_append]
      exact Nat.succ_le_succ hlen
    exact (decodeScriptHeight_push hlen' rest).trans
      ((ofLeBytes_append_zero _).trans (ofLeBytes_minimalBytes hbound))
  · exact (decodeScriptHeight_push (Nat.le_succ_of_le hlen) rest).trans
      (ofLeBytes_minimalBytes hbound)

theorem decodeScriptHeight_of_bip34 {coinbase : Transaction}
    (h : checkBip34Height coinbase height = .ok ()) :
    decodeScriptHeight ((coinbase.vin.map TxIn.scriptSig).headD []) = height.toNat := by
  obtain ⟨_, -, htake⟩ := bind_eq_ok.mp h
  rw [← List.take_append_drop (encodeScriptHeight height).length
    ((coinbase.vin.map TxIn.scriptSig).headD []), ensure_eq_ok.mp htake]
  exact decodeScriptHeight_append height _

theorem decodeScriptHeight_of_context {block : Block} {mtp adjusted : UInt32} {cb : Transaction}
    (h : checkBlockContext block height mtp adjusted = .ok ()) (hheight : bip34Height ≤ height.toNat)
    (hcb : block.transactions.head? = some cb) :
    decodeScriptHeight ((cb.vin.map TxIn.scriptSig).headD []) = height.toNat := by
  obtain ⟨_, -, h⟩ := bind_eq_ok.mp h
  obtain ⟨_, -, h⟩ := bind_eq_ok.mp h
  obtain ⟨_, -, h⟩ := bind_eq_ok.mp h
  rw [if_pos hheight, hcb] at h
  obtain ⟨_, h34, -⟩ := bind_eq_ok.mp h
  exact decodeScriptHeight_of_bip34 h34

/-- The states reached from an empty UTXO set by connecting checked blocks, with
the blocks and their heights, newest first. -/
inductive ConnectRun (P : Primitives) : ChainState → List (UInt32 × Block) → Prop
  | start {cs : ChainState} (h : cs.utxos = ∅) : ConnectRun P cs []
  | connect {cs cs' : ChainState} {chain : List (UInt32 × Block)} {block : Block}
      {height mtp adjusted : UInt32} {hash : Hash256} (hrun : ConnectRun P cs chain)
      (hcheck : checkBlock block = .ok ())
      (hcontext : checkBlockContext block height mtp adjusted = .ok ())
      (hconnect : connectBlock P cs block height hash = .ok cs') :
      ConnectRun P cs' ((height, block) :: chain)

def chainTxs (chain : List (UInt32 × Block)) : Set Transaction :=
  {tx | ∃ e ∈ chain, tx ∈ e.2.transactions}

/-- No later block has the coinbase of a block below the height from which
heights are checked. At the largest height, where `connect_block` stops
counting, no two blocks have the same coinbase. -/
def UnrepeatedCoinbases (chain : List (UInt32 × Block)) : Prop :=
  chain.Pairwise fun newer older => older.1.toNat < bip34Height ∨ older.1 = newer.1 →
    newer.2.transactions.head? ≠ older.2.transactions.head?

theorem chainTxs_cons (e : UInt32 × Block) (chain : List (UInt32 × Block)) :
    chainTxs (e :: chain) = {tx | tx ∈ e.2.transactions} ∪ chainTxs chain := by
  ext tx
  simp [chainTxs]

variable {cs cs' : ChainState} {chain : List (UInt32 × Block)} {block : Block}
  {mtp adjusted : UInt32} {hash : Hash256}

theorem head?_of_coinbase (h : BlockWellFormed block) (hmem : tx ∈ block.transactions)
    (hcb : tx.isCoinbase) : block.transactions.head? = some tx := by
  obtain ⟨cb, txs, hsplit, -, hothers⟩ := h.split
  rw [hsplit] at hmem ⊢
  rcases List.mem_cons.mp hmem with rfl | hmem
  · rfl
  · exact absurd hcb (hothers tx hmem)

theorem ConnectRun.checked (h : ConnectRun P cs chain) :
    ∀ e ∈ chain, BlockWellFormed e.2 ∧ (bip34Height ≤ e.1.toNat →
      ∀ cb, e.2.transactions.head? = some cb →
        decodeScriptHeight ((cb.vin.map TxIn.scriptSig).headD []) = e.1.toNat) := by
  induction h with
  | start => exact List.forall_mem_nil _
  | connect hrun hcheck hcontext hconnect ih =>
    refine List.forall_mem_cons.mpr ⟨⟨checkBlock_ok_iff.mp hcheck, ?_⟩, ih⟩
    exact fun hheight cb hcb => decodeScriptHeight_of_context hcontext hheight hcb

theorem le_saturatingSucc (h : UInt32) : h.toNat ≤ (saturatingSucc h).toNat := by
  by_cases hmax : h = 0xFFFFFFFF
  · rw [saturatingSucc, if_pos hmax]
  · rw [toNat_saturatingSucc hmax]
    exact Nat.le_succ h.toNat

theorem ConnectRun.height_le (h : ConnectRun P cs chain) : ∀ e ∈ chain, e.1.toNat ≤ cs.tip.2.toNat := by
  induction h with
  | start => exact List.forall_mem_nil _
  | @connect cs cs' chain block height mtp adjusted hash hrun hcheck hcontext hconnect ih =>
    obtain ⟨hheight, -, st, -, -, -, -, htip, -⟩ := connectBlock_eq_ok hconnect
    have hle : cs.tip.2.toNat ≤ cs'.tip.2.toNat := by
      rw [htip, hheight]
      exact le_saturatingSucc cs.tip.2
    refine List.forall_mem_cons.mpr ⟨?_, fun e he => (ih e he).trans hle⟩
    rw [htip]

theorem ConnectRun.coinbase_notMem (hrun : ConnectRun P cs ((height, block) :: chain))
    (hearly : UnrepeatedCoinbases ((height, block) :: chain)) :
    ∀ tx ∈ block.transactions, tx.isCoinbase → tx ∉ chainTxs chain := by
  rintro tx hmem hcb ⟨older, holder, hmem'⟩
  obtain ⟨⟨hwf, hnew⟩, hpast⟩ := List.forall_mem_cons.mp hrun.checked
  obtain ⟨hwf', hold⟩ := hpast older holder
  have hhead := head?_of_coinbase hwf hmem hcb
  have hhead' := head?_of_coinbase hwf' hmem' hcb
  have hne := (List.pairwise_cons.mp hearly).1 older holder
  by_cases hlow : older.1.toNat < bip34Height
  · exact hne (.inl hlow) (hhead.trans hhead'.symm)
  · have hle : older.1.toNat ≤ height.toNat := by
      cases hrun with
      | connect hrun hcheck hcontext hconnect =>
        rw [(connectBlock_eq_ok hconnect).1]
        exact (hrun.height_le older holder).trans (le_saturatingSucc _)
    have hheight : bip34Height ≤ height.toNat := (Nat.le_of_not_lt hlow).trans hle
    -- both coinbases say the same height
    have heq : older.1.toNat = height.toNat :=
      (hold (Nat.le_of_not_lt hlow) tx hhead').symm.trans (hnew hheight tx hhead)
    exact hne (.inr (UInt32.toNat_inj.mp heq)) (hhead.trans hhead'.symm)

theorem ConnectRun.issued_connect (hrun : ConnectRun P cs chain)
    (hissued : Issued P cs.utxos (chainTxs chain)) (hcheck : checkBlock block = .ok ())
    (hcontext : checkBlockContext block height mtp adjusted = .ok ())
    (hconnect : connectBlock P cs block height hash = .ok cs')
    (hearly : UnrepeatedCoinbases ((height, block) :: chain))
    (hinj : Set.InjOn (Transaction.txid P) (chainTxs ((height, block) :: chain))) :
    Issued P cs'.utxos (chainTxs ((height, block) :: chain)) ∧
      ∀ o ∈ cs.utxos, (∀ tx ∈ block.transactions, o ∉ spentOutpoints tx) →
        cs'.utxos.lookup o = cs.utxos.lookup o := by
  have hfirst := (hrun.connect hcheck hcontext hconnect).coinbase_notMem hearly
  rw [chainTxs_cons] at hinj ⊢
  exact hissued.connectBlock hcheck hconnect hfirst hinj

theorem ConnectRun.issued (hrun : ConnectRun P cs chain) (hearly : UnrepeatedCoinbases chain)
    (hinj : Set.InjOn (Transaction.txid P) (chainTxs chain)) :
    Issued P cs.utxos (chainTxs chain) := by
  induction hrun with
  | start h =>
    have hnone : chainTxs [] = ∅ := by simp [chainTxs]
    rw [h, hnone]
    exact Issued.empty
  | @connect cs cs' chain block height mtp adjusted hash hrun hcheck hcontext hconnect ih =>
    have hsub : chainTxs chain ⊆ chainTxs ((height, block) :: chain) :=
      fun tx ⟨e, he, hmem⟩ => ⟨e, List.mem_cons_of_mem _ he, hmem⟩
    have hissued := ih (List.pairwise_cons.mp hearly).2 (hinj.mono hsub)
    exact (hrun.issued_connect hissued hcheck hcontext hconnect hearly hinj).1

/-- A coin that a block does not name as an input is there after the block, the
same. -/
theorem unspent_coin_survives {o : OutPoint} {c : Coin} (hrun : ConnectRun P cs chain)
    (hcheck : checkBlock block = .ok ())
    (hcontext : checkBlockContext block height mtp adjusted = .ok ())
    (hconnect : connectBlock P cs block height hash = .ok cs')
    (hearly : UnrepeatedCoinbases ((height, block) :: chain))
    (hinj : Set.InjOn (Transaction.txid P) (chainTxs ((height, block) :: chain)))
    (hcoin : cs.utxos.lookup o = some c) (hinputs : ∀ tx ∈ block.transactions, o ∉ tx.prevOutputs) :
    cs'.utxos.lookup o = some c := by
  have hsub : chainTxs chain ⊆ chainTxs ((height, block) :: chain) :=
    fun tx ⟨e, he, hmem⟩ => ⟨e, List.mem_cons_of_mem _ he, hmem⟩
  have hissued := hrun.issued (List.pairwise_cons.mp hearly).2 (hinj.mono hsub)
  have hspent : ∀ tx ∈ block.transactions, o ∉ spentOutpoints tx := by
    intro tx htx
    unfold spentOutpoints
    split_ifs
    · exact List.not_mem_nil
    · exact hinputs tx htx
  have hframe := (hrun.issued_connect hissued hcheck hcontext hconnect hearly hinj).2
  rw [hframe o (Finmap.mem_iff.mpr ⟨c, hcoin⟩) hspent, hcoin]

def earlyBlock (tag : UInt8) : Block where
  header := ⟨1, 0, 0, 1, 0, 0⟩
  transactions := [coinbaseTx tag 5000000000]

def earlyCoin (height : UInt32) : Coin := ⟨⟨5000000000, []⟩, height, true⟩

def firstOutPoint : OutPoint := ⟨(coinbaseTx 0 5000000000).txid poly, 0⟩

def firstState : ChainState :=
  (connectBlock poly emptyState (earlyBlock 0) 1 0).toOption.getD emptyState

theorem connectBlock_first :
    connectBlock poly emptyState (earlyBlock 0) 1 0 = .ok firstState := by
  have hok : (connectBlock poly emptyState (earlyBlock 0) 1 0).isOk := by
    decide +kernel
  obtain ⟨cs, h⟩ := isOk_iff.mp hok
  rw [firstState, h]
  rfl

theorem firstState_run : ConnectRun poly firstState [(1, earlyBlock 0)] := by
  have hcheck : checkBlock (earlyBlock 0) = .ok () := by decide +kernel
  have hcontext : checkBlockContext (earlyBlock 0) 1 0 1 = .ok () := by decide +kernel
  exact (ConnectRun.start rfl).connect hcheck hcontext connectBlock_first

theorem chainTxs_early (a b : UInt8) :
    chainTxs [(2, earlyBlock a), (1, earlyBlock b)] =
      {coinbaseTx a 5000000000, coinbaseTx b 5000000000} := by
  ext tx
  simp [chainTxs, earlyBlock]

/-- A second block with a coinbase of its own keeps the first coin. -/
theorem first_coin_survives :
    ∃ cs', connectBlock poly firstState (earlyBlock 1) 2 0 = .ok cs' ∧
      cs'.utxos.lookup firstOutPoint = some (earlyCoin 1) := by
  have hok : (connectBlock poly firstState (earlyBlock 1) 2 0).isOk := by
    decide +kernel
  obtain ⟨cs', hconnect⟩ := isOk_iff.mp hok
  have hcheck : checkBlock (earlyBlock 1) = .ok () := by decide +kernel
  have hcontext : checkBlockContext (earlyBlock 1) 2 0 1 = .ok () := by decide +kernel
  have hearly : UnrepeatedCoinbases [(2, earlyBlock 1), (1, earlyBlock 0)] := by
    simp [UnrepeatedCoinbases, earlyBlock, coinbaseTx]
  have hinj : Set.InjOn (Transaction.txid poly)
      (chainTxs [(2, earlyBlock 1), (1, earlyBlock 0)]) := by
    rw [chainTxs_early, Set.injOn_pair]
    intro h
    exact absurd h (by decide +kernel)
  exact ⟨cs', hconnect, unspent_coin_survives firstState_run hcheck hcontext hconnect hearly hinj
    (by decide +kernel) (by decide +kernel)⟩

/-- A second block that repeats the first coinbase, which nothing forbids at its
height, replaces the first coin. -/
theorem repeated_coinbase_destroys_coin :
    ConnectRun poly firstState [(1, earlyBlock 0)] ∧
      checkBlock (earlyBlock 0) = .ok () ∧ checkBlockContext (earlyBlock 0) 2 0 1 = .ok () ∧
      Set.InjOn (Transaction.txid poly) (chainTxs [(2, earlyBlock 0), (1, earlyBlock 0)]) ∧
      firstState.utxos.lookup firstOutPoint = some (earlyCoin 1) ∧
      (∀ tx ∈ (earlyBlock 0).transactions, firstOutPoint ∉ tx.prevOutputs) ∧
      ∃ cs', connectBlock poly firstState (earlyBlock 0) 2 0 = .ok cs' ∧
        cs'.utxos.lookup firstOutPoint = some (earlyCoin 2) ∧ earlyCoin 2 ≠ earlyCoin 1 := by
  have hok : (connectBlock poly firstState (earlyBlock 0) 2 0).isOk := by
    decide +kernel
  obtain ⟨cs', hconnect⟩ := isOk_iff.mp hok
  have hcoin : cs'.utxos.lookup firstOutPoint = some (earlyCoin 2) := by
    rw [connectBlock_utxos hconnect]
    decide +kernel
  have hinj : Set.InjOn (Transaction.txid poly)
      (chainTxs [(2, earlyBlock 0), (1, earlyBlock 0)]) := by
    rw [chainTxs_early, Set.pair_eq_singleton]
    exact Set.injOn_singleton _ _
  exact ⟨firstState_run, by decide +kernel, by decide +kernel, hinj, by decide +kernel,
    by decide +kernel, cs', hconnect, hcoin, by decide⟩

end Ironcat.CoinFrame
