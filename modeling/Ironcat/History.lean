import Ironcat.Ledger

/-!
# Histories of connected and disconnected blocks

A branch is the list of blocks between the start and the current tip, newest
first. However a state was reached by connecting children of the tip and
disconnecting the tip, its UTXO map is the one obtained by connecting the
blocks of its branch once, oldest first.

The invariant keeps, for each block of the branch, the state of that replay
below the block and the place of the block's undo record. Undo records are
never read from the replay: only the live state has disconnected anything.
-/

namespace Ironcat.History

open Lib.Checked Lib.FiniteMap Lib.UndoLog Types Undo UndoFiles Validation Chainstate Ledger

variable {P : Primitives} {height : UInt32}

def blockTxids (P : Primitives) (block : Block) : List Hash256 :=
  block.transactions.map (Transaction.txid P)

def branchTxids (P : Primitives) (branch : List Block) : List Hash256 :=
  branch.flatMap (blockTxids P)

def branchHashes (P : Primitives) (branch : List Block) : List Hash256 :=
  branch.map fun b => b.header.blockHash P

/-- Connects the blocks of a branch once each, oldest first. -/
def connectBranch (P : Primitives) (cs₀ : ChainState) : List Block → Except ConnectError ChainState
  | [] => .ok cs₀
  | b :: branch => do
    let cs ← connectBranch P cs₀ branch
    connectBlock P cs b (saturatingSucc cs.tip.2) (b.header.blockHash P)

structure Fresh (cs₀ : ChainState) : Prop where
  utxos : cs₀.utxos = ∅
  atEnd : cs₀.undoStore.AtEnd
  fileNumber : cs₀.undoStore.fileNumber ≤ 0xFFFF

theorem emptyState_fresh : Fresh emptyState := ⟨rfl, ⟨rfl, fun _ _ => rfl⟩, by decide⟩

structure Distinct (P : Primitives) (b : Block) (branch : List Block) : Prop where
  txids : (branchTxids P (b :: branch)).Nodup
  hash : b.header.blockHash P ∉ branchHashes P branch

structure DistinctBranch (P : Primitives) (branch : List Block) : Prop where
  txids : (branchTxids P branch).Nodup
  hashes : (branchHashes P branch).Nodup

variable {b : Block}

theorem DistinctBranch.tail {branch : List Block} (h : DistinctBranch P (b :: branch)) :
    DistinctBranch P branch :=
  ⟨(List.nodup_append.mp h.txids).2.1, (List.nodup_cons.mp h.hashes).2⟩

theorem DistinctBranch.top {branch : List Block} (h : DistinctBranch P (b :: branch)) :
    Distinct P b branch :=
  ⟨h.txids, (List.nodup_cons.mp h.hashes).1⟩

/-- Runs of successful calls from `cs₀`. A connected block passes
`check_block` and names the tip as its parent; the first one names the genesis
block, which is never connected. Heights are exact: header heights are checked
against overflow, so a child is one above its parent. -/
inductive BlockRun (P : Primitives) (cs₀ : ChainState) : ChainState → List Block → Prop
  | start : BlockRun P cs₀ cs₀ []
  | connect {cs cs' : ChainState} {branch : List Block} {b : Block} {height : UInt32}
      (hrun : BlockRun P cs₀ cs branch) (hcheck : checkBlock b = .ok ())
      (hchild : branch = [] ∨ b.header.prevHash = cs.tip.1)
      (hheight : height.toNat = cs.tip.2.toNat + 1) (hdistinct : Distinct P b branch)
      (hconn : connectBlock P cs b height (b.header.blockHash P) = .ok cs') :
      BlockRun P cs₀ cs' (b :: branch)
  | disconnect {cs cs' : ChainState} {branch : List Block} {b : Block} {height : UInt32}
      (hrun : BlockRun P cs₀ cs (b :: branch))
      (hdisc : disconnectBlock P cs b height (b.header.blockHash P) = .ok cs') :
      BlockRun P cs₀ cs' branch

/-- A replay of linked, checked and distinct blocks is a run. -/
theorem blockRun_of_connectBranch {cs₀ r : ChainState} {branch : List Block}
    (hchecked : ∀ b ∈ branch, checkBlock b = .ok ())
    (hlinked : branch.IsChain fun b below => b.header.prevHash = below.header.blockHash P)
    (hdistinct : DistinctBranch P branch) (hmax : cs₀.tip.2.toNat + branch.length < 2 ^ 32)
    (h : connectBranch P cs₀ branch = .ok r) :
    BlockRun P cs₀ r branch ∧ r.tip.2.toNat = cs₀.tip.2.toNat + branch.length ∧
      ∀ b ∈ branch.head?, r.tip.1 = b.header.blockHash P := by
  induction branch generalizing r with
  | nil =>
    obtain rfl := Except.ok.inj h
    exact ⟨.start, rfl, by simp⟩
  | cons b branch ih =>
    rw [List.length_cons] at hmax
    obtain ⟨cs, hbelow, hconn⟩ := bind_eq_ok.mp h
    obtain ⟨hrun, hheight, htip⟩ := ih (fun b' hb' => hchecked b' (List.mem_cons_of_mem _ hb'))
      hlinked.tail hdistinct.tail (by omega) hbelow
    have hsucc : (saturatingSucc cs.tip.2).toNat = cs.tip.2.toNat + 1 := by
      refine toNat_saturatingSucc fun heq => ?_
      have htop : cs.tip.2.toNat = 2 ^ 32 - 1 := heq ▸ rfl
      omega
    obtain ⟨-, -, _, -, -, -, -, htip', -⟩ := connectBlock_eq_ok hconn
    refine ⟨hrun.connect (hchecked b List.mem_cons_self) ?_ hsucc hdistinct.top hconn, ?_, ?_⟩
    · cases branch with
      | nil => exact .inl rfl
      | cons below branch =>
        exact .inr ((List.isChain_cons_cons.mp hlinked).1.trans (htip below rfl).symm)
    · rw [htip', hsucc, hheight, List.length_cons]
      omega
    · simp [htip']

variable {utxos : Utxos}

theorem freshRun_of_txids {txs : List Transaction}
    (hold : ∀ o ∈ utxos, o.txid ∉ txs.map (Transaction.txid P))
    (hnodup : (txs.map (Transaction.txid P)).Nodup) :
    FreshRun utxos (txs.map (txUpdate P height)) := by
  induction txs generalizing utxos with
  | nil => trivial
  | cons tx txs ih =>
    rw [List.map_cons, List.nodup_cons] at hnodup
    refine ⟨fun o ho hmem => ?_, ih (fun o ho hmem => ?_) hnodup.2⟩
    · have hid : o.txid = tx.txid P := txid_of_mem_outputEntries ho
      exact hold o (mem_eraseAll.mp hmem).2 (by simp [hid])
    · rcases mem_insertAll.mp ho with hnew | hmem'
      · have hid : o.txid = tx.txid P := txid_of_mem_outputEntries hnew
        exact hnodup.1 (hid ▸ hmem)
      · exact hold o (mem_eraseAll.mp hmem').2 (List.mem_cons_of_mem _ hmem)

def SmallScript (c : Coin) : Prop := c.txOut.scriptPubkey.length < 256 ^ 4

variable {block : Block}

theorem created_small (hwf : BlockWellFormed block) :
    ∀ u ∈ blockUpdates P height block, ∀ e ∈ u.created, SmallScript e.2 := by
  intro u hu e he
  obtain ⟨tx, htx, rfl⟩ := List.mem_map.mp hu
  obtain ⟨⟨o, i⟩, ho, rfl⟩ := List.mem_map.mp he
  have hvout : o ∈ tx.vout := List.fst_mem_of_mem_zipIdx ho
  have hscript := scriptPubkey_length_le_toBytes hvout
  have hsize := hwf.toBytes_le htx
  change o.scriptPubkey.length < 256 ^ 4
  omega

theorem undoEntries_encodable {log : List (List Coin)} (hwf : BlockWellFormed block)
    (hsmall : ∀ o c, utxos.lookup o = some c → SmallScript c)
    (hrec : Records utxos (blockUpdates P height block) log) :
    BlockUndo.Encodable ⟨undoEntries block.transactions log⟩ := by
  have hcoins := hrec.forall_log (Q := fun _ c => SmallScript c) hsmall (created_small hwf)
  have hlen := matches_of_records hrec
  constructor
  · have hle : (undoEntries block.transactions log).length ≤ block.transactions.length := by
      rw [undoEntries, List.length_map]
      refine (List.length_filter_le _ _).trans ?_
      rw [List.length_zip]
      exact min_le_left _ _
    have hmax := hwf.transactions_length_le
    change (undoEntries block.transactions log).length < 256 ^ 4
    omega
  · intro t ht
    obtain ⟨⟨tx, coins⟩, he, rfl⟩ := List.mem_map.mp ht
    have hzip := (List.mem_filter.mp he).1
    have hmem := List.of_mem_zip hzip
    have hcount : (spentOutpoints tx).length = coins.length :=
      (List.forall₂_iff_zip.mp hlen).2 hzip
    refine ⟨?_, fun c hc => (hcoins coins hmem.2 c hc).elim fun _ h => h⟩
    have hvin : (spentOutpoints tx).length ≤ tx.vin.length := by
      unfold spentOutpoints Transaction.prevOutputs
      split_ifs <;> simp
    have hbytes := vin_length_le_toBytes tx
    have hsize := hwf.toBytes_le hmem.1
    change coins.length < 256 ^ 4
    omega

def UndoKept (store : UndoStore) (index : UndoIndex) (hash : Hash256) (undo : BlockUndo) : Prop :=
  undo.txUndos ≠ [] → ∃ loc : UndoLocation,
    index.lookup hash = some (loc.fileNumber, loc.offset, loc.size) ∧
      store.Recorded loc undo ∧ undo.Encodable

variable {hash : Hash256} {undo : BlockUndo}

theorem UndoKept.extends {store store' : UndoStore} {index index' : UndoIndex}
    (h : UndoKept store index hash undo) (hext : store.Extends store')
    (hidx : index'.lookup hash = index.lookup hash) : UndoKept store' index' hash undo := by
  intro hne
  obtain ⟨loc, hloc, hrec, henc⟩ := h hne
  exact ⟨loc, by rw [hidx, hloc], hrec.extends hext, henc⟩

theorem undoEntries_ne_nil {log : List (List Coin)} (hlog : Matches block log)
    (hex : ∃ tx ∈ block.transactions, ¬ tx.isCoinbase) :
    undoEntries block.transactions log ≠ [] := by
  obtain ⟨tx, htx, hcb⟩ := hex
  rw [Matches] at hlog
  have hmem : tx ∈ (block.transactions.zip log).map Prod.fst := by
    rwa [List.map_fst_zip (le_of_eq hlog.length_eq)]
  obtain ⟨e, he, rfl⟩ := List.mem_map.mp hmem
  have hfilter : e ∈ (block.transactions.zip log).filter fun e => !e.1.isCoinbase :=
    List.mem_filter.mpr ⟨he, by simpa using hcb⟩
  exact List.ne_nil_of_mem (List.mem_map_of_mem hfilter)

variable {cs : ChainState}

theorem UndoKept.sound {log : List (List Coin)}
    (h : UndoKept cs.undoStore cs.undoIndex hash ⟨undoEntries block.transactions log⟩)
    (hlog : Matches block log) : UndoSound cs block hash log := by
  intro hex u hu
  obtain ⟨loc, hloc, hrec, henc⟩ := h (undoEntries_ne_nil hlog hex)
  exact hrec.loadUndo_eq henc hloc hu

theorem storeUndo_spec {store : UndoStore} {index : UndoIndex} (hend : cs.undoStore.AtEnd)
    (henc : undo.Encodable) (h : storeUndo cs hash undo = .ok (store, index)) :
    store.AtEnd ∧ cs.undoStore.Extends store ∧ UndoKept store index hash undo ∧
      ∀ other, other ≠ hash → index.lookup other = cs.undoIndex.lookup other := by
  unfold storeUndo at h
  split_ifs at h with hnil
  · cases h
    exact ⟨hend, UndoStore.Extends.refl _, fun hne => absurd hnil hne, fun _ _ => rfl⟩
  · obtain ⟨⟨store', loc⟩, hstore, hret⟩ := bind_eq_ok.mp h
    cases hret
    obtain ⟨hend', hrec, hext, hhash⟩ :=
      UndoStore.storeUndoToFile_spec hend (mapError_eq_ok.mp hstore)
    refine ⟨hend', hext, fun _ => ⟨loc, ?_, hrec, henc⟩, fun other hne => ?_⟩
    · rw [hhash, lookup_insert_eq, if_pos rfl]
    · rw [hhash, lookup_insert_eq, if_neg hne]

theorem storeUndo_mono {r : ChainState} {store : UndoStore} {index : UndoIndex}
    (hb : r.undoStore.Behind cs.undoStore) (hnum : cs.undoStore.fileNumber ≤ 0xFFFF)
    (h : storeUndo cs hash undo = .ok (store, index)) :
    store.fileNumber ≤ 0xFFFF ∧
      ∃ store' index', storeUndo r hash undo = .ok (store', index') ∧ store'.Behind store := by
  unfold storeUndo at h ⊢
  split_ifs at h ⊢ with hnil
  · cases h
    exact ⟨hnum, _, _, rfl, hb⟩
  · obtain ⟨⟨store', loc⟩, hstore, hret⟩ := bind_eq_ok.mp h
    cases hret
    obtain ⟨hnum', s, loc', hs, hb'⟩ :=
      UndoStore.storeUndoToFile_mono hb hnum (mapError_eq_ok.mp hstore)
    exact ⟨hnum', _, _, bind_eq_ok.mpr ⟨(s, loc'), mapError_eq_ok.mpr hs, rfl⟩, hb'⟩

theorem storeUndo_behind {store : UndoStore} {index : UndoIndex}
    (h : storeUndo cs hash undo = .ok (store, index)) : cs.undoStore.Behind store := by
  unfold storeUndo at h
  split_ifs at h with hnil
  · cases h
    exact UndoStore.Behind.refl _
  · obtain ⟨⟨store', loc⟩, hstore, hret⟩ := bind_eq_ok.mp h
    cases hret
    exact UndoStore.storeUndoToFile_behind (mapError_eq_ok.mp hstore)

theorem eq_pred_of_toNat_eq_succ {a b : UInt32} (h : a.toNat = b.toNat + 1) : b = a - 1 := by
  have ha := a.toNat_lt
  refine UInt32.toNat_inj.mp ?_
  rw [UInt32.toNat_sub_of_le a 1 (by rw [UInt32.le_iff_toNat_le]; simp; omega)]
  simp
  omega

/-- Two states that `connect_block` treats alike, up to the undo files. -/
structure SameLedger (r cs : ChainState) : Prop where
  utxos : r.utxos = cs.utxos
  height : r.tip.2 = cs.tip.2
  scriptVerifyHeight : r.scriptVerifyHeight = cs.scriptVerifyHeight

variable {cs' : ChainState}

theorem connectBlock_transfer {r : ChainState} (hsame : SameLedger r cs)
    (hb : r.undoStore.Behind cs.undoStore) (hnum : cs.undoStore.fileNumber ≤ 0xFFFF)
    (h : connectBlock P cs b height hash = .ok cs') :
    cs'.undoStore.fileNumber ≤ 0xFFFF ∧ ∃ r', connectBlock P r b height hash = .ok r' ∧
      SameLedger r' cs' ∧ r'.tip = cs'.tip ∧ r'.undoStore.Behind cs'.undoStore := by
  obtain ⟨hheight, hne, st, hst, hcb, hstore, hutxos, htip, hsvh⟩ := connectBlock_eq_ok h
  obtain ⟨hnum', store, index, hstore', hb'⟩ := storeUndo_mono (r := r) hb hnum hstore
  rw [← hsame.utxos, ← hsame.scriptVerifyHeight] at hst
  rw [← hsame.height] at hheight
  refine ⟨hnum', ⟨st.utxos, store, index, (hash, height), r.scriptVerifyHeight⟩, ?_,
    ⟨hutxos.symm, by rw [htip], ?_⟩, htip.symm, hb'⟩
  · refine bind_eq_ok.mpr ⟨(), ensure_eq_ok.mpr hheight, ?_⟩
    refine bind_eq_ok.mpr ⟨(), ensure_eq_ok.mpr hne, ?_⟩
    refine bind_eq_ok.mpr ⟨st, hst, bind_eq_ok.mpr ⟨(), hcb, ?_⟩⟩
    exact bind_eq_ok.mpr ⟨(store, index), hstore', rfl⟩
  · rw [hsvh, hsame.scriptVerifyHeight]

theorem connectBlock_of_replay {r r' : ChainState} (hsame : SameLedger r cs)
    (hnum : cs.undoStore.fileNumber < 0xFFFF) (h : connectBlock P r b height hash = .ok r') :
    ∃ cs', connectBlock P cs b height hash = .ok cs' ∧
      cs'.undoStore.fileNumber ≤ cs.undoStore.fileNumber + 1 := by
  obtain ⟨hheight, hne, st, hst, hcb, -⟩ := connectBlock_eq_ok h
  rw [hsame.utxos, hsame.scriptVerifyHeight] at hst
  rw [hsame.height] at hheight
  obtain ⟨store, index, hstore, hle⟩ : ∃ store index,
      storeUndo cs hash ⟨st.txUndos⟩ = .ok (store, index) ∧
        store.fileNumber ≤ cs.undoStore.fileNumber + 1 := by
    unfold storeUndo
    split_ifs
    · exact ⟨_, _, rfl, Nat.le_succ _⟩
    · obtain ⟨store, loc, hstore, hle⟩ := UndoStore.storeUndoToFile_of_lt hnum hash ⟨st.txUndos⟩
      exact ⟨store, _, bind_eq_ok.mpr ⟨(store, loc), mapError_eq_ok.mpr hstore, rfl⟩, hle⟩
  exact ⟨_, connectBlock_of_ok hheight hne hst hcb hstore, hle⟩

inductive Backed (P : Primitives) (cs₀ : ChainState) (store : UndoStore) (index : UndoIndex) :
    List Block → ChainState → Prop
  | start : Backed P cs₀ store index [] cs₀
  | layer {branch : List Block} {r r' : ChainState} {b : Block} {height : UInt32}
      {log : List (List Coin)} (hbelow : Backed P cs₀ store index branch r)
      (hwf : BlockWellFormed b) (hheight : height.toNat = r.tip.2.toNat + 1)
      (hchild : branch = [] ∨ b.header.prevHash = r.tip.1) (hdistinct : Distinct P b branch)
      (hconn : connectBlock P r b height (b.header.blockHash P) = .ok r')
      (hrec : Records r.utxos (blockUpdates P height b) log)
      (hkept : UndoKept store index (b.header.blockHash P) ⟨undoEntries b.transactions log⟩) :
      Backed P cs₀ store index (b :: branch) r'

section
variable {cs₀ : ChainState} {store store' : UndoStore} {index index' : UndoIndex}
variable {branch : List Block} {r : ChainState}

theorem Backed.extends (h : Backed P cs₀ store index branch r) (hext : store.Extends store')
    (hidx : ∀ hash ∈ branchHashes P branch, index'.lookup hash = index.lookup hash) :
    Backed P cs₀ store' index' branch r := by
  induction h with
  | start => exact .start
  | layer _ hwf hheight hchild hdistinct hconn hrec hkept ih =>
    rw [branchHashes, List.map_cons, List.forall_mem_cons] at hidx
    exact .layer (ih hidx.2) hwf hheight hchild hdistinct hconn hrec (hkept.extends hext hidx.1)

theorem Backed.connectBranch_eq (h : Backed P cs₀ store index branch r) :
    connectBranch P cs₀ branch = .ok r := by
  induction h with
  | start => rfl
  | layer _ _ _ _ _ hconn _ _ ih =>
    obtain ⟨hheight, -⟩ := connectBlock_eq_ok hconn
    exact bind_eq_ok.mpr ⟨_, ih, hheight ▸ hconn⟩

theorem Backed.coins (hfresh : Fresh cs₀) (h : Backed P cs₀ store index branch r) :
    ∀ o c, r.utxos.lookup o = some c → o.txid ∈ branchTxids P branch ∧ SmallScript c := by
  induction h with
  | start =>
    intro o c hlook
    rw [hfresh.utxos, Finmap.lookup_empty] at hlook
    cases hlook
  | @layer branch r r' b height log _ hwf _ _ _ hconn _ _ ih =>
    rw [connectBlock_utxos hconn]
    refine applyAll_forall
      (Q := fun (o : OutPoint) c => o.txid ∈ branchTxids P (b :: branch) ∧ SmallScript c) ?_ ?_
    · intro o c hlook
      exact ⟨List.mem_append_right _ (ih o c hlook).1, (ih o c hlook).2⟩
    · intro u hu e he
      refine ⟨?_, created_small hwf u hu e he⟩
      obtain ⟨tx, htx, rfl⟩ := List.mem_map.mp hu
      have hid : e.1.txid = tx.txid P := txid_of_mem_outputEntries (List.mem_map_of_mem he)
      rw [hid]
      exact List.mem_append_left _ (List.mem_map_of_mem htx)

theorem Backed.freshRun (hfresh : Fresh cs₀) (h : Backed P cs₀ store index branch r)
    (hdistinct : Distinct P b branch) : FreshRun r.utxos (blockUpdates P height b) := by
  have hnodup := hdistinct.txids
  rw [branchTxids, List.flatMap_cons, List.nodup_append] at hnodup
  refine freshRun_of_txids (fun o ho hmem => ?_) hnodup.1
  obtain ⟨c, hc⟩ := Finmap.mem_iff.mp ho
  exact hnodup.2.2 _ hmem _ (h.coins hfresh o c hc).1 rfl

end

structure Consistent (P : Primitives) (cs₀ cs : ChainState) (branch : List Block) : Prop where
  atEnd : cs.undoStore.AtEnd
  fileNumber : cs.undoStore.fileNumber ≤ 0xFFFF
  replay : ∃ r, Backed P cs₀ cs.undoStore cs.undoIndex branch r ∧ SameLedger r cs ∧
    r.undoStore.Behind cs.undoStore ∧ (branch ≠ [] → r.tip = cs.tip)

theorem Consistent.start {cs₀ : ChainState} (hfresh : Fresh cs₀) : Consistent P cs₀ cs₀ [] :=
  ⟨hfresh.atEnd, hfresh.fileNumber, cs₀, .start, ⟨rfl, rfl, rfl⟩, UndoStore.Behind.refl _,
    fun h => absurd rfl h⟩

theorem Consistent.connect {cs₀ : ChainState} {branch : List Block} (hfresh : Fresh cs₀)
    (h : Consistent P cs₀ cs branch) (hcheck : checkBlock b = .ok ())
    (hchild : branch = [] ∨ b.header.prevHash = cs.tip.1)
    (hheight : height.toNat = cs.tip.2.toNat + 1) (hdistinct : Distinct P b branch)
    (hconn : connectBlock P cs b height (b.header.blockHash P) = .ok cs') :
    Consistent P cs₀ cs' (b :: branch) := by
  have hwf := checkBlock_ok_iff.mp hcheck
  obtain ⟨r, hbacked, hsame, hbehind, htip⟩ := h.replay
  obtain ⟨hnum, r', hconn', hsame', htip', hbehind'⟩ :=
    connectBlock_transfer hsame hbehind h.fileNumber hconn
  obtain ⟨-, -, st, hst, -, hstore, -, -, -⟩ := connectBlock_eq_ok hconn
  obtain ⟨log, hrec, -, hundos⟩ := connectTxs_eq_ok hst
  rw [List.nil_append] at hundos
  rw [← hsame.utxos] at hrec
  have hsmall : ∀ o c, r.utxos.lookup o = some c → SmallScript c :=
    fun o c hlook => (hbacked.coins hfresh o c hlook).2
  rw [hundos] at hstore
  obtain ⟨hend, hext, hkept, hothers⟩ :=
    storeUndo_spec h.atEnd (undoEntries_encodable hwf hsmall hrec) hstore
  refine ⟨hend, hnum, r', ?_, hsame', hbehind', fun _ => htip'⟩
  have hchild' : branch = [] ∨ b.header.prevHash = r.tip.1 := by
    by_cases hnil : branch = []
    · exact Or.inl hnil
    · exact Or.inr (by rw [htip hnil, hchild.resolve_left hnil])
  refine .layer (hbacked.extends hext fun hash hmem => hothers hash ?_) hwf
    (by rw [hsame.height]; exact hheight) hchild' hdistinct hconn' hrec hkept
  exact fun heq => hdistinct.hash (heq ▸ hmem)

theorem Consistent.disconnect {cs₀ : ChainState} {branch : List Block} (hfresh : Fresh cs₀)
    (h : Consistent P cs₀ cs (b :: branch))
    (hdisc : disconnectBlock P cs b height (b.header.blockHash P) = .ok cs') :
    Consistent P cs₀ cs' branch := by
  obtain ⟨r', hbacked, hsame, hbehind, htip⟩ := h.replay
  cases hbacked with
  | @layer _ r _ _ height' log hbelow hwf hheight hchild hdistinct hconn hrec hkept =>
    have hlog := matches_of_records hrec
    obtain ⟨hpos, htip', rfl⟩ :=
      disconnectBlock_eq_ok height' hwf hlog (hkept.sound hlog) hdisc
    obtain ⟨-, -, _, -, -, hstore, -, hrtip, hsvh⟩ := connectBlock_eq_ok hconn
    have hback : revertAll cs.utxos (blockUpdates P height' b) log = r.utxos := by
      rw [← hsame.utxos, connectBlock_utxos hconn]
      exact hrec.revertAll_applyAll (hbelow.freshRun hfresh hdistinct)
    have hsame_height : height = height' := by
      have heq := htip (List.cons_ne_nil _ _)
      rw [hrtip, htip'] at heq
      exact (Prod.mk.inj heq).2.symm
    have hbelow_height : r.tip.2 = height - 1 := by
      rw [hsame_height]
      exact eq_pred_of_toNat_eq_succ hheight
    refine ⟨h.atEnd, h.fileNumber, r, hbelow, ⟨hback.symm, hbelow_height, ?_⟩,
      (storeUndo_behind hstore).trans hbehind, fun hne => ?_⟩
    · exact hsvh.symm.trans hsame.scriptVerifyHeight
    · exact Prod.ext (hchild.resolve_left hne).symm hbelow_height

theorem Backed.height_eq {cs₀ r : ChainState} {store : UndoStore} {index : UndoIndex}
    {branch : List Block} (h : Backed P cs₀ store index branch r) :
    r.tip.2.toNat = cs₀.tip.2.toNat + branch.length := by
  induction h with
  | start => rfl
  | layer _ _ hheight _ _ hconn _ _ ih =>
    obtain ⟨-, -, _, -, -, -, -, htip, -⟩ := connectBlock_eq_ok hconn
    rw [htip, List.length_cons, hheight, ih, Nat.add_assoc]

theorem Backed.distinct {cs₀ r : ChainState} {store : UndoStore} {index : UndoIndex}
    {branch : List Block} (h : Backed P cs₀ store index branch r) : DistinctBranch P branch := by
  induction h with
  | start => exact ⟨List.nodup_nil, List.nodup_nil⟩
  | layer _ _ _ _ hdistinct _ _ _ ih =>
    exact ⟨hdistinct.txids, List.nodup_cons.mpr ⟨hdistinct.hash, ih.hashes⟩⟩

theorem Consistent.height_eq {cs₀ : ChainState} {branch : List Block}
    (h : Consistent P cs₀ cs branch) : cs.tip.2.toNat = cs₀.tip.2.toNat + branch.length := by
  obtain ⟨r, hbacked, hsame, -⟩ := h.replay
  rw [← hsame.height, hbacked.height_eq]

theorem Consistent.tip_hash {cs₀ : ChainState} {branch : List Block}
    (h : Consistent P cs₀ cs (b :: branch)) : cs.tip.1 = b.header.blockHash P := by
  obtain ⟨r, hbacked, -, -, htip⟩ := h.replay
  rw [← htip (List.cons_ne_nil _ _)]
  cases hbacked with
  | layer _ _ _ _ _ hconn _ _ =>
    obtain ⟨-, -, _, -, -, -, -, hrtip, -⟩ := connectBlock_eq_ok hconn
    rw [hrtip]

theorem Consistent.distinct {cs₀ : ChainState} {branch : List Block}
    (h : Consistent P cs₀ cs branch) : DistinctBranch P branch := by
  obtain ⟨r, hbacked, -⟩ := h.replay
  exact hbacked.distinct

theorem Consistent.disconnectable {cs₀ : ChainState} {branch : List Block} {undo : Option BlockUndo}
    (h : Consistent P cs₀ cs (b :: branch))
    (hload : loadBlockUndo cs b (b.header.blockHash P) = .ok undo) :
    ∃ cs', disconnectBlock P cs b cs.tip.2 (b.header.blockHash P) = .ok cs' := by
  have hheight := h.height_eq
  have hhash := h.tip_hash
  obtain ⟨r, hbacked, -⟩ := h.replay
  cases hbacked with
  | layer _ hwf _ _ _ _ hrec hkept =>
    have hlog := matches_of_records hrec
    refine disconnectBlock_of_undo hwf hlog (hkept.sound hlog) hload ?_ (Prod.ext hhash rfl)
    intro hzero
    rw [hzero, List.length_cons] at hheight
    exact absurd hheight (by simp)

theorem BlockRun.consistent {cs₀ : ChainState} {branch : List Block} (hfresh : Fresh cs₀)
    (h : BlockRun P cs₀ cs branch) : Consistent P cs₀ cs branch := by
  induction h with
  | start => exact Consistent.start hfresh
  | connect _ hcheck hchild hheight hdistinct hconn ih =>
    exact ih.connect hfresh hcheck hchild hheight hdistinct hconn
  | disconnect _ hdisc ih => exact ih.disconnect hfresh hdisc

theorem BlockRun.connectBranch {cs₀ cs : ChainState} {branch : List Block} (hfresh : Fresh cs₀)
    (h : BlockRun P cs₀ cs branch) :
    ∃ r, connectBranch P cs₀ branch = .ok r ∧ r.utxos = cs.utxos ∧
      (branch ≠ [] → r.tip = cs.tip) := by
  obtain ⟨r, hbacked, hsame, -, htip⟩ := (h.consistent hfresh).replay
  exact ⟨r, hbacked.connectBranch_eq, hsame.utxos, htip⟩

structure SpentOnce (P : Primitives) (done : Set Transaction) (utxos : Utxos) : Prop where
  created : ∀ o ∈ utxos, ∃ tx ∈ done, Creates P tx o
  spent : ∀ tx ∈ done, ∀ o ∈ spentOutpoints tx, o ∉ utxos ∧ ∃ tx ∈ done, tx.txid P = o.txid
  once : ∀ tx ∈ done, ∀ tx' ∈ done, ∀ o ∈ spentOutpoints tx, o ∈ spentOutpoints tx' → tx = tx'
  foreign : ∀ tx ∈ done, ∀ o ∈ spentOutpoints tx, o.txid ≠ tx.txid P

variable {done : Set Transaction}

theorem SpentOnce.step {tx : Transaction} {coins : List Coin} (h : SpentOnce P done utxos)
    (hspends : Spends utxos (txUpdate P height tx).spent coins)
    (hnew : ∀ tx' ∈ done, tx'.txid P ≠ tx.txid P) :
    SpentOnce P (Insert.insert tx done) ((txUpdate P height tx).apply utxos) := by
  have hmem : ∀ o ∈ spentOutpoints tx, o ∈ utxos := fun o ho => hspends.mem ho
  have hcases : ∀ o ∈ (txUpdate P height tx).apply utxos, Creates P tx o ∨
      o ∈ utxos ∧ o ∉ spentOutpoints tx := by
    intro o ho
    rcases mem_insertAll.mp ho with hcreated | hkept
    · exact .inl (creates_of_mem (outputEntries_keys _ _ _ _ ▸ hcreated))
    · exact .inr (mem_eraseAll.mp hkept).symm
  have hgone : ∀ o, (∃ tx' ∈ done, tx'.txid P = o.txid) → (o ∉ utxos ∨ o ∈ spentOutpoints tx) →
      o ∉ (txUpdate P height tx).apply utxos := by
    rintro o ⟨tx', htx', hid⟩ hor ho
    rcases hcases o ho with hcreates | ⟨hin, hnot⟩
    · exact hnew tx' htx' (hid.trans hcreates.1.symm)
    · exact hor.elim (fun h => h hin) hnot
  refine ⟨fun o ho => ?_, fun t ht o ho => ?_, fun t ht t' ht' o ho ho' => ?_,
    fun t ht o ho => ?_⟩
  · rcases hcases o ho with hcreates | ⟨hin, _⟩
    · exact ⟨tx, Set.mem_insert _ _, hcreates⟩
    · obtain ⟨t, ht, hid⟩ := h.created o hin
      exact ⟨t, Set.mem_insert_of_mem _ ht, hid⟩
  · rcases ht with rfl | ht
    · obtain ⟨t', ht', hid, -⟩ := h.created o (hmem o ho)
      exact ⟨hgone o ⟨t', ht', hid⟩ (.inr ho), t', Set.mem_insert_of_mem _ ht', hid⟩
    · obtain ⟨hnot, t', ht', hid⟩ := h.spent t ht o ho
      exact ⟨hgone o ⟨t', ht', hid⟩ (.inl hnot), t', Set.mem_insert_of_mem _ ht', hid⟩
  · rcases ht with rfl | ht <;> rcases ht' with rfl | ht'
    · rfl
    · exact absurd (hmem o ho) (h.spent t' ht' o ho').1
    · exact absurd (hmem o ho') (h.spent t ht o ho).1
    · exact h.once t ht t' ht' o ho ho'
  · rcases ht with rfl | ht
    · obtain ⟨t', ht', hid, -⟩ := h.created o (hmem o ho)
      exact hid ▸ hnew t' ht'
    · exact h.foreign t ht o ho

theorem SpentOnce.records {txs : List Transaction} {log : List (List Coin)}
    (h : SpentOnce P done utxos) (hrec : Records utxos (txs.map (txUpdate P height)) log)
    (hnodup : (txs.map (Transaction.txid P)).Nodup)
    (hnew : ∀ tx' ∈ done, ∀ tx ∈ txs, tx'.txid P ≠ tx.txid P) :
    SpentOnce P (done ∪ {tx | tx ∈ txs}) (applyAll utxos (txs.map (txUpdate P height))) := by
  induction txs generalizing done utxos log with
  | nil =>
    simpa [applyAll] using h
  | cons tx txs ih =>
    cases hrec with
    | cons hspent hrest =>
      rw [List.map_cons, List.nodup_cons] at hnodup
      have hstep := h.step hspent fun tx' htx' => hnew tx' htx' tx List.mem_cons_self
      have hall := ih hstep hrest hnodup.2 ?_
      · have hset : Insert.insert tx done ∪ {t | t ∈ txs} = done ∪ {t | t ∈ tx :: txs} := by
          ext t
          simp only [Set.mem_union, Set.mem_insert_iff, Set.mem_ofPred_eq, List.mem_cons]
          tauto
        rw [hset] at hall
        exact hall
      · rintro tx' (rfl | htx') t ht heq
        · exact hnodup.1 (heq ▸ List.mem_map_of_mem ht)
        · exact hnew tx' htx' t (List.mem_cons_of_mem tx ht) heq

def branchTxs (branch : List Block) : Set Transaction := {tx | ∃ b ∈ branch, tx ∈ b.transactions}

theorem Backed.spentOnce {cs₀ r : ChainState} {store : UndoStore} {index : UndoIndex}
    {branch : List Block} (hfresh : Fresh cs₀) (h : Backed P cs₀ store index branch r) :
    SpentOnce P (branchTxs branch) r.utxos := by
  induction h with
  | start =>
    refine ⟨fun o ho => ?_, by simp [branchTxs], by simp [branchTxs], by simp [branchTxs]⟩
    rw [hfresh.utxos] at ho
    exact absurd ho Finmap.notMem_empty
  | @layer branch r r' b height log _ _ _ _ hdistinct hconn hrec _ ih =>
    have hnodup := hdistinct.txids
    rw [branchTxids, List.flatMap_cons, List.nodup_append] at hnodup
    have hall := ih.records hrec hnodup.1 ?_
    · have hset : branchTxs branch ∪ {tx | tx ∈ b.transactions} = branchTxs (b :: branch) := by
        ext tx
        simp only [branchTxs, Set.mem_union, Set.mem_ofPred_eq, List.mem_cons]
        constructor
        · rintro (⟨b', hb', htx⟩ | htx)
          · exact ⟨b', .inr hb', htx⟩
          · exact ⟨b, .inl rfl, htx⟩
        · rintro ⟨b', rfl | hb', htx⟩
          · exact .inr htx
          · exact .inl ⟨b', hb', htx⟩
      rw [connectBlock_utxos hconn, ← hset]
      exact hall
    · rintro tx' ⟨b', hb', htx'⟩ tx htx heq
      refine hnodup.2.2 _ (List.mem_map_of_mem htx) _ ?_ heq.symm
      exact List.mem_flatMap.mpr ⟨b', hb', List.mem_map_of_mem htx'⟩

theorem BlockRun.spentOnce {cs₀ : ChainState} {branch : List Block} (hfresh : Fresh cs₀)
    (h : BlockRun P cs₀ cs branch) : SpentOnce P (branchTxs branch) cs.utxos := by
  obtain ⟨r, hbacked, hsame, -⟩ := (h.consistent hfresh).replay
  rw [← hsame.utxos]
  exact hbacked.spentOnce hfresh

end Ironcat.History
