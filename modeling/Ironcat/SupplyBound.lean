import Ironcat.Calls
import Ironcat.Supply

/-!
# The supply bound over runs

Every linked run of calls keeps the UTXO total within the issued subsidies.
Without the link the bound fails: a block connected on top of a branch it does
not extend is disconnected to a tip that was never there, and the heights no
longer count the blocks whose coins are in the set.
-/

namespace Ironcat.SupplyBound

open Lib.Checked Lib.UndoLog Lib.MapTotal Lib.Runs Types Undo UndoFiles Validation
open Chainstate Ledger History Supply Calls

variable {P : Primitives} {genesis : Hash256} {blocks : Set Block}

inductive Stacked (P : Primitives) (blocks : Set Block) (store : UndoStore) (index : UndoIndex) :
    List Block → Utxos → UInt32 → Prop
  | start : Stacked P blocks store index [] ∅ 0
  | layer {branch : List Block} {below pre : Utxos} {h height : UInt32} {b : Block}
      {svh : UInt32} {st : ConnectState} {log : List (List Coin)}
      (hbelow : Stacked P blocks store index branch below h) (hmem : b ∈ blocks)
      (hwf : BlockWellFormed b) (hheight : height.toNat = h.toNat + 1) (hpre : Submap pre below)
      (hrun : b.transactions.foldlM (connectTx P svh height) ⟨pre, [], 0⟩ = .ok st)
      (hvalue : checkCoinbaseValue b height st.totalFees = .ok ())
      (hrec : Records pre (blockUpdates P height b) log)
      (hkept : UndoKept store index (b.header.blockHash P) ⟨undoEntries b.transactions log⟩) :
      Stacked P blocks store index (b :: branch) st.utxos height

section
variable {store store' : UndoStore} {index index' : UndoIndex} {branch : List Block}
variable {top : Utxos} {h : UInt32}

section

variable (hs : Stacked P blocks store index branch top h)
include hs

theorem Stacked.extends (hext : store.Extends store')
    (hidx : ∀ hash ∈ branchHashes P branch, index'.lookup hash = index.lookup hash) :
    Stacked P blocks store' index' branch top h := by
  induction hs with
  | start => exact .start
  | layer _ hmem hwf hheight hpre hrun hvalue hrec hkept ih =>
    rw [branchHashes, List.map_cons, List.forall_mem_cons] at hidx
    exact .layer (ih hidx.2) hmem hwf hheight hpre hrun hvalue hrec (hkept.extends hext hidx.1)

theorem Stacked.mem_blocks : ∀ b ∈ branch, b ∈ blocks := by
  induction hs with
  | start => simp
  | layer _ hmem _ _ _ _ _ _ _ ih => exact List.forall_mem_cons.mpr ⟨hmem, ih⟩

theorem Stacked.height_eq_zero_iff : h = 0 ↔ branch = [] := by
  cases hs with
  | start => simp
  | @layer _ _ _ h' _ _ _ _ _ _ _ _ hheight _ _ _ _ _ =>
    have hne : h ≠ 0 := by
      rintro rfl
      simp at hheight
    simp [hne]

theorem Stacked.bounds :
    InRange top ∧ supply top ≤ issued h ∧ ∀ o c, top.lookup o = some c → SmallScript c := by
  induction hs with
  | start =>
    have hnone : ∀ o (c : Coin), (∅ : Utxos).lookup o ≠ some c := by
      intro o c hc
      rw [Finmap.lookup_empty] at hc
      cases hc
    exact ⟨fun o c hc => absurd hc (hnone o c), le_refl 0, fun o c hc => absurd hc (hnone o c)⟩
  | @layer _ below pre h' height b svh st log _ _ hwf hheight hpre hrun hvalue _ _ ih =>
    obtain ⟨hrange, hsupply, hsmall⟩ := ih
    obtain ⟨hrange', hle⟩ := block_supply hwf (hrange.submap hpre) hrun hvalue
    have hpre_le : supply pre ≤ supply below := total_le_of_submap hrange.nonneg hpre
    obtain ⟨-, -, hutxos, -⟩ := connectTxs_eq_ok hrun
    refine ⟨hrange', ?_, ?_⟩
    · rw [issued_succ hheight]
      omega
    · rw [hutxos]
      exact applyAll_forall (Q := fun _ c => SmallScript c)
        (fun o c hc => hsmall o c (hpre o c hc)) (created_small hwf)

end

end

structure Supplied (P : Primitives) (genesis : Hash256) (blocks : Set Block) (cs : ChainState)
    (branch : List Block) : Prop where
  atEnd : cs.undoStore.AtEnd
  linked : LinkedBranch P genesis branch
  tip : branch ≠ [] → cs.tip.1 = topHash P genesis branch
  stack : ∃ top, Stacked P blocks cs.undoStore cs.undoIndex branch top cs.tip.2 ∧
    Submap cs.utxos top

variable {cs : ChainState}

theorem Supplied.start (hfresh : Fresh cs) (hheight : cs.tip.2 = 0) :
    Supplied P genesis blocks cs [] := by
  refine ⟨hfresh.atEnd, .nil, fun hne => absurd rfl hne, ∅, ?_, ?_⟩
  · rw [hheight]
    exact .start
  · rw [hfresh.utxos]
    exact Submap.refl ∅

theorem Supplied.parentHash_eq {branch : List Block} (h : Supplied P genesis blocks cs branch) :
    parentHash genesis cs = topHash P genesis branch := by
  obtain ⟨top, hstack, -⟩ := h.stack
  unfold parentHash
  split_ifs with hzero
  · rw [hstack.height_eq_zero_iff.mp hzero]
    rfl
  · exact h.tip fun hnil => hzero (hstack.height_eq_zero_iff.mpr hnil)

variable {b : Block}

theorem Supplied.connect {cs' : ChainState} {branch : List Block} {height : UInt32}
    (hhash : HeadersTold P genesis blocks) (h : Supplied P genesis blocks cs branch)
    (hb : b ∈ blocks) (hcheck : checkBlock b = .ok ())
    (hlink : b.header.prevHash = parentHash genesis cs) (hmax : cs.tip.2 ≠ 0xFFFFFFFF)
    (hconn : connectBlock P cs b height (b.header.blockHash P) = .ok cs') :
    Supplied P genesis blocks cs' (b :: branch) := by
  have hwf := checkBlock_ok_iff.mp hcheck
  obtain ⟨top, hstack, hsub⟩ := h.stack
  obtain ⟨hheight, -, st, hrun, hvalue, hstore, hutxos, htip, -⟩ := connectBlock_eq_ok hconn
  obtain ⟨log, hrec, -, hundos⟩ := connectTxs_eq_ok hrun
  rw [List.nil_append] at hundos
  rw [hundos] at hstore
  have hsmall : ∀ o c, cs.utxos.lookup o = some c → SmallScript c :=
    fun o c hc => hstack.bounds.2.2 o c (hsub o c hc)
  obtain ⟨hend, hext, hkept, hothers⟩ :=
    storeUndo_spec h.atEnd (undoEntries_encodable hwf hsmall hrec) hstore
  rw [h.parentHash_eq] at hlink
  have hnew := h.linked.hash_notMem hhash hstack.mem_blocks hb hlink
  have hheight' : height.toNat = cs.tip.2.toNat + 1 := by
    rw [hheight]
    exact toNat_saturatingSucc hmax
  refine ⟨hend, .cons h.linked hlink hnew, fun _ => by rw [htip]; rfl, st.utxos, ?_, ?_⟩
  · rw [htip]
    refine .layer (hstack.extends hext fun hash hmem => hothers hash ?_) hb hwf hheight' hsub hrun
      hvalue hrec hkept
    exact fun heq => hnew (heq ▸ hmem)
  · rw [hutxos]
    exact Submap.refl _

theorem Supplied.disconnect {cs' : ChainState} {branch : List Block} {height : UInt32}
    (h : Supplied P genesis blocks cs branch)
    (hsame : ∀ b' ∈ blocks, b'.header.blockHash P = b.header.blockHash P → b' = b)
    (hdisc : disconnectBlock P cs b height (b.header.blockHash P) = .ok cs') :
    ∃ below, Supplied P genesis blocks cs' below := by
  obtain ⟨top, hstack, hsub⟩ := h.stack
  have htop := h.tip
  have hlinked := h.linked
  obtain ⟨hne, htip, -⟩ := disconnectBlock_tip hdisc
  have hpos : cs.tip.2 ≠ 0 := htip ▸ hne
  generalize hcs : cs.tip.2 = tipHeight at hstack
  cases hstack with
  | start => exact absurd hcs hpos
  | @layer branch below pre h' _ b' svh st log hbelow hmem hwf hheight hpre hrun hvalue hrec hkept =>
    obtain rfl : b' = b := by
      have heq := htop (List.cons_ne_nil _ _)
      rw [htip] at heq
      exact hsame b' hmem heq.symm
    cases hlinked with
    | cons hlinked hlink _ =>
      have hlog := matches_of_records hrec
      obtain ⟨-, -, rfl⟩ :=
        disconnectBlock_eq_ok tipHeight hwf hlog (hkept.sound hlog) hdisc
      obtain ⟨-, -, hutxos, -⟩ := connectTxs_eq_ok hrun
      have hbelow_height : height - 1 = h' := by
        have hsame : height = tipHeight := by rw [← hcs, htip]
        rw [hsame]
        exact (eq_pred_of_toNat_eq_succ hheight).symm
      refine ⟨branch, h.atEnd, hlinked, fun _ => hlink, below, hbelow_height ▸ hbelow, ?_⟩
      rw [hutxos] at hsub
      exact (revertAll_submap hrec hsub).trans hpre

theorem Supplied.apply {calls : List Call} {branch : List Block} {call : Call}
    (hhash : HeadersTold P genesis {b | Connected calls b}) (hpaired : Paired calls)
    (hown : ∀ b height hash, .connect b height hash ∈ calls → hash = b.header.blockHash P)
    (h : Supplied P genesis {b | Connected calls b} cs branch) (hmem : call ∈ calls)
    (hcheck : call.Checked) (hlinked : call.Linked P genesis cs) :
    ∃ branch', Supplied P genesis {b | Connected calls b} (call.apply P cs) branch' := by
  cases call with
  | connect b height hash =>
    obtain ⟨rfl, hlink, hmax⟩ := hlinked
    cases hconn : connectBlock P cs b height (b.header.blockHash P) with
    | ok cs' =>
      rw [Call.apply, hconn]
      exact ⟨b :: branch, h.connect hhash ⟨height, _, hmem⟩ hcheck hlink hmax hconn⟩
    | error e =>
      rw [Call.apply, hconn]
      exact ⟨branch, h⟩
  | disconnect b height hash =>
    obtain rfl := hlinked
    cases hdisc : disconnectBlock P cs b height (b.header.blockHash P) with
    | ok cs' =>
      rw [Call.apply, hdisc]
      refine h.disconnect ?_ hdisc
      rintro b' ⟨height', hash', hb'⟩ heq
      exact hpaired _ hb' _ hmem ((hown b' height' hash' hb').trans heq)
    | error e =>
      rw [Call.apply, hdisc]
      exact ⟨branch, h⟩

theorem LinkedRun.own_hash {calls : List Call} (h : LinkedRun P genesis cs calls) {height : UInt32}
    {hash : Hash256} (hmem : .connect b height hash ∈ calls) : hash = b.header.blockHash P := by
  induction calls generalizing cs with
  | nil => cases hmem
  | cons call calls ih =>
    rcases List.mem_cons.mp hmem with rfl | hmem
    · exact h.1.1
    · exact ih h.2 hmem

theorem Supplied.runCalls {cs : ChainState} {branch : List Block} {calls : List Call}
    (hhash : HeadersTold P genesis {b | Connected calls b}) (hpaired : Paired calls)
    (h : Supplied P genesis {b | Connected calls b} cs branch)
    (hcheck : ∀ call ∈ calls, call.Checked) (hlinked : LinkedRun P genesis cs calls) :
    ∃ branch', Supplied P genesis {b | Connected calls b} (runCalls P cs calls) branch' := by
  have hcalls : ∀ call ∈ calls, call ∈ calls ∧ call.Checked :=
    fun call hcall => ⟨hcall, hcheck call hcall⟩
  refine run_invariant (fun cs => ∃ branch, Supplied P genesis {b | Connected calls b} cs branch) ?_
    ⟨branch, h⟩ (hlinked.and hcalls)
  rintro cs call ⟨branch, h⟩ ⟨hlink, hmem, hcheck⟩
  exact h.apply hhash hpaired (fun _ _ _ => LinkedRun.own_hash hlinked) hmem hcheck hlink

/-- The bound itself, for one state. -/
def SupplyHolds (P : Primitives) (cs : ChainState) : Prop :=
  InRange cs.utxos ∧ supply cs.utxos ≤ issued cs.tip.2 ∧ supply cs.utxos ≤ maxMoney ∧
    ∀ block height hash, checkBlock block = .ok () →
      Avoids ConnectError.IsOverflow (connectBlock P cs block height hash)

theorem Supplied.supplyHolds {branch : List Block} (h : Supplied P genesis blocks cs branch) :
    SupplyHolds P cs := by
  obtain ⟨top, hstack, hsub⟩ := h.stack
  obtain ⟨hrange, hsupply, -⟩ := hstack.bounds
  have hle : supply cs.utxos ≤ supply top := total_le_of_submap hrange.nonneg hsub
  have hissued := issued_le_maxMoney cs.tip.2
  have hmoney : supply cs.utxos ≤ maxMoney := by omega
  refine ⟨hrange.submap hsub, by omega, hmoney, fun block height hash hcheck => ?_⟩
  exact connectBlock_avoids (checkBlock_ok_iff.mp hcheck) (hrange.submap hsub) hmoney

/-- In every linked and paired run of checked blocks from the empty UTXO set, coins
are in range, the total is at most what the schedule has issued, and no sum of
`connect_block` can overflow. -/
theorem supplyHolds_of_linkedRun (genesis : Hash256) {cs₀ : ChainState} {calls : List Call}
    (hfresh : Fresh cs₀)
    (hheight : cs₀.tip.2 = 0) (hcheck : ∀ call ∈ calls, call.Checked)
    (hhash : HeadersTold P genesis {b | Connected calls b}) (hpaired : Paired calls)
    (hlinked : LinkedRun P genesis cs₀ calls) : SupplyHolds P (runCalls P cs₀ calls) := by
  obtain ⟨branch, h⟩ :=
    (Supplied.start hfresh hheight).runCalls hhash hpaired hcheck hlinked
  exact h.supplyHolds

def blockA : Block := blockOn 7 0 [coinbaseTx 0 5000000000]

def blockB : Block := blockOn 7 1 [coinbaseTx 1 5000000000]

def blockA2 : Block :=
  blockOn (blockA.header.blockHash poly) 0 [coinbaseTx 2 5000000000]

def connectCall (b : Block) (height : UInt32) : Call :=
  .connect b height (b.header.blockHash poly)

def disconnectCall (b : Block) (height : UInt32) : Call :=
  .disconnect b height (b.header.blockHash poly)

def switchCalls : List Call := [connectCall blockA 1, disconnectCall blockA 1, connectCall blockB 1]

theorem supplyHolds_switchCalls :
    SupplyHolds poly (runCalls poly emptyState switchCalls) := by
  refine supplyHolds_of_linkedRun 7 emptyState_fresh rfl (by decide +kernel) ?_ (by decide +kernel)
    (by decide +kernel)
  have hblocks : ∀ b, Connected switchCalls b → b = blockA ∨ b = blockB := by
    rintro b ⟨height, hash, hcall⟩
    simp only [switchCalls, connectCall, disconnectCall, List.mem_cons, Call.connect.injEq,
      reduceCtorEq, List.not_mem_nil, or_false, false_or] at hcall
    rcases hcall with ⟨rfl, -⟩ | ⟨rfl, -⟩
    · exact .inl rfl
    · exact .inr rfl
  refine ⟨fun b hb b' hb' => ?_, fun b hb => ?_⟩
  · rcases hblocks b hb with rfl | rfl <;> rcases hblocks b' hb' with rfl | rfl <;> decide +kernel
  · rcases hblocks b hb with rfl | rfl <;> decide +kernel

def lateChildCalls : List Call :=
  switchCalls ++ [connectCall blockA2 2, disconnectCall blockA2 2, disconnectCall blockA 1]

theorem lateChild_exceeds_issued :
    Fresh emptyState ∧ emptyState.tip.2 = 0 ∧ (∀ call ∈ lateChildCalls, call.Checked) ∧
      (runCalls poly emptyState lateChildCalls).tip.2 = 0 ∧
      ¬ SupplyHolds poly (runCalls poly emptyState lateChildCalls) := by
  have hexceeds : ¬ supply (runCalls poly emptyState lateChildCalls).utxos ≤
      issued (runCalls poly emptyState lateChildCalls).tip.2 := by
    decide +kernel
  exact ⟨emptyState_fresh, rfl, by decide +kernel, by decide +kernel, fun h => hexceeds h.2.1⟩

end Ironcat.SupplyBound
