import Ironcat.ChainLinkage

/-!
# The cached height and bits of the chain tip

`chain_height` and `chain_tip_bits` are read without the lock of the header
store. They follow it along every run in which the active tip moves by batches
only; a reorg moves it too and does not refresh the cache.
-/

namespace Ironcat.ChainCache

open Lib.Checked Lib.Runs Types StoredBytes Headers HeaderTree HeaderRuns HeaderDepth Mempool Reorg
open ReorgHistory BlockDownload NodeEvents DownloadWindow

variable {P : Primitives} {genesis : BlockHeader} {H : Set BlockHeader} {s s' : System}

def CacheFresh (s : System) : Prop :=
  s.cachedHeight = s.node.headers.height ∧ s.cachedTipBits = s.node.headers.tipBits

instance : DecidablePred CacheFresh := fun _ => inferInstanceAs (Decidable (_ ∧ _))

theorem CacheFresh.of_tip (hinj : HashInjOn P H) (h : CacheFresh s)
    (hplaced : Placed P genesis H s.node.headers) (hplaced' : Placed P genesis H s'.node.headers)
    (htip : s'.node.headers.activeChain.getLast? = s.node.headers.activeChain.getLast?)
    (hheight : s'.cachedHeight = s.cachedHeight) (hbits : s'.cachedTipBits = s.cachedTipBits) :
    CacheFresh s' := by
  obtain ⟨hh, hb⟩ := hplaced.tip_unique hinj hplaced' htip
  exact ⟨hheight.trans (h.1.trans hh.symm), hbits.trans (h.2.trans hb.symm)⟩

theorem CacheFresh.receiveHeaders (h : CacheFresh s) (batch : List BlockHeader) :
    CacheFresh (receiveHeaders P s batch) := by
  unfold NodeEvents.receiveHeaders
  by_cases hempty : batch = []
  · rwa [if_pos hempty]
  · rw [if_neg hempty]
    split
    · next hs stored hcommit =>
      dsimp only
      split_ifs with hnone
      · simp only [HeaderStore.validateAndCommit, bind_eq_ok, pure_eq_ok] at hcommit
        obtain ⟨es, _, heq⟩ := hcommit
        obtain ⟨rfl, rfl⟩ := Prod.mk.inj heq
        subst hnone
        exact h
      · unfold persistHeaders
        rw [persistBatch_eq]
        exact ⟨rfl, rfl⟩
    · exact h

/-- No reorg is carried out, or one that leads to the tip the headers already follow. -/
def ActivateReady (s : System) (mempoolLocked : Bool) : Prop :=
  isInIbd s.node ∨ mempoolLocked ∨ s.node.headers.bestTip.1 = s.node.headers.tip.1 ∨
    ∀ down up, ¬ Planned s.blocks.reader s.node down up

theorem planned_of_reorganized {ord : IterOrder} {bs : BlockFiles.BlockStore} {node : Node}
    {oldTip newTip : Hash256} {disconnected connected : ℕ}
    (h : (activateBestChain P ord bs node).result =
      some (.reorganized oldTip newTip disconnected connected)) :
    ∃ down up, Planned bs node down up := by
  have hact := activateBestChain_activation P ord bs node
  generalize activateBestChain P ord bs node = out at hact h
  cases hact with
  | alreadyBest | noPaths | needBlocks => cases h
  | disconnectFailed hplan | connectFailed hplan | finished hplan => exact ⟨_, _, hplan⟩

theorem switchActiveChain_getLast {hs hs' : HeaderStore} (hinj : HashInjOn P H)
    {ord : IterOrder} {newTip : Hash256} (h : Placed P genesis H hs)
    (hswitch : hs.switchActiveChain ord newTip = .ok hs') :
    hs'.activeChain.getLast? = some newTip := by
  simp only [HeaderStore.switchActiveChain, bind_eq_ok, okOr_eq_ok, pure_eq_ok] at hswitch
  obtain ⟨oldTip, _, chain, hchain, rfl⟩ := hswitch
  obtain ⟨_, _, hhead, _, _⟩ := h.chainDown_path hinj hchain
  change chain.reverse.getLast? = _
  rw [List.getLast?_reverse, hhead]

theorem activeChain_activate (P : Primitives) (ord : IterOrder) (s : System) :
    (activate P ord s).node.headers.activeChain =
      (activateBestChain P ord s.blocks.reader s.node).node.headers.activeChain := by
  unfold activate
  dsimp only
  split
  · exact activeChain_purgeStaleForks _ ord _
  · rfl

theorem CacheFresh.tryActivateBestChain (hinj : HashInjOn P H) (ord : IterOrder)
    {mempoolLocked : Bool} (h : CacheFresh s) (hplaced : Placed P genesis H s.node.headers)
    (hready : ActivateReady s mempoolLocked) :
    CacheFresh (tryActivateBestChain P ord mempoolLocked s) := by
  have hplaced' := placed_activate (s := s) hinj ord mempoolLocked hplaced
  unfold NodeEvents.tryActivateBestChain at hplaced' ⊢
  split_ifs at hplaced' ⊢ with hibd hbest hlocked
  · exact h
  · exact h
  · exact h
  · have hcached : (activate P ord s).cachedHeight = s.cachedHeight ∧
        (activate P ord s).cachedTipBits = s.cachedTipBits := by
      unfold activate
      dsimp only
      split <;> exact ⟨rfl, rfl⟩
    refine h.of_tip hinj hplaced hplaced' ?_ hcached.1 hcached.2
    rw [activeChain_activate]
    rcases activateBestChain_headers P ord s.blocks.reader s.node with
      heq | ⟨hash, heq⟩ | ⟨hswitch, _, _, _, _, hresult⟩
    · rw [heq]
    · rw [heq]
      rfl
    · have htarget : s.node.headers.bestTip.1 = s.node.headers.tip.1 := by
        rcases hready with hin | hlock | htip | hnone
        · exact absurd hin hibd
        · exact absurd hlock hlocked
        · exact htip
        · obtain ⟨down, up, hplan⟩ := planned_of_reorganized hresult
          exact absurd hplan (hnone down up)
      rw [switchActiveChain_getLast hinj hplaced hswitch, htarget]
      obtain ⟨_, htip, _⟩ := hplaced.trunk.tip_eq
      exact htip.symm

def CacheReady (s : System) : Event → Prop
  | .activate _ mempoolLocked => ActivateReady s mempoolLocked
  | _ => True

theorem CacheFresh.of_view (h : CacheFresh s) (heq : headerView s' = headerView s) : CacheFresh s' := by
  simp only [headerView, Prod.mk.injEq] at heq
  unfold CacheFresh
  rwa [heq.1, heq.2.1, heq.2.2]

theorem fresh_step (hinj : HashInjOn P H) {event : Event}
    (hgiven : ∀ header ∈ event.given, header ∈ H) (hplaced : Placed P genesis H s.node.headers)
    (h : CacheFresh s) (hready : CacheReady s event) : CacheFresh (step P s event) := by
  cases event with
  | fillWindow | disconnected | timeoutScan | flush | mempool => exact h
  | block amb payload => exact h.of_view (headerView_handleBlock P amb s payload)
  | reorgNotice =>
    simp only [step]
    split <;> exact h
  | catchUp amb => exact h.of_view (headerView_catchUpChainstate P amb s)
  | headers batch => exact h.receiveHeaders batch
  | activate ord mempoolLocked => exact h.tryActivateBestChain hinj ord hplaced hready

theorem cache_fresh_of_ready (P : Primitives) (genesis : BlockHeader) (H : Set BlockHeader)
    (hinj : Set.InjOn (BlockHeader.blockHash P) H) (node : Node) (blocks : BlockWriter)
    (indexRead : Bool) (hplaced : Placed P genesis H node.headers) (events : List Event)
    (hgiven : ∀ event ∈ events, ∀ header ∈ event.given, header ∈ H)
    (hready : Along (step P) CacheReady (start node blocks indexRead) events) :
    CacheFresh (run (step P) (start node blocks indexRead) events) := by
  have hrun := run_invariant (fun s => Placed P genesis H s.node.headers ∧ CacheFresh s)
    (fun s event h hcond => ⟨placed_step hinj hcond.2 h.1, fresh_step hinj hcond.2 h.1 h.2 hcond.1⟩)
    (show Placed P genesis H (start node blocks indexRead).node.headers ∧ _ from
      ⟨hplaced, rfl, rfl⟩) (hready.and hgiven)
  exact hrun.2

/-- Two batches, and a reorg attempt that lacks the blocks. -/
theorem cache_fresh_after_batches :
    CacheFresh (run (step poly) (start freshNode emptyBlocks true)
      [.headers [headerA1], .headers [headerA2], .activate .id false]) := by
  exact cache_fresh_of_ready poly easyGenesis
    {header | header ∈ [headerA1, headerA2]} (injOn_headers (by decide +kernel)) freshNode
    emptyBlocks true (placed_makeFresh _ _ _ _ _) _ (by decide +kernel)
    ⟨trivial, trivial, .inr (.inr (.inl (by decide +kernel))), trivial⟩

def forkBlocks : BlockWriter :=
  BlockWriter.openAt (forkStore [coinbaseTx 4 0]).index (forkStore [coinbaseTx 4 0]).files 1000
    fileSize_le

/-- A reorg from `A1` to `B2`. -/
theorem cache_stale_after_reorg :
    ¬ CacheFresh (step poly (start (forkNode Pool.new) forkBlocks true) (.activate .id false)) := by
  decide +kernel

end Ironcat.ChainCache
