import Ironcat.ChainLinkage

/-!
# The blocks a reorg needs

`activate_best_chain` reports the blocks it lacks, and nothing asks for them:
the download manager requests blocks of the active chain only. A block that is
neither stored nor on the active chain never arrives, and one on the active
chain does as long as the window keeps track of its height.
-/

namespace Ironcat.ReorgBlocks

open Lib.FiniteMap Lib.Runs Types StoredBytes Headers HeaderRuns
open HeaderDepth Reorg BlockDownload NodeEvents DownloadWindow RequestedBlocks
open ChainLinkage

variable {P : Primitives} {genesis : BlockHeader} {H : Set BlockHeader} {s : System}
variable {hash : Hash256}

/-- In the block store, in flight, buffered, or among the heights that
`fill_window` has yet to scan. -/
def Obtainable (s : System) (hash : Hash256) : Prop :=
  s.blocks.reader.hasBlock hash ∨ hash ∈ s.download.inFlight ∨
    hasValue s.download.pendingBlocks (fun e => e.hash = hash) ∨
    ∃ e ∈ hashesInRange s.node.headers s.download.nextHeight (s.cachedHeight + 1), e.2 = hash

instance (s : System) : DecidablePred (Obtainable s) :=
  fun _ => inferInstanceAs (Decidable (_ ∨ _ ∨ _ ∨ _))

/-- The path from the fork point of the chainstate tip and the best tip to the
latter. -/
def reorgPath (node : Node) : Option (List (Hash256 × ℕ)) := do
  let fork ← (node.headers.findForkPoint node.chainstate.tip.1 node.headers.bestTip.1).toOption
  (node.headers.getPath fork node.headers.bestTip.1).toOption

def ReorgObtainable (s : System) : Prop :=
  ∀ tip ∈ s.node.headers.get s.node.chainstate.tip.1,
    tip.chainwork < s.node.headers.bestTip.2.2 →
    ∀ path ∈ reorgPath s.node, path.length ≤ Reorg.maxReorgDepth → ∀ e ∈ path, Obtainable s e.1

instance : DecidablePred ReorgObtainable := fun s =>
  inferInstanceAs (Decidable (∀ tip ∈ s.node.headers.get s.node.chainstate.tip.1,
    tip.chainwork < s.node.headers.bestTip.2.2 → ∀ path ∈ reorgPath s.node, _ → _))

/-- On the active chain at a height that is still to be connected and that the
manager knows of, with no reorg left to tell it about. -/
def Awaited (s : System) (hash : Hash256) : Prop :=
  s.notices = [] ∧ ∃ k < s.cachedHeight + 1, s.download.nextConnectHeight ≤ k ∧
    s.node.headers.activeChain[k]? = some hash

def PathAwaited (s : System) : Prop :=
  ∀ path ∈ reorgPath s.node, ∀ e ∈ path, s.blocks.reader.hasBlock e.1 ∨ Awaited s e.1

instance (s : System) : DecidablePred (Awaited s) := fun _ =>
  inferInstanceAs (Decidable (_ ∧ ∃ k < s.cachedHeight + 1, s.download.nextConnectHeight ≤ k ∧ _))

instance : DecidablePred PathAwaited := fun s =>
  inferInstanceAs (Decidable (∀ path ∈ reorgPath s.node, _))

theorem obtainable_of_awaited (htracked : Tracked P genesis H s.download) (hreq : Requested P H s)
    (h : Awaited s hash) : Obtainable s hash := by
  obtain ⟨hnone, k, hcached, hlo, hk⟩ := h
  by_cases hscan : k < s.download.nextHeight
  · rcases htracked.window k hlo hscan with ⟨hash', e, he, rfl⟩ | hpending
    · obtain rfl := Option.some.inj ((hreq.flying hnone hash' e he).symm.trans hk)
      exact .inr (.inl (Finmap.mem_of_lookup_eq_some he))
    · obtain ⟨e, he⟩ := Finmap.mem_iff.mp hpending
      refine .inr (.inr (.inl (hasValue_iff.mpr ⟨k, e, he, ?_⟩)))
      exact decide_eq_true (Option.some.inj ((hreq.buffered hnone k e he).symm.trans hk))
  · exact .inr (.inr (.inr
      ⟨(k, hash), mem_hashesInRange.mpr ⟨not_lt.mp hscan, hcached, hk⟩, rfl⟩))

/-- Along every run whose `fill_window` calls find a free peer, the state may be
looked at whenever each block of the path is stored or awaited. -/
theorem reorg_obtainable_of_ready (P : Primitives) (genesis : BlockHeader) (H : Set BlockHeader)
    (hinj : Set.InjOn (BlockHeader.blockHash P) H) (node : Node) (blocks : BlockWriter)
    (indexRead : Bool) (hplaced : Placed P genesis H node.headers) (events : List Event)
    (hgiven : ∀ event ∈ events, ∀ header ∈ event.given, header ∈ H)
    (hready : Along (step P) EventReady (start node blocks indexRead) events)
    (hpath : PathAwaited (run (step P) (start node blocks indexRead) events)) :
    ReorgObtainable (run (step P) (start node blocks indexRead) events) := by
  have hrun := run_invariant (fun s => Placed P genesis H s.node.headers ∧
      Tracked P genesis H s.download ∧ Requested P H s)
    (fun s event h hcond => ⟨placed_step hinj hcond.2 h.1, tracked_step hinj h.1 h.2.1 hcond.1,
      requested_step hinj hcond.2 h.1 h.2.2⟩)
    (show _ from ⟨hplaced, tracked_start node blocks indexRead, requested_start node blocks indexRead⟩)
    (hready.and hgiven)
  intro tip _ _ path hmem _ e he
  rcases hpath path hmem e he with hstored | hawaited
  · exact .inl hstored
  · exact obtainable_of_awaited hrun.2.1 hrun.2.2 hawaited

/-- `A1` is connected and `A2` in flight. -/
theorem reorg_obtainable_in_flight :
    ReorgObtainable (run (step poly) (start freshNode emptyBlocks true)
      [.headers [minedA1.header, minedA2.header], .fillWindow (onePeer false),
        blockEvent minedA1]) := by
  exact reorg_obtainable_of_ready poly easyGenesis
    {header | header ∈ [minedA1.header, minedA2.header]} (injOn_headers (by decide +kernel)) freshNode
    emptyBlocks true (placed_makeFresh _ _ _ _ _) _ (by decide +kernel) (by decide +kernel)
    (by decide +kernel)

/-- With `A1` connected and the only peer excluded, `fill_window` passes the height of
`A2` and asks nobody. -/
theorem skipped_block_not_obtainable :
    ¬ ReorgObtainable (run (step poly) (start freshNode emptyBlocks true)
      [.headers [minedA1.header], .fillWindow (onePeer false), blockEvent minedA1,
        .headers [minedA2.header], .fillWindow (onePeer true)]) := by
  decide +kernel

end Ironcat.ReorgBlocks
