import Ironcat.Quarantine
import Ironcat.ReorgHistory

/-!
# A fork whose block is rejected

When `connect_block` rejects a block of the fork, `activate_best_chain` marks
the tip of the fork. If that is the rejected block, the best tip stays away from
it afterwards.
-/

namespace Ironcat.RejectedFork

open Lib.Checked Lib.Forest Lib.Runs Types Chainstate BlockFiles
open HeaderTree HeaderRuns Quarantine Mempool Reorg ReorgHistory

variable {P : Primitives} {genesis : BlockHeader} {ord : IterOrder} {bs : BlockStore}
variable {node node' : Node} {x : Hash256}

/-- The call fails because `connect_block` rejects the block `x` of the fork. -/
def Rejects (P : Primitives) (ord : IterOrder) (bs : BlockStore) (node : Node) (x : Hash256)
    (node' : Node) : Prop :=
  ∃ down done rest old new height e,
    activateBestChain P ord bs node = .returned node' (.error (.connect height e)) ∧
    Rejection P ord bs node node' down done (x, height) rest old new height e

theorem height_of_fail {new : Connecting} {entry : Hash256 × ℕ} {height : ℕ} {e : ConnectError}
    (h : connectStep P bs new entry = .error (.connect height e)) : entry.2 = height := by
  simp only [connectStep, connectEntry, bind_eq_error, mapError_eq_error] at h
  rcases h with (⟨_, _, hload⟩ | ⟨_, _, ⟨_, _, heq⟩ | ⟨_, _, hpure⟩⟩) | ⟨_, _, hpure⟩
  · cases hload
  · exact (ReorgError.connect.inj heq).1
  · cases hpure
  · cases hpure

theorem rejects_of_call {height : ℕ} {e : ConnectError}
    (h : activateBestChain P ord bs node = .returned node' (.error (.connect height e))) :
    ∃ down done x rest, Planned bs node down (done ++ (x, height) :: rest) ∧
      Rejects P ord bs node x node' := by
  obtain ⟨down, done, ⟨x, height'⟩, rest, old, new, hrej⟩ := activateBestChain_rejected h
  obtain rfl : height' = height := height_of_fail hrej.fail
  exact ⟨down, done, x, rest, hrej.plan, down, done, rest, old, new, _, e, h, hrej⟩

theorem Rejects.stored (h : Rejects P ord bs node x node') : x ∈ node.headers.byHash := by
  obtain ⟨down, done, rest, old, new, height, e, _, hrej⟩ := h
  obtain ⟨fork, _, _, _, _, hup⟩ := findPaths_eq_ok hrej.plan.paths
  exact hup.mem_byHash (List.mem_append_right _ List.mem_cons_self)

theorem Rejects.headers (h : Rejects P ord bs node x node') :
    node'.headers = node.headers.markInvalid ord node.headers.bestTip.1 := by
  obtain ⟨_, _, _, _, _, _, _, _, hrej⟩ := h
  exact hrej.headers

/-- If the rejected block is the fork's tip, off the active chain, and the other
headers above it are tips or marked, then no later run in which the active chain
is not switched to it makes the best tip the block or a header above it. -/
theorem rejected_tip_never_best (htree : Tree P genesis node.headers)
    (hreject : Rejects P ord bs node x node') (hlast : x = node.headers.bestTip.1)
    (hoff : x ∉ node.headers.activeSet) (hseal : TipsOrMarked node.headers x) (ops : List HeaderOp)
    (hhash : HeaderHashSound P ops)
    (hops : Along (HeaderOp.apply P) (SwitchesAway x) node'.headers ops) :
    ¬ Descends (parentOf (run (HeaderOp.apply P) node'.headers ops))
      (run (HeaderOp.apply P) node'.headers ops).bestTip.1 x := by
  have hq : Quarantined x node'.headers := by
    rw [hreject.headers, ← hlast]
    exact markInvalid_quarantines htree hreject.stored hoff hseal ord
  have htree' : Tree P genesis node'.headers := by
    rw [hreject.headers]
    exact tree_markInvalid htree ord _
  exact (quarantined_run hq htree' hhash hops).best

def headerD2 : BlockHeader := childOf headerB1 7

theorem forkNode_rejects (bs : BlockStore) (height : ℕ) (hrejected : (activateBestChain
      poly .id bs (forkNode (Pool.empty 1000))).rejectedAt = some height) :
    ∃ x, (x, height) ∈ [(headerB1.blockHash poly, 1), (headerB2.blockHash poly, 2)] ∧
      Rejects poly .id bs (forkNode (Pool.empty 1000)) x
        (activateBestChain poly .id bs (forkNode (Pool.empty 1000))).node := by
  obtain ⟨node', e, hcall⟩ := rejectedAt_eq_some.mp hrejected
  obtain ⟨down, done, x, rest, hplan, hrej⟩ := rejects_of_call hcall
  have hup := (forkNode_paths hplan).2
  rw [hcall]
  exact ⟨x, hup ▸ List.mem_append_right _ List.mem_cons_self, hrej⟩

/-- `B2` claims more than its subsidy and is never chosen again. -/
theorem rejected_tip_avoided :
    ∃ node', Rejects poly .id (forkStore [coinbaseTx 2 6000000000])
        (forkNode (Pool.empty 1000)) (headerB2.blockHash poly) node' ∧
      ¬ Descends (parentOf (run (HeaderOp.apply poly) node'.headers [.acceptHeader headerD2]))
        (run (HeaderOp.apply poly) node'.headers [.acceptHeader headerD2]).bestTip.1
        (headerB2.blockHash poly) := by
  obtain ⟨x, hx, hrej⟩ := forkNode_rejects (forkStore [coinbaseTx 2 6000000000]) 2
    (by decide +kernel)
  obtain rfl : x = headerB2.blockHash poly := by simpa using hx
  have htree : Tree poly easyGenesis (forkNode (Pool.empty 1000)).headers := by
    rw [forkNode_headers]
    exact tree_run (tree_makeFresh _ _ _ _) (by decide +kernel) (by decide +kernel)
  refine ⟨_, hrej, rejected_tip_never_best htree hrej ?_ ?_ ?_ _ (by decide +kernel)
    ⟨trivial, trivial⟩⟩
  · rw [forkNode_headers, forkHeaders_bestTip]
  · rw [forkNode_headers]
    decide +kernel
  · rw [tipsOrMarked_iff htree, forkNode_headers]
    decide +kernel

def badB1Store : BlockStore :=
  flatStore [blockA1, ⟨headerB1, [coinbaseTx 1 6000000000]⟩, blockB2 [coinbaseTx 2 0]]

/-- `B1` is rejected, but only `B2` is marked: the next child of `B1` becomes the
best tip. -/
theorem rejected_block_chosen_again :
    ∃ node', Rejects poly .id badB1Store (forkNode (Pool.empty 1000))
        (headerB1.blockHash poly) node' ∧
      Descends (parentOf (run (HeaderOp.apply poly) node'.headers [.acceptHeader headerD2]))
        (run (HeaderOp.apply poly) node'.headers [.acceptHeader headerD2]).bestTip.1
        (headerB1.blockHash poly) := by
  obtain ⟨x, hx, hrej⟩ := forkNode_rejects badB1Store 1 (by decide +kernel)
  obtain rfl : x = headerB1.blockHash poly := by simpa using hx
  refine ⟨_, hrej, Descends.head ?_ (Descends.refl _)⟩
  decide +kernel

end Ironcat.RejectedFork
