import Ironcat.BlockFiles
import Ironcat.Headers
import Ironcat.Lib.EarlyExit
import Ironcat.Mempool

/-!
# Switching to the best chain

`activate_best_chain` and `rollback` of `reorg.rs`. A call leaves behind
whatever its finished steps have done, so the result comes with the state
reached; a rollback that fails ends the process.
-/

namespace Ironcat.Reorg

open Lib.Checked Lib.EarlyExit Types BlockFiles Chainstate Headers Mempool

def maxReorgDepth : ℕ := 1000

inductive ActivateResult
  | alreadyBest
  | reorganized (oldTip newTip : Hash256) (disconnected connected : ℕ)
  | needBlocks (missing : List Hash256)
deriving DecidableEq, Repr

inductive ReorgError
  | headers (error : HeaderError)
  | forkPointMissing
  | tooDeep (count : ℕ)
  | tooLong (count : ℕ)
  | load (error : LoadError)
  | disconnect (error : DisconnectError)
  | connect (height : ℕ) (error : ConnectError)

structure Node where
  headers : HeaderStore
  chainstate : ChainState
  mempool : Pool

inductive Outcome
  | returned (node : Node) (result : Except ReorgError ActivateResult)
  | exited (node : Node)

def Outcome.result : Outcome → Option ActivateResult
  | .returned _ (.ok r) => some r
  | _ => none

def Outcome.node : Outcome → Node
  | .returned node _ => node
  | .exited node => node

def Outcome.isReturned : Outcome → Bool
  | .returned _ _ => true
  | .exited _ => false

theorem result_eq_some {out : Outcome} {r : ActivateResult} :
    out.result = some r ↔ ∃ node, out = .returned node (.ok r) := by
  unfold Outcome.result
  split <;> simp_all

/-- The height of the block that `connect_block` refused. -/
def Outcome.rejectedAt : Outcome → Option ℕ
  | .returned _ (.error (.connect height _)) => some height
  | _ => none

theorem rejectedAt_eq_some {out : Outcome} {height : ℕ} :
    out.rejectedAt = some height ↔ ∃ node e, out = .returned node (.error (.connect height e)) := by
  unfold Outcome.rejectedAt
  split <;> simp_all

def findPaths (headers : HeaderStore) (activeHash : Hash256) (activeHeight : UInt32)
    (bestHash : Hash256) : Except ReorgError (List (Hash256 × ℕ) × List (Hash256 × ℕ)) := do
  let forkPoint ← (headers.findForkPoint activeHash bestHash).mapError .headers
  let fork ← okOr .forkPointMissing (headers.get forkPoint)
  let disconnectCount := activeHeight.toNat - fork.height
  ensure (disconnectCount ≤ maxReorgDepth) (.tooDeep disconnectCount)
  let disconnectPath ← (headers.getPath forkPoint activeHash).mapError .headers
  let connectPath ← (headers.getPath forkPoint bestHash).mapError .headers
  ensure (connectPath.length ≤ maxReorgDepth) (.tooLong connectPath.length)
  return (disconnectPath, connectPath)

def missingBlocks (bs : BlockStore) (connectPath : List (Hash256 × ℕ)) : List Hash256 :=
  (connectPath.filter fun e => !bs.hasBlock e.1).map Prod.fst

section

variable (P : Primitives) (bs : BlockStore)

def disconnectEntry (cs : ChainState) (e : Hash256 × ℕ) :
    Except ReorgError (ChainState × Block) := do
  let block ← (bs.loadAndDeserialize e.1).mapError .load
  let cs ← (disconnectBlock P cs block (UInt32.ofNat e.2) e.1).mapError .disconnect
  return (cs, block)

def connectEntry (cs : ChainState) (e : Hash256 × ℕ) : Except ReorgError (ChainState × Block) := do
  let block ← (bs.loadAndDeserialize e.1).mapError .load
  let cs ← (connectBlock P cs block (UInt32.ofNat e.2) e.1).mapError (.connect e.2)
  return (cs, block)

structure Disconnecting where
  chainstate : ChainState
  disconnectedTxs : List Transaction
  disconnectedBlocks : List (Hash256 × ℕ)

def disconnectStep (st : Disconnecting) (e : Hash256 × ℕ) : Except ReorgError Disconnecting := do
  let (cs, block) ← disconnectEntry P bs st.chainstate e
  return {
    chainstate := cs
    disconnectedTxs :=
      st.disconnectedTxs ++ block.transactions.filter fun tx => !tx.isCoinbase
    disconnectedBlocks := st.disconnectedBlocks ++ [e] }

structure Connecting where
  chainstate : ChainState
  mempool : Pool
  mempoolRemovedTxs : List Transaction
  connectedCount : ℕ

def connectStep (st : Connecting) (e : Hash256 × ℕ) : Except ReorgError Connecting := do
  let (cs, block) ← connectEntry P bs st.chainstate e
  return {
    chainstate := cs
    mempool := st.mempool.removeBlockTxs P block
    mempoolRemovedTxs := st.mempoolRemovedTxs ++
      block.transactions.filter fun tx => !tx.isCoinbase && st.mempool.contains (tx.txid P)
    connectedCount := st.connectedCount + 1 }

def disconnectNew (cs : ChainState) (e : Hash256 × ℕ) : Except ReorgError ChainState :=
  (disconnectEntry P bs cs e).map Prod.fst

def connectOld (cs : ChainState) (e : Hash256 × ℕ) : Except ReorgError ChainState :=
  (connectEntry P bs cs e).map Prod.fst

def rollback (connectedNew disconnectedOld : List (Hash256 × ℕ)) (cs : ChainState) :
    ChainState × Option ReorgError :=
  match foldUntil (disconnectNew P bs) cs connectedNew.reverse with
  | (cs, none) => foldUntil (connectOld P bs) cs disconnectedOld.reverse
  | (cs, some e) => (cs, some e)

def abortConnect (ord : IterOrder) (bs : BlockStore) (headers : HeaderStore) (bestHash : Hash256)
    (connectPath disconnectedBlocks : List (Hash256 × ℕ)) (st : Connecting) (error : ReorgError) :
    Outcome :=
  match error with
  | .connect _ _ =>
    let connectedNew := connectPath.take st.connectedCount
    match rollback P bs connectedNew disconnectedBlocks st.chainstate with
    | (cs, none) =>
      let (mempool, _) := st.mempool.readdDisconnectedTxs P ord st.mempoolRemovedTxs cs
      .returned ⟨headers.markInvalid ord bestHash, cs, mempool⟩ (.error error)
    | (cs, some (.load e)) => .returned ⟨headers, cs, st.mempool⟩ (.error (.load e))
    | (cs, some _) => .exited ⟨headers, cs, st.mempool⟩
  | _ => .returned ⟨headers, st.chainstate, st.mempool⟩ (.error error)

def finish (ord : IterOrder) (headers : HeaderStore) (activeHash bestHash : Hash256)
    (disconnected : ℕ) (disconnectedTxs : List Transaction) (st : Connecting) : Outcome :=
  match headers.switchActiveChain ord bestHash with
  | .error e => .returned ⟨headers, st.chainstate, st.mempool⟩ (.error (.headers e))
  | .ok headers =>
    let (mempool, _) := st.mempool.readdDisconnectedTxs P ord disconnectedTxs st.chainstate
    .returned ⟨headers, st.chainstate, mempool⟩
      (.ok (.reorganized activeHash bestHash disconnected st.connectedCount))

def reorganize (ord : IterOrder) (bs : BlockStore) (node : Node) (bestHash : Hash256)
    (disconnectPath connectPath : List (Hash256 × ℕ)) : Outcome :=
  match foldUntil (disconnectStep P bs) ⟨node.chainstate, [], []⟩ disconnectPath.reverse with
  | (st, some e) => .returned { node with chainstate := st.chainstate } (.error e)
  | (old, none) =>
    match foldUntil (connectStep P bs) ⟨old.chainstate, node.mempool, [], 0⟩ connectPath with
    | (st, some e) =>
      abortConnect P ord bs node.headers bestHash connectPath old.disconnectedBlocks st e
    | (st, none) =>
      finish P ord node.headers node.chainstate.tip.1 bestHash disconnectPath.length
        old.disconnectedTxs st

def activateBestChain (ord : IterOrder) (bs : BlockStore) (node : Node) : Outcome :=
  let bestHash := node.headers.bestTip.1
  let activeHash := node.chainstate.tip.1
  let activeHeight := node.chainstate.tip.2
  if bestHash = activeHash then .returned node (.ok .alreadyBest)
  else
    match findPaths node.headers activeHash activeHeight bestHash with
    | .error e => .returned node (.error e)
    | .ok (disconnectPath, connectPath) =>
      let missing := missingBlocks bs connectPath
      if missing ≠ [] then .returned node (.ok (.needBlocks missing))
      else reorganize P ord bs node bestHash disconnectPath connectPath

end

variable {P : Primitives} {ord : IterOrder} {bs : BlockStore} {node : Node}
variable {down up : List (Hash256 × ℕ)}

/-- The paths have been found and the index has every block to connect. -/
structure Planned (bs : BlockStore) (node : Node) (down up : List (Hash256 × ℕ)) : Prop where
  ne : node.headers.bestTip.1 ≠ node.chainstate.tip.1
  paths : findPaths node.headers node.chainstate.tip.1 node.chainstate.tip.2
    node.headers.bestTip.1 = .ok (down, up)
  stored : missingBlocks bs up = []

def Node.disconnecting (node : Node) : Disconnecting := ⟨node.chainstate, [], []⟩

def Node.connecting (node : Node) (old : Disconnecting) : Connecting :=
  ⟨old.chainstate, node.mempool, [], 0⟩

structure Reaches (P : Primitives) (bs : BlockStore) (node : Node) (down done : List (Hash256 × ℕ))
    (old : Disconnecting) (new : Connecting) : Prop where
  disconnected : down.reverse.foldlM (disconnectStep P bs) node.disconnecting = .ok old
  connected : done.foldlM (connectStep P bs) (node.connecting old) = .ok new

inductive Activation (P : Primitives) (ord : IterOrder) (bs : BlockStore) (node : Node) :
    Outcome → Prop
  | alreadyBest : Activation P ord bs node (.returned node (.ok .alreadyBest))
  | noPaths {e} (hpaths : findPaths node.headers node.chainstate.tip.1 node.chainstate.tip.2
      node.headers.bestTip.1 = .error e) : Activation P ord bs node (.returned node (.error e))
  | needBlocks (missing : List Hash256) :
      Activation P ord bs node (.returned node (.ok (.needBlocks missing)))
  | disconnectFailed {down up done rest entry old error} (hplan : Planned bs node down up)
      (hsplit : down.reverse = done ++ entry :: rest)
      (hdone : done.foldlM (disconnectStep P bs) node.disconnecting = .ok old)
      (hfail : disconnectStep P bs old entry = .error error) :
      Activation P ord bs node
        (.returned { node with chainstate := old.chainstate } (.error error))
  | connectFailed {down up done rest entry old new error} (hplan : Planned bs node down up)
      (hsplit : up = done ++ entry :: rest) (hreach : Reaches P bs node down done old new)
      (hfail : connectStep P bs new entry = .error error) :
      Activation P ord bs node (abortConnect P ord bs node.headers node.headers.bestTip.1 up
        old.disconnectedBlocks new error)
  | finished {down up old new} (hplan : Planned bs node down up)
      (hreach : Reaches P bs node down up old new) :
      Activation P ord bs node (finish P ord node.headers node.chainstate.tip.1
        node.headers.bestTip.1 down.length old.disconnectedTxs new)

theorem reorganize_activation (hplan : Planned bs node down up) :
    Activation P ord bs node (reorganize P ord bs node node.headers.bestTip.1 down up) := by
  unfold reorganize
  rcases hold : foldUntil (disconnectStep P bs) ⟨node.chainstate, [], []⟩ down.reverse with
    ⟨old, _ | error⟩
  · simp only
    rw [foldUntil_eq_none] at hold
    rcases hnew : foldUntil (connectStep P bs) ⟨old.chainstate, node.mempool, [], 0⟩ up with
      ⟨new, _ | error⟩
    · exact .finished hplan ⟨hold, foldUntil_eq_none.mp hnew⟩
    · obtain ⟨done, entry, rest, hsplit, hdone, hfail⟩ := foldUntil_eq_some.mp hnew
      exact .connectFailed hplan hsplit ⟨hold, hdone⟩ hfail
  · obtain ⟨done, entry, rest, hsplit, hdone, hfail⟩ := foldUntil_eq_some.mp hold
    exact .disconnectFailed hplan hsplit hdone hfail

theorem activateBestChain_activation (P : Primitives) (ord : IterOrder) (bs : BlockStore)
    (node : Node) : Activation P ord bs node (activateBestChain P ord bs node) := by
  unfold activateBestChain
  by_cases hbest : node.headers.bestTip.1 = node.chainstate.tip.1
  · simp only [hbest, if_true]
    exact .alreadyBest
  · simp only [hbest, if_false]
    cases hpaths : findPaths node.headers node.chainstate.tip.1 node.chainstate.tip.2
        node.headers.bestTip.1 with
    | error e => exact .noPaths hpaths
    | ok paths =>
      by_cases hstored : missingBlocks bs paths.2 = []
      · simp only [hstored, ne_eq, not_true_eq_false, if_false]
        exact reorganize_activation ⟨hbest, hpaths, hstored⟩
      · simp only [hstored, ne_eq, not_false_eq_true, if_true]
        exact .needBlocks _

theorem Planned.activateBestChain (hplan : Planned bs node down up) :
    activateBestChain P ord bs node =
      reorganize P ord bs node node.headers.bestTip.1 down up := by
  simp only [Reorg.activateBestChain, hplan.ne, if_false, hplan.paths, hplan.stored, ne_eq,
    not_true_eq_false]

variable {node' : Node} {headers : HeaderStore} {new : Connecting}

variable {best : Hash256}

theorem finish_eq_returned {result : Except ReorgError ActivateResult} {active : Hash256}
    {count : ℕ} {txs : List Transaction}
    (h : finish P ord headers active best count txs new = .returned node' result) :
    node'.chainstate = new.chainstate ∧
      ((∃ e, headers.switchActiveChain ord best = .error e ∧ result = .error (.headers e)) ∨
        headers.switchActiveChain ord best = .ok node'.headers ∧
        node'.mempool = (new.mempool.readdDisconnectedTxs P ord txs new.chainstate).1 ∧
        result = .ok (.reorganized active best count new.connectedCount)) := by
  unfold finish at h
  cases hswitch : headers.switchActiveChain ord best with
  | error e =>
    rw [hswitch] at h
    cases h
    exact ⟨rfl, .inl ⟨e, rfl, rfl⟩⟩
  | ok headers' =>
    rw [hswitch] at h
    cases h
    exact ⟨rfl, .inr ⟨rfl, rfl, rfl⟩⟩

theorem abortConnect_eq_returned {result : Except ReorgError ActivateResult}
    {blocks : List (Hash256 × ℕ)} {error : ReorgError}
    (h : abortConnect P ord bs headers best up blocks new error = .returned node' result) :
    (∃ height e, error = .connect height e ∧ result = .error error ∧
      rollback P bs (up.take new.connectedCount) blocks new.chainstate =
        (node'.chainstate, none) ∧
      node'.headers = headers.markInvalid ord best ∧
      node'.mempool = (new.mempool.readdDisconnectedTxs P ord new.mempoolRemovedTxs
        node'.chainstate).1) ∨
    (∃ height e e', error = .connect height e ∧ result = .error (.load e') ∧
      rollback P bs (up.take new.connectedCount) blocks new.chainstate =
        (node'.chainstate, some (.load e'))) ∨
    (∀ height e, error ≠ .connect height e) ∧ result = .error error ∧
      node'.chainstate = new.chainstate := by
  unfold abortConnect at h
  split at h
  · next height e =>
    dsimp only at h
    split at h
    · next cs hroll =>
      cases h
      exact .inl ⟨height, e, rfl, rfl, hroll, rfl, rfl⟩
    · next cs e' hroll =>
      cases h
      exact .inr (.inl ⟨height, e, e', rfl, rfl, hroll⟩)
    · cases h
  · next hne =>
    cases h
    exact .inr (.inr ⟨hne, rfl, rfl⟩)

theorem findPaths_ne_connect {active : Hash256} {tipHeight : UInt32} {height : ℕ}
    {e : ConnectError} :
    findPaths headers active tipHeight best ≠ .error (.connect height e) := by
  have havoids : Avoids (fun error => error = .connect height e)
      (findPaths headers active tipHeight best) := by
    unfold findPaths
    refine (avoids_mapError (by simp)).bind fun _ _ => ?_
    refine (avoids_okOr (by simp)).bind fun _ _ => ?_
    refine (avoids_ensure (by simp)).bind fun _ _ => ?_
    refine (avoids_mapError (by simp)).bind fun _ _ => ?_
    refine (avoids_mapError (by simp)).bind fun _ _ => ?_
    exact (avoids_ensure (by simp)).bind fun _ _ => avoids_ok _
  exact fun h => havoids _ h rfl

theorem disconnectStep_ne_connect {st : Disconnecting} {entry : Hash256 × ℕ} {height : ℕ}
    {e : ConnectError} : disconnectStep P bs st entry ≠ .error (.connect height e) := by
  have havoids : Avoids (fun error => error = .connect height e)
      (disconnectStep P bs st entry) := by
    unfold disconnectStep disconnectEntry
    refine Avoids.bind ?_ fun _ _ => avoids_ok _
    refine (avoids_mapError (by simp)).bind fun _ _ => ?_
    exact (avoids_mapError (by simp)).bind fun _ _ => avoids_ok _
  exact fun h => havoids _ h rfl

theorem disconnectStep_map (st : Disconnecting) (e : Hash256 × ℕ) :
    (disconnectStep P bs st e).map Disconnecting.chainstate =
      disconnectNew P bs st.chainstate e := by
  unfold disconnectStep disconnectNew
  cases disconnectEntry P bs st.chainstate e <;> rfl

theorem connectStep_map (st : Connecting) (e : Hash256 × ℕ) :
    (connectStep P bs st e).map Connecting.chainstate = connectOld P bs st.chainstate e := by
  unfold connectStep connectOld
  cases connectEntry P bs st.chainstate e <;> rfl

variable {l : List (Hash256 × ℕ)}

theorem disconnectSteps_eq_ok {st st' : Disconnecting}
    (h : l.foldlM (disconnectStep P bs) st = .ok st') :
    l.foldlM (disconnectNew P bs) st.chainstate = .ok st'.chainstate ∧
      st'.disconnectedBlocks = st.disconnectedBlocks ++ l := by
  induction l generalizing st with
  | nil =>
    obtain rfl := foldlM_nil_eq_ok.mp h
    exact ⟨rfl, (List.append_nil _).symm⟩
  | cons e l ih =>
    obtain ⟨mid, hmid, h⟩ := foldlM_cons_eq_ok.mp h
    obtain ⟨hchain, hblocks⟩ := ih h
    simp only [disconnectStep, bind_eq_ok, pure_eq_ok] at hmid
    obtain ⟨r, hr, rfl⟩ := hmid
    refine ⟨foldlM_cons_eq_ok.mpr ⟨_, ?_, hchain⟩, ?_⟩
    · simp [disconnectNew, hr, Except.map]
    · simp [hblocks]

theorem connectSteps_eq_ok {st st' : Connecting} (h : l.foldlM (connectStep P bs) st = .ok st') :
    l.foldlM (connectOld P bs) st.chainstate = .ok st'.chainstate ∧
      st'.connectedCount = st.connectedCount + l.length := by
  induction l generalizing st with
  | nil =>
    obtain rfl := foldlM_nil_eq_ok.mp h
    exact ⟨rfl, rfl⟩
  | cons e l ih =>
    obtain ⟨mid, hmid, h⟩ := foldlM_cons_eq_ok.mp h
    obtain ⟨hchain, hcount⟩ := ih h
    simp only [connectStep, bind_eq_ok, pure_eq_ok] at hmid
    obtain ⟨r, hr, rfl⟩ := hmid
    refine ⟨foldlM_cons_eq_ok.mpr ⟨_, ?_, hchain⟩, ?_⟩
    · simp [connectOld, hr, Except.map]
    · simp only [List.length_cons] at hcount ⊢
      omega

end Ironcat.Reorg
