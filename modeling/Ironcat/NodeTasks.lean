import Ironcat.NodeEvents

/-!
# The calls of a reorg and of the download manager, interleaved

The manager and the reorg coordinator run on threads of their own and share the
chainstate without a lock around it: between two calls of one of them the other
may make its own. Each `connect_block` and `disconnect_block` is one database
transaction, and one move here. A running reorg keeps the locks of the header
store and of the mempool; what it reads before its loops is read in one move.
-/

namespace Ironcat.NodeTasks

open Lib.ByteCodec Types BlockWire
open Reorg BlockDownload NodeEvents

/-- The loop that `activate_best_chain` is in, with the entries it has yet to take;
the last two are those of `rollback`. -/
inductive Phase
  | disconnecting (rest : List (Hash256 × ℕ))
  | connecting (rest : List (Hash256 × ℕ))
  | undoing (rest : List (Hash256 × ℕ))
  | restoring (rest : List (Hash256 × ℕ))

/-- A running `activate_best_chain` with its local variables. -/
structure ReorgTask where
  ord : IterOrder
  bestHash : Hash256
  connectPath : List (Hash256 × ℕ)
  disconnectedTxs : List Transaction
  disconnectedBlocks : List (Hash256 × ℕ)
  mempoolRemovedTxs : List Transaction
  connectedCount : ℕ
  phase : Phase

/-- What the manager is in the middle of. -/
inductive ManagerTask
  | idle
  | connecting (hash : Hash256) (block : Block) (rawBytes : Bytes) (height : ℕ)
  | draining
  | catchingUp (connected : Bool) (hashes : List (ℕ × Hash256))

def ManagerTask.isIdle : ManagerTask → Bool
  | .idle => true
  | _ => false

/-- Whether the next call of the manager is `connect_block`. -/
def ManagerTask.connects : ManagerTask → Bool
  | .connecting _ _ _ _ | .catchingUp _ (_ :: _) => true
  | _ => false

/-- Whether it connects blocks from the block store. -/
def ManagerTask.loads : ManagerTask → Bool
  | .catchingUp _ (_ :: _) => true
  | _ => false

/-- A `connect_block` that returned `Ok`: the chainstate tip before it, whether
the header store knew that tip, and the block. -/
structure Connect where
  known : Bool
  tip : Hash256
  block : Block

/-- The journal lists the blocks connected so far and is read by no function. -/
structure Tasks where
  sys : System
  reorg : Option ReorgTask
  manager : ManagerTask
  journal : List Connect

namespace Tasks

def idle (sys : System) : Tasks := ⟨sys, none, .idle, []⟩

section

variable (P : Primitives) (t : Tasks) (r : ReorgTask)

def record (block : Block) : Tasks :=
  let tip := t.sys.node.chainstate.tip.1
  { t with journal := t.journal ++ [⟨(t.sys.node.headers.get tip).isSome, tip, block⟩] }

def setManager (manager : ManagerTask) : Tasks := { t with manager }

def setPhase (phase : Phase) : Tasks :=
  { t with reorg := some { r with phase } }

def endReorg : Tasks := { t with reorg := none }

/-- `handle_block`, until the manager calls `connect_and_store` or is done. -/
def beginBlock (amb : Ambient) (t : Tasks) (payload : Bytes) : Tasks :=
  match readHeader payload with
  | none => t
  | some (header, _) =>
    let hash := header.blockHash P
    match t.sys.admitBlock P amb hash payload with
    | (none, sys) => { t with sys }
    | (some (block, height), sys) => { t with sys, manager := .connecting hash block payload height }

/-- `try_activate_best_chain`, until the first loop of `activate_best_chain`. -/
def beginActivate (ord : IterOrder) (mempoolLocked : Bool) (t : Tasks) : Tasks :=
  let node := t.sys.node
  let bestHash := node.headers.bestTip.1
  if isInIbd node then t
  else if bestHash = node.chainstate.tip.1 then t
  else if mempoolLocked then t
  else
    match findPaths node.headers node.chainstate.tip.1 node.chainstate.tip.2 bestHash with
    | .error _ => t
    | .ok (disconnectPath, connectPath) =>
      if missingBlocks t.sys.blocks.reader connectPath ≠ [] then t
      else
        let task := ⟨ord, bestHash, connectPath, [], [], [], 0, .disconnecting disconnectPath.reverse⟩
        { t with reorg := some task }

def begin : Event → Tasks
  | .block amb payload => t.beginBlock P amb payload
  | .catchUp _ => t.setManager (.catchingUp false [])
  | .activate ord mempoolLocked => t.beginActivate ord mempoolLocked
  | event => { t with sys := NodeEvents.step P t.sys event }

def endCatchUp (amb : Ambient) (connected : Bool) (t : Tasks) : Tasks :=
  { t with sys := if connected then t.sys.flushStore amb else t.sys, manager := .idle }

/-- The next call of the manager. `drain_pending` hands a buffered block to
`connect_and_store` as `handle_received_block` does a received one. -/
def managerStep (amb : Ambient) (t : Tasks) : Tasks :=
  match t.manager with
  | .idle => t
  | .connecting hash block rawBytes height =>
    match t.sys.connectAndStore P amb hash block rawBytes height with
    | (true, sys) => { t.record block with sys, manager := .draining }
    | (false, sys) => { t with sys := sys.scheduleRedownload height, manager := .idle }
  | .draining =>
    let height := t.sys.download.nextConnectHeight
    match t.sys.download.pendingBlocks.lookup height with
    | none => t.setManager .idle
    | some e =>
      { t with
        sys := t.sys.dropPending height
        manager := .connecting e.hash e.block e.rawBytes height }
  | .catchingUp connected [] =>
    let next := t.sys.download.nextConnectHeight
    if t.sys.cachedHeight < next then t.endCatchUp amb connected
    else
      match hashesInRange t.sys.node.headers next
        (min (next + scanBatchSize) (t.sys.cachedHeight + 1)) with
      | [] => t.endCatchUp amb connected
      | e :: hashes => t.setManager (.catchingUp connected (e :: hashes))
  | .catchingUp connected (e :: hashes) =>
    match t.sys.catchUpBlock P e, t.sys.blocks.reader.loadAndDeserialize e.2 with
    | .ok sys, .ok block => { t.record block with sys, manager := .catchingUp true hashes }
    | _, _ => t.endCatchUp amb connected

/-- The next call of `activate_best_chain` or of `rollback`. A rollback that fails
ends the process; the state it leaves is kept. -/
def reorgStep : Tasks :=
  let bs := t.sys.blocks.reader
  let node := t.sys.node
  match r.phase with
  | .disconnecting (e :: rest) =>
    match disconnectStep P bs ⟨node.chainstate, r.disconnectedTxs, r.disconnectedBlocks⟩ e with
    | .error _ => t.endReorg
    | .ok st =>
      { t with
        sys := t.sys.setChainstate st.chainstate
        reorg := some { r with
          disconnectedTxs := st.disconnectedTxs
          disconnectedBlocks := st.disconnectedBlocks
          phase := .disconnecting rest } }
  | .disconnecting [] => t.setPhase r (.connecting r.connectPath)
  | .connecting (e :: rest) =>
    match connectEntry P bs node.chainstate e with
    | .error (.connect _ _) =>
      t.setPhase r (.undoing (r.connectPath.take r.connectedCount).reverse)
    | .error _ => t.endReorg
    | .ok (cs, block) =>
      let removed := block.transactions.filter fun tx =>
        !tx.isCoinbase && node.mempool.contains (tx.txid P)
      { t.record block with
        sys := { t.sys with node := ⟨node.headers, cs, node.mempool.removeBlockTxs P block⟩ }
        reorg := some { r with
          mempoolRemovedTxs := r.mempoolRemovedTxs ++ removed
          connectedCount := r.connectedCount + 1
          phase := .connecting rest } }
  | .connecting [] =>
    match node.headers.switchActiveChain r.ord r.bestHash with
    | .error _ => t.endReorg
    | .ok headers =>
      let (mempool, _) := node.mempool.readdDisconnectedTxs P r.ord r.disconnectedTxs node.chainstate
      let newHeight := node.chainstate.tip.2.toNat
      { t with
        sys := { t.sys with
          node := ⟨headers.purgeStaleForks r.ord newHeight, node.chainstate, mempool⟩
          notices := t.sys.notices ++ [newHeight] }
        reorg := none }
  | .undoing (e :: rest) =>
    match disconnectNew P bs node.chainstate e with
    | .error _ => t.endReorg
    | .ok cs => { t with sys := t.sys.setChainstate cs }.setPhase r (.undoing rest)
  | .undoing [] => t.setPhase r (.restoring r.disconnectedBlocks.reverse)
  | .restoring (e :: rest) =>
    match connectEntry P bs node.chainstate e with
    | .error _ => t.endReorg
    | .ok (cs, block) =>
      { t.record block with sys := t.sys.setChainstate cs }.setPhase r (.restoring rest)
  | .restoring [] =>
    let (mempool, _) := node.mempool.readdDisconnectedTxs P r.ord r.mempoolRemovedTxs node.chainstate
    { t with
      sys := { t.sys with
        node := ⟨node.headers.markInvalid r.ord r.bestHash, node.chainstate, mempool⟩ }
      reorg := none }

end

end Tasks

/-- The events that the manager takes from its channels one after the other. -/
def ofManager : Event → Bool
  | .headers _ | .activate _ _ | .mempool _ => false
  | _ => true

/-- The events that wait for a lock a running reorg holds. The manager reads the
headers for some of the blocks it receives; letting it through adds interleavings. -/
def waitsForReorg : Event → Bool
  | .fillWindow _ | .headers _ | .activate _ _ | .mempool _ => true
  | _ => false

def Tasks.waits (t : Tasks) (event : Event) : Bool :=
  (ofManager event && !t.manager.isIdle) || (waitsForReorg event && t.reorg.isSome)

inductive Move
  | event (event : Event)
  | manager (amb : Ambient)
  | reorg

def Move.given : Move → List BlockHeader
  | .event e => e.given
  | _ => []

/-- One move of the node. An event that has to wait comes again later. -/
def Tasks.step (P : Primitives) (t : Tasks) : Move → Tasks
  | .event event => if t.waits event then t else t.begin P event
  | .manager amb => t.managerStep P amb
  | .reorg =>
    match t.reorg with
    | none => t
    | some r => t.reorgStep P r

end Ironcat.NodeTasks
