import Ironcat.BlockDownload
import Ironcat.HeaderDepth

/-!
# The tasks of a node

The events that reach the download manager, the reorg coordinator and the
header store, in any order: each is one step of the system. A reorg notifies
the manager through a channel that is read at a later event.
-/

namespace Ironcat.NodeEvents

open Lib.ByteCodec Types BlockWire BlockFiles
open StoredBytes Headers HeaderTree HeaderDepth Mempool Reorg
open BlockDownload

def isInIbd (node : Node) : Bool := 1000 < node.headers.height - node.chainstate.tip.2.toNat

/-- `try_activate_best_chain` once it has its locks. A call that ends the process
leaves a state from which no further event comes; it is kept as the others are. -/
def activate (P : Primitives) (ord : IterOrder) (s : System) : System :=
  let outcome := activateBestChain P ord s.blocks.reader s.node
  let node := outcome.node
  match outcome.result with
  | some (.reorganized _ _ _ _) =>
    let newHeight := node.chainstate.tip.2.toNat
    { s with
      node := { node with headers := node.headers.purgeStaleForks ord newHeight }
      notices := s.notices ++ [newHeight] }
  | _ => { s with node }

def tryActivateBestChain (P : Primitives) (ord : IterOrder) (mempoolLocked : Bool) (s : System) :
    System :=
  if isInIbd s.node then s
  else if s.node.headers.bestTip.1 = s.node.chainstate.tip.1 then s
  else if mempoolLocked then s
  else activate P ord s

def setHeaders (hs : HeaderStore) (s : System) : System :=
  { s with node := { s.node with headers := hs } }

def refreshChainCache (s : System) : System :=
  { s with
    cachedHeight := s.node.headers.height
    cachedTipBits := s.node.headers.tipBits }

def persistHeaders (batch : List (Hash256 × StoredHeader)) (s : System) : System :=
  setHeaders (s.node.headers.persistBatch batch) s

/-- `handle_headers`. A message whose batch is refused does not get past
`is_in_ibd`, which waits for the lock that the handler holds; it changes nothing. -/
def receiveHeaders (P : Primitives) (s : System) (headers : List BlockHeader) : System :=
  if headers = [] then s
  else
    match s.node.headers.validateAndCommit P headers with
    | .ok (hs, batch) =>
      let s' := setHeaders hs s
      if batch = [] then s' else persistHeaders batch (refreshChainCache s')
    | .error _ => s

inductive Event
  | fillWindow (peers : Peers)
  | block (amb : Ambient) (payload : Bytes)
  | disconnected (peer : Peer)
  | timeoutScan (strikes : Strikes)
  | reorgNotice
  | flush (amb : Ambient)
  | catchUp (amb : Ambient)
  | headers (headers : List BlockHeader)
  | activate (ord : IterOrder) (mempoolLocked : Bool)
  | mempool (pool : Pool)

/-- The headers an event brings. -/
def Event.given : Event → List BlockHeader
  | .block _ payload => ((readHeader payload).map Prod.fst).toList
  | .headers batch => batch
  | _ => []

def step (P : Primitives) (s : System) : Event → System
  | .fillWindow peers =>
    { s with download := s.download.fillWindow s.node.headers s.cachedHeight peers }
  | .block amb payload => s.handleBlock P amb payload
  | .disconnected peer => { s with download := s.download.handlePeerDisconnect peer }
  | .timeoutScan strikes => { s with download := s.download.handleTimeoutScan strikes }
  | .reorgNotice =>
    match s.notices with
    | [] => s
    | newTipHeight :: notices =>
      { s with download := s.download.handleReorg newTipHeight, notices }
  | .flush amb => s.flushStore amb
  | .catchUp amb => s.catchUpChainstate P amb
  | .headers batch => receiveHeaders P s batch
  | .activate ord mempoolLocked => tryActivateBestChain P ord mempoolLocked s
  | .mempool pool => { s with node := { s.node with mempool := pool } }

/-- A node whose tasks start: the index of the block store may fail to be read. -/
def start (node : Node) (blocks : BlockWriter) (indexRead : Bool) : System where
  node := node
  blocks := blocks
  cachedHeight := node.headers.height
  cachedTipBits := node.headers.tipBits
  download := Download.new (if indexRead then some blocks.index else none) node.chainstate
  notices := []

variable {P : Primitives} {genesis : BlockHeader} {H : Set BlockHeader} {s s' : System}

def headerView (s : System) : HeaderStore × ℕ × UInt32 :=
  (s.node.headers, s.cachedHeight, s.cachedTipBits)

theorem headerView_connected {hash : Hash256} {block : Block} {height : ℕ}
    (h : ConnectedTo P s s' hash block height) : headerView s' = headerView s := by
  unfold headerView
  rw [h.headers, h.cachedHeight, h.cachedTipBits]

theorem headerView_drainPending (P : Primitives) (amb : Ambient) (fuel : ℕ) (s : System) :
    headerView (s.drainPending P amb fuel) = headerView s :=
  drainPending_rule (fun t => headerView t = headerView s)
    (fun _ _ _ h _ hconn => (headerView_connected hconn).trans h) (fun _ h => h) fuel rfl

theorem headerView_received {amb : Ambient} {hash : Hash256} {rawBytes : Bytes}
    (hrec : Received P amb s hash rawBytes s') : headerView s' = headerView s := by
  cases hrec with
  | ignored | rejected | buffered => rfl
  | connected _ _ _ hconn =>
    have hview := headerView_connected hconn
    exact (headerView_drainPending _ _ _ _).trans hview
  | late =>
    obtain ⟨_, _, _, hstore⟩ := storeBlockData_eq amb (s.dropInFlight hash) hash rawBytes
    rw [hstore]
    rfl

section

variable (P : Primitives) (amb : Ambient) (s : System) (payload : Bytes)

theorem headerView_handleBlock : headerView (s.handleBlock P amb payload) = headerView s := by
  unfold System.handleBlock
  split
  · rfl
  · exact headerView_received (handleReceivedBlock_received P amb s _ payload)

theorem headerView_catchUpChainstate : headerView (s.catchUpChainstate P amb) = headerView s := by
  have hloop : ∀ fuel, headerView (s.catchUpLoop P fuel) = headerView s := fun fuel =>
    KeptByCatchUp.loop (I := fun t => headerView t = headerView s)
      (fun _ _ _ _ h _ _ hconn _ => (headerView_connected hconn).trans h) fuel rfl
  unfold System.catchUpChainstate
  dsimp only
  split_ifs <;> exact hloop _

theorem handleBlock_headers : (s.handleBlock P amb payload).node.headers = s.node.headers :=
  congrArg Prod.fst (headerView_handleBlock P amb s payload)

theorem catchUpChainstate_headers : (s.catchUpChainstate P amb).node.headers = s.node.headers :=
  congrArg Prod.fst (headerView_catchUpChainstate P amb s)

theorem activateBestChain_headers (ord : IterOrder) (bs : BlockStore) (node : Node) :
    (activateBestChain P ord bs node).node.headers = node.headers ∨
    (∃ hash, (activateBestChain P ord bs node).node.headers = node.headers.markInvalid ord hash) ∨
    node.headers.switchActiveChain ord node.headers.bestTip.1 =
      .ok (activateBestChain P ord bs node).node.headers ∧
      ∃ oldTip newTip disconnected connected, (activateBestChain P ord bs node).result =
        some (.reorganized oldTip newTip disconnected connected) := by
  have hact := activateBestChain_activation P ord bs node
  generalize activateBestChain P ord bs node = out at hact
  cases hact with
  | alreadyBest | noPaths | needBlocks | disconnectFailed => exact .inl rfl
  | connectFailed =>
    unfold abortConnect
    split
    · dsimp only
      split
      · exact .inr (.inl ⟨_, rfl⟩)
      · exact .inl rfl
      · exact .inl rfl
    · exact .inl rfl
  | finished =>
    unfold finish
    cases hswitch : node.headers.switchActiveChain ord node.headers.bestTip.1 with
    | error e => exact .inl rfl
    | ok headers => exact .inr (.inr ⟨rfl, _, _, _, _, rfl⟩)

end

theorem placed_activate (hinj : HashInjOn P H) (ord : IterOrder)
    (mempoolLocked : Bool) (h : Placed P genesis H s.node.headers) :
    Placed P genesis H (tryActivateBestChain P ord mempoolLocked s).node.headers := by
  have hout : Placed P genesis H
      (activateBestChain P ord s.blocks.reader s.node).node.headers := by
    rcases activateBestChain_headers P ord s.blocks.reader s.node with
      heq | ⟨hash, heq⟩ | ⟨hswitch, _⟩
    · exact heq.symm ▸ h
    · exact heq.symm ▸ h.markInvalid ord hash
    · exact h.switchActiveChain hinj hswitch
  unfold tryActivateBestChain
  split_ifs
  · exact h
  · exact h
  · exact h
  · unfold activate
    dsimp only
    split
    · exact hout.purgeStaleForks ord _
    · exact hout

theorem receiveHeaders_eq (P : Primitives) (s : System) (headers : List BlockHeader) :
    ∃ hs height bits, receiveHeaders P s headers =
      { setHeaders hs s with cachedHeight := height, cachedTipBits := bits } := by
  unfold receiveHeaders
  by_cases hempty : headers = []
  · exact ⟨s.node.headers, s.cachedHeight, s.cachedTipBits, by rw [if_pos hempty]; rfl⟩
  · rw [if_neg hempty]
    split
    · dsimp only
      split_ifs
      · exact ⟨_, s.cachedHeight, s.cachedTipBits, rfl⟩
      · exact ⟨_, _, _, rfl⟩
    · exact ⟨s.node.headers, s.cachedHeight, s.cachedTipBits, rfl⟩

theorem placed_receiveHeaders (hinj : HashInjOn P H)
    {headers : List BlockHeader} (hsub : ∀ header ∈ headers, header ∈ H)
    (h : Placed P genesis H s.node.headers) :
    Placed P genesis H (receiveHeaders P s headers).node.headers := by
  unfold receiveHeaders
  by_cases hempty : headers = []
  · simpa only [hempty, if_true] using h
  · simp only [hempty, if_false]
    split
    · next hs batch hok =>
      have hins := h.inserts
        (validateAndCommit_inserts h.trunk (hinj.mono fun a ha => hsub a ha) hok) hsub
      split_ifs
      · exact hins
      · unfold persistHeaders
        rw [persistBatch_eq]
        exact hins.of_same rfl rfl rfl
    · exact h

theorem placed_step (hinj : HashInjOn P H) {event : Event}
    (hsub : ∀ header ∈ event.given, header ∈ H) (h : Placed P genesis H s.node.headers) :
    Placed P genesis H (step P s event).node.headers := by
  cases event with
  | fillWindow | disconnected | timeoutScan | flush | mempool => exact h
  | block amb payload => exact (handleBlock_headers P amb s payload).symm ▸ h
  | reorgNotice =>
    simp only [step]
    split <;> exact h
  | catchUp amb => exact (catchUpChainstate_headers P amb s).symm ▸ h
  | headers batch => exact placed_receiveHeaders hinj hsub h
  | activate ord mempoolLocked => exact placed_activate hinj ord mempoolLocked h

end Ironcat.NodeEvents
