import Ironcat.Lib.FiniteMap
import Ironcat.Lib.Runs
import Ironcat.Types

/-!
# Peers and their connections

`nodes/mod.rs`: the table of known nodes, the tasks that hold a connection and
the background task that reclaims nodes. Every step takes the lock of the table
once, so that the steps of all tasks interleave as the locks allow. What the
network does (a dial, a write, a closed socket) is part of the event.
-/

namespace Ironcat.Peers

open Lib.ByteCodec Lib.FiniteMap

inductive IpAddr
  | v4 (bits : BitVec 32)
  | v6 (bits : BitVec 128)
deriving DecidableEq, Repr

namespace IpAddr

def octet (bits : BitVec 32) (i : ℕ) : ℕ := bits.toNat / 256 ^ (3 - i) % 256

def isLoopback : IpAddr → Bool
  | v4 bits => octet bits 0 = 127
  | v6 bits => bits = 1

def isRoutableV4 (bits : BitVec 32) : Bool :=
  let o := octet bits
  -- loopback, private, link-local, unspecified and broadcast
  ¬ (o 0 = 127 ∨ o 0 = 10 ∨ (o 0 = 172 ∧ 16 ≤ o 1 ∧ o 1 ≤ 31) ∨ (o 0 = 192 ∧ o 1 = 168) ∨
    (o 0 = 169 ∧ o 1 = 254) ∨ bits = 0 ∨ bits = 0xffffffff) ∧
  ¬ (o 0 = 100 ∧ o 1 &&& 0xC0 = 64) ∧
  ¬ (o 0 = 192 ∧ o 1 = 0 ∧ o 2 = 0) ∧
  ¬ (o 0 = 198 ∧ o 1 &&& 0xFE = 18) ∧
  ¬ (o 0 = 192 ∧ o 1 = 0 ∧ o 2 = 2) ∧
  ¬ (o 0 = 198 ∧ o 1 = 51 ∧ o 2 = 100) ∧
  ¬ (o 0 = 203 ∧ o 1 = 0 ∧ o 2 = 113)

def isRoutable : IpAddr → Bool
  | v4 bits => isRoutableV4 bits
  | v6 bits =>
    if bits = 1 ∨ bits = 0 then false
    else if bits.toNat / 2 ^ 32 = 0xffff then isRoutableV4 (BitVec.ofNat 32 bits.toNat)
    else
      let segment := bits.toNat / 2 ^ 112
      segment &&& 0xFFC0 ≠ 0xFE80 ∧ segment &&& 0xFE00 ≠ 0xFC00

end IpAddr

/-- The wall clock in seconds and the monotonic clock in nanoseconds. -/
structure Clock where
  unix : ℕ
  instant : ℕ

def secs (n : ℕ) : ℕ := n * 10 ^ 9

def maxRetryAttempts : ℕ := 10
def maxNodes : ℕ := 5000
def staleConnectingTimeout : ℕ := secs 300
def staleHandshakeTimeout : ℕ := secs 60
def maxExternalIpVotes : ℕ := 100
def maxIncomingConnections : ℕ := 125
def incomingIpCooldown : ℕ := secs 30
def banDurationSecs : ℕ := 24 * 60 * 60

inductive BanReason
  | protocolViolation
  | misbehavior
deriving DecidableEq, Repr

def banExpiresAt (created : ℕ) : ℕ := min (created + banDurationSecs) (2 ^ 64 - 1)

inductive NodeState
  | connecting (since : ℕ)
  | handshaking (since : ℕ)
  | connected (writer : ℕ)
  | disconnected (retryAt attempt : ℕ)
  | dead
  | banned (reason : BanReason) (created expires : ℕ)
deriving DecidableEq, Repr

namespace NodeState

def isConnectable (clock : Clock) : NodeState → Bool
  | disconnected retryAt _ => retryAt ≤ clock.instant
  | _ => false

def isConnected : NodeState → Bool
  | connected _ => true
  | _ => false

def isBanned (clock : Clock) : NodeState → Bool
  | banned _ _ expires => clock.unix < expires
  | _ => false

def isInactive : NodeState → Bool
  | disconnected _ _ | dead => true
  | _ => false

def isConnecting : NodeState → Bool
  | connecting _ => true
  | _ => false

def isHandshaking : NodeState → Bool
  | handshaking _ => true
  | _ => false

end NodeState

inductive ConnectionType
  | incoming
  | outgoing
deriving DecidableEq, Repr

structure Node where
  port : UInt16
  lastSeen : ℕ
  versionReceived : Bool
  connectionType : ConnectionType
  state : NodeState
  pendingExternalIp : Option IpAddr
deriving DecidableEq, Repr

def Node.new (port : UInt16) (connectionType : ConnectionType) (state : NodeState) : Node :=
  ⟨port, 0, false, connectionType, state, none⟩

structure NodeManager where
  nodes : Map IpAddr Node
  myNonce : UInt64
  externalIpVotes : Map IpAddr ℕ
  incomingCount : ℕ
  incomingCooldowns : Map IpAddr ℕ

namespace NodeManager

def new (myNonce : UInt64) : NodeManager := ⟨∅, myNonce, ∅, 0, ∅⟩

variable (clock : Clock) (mgr : NodeManager) (address : IpAddr)

def stateOf : Option NodeState :=
  (mgr.nodes.lookup address).map Node.state

/-- What is done under `nodes.get_mut(address)`. -/
def update (f : Node → Node) : NodeManager :=
  { mgr with nodes := modify mgr.nodes address f }

def setState (state : NodeState) : NodeManager :=
  mgr.update address fun node => { node with state }

def ban (reason : BanReason) : NodeManager :=
  mgr.setState address (.banned reason clock.unix (banExpiresAt clock.unix))

def updateLastSeen : NodeManager :=
  mgr.update address fun node => { node with lastSeen := clock.unix }

def tryInsertOrReactivate (port : UInt16) (connectionType : ConnectionType)
    (resetHandshake : Bool) : NodeManager × Bool :=
  if maxNodes ≤ mgr.nodes.keys.card then (mgr, false)
  else
    match mgr.nodes.lookup address with
    | some node =>
      if node.state.isInactive then
        let node := { node with port, connectionType }
        let node := if resetHandshake then
            { node with state := .handshaking clock.instant, versionReceived := false }
          else node
        ({ mgr with nodes := mgr.nodes.insert address node }, resetHandshake)
      else (mgr, false)
    | none =>
      let initialState : NodeState :=
        if resetHandshake then .handshaking clock.instant
        else
          match connectionType with
          | .outgoing => .connecting clock.instant
          | .incoming => .handshaking clock.instant
      ({ mgr with nodes := mgr.nodes.insert address (.new port connectionType initialState) }, true)

def insert (port : UInt16) (connectionType : ConnectionType) : NodeManager × Bool :=
  mgr.tryInsertOrReactivate clock address port connectionType false

/-- `get_external_ip` is this address. At most one has most of the votes. -/
def isExternalIp : Bool :=
  let total := (mgr.externalIpVotes.entries.map fun e => e.2).sum
  let votes := (mgr.externalIpVotes.lookup address).getD 0
  3 ≤ votes ∧ total < votes * 2

def insertIncoming (port : UInt16) : NodeManager × Bool :=
  if maxIncomingConnections ≤ mgr.incomingCount then (mgr, false)
  else if address.isLoopback ∨ mgr.isExternalIp address then (mgr, false)
  else if (mgr.incomingCooldowns.lookup address).any
      fun last => clock.instant - last < incomingIpCooldown then (mgr, false)
  else
    match mgr.tryInsertOrReactivate clock address port .incoming true with
    | (mgr, true) =>
      ({ mgr with
        incomingCount := mgr.incomingCount + 1
        incomingCooldowns := mgr.incomingCooldowns.insert address clock.instant }, true)
    | (mgr, false) => (mgr, false)

def recordExternalIpVote (ip : IpAddr) : NodeManager :=
  if ¬ ip.isRoutable then mgr
  else if maxExternalIpVotes ≤ mgr.externalIpVotes.keys.card then mgr
  else
    let count := (mgr.externalIpVotes.lookup ip).getD 0
    { mgr with externalIpVotes := mgr.externalIpVotes.insert ip (min (count + 1) (2 ^ 32 - 1)) }

def reviveIfNewer (port : UInt16) (timestamp : UInt32) : NodeManager × Bool :=
  match mgr.nodes.lookup address with
  | some node =>
    if node.state = .dead ∧ node.lastSeen < timestamp.toNat then
      let node := { node with
        state := .connecting clock.instant
        lastSeen := timestamp.toNat
        port }
      ({ mgr with nodes := mgr.nodes.insert address node }, true)
    else (mgr, false)
  | none => (mgr, false)

def shouldAttemptConnection : Bool :=
  (mgr.stateOf address).any fun state => state.isConnecting || state.isConnectable clock

def calculateBackoff (attempt random : ℕ) : ℕ :=
  let capped := min (30 * 2 ^ attempt) (30 * 60)
  let jitterRange := capped / 4
  let jitterWindow := jitterRange * 2
  let jitterOffset := if 0 < jitterWindow then random % jitterWindow else 0
  capped - jitterRange + jitterOffset

def scheduleRetry (attempt random : ℕ) : NodeManager :=
  let nextAttempt := min (attempt + 1) (2 ^ 32 - 1)
  if maxRetryAttempts ≤ nextAttempt then mgr.setState address .dead
  else
    mgr.setState address
      (.disconnected (clock.instant + secs (calculateBackoff nextAttempt random)) nextAttempt)

end NodeManager

/-- The fields of a version message that the handlers read. -/
structure MessageVersion where
  nonce : UInt64
  startHeight : Int32
  addrRecv : IpAddr
deriving DecidableEq, Repr

/-- `version none` does not parse; `malformed` has no readable command; `other`
stands for the commands that leave a node's state alone, with the result of the
handler. -/
inductive Message
  | version (payload : Option MessageVersion)
  | verack
  | ping (payload : Bytes)
  | other (handled : Bool)
  | malformed
deriving DecidableEq, Repr

inductive LoopPhase
  | reading
  | replying (version : MessageVersion) (isIncoming : Bool)
  | closed
deriving DecidableEq, Repr

namespace NodeManager

variable (clock : Clock) (mgr : NodeManager) (address : IpAddr)

def proceed (ok : Bool) : LoopPhase := if ok then .reading else .closed

/-- `handle_version` up to the reply. -/
def handleVersion : Option MessageVersion → NodeManager × LoopPhase
  | none => (mgr, .closed)
  | some version =>
    match mgr.nodes.lookup address with
    | none => (mgr, .closed)
    | some node =>
      if node.versionReceived then (mgr.ban clock address .protocolViolation, .closed)
      else if version.nonce = mgr.myNonce then (mgr.ban clock address .protocolViolation, .closed)
      else (mgr, .replying version (node.connectionType = .incoming))

/-- `handle_version` from the reply on. -/
def finishVersion (version : MessageVersion) (isIncoming sentVersion sentVerack : Bool) :
    NodeManager × LoopPhase :=
  if isIncoming ∧ ¬ sentVersion then (mgr, .closed)
  else if version.startHeight < 0 then (mgr.ban clock address .misbehavior, .closed)
  else
    match mgr.nodes.lookup address with
    | none => (mgr, .closed)
    | some node =>
      if node.state.isHandshaking then
        (mgr.update address fun node =>
          { node with versionReceived := true, pendingExternalIp := some version.addrRecv },
          proceed sentVerack)
      else (mgr, .closed)

def handleVerack (writer : ℕ) (sent : Bool) : NodeManager × LoopPhase :=
  match mgr.nodes.lookup address with
  | none => (mgr, .closed)
  | some node =>
    if ¬ node.versionReceived then (mgr.ban clock address .protocolViolation, .closed)
    else
      let mgr := mgr.update address fun node =>
        { node with state := .connected writer, pendingExternalIp := none }
      match node.pendingExternalIp with
      | some ip => (mgr.recordExternalIpVote ip, proceed sent)
      | none => (mgr, proceed sent)

def handlePing (payload : Bytes) (sent : Bool) : NodeManager × LoopPhase :=
  if payload = [] then (mgr, .reading)
  else if payload.length ≠ 8 then (mgr.ban clock address .misbehavior, .closed)
  else (mgr, proceed sent)

def parseIncomingMessage (writer : ℕ) (message : Message) (sent : Bool) : NodeManager × LoopPhase :=
  let isConnected := (mgr.stateOf address).any NodeState.isConnected
  match message with
  | .malformed => (mgr, .closed)
  | .version payload => mgr.handleVersion clock address payload
  | .verack => mgr.handleVerack clock address writer sent
  | .ping payload =>
    if isConnected then mgr.handlePing clock address payload sent else (mgr, .reading)
  | .other handled => if isConnected then (mgr, proceed handled) else (mgr, .reading)

end NodeManager

/-- `starting` to `retrying` are the stages of `handle_node_connection`;
`incoming` is the task of an accepted socket. -/
inductive Task
  | starting (attempt : ℕ)
  | dialing (attempt : ℕ)
  | greeting (attempt : ℕ)
  | outgoing (attempt : ℕ) (phase : LoopPhase)
  | retrying (attempt : ℕ)
  | incoming (phase : LoopPhase)
deriving DecidableEq, Repr

inductive TaskEvent
  | started
  | dialed (connected : Bool) (random : ℕ)
  | greeted (sent : Bool) (random : ℕ)
  | received (message : Message) (sent : Bool)
  | replied (sentVersion sentVerack : Bool)
  | closed
  | finished
  | retried (random : ℕ)
deriving DecidableEq, Repr

structure Reaper where
  readyNodes : List (IpAddr × ℕ)
  staleNodes : List IpAddr
  expiredBans : List IpAddr

structure System where
  manager : NodeManager
  tasks : Map ℕ (IpAddr × Task)
  nextTask : ℕ
  reaper : Reaper
  clock : Clock

structure SavedPeer where
  ip : IpAddr
  port : UInt16
  lastSeen : ℕ

structure PeerDb where
  version : ℕ
  peers : List SavedPeer

namespace System

def start (myNonce : UInt64) (clock : Clock) : System :=
  ⟨.new myNonce, ∅, 0, ⟨[], [], []⟩, clock⟩

section

variable (s : System)

def spawn (address : IpAddr) (task : Task) : System :=
  { s with tasks := s.tasks.insert s.nextTask (address, task), nextTask := s.nextTask + 1 }

def setTask (id : ℕ) (address : IpAddr) (task : Task) : System :=
  { s with tasks := s.tasks.insert id (address, task) }

def endTask (id : ℕ) : System := { s with tasks := s.tasks.erase id }

def spawnIf (inserted : NodeManager × Bool) (address : IpAddr) (task : Task) : System :=
  let s := { s with manager := inserted.1 }
  if inserted.2 then s.spawn address task else s

def loadPeer (peer : SavedPeer) : System :=
  let inserted := s.manager.insert s.clock peer.ip peer.port .outgoing
  let manager := if inserted.2 then
      inserted.1.update peer.ip fun node => { node with lastSeen := peer.lastSeen }
    else inserted.1
  s.spawnIf (manager, inserted.2) peer.ip (.starting 0)

def loadSavedPeers (db : PeerDb) : System :=
  if db.version ≠ 1 then s else db.peers.foldl loadPeer s

/-- The scan of `run_reaper` at one entry. -/
def scan (address : IpAddr) : System :=
  match s.manager.stateOf address with
  | some (.disconnected retryAt attempt) =>
    if retryAt ≤ s.clock.instant then
      { s with reaper.readyNodes := s.reaper.readyNodes ++ [(address, attempt)] }
    else s
  | some (.connecting since) =>
    if staleConnectingTimeout < s.clock.instant - since then
      { s with reaper.staleNodes := s.reaper.staleNodes ++ [address] }
    else s
  | some (.handshaking since) =>
    if staleHandshakeTimeout < s.clock.instant - since then
      { s with reaper.staleNodes := s.reaper.staleNodes ++ [address] }
    else s
  | some (.banned _ _ expires) =>
    if s.clock.unix < expires then s
    else { s with reaper.expiredBans := s.reaper.expiredBans ++ [address] }
  | _ => s

def reapReady (address : IpAddr) (attempt : ℕ) : System :=
  if (s.manager.stateOf address).any (NodeState.isConnectable s.clock) then
    s.spawnIf (s.manager.setState address (.connecting s.clock.instant), true) address
      (.starting attempt)
  else s

def reapStale (address : IpAddr) : System :=
  if (s.manager.stateOf address).any fun state => state.isConnecting || state.isHandshaking then
    { s with manager := s.manager.setState address (.disconnected s.clock.instant 0) }
  else s

def reapBan (address : IpAddr) : System :=
  match s.manager.stateOf address with
  | some (.banned reason created expires) =>
    if (NodeState.banned reason created expires).isBanned s.clock then s
    else { s with manager := s.manager.setState address .dead }
  | _ => s

def reap : System :=
  match s.reaper with
  | ⟨(address, attempt) :: ready, stale, expired⟩ =>
    { s with reaper := ⟨ready, stale, expired⟩ }.reapReady address attempt
  | ⟨[], address :: stale, expired⟩ => { s with reaper := ⟨[], stale, expired⟩ }.reapStale address
  | ⟨[], [], address :: expired⟩ => { s with reaper := ⟨[], [], expired⟩ }.reapBan address
  | ⟨[], [], []⟩ => s

/-- The end of a pass: votes for addresses that are no connected peer and old
cooldowns are dropped. -/
def evict : System :=
  { s with
    manager.externalIpVotes := retain s.manager.externalIpVotes fun ip _ =>
      (s.manager.stateOf ip).any NodeState.isConnected
    manager.incomingCooldowns := retain s.manager.incomingCooldowns fun _ instant =>
      s.clock.instant - instant < incomingIpCooldown * 2 }

/-- `node_connection_loop`. -/
def loopStep (clock : Clock) (mgr : NodeManager) (address : IpAddr) (id : ℕ) :
    LoopPhase → TaskEvent → NodeManager × LoopPhase
  | .reading, .received message sent =>
    (mgr.updateLastSeen clock address).parseIncomingMessage clock address id message sent
  | .replying version isIncoming, .replied sentVersion sentVerack =>
    mgr.finishVersion clock address version isIncoming sentVersion sentVerack
  | .reading, .closed => (mgr, .closed)
  | phase, _ => (mgr, phase)

def retry (id : ℕ) (address : IpAddr) (attempt random : ℕ) : System :=
  { s with manager := s.manager.scheduleRetry s.clock address attempt random }.endTask id

def taskStep (id : ℕ) (address : IpAddr) : Task → TaskEvent → System
  | .starting attempt, .started =>
    if s.manager.shouldAttemptConnection s.clock address then
      s.setTask id address (.dialing attempt)
    else s.endTask id
  | .dialing attempt, .dialed true _ =>
    { s with manager := s.manager.update address fun node =>
        { node with state := .handshaking s.clock.instant, versionReceived := false } }.setTask
      id address (.greeting attempt)
  | .dialing attempt, .dialed false random => s.retry id address attempt random
  | .greeting attempt, .greeted true _ => s.setTask id address (.outgoing attempt .reading)
  | .greeting attempt, .greeted false random => s.retry id address attempt random
  | .outgoing attempt .closed, .finished =>
    if (s.manager.stateOf address).any (NodeState.isBanned s.clock) then s.endTask id
    else s.setTask id address (.retrying attempt)
  | .outgoing attempt phase, event =>
    let (manager, phase) := loopStep s.clock s.manager address id phase event
    { s with manager }.setTask id address (.outgoing attempt phase)
  | .retrying attempt, .retried random => s.retry id address attempt random
  | .incoming .closed, .finished =>
    let manager := s.manager.setState address .dead
    { s with manager := { manager with incomingCount := manager.incomingCount - 1 } }.endTask id
  | .incoming phase, event =>
    let (manager, phase) := loopStep s.clock s.manager address id phase event
    { s with manager }.setTask id address (.incoming phase)
  | _, _ => s

end

end System

inductive Event
  | advance (unix instant : ℕ)
  | insert (address : IpAddr) (port : UInt16) (connectionType : ConnectionType)
  | insertOutgoing (address : IpAddr) (port : UInt16)
  | insertIncoming (address : IpAddr) (port : UInt16)
  | reviveIfNewer (address : IpAddr) (port : UInt16) (timestamp : UInt32)
  | loadSavedPeers (db : PeerDb)
  | scan (address : IpAddr)
  | reap
  | evict
  | task (id : ℕ) (event : TaskEvent)

def step (s : System) : Event → System
  | .advance unix instant =>
    { s with clock := ⟨s.clock.unix + unix, s.clock.instant + instant⟩ }
  | .insert address port connectionType =>
    { s with manager := (s.manager.insert s.clock address port connectionType).1 }
  | .insertOutgoing address port =>
    s.spawnIf (s.manager.insert s.clock address port .outgoing) address (.starting 0)
  | .insertIncoming address port =>
    s.spawnIf (s.manager.insertIncoming s.clock address port) address (.incoming .reading)
  | .reviveIfNewer address port timestamp =>
    s.spawnIf (s.manager.reviveIfNewer s.clock address port timestamp) address (.starting 0)
  | .loadSavedPeers db => s.loadSavedPeers db
  | .scan address => s.scan address
  | .reap => s.reap
  | .evict => s.evict
  | .task id event =>
    match s.tasks.lookup id with
    | some (address, task) => s.taskStep id address task event
    | none => s

end Ironcat.Peers
