import Ironcat.BlockContext
import Ironcat.Reorg
import Ironcat.StoredBytes

/-!
# The block download manager

`nodes/block_download.rs`: the sliding window of requests, the buffer of blocks
that arrived early and the connection of blocks in order, together with what
the manager shares with the other tasks. Heights are taken to stay below the
largest `u32`. What the manager reads from outside at one event is an argument
of the event: the clock, the lock on the mempool, the peers and the faults of
the disk.
-/

namespace Ironcat.BlockDownload

open Lib.ByteCodec Lib.Checked Lib.EarlyExit Lib.FiniteMap Lib.FlatFile Types Validation BlockWire
open BlockFiles BlockContext StoredBytes Chainstate Headers Reorg

def windowSize : ℕ := 512

def perPeerLimit : ℕ := 48

def requestTimeout : ℕ := 10000

def flushInterval : ℕ := 500

def scanBatchSize : ℕ := 4096

def refillThreshold : ℕ := windowSize / 4

def maxPendingBlocks : ℕ := windowSize * 2

abbrev Peer := ℕ

structure InFlightEntry where
  peer : Peer
  requestedAt : ℕ
  height : ℕ
deriving DecidableEq, Repr

structure PendingBlock where
  hash : Hash256
  block : Block
  rawBytes : Bytes

structure Download where
  inFlight : Map Hash256 InFlightEntry
  nextHeight : ℕ
  storedHashes : Finset Hash256
  pendingBlocks : Map ℕ PendingBlock
  nextConnectHeight : ℕ
  blocksSinceFlush : ℕ

/-- The manager and what it shares with the other tasks. `notices` is the
channel of reorg notifications. -/
structure System where
  node : Node
  blocks : BlockWriter
  cachedHeight : ℕ
  cachedTipBits : UInt32
  download : Download
  notices : List ℕ

/-- What one event finds outside: the Unix time if the clock is past the epoch,
for each block whether the mempool is locked while it is connected and how its
write fails, and whether a flush fails. -/
structure Ambient where
  adjustedTime : Option UInt32
  mempoolLocked : Hash256 → Bool
  storeFault : Hash256 → Option Fault
  flushFailed : Bool

def Download.new (index : Option (Map Hash256 BlockLocation)) (cs : ChainState) : Download where
  inFlight := ∅
  nextHeight := 1
  storedHashes := (index.map fun m => m.keys).getD ∅
  pendingBlocks := ∅
  nextConnectHeight := (saturatingSucc cs.tip.2).toNat
  blocksSinceFlush := 0

/-- `schedule_redownload`. -/
def Download.scheduleRedownload (d : Download) (height : ℕ) : Download :=
  { d with nextHeight := min d.nextHeight height }

/-- `schedule_redownload` at the least of the heights, if there is one. -/
def Download.redownloadAll (d : Download) (heights : Multiset ℕ) : Download :=
  { d with nextHeight := heights.fold min d.nextHeight }

def Download.expire (d : Download) (p : InFlightEntry → Bool) : Download :=
  let expired := d.inFlight.entries.filter fun e => p e.2
  let d := { d with inFlight := filterValues d.inFlight fun e => !p e }
  d.redownloadAll (expired.map fun e => e.2.height)

def hashesInRange (hs : HeaderStore) (start stop : ℕ) : List (ℕ × Hash256) :=
  (((hs.activeChain.take stop).drop start).zipIdx start).map Prod.swap

namespace System

def scheduleRedownload (s : System) (height : ℕ) : System :=
  { s with download := s.download.scheduleRedownload height }

section

variable (P : Primitives) (amb : Ambient)

def flushStore (s : System) : System :=
  { s with
    blocks := (s.blocks.flush amb.flushFailed).2
    download := { s.download with blocksSinceFlush := 0 } }

def storeBlockData (s : System) (hash : Hash256) (rawBytes : Bytes) : System :=
  if hash ∈ s.download.storedHashes then s
  else
    let d := { s.download with storedHashes := insert hash s.download.storedHashes }
    match s.blocks.storeBlockUnchecked hash rawBytes (amb.storeFault hash) with
    | (.error _, blocks) => { s with blocks, download := d }
    | (.ok (), blocks) =>
      let s' := { s with blocks, download := { d with blocksSinceFlush := d.blocksSinceFlush + 1 } }
      if flushInterval ≤ s'.download.blocksSinceFlush then s'.flushStore amb else s'

def setChainstate (s : System) (cs : ChainState) : System :=
  { s with node := { s.node with chainstate := cs } }

def removeConfirmed (s : System) (hash : Hash256) (block : Block) : System :=
  if amb.mempoolLocked hash then s
  else { s with node := { s.node with mempool := s.node.mempool.removeBlockTxs P block } }

def connectAndStore (s : System) (hash : Hash256) (block : Block) (rawBytes : Bytes) (height : ℕ) :
    Bool × System :=
  match connectBlock P s.node.chainstate block (UInt32.ofNat height) hash with
  | .error _ => (false, s)
  | .ok cs =>
    let s₁ := (s.setChainstate cs).removeConfirmed P amb hash block
    let s₂ := s₁.storeBlockData amb hash rawBytes
    (true, { s₂ with download := { s₂.download with nextConnectHeight := height + 1 } })

def dropPending (s : System) (height : ℕ) : System :=
  { s with download := { s.download with pendingBlocks := s.download.pendingBlocks.erase height } }

def dropInFlight (s : System) (hash : Hash256) : System :=
  { s with download := { s.download with inFlight := s.download.inFlight.erase hash } }

def buffer (s : System) (height : ℕ) (e : PendingBlock) : System :=
  { s with download :=
    { s.download with pendingBlocks := s.download.pendingBlocks.insert height e } }

def drainPending (P : Primitives) (amb : Ambient) : ℕ → System → System
  | 0, s => s
  | fuel+1, s =>
    let height := s.download.nextConnectHeight
    match s.download.pendingBlocks.lookup height with
    | none => s
    | some e =>
      match (s.dropPending height).connectAndStore P amb e.hash e.block e.rawBytes height with
      | (true, s') => drainPending P amb fuel s'
      | (false, s') => s'.scheduleRedownload height

inductive ReceiveError
  | parse (error : ParseError)
  | block (error : BlockError)
  | noMedianTime
  | clockBeforeEpoch
  | context (error : ContextError)

def checkReceived (hs : HeaderStore) (height : ℕ) (rawBytes : Bytes) :
    Except ReceiveError Block := do
  let block ← (fromBytesAndValidate P rawBytes).mapError .parse
  (checkBlock block).mapError .block
  if 0 < height then do
    let mtp ← okOr .noMedianTime (computeMedianTimePast hs.headerAt (height - 1))
    let adjustedTime ← okOr .clockBeforeEpoch amb.adjustedTime
    (checkBlockContext block (UInt32.ofNat height) mtp adjustedTime).mapError .context
  return block

/-- `handle_received_block` up to the call of `connect_and_store`, with the block
and the height of that call if it is made. -/
def admitBlock (s : System) (hash : Hash256) (rawBytes : Bytes) : Option (Block × ℕ) × System :=
  match s.download.inFlight.lookup hash with
  | none => (none, s)
  | some entry =>
    let s := s.dropInFlight hash
    match checkReceived P amb s.node.headers entry.height rawBytes with
    | .error _ => (none, s.scheduleRedownload entry.height)
    | .ok block =>
      if entry.height = s.download.nextConnectHeight then (some (block, entry.height), s)
      else if s.download.nextConnectHeight < entry.height then
        if maxPendingBlocks ≤ s.download.pendingBlocks.keys.card then
          (none, s.scheduleRedownload entry.height)
        else (none, s.buffer entry.height ⟨hash, block, rawBytes⟩)
      else (none, s.storeBlockData amb hash rawBytes)

def handleReceivedBlock (s : System) (hash : Hash256) (rawBytes : Bytes) : System :=
  match s.admitBlock P amb hash rawBytes with
  | (none, s) => s
  | (some (block, height), s) =>
    match s.connectAndStore P amb hash block rawBytes height with
    | (true, s') => s'.drainPending P amb s'.download.pendingBlocks.keys.card
    | (false, s') => s'.scheduleRedownload height

/-- `handle_block` of `nodes/handler_block.rs`, which forwards a block under the
hash of its header, with the manager that receives it. -/
def handleBlock (s : System) (payload : Bytes) : System :=
  match readHeader payload with
  | none => s
  | some (header, _) => s.handleReceivedBlock P amb (header.blockHash P) payload

inductive CatchUpError
  | notStored (hash : Hash256)
  | load (error : LoadError)
  | parse (error : ParseError)
  | connect (error : ConnectError)

def catchUpBlock (s : System) (e : ℕ × Hash256) : Except CatchUpError System := do
  ensure (e.2 ∈ s.download.storedHashes) (.notStored e.2)
  let rawBytes ← (s.blocks.reader.loadBlock e.2).mapError .load
  let block ← (fromBytesAndValidate P rawBytes).mapError .parse
  let cs ← (connectBlock P s.node.chainstate block (UInt32.ofNat e.1) e.2).mapError .connect
  let s' := s.setChainstate cs
  return { s' with download := { s'.download with nextConnectHeight := e.1 + 1 } }

def catchUpLoop (P : Primitives) : ℕ → System → System
  | 0, s => s
  | fuel+1, s =>
    let next := s.download.nextConnectHeight
    if s.cachedHeight < next then s
    else
      match hashesInRange s.node.headers next
        (min (next + scanBatchSize) (s.cachedHeight + 1)) with
      | [] => s
      | e :: hashes =>
        match foldUntil (catchUpBlock P) s (e :: hashes) with
        | (s', some _) => s'
        | (s', none) => catchUpLoop P fuel s'

def catchUpChainstate (s : System) : System :=
  let next := s.download.nextConnectHeight
  let s' := s.catchUpLoop P (s.cachedHeight + 1 - next)
  if next < s'.download.nextConnectHeight then s'.flushStore amb else s'

end

end System

/-- What `fill_window` finds outside: the connected peers in order, those that
are strike-excluded, those to whose writer sending fails, and the clock. -/
structure Peers where
  writers : List Peer
  excluded : Peer → Bool
  fails : ℕ → Bool
  now : ℕ

structure Scan where
  nextHeight : ℕ
  requestable : List (ℕ × Hash256)

section

variable (d : Download) (t : Strikes)

def Download.skips (e : ℕ × Hash256) : Prop :=
  e.2 ∈ d.storedHashes ∨ e.2 ∈ d.inFlight ∨ e.1 ∈ d.pendingBlocks

instance (d : Download) (e : ℕ × Hash256) : Decidable (d.skips e) :=
  inferInstanceAs (Decidable (_ ∨ _ ∨ _))

def scanBatch (d : Download) (freeSlots : ℕ) : List (ℕ × Hash256) → Scan → Scan
  | [], st => st
  | e :: hashes, st =>
    if freeSlots ≤ st.requestable.length then st
    else
      let nextHeight := max st.nextHeight (e.1 + 1)
      let requestable := if d.skips e then st.requestable else st.requestable ++ [e]
      scanBatch d freeSlots hashes ⟨nextHeight, requestable⟩

def collect (hs : HeaderStore) (d : Download) (chainHeight freeSlots : ℕ) : ℕ → Scan → Scan
  | 0, st => st
  | fuel+1, st =>
    if st.requestable.length < freeSlots ∧ st.nextHeight ≤ chainHeight then
      match hashesInRange hs st.nextHeight
        (min (st.nextHeight + scanBatchSize) (chainHeight + 1)) with
      | [] => st
      | e :: hashes =>
        collect hs d chainHeight freeSlots fuel (scanBatch d freeSlots (e :: hashes) st)
    else st

def peerUsed (peer : Peer) : ℕ :=
  d.inFlight.entries.countP fun e => e.2.peer = peer

def availablePeers (p : Peers) : List (ℕ × Peer × ℕ) :=
  let free := (p.writers.zipIdx.filter fun e => !p.excluded e.1).map fun e =>
    (e.2, e.1, perPeerLimit - peerUsed d e.1)
  free.filter fun e => 0 < e.2.2

structure Request where
  hash : Hash256
  entry : InFlightEntry
  writer : ℕ

def Request.binding (r : Request) : Hash256 × InFlightEntry := (r.hash, r.entry)

def assign (now : ℕ) : List (ℕ × Peer × ℕ) → List (ℕ × Hash256) → List Request
  | _, [] => []
  | peers, e :: requestable =>
    match peers.dropWhile fun p => p.2.2 = 0 with
    | [] => []
    | (writer, peer, remaining) :: rest =>
      ⟨e.2, ⟨peer, now, e.1⟩, writer⟩ :: assign now ((writer, peer, remaining - 1) :: rest) requestable

def Download.send (p : Peers) (requests : List Request) : Download :=
  let sent : List Request := requests.filter fun r => !p.fails r.writer
  let failed : List Request := requests.filter fun r => p.fails r.writer
  let d := { d with inFlight := insertAll d.inFlight (sent.map Request.binding) }
  d.redownloadAll (failed.map fun r => r.entry.height)

def Download.freeSlots : ℕ :=
  let totalOutstanding := d.pendingBlocks.keys.card + d.inFlight.keys.card
  min (windowSize - d.inFlight.keys.card) (maxPendingBlocks - totalOutstanding)

/-- Whether `fill_window` goes on to its scan. -/
def Download.scans (chainHeight : ℕ) (p : Peers) : Prop :=
  ¬ (d.freeSlots < refillThreshold ∧ d.inFlight.keys.card ≠ 0) ∧
    p.writers ≠ [] ∧ d.nextHeight ≤ chainHeight

instance (d : Download) (chainHeight : ℕ) (p : Peers) : Decidable (d.scans chainHeight p) :=
  inferInstanceAs (Decidable (_ ∧ _ ∧ _))

/-- Without an available peer the heights scanned in phase 1 stay behind
`next_height`. -/
def Download.fillWindow (hs : HeaderStore) (chainHeight : ℕ) (p : Peers) : Download :=
  if d.scans chainHeight p then
    let scan := collect hs d chainHeight d.freeSlots (chainHeight + 1 - d.nextHeight)
      ⟨d.nextHeight, []⟩
    let d := { d with nextHeight := scan.nextHeight }
    if scan.requestable = [] then d
    else
      let available := availablePeers d p
      if available = [] then d
      else
        let requests := assign p.now available scan.requestable
        let d := match scan.requestable[requests.length]? with
          | some unassigned => d.scheduleRedownload unassigned.1
          | none => d
        d.send p requests
  else d

def Download.handlePeerDisconnect (peer : Peer) : Download :=
  d.expire fun e => e.peer = peer

structure Strikes where
  now : ℕ
  excluded : Peer → Bool
  struckOut : Peer → Bool

def Strikes.stale (e : InFlightEntry) : Bool := requestTimeout < t.now - e.requestedAt

def Download.handleTimeoutScan : Download :=
  d.expire fun e => t.stale e ||
    (hasValue d.inFlight (fun e' => t.stale e' && e'.peer = e.peer) &&
      !t.excluded e.peer && t.struckOut e.peer)

def Download.handleReorg (newTipHeight : ℕ) : Download :=
  { d with
    nextConnectHeight := newTipHeight + 1
    nextHeight := newTipHeight + 1
    inFlight := ∅
    pendingBlocks := ∅ }

end

variable {P : Primitives} {amb : Ambient} {s s' : System} {hash : Hash256} {block : Block}
variable {rawBytes : Bytes} {height : ℕ}

structure ConnectedTo (P : Primitives) (s s' : System) (hash : Hash256) (block : Block)
    (height : ℕ) : Prop where
  connect : connectBlock P s.node.chainstate block (UInt32.ofNat height) hash =
    .ok s'.node.chainstate
  headers : s'.node.headers = s.node.headers
  cachedHeight : s'.cachedHeight = s.cachedHeight
  cachedTipBits : s'.cachedTipBits = s.cachedTipBits
  notices : s'.notices = s.notices
  inFlight : s'.download.inFlight = s.download.inFlight
  nextHeight : s'.download.nextHeight = s.download.nextHeight
  pendingBlocks : s'.download.pendingBlocks = s.download.pendingBlocks
  nextConnectHeight : s'.download.nextConnectHeight = height + 1

theorem storeBlockData_eq (amb : Ambient) (s : System) (hash : Hash256) (rawBytes : Bytes) :
    ∃ blocks storedHashes blocksSinceFlush, s.storeBlockData amb hash rawBytes = { s with
      blocks
      download := { s.download with storedHashes, blocksSinceFlush } } := by
  unfold System.storeBlockData
  split_ifs
  · exact ⟨s.blocks, s.download.storedHashes, s.download.blocksSinceFlush, rfl⟩
  · dsimp only
    split
    · exact ⟨_, _, _, rfl⟩
    · split_ifs <;> exact ⟨_, _, _, rfl⟩

theorem connectAndStore_cases (P : Primitives) (amb : Ambient) (s : System) (hash : Hash256)
    (block : Block) (rawBytes : Bytes) (height : ℕ) :
    s.connectAndStore P amb hash block rawBytes height = (false, s) ∨
    ∃ s', s.connectAndStore P amb hash block rawBytes height = (true, s') ∧
      ConnectedTo P s s' hash block height := by
  unfold System.connectAndStore
  cases hconnect : connectBlock P s.node.chainstate block (UInt32.ofNat height) hash with
  | error e => exact .inl rfl
  | ok cs =>
    refine .inr ⟨_, rfl, ?_⟩
    dsimp only
    obtain ⟨blocks, storedHashes, blocksSinceFlush, hstore⟩ :=
      storeBlockData_eq amb ((s.setChainstate cs).removeConfirmed P amb hash block) hash rawBytes
    rw [hstore]
    unfold System.removeConfirmed
    split_ifs <;> exact ⟨hconnect, rfl, rfl, rfl, rfl, rfl, rfl, rfl, rfl⟩

theorem drainPending_rule (I : System → Prop)
    (hconnect : ∀ s s' e, I s →
      s.download.pendingBlocks.lookup s.download.nextConnectHeight = some e →
      ConnectedTo P (s.dropPending s.download.nextConnectHeight) s' e.hash e.block
        s.download.nextConnectHeight → I s')
    (hfail : ∀ s, I s → I ((s.dropPending s.download.nextConnectHeight).scheduleRedownload
      s.download.nextConnectHeight)) (fuel : ℕ) (hs : I s) : I (s.drainPending P amb fuel) := by
  induction fuel generalizing s with
  | zero => exact hs
  | succ fuel ih =>
    unfold System.drainPending
    dsimp only
    cases hlook : s.download.pendingBlocks.lookup s.download.nextConnectHeight with
    | none => exact hs
    | some e =>
      dsimp only
      rcases connectAndStore_cases P amb (s.dropPending s.download.nextConnectHeight) e.hash e.block
        e.rawBytes s.download.nextConnectHeight with heq | ⟨s', heq, hconn⟩
      · rw [heq]
        exact hfail s hs
      · rw [heq]
        exact ih (hconnect s s' e hs hlook hconn)

/-- The ways `handle_received_block` can end. -/
inductive Received (P : Primitives) (amb : Ambient) (s : System) (hash : Hash256)
    (rawBytes : Bytes) : System → Prop
  | ignored : Received P amb s hash rawBytes s
  | rejected {entry} (hentry : s.download.inFlight.lookup hash = some entry) :
      Received P amb s hash rawBytes ((s.dropInFlight hash).scheduleRedownload entry.height)
  | connected {entry block s' fuel} (hentry : s.download.inFlight.lookup hash = some entry)
      (hcheck : System.checkReceived P amb s.node.headers entry.height rawBytes = .ok block)
      (hheight : entry.height = s.download.nextConnectHeight)
      (hconn : ConnectedTo P (s.dropInFlight hash) s' hash block entry.height) :
      Received P amb s hash rawBytes (s'.drainPending P amb fuel)
  | buffered {entry block} (hentry : s.download.inFlight.lookup hash = some entry)
      (hcheck : System.checkReceived P amb s.node.headers entry.height rawBytes = .ok block) :
      Received P amb s hash rawBytes
        ((s.dropInFlight hash).buffer entry.height ⟨hash, block, rawBytes⟩)
  | late {entry} (hentry : s.download.inFlight.lookup hash = some entry)
      (hheight : entry.height < s.download.nextConnectHeight) :
      Received P amb s hash rawBytes ((s.dropInFlight hash).storeBlockData amb hash rawBytes)

theorem admitBlock_cases (P : Primitives) (amb : Ambient) (s : System) (hash : Hash256)
    (rawBytes : Bytes) :
    (∃ s', s.admitBlock P amb hash rawBytes = (none, s') ∧ s'.node = s.node ∧
      Received P amb s hash rawBytes s') ∨
    ∃ entry block, s.download.inFlight.lookup hash = some entry ∧
      System.checkReceived P amb s.node.headers entry.height rawBytes = .ok block ∧
      entry.height = s.download.nextConnectHeight ∧
      s.admitBlock P amb hash rawBytes = (some (block, entry.height), s.dropInFlight hash) := by
  unfold System.admitBlock
  cases hentry : s.download.inFlight.lookup hash with
  | none => exact .inl ⟨_, rfl, rfl, .ignored⟩
  | some entry =>
    dsimp only
    cases hcheck : System.checkReceived P amb (s.dropInFlight hash).node.headers entry.height
        rawBytes with
    | error e => exact .inl ⟨_, rfl, rfl, .rejected hentry⟩
    | ok block =>
      dsimp only
      split_ifs with hnext hearly hfull
      · exact .inr ⟨entry, block, rfl, hcheck, hnext, rfl⟩
      · exact .inl ⟨_, rfl, rfl, .rejected hentry⟩
      · exact .inl ⟨_, rfl, rfl, .buffered hentry hcheck⟩
      · refine .inl ⟨_, rfl, ?_, .late hentry (lt_of_le_of_ne (not_lt.mp hearly) hnext)⟩
        obtain ⟨_, _, _, hstore⟩ := storeBlockData_eq amb (s.dropInFlight hash) hash rawBytes
        rw [hstore]
        rfl

theorem handleReceivedBlock_received (P : Primitives) (amb : Ambient) (s : System) (hash : Hash256)
    (rawBytes : Bytes) :
    Received P amb s hash rawBytes (s.handleReceivedBlock P amb hash rawBytes) := by
  unfold System.handleReceivedBlock
  obtain ⟨s', hadmitted, -, hrec⟩ | ⟨entry, block, hentry, hcheck, hnext, hadmitted⟩ :=
    admitBlock_cases P amb s hash rawBytes
  · rwa [hadmitted]
  · rw [hadmitted]
    dsimp only
    rcases connectAndStore_cases P amb (s.dropInFlight hash) hash block rawBytes entry.height
      with heq | ⟨s', heq, hconn⟩
    · rw [heq]
      exact .rejected hentry
    · rw [heq]
      exact .connected hentry hcheck hnext hconn

theorem mem_hashesInRange {hs : HeaderStore} {start stop : ℕ} {e : ℕ × Hash256} :
    e ∈ hashesInRange hs start stop ↔
      start ≤ e.1 ∧ e.1 < stop ∧ hs.activeChain[e.1]? = some e.2 := by
  obtain ⟨height, hash⟩ := e
  simp only [hashesInRange, List.mem_map, Prod.exists, Prod.swap_prod_mk, Prod.mk.injEq]
  constructor
  · rintro ⟨x, i, hmem, rfl, rfl⟩
    rw [List.mk_mem_zipIdx_iff_le_and_getElem?_sub, List.getElem?_drop] at hmem
    obtain ⟨hle, hget⟩ := hmem
    rw [Nat.add_sub_cancel' hle, List.getElem?_take] at hget
    split_ifs at hget with hlt
    exact ⟨hle, hlt, hget⟩
  · rintro ⟨hle, hlt, hget⟩
    refine ⟨hash, height, ?_, rfl, rfl⟩
    rw [List.mk_mem_zipIdx_iff_le_and_getElem?_sub, List.getElem?_drop, Nat.add_sub_cancel' hle,
      List.getElem?_take, if_pos hlt]
    exact ⟨hle, hget⟩

theorem catchUpBlock_eq_ok {e : ℕ × Hash256} (h : s.catchUpBlock P e = .ok s') :
    ∃ block, s.blocks.reader.loadAndDeserialize e.2 = .ok block ∧
      ConnectedTo P s s' e.2 block e.1 ∧ s'.blocks = s.blocks := by
  simp only [System.catchUpBlock, bind_eq_ok, mapError_eq_ok, ensure_eq_ok, pure_eq_ok] at h
  obtain ⟨_, _, rawBytes, hload, block, hparse, cs, hconnect, rfl⟩ := h
  refine ⟨block, ?_, ⟨hconnect, rfl, rfl, rfl, rfl, rfl, rfl, rfl, rfl⟩, rfl⟩
  exact bind_eq_ok.mpr ⟨rawBytes, hload, okOr_eq_ok.mpr (fromBytes_of_validate hparse)⟩

section CatchUp

def KeptByCatchUp (P : Primitives) (I : System → Prop) : Prop :=
  ∀ s s' hash block, I s →
    s.node.headers.activeChain[s.download.nextConnectHeight]? = some hash →
    s.blocks.reader.loadAndDeserialize hash = .ok block →
    ConnectedTo P s s' hash block s.download.nextConnectHeight → s'.blocks = s.blocks → I s'

variable {I : System → Prop}

theorem KeptByCatchUp.batch (hI : KeptByCatchUp P I) {hashes : List Hash256}
    (hactive : ∀ i hash, hashes[i]? = some hash →
      s.node.headers.activeChain[s.download.nextConnectHeight + i]? = some hash) (hs : I s) :
    I (foldUntil (System.catchUpBlock P) s
      ((hashes.zipIdx s.download.nextConnectHeight).map Prod.swap)).1 := by
  induction hashes generalizing s with
  | nil => exact hs
  | cons hash hashes ih =>
    rw [List.zipIdx_cons, List.map_cons, Prod.swap_prod_mk]
    cases hstep : s.catchUpBlock P (s.download.nextConnectHeight, hash) with
    | error e => rwa [foldUntil_cons_of_error hstep]
    | ok s' =>
      obtain ⟨block, hload, hconn, hblocks⟩ := catchUpBlock_eq_ok hstep
      rw [foldUntil_cons_of_ok hstep, ← hconn.nextConnectHeight]
      refine ih (fun i x hx => ?_) (hI s s' hash block hs (hactive 0 hash rfl) hload hconn hblocks)
      rw [hconn.headers, hconn.nextConnectHeight, Nat.add_assoc, Nat.add_comm 1]
      exact hactive (i + 1) x hx

theorem KeptByCatchUp.range (hI : KeptByCatchUp P I) (stop : ℕ) (hs : I s) :
    I (foldUntil (System.catchUpBlock P) s
      (hashesInRange s.node.headers s.download.nextConnectHeight stop)).1 := by
  unfold hashesInRange
  refine hI.batch (fun i hash hi => ?_) hs
  rw [List.getElem?_drop, List.getElem?_take] at hi
  split_ifs at hi
  exact hi

theorem KeptByCatchUp.loop (hI : KeptByCatchUp P I) (fuel : ℕ) (hs : I s) :
    I (s.catchUpLoop P fuel) := by
  induction fuel generalizing s with
  | zero => exact hs
  | succ fuel ih =>
    unfold System.catchUpLoop
    dsimp only
    split_ifs
    · exact hs
    · have hrange := hI.range (min (s.download.nextConnectHeight + scanBatchSize)
        (s.cachedHeight + 1)) hs
      split
      · exact hs
      · next e hashes heq =>
        rw [heq] at hrange
        split
        · next s' _ hfold => rwa [hfold] at hrange
        · next s' hfold =>
          rw [hfold] at hrange
          exact ih hrange

end CatchUp

end Ironcat.BlockDownload
