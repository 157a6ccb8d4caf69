import Ironcat.Inventory
import Ironcat.Lib.Gossip

/-!
# Transaction relay between nodes

Nodes that are connected to each other run the handlers of `inv`, `getdata` and
`tx` and the relay task of `main.rs`. A message is taken from its wire by the
task of the connection, and the relay tasks go on between any two messages.
Writes succeed and the connections stay up.

On transactions that all nodes accept and that fit into a mempool together, this
is a gossip of txids. So every order of steps comes to an end, and connected
nodes then have the same transactions in their mempools.
-/

namespace Ironcat.TxRelay

open Lib.ByteCodec Lib.Runs Lib.Gossip Types Chainstate Headers BlockFiles BlockWire Mempool
open MempoolClosure MempoolReadd Payloads Inventory

variable {ι : Type}

/-- The connections between nodes, and what does not change while they relay
transactions. -/
structure Config (ι : Type) where
  P : Primitives
  ord : ι → IterOrder
  chainstate : ι → ChainState
  headers : ι → HeaderStore
  chainHeight : ι → UInt32
  blockStore : ι → Option BlockStore
  peers : ι → List ι
  symm : ∀ a, ∀ b ∈ peers a, a ∈ peers b

inductive Task (ι : Type)
  | idle
  | announcing (txid : Hash256) (pending sent : List ι)

structure Node (ι : Type) where
  mempool : Pool
  session : ι → Session
  notices : List Hash256
  task : Task ι

def initial : State ι (Node ι) Outgoing :=
  ⟨fun _ => ⟨.new, fun _ => ⟨∅, 0, false, none⟩, [], .idle⟩, fun _ => []⟩

namespace Config

variable (cfg : Config ι)

def shared (self : ι) (node : Node ι) : Shared :=
  ⟨cfg.headers self, cfg.chainHeight self, cfg.blockStore self, some node.mempool⟩

def accept (self : ι) (node : Node ι) (tx : Transaction) : Node ι :=
  let (mempool, notices) :=
    acceptAndNotify cfg.P (cfg.ord self) (cfg.chainstate self) node.mempool node.notices tx
  { node with mempool, notices }

variable [DecidableEq ι]

def setSession (node : Node ι) (peer : ι) (session : Session) : Node ι :=
  { node with session := Function.update node.session peer session }

/-- The part of `parse_incoming_message` that dispatches the messages of
transaction relay, on connections whose writes succeed. -/
def handle (self : ι) (node : Node ι) (peer : ι) (command : String) (payload : Bytes) :
    Node ι × List Outgoing :=
  let sends : ℕ → Bool := fun _ => true
  let session := node.session peer
  if command = "inv" then
    let r := handleInv sends 0 (cfg.shared self node) session payload
    (setSession node peer r.session, r.sent)
  else if command = "getdata" then
    let r := handleGetdata sends (cfg.shared self node) session payload
    (setSession node peer r.session, r.sent)
  else if command = "tx" then
    match handleTx cfg.P (cfg.ord self) (cfg.chainstate self) session node.mempool node.notices
        payload with
    | some (session, mempool, notices) =>
      ({ setSession node peer session with mempool, notices }, [])
    | none => (node, [])
  else (node, [])

/-- One step of the relay task of `main.rs`. -/
def relay (self : ι) (node : Node ι) : Option (Node ι × List (ι × Outgoing)) :=
  match node.task, node.notices with
  | .idle, [] => none
  | .idle, txid :: notices =>
    some ({ node with notices, task := .announcing txid (cfg.peers self) [] }, [])
  | .announcing txid (peer :: pending) sent, _ =>
    if txid ∈ (node.session peer).invKnown then
      some ({ node with task := .announcing txid pending sent }, [])
    else
      some ({ node with task := .announcing txid pending (sent ++ [peer]) },
        [(peer, .inv ⟨[⟨.tx, txid⟩]⟩)])
  | .announcing txid [] (peer :: sent), _ =>
    some ({ setSession node peer ((node.session peer).markInvKnown [txid]) with
      task := .announcing txid [] sent }, [])
  | .announcing _ [] [], _ => some ({ node with task := .idle }, [])

def protocol : Protocol ι Transaction (Node ι) Outgoing where
  peers := cfg.peers
  accept := cfg.accept
  handle := fun self node peer m =>
    let r := cfg.handle self node peer m.command m.payload
    (r.1, r.2.map (peer, ·))
  relay := cfg.relay

end Config

/-- Transactions that spend different outputs, are accepted by each node's
mempool while it is empty, and fit together into a mempool and into the buffer
of its notices. -/
structure Compatible (cfg : Config ι) (txs : List Transaction) : Prop where
  readable : ∀ tx ∈ txs, Readable tx
  disjoint : ∀ tx ∈ txs, ∀ tx' ∈ txs, ∀ o ∈ tx.prevOutputs, o ∈ tx'.prevOutputs → tx = tx'
  accepted : ∀ a, ∀ tx ∈ txs, ∃ r, Pool.new.acceptTx cfg.P (cfg.ord a) tx (cfg.chainstate a) = .ok r
  room : byteSizes txs ≤ maxMempoolSize
  count : txs.length ≤ notifyCapacity

/-- The relay task works for a transaction of the mempool and connected peers. -/
def Task.Within (pool : Pool) (peers : List ι) : Task ι → Prop
  | .idle => True
  | .announcing txid pending _ => txid ∈ pool.txs ∧ ∀ b ∈ pending, b ∈ peers

structure Good (cfg : Config ι) (txs : List Transaction) (a : ι) (pool : Pool)
    (notices : List Hash256) (task : Task ι) : Prop where
  stocked : Stocked cfg.P txs pool
  limit : pool.maxSize = maxMempoolSize
  nodup : notices.Nodup
  noticed : ∀ k ∈ notices, k ∈ pool.txs
  task : task.Within pool (cfg.peers a)

section Accept

variable {cfg : Config ι} {txs : List Transaction} {pool : Pool} {tx : Transaction} {a : ι}
variable {notices : List Hash256} {task : Task ι}

theorem Compatible.accept_new (h : Compatible cfg txs) (hpool : Stocked cfg.P txs pool)
    (hlimit : pool.maxSize = maxMempoolSize) (htx : tx ∈ txs) (hnew : tx.txid cfg.P ∉ pool.txs) :
    ∃ pool', pool.acceptTx cfg.P (cfg.ord a) tx (cfg.chainstate a) = .ok (pool', tx.txid cfg.P) ∧
      Stocked cfg.P txs pool' ∧ pool'.maxSize = maxMempoolSize ∧
      ∀ k, k ∈ pool'.txs ↔ k = tx.txid cfg.P ∨ k ∈ pool.txs := by
  -- the inputs come from the chain state, so that an empty mempool decides alike
  have hparents : SharesParents Pool.new pool tx := by
    intro o _ e he
    simp [Pool.new, Pool.empty] at he
  have hspends : ∀ o ∈ tx.prevOutputs, o ∉ pool.spends := by
    intro o ho hmem
    obtain ⟨txid, hspent⟩ := Finmap.mem_iff.mp hmem
    obtain ⟨e, he, hoe⟩ := (hpool.indexed.spends o txid).mp hspent
    have heq := h.disjoint tx htx e.tx (hpool.taken txid e he) o ho hoe
    rw [heq, hpool.indexed.keyed txid e he] at hnew
    exact hnew (mem_iff_lookup.mpr ⟨e, he⟩)
  obtain ⟨r, hr⟩ := h.accepted a tx htx
  obtain ⟨⟨pool', txid⟩, haccept⟩ :=
    @acceptTx_of_agree _ _ _ _ _ _ _ rfl hparents (cfg.ord a) _ hr hnew hspends
  have hroom : byteSizes txs ≤ pool.maxSize := hlimit ▸ h.room
  obtain ⟨hstocked, hlimit', _, _⟩ := hpool.acceptTx hroom htx haccept
  obtain ⟨entry, rfl, hsize, rfl, _, havail, rfl⟩ := acceptTx_eq_ok haccept
  have hinsert := hpool.insert rfl hnew (fun o ho => (havail o ho).1) htx hsize
  rw [Pool.evictIfNeeded, evictLoop_of_le (hinsert.totalSize_le.trans hroom)] at *
  exact ⟨_, haccept, hstocked, hlimit'.trans hlimit, fun k => AList.mem_insert _⟩

theorem mem_txids (hpool : Stocked cfg.P txs pool) {k : Hash256} (hk : k ∈ pool.txs) :
    k ∈ txs.map (Transaction.txid cfg.P) := by
  obtain ⟨e, he⟩ := mem_iff_lookup.mp hk
  exact List.mem_map.mpr ⟨e.tx, hpool.taken k e he, hpool.indexed.keyed k e he⟩

theorem Good.accept (h : Compatible cfg txs) (hgood : Good cfg txs a pool notices task)
    (htx : tx ∈ txs) :
    let r := acceptAndNotify cfg.P (cfg.ord a) (cfg.chainstate a) pool notices tx
    Good cfg txs a r.1 r.2 task ∧ (∀ k, k ∈ r.1.txs ↔ k = tx.txid cfg.P ∨ k ∈ pool.txs) ∧
      r.2 = notices ++ if tx.txid cfg.P ∈ pool.txs then [] else [tx.txid cfg.P] := by
  simp only [acceptAndNotify]
  by_cases hmem : tx.txid cfg.P ∈ pool.txs
  · split
    · rename_i haccept
      obtain ⟨entry, rfl, _, rfl, hnew, _⟩ := acceptTx_eq_ok haccept
      exact absurd hmem hnew
    · exact ⟨hgood, fun k => ⟨.inr, fun hk => hk.elim (fun hk => hk ▸ hmem) id⟩, by simp [hmem]⟩
  · obtain ⟨pool', haccept, hpool', hlimit, hkeys⟩ :=
      h.accept_new (a := a) hgood.stocked hgood.limit htx hmem
    have hnodup : (notices ++ [tx.txid cfg.P]).Nodup := by
      refine hgood.nodup.append (List.nodup_singleton _) ?_
      rw [List.disjoint_singleton]
      exact fun hk => hmem (hgood.noticed _ hk)
    have hheld : ∀ k ∈ notices ++ [tx.txid cfg.P], k ∈ pool'.txs := by
      intro k hk
      rw [List.mem_append, List.mem_singleton] at hk
      exact (hkeys k).mpr (hk.elim (fun hk => .inr (hgood.noticed k hk)) .inl)
    -- the notices are for different transactions, so that none is lost
    have hcount : notices.length + 1 ≤ notifyCapacity := by
      have hsub := (List.subperm_of_subset hnodup fun k hk => mem_txids hpool' (hheld k hk)).length_le
      simp only [List.length_append, List.length_singleton, List.length_map] at hsub
      exact hsub.trans h.count
    have hnotify : notify notices (tx.txid cfg.P) = notices ++ [tx.txid cfg.P] := by
      rw [notify, Nat.sub_eq_zero_of_le hcount, List.drop_zero]
    have htask : task.Within pool' (cfg.peers a) := by
      have htask := hgood.task
      cases task with
      | idle => trivial
      | announcing txid pending sent => exact ⟨(hkeys txid).mpr (.inr htask.1), htask.2⟩
    simp only [haccept, hnotify, if_neg hmem]
    exact ⟨⟨hpool', hlimit, hnodup, hheld, htask⟩, hkeys, trivial⟩

theorem Compatible.txFromBytes_toBytes (h : Compatible cfg txs) (a : ι) (htx : tx ∈ txs) :
    txFromBytes tx.toBytes = some tx := by
  obtain ⟨r, haccept⟩ := h.accepted a tx htx
  simp only [Pool.acceptTx, Lib.Checked.bind_eq_ok, Lib.Checked.ensure_eq_ok] at haccept
  obtain ⟨_, _, _, _, _, hsize, _⟩ := haccept
  have hlen : ¬ maxWireTxSize < tx.toBytes.length := by
    have hlimits : maxTxSize ≤ maxWireTxSize := by decide
    omega
  rw [txFromBytes, if_neg hlen]
  exact (readTransaction_reads (h.readable tx htx)).map_fst

end Accept

def Relayed (txs : List Transaction) : Outgoing → Prop
  | .inv message | .getdata message =>
    (∀ item ∈ message.items, item.invType = .tx) ∧ message.items.length ≤ maxInvSize
  | .tx tx => tx ∈ txs
  | _ => False

def tells (P : Primitives) : Outgoing → Hash256 → Prop
  | .inv message, k => ∃ item ∈ message.items, item.hash = k
  | .tx tx, k => k = tx.txid P
  | _, _ => False

def asks : Outgoing → Hash256 → Prop
  | .getdata message, k => ∃ item ∈ message.items, item.hash = k
  | _, _ => False

def price : Outgoing → ℕ
  | .inv message => message.items.length + 3
  | .getdata message => message.items.length + 2
  | _ => 1

def Task.waits : Task ι → ι → Hash256 → Prop
  | .idle, _, _ => False
  | .announcing txid pending _, b, k => k = txid ∧ b ∈ pending

def Task.told : Task ι → ι → Hash256 → Prop
  | .idle, _, _ => False
  | .announcing txid _ sent, b, k => k = txid ∧ b ∈ sent

def Task.cost : Task ι → ℕ
  | .idle => 0
  | .announcing _ pending sent => 6 * pending.length + sent.length + 1

def cost (cfg : Config ι) (txs : List Transaction) (a : ι) (node : Node ι) : ℕ :=
  (((txs.map (Transaction.txid cfg.P)).toFinset.filter (· ∉ node.mempool.txs)).card +
    node.notices.length) * (6 * (cfg.peers a).length + 2) + node.task.cost

def reading (cfg : Config ι) (txs : List Transaction) :
    Reading ι Hash256 Transaction (Node ι) Outgoing where
  key := Transaction.txid cfg.P
  valid := (· ∈ txs)
  good := fun a node => Good cfg txs a node.mempool node.notices node.task
  plain := Relayed txs
  holds := fun node k => k ∈ node.mempool.txs
  known := fun node b k => k ∈ (node.session b).invKnown ∨ node.task.told b k
  waits := fun node b k => k ∈ node.notices ∨ node.task.waits b k
  tells := tells cfg.P
  asks := asks
  cost := cost cfg txs
  price := price

theorem fresh_initial (cfg : Config ι) (txs : List Transaction) :
    Blank (reading cfg txs) (initial : State ι (Node ι) Outgoing) where
  good := fun a => by
    refine ⟨⟨⟨?_, ?_⟩, ?_, ?_, ?_⟩, rfl, List.nodup_nil, ?_, trivial⟩
    all_goals simp [initial, Pool.new, Pool.empty]
  holds := by simp [initial, reading, Pool.new, Pool.empty]
  known := by simp [initial, reading, Task.told]
  wire := fun l => rfl

section Laws

variable {cfg : Config ι} {txs : List Transaction} {node : Node ι} {a peer : ι}
variable {new : Hash256 → Prop} {told : ι → Hash256 → Prop}

theorem mem_markInvKnown {session : Session} {hashes : List Hash256} {k : Hash256}
    (hk : k ∈ (session.markInvKnown hashes).invKnown) : k ∈ session.invKnown ∨ k ∈ hashes := by
  simp only [Session.markInvKnown, Finset.mem_union, List.mem_toFinset] at hk
  refine hk.imp_left fun hk => ?_
  split at hk
  · simp at hk
  · exact hk

theorem unknownTxids_eq {pool : Pool} {items : List InvItem}
    (hitems : ∀ item ∈ items, item.invType = .tx) :
    unknownTxids (some pool) items = items.filter fun item => item.hash ∉ pool.txs := by
  refine List.filter_congr fun item hitem => ?_
  simp [hitems item hitem, Pool.contains]

variable {message : MessageInv}

theorem handleInv_eq (shared : Shared) (session : Session) {pool : Pool}
    (hpool : shared.mempool = some pool) (hm : Relayed txs (.inv message)) :
    let unknown := message.items.filter fun item => item.hash ∉ pool.txs
    handleInv (fun _ => true) 0 shared session message.toBytes =
      ⟨session.markInvKnown (message.items.map InvItem.hash),
        if unknown = [] then [] else [.getdata ⟨unknown⟩], true⟩ := by
  have hblocks : hasNewBlocks shared.headers message.items = false := by
    rw [hasNewBlocks, List.any_eq_false]
    intro item hitem
    simp [hm.1 item hitem]
  simp only [handleInv, MessageInv.fromBytes_toBytes hm.2, hblocks, Bool.false_eq_true, if_false,
    requestTxs, hpool, unknownTxids_eq hm.1, if_true, List.nil_append]
  split
  · rename_i hnil
    rw [if_pos hnil]
  · rename_i hcons
    rw [if_neg hcons]

theorem handleGetdata_eq (shared : Shared) (session : Session) {pool : Pool}
    (hstocked : Stocked cfg.P txs pool) (hpool : shared.mempool = some pool)
    (hm : Relayed txs (.getdata message)) (hheld : ∀ item ∈ message.items, item.hash ∈ pool.txs) :
    ∃ answered : List (InvItem × Outgoing),
      handleGetdata (fun _ => true) shared session message.toBytes =
        ⟨session, answered.map Prod.snd, true⟩ ∧
      (answered.map Prod.fst).Perm message.items ∧
      ∀ o ∈ answered, ∃ tx ∈ txs, o.2 = .tx tx ∧ tx.txid cfg.P = o.1.hash := by
  obtain ⟨answered, h⟩ := served_items (fun _ => true) shared message.items
  have hnone : (message.items.foldl (Serving.serveItem (fun _ => true) shared) .start).notfound =
      [] := by
    refine List.eq_nil_iff_forall_not_mem.mpr fun item hitem => ?_
    have hmem := h.perm.mem_iff.mp (List.mem_append_right _ hitem)
    obtain ⟨e, he⟩ := mem_iff_lookup.mp (hheld item hmem)
    rcases h.excused item hitem with hlacks | ⟨htype, _⟩ | ⟨n, _, hfail⟩
    · exact hlacks _ (.tx (hm.1 item hmem) hpool he)
    · simp [hm.1 item hmem] at htype
    · simp at hfail
  refine ⟨answered, ?_, by simpa [hnone] using h.perm, fun o ho => ?_⟩
  · simp only [handleGetdata, MessageInv.fromBytes_toBytes hm.2, hnone, h.sent]
  · have hmem : o.1 ∈ message.items :=
      h.perm.mem_iff.mp (List.mem_append_left _ (List.mem_map_of_mem ho))
    have hanswers := h.answers o ho
    obtain ⟨item, reply⟩ := o
    cases hanswers with
    | block htype _ _ => simp [hm.1 item hmem] at htype
    | tx _ hpool' hentry =>
      obtain rfl := Option.mem_unique hpool hpool'
      exact ⟨_, hstocked.taken _ _ hentry, rfl, hstocked.indexed.keyed _ _ hentry⟩

variable [DecidableEq ι]

variable {out : List (ι × Outgoing)}

theorem acts_of_mempool {node' : Node ι} (hmempool : node'.mempool = node.mempool)
    (hgood : Good cfg txs a node'.mempool node'.notices node'.task)
    (hsends : ∀ o ∈ out, o.1 ∈ cfg.peers a ∧ Relayed txs o.2 ∧
      ∀ k, (tells cfg.P o.2 k → k ∈ node.mempool.txs) ∧ (asks o.2 k → told o.1 k))
    (hknown : ∀ b k, k ∈ (node'.session b).invKnown ∨ node'.task.told b k →
      (k ∈ (node.session b).invKnown ∨ node.task.told b k) ∨ told b k ∨
        ∃ m, (b, m) ∈ out ∧ tells cfg.P m k)
    (hwaits : ∀ b ∈ cfg.peers a, ∀ k, k ∈ node.notices ∨ node.task.waits b k →
      (k ∈ node'.notices ∨ node'.task.waits b k) ∨
        (k ∈ (node.session b).invKnown ∨ node.task.told b k) ∨
        ∃ m, (b, m) ∈ out ∧ tells cfg.P m k) :
    Acts cfg.protocol (reading cfg txs) new told a node node' out := by
  have hheld : ∀ k, k ∈ node'.mempool.txs ↔ k ∈ node.mempool.txs := fun k => by rw [hmempool]
  refine ⟨hgood, fun k => (hheld k).mpr, fun k hk => .inl ((hheld k).mp hk), fun o ho => ?_, hknown,
    fun b hb k hk => hwaits b hb k (hk.resolve_right fun hk => hk.2 ((hheld k).mp hk.1))⟩
  obtain ⟨hpeer, hplain, hbacked⟩ := hsends o ho
  exact ⟨hpeer, hplain, fun k => (hbacked k).imp_left ((hheld k).mpr ∘ ·)⟩

theorem known_setSession {hashes : List Hash256} {b : ι} {k : Hash256}
    (hk : k ∈ ((Config.setSession node peer
      ((node.session peer).markInvKnown hashes)).session b).invKnown) :
    k ∈ (node.session b).invKnown ∨ b = peer ∧ k ∈ hashes := by
  by_cases hb : b = peer
  · subst hb
    simp only [Config.setSession, Function.update_self] at hk
    exact (mem_markInvKnown hk).imp_right fun hk => ⟨rfl, hk⟩
  · simp only [Config.setSession, Function.update_of_ne hb] at hk
    exact .inl hk

theorem handles_inv (hpeer : peer ∈ cfg.peers a)
    (hgood : Good cfg txs a node.mempool node.notices node.task) (hm : Relayed txs (.inv message)) :
    let r := cfg.protocol.handle a node peer (.inv message)
    Handles cfg.protocol (reading cfg txs) a peer (.inv message) node r.1 r.2 := by
  have hinv := handleInv_eq (cfg.shared a node) (node.session peer) rfl hm
  set unknown := message.items.filter fun item => item.hash ∉ node.mempool.txs with hunknown
  have hlen : unknown.length ≤ message.items.length := List.length_filter_le _ _
  simp only [Config.protocol, Config.handle, Outgoing.command, Outgoing.payload, if_true, hinv]
  refine ⟨acts_of_mempool rfl hgood (fun o ho => ?_) (fun b k hk => ?_) (fun b _ k hk => .inl hk),
    fun k hk => ?_, fun k hk => hk.elim, ?_⟩
  · split at ho
    · simp at ho
    · rw [List.map_singleton, List.mem_singleton] at ho
      subst ho
      refine ⟨hpeer, ⟨fun item hitem => hm.1 item (List.mem_of_mem_filter hitem), hlen.trans hm.2⟩,
        fun k => ⟨fun hk => hk.elim, fun ⟨item, hitem, hk⟩ => ⟨rfl, item, ?_, hk⟩⟩⟩
      exact List.mem_of_mem_filter hitem
  · rcases hk with hk | hk
    · exact (known_setSession hk).imp .inl fun ⟨hb, hk⟩ => .inl ⟨hb, List.mem_map.mp hk⟩
    · exact .inl (.inr hk)
  · obtain ⟨item, hitem, rfl⟩ := hk
    by_cases hheld : item.hash ∈ node.mempool.txs
    · exact .inl hheld
    · have hmem : item ∈ unknown := List.mem_filter.mpr ⟨hitem, by simpa using hheld⟩
      refine .inr ⟨.getdata ⟨unknown⟩, ?_, item, hmem, rfl⟩
      rw [if_neg (List.ne_nil_of_mem hmem)]
      simp
  · change cost cfg txs a node + _ < cost cfg txs a node + _
    split
    · simp [Reading.load, reading, price]
    · simp [Reading.load, reading, price]
      omega

theorem handles_getdata (hpeer : peer ∈ cfg.peers a)
    (hgood : Good cfg txs a node.mempool node.notices node.task)
    (hm : Relayed txs (.getdata message))
    (hheld : ∀ k, asks (.getdata message) k → k ∈ node.mempool.txs) :
    let r := cfg.protocol.handle a node peer (.getdata message)
    Handles cfg.protocol (reading cfg txs) a peer (.getdata message) node r.1 r.2 := by
  have hitems : ∀ item ∈ message.items, item.hash ∈ node.mempool.txs :=
    fun item hitem => hheld _ ⟨item, hitem, rfl⟩
  obtain ⟨answered, hget, hperm, htxs⟩ := handleGetdata_eq (cfg.shared a node)
    (node.session peer) hgood.stocked rfl hm hitems
  have hmem : ∀ o ∈ answered, o.1.hash ∈ node.mempool.txs := fun o ho =>
    hitems o.1 (hperm.mem_iff.mp (List.mem_map_of_mem ho))
  simp only [Config.protocol, Config.handle, Outgoing.command, Outgoing.payload, if_true, hget,
    show ("getdata" : String) ≠ "inv" by decide, if_false, Config.setSession,
    Function.update_eq_self]
  refine ⟨acts_of_mempool rfl hgood (fun o ho => ?_) (fun b k hk => .inl hk)
    (fun b _ k hk => .inl hk), fun k hk => hk.elim, fun k hk => ?_, ?_⟩
  · simp only [List.map_map, List.mem_map, Function.comp_apply] at ho
    obtain ⟨o', ho', rfl⟩ := ho
    obtain ⟨tx, htx, heq, htxid⟩ := htxs o' ho'
    simp only [heq]
    refine ⟨hpeer, htx, fun k => ⟨?_, fun hk => hk.elim⟩⟩
    rintro rfl
    exact htxid ▸ hmem o' ho'
  · obtain ⟨item, hitem, rfl⟩ := hk
    obtain ⟨o, ho, rfl⟩ := List.mem_map.mp (hperm.mem_iff.mpr hitem)
    obtain ⟨tx, _, heq, htxid⟩ := htxs o ho
    refine ⟨.tx tx, ?_, htxid.symm⟩
    simp only [List.map_map, List.mem_map, Function.comp_apply]
    exact ⟨o, ho, by rw [heq]⟩
  · have hlen := hperm.length_eq
    have hprice : ∀ o ∈ answered, price o.2 = 1 := by
      intro o ho
      obtain ⟨tx, _, heq, _⟩ := htxs o ho
      rw [heq]
      rfl
    have hload : (answered.map fun o => price o.2).sum = answered.length := by
      rw [List.map_congr_left hprice]
      simp
    change cost cfg txs a node + _ < cost cfg txs a node + (message.items.length + 2)
    simp only [Reading.load, reading, List.map_map, Function.comp_def, hload, List.length_map] at hlen ⊢
    omega

theorem acts_accept {tx : Transaction} (told : ι → Hash256 → Prop) (h : Compatible cfg txs)
    {session : ι → Session}
    (hgood : Good cfg txs a node.mempool node.notices node.task) (htx : tx ∈ txs)
    (hknown : ∀ b, ∀ k ∈ (session b).invKnown, k ∈ (node.session b).invKnown ∨ told b k) :
    let node' := { cfg.accept a node tx with session }
    Acts cfg.protocol (reading cfg txs) (· = tx.txid cfg.P) told a node node' [] ∧
      tx.txid cfg.P ∈ node'.mempool.txs ∧ cost cfg txs a node' ≤ cost cfg txs a node := by
  obtain ⟨hgood', hkeys, hnotices⟩ := hgood.accept h htx
  simp only [Config.accept]
  generalize acceptAndNotify cfg.P (cfg.ord a) (cfg.chainstate a) node.mempool node.notices tx = r
    at hgood' hkeys hnotices ⊢
  obtain ⟨pool, notices⟩ := r
  refine ⟨⟨hgood', fun k hk => (hkeys k).mpr (.inr hk), fun k hk => ((hkeys k).mp hk).symm, by simp,
    fun b k hk => ?_, fun b _ k hk => .inl ?_⟩, (hkeys _).mpr (.inl rfl), ?_⟩
  · rcases hk with hk | hk
    · exact (hknown b k hk).imp .inl .inl
    · exact .inl (.inr hk)
  · rcases hk with (hk | hk) | ⟨hk, hnew⟩
    · exact .inl (hnotices ▸ List.mem_append_left _ hk)
    · exact .inr hk
    · obtain rfl := ((hkeys k).mp hk).resolve_right hnew
      have hnew : tx.txid cfg.P ∉ node.mempool.txs := hnew
      rw [if_neg hnew] at hnotices
      exact .inl (hnotices ▸ List.mem_append_right _ (List.mem_singleton_self _))
  · -- a new transaction is no longer missing when its notice is there
    refine Nat.add_le_add_right (Nat.mul_le_mul_right _ ?_) _
    dsimp only at hkeys hnotices ⊢
    by_cases hmem : tx.txid cfg.P ∈ node.mempool.txs
    · have hsame : ∀ k, k ∈ pool.txs ↔ k ∈ node.mempool.txs := fun k =>
        (hkeys k).trans (or_iff_right_of_imp fun hk => hk ▸ hmem)
      simp [hsame, hnotices, hmem]
    · have herase : (txs.map (Transaction.txid cfg.P)).toFinset.filter (· ∉ pool.txs) =
          ((txs.map (Transaction.txid cfg.P)).toFinset.filter (· ∉ node.mempool.txs)).erase
            (tx.txid cfg.P) := by
        ext k
        simp only [Finset.mem_filter, Finset.mem_erase, hkeys, not_or]
        tauto
      have hmissing : tx.txid cfg.P ∈ (txs.map (Transaction.txid cfg.P)).toFinset.filter
          (· ∉ node.mempool.txs) :=
        Finset.mem_filter.mpr ⟨List.mem_toFinset.mpr (List.mem_map_of_mem htx), hmem⟩
      have hcard := Finset.card_erase_add_one hmissing
      rw [herase, hnotices, if_neg hmem, List.length_append, List.length_singleton]
      omega

theorem handles_tx {tx : Transaction} (h : Compatible cfg txs)
    (hgood : Good cfg txs a node.mempool node.notices node.task) (htx : tx ∈ txs) :
    let r := cfg.protocol.handle a node peer (.tx tx)
    Handles cfg.protocol (reading cfg txs) a peer (.tx tx) node r.1 r.2 := by
  have hmarked := fun (b : ι) (k : Hash256) => @known_setSession _ node peer _ [tx.txid cfg.P] b k
  simp only [Config.protocol, Config.handle, Outgoing.command, Outgoing.payload, handleTx,
    h.txFromBytes_toBytes a htx, Option.map_some, show ("tx" : String) ≠ "inv" by decide,
    show ("tx" : String) ≠ "getdata" by decide, if_false, if_true, List.map_nil]
  obtain ⟨hacts, hheld, hcost⟩ := acts_accept (fun c k => c = peer ∧ k = tx.txid cfg.P) h
    hgood htx fun b k hk => (hmarked b k hk).imp_right fun hk => ⟨hk.1, List.mem_singleton.mp hk.2⟩
  refine ⟨hacts, ?_, fun k hk => hk.elim, ?_⟩
  · rintro k rfl
    exact .inl hheld
  · exact Nat.lt_succ_of_le hcost

theorem relay_eq_none (h : cfg.relay a node = none) : node.task = .idle ∧ node.notices = [] := by
  rw [Config.relay] at h
  split at h
  · exact ⟨‹_›, ‹_›⟩
  · cases h
  · split at h <;> cases h
  all_goals cases h

theorem acts_relay {node' : Node ι} (hgood : Good cfg txs a node.mempool node.notices node.task)
    (h : cfg.relay a node = some (node', out)) :
    Acts cfg.protocol (reading cfg txs) (fun _ => False) (fun _ _ => False) a node node' out ∧
      cost cfg txs a node' + (reading cfg txs).load (out.map Prod.snd) < cost cfg txs a node := by
  obtain ⟨mempool, session, notices, task⟩ := node
  obtain ⟨hstocked, hlimit, hnodup, hnoticed, htask⟩ := hgood
  rw [Config.relay] at h
  split at h
  · cases h
  all_goals dsimp only at *
  · rename_i txid notices' hcase hnotices
    subst hcase hnotices
    cases h
    rw [List.forall_mem_cons] at hnoticed
    refine ⟨acts_of_mempool rfl ⟨hstocked, hlimit, (List.nodup_cons.mp hnodup).2, hnoticed.2,
      hnoticed.1, fun b => id⟩ (by simp) (by simp [Task.told]) fun b hb k hk => .inl ?_, ?_⟩
    · simpa [Task.waits, hb, or_comm] using hk
    · simp only [cost, Task.cost, Reading.load, List.map_nil, List.sum_nil, List.length_nil,
        List.length_cons, ← add_assoc, add_mul, one_mul]
      omega
  · rename_i txid peer pending sent hcase
    subst hcase
    rw [Task.Within, List.forall_mem_cons] at htask
    have hgood : Good cfg txs a mempool notices (.announcing txid pending sent) :=
      ⟨hstocked, hlimit, hnodup, hnoticed, htask.1, htask.2.2⟩
    split at h
    · rename_i hknown
      cases h
      refine ⟨acts_of_mempool rfl hgood (by simp) (fun b k hk => .inl hk) fun b _ k hk => ?_,
        by simp [cost, Task.cost, Reading.load]⟩
      rcases hk with hk | ⟨rfl, hk⟩
      · exact .inl (.inl hk)
      · rcases List.mem_cons.mp hk with rfl | hk
        · exact .inr (.inl (.inl hknown))
        · exact .inl (.inr ⟨rfl, hk⟩)
    · cases h
      have hsent : ∃ m, (peer, m) ∈ [(peer, Outgoing.inv ⟨[⟨.tx, txid⟩]⟩)] ∧ tells cfg.P m txid :=
        ⟨_, List.mem_singleton_self _, _, List.mem_singleton_self _, rfl⟩
      refine ⟨acts_of_mempool rfl ⟨hstocked, hlimit, hnodup, hnoticed, hgood.task⟩ (fun o ho => ?_)
        (fun b k hk => ?_) fun b _ k hk => ?_, ?_⟩
      · rw [List.mem_singleton.mp ho]
        refine ⟨htask.2.1, ⟨by simp, by simp [maxInvSize]⟩, fun k => ⟨?_, fun hk => hk.elim⟩⟩
        rintro ⟨item, hitem, rfl⟩
        rw [List.mem_singleton.mp hitem]
        exact htask.1
      · rcases hk with hk | ⟨rfl, hk⟩
        · exact .inl (.inl hk)
        · rcases List.mem_append.mp hk with hk | hk
          · exact .inl (.inr ⟨rfl, hk⟩)
          · exact .inr (.inr (List.mem_singleton.mp hk ▸ hsent))
      · rcases hk with hk | ⟨rfl, hk⟩
        · exact .inl (.inl hk)
        · rcases List.mem_cons.mp hk with rfl | hk
          · exact .inr (.inr hsent)
          · exact .inl (.inr ⟨rfl, hk⟩)
      · simp [cost, Task.cost, Reading.load, reading, price]
        omega
  · rename_i txid peer sent hcase
    subst hcase
    cases h
    refine ⟨acts_of_mempool rfl ⟨hstocked, hlimit, hnodup, hnoticed, htask⟩ (by simp)
      (fun b k hk => .inl ?_) (fun b _ k hk => .inl hk), Nat.add_lt_add_left (Nat.lt_succ_self _) _⟩
    rcases hk with hk | ⟨rfl, hk⟩
    · refine (known_setSession hk).imp_right fun hk => ⟨List.mem_singleton.mp hk.2, ?_⟩
      exact hk.1 ▸ List.mem_cons_self
    · exact .inr ⟨rfl, List.mem_cons_of_mem _ hk⟩
  · rename_i txid hcase
    subst hcase
    cases h
    exact ⟨acts_of_mempool rfl ⟨hstocked, hlimit, hnodup, hnoticed, trivial⟩ (by simp)
      (fun b k hk => .inl (hk.imp_right fun hk => hk.elim)) (by simp +contextual [Task.waits]),
      by simp [cost, Task.cost, Reading.load]⟩

theorem lawful (h : Compatible cfg txs) : Lawful cfg.protocol (reading cfg txs) where
  symm := cfg.symm
  accept := fun a node tx hgood htx => by
    obtain ⟨hacts, hheld, _⟩ := acts_accept (fun _ _ => False) h hgood htx fun b k hk =>
      .inl hk
    exact ⟨hacts, hheld⟩
  handle := fun a node peer m hgood hpeer hm hheld => by
    cases m with
    | inv message => exact handles_inv hpeer hgood hm
    | getdata message => exact handles_getdata hpeer hgood hm hheld
    | tx tx => exact handles_tx h hgood hm
    | getheaders message | notfound message | block bytes => exact hm.elim
  relay := fun a node node' out hgood hrelay => acts_relay hgood hrelay
  rests := fun a node _ hrelay c k hk => by
    obtain ⟨htask, hnotices⟩ := relay_eq_none hrelay
    simp [reading, htask, hnotices, Task.waits] at hk

end Laws

/-- Connected nodes to which compatible transactions are submitted, in any order
of steps: what is then left to do is bounded and comes to an end in every
order, and when nothing is left, a node's mempool has the transactions that
were submitted to the nodes it is connected with, directly or through others. -/
theorem transactions_reach_every_node [DecidableEq ι] [Fintype ι] (cfg : Config ι) (txs : List Transaction)
    (es : List (Event ι Transaction)) (h : Compatible cfg txs)
    (hes : ∀ e ∈ es, e.Within fun _ tx => tx ∈ txs) :
    let s := run (step cfg.protocol) initial es
    (∃ n, ∀ more, Along (step cfg.protocol) (Enabled cfg.protocol) s more → more.length ≤ n) ∧
    (∃ more, Along (step cfg.protocol) (Enabled cfg.protocol) s more ∧
      ∀ e, ¬ Enabled cfg.protocol (run (step cfg.protocol) s more) e) ∧
    ((∀ e, ¬ Enabled cfg.protocol s e) → ∀ a txid,
      (s.node a).mempool.contains txid = true ↔
        ∃ c tx, Relation.ReflTransGen (fun c d => d ∈ cfg.peers c) c a ∧ .submit c tx ∈ es ∧
          tx.txid cfg.P = txid) := by
  intro s
  obtain ⟨hbound, hend, hheld⟩ := holds_iff_of_quiet (lawful h) (fresh_initial cfg txs) hes
  refine ⟨hbound, hend, fun hquiet a txid => ?_⟩
  rw [Pool.contains, decide_eq_true_eq]
  exact hheld hquiet a txid


def rowPeers : Fin 3 → List (Fin 3)
  | 0 => [1]
  | 1 => [0, 2]
  | 2 => [1]

def row : Config (Fin 3) where
  P := poly
  ord := fun _ => .id
  chainstate := fun _ => fundedState
  headers := fun _ => HeaderRuns.easyStore
  chainHeight := fun _ => 0
  blockStore := fun _ => none
  peers := rowPeers
  symm := by decide

theorem row_compatible : Compatible row [payTx] where
  readable := by
    intro tx htx
    rw [List.mem_singleton.mp htx]
    exact ⟨by decide, by decide, by simp [payTx], by simp [payTx]⟩
  disjoint := by
    intro tx htx tx' htx' _ _ _
    rw [List.mem_singleton.mp htx, List.mem_singleton.mp htx']
  accepted := by
    intro a tx htx
    have haccept : (Pool.new.acceptTx poly .id payTx fundedState).toOption.isSome := by
      decide +kernel
    obtain ⟨r, hr⟩ := Option.isSome_iff_exists.mp haccept
    rw [List.mem_singleton.mp htx]
    exact ⟨r, Lib.Checked.toOption_eq_some.mp hr⟩
  room := by decide +kernel
  count := by decide

/-- `payTx` goes from the first node of the row to the last. -/
theorem payTx_reaches_the_last_node : ∃ more,
    let s := run (step row.protocol) initial (.submit 0 payTx :: more)
    (∀ e, ¬ Enabled row.protocol s e) ∧ (s.node 2).mempool.contains (payTx.txid poly) = true := by
  have hsubmit : ∀ e ∈ [(.submit 0 payTx : Event (Fin 3) Transaction)],
      e.Within fun _ tx => tx ∈ [payTx] := by
    simp [Event.Within]
  obtain ⟨_, ⟨more, halong, hquiet⟩, _⟩ := transactions_reach_every_node row [payTx]
    [.submit 0 payTx] row_compatible hsubmit
  have hmore : ∀ e ∈ .submit 0 payTx :: more, e.Within fun _ tx => tx ∈ [payTx] :=
    List.forall_mem_cons.mpr ⟨List.mem_singleton_self payTx,
      halong.forall_mem fun _ _ he => he.within _⟩
  have hall := transactions_reach_every_node row [payTx] (.submit 0 payTx :: more) row_compatible
    hmore
  refine ⟨more, hquiet, (hall.2.2 hquiet 2 _).mpr ⟨0, payTx, ?_, List.mem_cons_self, rfl⟩⟩
  exact (Relation.ReflTransGen.single (by decide : (1 : Fin 3) ∈ row.peers 0)).tail
    (by decide : (2 : Fin 3) ∈ row.peers 1)

end Ironcat.TxRelay
