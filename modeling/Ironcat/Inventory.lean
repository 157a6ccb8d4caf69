import Ironcat.MempoolIndex
import Ironcat.Payloads

/-!
# Inventory

The handlers of `inv`, `getdata`, `tx` and `mempool` in `nodes/handler_inv.rs`,
`nodes/handler_tx.rs` and `nodes/handler_mempool.rs`, and one step of the task
in `main.rs` that announces the transactions the mempool accepts.

A handler takes what it reads of the node and the fields it keeps for the peer,
and gives those fields back with the messages it writes. Whether a write
succeeds is decided by `sends`, which counts the writes of the handler.
-/

namespace Ironcat.Inventory

open Lib.ByteCodec Lib.ByteCodec.Reader Types Chainstate Headers BlockWire BlockFiles Mempool
open MempoolClosure MempoolIndex Locator Payloads

def maxInvKnown : ℕ := 50000

def maxBlocksPerGetdata : ℕ := 16

def notifyCapacity : ℕ := 256

/-- The limit of `Transaction::from_bytes`. -/
def maxWireTxSize : ℕ := 1000000

/-- The fields of a `Node` that these handlers read and write. -/
structure Session where
  invKnown : Finset Hash256
  height : Int32
  strikeExcluded : Bool
  pendingGetheaders : Option ℕ

/-- What the handlers of all peers share. -/
structure Shared where
  headers : HeaderStore
  chainHeight : UInt32
  blockStore : Option BlockStore
  mempool : Option Pool

inductive Outgoing
  | getheaders (message : MessageGetHeaders)
  | inv (message : MessageInv)
  | getdata (message : MessageInv)
  | notfound (message : MessageInv)
  | block (bytes : Bytes)
  | tx (transaction : Transaction)
deriving DecidableEq

namespace Outgoing

def command : Outgoing → String
  | getheaders _ => "getheaders"
  | inv _ => "inv"
  | getdata _ => "getdata"
  | notfound _ => "notfound"
  | block _ => "block"
  | tx _ => "tx"

def payload : Outgoing → Bytes
  | getheaders message => message.toBytes
  | inv message | getdata message | notfound message => message.toBytes
  | block bytes => bytes
  | tx transaction => transaction.toBytes

end Outgoing

structure Handled where
  session : Session
  sent : List Outgoing
  ok : Bool

def Session.markInvKnown (session : Session) (hashes : List Hash256) : Session :=
  { session with
    invKnown := (if maxInvKnown ≤ session.invKnown.card then ∅ else session.invKnown) ∪
      hashes.toFinset }

def hasNewBlocks (hs : HeaderStore) (items : List InvItem) : Bool :=
  items.any fun item => item.invType = .block ∧ (hs.get item.hash).isNone

def bumpHeight (chainHeight : UInt32) (session : Session) : Session :=
  let estimated := (saturatingSucc chainHeight).toInt32
  if session.height < estimated then { session with height := estimated } else session

def unknownTxids (mempool : Option Pool) (items : List InvItem) : List InvItem :=
  match mempool with
  | some pool => items.filter fun item => item.invType = .tx && !pool.contains item.hash
  | none => []

/-- The last part of `handle_inv`, after the messages in `sent`. -/
def requestTxs (sends : ℕ → Bool) (mempool : Option Pool) (items : List InvItem)
    (session : Session) (sent : List Outgoing) : Handled :=
  match unknownTxids mempool items with
  | [] => ⟨session, sent, true⟩
  | unknown =>
    if sends sent.length then ⟨session, sent ++ [.getdata ⟨unknown⟩], true⟩
    else ⟨session, sent, false⟩

def handleInv (sends : ℕ → Bool) (now : ℕ) (shared : Shared) (session : Session)
    (payload : Bytes) : Handled :=
  match MessageInv.fromBytes payload with
  | none => ⟨session, [], false⟩
  | some inv =>
    let session := session.markInvKnown (inv.items.map InvItem.hash)
    if hasNewBlocks shared.headers inv.items then
      let session := bumpHeight shared.chainHeight session
      if session.strikeExcluded then requestTxs sends shared.mempool inv.items session []
      else
        match buildLocator shared.headers with
        | none => ⟨session, [], false⟩
        | some locator =>
          if sends 0 then
            requestTxs sends shared.mempool inv.items
              { session with pendingGetheaders := some now } [.getheaders ⟨locator, 0⟩]
          else ⟨session, [], false⟩
    else requestTxs sends shared.mempool inv.items session []

/-- The state of the loop of `handle_getdata`. -/
structure Serving where
  notfound : List InvItem
  blocksServed : ℕ
  sent : List Outgoing
  attempts : ℕ

namespace Serving

def start : Serving := ⟨[], 0, [], 0⟩

def miss (st : Serving) (item : InvItem) : Serving :=
  { st with notfound := st.notfound ++ [item] }

def write (sends : ℕ → Bool) (st : Serving) (item : InvItem) (message : Outgoing) (blocks : ℕ) :
    Serving :=
  if sends st.attempts then
    { st with
      blocksServed := st.blocksServed + blocks
      sent := st.sent ++ [message]
      attempts := st.attempts + 1 }
  else { st.miss item with attempts := st.attempts + 1 }

def serveItem (sends : ℕ → Bool) (shared : Shared) (st : Serving) (item : InvItem) : Serving :=
  match item.invType with
  | .block =>
    if maxBlocksPerGetdata ≤ st.blocksServed then st.miss item
    else
      match shared.blockStore with
      | none => st.miss item
      | some store =>
        match store.loadBlock item.hash with
        | .ok bytes => st.write sends item (.block bytes) 1
        | .error _ => st.miss item
  | .tx =>
    match shared.mempool with
    | none => st.miss item
    | some pool =>
      match pool.txs.lookup item.hash with
      | some entry => st.write sends item (.tx entry.tx) 0
      | none => st.miss item
  | _ => st.miss item

end Serving

def handleGetdata (sends : ℕ → Bool) (shared : Shared) (session : Session) (payload : Bytes) :
    Handled :=
  match MessageInv.fromBytes payload with
  | none => ⟨session, [], false⟩
  | some inv =>
    let st := inv.items.foldl (Serving.serveItem sends shared) .start
    match st.notfound with
    | [] => ⟨session, st.sent, true⟩
    | notfound =>
      if sends st.attempts then ⟨session, st.sent ++ [.notfound ⟨notfound⟩], true⟩
      else ⟨session, st.sent, false⟩

def txFromBytes (bytes : Bytes) : Option Transaction :=
  if maxWireTxSize < bytes.length then none else (readTransaction bytes).map Prod.fst

def notify (notices : List Hash256) (txid : Hash256) : List Hash256 :=
  (notices ++ [txid]).drop (notices.length + 1 - notifyCapacity)

/-- `accept_tx` with the notice it sends to the relay task. -/
def acceptAndNotify (P : Primitives) (ord : IterOrder) (cs : ChainState) (pool : Pool)
    (notices : List Hash256) (tx : Transaction) : Pool × List Hash256 :=
  match pool.acceptTx P ord tx cs with
  | .ok (pool, txid) => (pool, notify notices txid)
  | .error _ => (pool, notices)

def handleTx (P : Primitives) (ord : IterOrder) (cs : ChainState) (session : Session) (pool : Pool)
    (notices : List Hash256) (payload : Bytes) : Option (Session × Pool × List Hash256) :=
  (txFromBytes payload).map fun tx =>
    (session.markInvKnown [tx.txid P], acceptAndNotify P ord cs pool notices tx)

inductive Answers (shared : Shared) (item : InvItem) : Outgoing → Prop
  | block {store : BlockStore} {bytes : Bytes} (htype : item.invType = .block)
      (hstore : shared.blockStore = some store) (hload : store.loadBlock item.hash = .ok bytes) :
      Answers shared item (.block bytes)
  | tx {pool : Pool} {entry : MempoolEntry} (htype : item.invType = .tx)
      (hpool : shared.mempool = some pool) (hentry : pool.txs.lookup item.hash = some entry) :
      Answers shared item (.tx entry.tx)

def blocksIn (answered : List (InvItem × Outgoing)) : ℕ :=
  answered.countP fun a => a.1.invType = .block

def Excused (sends : ℕ → Bool) (shared : Shared) (blocks attempts : ℕ) (item : InvItem) : Prop :=
  (∀ message, ¬ Answers shared item message) ∨
    (item.invType = .block ∧ blocks = maxBlocksPerGetdata) ∨ ∃ n < attempts, sends n = false

/-- The loop of `handle_getdata` after `items`, of which `answered` have been
served. -/
structure ServedUpTo (sends : ℕ → Bool) (shared : Shared) (items : List InvItem)
    (answered : List (InvItem × Outgoing)) (st : Serving) : Prop where
  sent : st.sent = answered.map Prod.snd
  answers : ∀ a ∈ answered, Answers shared a.1 a.2
  perm : (answered.map Prod.fst ++ st.notfound).Perm items
  blocks : st.blocksServed = blocksIn answered
  bound : st.blocksServed ≤ maxBlocksPerGetdata
  attempts : st.attempts ≤ items.length
  excused : ∀ item ∈ st.notfound, Excused sends shared st.blocksServed st.attempts item

section ServedUpTo

variable {sends : ℕ → Bool} {shared : Shared} {items : List InvItem}
variable {answered : List (InvItem × Outgoing)} {st : Serving} {item : InvItem}

theorem Excused.mono {blocks blocks' attempts attempts' : ℕ}
    (h : Excused sends shared blocks attempts item) (hblocks : blocks ≤ blocks')
    (hbound : blocks' ≤ maxBlocksPerGetdata) (hattempts : attempts ≤ attempts') :
    Excused sends shared blocks' attempts' item := by
  rcases h with hnone | ⟨htype, hfull⟩ | ⟨n, hn, hfail⟩
  · exact .inl hnone
  · exact .inr (.inl ⟨htype, by omega⟩)
  · exact .inr (.inr ⟨n, by omega, hfail⟩)

theorem ServedUpTo.miss (h : ServedUpTo sends shared items answered st) {attempts : ℕ}
    (hattempts : st.attempts ≤ attempts) (hnext : attempts ≤ st.attempts + 1)
    (hexcused : Excused sends shared st.blocksServed attempts item) :
    ServedUpTo sends shared (items ++ [item]) answered { st.miss item with attempts } where
  sent := h.sent
  answers := h.answers
  perm := by
    simp only [Serving.miss, ← List.append_assoc]
    exact h.perm.append_right [item]
  blocks := h.blocks
  bound := h.bound
  attempts := by
    rw [List.length_append]
    exact hnext.trans (Nat.add_le_add_right h.attempts 1)
  excused := fun i hi => by
    rcases List.mem_append.mp hi with hi | hi
    · exact (h.excused i hi).mono le_rfl h.bound hattempts
    · rw [List.mem_singleton.mp hi]
      exact hexcused

theorem ServedUpTo.write (h : ServedUpTo sends shared items answered st) {message : Outgoing} {blocks : ℕ}
    (hanswers : Answers shared item message)
    (hblocks : blocks = if item.invType = .block then 1 else 0)
    (hbound : st.blocksServed + blocks ≤ maxBlocksPerGetdata) :
    ∃ answered', ServedUpTo sends shared (items ++ [item]) answered'
      (st.write sends item message blocks) := by
  rw [Serving.write]
  split
  · rename_i hsends
    have hperm : ((answered ++ [(item, message)]).map Prod.fst ++ st.notfound).Perm
        (items ++ [item]) := by
      simp only [List.map_append, List.map_cons, List.map_nil, List.append_assoc]
      exact (List.perm_append_comm.append_left _).trans
        (by simpa [List.append_assoc] using h.perm.append_right [item])
    refine ⟨answered ++ [(item, message)], by simp [h.sent], fun a ha => ?_, hperm, ?_, hbound,
      by simpa using h.attempts, fun i hi => (h.excused i hi).mono (by simp) hbound (Nat.le_succ _)⟩
    · rcases List.mem_append.mp ha with ha | ha
      · exact h.answers a ha
      · rw [List.mem_singleton.mp ha]
        exact hanswers
    · rw [blocksIn, List.countP_append, hblocks]
      simp [h.blocks, blocksIn, List.countP_cons]
  · rename_i hsends
    exact ⟨answered, h.miss (Nat.le_succ _) le_rfl
      (.inr (.inr ⟨st.attempts, Nat.lt_succ_self _, by simpa using hsends⟩))⟩

theorem ServedUpTo.serveItem (h : ServedUpTo sends shared items answered st) (item : InvItem) :
    ∃ answered', ServedUpTo sends shared (items ++ [item]) answered'
      (st.serveItem sends shared item) := by
  have hmiss : Excused sends shared st.blocksServed st.attempts item →
      ∃ answered', ServedUpTo sends shared (items ++ [item]) answered' (st.miss item) :=
    fun hexcused => ⟨answered, h.miss le_rfl (Nat.le_succ _) hexcused⟩
  rw [Serving.serveItem]
  cases htype : item.invType with
  | block =>
    simp only
    split
    · rename_i hfull
      exact hmiss (.inr (.inl ⟨htype, le_antisymm h.bound hfull⟩))
    rename_i hroom
    cases hstore : shared.blockStore with
    | none =>
      refine hmiss (.inl fun m hm => ?_)
      cases hm <;> simp_all
    | some store =>
      dsimp only
      cases hload : store.loadBlock item.hash with
      | ok bytes => exact h.write (.block htype hstore hload) (by simp [htype]) (by omega)
      | error e =>
        refine hmiss (.inl fun m hm => ?_)
        cases hm <;> simp_all
  | tx =>
    simp only
    cases hpool : shared.mempool with
    | none =>
      refine hmiss (.inl fun m hm => ?_)
      cases hm <;> simp_all
    | some pool =>
      dsimp only
      cases hentry : pool.txs.lookup item.hash with
      | some entry => exact h.write (.tx htype hpool hentry) (by simp [htype]) h.bound
      | none =>
        refine hmiss (.inl fun m hm => ?_)
        cases hm <;> simp_all
  | filteredBlock | compactBlock =>
    refine hmiss (.inl fun m hm => ?_)
    cases hm <;> simp_all

theorem served_items (sends : ℕ → Bool) (shared : Shared) (items : List InvItem) :
    ∃ answered, ServedUpTo sends shared items answered
      (items.foldl (Serving.serveItem sends shared) .start) := by
  induction items using List.reverseRecOn with
  | nil => exact ⟨[], rfl, by simp, List.Perm.refl _, rfl, Nat.zero_le _, Nat.zero_le _,
      by simp [Serving.start]⟩
  | append_singleton items item ih =>
    obtain ⟨answered, h⟩ := ih
    rw [List.foldl_concat]
    exact h.serveItem item

end ServedUpTo

theorem length_readMany {α : Type} {r : Reader α} {n : ℕ} {bytes rest : Bytes} {xs : List α}
    (h : readMany r n bytes = some (xs, rest)) : xs.length = n := by
  induction n generalizing bytes xs with
  | zero =>
    cases h
    rfl
  | succ n ih =>
    obtain ⟨x, mid, _, h⟩ := bind_eq_some.mp h
    obtain ⟨ys, mid', hys, h⟩ := bind_eq_some.mp h
    cases h
    rw [List.length_cons, ih hys]

theorem length_items_le {payload : Bytes} {inv : MessageInv}
    (h : MessageInv.fromBytes payload = some inv) : inv.items.length ≤ maxInvSize := by
  simp only [MessageInv.fromBytes, Option.map_map, Option.map_eq_some_iff] at h
  obtain ⟨⟨entries, rest⟩, hread, rfl⟩ := h
  obtain ⟨count, mid, _, hread⟩ := bind_eq_some.mp hread
  obtain ⟨_, mid', hmax, hmany⟩ := bind_eq_some.mp hread
  obtain ⟨hcount, rfl⟩ := require_eq_some hmax
  exact (List.length_filterMap_le id entries).trans ((length_readMany hmany).le.trans hcount)

/-- Every item of a `getdata` message is answered once: with its block or its
transaction, which has the txid that was asked for, or in one `notfound`
message that the peer can read. No more than 16 blocks are sent, and an item is
reported as not found only if the node lacks it, the 16 blocks have been sent
or a write has failed. -/
theorem getdata_answers_every_item (P : Primitives) (maxSize : ℕ) (calls : List Call)
    (sends : ℕ → Bool) (shared : Shared) (session : Session) (payload : Bytes) (inv : MessageInv)
    (hpool : shared.mempool = some (runCalls P maxSize calls))
    (hparse : MessageInv.fromBytes payload = some inv) :
    ∃ (answered : List (InvItem × Outgoing)) (missing : List InvItem),
      let r := handleGetdata sends shared session payload
      r.sent = answered.map Prod.snd ++
        (if missing ≠ [] ∧ r.ok then [.notfound ⟨missing⟩] else []) ∧
      (answered.map Prod.fst ++ missing).Perm inv.items ∧
      (∀ a ∈ answered, Answers shared a.1 a.2) ∧
      (∀ a ∈ answered, ∀ tx, a.2 = .tx tx → tx.txid P = a.1.hash) ∧
      blocksIn answered ≤ maxBlocksPerGetdata ∧
      MessageInv.fromBytes (Outgoing.notfound ⟨missing⟩).payload = some ⟨missing⟩ ∧
      (∀ item ∈ missing, (∀ message, ¬ Answers shared item message) ∨
        (item.invType = .block ∧ blocksIn answered = maxBlocksPerGetdata) ∨
        ∃ n < inv.items.length, sends n = false) := by
  obtain ⟨answered, h⟩ := served_items sends shared inv.items
  set st := inv.items.foldl (Serving.serveItem sends shared) .start with hst
  have hlen : st.notfound.length ≤ maxInvSize := by
    have hsum := h.perm.length_eq
    rw [List.length_append] at hsum
    have hitems := length_items_le hparse
    omega
  refine ⟨answered, st.notfound, ?_, h.perm, h.answers, fun a ha tx htx => ?_, h.blocks ▸ h.bound,
    MessageInv.fromBytes_toBytes hlen, fun item hitem => ?_⟩
  · simp only [handleGetdata, hparse, ← hst]
    cases hnotfound : st.notfound with
    | nil => simp [h.sent]
    | cons item rest =>
      by_cases hsends : sends st.attempts
      · simp [hsends, h.sent]
      · simp [hsends, h.sent]
  · have hanswer := h.answers a ha
    rw [htx] at hanswer
    cases hanswer with
    | tx htype hpool' hentry =>
      obtain rfl := Option.mem_unique hpool hpool'
      exact (exact_runCalls P maxSize calls).accounted.indexed.keyed _ _ hentry
  · rcases h.excused item hitem with hnone | ⟨htype, hfull⟩ | ⟨n, hn, hfail⟩
    · exact .inl hnone
    · exact .inr (.inl ⟨htype, h.blocks ▸ hfull⟩)
    · exact .inr (.inr ⟨n, hn.trans_le h.attempts, hfail⟩)

def payShared : Shared where
  headers := HeaderRuns.easyStore
  chainHeight := 0
  blockStore := none
  mempool := some (runCalls poly 1000 [.acceptTx .id payTx fundedState])

def payRequest : MessageInv := ⟨[⟨.tx, payTx.txid poly⟩, ⟨.block, 7⟩]⟩

theorem getdata_answers_payRequest :
    ∃ (answered : List (InvItem × Outgoing)) (missing : List InvItem),
      (answered.map Prod.fst ++ missing).Perm payRequest.items ∧
      ∀ a ∈ answered, ∀ tx, a.2 = .tx tx → tx.txid poly = a.1.hash := by
  have hparse : MessageInv.fromBytes payRequest.toBytes = some payRequest :=
    MessageInv.fromBytes_toBytes (by decide)
  obtain ⟨answered, missing, _, hperm, _, htxid, _⟩ :=
    getdata_answers_every_item poly 1000 [.acceptTx .id payTx fundedState]
      (fun _ => true) payShared ⟨∅, 0, false, none⟩ payRequest.toBytes
      payRequest rfl hparse
  exact ⟨answered, missing, hperm, htxid⟩

end Ironcat.Inventory
