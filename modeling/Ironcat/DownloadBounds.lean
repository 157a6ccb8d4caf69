import Ironcat.DownloadWindow
import Ironcat.Lib.MapTotal

/-!
# The memory of the download manager

`fill_window` counts the requests in flight and the buffered blocks together
before it asks for more, so that every block it has asked for finds room in the
buffer. The bounds hold after every event, and the branch of
`handle_received_block` that discards a block is never taken.
-/

namespace Ironcat.DownloadBounds

open Lib.ByteCodec Lib.FiniteMap Lib.MapTotal Lib.Runs Types StoredBytes Headers Reorg BlockDownload
open DownloadWindow NodeEvents

/-- `get_connected_writers`: the addresses of the node table, in the order in
which it is iterated, whose state is connected. -/
def getConnectedWriters (nodes : AList fun _ : Peer => Bool) : List Peer :=
  (nodes.entries.filter fun e => e.2).map Sigma.fst

/-- An event whose peers are read from the node table. -/
def Served : Event → Prop
  | .fillWindow peers => ∃ nodes, peers.writers = getConnectedWriters nodes
  | _ => True

/-- `handle_received_block` finds the buffer full and discards a checked block. -/
def Discards (P : Primitives) (amb : Ambient) (s : System) (hash : Hash256) (rawBytes : Bytes) :
    Prop :=
  ∃ entry block, s.download.inFlight.lookup hash = some entry ∧
    System.checkReceived P amb s.node.headers entry.height rawBytes = .ok block ∧
    s.download.nextConnectHeight < entry.height ∧
    maxPendingBlocks ≤ s.download.pendingBlocks.keys.card

structure Bounded (d : Download) : Prop where
  window : d.inFlight.keys.card ≤ windowSize
  perPeer : ∀ peer, peerUsed d peer ≤ perPeerLimit
  outstanding : d.inFlight.keys.card + d.pendingBlocks.keys.card ≤ maxPendingBlocks

variable {P : Primitives} {amb : Ambient} {hs : HeaderStore} {d d' : Download} {s s' : System}
variable {hash : Hash256} {rawBytes : Bytes}

theorem getConnectedWriters_nodup (nodes : AList fun _ : Peer => Bool) :
    (getConnectedWriters nodes).Nodup :=
  List.Nodup.sublist (List.filter_sublist.map Sigma.fst) nodes.nodupKeys

theorem peerUsed_eq_count (d : Download) (peer : Peer) :
    peerUsed d peer = count (fun e => e.peer = peer) d.inFlight := rfl

theorem Bounded.of_submap (h : Bounded d) (hflight : Submap d'.inFlight d.inFlight)
    (hpending : Submap d'.pendingBlocks d.pendingBlocks) : Bounded d' where
  window := (card_keys_le_of_submap hflight).trans h.window
  perPeer peer := by
    rw [peerUsed_eq_count]
    exact (count_le_of_submap hflight).trans (h.perPeer peer)
  outstanding := (add_le_add (card_keys_le_of_submap hflight)
    (card_keys_le_of_submap hpending)).trans h.outstanding

theorem Bounded.same (h : Bounded d) (hflight : d'.inFlight = d.inFlight)
    (hpending : d'.pendingBlocks = d.pendingBlocks) : Bounded d' :=
  h.of_submap (hflight ▸ Submap.refl _) (hpending ▸ Submap.refl _)

theorem Bounded.expire (h : Bounded d) (p : InFlightEntry → Bool) : Bounded (d.expire p) :=
  h.of_submap (fun _ _ => lookup_expire) (Submap.refl _)

theorem bounded_handleReorg (d : Download) (newTipHeight : ℕ) :
    Bounded (d.handleReorg newTipHeight) where
  window := Nat.zero_le _
  perPeer _ := Nat.zero_le _
  outstanding := Nat.zero_le _

section

variable (h : Bounded s.download)
include h

theorem Bounded.connected {block : Block} {height : ℕ}
    (hconn : ConnectedTo P s s' hash block height) : Bounded s'.download :=
  h.same hconn.inFlight hconn.pendingBlocks

theorem Bounded.dropPending (height : ℕ) : Bounded (s.dropPending height).download :=
  h.of_submap (Submap.refl _) (erase_submap _ _)

theorem Bounded.dropInFlight (hash : Hash256) : Bounded (s.dropInFlight hash).download :=
  h.of_submap (erase_submap _ _) (Submap.refl _)

theorem Bounded.drainPending (fuel : ℕ) : Bounded (s.drainPending P amb fuel).download :=
  drainPending_rule (fun t => Bounded t.download)
    (fun _ _ _ ht _ hconn => (ht.dropPending _).connected hconn)
    (fun _ ht => (ht.dropPending _).same rfl rfl) fuel h

theorem Bounded.buffer {entry : InFlightEntry}
    (hentry : s.download.inFlight.lookup hash = some entry) (height : ℕ) (e : PendingBlock) :
    Bounded ((s.dropInFlight hash).buffer height e).download := by
  have hdropped := h.dropInFlight hash
  refine ⟨hdropped.window, hdropped.perPeer, ?_⟩
  have herase := card_keys_erase hentry
  have hinsert := card_keys_insert_le s.download.pendingBlocks height e
  have hout := h.outstanding
  change (s.download.inFlight.erase hash).keys.card +
    (s.download.pendingBlocks.insert height e).keys.card ≤ maxPendingBlocks
  omega

theorem Bounded.received (hrec : Received P amb s hash rawBytes s') : Bounded s'.download := by
  cases hrec with
  | ignored => exact h
  | rejected => exact (h.dropInFlight hash).same rfl rfl
  | connected _ _ _ hconn => exact ((h.dropInFlight hash).connected hconn).drainPending _
  | buffered hentry => exact h.buffer hentry _ _
  | late =>
    obtain ⟨_, _, _, hstore⟩ := storeBlockData_eq amb (s.dropInFlight hash) hash rawBytes
    rw [hstore]
    exact (h.dropInFlight hash).same rfl rfl

theorem Bounded.handleBlock (amb : Ambient) (payload : Bytes) :
    Bounded (s.handleBlock P amb payload).download := by
  unfold System.handleBlock
  split
  · exact h
  · exact h.received (handleReceivedBlock_received P amb s _ payload)

theorem Bounded.catchUpChainstate (amb : Ambient) :
    Bounded (s.catchUpChainstate P amb).download := by
  have hkept : KeptByCatchUp P fun t => Bounded t.download :=
    fun _ _ _ _ ht _ _ hconn _ => ht.connected hconn
  have hloop := hkept.loop (s.cachedHeight + 1 - s.download.nextConnectHeight) h
  unfold System.catchUpChainstate
  dsimp only
  split_ifs
  · exact hloop.same rfl rfl
  · exact hloop

theorem Bounded.not_discards : ¬ Discards P amb s hash rawBytes := by
  intro ⟨entry, block, hentry, _, _, hfull⟩
  have herase := card_keys_erase hentry
  have hout := h.outstanding
  omega

end

section Fill

variable {chainHeight freeSlots : ℕ} {st : Scan}

theorem scanBatch_length_le {hashes : List (ℕ × Hash256)}
    (h : st.requestable.length ≤ freeSlots) :
    (scanBatch d freeSlots hashes st).requestable.length ≤ freeSlots := by
  induction hashes generalizing st with
  | nil => exact h
  | cons e hashes ih =>
    rw [scanBatch]
    by_cases hfull : freeSlots ≤ st.requestable.length
    · rwa [if_pos hfull]
    · rw [if_neg hfull]
      refine ih ?_
      dsimp only
      split_ifs
      · exact h
      · rw [List.length_append, List.length_singleton]
        omega

theorem collect_length_le (fuel : ℕ) (h : st.requestable.length ≤ freeSlots) :
    (collect hs d chainHeight freeSlots fuel st).requestable.length ≤ freeSlots := by
  induction fuel generalizing st with
  | zero => exact h
  | succ fuel ih =>
    rw [collect]
    split_ifs
    · split
      · exact h
      · exact ih (scanBatch_length_le h)
    · exact h

section

variable (now : ℕ) (peer : Peer) (peers : List (ℕ × Peer × ℕ)) (requestable : List (ℕ × Hash256))

theorem assign_length_le : (assign now peers requestable).length ≤ requestable.length := by
  have htake := congrArg List.length (assign_eq_take now peers requestable)
  rw [List.length_map, List.length_take] at htake
  omega

def slotsOf : ℕ :=
  ((peers.filter fun e => e.2.1 = peer).map fun e => e.2.2).sum

theorem slotsOf_cons (e : ℕ × Peer × ℕ) (peers : List (ℕ × Peer × ℕ)) :
    slotsOf peer (e :: peers) = (if e.2.1 = peer then e.2.2 else 0) + slotsOf peer peers := by
  by_cases h : e.2.1 = peer <;> simp [slotsOf, h]

theorem slotsOf_dropWhile :
    slotsOf peer (peers.dropWhile fun p => p.2.2 = 0) = slotsOf peer peers := by
  induction peers with
  | nil => rfl
  | cons e peers ih =>
    rw [List.dropWhile_cons]
    split_ifs with hzero
    · rw [ih, slotsOf_cons, of_decide_eq_true hzero, ite_self, Nat.zero_add]
    · rfl

theorem countP_assign_le :
    ((assign now peers requestable).countP fun r => r.entry.peer = peer) ≤ slotsOf peer peers := by
  induction requestable generalizing peers with
  | nil => exact Nat.zero_le _
  | cons e requestable ih =>
    rw [assign, ← slotsOf_dropWhile]
    cases hdrop : peers.dropWhile fun p => p.2.2 = 0 with
    | nil => exact Nat.zero_le _
    | cons top rest =>
      obtain ⟨writer, name, remaining⟩ := top
      have hrest := ih ((writer, name, remaining - 1) :: rest)
      have hpos : remaining ≠ 0 := by
        have hhead := List.head?_dropWhile_not (fun p : ℕ × Peer × ℕ => decide (p.2.2 = 0)) peers
        simpa [hdrop] using hhead
      rw [slotsOf_cons] at hrest ⊢
      dsimp only at hrest ⊢
      rw [List.countP_cons]
      by_cases hname : name = peer
      · simp only [hname, decide_true, if_true] at hrest ⊢
        omega
      · simp only [hname, decide_false, if_false] at hrest ⊢
        exact hrest

end

theorem slotsOf_le {peers : List (ℕ × Peer × ℕ)} (slots : Peer → ℕ) (peer : Peer)
    (hnodup : (peers.map fun e => e.2.1).Nodup) (hslots : ∀ e ∈ peers, e.2.2 = slots e.2.1) :
    slotsOf peer peers ≤ slots peer := by
  induction peers with
  | nil => exact Nat.zero_le _
  | cons e peers ih =>
    rw [List.map_cons, List.nodup_cons] at hnodup
    rw [List.forall_mem_cons] at hslots
    rw [slotsOf_cons]
    by_cases hname : e.2.1 = peer
    · have hrest : slotsOf peer peers = 0 := by
        rw [slotsOf, List.filter_eq_nil_iff.mpr, List.map_nil, List.sum_nil]
        intro e' he' heq
        refine hnodup.1 (List.mem_map.mpr ⟨e', he', ?_⟩)
        rw [hname, of_decide_eq_true heq]
      rw [if_pos hname, hrest, hslots.1, hname, Nat.add_zero]
    · rw [if_neg hname, Nat.zero_add]
      exact ih hnodup.2 hslots.2

theorem slotsOf_availablePeers_le {p : Peers} (hnodup : p.writers.Nodup) (d : Download)
    (peer : Peer) : slotsOf peer (availablePeers d p) ≤ perPeerLimit - peerUsed d peer := by
  refine slotsOf_le (fun peer => perPeerLimit - peerUsed d peer) peer ?_ ?_
  · have hsub : ((availablePeers d p).map fun e => e.2.1).Sublist
        (p.writers.zipIdx.map Prod.fst) := by
      refine (List.filter_sublist.map _).trans ?_
      rw [List.map_map]
      exact List.filter_sublist.map Prod.fst
    rw [List.zipIdx_map_fst] at hsub
    exact hnodup.sublist hsub
  · intro e he
    obtain ⟨x, _, rfl⟩ := List.mem_map.mp (List.mem_of_mem_filter he)
    rfl

theorem fillWindow_inFlight (hs : HeaderStore) (d : Download) (chainHeight : ℕ) (p : Peers) :
    (d.fillWindow hs chainHeight p).inFlight = d.inFlight ∨
    ∃ requestable : List (ℕ × Hash256), requestable.length ≤ d.freeSlots ∧
      (d.fillWindow hs chainHeight p).inFlight = insertAll d.inFlight
        (((assign p.now (availablePeers d p) requestable).filter fun r => !p.fails r.writer).map
          Request.binding) := by
  have hscan : (collect hs d chainHeight d.freeSlots (chainHeight + 1 - d.nextHeight)
      ⟨d.nextHeight, []⟩).requestable.length ≤ d.freeSlots :=
    collect_length_le _ (Nat.zero_le _)
  unfold Download.fillWindow
  dsimp only
  generalize collect hs d chainHeight d.freeSlots (chainHeight + 1 - d.nextHeight)
    ⟨d.nextHeight, []⟩ = st at hscan
  split_ifs
  · exact .inl rfl
  · exact .inl rfl
  · refine .inr ⟨st.requestable, hscan, ?_⟩
    split <;> rfl
  · exact .inl rfl

theorem Bounded.fillWindow (h : Bounded d) (hs : HeaderStore) (chainHeight : ℕ) {p : Peers}
    (hnodup : p.writers.Nodup) : Bounded (d.fillWindow hs chainHeight p) := by
  have hpending := pendingBlocks_fillWindow hs d chainHeight p
  rcases fillWindow_inFlight hs d chainHeight p with hsame | ⟨requestable, hlen, hflight⟩
  · exact h.same hsame hpending
  · generalize hsent : ((assign p.now (availablePeers d p) requestable).filter
      fun r => !p.fails r.writer) = sent at hflight
    have hadded : ∀ (q : InFlightEntry → Prop) [DecidablePred q],
        count q (d.fillWindow hs chainHeight p).inFlight ≤
          count q d.inFlight + (assign p.now (availablePeers d p) requestable).countP
            fun r => q r.entry := by
      intro q _
      rw [hflight]
      refine (count_insertAll_le _ _).trans (Nat.add_le_add_left ?_ _)
      rw [List.countP_map, ← hsent]
      exact List.filter_sublist.countP_le
    have hcard : (d.fillWindow hs chainHeight p).inFlight.keys.card ≤
        d.inFlight.keys.card + d.freeSlots := by
      rw [card_keys, card_keys]
      refine (hadded fun _ => True).trans (Nat.add_le_add_left ?_ _)
      exact (List.countP_le_length.trans (assign_length_le _ _ _)).trans hlen
    have hfree : d.freeSlots ≤ windowSize - d.inFlight.keys.card := min_le_left _ _
    have hroom : d.freeSlots ≤
        maxPendingBlocks - (d.pendingBlocks.keys.card + d.inFlight.keys.card) := min_le_right _ _
    have hwindow := h.window
    have hout := h.outstanding
    refine ⟨by omega, fun peer => ?_, by rw [hpending]; omega⟩
    have hpeer := h.perPeer peer
    have hslots := (countP_assign_le p.now peer (availablePeers d p) requestable).trans
      (slotsOf_availablePeers_le hnodup d peer)
    have hcount := hadded fun e => e.peer = peer
    rw [← peerUsed_eq_count, ← peerUsed_eq_count] at hcount
    omega

end Fill

theorem bounded_step {event : Event} (h : Bounded s.download) (hserved : Served event) :
    Bounded (step P s event).download := by
  cases event with
  | fillWindow peers =>
    obtain ⟨nodes, hnodes⟩ := hserved
    have hnodup : peers.writers.Nodup := hnodes ▸ getConnectedWriters_nodup nodes
    exact h.fillWindow _ _ hnodup
  | block amb payload => exact h.handleBlock amb payload
  | disconnected peer => exact h.expire _
  | timeoutScan strikes => exact h.expire _
  | reorgNotice =>
    simp only [step]
    split
    · exact h
    · exact bounded_handleReorg _ _
  | flush amb => exact h.same rfl rfl
  | catchUp amb => exact h.catchUpChainstate amb
  | headers batch => exact (download_receiveHeaders P s batch).symm ▸ h
  | activate ord mempoolLocked => exact (download_activate P ord mempoolLocked s).symm ▸ h
  | mempool pool => exact h

theorem bounded_start (node : Node) (blocks : BlockWriter) (indexRead : Bool) :
    Bounded (start node blocks indexRead).download where
  window := Nat.zero_le _
  perPeer _ := Nat.zero_le _
  outstanding := Nat.zero_le _

theorem download_memory_bounded (P : Primitives) (node : Node) (blocks : BlockWriter)
    (indexRead : Bool) (events : List Event) (hserved : ∀ event ∈ events, Served event) :
    let s := run (step P) (start node blocks indexRead) events
    s.download.inFlight.keys.card ≤ 512 ∧
    (∀ peer, (s.download.inFlight.entries.countP fun e => e.2.peer = peer) ≤ 48) ∧
    s.download.inFlight.keys.card + s.download.pendingBlocks.keys.card ≤ 1024 ∧
    ∀ amb hash rawBytes, ¬ Discards P amb s hash rawBytes := by
  have hrun : Bounded (run (step P) (start node blocks indexRead) events).download :=
    run_invariant (fun s : System => Bounded s.download) (fun _ _ h hcond => bounded_step h hcond)
      (bounded_start node blocks indexRead) (along_of_forall fun event hmem _ => hserved event hmem)
  exact ⟨hrun.window, hrun.perPeer, hrun.outstanding, fun _ _ _ => hrun.not_discards⟩

def twoRequests : List Event := [twoHeaders, .fillWindow (onePeer false)]

theorem served_twoRequests : ∀ event ∈ twoRequests, Served event := by
  simp only [twoRequests, List.forall_mem_cons, List.not_mem_nil, false_imp_iff, implies_true,
    and_true]
  exact ⟨trivial, AList.insert 7 true ∅, rfl⟩

theorem two_requests_bounded :
    (run (step poly) (start freshNode emptyBlocks true)
      twoRequests).download.inFlight.keys.card = 2 ∧
    ∀ amb hash rawBytes, ¬ Discards poly amb
      (run (step poly) (start freshNode emptyBlocks true) twoRequests) hash rawBytes :=
  ⟨by decide +kernel, (download_memory_bounded poly freshNode emptyBlocks true twoRequests
      served_twoRequests).2.2.2⟩

end Ironcat.DownloadBounds
