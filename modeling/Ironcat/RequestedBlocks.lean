import Ironcat.DownloadWindow

/-!
# Requests follow the active chain

Whatever the order of the events, the blocks that are in flight or buffered are
those of the active chain at their heights, unless a reorg is still to be
notified.
-/

namespace Ironcat.RequestedBlocks

open Lib.ByteCodec Lib.Checked Lib.FiniteMap Types BlockWire BlockContext Headers HeaderTree
open HeaderDepth Reorg BlockDownload NodeEvents DownloadWindow

variable {P : Primitives} {genesis : BlockHeader} {H : Set BlockHeader} {s s' : System}
variable {headers : HeaderStore} {hash : Hash256}

def GenuineEntry (P : Primitives) (H : Set BlockHeader) (e : PendingBlock) : Prop :=
  e.block.header.blockHash P = e.hash ∧ e.block.header ∈ H

structure Requested (P : Primitives) (H : Set BlockHeader) (s : System) : Prop where
  flying : s.notices = [] → ∀ hash e, s.download.inFlight.lookup hash = some e →
    s.node.headers.activeChain[e.height]? = some hash
  genuine : ∀ height e, s.download.pendingBlocks.lookup height = some e → GenuineEntry P H e
  buffered : s.notices = [] → ∀ height e, s.download.pendingBlocks.lookup height = some e →
    s.node.headers.activeChain[height]? = some e.hash

theorem getElem?_of_prefix {l l' : List Hash256} (h : l <+: l') {i : ℕ} (hi : l[i]? = some hash) :
    l'[i]? = some hash := by
  obtain ⟨rest, rfl⟩ := h
  rw [List.getElem?_append_left (List.getElem?_eq_some_iff.mp hi).1, hi]

theorem Requested.of_sub (h : Requested P H s) (hnotices : s'.notices = s.notices)
    (hchain : s.node.headers.activeChain <+: s'.node.headers.activeChain)
    (hflight : ∀ hash e, s'.download.inFlight.lookup hash = some e →
      s.download.inFlight.lookup hash = some e ∨ s'.node.headers.activeChain[e.height]? = some hash)
    (hpending : ∀ n e, s'.download.pendingBlocks.lookup n = some e →
      s.download.pendingBlocks.lookup n = some e ∨ GenuineEntry P H e ∧
        (s.notices = [] → s'.node.headers.activeChain[n]? = some e.hash)) : Requested P H s' := by
  refine ⟨fun hnone hash e he => ?_, fun n e hn => ?_, fun hnone n e hn => ?_⟩
  · rcases hflight hash e he with hold | hactive
    · exact getElem?_of_prefix hchain (h.flying (hnotices ▸ hnone) hash e hold)
    · exact hactive
  · rcases hpending n e hn with hold | ⟨hgenuine, _⟩
    · exact h.genuine n e hold
    · exact hgenuine
  · rcases hpending n e hn with hold | ⟨_, hactive⟩
    · exact getElem?_of_prefix hchain (h.buffered (hnotices ▸ hnone) n e hold)
    · exact hactive (hnotices ▸ hnone)

theorem Requested.connected {block : Block} {height : ℕ} (h : Requested P H s)
    (hconn : ConnectedTo P s s' hash block height) : Requested P H s' := by
  refine h.of_sub hconn.notices (hconn.headers ▸ List.prefix_refl _) (fun k e he => .inl ?_)
    fun n e hn => .inl ?_
  · exact hconn.inFlight ▸ he
  · exact hconn.pendingBlocks ▸ hn

theorem Requested.dropInFlight (h : Requested P H s) (hash : Hash256) :
    Requested P H (s.dropInFlight hash) :=
  h.of_sub rfl (List.prefix_refl _) (fun _ _ he => .inl (lookup_dropInFlight he)) fun _ _ => .inl

theorem lookup_dropPending {height n : ℕ} {e : PendingBlock}
    (h : (s.dropPending height).download.pendingBlocks.lookup n = some e) :
    s.download.pendingBlocks.lookup n = some e := by
  change (s.download.pendingBlocks.erase height).lookup n = some e at h
  rw [lookup_erase_eq] at h
  split_ifs at h
  exact h

theorem Requested.dropPending (h : Requested P H s) (height : ℕ) :
    Requested P H (s.dropPending height) :=
  h.of_sub rfl (List.prefix_refl _) (fun _ _ => .inl) fun _ _ hn => .inl (lookup_dropPending hn)

variable {amb : Ambient}

theorem Requested.drainPending (fuel : ℕ) (h : Requested P H s) :
    Requested P H (s.drainPending P amb fuel) :=
  drainPending_rule (Requested P H) (fun _ _ _ h _ hconn => (h.dropPending _).connected hconn)
    (fun _ h => (h.dropPending _).of_sub rfl (List.prefix_refl _) (fun _ _ => .inl)
      fun _ _ => .inl) fuel h

theorem header_of_checkReceived {height : ℕ} {rawBytes rest : Bytes} {block : Block}
    {header : BlockHeader} (h : System.checkReceived P amb headers height rawBytes = .ok block)
    (hread : readHeader rawBytes = some (header, rest)) : block.header = header := by
  obtain ⟨b, hparse, h⟩ := bind_eq_ok.mp h
  obtain ⟨_, _, h⟩ := bind_eq_ok.mp h
  have hblock : b = block := by
    split_ifs at h
    · obtain ⟨_, _, h⟩ := bind_eq_ok.mp h
      obtain ⟨_, _, h⟩ := bind_eq_ok.mp h
      obtain ⟨_, _, h⟩ := bind_eq_ok.mp h
      exact pure_eq_ok.mp h
    · exact pure_eq_ok.mp h
  obtain ⟨_, hheader⟩ :=
    readHeader_of_fromBytes (fromBytes_of_validate (mapError_eq_ok.mp hparse))
  rw [hread, Option.some.injEq, Prod.mk.injEq] at hheader
  rw [← hblock, hheader.1]

theorem Requested.received {header : BlockHeader} {rawBytes rest : Bytes} (h : Requested P H s)
    (hread : readHeader rawBytes = some (header, rest)) (hmem : header ∈ H)
    (hrec : Received P amb s (header.blockHash P) rawBytes s') : Requested P H s' := by
  have hdrop := h.dropInFlight (header.blockHash P)
  cases hrec with
  | ignored => exact h
  | rejected hentry =>
    exact hdrop.of_sub rfl (List.prefix_refl _) (fun _ _ => .inl) fun _ _ => .inl
  | connected hentry hcheck hheight hconn => exact (hdrop.connected hconn).drainPending _
  | @buffered entry block hentry hcheck =>
    have hheader := header_of_checkReceived hcheck hread
    refine hdrop.of_sub rfl (List.prefix_refl _) (fun _ _ => .inl) fun n e hn => ?_
    rcases lookup_insert_cases hn with ⟨rfl, rfl⟩ | hold
    · refine .inr ⟨⟨congrArg _ hheader, hheader ▸ hmem⟩, fun hnone => ?_⟩
      exact h.flying hnone _ entry hentry
    · exact .inl hold
  | late hentry _ =>
    obtain ⟨_, _, _, hstore⟩ :=
      storeBlockData_eq amb (s.dropInFlight (header.blockHash P)) (header.blockHash P) rawBytes
    rw [hstore]
    exact hdrop.of_sub rfl (List.prefix_refl _) (fun _ _ => .inl) fun _ _ => .inl

theorem Requested.handleBlock {payload : Bytes} (h : Requested P H s)
    (hgiven : ∀ header ∈ ((readHeader payload).map Prod.fst).toList, header ∈ H) :
    Requested P H (s.handleBlock P amb payload) := by
  unfold System.handleBlock
  cases hread : readHeader payload with
  | none => exact h
  | some r =>
    exact h.received hread (hgiven r.1 (by simp [hread]))
      (handleReceivedBlock_received P amb s (r.1.blockHash P) payload)

theorem Requested.catchUpChainstate (h : Requested P H s) :
    Requested P H (s.catchUpChainstate P amb) := by
  have hkept : KeptByCatchUp P (Requested P H) := fun _ _ _ _ h _ _ hconn _ => h.connected hconn
  have hloop := hkept.loop (s.cachedHeight + 1 - s.download.nextConnectHeight) h
  unfold System.catchUpChainstate
  dsimp only
  split_ifs
  · exact hloop.of_sub rfl (List.prefix_refl _) (fun _ _ => .inl) fun _ _ => .inl
  · exact hloop

theorem activeChain_of_inserts {hs hs' : HeaderStore} {batch : List BlockHeader} {persisted : Bool}
    (h : Inserts P hs hs' batch persisted) : hs.activeChain <+: hs'.activeChain := by
  refine h.invariant (fun T => hs.activeChain <+: T.activeChain) (fun _ _ h => h) ?_
    (List.prefix_refl _)
  intro T k t extend _ _ hT
  cases extend with
  | false => exact hT
  | true => exact hT.trans (List.prefix_append _ _)

theorem activeChain_receiveHeaders (hinj : HashInjOn P H)
    {batch : List BlockHeader} (hsub : ∀ header ∈ batch, header ∈ H)
    (h : Placed P genesis H s.node.headers) :
    s.node.headers.activeChain <+: (receiveHeaders P s batch).node.headers.activeChain := by
  unfold receiveHeaders
  by_cases hempty : batch = []
  · rw [if_pos hempty]
  · rw [if_neg hempty]
    split
    · next hs stored hok =>
      have hins := validateAndCommit_inserts h.trunk (hinj.mono fun a ha => hsub a ha) hok
      have hchain := activeChain_of_inserts hins
      dsimp only
      split_ifs
      · exact hchain
      · unfold persistHeaders
        rwa [persistBatch_eq]
    · exact List.prefix_refl _

theorem notices_receiveHeaders (P : Primitives) (s : System) (batch : List BlockHeader) :
    (receiveHeaders P s batch).notices = s.notices := by
  obtain ⟨hs, height, bits, heq⟩ := receiveHeaders_eq P s batch
  rw [heq]
  rfl

theorem Requested.tryActivateBestChain (ord : IterOrder) (mempoolLocked : Bool)
    (h : Requested P H s) : Requested P H (tryActivateBestChain P ord mempoolLocked s) := by
  unfold NodeEvents.tryActivateBestChain
  split_ifs
  · exact h
  · exact h
  · exact h
  · unfold activate
    dsimp only
    -- a reorg leaves a notice behind, and nothing else moves the active chain
    split
    · exact ⟨by simp, h.genuine, by simp⟩
    · next hresult =>
      refine h.of_sub rfl ?_ (fun _ _ => .inl) fun _ _ => .inl
      rcases activateBestChain_headers P ord s.blocks.reader s.node with
        heq | ⟨hash, heq⟩ | ⟨_, _, _, _, _, heq⟩
      · exact heq.symm ▸ List.prefix_refl _
      · exact heq.symm ▸ List.prefix_refl _
      · exact absurd heq (hresult _ _ _ _)

theorem requested_step (hinj : HashInjOn P H) {event : Event}
    (hgiven : ∀ header ∈ event.given, header ∈ H) (hplaced : Placed P genesis H s.node.headers)
    (h : Requested P H s) : Requested P H (step P s event) := by
  cases event with
  | fillWindow peers =>
    refine h.of_sub rfl (List.prefix_refl _) (fun hash e => lookup_fillWindow) fun n e hn => .inl ?_
    exact pendingBlocks_fillWindow _ _ _ _ ▸ hn
  | block amb payload => exact h.handleBlock hgiven
  | disconnected peer | timeoutScan strikes =>
    exact h.of_sub rfl (List.prefix_refl _) (fun _ _ he => .inl (lookup_expire he)) fun _ _ => .inl
  | reorgNotice =>
    simp only [step]
    split
    · exact h
    · exact ⟨by simp [Download.handleReorg], by simp [Download.handleReorg],
        by simp [Download.handleReorg]⟩
  | flush amb | mempool pool =>
    exact h.of_sub rfl (List.prefix_refl _) (fun _ _ => .inl) fun _ _ => .inl
  | catchUp amb => exact h.catchUpChainstate
  | headers batch =>
    have hdownload := download_receiveHeaders P s batch
    refine h.of_sub (notices_receiveHeaders P s batch)
      (activeChain_receiveHeaders hinj hgiven hplaced) (fun _ _ he => .inl ?_) fun _ _ hn => .inl ?_
    · exact hdownload ▸ he
    · exact hdownload ▸ hn
  | activate ord mempoolLocked => exact h.tryActivateBestChain ord mempoolLocked

theorem requested_start (node : Node) (blocks : StoredBytes.BlockWriter) (indexRead : Bool) :
    Requested P H (start node blocks indexRead) := by
  refine ⟨?_, ?_, ?_⟩ <;> simp [start, Download.new]

end Ironcat.RequestedBlocks
