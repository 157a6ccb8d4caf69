import Ironcat.NodeEvents

/-!
# No block is lost by the download window

Every height between the next one to connect and the next one to request is in
flight or buffered. Every event keeps this but `fill_window`: it passes over
blocks that are stored and not connected, and it forgets the heights it has
scanned when no peer can take a request.
-/

namespace Ironcat.DownloadWindow

open Lib.FiniteMap Lib.Runs Lib.ByteCodec Types StoredBytes Headers HeaderRuns
open HeaderTree HeaderDepth Reorg BlockDownload NodeEvents

variable {P : Primitives} {genesis : BlockHeader} {H : Set BlockHeader} {hs : HeaderStore}
variable {d d' : Download} {s s' : System}

def Covered (d : Download) (h : ℕ) : Prop :=
  (∃ hash e, d.inFlight.lookup hash = some e ∧ e.height = h) ∨ h ∈ d.pendingBlocks

def Window (d : Download) : Prop :=
  ∀ h, d.nextConnectHeight ≤ h → h < d.nextHeight → Covered d h

structure Tracked (P : Primitives) (genesis : BlockHeader) (H : Set BlockHeader) (d : Download) :
    Prop where
  window : Window d
  flying : ∀ hash e, d.inFlight.lookup hash = some e → Depth P genesis H hash e.height

theorem Tracked.of_sub (h : Tracked P genesis H d)
    (hconnect : d.nextConnectHeight ≤ d'.nextConnectHeight) (hnext : d'.nextHeight ≤ d.nextHeight)
    (hsub : ∀ hash e, d'.inFlight.lookup hash = some e → d.inFlight.lookup hash = some e)
    (hcov : ∀ n, d'.nextConnectHeight ≤ n → n < d'.nextHeight → Covered d n → Covered d' n) :
    Tracked P genesis H d' where
  window n hlo hhi := hcov n hlo hhi (h.window n (hconnect.trans hlo) (hhi.trans_le hnext))
  flying hash e hlook := h.flying hash e (hsub hash e hlook)

variable {n : ℕ}

theorem lt_fold_min {heights : Multiset ℕ} {k : ℕ} :
    k < heights.fold min n ↔ k < n ∧ ∀ h ∈ heights, k < h := by
  induction heights using Multiset.induction_on with
  | empty => simp
  | cons a heights ih =>
    rw [Multiset.fold_cons_left, lt_min_iff, ih, Multiset.forall_mem_cons]
    tauto

variable {hash : Hash256} {e : InFlightEntry}

theorem lookup_expire {p : InFlightEntry → Bool} (h : (d.expire p).inFlight.lookup hash = some e) :
    d.inFlight.lookup hash = some e := by
  change (filterValues d.inFlight _).lookup hash = some e at h
  rw [lookup_filterValues, Option.filter_eq_some_iff] at h
  exact h.1

theorem Tracked.expire (h : Tracked P genesis H d) (p : InFlightEntry → Bool) :
    Tracked P genesis H (d.expire p) := by
  have hlt : ∀ {k}, k < (d.expire p).nextHeight → k < d.nextHeight ∧
      ∀ n ∈ (d.inFlight.entries.filter fun e => p e.2).map (fun e => e.2.height), k < n :=
    fun hk => lt_fold_min.mp hk
  have hlook : ∀ hash, (d.expire p).inFlight.lookup hash =
      (d.inFlight.lookup hash).filter (fun e => !p e) := lookup_filterValues d.inFlight _
  refine h.of_sub le_rfl ?_ ?_ ?_
  · by_contra hgt
    exact absurd (hlt (not_le.mp hgt)).1 (lt_irrefl _)
  · exact fun hash e he => lookup_expire he
  · rintro n - hhi (⟨hash, e, he, rfl⟩ | hpending)
    · refine .inl ⟨hash, e, ?_, rfl⟩
      rw [hlook, Option.filter_eq_some_iff]
      refine ⟨he, ?_⟩
      -- a request that is given up has pulled `next_height` down to its height
      by_contra hp
      refine absurd ((hlt hhi).2 e.height (Multiset.mem_map.mpr ⟨⟨hash, e⟩, ?_, rfl⟩)) (lt_irrefl _)
      exact Multiset.mem_filter.mpr ⟨Finmap.lookup_eq_some_iff.mp he, by simpa using hp⟩
    · exact .inr hpending

theorem tracked_handleReorg (d : Download) (newTipHeight : ℕ) :
    Tracked P genesis H (d.handleReorg newTipHeight) where
  window n hlo hhi := absurd (lt_of_le_of_lt hlo hhi) (lt_irrefl _)
  flying hash e hlook := by simp [Download.handleReorg] at hlook

theorem Covered.dropInFlight {entry : InFlightEntry} (h : Covered s.download n)
    (hentry : s.download.inFlight.lookup hash = some entry) (hne : n ≠ entry.height) :
    Covered (s.dropInFlight hash).download n := by
  rcases h with ⟨k, e, he, rfl⟩ | hpending
  · refine .inl ⟨k, e, ?_, rfl⟩
    have hk : k ≠ hash := by
      rintro rfl
      exact hne (congrArg InFlightEntry.height (Option.mem_unique he hentry))
    exact (Finmap.lookup_erase_ne hk).trans he
  · exact .inr hpending

theorem lookup_dropInFlight {k : Hash256}
    (h : (s.dropInFlight hash).download.inFlight.lookup k = some e) :
    s.download.inFlight.lookup k = some e := by
  change (s.download.inFlight.erase hash).lookup k = some e at h
  rw [lookup_erase_eq] at h
  split_ifs at h
  exact h

theorem Tracked.drainPending {amb : Ambient} (fuel : ℕ) (h : Tracked P genesis H s.download) :
    Tracked P genesis H (s.drainPending P amb fuel).download := by
  refine drainPending_rule (fun t => Tracked P genesis H t.download) ?_ ?_ fuel h
  · intro t t' e ht _ hconn
    refine ht.of_sub ?_ hconn.nextHeight.le (fun k e => ?_) ?_
    · rw [hconn.nextConnectHeight]
      omega
    · rw [hconn.inFlight]
      exact id
    · intro n hlo _ hcov
      rw [hconn.nextConnectHeight] at hlo
      rcases hcov with ⟨k, e, he, hheight⟩ | hpending
      · exact .inl ⟨k, e, hconn.inFlight ▸ he, hheight⟩
      · refine .inr ?_
        rw [hconn.pendingBlocks]
        exact Finmap.mem_erase.mpr ⟨by omega, hpending⟩
  · intro t ht
    refine ht.of_sub le_rfl (min_le_left _ _) (fun _ _ => id) fun n hlo hhi _ => ?_
    exact absurd (lt_of_le_of_lt hlo (lt_min_iff.mp hhi).2) (lt_irrefl _)

theorem Tracked.received {amb : Ambient} {rawBytes : Bytes} (h : Tracked P genesis H s.download)
    (hrec : Received P amb s hash rawBytes s') : Tracked P genesis H s'.download := by
  cases hrec with
  | ignored => exact h
  | rejected hentry =>
    refine h.of_sub le_rfl (min_le_left _ _) (fun _ _ => lookup_dropInFlight) ?_
    intro n _ hhi hcov
    have hne := (lt_min_iff.mp hhi).2.ne
    exact hcov.dropInFlight hentry hne
  | @connected entry block t fuel hentry _ hheight hconn =>
    refine Tracked.drainPending fuel ?_
    refine h.of_sub ?_ hconn.nextHeight.le (fun k e => ?_) ?_
    · rw [hconn.nextConnectHeight, hheight]
      omega
    · rw [hconn.inFlight]
      exact lookup_dropInFlight
    · intro n hlo _ hcov
      rw [hconn.nextConnectHeight] at hlo
      have hcov' := hcov.dropInFlight hentry (by omega)
      unfold Covered at hcov' ⊢
      rwa [hconn.inFlight, hconn.pendingBlocks]
  | @buffered entry block hentry _ =>
    refine h.of_sub le_rfl le_rfl (fun _ _ => lookup_dropInFlight) ?_
    intro n _ _ hcov
    by_cases hn : n = entry.height
    · exact .inr (hn ▸ Finmap.mem_insert.mpr (.inl rfl))
    · rcases hcov.dropInFlight hentry hn with hflight | hpending
      · exact .inl hflight
      · exact .inr (Finmap.mem_insert.mpr (.inr hpending))
  | @late entry hentry hheight =>
    obtain ⟨_, _, _, hstore⟩ := storeBlockData_eq amb (s.dropInFlight hash) hash rawBytes
    rw [hstore]
    refine h.of_sub le_rfl le_rfl (fun _ _ => lookup_dropInFlight) ?_
    intro n hlo _ hcov
    change s.download.nextConnectHeight ≤ n at hlo
    exact hcov.dropInFlight hentry (by omega)

theorem Tracked.handleBlock (amb : Ambient) (payload : Bytes)
    (h : Tracked P genesis H s.download) :
    Tracked P genesis H (s.handleBlock P amb payload).download := by
  unfold System.handleBlock
  split
  · exact h
  · exact h.received (handleReceivedBlock_received P amb s _ payload)

theorem Tracked.catchUpChainstate (amb : Ambient) (h : Tracked P genesis H s.download) :
    Tracked P genesis H (s.catchUpChainstate P amb).download := by
  have hkept : KeptByCatchUp P fun t => Tracked P genesis H t.download := by
    intro t t' hash block ht _ _ hconn _
    refine ht.of_sub ?_ hconn.nextHeight.le (fun k e => ?_) ?_
    · rw [hconn.nextConnectHeight]
      omega
    · rw [hconn.inFlight]
      exact id
    · intro n _ _ hcov
      unfold Covered at hcov ⊢
      rwa [hconn.inFlight, hconn.pendingBlocks]
  have hloop := hkept.loop (s.cachedHeight + 1 - s.download.nextConnectHeight) h
  unfold System.catchUpChainstate
  dsimp only
  split_ifs
  · exact ⟨hloop.window, hloop.flying⟩
  · exact hloop

variable {chainHeight first freeSlots : ℕ} {st : Scan}

structure Scanned (hs : HeaderStore) (d : Download) (chainHeight first : ℕ) (st : Scan) : Prop where
  seen : ∀ n, first ≤ n → n < st.nextHeight → n ≤ chainHeight ∧
    ∃ hash, hs.activeChain[n]? = some hash ∧ (d.skips (n, hash) ∨ (n, hash) ∈ st.requestable)
  active : ∀ e ∈ st.requestable, hs.activeChain[e.1]? = some e.2 ∧ e.1 < st.nextHeight
  sorted : st.requestable.Pairwise fun a b => a.1 < b.1
  le : first ≤ st.nextHeight

theorem Scanned.next (h : Scanned hs d chainHeight first st)
    (hactive : hs.activeChain[st.nextHeight]? = some hash) (hle : st.nextHeight ≤ chainHeight) :
    Scanned hs d chainHeight first ⟨max st.nextHeight (st.nextHeight + 1),
      if d.skips (st.nextHeight, hash) then st.requestable
      else st.requestable ++ [(st.nextHeight, hash)]⟩ := by
  rw [max_eq_right (Nat.le_succ _)]
  have hold : ∀ e ∈ st.requestable, hs.activeChain[e.1]? = some e.2 ∧ e.1 < st.nextHeight + 1 :=
    fun e he => ⟨(h.active e he).1, (h.active e he).2.trans (Nat.lt_succ_self _)⟩
  have hseen : ∀ n, first ≤ n → n < st.nextHeight + 1 → n = st.nextHeight ∨ n ≤ chainHeight ∧
      ∃ hash, hs.activeChain[n]? = some hash ∧ (d.skips (n, hash) ∨ (n, hash) ∈ st.requestable) := by
    intro n hlo hhi
    rcases (Nat.lt_succ_iff_lt_or_eq.mp hhi) with hlt | heq
    · exact .inr (h.seen n hlo hlt)
    · exact .inl heq
  split_ifs with hskip
  · refine ⟨fun n hlo hhi => ?_, hold, h.sorted, h.le.trans (Nat.le_succ _)⟩
    rcases hseen n hlo hhi with rfl | hn
    · exact ⟨hle, hash, hactive, .inl hskip⟩
    · exact hn
  · refine ⟨fun n hlo hhi => ?_, ?_, ?_, h.le.trans (Nat.le_succ _)⟩
    · rcases hseen n hlo hhi with rfl | ⟨hn, x, hx, hor⟩
      · exact ⟨hle, hash, hactive, .inr (List.mem_append_right _ (List.mem_singleton_self _))⟩
      · exact ⟨hn, x, hx, hor.imp_right fun hmem => List.mem_append_left _ hmem⟩
    · intro e he
      rcases List.mem_append.mp he with he | he
      · exact hold e he
      · obtain rfl := List.mem_singleton.mp he
        exact ⟨hactive, Nat.lt_succ_self _⟩
    · refine List.pairwise_append.mpr ⟨h.sorted, List.pairwise_singleton _ _, fun a ha b hb => ?_⟩
      obtain rfl := List.mem_singleton.mp hb
      exact (h.active a ha).2

theorem Scanned.batch (h : Scanned hs d chainHeight first st) {hashes : List Hash256}
    (hactive : ∀ i hash, hashes[i]? = some hash →
      hs.activeChain[st.nextHeight + i]? = some hash ∧ st.nextHeight + i ≤ chainHeight) :
    Scanned hs d chainHeight first
      (scanBatch d freeSlots ((hashes.zipIdx st.nextHeight).map Prod.swap) st) := by
  induction hashes generalizing st with
  | nil => exact h
  | cons hash hashes ih =>
    rw [List.zipIdx_cons, List.map_cons, Prod.swap_prod_mk, scanBatch]
    by_cases hfull : freeSlots ≤ st.requestable.length
    · rwa [if_pos hfull]
    · rw [if_neg hfull]
      have hnext := h.next (hactive 0 hash rfl).1 (hactive 0 hash rfl).2
      dsimp only
      rw [max_eq_right (Nat.le_succ _)] at hnext ⊢
      refine ih hnext fun i x hx => ?_
      change hs.activeChain[st.nextHeight + 1 + i]? = some x ∧ st.nextHeight + 1 + i ≤ chainHeight
      rw [Nat.add_assoc, Nat.add_comm 1]
      exact hactive (i + 1) x hx

theorem Scanned.collect (h : Scanned hs d chainHeight first st) (fuel : ℕ) :
    Scanned hs d chainHeight first (collect hs d chainHeight freeSlots fuel st) := by
  induction fuel generalizing st with
  | zero => exact h
  | succ fuel ih =>
    unfold BlockDownload.collect
    split_ifs
    · have hrange : Scanned hs d chainHeight first (scanBatch d freeSlots (hashesInRange hs
          st.nextHeight (min (st.nextHeight + scanBatchSize) (chainHeight + 1))) st) := by
        unfold hashesInRange
        refine h.batch fun i hash hi => ?_
        rw [List.getElem?_drop, List.getElem?_take] at hi
        split_ifs at hi with hlt
        exact ⟨hi, by omega⟩
      split
      · exact h
      · next e hashes heq =>
        rw [heq] at hrange
        exact ih hrange
    · exact h

theorem assign_eq_take (now : ℕ) (peers : List (ℕ × Peer × ℕ)) (requestable : List (ℕ × Hash256)) :
    (assign now peers requestable).map (fun r => (r.entry.height, r.hash)) =
      requestable.take (assign now peers requestable).length := by
  induction requestable generalizing peers with
  | nil => rfl
  | cons e requestable ih =>
    rw [assign]
    split
    · rfl
    · rw [List.map_cons, List.length_cons, List.take_succ_cons, ih]

/-- When `fill_window` scans, a connected peer that is not excluded has a free
slot, and no block it scans at or above the next height to connect is stored. -/
def FillReady (d : Download) (hs : HeaderStore) (chainHeight : ℕ) (p : Peers) : Prop :=
  d.scans chainHeight p →
    (∃ peer ∈ p.writers, p.excluded peer = false ∧ peerUsed d peer < perPeerLimit) ∧
    ∀ e ∈ hashesInRange hs (max d.nextHeight d.nextConnectHeight) (chainHeight + 1),
      e.2 ∉ d.storedHashes

instance (d : Download) (hs : HeaderStore) (chainHeight : ℕ) (p : Peers) :
    Decidable (FillReady d hs chainHeight p) :=
  inferInstanceAs (Decidable (_ → _ ∧ _))

variable {p : Peers}

theorem availablePeers_ne_nil {peer : Peer} (hmem : peer ∈ p.writers)
    (hexcluded : p.excluded peer = false) (hfree : peerUsed d peer < perPeerLimit) :
    availablePeers d p ≠ [] := by
  obtain ⟨i, hi⟩ := List.mem_iff_getElem?.mp hmem
  refine List.ne_nil_of_mem (a := (i, peer, perPeerLimit - peerUsed d peer)) ?_
  refine List.mem_filter.mpr ⟨List.mem_map.mpr ⟨(peer, i), ?_, rfl⟩, ?_⟩
  · exact List.mem_filter.mpr ⟨List.mk_mem_zipIdx_iff_getElem?.mpr hi, by simp [hexcluded]⟩
  · simpa using hfree

theorem Scanned.covered (hinj : HashInjOn P H)
    (hplaced : Placed P genesis H hs) (h : Tracked P genesis H d)
    (hscan : Scanned hs d chainHeight d.nextHeight st)
    (hstored : ∀ e ∈ hashesInRange hs (max d.nextHeight d.nextConnectHeight) (chainHeight + 1),
      e.2 ∉ d.storedHashes) (hlo : d.nextConnectHeight ≤ n) (hhi : n < st.nextHeight) :
    Covered d n ∨ ∃ hash, (n, hash) ∈ st.requestable := by
  by_cases hn : n < d.nextHeight
  · exact .inl (h.window n hlo hn)
  · have hge := not_lt.mp hn
    obtain ⟨hle, hash, hactive, hskip | hrequest⟩ := hscan.seen n hge hhi
    · refine .inl ?_
      rcases hskip with hmem | hflight | hpending
      · refine absurd hmem (hstored (n, hash) (mem_hashesInRange.mpr ⟨?_, ?_, hactive⟩))
        · exact max_le hge hlo
        · exact Nat.lt_succ_of_le hle
      · obtain ⟨e, he⟩ := Finmap.mem_iff.mp hflight
        exact .inl ⟨hash, e, he, (h.flying hash e he).unique hinj (hplaced.depth_active hactive)⟩
      · exact .inr hpending
    · exact .inr ⟨hash, hrequest⟩

theorem Scanned.assigned (hscan : Scanned hs d chainHeight first st) {requests : List Request}
    (htake : requests.map (fun r => (r.entry.height, r.hash)) = st.requestable.take requests.length)
    {next : ℕ} (hunassigned : ∀ e, st.requestable[requests.length]? = some e → next ≤ e.1)
    (hmem : (n, hash) ∈ st.requestable) (hlt : n < next) :
    ∃ r ∈ requests, r.entry.height = n ∧ r.hash = hash := by
  obtain ⟨i, hi⟩ := List.mem_iff_getElem?.mp hmem
  have hassigned : i < requests.length := by
    by_contra hge
    obtain ⟨hlen, hget⟩ := List.getElem?_eq_some_iff.mp hi
    have hm : requests.length < st.requestable.length := by omega
    have hle := hunassigned _ (List.getElem?_eq_getElem hm)
    rcases (not_lt.mp hge).eq_or_lt with heq | hgt
    · rw [heq, hi] at hunassigned
      exact absurd (hunassigned _ rfl) (not_le.mpr hlt)
    · have hsorted := List.pairwise_iff_getElem.mp hscan.sorted _ _ hm hlen hgt
      rw [hget] at hsorted
      exact absurd (hle.trans hsorted.le) (not_le.mpr hlt)
  have htaken : (n, hash) ∈ requests.map (fun r => (r.entry.height, r.hash)) := by
    rw [htake]
    exact List.mem_of_getElem? ((List.getElem?_take_of_lt hassigned).trans hi)
  obtain ⟨r, hr, heq⟩ := List.mem_map.mp htaken
  exact ⟨r, hr, congrArg Prod.fst heq, congrArg Prod.snd heq⟩

theorem Scanned.lookup_send (hscan : Scanned hs d chainHeight first st) {requests : List Request}
    (htake : requests.map (fun r => (r.entry.height, r.hash)) = st.requestable.take requests.length)
    (h : (d'.send p requests).inFlight.lookup hash = some e) :
    d'.inFlight.lookup hash = some e ∨ hs.activeChain[e.height]? = some hash := by
  rcases lookup_insertAll_cases h with hmem | ⟨_, hold⟩
  · obtain ⟨r, hr, heq⟩ := List.mem_map.mp hmem
    cases heq
    have hin : (r.entry.height, r.hash) ∈ st.requestable := by
      refine List.mem_of_mem_take (i := requests.length) ?_
      rw [← htake]
      exact List.mem_map_of_mem (List.mem_of_mem_filter hr)
    exact .inr (hscan.active _ hin).1
  · exact .inl hold

theorem Tracked.send (hinj : HashInjOn P H)
    (hplaced : Placed P genesis H hs) (h : Tracked P genesis H d)
    (hscan : Scanned hs d chainHeight d.nextHeight st)
    (hstored : ∀ e ∈ hashesInRange hs (max d.nextHeight d.nextConnectHeight) (chainHeight + 1),
      e.2 ∉ d.storedHashes) {requests : List Request}
    (htake : requests.map (fun r => (r.entry.height, r.hash)) = st.requestable.take requests.length)
    {next : ℕ} (hnext : next ≤ st.nextHeight)
    (hunassigned : ∀ e, st.requestable[requests.length]? = some e → next ≤ e.1) :
    Tracked P genesis H ({ d with nextHeight := next }.send p requests) := by
  have hflying : ∀ hash e, ({ d with nextHeight := next }.send p requests).inFlight.lookup hash =
      some e → Depth P genesis H hash e.height := by
    intro hash e he
    rcases hscan.lookup_send htake he with hold | hactive
    · exact h.flying hash e hold
    · exact hplaced.depth_active hactive
  -- a request keeps its height: the hash fixes it, whichever entry is stored last
  have hkeeps : ∀ {hash n}, Depth P genesis H hash n →
      hash ∈ ({ d with nextHeight := next }.send p requests).inFlight →
      Covered ({ d with nextHeight := next }.send p requests) n := by
    intro hash n hdepth hmem
    obtain ⟨e, he⟩ := Finmap.mem_iff.mp hmem
    exact .inl ⟨hash, e, he, (hflying hash e he).unique hinj hdepth⟩
  refine ⟨fun n hlo hhi => ?_, hflying⟩
  obtain ⟨hlt, hfailed⟩ : n < next ∧ ∀ m ∈ (((requests.filter fun r => p.fails r.writer).map
      fun r => r.entry.height : List ℕ) : Multiset ℕ), n < m := lt_fold_min.mp hhi
  rcases hscan.covered hinj hplaced h hstored hlo (hlt.trans_le hnext) with hcov | ⟨hash, hmem⟩
  · rcases hcov with ⟨hash, e, he, rfl⟩ | hpending
    · refine hkeeps (h.flying hash e he) (mem_insertAll.mpr (.inr ?_))
      exact Finmap.mem_of_lookup_eq_some he
    · exact .inr hpending
  · have hdepth := hplaced.depth_active (hscan.active _ hmem).1
    obtain ⟨r, hr, hrheight, hrhash⟩ := hscan.assigned htake hunassigned hmem hlt
    have hok : p.fails r.writer = false := by
      by_contra hfails
      have hin : r.entry.height ∈ ((requests.filter fun r => p.fails r.writer).map
          fun r => r.entry.height : List ℕ) :=
        List.mem_map_of_mem (List.mem_filter.mpr ⟨hr, by simpa using hfails⟩)
      exact absurd (hfailed _ hin) (by omega)
    refine hkeeps hdepth (mem_insertAll.mpr (.inl ?_))
    refine List.mem_map.mpr ⟨r.binding, List.mem_map_of_mem ?_, hrhash⟩
    exact List.mem_filter.mpr ⟨hr, by simp [hok]⟩

/-- What `fill_window` does: it scans, and it may send requests for a front part
of what it has collected. -/
inductive Filled (hs : HeaderStore) (d : Download) (chainHeight : ℕ) (p : Peers) : Download → Prop
  | idle (hidle : ¬ d.scans chainHeight p) : Filled hs d chainHeight p d
  | scanned {st : Scan} (hscans : d.scans chainHeight p)
      (hscan : Scanned hs d chainHeight d.nextHeight st)
      (hnone : st.requestable = [] ∨ availablePeers d p = []) :
      Filled hs d chainHeight p { d with nextHeight := st.nextHeight }
  | sent {st : Scan} {requests : List Request} {next : ℕ} (hscans : d.scans chainHeight p)
      (hscan : Scanned hs d chainHeight d.nextHeight st)
      (htake : requests.map (fun r => (r.entry.height, r.hash)) =
        st.requestable.take requests.length) (hnext : next ≤ st.nextHeight)
      (hunassigned : ∀ e, st.requestable[requests.length]? = some e → next ≤ e.1) :
      Filled hs d chainHeight p ({ d with nextHeight := next }.send p requests)

theorem fillWindow_filled (hs : HeaderStore) (d : Download) (chainHeight : ℕ) (p : Peers) :
    Filled hs d chainHeight p (d.fillWindow hs chainHeight p) := by
  unfold Download.fillWindow
  by_cases hscans : d.scans chainHeight p
  · rw [if_pos hscans]
    have hstart : Scanned hs d chainHeight d.nextHeight ⟨d.nextHeight, []⟩ :=
      ⟨fun n hlo hhi => absurd (lt_of_le_of_lt hlo hhi) (lt_irrefl _), by simp, .nil, le_rfl⟩
    have hscan : Scanned hs d chainHeight d.nextHeight (collect hs d chainHeight d.freeSlots
      (chainHeight + 1 - d.nextHeight) ⟨d.nextHeight, []⟩) := hstart.collect _
    generalize collect hs d chainHeight d.freeSlots (chainHeight + 1 - d.nextHeight)
      ⟨d.nextHeight, []⟩ = st at hscan
    dsimp only
    by_cases hempty : st.requestable = []
    · rw [if_pos hempty]
      exact .scanned hscans hscan (.inl hempty)
    · rw [if_neg hempty]
      by_cases havailable : availablePeers d p = []
      · rw [show availablePeers { d with nextHeight := st.nextHeight } p = [] from havailable,
          if_pos rfl]
        exact .scanned hscans hscan (.inr havailable)
      · rw [if_neg (show availablePeers { d with nextHeight := st.nextHeight } p ≠ [] from
          havailable)]
        have htake := assign_eq_take p.now (availablePeers { d with nextHeight := st.nextHeight } p)
          st.requestable
        generalize assign p.now _ st.requestable = requests at htake
        cases hrest : st.requestable[requests.length]? with
        | none => exact .sent hscans hscan htake le_rfl fun e he => by simp [hrest] at he
        | some unassigned =>
          refine .sent hscans hscan htake (min_le_left _ unassigned.1) fun e he => ?_
          rw [hrest, Option.some.injEq] at he
          exact he ▸ min_le_right _ _
  · rw [if_neg hscans]
    exact .idle hscans

theorem lookup_fillWindow (h : (d.fillWindow hs chainHeight p).inFlight.lookup hash = some e) :
    d.inFlight.lookup hash = some e ∨ hs.activeChain[e.height]? = some hash := by
  have hfilled := fillWindow_filled hs d chainHeight p
  generalize d.fillWindow hs chainHeight p = d' at hfilled h
  cases hfilled with
  | idle => exact .inl h
  | scanned => exact .inl h
  | sent _ hscan htake => exact hscan.lookup_send htake h

theorem pendingBlocks_fillWindow (hs : HeaderStore) (d : Download) (chainHeight : ℕ) (p : Peers) :
    (d.fillWindow hs chainHeight p).pendingBlocks = d.pendingBlocks := by
  have hfilled := fillWindow_filled hs d chainHeight p
  generalize d.fillWindow hs chainHeight p = d' at hfilled
  cases hfilled <;> rfl

theorem Tracked.fillWindow (hinj : HashInjOn P H)
    (hplaced : Placed P genesis H hs) (h : Tracked P genesis H d)
    (hready : FillReady d hs chainHeight p) :
    Tracked P genesis H (d.fillWindow hs chainHeight p) := by
  have hfilled := fillWindow_filled hs d chainHeight p
  generalize d.fillWindow hs chainHeight p = d' at hfilled
  cases hfilled with
  | idle => exact h
  | @scanned st hscans hscan hnone =>
    obtain ⟨⟨peer, hpeer, hexcluded, hfree⟩, hstored⟩ := hready hscans
    have hempty := hnone.resolve_right (availablePeers_ne_nil hpeer hexcluded hfree)
    refine ⟨fun n hlo hhi => ?_, h.flying⟩
    rcases hscan.covered hinj hplaced h hstored hlo hhi with hcov | ⟨hash, hmem⟩
    · exact hcov
    · simp [hempty] at hmem
  | sent hscans hscan htake hnext hunassigned =>
    exact h.send hinj hplaced hscan (hready hscans).2 htake hnext hunassigned

def EventReady (s : System) : Event → Prop
  | .fillWindow peers => FillReady s.download s.node.headers s.cachedHeight peers
  | _ => True

instance : ∀ (s : System) (event : Event), Decidable (EventReady s event)
  | s, .fillWindow peers =>
    inferInstanceAs (Decidable (FillReady s.download s.node.headers s.cachedHeight peers))
  | _, .block _ _ | _, .disconnected _ | _, .timeoutScan _ | _, .reorgNotice | _, .flush _
  | _, .catchUp _ | _, .headers _ | _, .activate _ _ | _, .mempool _ => isTrue trivial

theorem download_receiveHeaders (P : Primitives) (s : System) (headers : List BlockHeader) :
    (receiveHeaders P s headers).download = s.download := by
  obtain ⟨hs, height, bits, heq⟩ := receiveHeaders_eq P s headers
  rw [heq]
  rfl

theorem download_activate (P : Primitives) (ord : IterOrder) (mempoolLocked : Bool) (s : System) :
    (tryActivateBestChain P ord mempoolLocked s).download = s.download := by
  unfold tryActivateBestChain
  split_ifs
  · rfl
  · rfl
  · rfl
  · unfold activate
    dsimp only
    split <;> rfl

theorem tracked_step (hinj : HashInjOn P H) {event : Event}
    (hplaced : Placed P genesis H s.node.headers) (h : Tracked P genesis H s.download)
    (hready : EventReady s event) : Tracked P genesis H (step P s event).download := by
  cases event with
  | fillWindow peers => exact h.fillWindow hinj hplaced hready
  | block amb payload => exact h.handleBlock amb payload
  | disconnected peer => exact h.expire _
  | timeoutScan strikes => exact h.expire _
  | reorgNotice =>
    simp only [step]
    split
    · exact h
    · exact tracked_handleReorg _ _
  | flush amb => exact ⟨h.window, h.flying⟩
  | catchUp amb => exact h.catchUpChainstate amb
  | headers batch => exact (download_receiveHeaders P s batch).symm ▸ h
  | activate ord mempoolLocked => exact (download_activate P ord mempoolLocked s).symm ▸ h
  | mempool pool => exact h

/-- Every active-chain height from the next one to connect up to the next one to
request is in flight or buffered. -/
def NoneLost (s : System) : Prop :=
  ∀ h, h < s.node.headers.activeChain.length → s.download.nextConnectHeight ≤ h →
    h < s.download.nextHeight → Covered s.download h

theorem tracked_start (node : Node) (blocks : BlockWriter) (indexRead : Bool) :
    Tracked P genesis H (start node blocks indexRead).download := by
  refine ⟨fun n hlo hhi => absurd (lt_of_le_of_lt hlo hhi) (not_lt.mpr ?_), fun hash e he => ?_⟩
  · refine Nat.one_le_iff_ne_zero.mpr fun hzero => ?_
    exact Chainstate.saturatingSucc_ne_zero _ (UInt32.toNat_inj.mp hzero)
  · simp [start, Download.new] at he

theorem none_lost_of_ready (P : Primitives) (genesis : BlockHeader) (H : Set BlockHeader)
    (hinj : Set.InjOn (BlockHeader.blockHash P) H) (node : Node) (blocks : BlockWriter)
    (indexRead : Bool) (hplaced : Placed P genesis H node.headers) (events : List Event)
    (hgiven : ∀ event ∈ events, ∀ header ∈ event.given, header ∈ H)
    (hready : Along (step P) EventReady (start node blocks indexRead) events) :
    NoneLost (run (step P) (start node blocks indexRead) events) := by
  have hrun := run_invariant
    (fun s => Placed P genesis H s.node.headers ∧ Tracked P genesis H s.download)
    (fun s event h hcond => ⟨placed_step hinj hcond.2 h.1, tracked_step hinj h.1 h.2 hcond.1⟩)
    ⟨hplaced, tracked_start node blocks indexRead⟩ (hready.and hgiven)
  exact fun n _ hlo hhi => hrun.2.window n hlo hhi

def twoHeaders : Event := .headers [headerA1, headerA2]

def freshNode : Node := ⟨easyStore, Chainstate.emptyState, Mempool.Pool.new⟩

theorem fileSize_le : 1000 ≤ 0xFFFFFFFF := by decide

def emptyBlocks : BlockWriter := BlockWriter.openAt ∅ ∅ 1000 fileSize_le

def onePeer (excluded : Bool) : Peers := ⟨[7], fun _ => excluded, fun _ => false, 0⟩

theorem none_lost_in_flight :
    NoneLost (run (step poly) (start freshNode emptyBlocks true)
      [twoHeaders, .fillWindow (onePeer false), .disconnected 8]) := by
  exact none_lost_of_ready poly easyGenesis {header | header ∈ [headerA1, headerA2]}
    (injOn_headers (by decide +kernel)) freshNode emptyBlocks true (placed_makeFresh _ _ _ _ _) _
    (by decide +kernel) (by decide +kernel)

theorem not_covered_of_keys (hflight : d.inFlight.keys = ∅) (hpending : d.pendingBlocks.keys = ∅)
    (n : ℕ) : ¬ Covered d n := by
  rintro (⟨hash, e, he, _⟩ | hmem)
  · have hkey := Finmap.mem_keys.mpr (Finmap.mem_of_lookup_eq_some he)
    rw [hflight] at hkey
    exact Finset.notMem_empty _ hkey
  · have hkey := Finmap.mem_keys.mpr hmem
    rw [hpending] at hkey
    exact Finset.notMem_empty _ hkey

/-- The only peer is strike-excluded: `next_height` moves past both blocks and
neither is requested. -/
theorem scanned_heights_lost :
    ¬ NoneLost (run (step poly) (start freshNode emptyBlocks true)
      [twoHeaders, .fillWindow (onePeer true)]) := by
  intro h
  have hflight : (run (step poly) (start freshNode emptyBlocks true)
      [twoHeaders, .fillWindow (onePeer true)]).download.inFlight.keys = ∅ := by decide +kernel
  have hpending : (run (step poly) (start freshNode emptyBlocks true)
      [twoHeaders, .fillWindow (onePeer true)]).download.pendingBlocks.keys = ∅ := by
    decide +kernel
  exact not_covered_of_keys hflight hpending 1
    (h 1 (by decide +kernel) (by decide +kernel) (by decide +kernel))

end Ironcat.DownloadWindow
