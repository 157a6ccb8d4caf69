import Ironcat.ChainLinkage

/-!
# Recorded blocks and the block store

The download manager notes a hash as stored before the block is written, the
writer keeps the index entry in memory until the next flush, and a reorg reads
the committed index only. A recorded block can be loaded once every write has
succeeded and nothing waits for a flush.
-/

namespace Ironcat.LoadableBlocks

open Lib.ByteCodec Lib.Checked Lib.FiniteMap Lib.FlatFile Lib.Runs Types BlockWire BlockFiles
open StoredBytes Reorg BlockDownload NodeEvents DownloadWindow ChainLinkage

variable {P : Primitives} {s t : System} {hash : Hash256} {rawBytes : Bytes}
variable {received : Set (Hash256 × Bytes)}

/-- What the manager does to the block store, call by call: `connect_and_store`
for a block at the next height, `store_block_data` for one below it. A restart
opens the store again and may find another node around it. -/
inductive StoreOp
  | connect (amb : Ambient) (hash : Hash256) (block : Block) (rawBytes : Bytes) (height : ℕ)
  | store (amb : Ambient) (hash : Hash256) (rawBytes : Bytes)
  | flush (amb : Ambient)
  | restart (node : Node) (maxSize : ℕ) (hmax : maxSize ≤ 0xFFFFFFFF) (indexRead : Bool)

def storeStep (P : Primitives) (s : System) : StoreOp → System
  | .connect amb hash block rawBytes height =>
    (s.connectAndStore P amb hash block rawBytes height).2
  | .store amb hash rawBytes => s.storeBlockData amb hash rawBytes
  | .flush amb => s.flushStore amb
  | .restart node maxSize hmax indexRead => start node (s.blocks.reopen maxSize hmax) indexRead

def StoreOp.given : StoreOp → Option (Hash256 × Bytes)
  | .connect _ hash _ rawBytes _ | .store _ hash rawBytes => some (hash, rawBytes)
  | _ => none

/-- The blocks that arrive in a run. -/
def receivedBy (ops : List StoreOp) : Set (Hash256 × Bytes) :=
  {e | ∃ op ∈ ops, op.given = some e}

def StoredLoadable (received : Set (Hash256 × Bytes)) (s : System) : Prop :=
  ∀ hash ∈ s.download.storedHashes, ∃ rawBytes block, (hash, rawBytes) ∈ received ∧
    fromBytes rawBytes = some block ∧ s.blocks.reader.loadAndDeserialize hash = .ok block

structure Writable (w : BlockWriter) (rawBytes : Bytes) (fault : Option Fault) : Prop where
  unfaulted : fault = none
  numbered : w.log.Full (entryPrefixSize + rawBytes.length) → w.log.number + 1 ≤ 0xFFFF
  appendable : Appendable w.log rawBytes none

instance (w : BlockWriter) (rawBytes : Bytes) (fault : Option Fault) :
    Decidable (Writable w rawBytes fault) :=
  decidable_of_iff (fault = none ∧
      (w.log.Full (entryPrefixSize + rawBytes.length) → w.log.number + 1 ≤ 0xFFFF) ∧
      Appendable w.log rawBytes none)
    ⟨fun h => ⟨h.1, h.2.1, h.2.2⟩, fun h => ⟨h.unfaulted, h.numbered, h.appendable⟩⟩

theorem storeBlockUnchecked_of_writable {w : BlockWriter} {fault : Option Fault}
    (hash : Hash256) (h : Writable w rawBytes fault) :
    ∃ e w', w.storeBlockUnchecked hash rawBytes fault = (.ok (), w') ∧ w'.index = w.index ∧
      w'.pending = w.pending ++ [e] ∧ e.hash = hash ∧ Grows w.log.files w'.log.files ∧
      BlockHeld w'.log.files e.binding.2 rawBytes := by
  obtain ⟨rfl, hnumber, happend⟩ := h
  rw [← entry_length] at hnumber
  obtain ⟨p, log', hwrite⟩ := Log.write_isOk hnumber
  have hgrows := w.log.write_grows 0xFFFF (BlockWriter.entryHeader rawBytes ++ rawBytes) none
  have hheld := happend.holds w.limit_le
    (Nat.add_right_cancel (List.length_append.symm.trans (entry_length rawBytes))) hwrite
  rw [hwrite] at hgrows
  simp only [BlockWriter.storeBlockUnchecked, hwrite]
  exact ⟨_, _, rfl, rfl, rfl, rfl, hgrows, hheld⟩

structure Recorded (received : Set (Hash256 × Bytes)) (s : System) : Prop where
  indexed : ∀ hash loc, s.blocks.index.lookup hash = some loc →
    ∃ rawBytes, (hash, rawBytes) ∈ received ∧ BlockHeld s.blocks.log.files loc rawBytes
  waiting : ∀ e ∈ s.blocks.pending,
    ∃ rawBytes, (e.hash, rawBytes) ∈ received ∧ BlockHeld s.blocks.log.files e.binding.2 rawBytes
  stored : ∀ hash ∈ s.download.storedHashes,
    hash ∈ s.blocks.index ∨ ∃ e ∈ s.blocks.pending, e.hash = hash

theorem Recorded.flush (h : Recorded received s) (amb : Ambient) :
    Recorded received (s.flushStore amb) := by
  by_cases hnone : s.blocks.pending = []
  · have hsame : (s.flushStore amb).blocks = s.blocks := by
      simp [System.flushStore, BlockWriter.flush, hnone]
    exact ⟨hsame ▸ h.indexed, hsame ▸ h.waiting, hsame ▸ h.stored⟩
  · cases hfail : amb.flushFailed with
    | true =>
      have hsame : (s.flushStore amb).blocks = s.blocks := by
        simp [System.flushStore, BlockWriter.flush, hnone, hfail]
      exact ⟨hsame ▸ h.indexed, hsame ▸ h.waiting, hsame ▸ h.stored⟩
    | false =>
      have hnew : (s.flushStore amb).blocks = { s.blocks with
          index := insertAll s.blocks.index (s.blocks.pending.map PendingEntry.binding)
          pending := [] } := by
        simp [System.flushStore, BlockWriter.flush, hnone, hfail]
      refine ⟨?_, ?_, ?_⟩ <;> rw [hnew]
      · intro hash loc hloc
        rcases lookup_insertAll_cases hloc with hmem | ⟨_, hold⟩
        · obtain ⟨e, he, heq⟩ := List.mem_map.mp hmem
          obtain ⟨rfl, rfl⟩ := Prod.mk.inj heq
          exact h.waiting e he
        · exact h.indexed hash loc hold
      · simp
      · intro hash hmem
        refine .inl (mem_insertAll.mpr ?_)
        rcases h.stored hash hmem with hindex | ⟨e, he, rfl⟩
        · exact .inr hindex
        · exact .inl (List.mem_map.mpr ⟨e.binding, List.mem_map_of_mem he, rfl⟩)

theorem Recorded.store {amb : Ambient} (h : Recorded received s)
    (hreceived : (hash, rawBytes) ∈ received)
    (hready : hash ∈ s.download.storedHashes ∨
      Writable s.blocks rawBytes (amb.storeFault hash)) :
    Recorded received (s.storeBlockData amb hash rawBytes) := by
  unfold System.storeBlockData
  by_cases hknown : hash ∈ s.download.storedHashes
  · rw [if_pos hknown]
    exact h
  · obtain ⟨e, w', hstore, hindex, hpending, hkey, hgrows, hheld⟩ :=
      storeBlockUnchecked_of_writable hash (hready.resolve_left hknown)
    have hnew : ∀ n, Recorded received { s with blocks := w', download := { s.download with
        storedHashes := insert hash s.download.storedHashes, blocksSinceFlush := n } } := by
      refine fun n => ⟨fun k loc hk => ?_, fun e' he' => ?_, fun k hk => ?_⟩
      · obtain ⟨raw, hraw, hold⟩ := h.indexed k loc (hindex ▸ hk)
        exact ⟨raw, hraw, hold.grows hgrows⟩
      · change e' ∈ w'.pending at he'
        rw [hpending, List.mem_append, List.mem_singleton] at he'
        rcases he' with he' | rfl
        · obtain ⟨raw, hraw, hold⟩ := h.waiting e' he'
          exact ⟨raw, hraw, hold.grows hgrows⟩
        · exact ⟨rawBytes, hkey.symm ▸ hreceived, hheld⟩
      · change k ∈ w'.index ∨ ∃ e' ∈ w'.pending, e'.hash = k
        rw [hindex, hpending]
        rcases Finset.mem_insert.mp hk with rfl | hk
        · exact .inr ⟨e, by simp, hkey⟩
        · rcases h.stored k hk with hin | ⟨e', he', heq⟩
          · exact .inl hin
          · exact .inr ⟨e', List.mem_append_left _ he', heq⟩
    rw [if_neg hknown]
    dsimp only
    rw [hstore]
    dsimp only
    split_ifs
    · exact (hnew _).flush amb
    · exact hnew _

theorem Recorded.restart (h : Recorded received s) (node : Node) {maxSize : ℕ}
    (hmax : maxSize ≤ 0xFFFFFFFF) (indexRead : Bool) :
    Recorded received (start node (s.blocks.reopen maxSize hmax) indexRead) := by
  have hfiles : Grows s.blocks.log.files (s.blocks.reopen maxSize hmax).log.files :=
    grows_insert (List.prefix_refl _)
  refine ⟨fun k loc hk => ?_, (fun e he => nomatch he), fun k hk => ?_⟩
  · have hold : s.blocks.index.lookup k = some loc := by
      change (s.blocks.reopen maxSize hmax).index.lookup k = some loc at hk
      unfold BlockWriter.reopen BlockWriter.openAt at hk
      dsimp only at hk
      split_ifs at hk
      · exact hk
      · simp at hk
    obtain ⟨raw, hraw, hheld⟩ := h.indexed k loc hold
    exact ⟨raw, hraw, hheld.grows hfiles⟩
  · cases indexRead with
    | false => simp [start, Download.new] at hk
    | true =>
      exact .inl (Finmap.mem_keys.mp (by simpa [start, Download.new] using hk))

def storeView (s : System) : BlockWriter × Finset Hash256 × ℕ :=
  (s.blocks, s.download.storedHashes, s.download.blocksSinceFlush)

theorem Recorded.of_view (h : Recorded received s) (heq : storeView t = storeView s) :
    Recorded received t := by
  simp only [storeView, Prod.mk.injEq] at heq
  obtain ⟨hindexed, hwaiting, hstored⟩ := h
  rw [← heq.1] at hindexed hwaiting hstored
  rw [← heq.2.1] at hstored
  exact ⟨hindexed, hwaiting, hstored⟩

theorem storeView_storeBlockData (h : storeView s = storeView t) (amb : Ambient) (hash : Hash256)
    (rawBytes : Bytes) :
    storeView (s.storeBlockData amb hash rawBytes) =
      storeView (t.storeBlockData amb hash rawBytes) := by
  obtain ⟨_, blocks, _, _, ⟨_, _, stored, _, _, since⟩, _⟩ := s
  obtain ⟨_, _, _, _, ⟨_, _, _, _, _, _⟩, _⟩ := t
  obtain ⟨rfl, rfl, rfl⟩ : blocks = _ ∧ stored = _ ∧ since = _ := by
    simpa only [storeView, Prod.mk.injEq] using h
  unfold System.storeBlockData
  dsimp only
  split_ifs
  · rfl
  · split <;> rfl
  · split <;> rfl

theorem storeView_connectAndStore (P : Primitives) (amb : Ambient) (s : System) (hash : Hash256)
    (block : Block) (rawBytes : Bytes) (height : ℕ) :
    storeView (s.connectAndStore P amb hash block rawBytes height).2 = storeView s ∨
      storeView (s.connectAndStore P amb hash block rawBytes height).2 =
        storeView (s.storeBlockData amb hash rawBytes) := by
  unfold System.connectAndStore
  split
  · exact .inl rfl
  · next cs _ =>
    have hview : storeView ((s.setChainstate cs).removeConfirmed P amb hash block) =
        storeView s := by
      unfold System.removeConfirmed
      split_ifs <;> rfl
    exact .inr (storeView_storeBlockData hview amb hash rawBytes)

def StoreReady (s : System) : StoreOp → Prop
  | .connect amb hash _ rawBytes _ | .store amb hash rawBytes =>
    hash ∈ s.download.storedHashes ∨ Writable s.blocks rawBytes (amb.storeFault hash)
  | _ => True

instance (s : System) : ∀ op, Decidable (StoreReady s op)
  | .connect amb hash _ rawBytes _ | .store amb hash rawBytes =>
    inferInstanceAs (Decidable (hash ∈ s.download.storedHashes ∨
      Writable s.blocks rawBytes (amb.storeFault hash)))
  | .flush _ | .restart _ _ _ _ => inferInstanceAs (Decidable True)

theorem recorded_storeStep {op : StoreOp} (h : Recorded received s)
    (hreceived : ∀ e, op.given = some e → e ∈ received) (hready : StoreReady s op) :
    Recorded received (storeStep P s op) := by
  cases op with
  | connect amb hash block rawBytes height =>
    rcases storeView_connectAndStore P amb s hash block rawBytes height with heq | heq
    · exact h.of_view heq
    · exact (h.store (hreceived _ rfl) hready).of_view heq
  | store amb hash rawBytes => exact h.store (hreceived _ rfl) hready
  | flush amb => exact h.flush amb
  | restart node maxSize hmax indexRead => exact h.restart node hmax indexRead

theorem Recorded.loadable (h : Recorded received s) (hflushed : s.blocks.pending = [])
    (hparsed : ∀ e ∈ received, (fromBytes e.2).isSome) : StoredLoadable received s := by
  intro hash hmem
  have hindex : hash ∈ s.blocks.index := by
    rcases h.stored hash hmem with hin | ⟨e, he, _⟩
    · exact hin
    · exact absurd (hflushed ▸ he) List.not_mem_nil
  obtain ⟨loc, hloc⟩ := Finmap.mem_iff.mp hindex
  obtain ⟨rawBytes, hreceived, hheld⟩ := h.indexed hash loc hloc
  obtain ⟨block, hblock⟩ := Option.isSome_iff_exists.mp (hparsed _ hreceived)
  exact ⟨rawBytes, block, hreceived, hblock, bind_eq_ok.mpr ⟨rawBytes, loadBlock_of_held hloc hheld,
    okOr_eq_ok.mpr hblock⟩⟩

theorem stored_loadable_of_ready (P : Primitives) (node : Node) (maxSize : ℕ)
    (hmax : maxSize ≤ 0xFFFFFFFF)
    (indexRead : Bool) (ops : List StoreOp)
    (hblocks : ∀ e ∈ receivedBy ops, (fromBytes e.2).isSome)
    (hready : Along (storeStep P) StoreReady
      (start node (.openAt ∅ ∅ maxSize hmax) indexRead) ops)
    (hflushed : (run (storeStep P) (start node (.openAt ∅ ∅ maxSize hmax) indexRead)
      ops).blocks.pending = []) :
    StoredLoadable (receivedBy ops)
      (run (storeStep P) (start node (.openAt ∅ ∅ maxSize hmax) indexRead) ops) := by
  have hstart : Recorded (receivedBy ops) (start node (.openAt ∅ ∅ maxSize hmax) indexRead) := by
    refine ⟨?_, ?_, ?_⟩ <;>
      cases indexRead <;> simp [start, Download.new, BlockWriter.openAt]
  have hrun := run_invariant (Recorded (receivedBy ops))
    (fun s op h hcond => recorded_storeStep h hcond.2 hcond.1) hstart
    (hready.and fun op hop e he => ⟨op, hop, he⟩)
  exact hrun.loadable hflushed hblocks

abbrev newStore : System := start freshNode emptyBlocks true

def storeA1 (amb : Ambient) : StoreOp :=
  .connect amb (minedA1.header.blockHash poly) minedA1 (blockBytes minedA1) 1

def flushedRun : List StoreOp :=
  [storeA1 calm, .flush calm, .restart freshNode 1000 fileSize_le true]

theorem flushed_block_loadable :
    StoredLoadable (receivedBy flushedRun) (run (storeStep poly) newStore flushedRun) := by
  refine stored_loadable_of_ready poly freshNode 1000 (by decide) true flushedRun ?_
    (by decide +kernel) (by decide +kernel)
  have hparse : (fromBytes (blockBytes minedA1)).isSome = true := by decide +kernel
  simpa [receivedBy, flushedRun, storeA1, StoreOp.given] using hparse

theorem not_storedLoadable (hash : Hash256) (hmem : hash ∈ s.download.storedHashes)
    (hload : (s.blocks.reader.loadAndDeserialize hash).isOk = false) :
    ¬ StoredLoadable received s := by
  intro h
  obtain ⟨_, block, _, _, hok⟩ := h hash hmem
  rw [hok] at hload
  cases hload

def failedWrite : Ambient := { calm with storeFault := fun _ => some (.write 0) }

/-- `A1` has not been flushed yet, or its write has failed. -/
theorem recorded_block_not_loadable :
    (¬ StoredLoadable (receivedBy [storeA1 calm])
      (run (storeStep poly) newStore [storeA1 calm])) ∧
    ¬ StoredLoadable (receivedBy [storeA1 failedWrite, .flush calm])
      (run (storeStep poly) newStore [storeA1 failedWrite, .flush calm]) := by
  constructor
  · exact not_storedLoadable (minedA1.header.blockHash poly) (by decide +kernel) (by decide +kernel)
  · exact not_storedLoadable (minedA1.header.blockHash poly) (by decide +kernel) (by decide +kernel)

end Ironcat.LoadableBlocks
