import Ironcat.BlockFiles
import Ironcat.Lib.FlatFile
import Ironcat.Lib.Runs
import Ironcat.UndoFiles

/-!
# What the flat-file stores give back

The writers of `storage/block_store.rs` and `chainstate/undo_store.rs`: an
entry is appended to the current file and its position is counted in memory,
apart from the file's real length. The two part when a write fails half-way
and when a rotation reopens a file that was written before a crash; from then
on the positions of new entries are wrong.
-/

namespace Ironcat.StoredBytes

open Lib.ByteCodec Lib.ByteCodec.Reader Lib.Checked Lib.FiniteMap Lib.FlatFile Lib.Runs Types Undo
open BlockFiles UndoFiles

def blockMagic : Bytes := [0xFC, 0xC1, 0xB7, 0xDC]

structure PendingEntry where
  hash : Hash256
  fileNumber : ℕ
  offset : ℕ
  size : ℕ
deriving DecidableEq, Repr

def PendingEntry.binding (e : PendingEntry) : Hash256 × BlockLocation :=
  (e.hash, ⟨e.fileNumber, e.offset, e.size⟩)

def locationPlace (loc : BlockLocation) : Place := ⟨loc.fileNumber, loc.offset, loc.size⟩

/-- `BlockStore` with its writing side. The current file and the offset are in
`log`. -/
structure BlockWriter where
  index : Map Hash256 BlockLocation
  log : Log UInt8
  limit_le : log.limit ≤ 0xFFFFFFFF
  pending : List PendingEntry

namespace BlockWriter

def reader (w : BlockWriter) : BlockStore := ⟨w.index, w.log.files⟩

def entryHeader (raw : Bytes) : Bytes := blockMagic ++ leBytes 4 raw.length

def storeBlockUnchecked (w : BlockWriter) (hash : Hash256) (rawBytes : Bytes)
    (fault : Option Fault) : Except WriteError Unit × BlockWriter :=
  let entry := entryHeader rawBytes ++ rawBytes
  let written := w.log.write 0xFFFF entry fault
  let w' : BlockWriter := { w with
    log := written.2
    limit_le := by rw [Log.write_limit]; exact w.limit_le }
  match written.1 with
  | .error e => (.error e, w')
  | .ok (fileNumber, offset) =>
    let e : PendingEntry := ⟨hash, fileNumber, offset % 2 ^ 32, rawBytes.length % 2 ^ 32⟩
    (.ok (), { w' with pending := w'.pending ++ [e] })

def storeBlock (w : BlockWriter) (hash : Hash256) (rawBytes : Bytes) (fault : Option Fault) :
    Except WriteError Unit × BlockWriter :=
  if w.reader.hasBlock hash then (.ok (), w) else w.storeBlockUnchecked hash rawBytes fault

def flush (w : BlockWriter) (failed : Bool) : Bool × BlockWriter :=
  if w.pending.isEmpty then (true, w)
  else if failed then (false, w)
  else (true, { w with
    index := insertAll w.index (w.pending.map PendingEntry.binding)
    pending := [] })

section

variable (index : Map Hash256 BlockLocation) (files : Map ℕ Bytes) (maxSize : ℕ)

def places : Multiset Place :=
  index.entries.map fun e => locationPlace e.2

/-- `verify_or_clear_index`: the highest file number, or none if it clears the index. -/
def verifyIndex : Option ℕ :=
  verify BlockFiles.entryPrefixSize files (places index)

/-- The part of `open_with_max_file_size` that follows its check of the limit. -/
def openAt (hmax : maxSize ≤ 0xFFFFFFFF) : BlockWriter :=
  let verified := verifyIndex index files
  let fileNumber := verified.getD 0
  { index := if verified.isSome then index else ∅
    log := ⟨maxSize, files.insert fileNumber (content files fileNumber), fileNumber,
      (content files fileNumber).length⟩
    limit_le := hmax
    pending := [] }

def openWithMaxFileSize : Option BlockWriter :=
  if hmax : maxSize ≤ 0xFFFFFFFF then some (openAt index files maxSize hmax) else none

end

def reopen (w : BlockWriter) (maxSize : ℕ) (hmax : maxSize ≤ 0xFFFFFFFF) : BlockWriter :=
  openAt w.index w.log.files maxSize hmax

end BlockWriter

inductive BlockOp
  | storeBlock (hash : Hash256) (rawBytes : Bytes) (fault : Option Fault)
  | storeBlockUnchecked (hash : Hash256) (rawBytes : Bytes) (fault : Option Fault)
  | flush (failed : Bool)
  | reopen (maxSize : ℕ) (hmax : maxSize ≤ 0xFFFFFFFF)

abbrev BlockState := BlockWriter × Deposits Hash256 Bytes

/-- The store's step, and beside it what the store has accepted and flushed since the
index was last cleared. `store_block` leaves a hash that is already in the index
alone. -/
def blockStep : BlockState → BlockOp → BlockState
  | (w, g), .storeBlock hash rawBytes fault =>
    let r := w.storeBlock hash rawBytes fault
    (r.2, if r.1.isOk ∧ ¬ w.reader.hasBlock hash then g.push hash rawBytes else g)
  | (w, g), .storeBlockUnchecked hash rawBytes fault =>
    let r := w.storeBlockUnchecked hash rawBytes fault
    (r.2, if r.1.isOk then g.push hash rawBytes else g)
  | (w, g), .flush failed =>
    let r := w.flush failed
    (r.2, if r.1 then g.commit else g)
  | (w, g), .reopen maxSize hmax => (w.reopen maxSize hmax,
      if (BlockWriter.verifyIndex w.index w.log.files).isSome then g.drop else Deposits.empty)

/-- Every block that was flushed since the index was last cleared is read back as it
was stored. -/
def BlocksReturned (s : BlockState) : Prop :=
  ∀ hash rawBytes, s.2.committed.lookup hash = some rawBytes →
    s.1.reader.loadBlock hash = .ok rawBytes

def Appendable (log : Log UInt8) (rawBytes : Bytes) : Option Fault → Prop
  | some (.write _) => True
  | _ => rawBytes.length < 2 ^ 32 ∧ log.Ready (BlockFiles.entryPrefixSize + rawBytes.length)

instance (log : Log UInt8) (rawBytes : Bytes) : ∀ fault, Decidable (Appendable log rawBytes fault)
  | some (.write _) => inferInstanceAs (Decidable True)
  | some .openNext => inferInstanceAs (Decidable (_ ∧ _))
  | none => inferInstanceAs (Decidable (_ ∧ _))

def blockReady : BlockState → BlockOp → Prop
  | (w, _), .storeBlock hash rawBytes fault =>
    w.reader.hasBlock hash ∨ Appendable w.log rawBytes fault
  | (w, _), .storeBlockUnchecked _ rawBytes fault => Appendable w.log rawBytes fault
  | _, .flush _ => True
  | _, .reopen _ _ => True

instance (s : BlockState) : ∀ op, Decidable (blockReady s op)
  | .storeBlock _ _ _ => inferInstanceAs (Decidable (_ ∨ _))
  | .storeBlockUnchecked _ rawBytes fault =>
    inferInstanceAs (Decidable (Appendable s.1.log rawBytes fault))
  | .flush _ => inferInstanceAs (Decidable True)
  | .reopen _ _ => inferInstanceAs (Decidable True)

theorem entry_length (rawBytes : Bytes) :
    (BlockWriter.entryHeader rawBytes ++ rawBytes).length =
      BlockFiles.entryPrefixSize + rawBytes.length := by
  simp [BlockWriter.entryHeader, blockMagic, BlockFiles.entryPrefixSize]
  omega

variable {rawBytes : Bytes} {fault : Option Fault}

theorem Appendable.of_write {log log' : Log UInt8} {entry : Bytes} {p : ℕ × ℕ}
    (h : Appendable log rawBytes fault) (hwrite : log.write 0xFFFF entry fault = (.ok p, log')) :
    rawBytes.length < 2 ^ 32 ∧ log.Ready (BlockFiles.entryPrefixSize + rawBytes.length) := by
  match fault, h with
  | none, h => exact h
  | some .openNext, h => exact h
  | some (.write k), _ =>
    unfold Log.write at hwrite
    split at hwrite <;> cases hwrite

theorem Appendable.holds {log log' : Log UInt8} {header : Bytes} {n o : ℕ}
    (hlimit : log.limit ≤ 0xFFFFFFFF) (hlen : header.length = BlockFiles.entryPrefixSize)
    (h : Appendable log rawBytes fault)
    (hwrite : log.write 0xFFFF (header ++ rawBytes) fault = (.ok (n, o), log')) :
    HoldsAt BlockFiles.entryPrefixSize log'.files ⟨n, o % 2 ^ 32, rawBytes.length % 2 ^ 32⟩
      rawBytes := by
  have hready := h.of_write hwrite
  rw [← hlen, ← List.length_append] at hready
  rw [← hlen]
  exact Log.write_holds (by omega) hready.1 hready.2 hwrite

theorem takeBytes_of_holds {skip : ℕ} {files : Map ℕ Bytes} {p : Place}
    (h : HoldsAt skip files p rawBytes) :
    ∃ after, takeBytes p.size ((content files p.number).drop (p.offset + skip)) =
      some (rawBytes, after) := by
  obtain ⟨hsize, after, hread⟩ := h.read
  exact ⟨after, by rw [hread, hsize]; exact reads_takeBytes rawBytes after⟩

section Blocks
variable {w : BlockWriter} {g : Deposits Hash256 Bytes}

def BlockHeld (files : Map ℕ Bytes) (loc : BlockLocation) (rawBytes : Bytes) : Prop :=
  HoldsAt BlockFiles.entryPrefixSize files (locationPlace loc) rawBytes

def BlocksBacked (s : BlockState) : Prop :=
  Backed BlockHeld s.1.log.files s.1.index (s.1.pending.map PendingEntry.binding) s.2

theorem backed_storeBlockUnchecked (h : BlocksBacked (w, g)) (hash : Hash256)
    (hready : Appendable w.log rawBytes fault) :
    BlocksBacked (blockStep (w, g) (.storeBlockUnchecked hash rawBytes fault)) := by
  have hgrown := h.mono fun _ _ hheld => hheld.grows
    (w.log.write_grows 0xFFFF (BlockWriter.entryHeader rawBytes ++ rawBytes) fault)
  cases hres : w.log.write 0xFFFF (BlockWriter.entryHeader rawBytes ++ rawBytes) fault with
  | mk res log' =>
    rw [hres] at hgrown
    cases res with
    | error e =>
      simp only [blockStep, BlockWriter.storeBlockUnchecked, BlocksBacked, hres]
      exact hgrown
    | ok p =>
      have hheld := hready.holds w.limit_le
        (Nat.add_right_cancel (List.length_append.symm.trans (entry_length rawBytes))) hres
      have hpush := hgrown.push hash (l := ⟨p.1, p.2 % 2 ^ 32, rawBytes.length % 2 ^ 32⟩) hheld
      simp only [blockStep, BlockWriter.storeBlockUnchecked, BlocksBacked, hres, List.map_append]
      exact hpush

theorem backed_flush (h : BlocksBacked (w, g)) (failed : Bool) :
    BlocksBacked (blockStep (w, g) (.flush failed)) := by
  have hcommit := h.commit
  by_cases hnone : w.pending = []
  · have hstep : blockStep (w, g) (.flush failed) = (w, g.commit) := by
      simp [blockStep, BlockWriter.flush, hnone]
    rw [hstep]
    simpa only [BlocksBacked, hnone, List.map_nil, insertAll_nil] using hcommit
  · cases failed with
    | true =>
      have hstep : blockStep (w, g) (.flush true) = (w, g) := by
        simp [blockStep, BlockWriter.flush, hnone]
      rw [hstep]
      exact h
    | false =>
      simp only [blockStep, BlockWriter.flush, List.isEmpty_iff, hnone, if_false, BlocksBacked,
        Bool.false_eq_true, if_true]
      exact hcommit

theorem backed_reopen (h : BlocksBacked (w, g)) (maxSize : ℕ) (hmax : maxSize ≤ 0xFFFFFFFF) :
    BlocksBacked (blockStep (w, g) (.reopen maxSize hmax)) := by
  -- the current file is created if it is missing, which changes no file's content
  have hfiles : Grows w.log.files (w.reopen maxSize hmax).log.files :=
    grows_insert (List.prefix_refl _)
  have hgrown := h.drop.mono fun _ _ hheld => HoldsAt.grows hheld hfiles
  simp only [blockStep, BlocksBacked, BlockWriter.reopen, BlockWriter.openAt]
  split_ifs with hverified
  · exact hgrown
  · exact Backed.start _

theorem backed_blockStep (s : BlockState) (op : BlockOp) (h : BlocksBacked s)
    (hready : blockReady s op) : BlocksBacked (blockStep s op) := by
  obtain ⟨w, g⟩ := s
  cases op with
  | storeBlockUnchecked hash rawBytes fault => exact backed_storeBlockUnchecked h hash hready
  | storeBlock hash rawBytes fault =>
    by_cases hhas : w.reader.hasBlock hash
    · simp only [blockStep, BlockWriter.storeBlock, hhas, not_true_eq_false, and_false, if_false,
        if_true]
      exact h
    · have hstep := backed_storeBlockUnchecked h hash (hready.resolve_left hhas)
      simp only [blockStep, BlockWriter.storeBlock, hhas, if_false, not_false_eq_true,
        and_true, Bool.false_eq_true] at hstep ⊢
      exact hstep
  | flush failed => exact backed_flush h failed
  | reopen maxSize hmax => exact backed_reopen h maxSize hmax

theorem loadBlock_of_held {hash : Hash256} {loc : BlockLocation}
    (hloc : w.index.lookup hash = some loc) (hheld : BlockHeld w.log.files loc rawBytes) :
    w.reader.loadBlock hash = .ok rawBytes := by
  obtain ⟨after, hread⟩ := takeBytes_of_holds hheld
  have hfile := hheld.lookup (by decide)
  exact bind_eq_ok.mpr ⟨loc, okOr_eq_ok.mpr hloc, bind_eq_ok.mpr ⟨_, okOr_eq_ok.mpr hfile,
    bind_eq_ok.mpr ⟨(rawBytes, after), okOr_eq_ok.mpr hread, rfl⟩⟩⟩

theorem loadBlock_of_backed {s : BlockState} (h : BlocksBacked s) : BlocksReturned s := by
  intro hash rawBytes hstored
  obtain ⟨loc, hloc, hheld⟩ := h.indexed hash rawBytes hstored
  exact loadBlock_of_held hloc hheld

end Blocks

/-! ## Undo records

A record's position is returned to the caller, which puts it into the index in
the transaction that connects the block. -/

def undoPlace (loc : ℕ × ℕ × ℕ) : Place := ⟨loc.1, loc.2.1, loc.2.2⟩

/-- The undo files, the index table and the positions that no transaction has
committed. -/
structure UndoWriter where
  store : UndoStore
  index : UndoIndex
  pending : List UndoLocation

namespace UndoWriter

def log (s : UndoStore) : Log UInt8 := ⟨s.maxFileSize, s.files, s.fileNumber, s.offset⟩

def withLog (s : UndoStore) (log : Log UInt8) : UndoStore :=
  { s with files := log.files, fileNumber := log.number, offset := log.offset }

def binding (loc : UndoLocation) : Hash256 × (ℕ × ℕ × ℕ) :=
  (loc.hash, (loc.fileNumber, loc.offset, loc.size))

/-- `store_undo_to_file` with the failures of its file operations. -/
def storeUndoToFile (s : UndoStore) (blockHash : Hash256) (undo : BlockUndo)
    (fault : Option Fault) : Except WriteError UndoLocation × UndoStore :=
  let rawBytes := undo.toBytes
  let written := (log s).write 0xFFFF (UndoStore.encodeEntry rawBytes) fault
  (written.1.map fun p => ⟨blockHash, p.1, p.2 % 2 ^ 32, rawBytes.length % 2 ^ 32⟩,
    withLog s written.2)

section

variable (index : UndoIndex) (files : Map ℕ Bytes) (maxSize : ℕ)

def places : Multiset Place := index.entries.map fun e => undoPlace e.2

def verifyIndex : Option ℕ :=
  verify UndoFiles.entryPrefixSize files (places index)

def openAt (hmax : maxSize ≤ 0xFFFFFFFF) : UndoWriter :=
  let verified := verifyIndex index files
  let fileNumber := verified.getD 0
  { store := ⟨maxSize, hmax, files.insert fileNumber (content files fileNumber), fileNumber,
      (content files fileNumber).length⟩
    index := if verified.isSome then index else ∅
    pending := [] }

def openWithMaxFileSize : Option UndoWriter :=
  if hmax : maxSize ≤ 0xFFFFFFFF then some (openAt index files maxSize hmax) else none

end

end UndoWriter

inductive UndoOp
  | storeUndoToFile (blockHash : Hash256) (undo : BlockUndo) (fault : Option Fault)
  | commit
  | abort
  | reopen (maxSize : ℕ) (hmax : maxSize ≤ 0xFFFFFFFF)

abbrev UndoState := UndoWriter × Deposits Hash256 BlockUndo

def undoStep : UndoState → UndoOp → UndoState
  | (w, g), .storeUndoToFile blockHash undo fault =>
    match UndoWriter.storeUndoToFile w.store blockHash undo fault with
    | (.error _, store) => ({ w with store }, g)
    | (.ok loc, store) => ({ w with store, pending := w.pending ++ [loc] }, g.push blockHash undo)
  | (w, g), .commit =>
    ({ w with index := insertAll w.index (w.pending.map UndoWriter.binding), pending := [] },
      g.commit)
  | (w, g), .abort => ({ w with pending := [] }, g.drop)
  | (w, g), .reopen maxSize hmax => (UndoWriter.openAt w.index w.store.files maxSize hmax,
      if (UndoWriter.verifyIndex w.index w.store.files).isSome then g.drop else Deposits.empty)

def UndosReturned (s : UndoState) : Prop :=
  ∀ hash undo, s.2.committed.lookup hash = some undo →
    s.1.store.loadUndo s.1.index hash = .ok undo

def undoReady : UndoState → UndoOp → Prop
  | (w, _), .storeUndoToFile _ undo fault =>
    Appendable (UndoWriter.log w.store) undo.toBytes fault
  | _, .commit => True
  | _, .abort => True
  | _, .reopen _ _ => True

instance (s : UndoState) : ∀ op, Decidable (undoReady s op)
  | .storeUndoToFile _ undo fault =>
    inferInstanceAs (Decidable (Appendable (UndoWriter.log s.1.store) undo.toBytes fault))
  | .commit => inferInstanceAs (Decidable True)
  | .abort => inferInstanceAs (Decidable True)
  | .reopen _ _ => inferInstanceAs (Decidable True)

section Undos
variable {w : UndoWriter} {g : Deposits Hash256 BlockUndo}

def UndoHeld (files : Map ℕ Bytes) (loc : ℕ × ℕ × ℕ) (undo : BlockUndo) : Prop :=
  HoldsAt UndoFiles.entryPrefixSize files (undoPlace loc) undo.toBytes ∧
    undo.toBytes.length < 2 ^ 32

def UndosBacked (s : UndoState) : Prop :=
  Backed UndoHeld s.1.store.files s.1.index (s.1.pending.map UndoWriter.binding) s.2

theorem backed_storeUndoToFile (h : UndosBacked (w, g)) {hash : Hash256} {undo : BlockUndo}
    (hready : Appendable (UndoWriter.log w.store) undo.toBytes fault) :
    UndosBacked (undoStep (w, g) (.storeUndoToFile hash undo fault)) := by
  have hgrown := h.mono fun _ _ hheld => hheld.imp_left fun h => h.grows
    ((UndoWriter.log w.store).write_grows 0xFFFF (UndoStore.encodeEntry undo.toBytes) fault)
  cases hres : (UndoWriter.log w.store).write 0xFFFF (UndoStore.encodeEntry undo.toBytes) fault with
  | mk res log' =>
    rw [hres] at hgrown
    cases res with
    | error e =>
      simp only [undoStep, UndoWriter.storeUndoToFile, UndosBacked, hres]
      exact hgrown
    | ok p =>
      have hheld := hready.holds w.store.maxFileSize_le (by rfl) hres
      have hpush := hgrown.push hash (l := (p.1, p.2 % 2 ^ 32, undo.toBytes.length % 2 ^ 32))
        ⟨hheld, (hready.of_write hres).1⟩
      simp only [undoStep, UndoWriter.storeUndoToFile, UndosBacked, hres, Except.map,
        List.map_append]
      exact hpush

theorem backed_undoStep (s : UndoState) (op : UndoOp) (h : UndosBacked s)
    (hready : undoReady s op) : UndosBacked (undoStep s op) := by
  obtain ⟨w, g⟩ := s
  cases op with
  | storeUndoToFile hash undo fault => exact backed_storeUndoToFile h hready
  | commit => exact h.commit
  | abort => exact h.drop
  | reopen maxSize hmax =>
    have hfiles : Grows w.store.files
        (UndoWriter.openAt w.index w.store.files maxSize hmax).store.files :=
      grows_insert (List.prefix_refl _)
    have hgrown := h.drop.mono fun _ _ hheld => hheld.imp_left fun h => h.grows hfiles
    simp only [undoStep, UndosBacked, UndoWriter.openAt]
    split_ifs with hverified
    · exact hgrown
    · exact Backed.start _

theorem loadUndo_of_backed {s : UndoState} (h : UndosBacked s) : UndosReturned s := by
  intro hash undo hstored
  obtain ⟨loc, hloc, hheld, hlen⟩ := h.indexed hash undo hstored
  obtain ⟨after, hread⟩ := takeBytes_of_holds hheld
  have hfile := hheld.lookup (by decide)
  exact bind_eq_ok.mpr ⟨loc, okOr_eq_ok.mpr hloc, bind_eq_ok.mpr ⟨_, okOr_eq_ok.mpr hfile,
    bind_eq_ok.mpr ⟨(undo.toBytes, after), okOr_eq_ok.mpr hread,
      okOr_eq_ok.mpr (BlockUndo.fromBytes_toBytes hlen)⟩⟩⟩

end Undos

/-- From stores with nothing indexed, every run in which each completed write
finds its file as long as the store counts. -/
theorem stored_bytes_returned {w : BlockWriter} {u : UndoWriter} {ops : List BlockOp}
    {undoOps : List UndoOp} (hw : w.index = ∅ ∧ w.pending = []) (hu : u.index = ∅ ∧ u.pending = [])
    (hblocks : Along blockStep blockReady (w, Deposits.empty) ops)
    (hundos : Along undoStep undoReady (u, Deposits.empty) undoOps) :
    BlocksReturned (run blockStep (w, Deposits.empty) ops) ∧
      UndosReturned (run undoStep (u, Deposits.empty) undoOps) := by
  have hwstart : BlocksBacked (w, Deposits.empty) := by
    simp only [BlocksBacked, hw.1, hw.2]
    exact Backed.start _
  have hustart : UndosBacked (u, Deposits.empty) := by
    simp only [UndosBacked, hu.1, hu.2]
    exact Backed.start _
  exact ⟨loadBlock_of_backed (run_invariant _ backed_blockStep hwstart hblocks),
    loadUndo_of_backed (run_invariant _ backed_undoStep hustart hundos)⟩

def newBlocks : BlockState := (BlockWriter.openAt ∅ ∅ 20 (by decide), Deposits.empty)

def newUndos : UndoState := (UndoWriter.openAt ∅ ∅ 20 (by decide), Deposits.empty)

def noUndo : BlockUndo := ⟨[]⟩

def repairedBlocks : List BlockOp :=
  [.storeBlock 1 [1] none, .storeBlockUnchecked 2 [2] (some (.write 3)), .reopen 20 (by decide),
    .storeBlock 2 [2] none, .flush false]

def repairedUndos : List UndoOp :=
  [.storeUndoToFile 1 noUndo (some (.write 5)), .reopen 20 (by decide),
    .storeUndoToFile 1 noUndo none, .commit]

/-- Writes that fail half-way do no harm when the store is reopened before it
is used again. -/
theorem reopened_store_returns_blocks :
    (run blockStep newBlocks repairedBlocks).1.reader.loadBlock 2 = .ok [2] ∧
      (run undoStep newUndos repairedUndos).1.store.loadUndo
        (run undoStep newUndos repairedUndos).1.index 1 = .ok noUndo := by
  have h : BlocksReturned (run blockStep newBlocks repairedBlocks) ∧
      UndosReturned (run undoStep newUndos repairedUndos) :=
    stored_bytes_returned ⟨by decide +kernel, rfl⟩ ⟨by decide +kernel, rfl⟩ (by decide +kernel)
      (by decide +kernel)
  exact ⟨h.1 2 [2] (by decide +kernel), h.2 1 noUndo (by decide +kernel)⟩

def tornWrite : List BlockOp :=
  [.storeBlockUnchecked 1 [1] (some (.write 3)), .storeBlockUnchecked 2 [2] none, .flush false]

def rotatedAfterCrash : List BlockOp :=
  [.storeBlockUnchecked 1 [1] none, .flush false, .storeBlockUnchecked 2 [2] none,
    .storeBlockUnchecked 3 [3] none, .reopen 20 (by decide), .storeBlockUnchecked 4 [4] none,
    .flush false]

def tornUndo : List UndoOp :=
  [.storeUndoToFile 1 noUndo (some (.write 5)), .storeUndoToFile 2 noUndo none, .commit]

theorem stored_bytes_lost :
    ¬ BlocksReturned (run blockStep newBlocks tornWrite) ∧
    ¬ BlocksReturned (run blockStep newBlocks rotatedAfterCrash) ∧
    ¬ UndosReturned (run undoStep newUndos tornUndo) := by
  refine ⟨fun h => ?_, fun h => ?_, fun h => ?_⟩
  · exact absurd (congrArg Except.toOption (h 2 [2] (by decide +kernel)))
      (by decide +kernel)
  · exact absurd (congrArg Except.toOption (h 4 [4] (by decide +kernel)))
      (by decide +kernel)
  · exact absurd (congrArg Except.toOption (h 2 noUndo (by decide +kernel)))
      (by decide +kernel)

end Ironcat.StoredBytes
