import Ironcat.Lib.Checked
import Ironcat.Lib.FiniteMap
import Ironcat.Undo

/-!
# The undo flat files

Undo records are appended to numbered files, and a file is left for the next
one when the record would not fit. The record's position goes into an index
kept with the chain state. A record once written stays where it is, so what is
later loaded for it is the record itself or an error.
-/

namespace Ironcat.UndoFiles

open Lib.ByteCodec Lib.ByteCodec.Reader Lib.Checked Lib.FiniteMap Types Undo

def undoMagic : Bytes := [0xFC, 0xC1, 0xB7, 0xDC]

def entryPrefixSize : ℕ := 8

/-- `open_with_max_file_size` refuses a limit above `u32::MAX`. -/
structure UndoStore where
  maxFileSize : ℕ
  maxFileSize_le : maxFileSize ≤ 0xFFFFFFFF
  files : Map ℕ Bytes
  fileNumber : ℕ
  offset : ℕ

structure UndoLocation where
  hash : Hash256
  fileNumber : ℕ
  offset : ℕ
  size : ℕ
deriving DecidableEq, Repr

abbrev UndoIndex := Map Hash256 (ℕ × ℕ × ℕ)

inductive UndoError
  | fileNumberOverflow
  | noUndoData (hash : Hash256)
  | openFailed (fileNumber : ℕ)
  | readFailed
  | badUndoData
deriving DecidableEq, Repr

namespace UndoStore

def content (s : UndoStore) (n : ℕ) : Bytes := (s.files.lookup n).getD []

def rotate (s : UndoStore) (entrySize : ℕ) : Except UndoError (ℕ × ℕ) :=
  if 0 < s.offset ∧ s.maxFileSize < s.offset + entrySize then do
    ensure (s.fileNumber + 1 ≤ 0xFFFF) .fileNumberOverflow
    return (s.fileNumber + 1, 0)
  else
    return (s.fileNumber, s.offset)

def encodeEntry (raw : Bytes) : Bytes := undoMagic ++ leBytes 4 raw.length ++ raw

def storeUndoToFile (s : UndoStore) (blockHash : Hash256) (undo : BlockUndo) :
    Except UndoError (UndoStore × UndoLocation) := do
  let rawBytes := undo.toBytes
  let entrySize := entryPrefixSize + rawBytes.length
  let (fileNumber, offset) ← s.rotate entrySize
  let file := s.content fileNumber ++ encodeEntry rawBytes
  return ({ s with files := s.files.insert fileNumber file, fileNumber, offset := offset + entrySize },
    ⟨blockHash, fileNumber, offset % 2 ^ 32, rawBytes.length % 2 ^ 32⟩)

def loadUndo (s : UndoStore) (index : UndoIndex) (blockHash : Hash256) :
    Except UndoError BlockUndo := do
  let (fileNumber, entryOffset, size) ← okOr (.noUndoData blockHash) (index.lookup blockHash)
  let file ← okOr (.openFailed fileNumber) (s.files.lookup fileNumber)
  let (buf, _) ← okOr .readFailed (takeBytes size (file.drop (entryOffset + entryPrefixSize)))
  okOr .badUndoData (BlockUndo.fromBytes buf)

structure AtEnd (s : UndoStore) : Prop where
  offset : s.offset = (s.content s.fileNumber).length
  later : ∀ n, s.fileNumber < n → s.content n = []

def Recorded (s : UndoStore) (loc : UndoLocation) (undo : BlockUndo) : Prop :=
  ∃ before after, s.content loc.fileNumber = before ++ undo.toBytes ++ after ∧
    before.length = loc.offset + entryPrefixSize ∧ loc.size = undo.toBytes.length % 2 ^ 32

def Extends (s s' : UndoStore) : Prop := ∀ n, ∃ t, s'.content n = s.content n ++ t

theorem Extends.refl (s : UndoStore) : s.Extends s := fun n => ⟨[], by simp⟩

variable {s s' : UndoStore} {loc : UndoLocation} {undo : BlockUndo}

theorem Recorded.extends (h : s.Recorded loc undo) (hext : s.Extends s') :
    s'.Recorded loc undo := by
  obtain ⟨before, after, hfile, hlen, hsize⟩ := h
  obtain ⟨t, ht⟩ := hext loc.fileNumber
  exact ⟨before, after ++ t, by rw [ht, hfile, List.append_assoc], hlen, hsize⟩

theorem rotate_eq_ok {e : ℕ} {p : ℕ × ℕ} (h : s.rotate e = .ok p) :
    (0 < s.offset ∧ s.maxFileSize < s.offset + e ∧ s.fileNumber + 1 ≤ 0xFFFF ∧
        p = (s.fileNumber + 1, 0)) ∨
      ((s.offset = 0 ∨ s.offset + e ≤ s.maxFileSize) ∧ p = (s.fileNumber, s.offset)) := by
  unfold rotate at h
  split_ifs at h with hfull
  · obtain ⟨_, hnum, hp⟩ := bind_eq_ok.mp h
    cases hp
    exact Or.inl ⟨hfull.1, hfull.2, ensure_eq_ok.mp hnum, rfl⟩
  · cases h
    exact Or.inr ⟨by omega, rfl⟩

theorem encodeEntry_length (raw : Bytes) : (encodeEntry raw).length = entryPrefixSize + raw.length := by
  simp [encodeEntry, undoMagic, entryPrefixSize]
  omega

variable {hash : Hash256}

theorem storeUndoToFile_eq_ok (h : s.storeUndoToFile hash undo = .ok (s', loc)) :
    ∃ n o, s.rotate (entryPrefixSize + undo.toBytes.length) = .ok (n, o) ∧
      s' = { s with
        files := s.files.insert n (s.content n ++ encodeEntry undo.toBytes)
        fileNumber := n
        offset := o + (entryPrefixSize + undo.toBytes.length) } ∧
      loc = ⟨hash, n, o % 2 ^ 32, undo.toBytes.length % 2 ^ 32⟩ := by
  obtain ⟨⟨n, o⟩, hrot, hret⟩ := bind_eq_ok.mp h
  cases hret
  exact ⟨n, o, hrot, rfl, rfl⟩

theorem rotate_atEnd {e n o : ℕ} (hs : s.AtEnd) (h : s.rotate e = .ok (n, o)) :
    o = (s.content n).length ∧ s.fileNumber ≤ n ∧ o % 2 ^ 32 = o := by
  have hmax := s.maxFileSize_le
  rcases rotate_eq_ok h with ⟨-, -, -, hp⟩ | ⟨hroom, hp⟩
  · cases hp
    simp [hs.later (s.fileNumber + 1) (Nat.lt_succ_self _)]
  · cases hp
    exact ⟨hs.offset, le_refl _, Nat.mod_eq_of_lt (by omega)⟩

theorem content_insert {n : ℕ} {file : Bytes} (h : s'.files = s.files.insert n file) (m : ℕ) :
    s'.content m = if m = n then file else s.content m := by
  rw [content, h, lookup_insert_eq]
  split_ifs <;> rfl

theorem storeUndoToFile_spec (hs : s.AtEnd) (h : s.storeUndoToFile hash undo = .ok (s', loc)) :
    s'.AtEnd ∧ s'.Recorded loc undo ∧ s.Extends s' ∧ loc.hash = hash := by
  obtain ⟨n, o, hrot, hs', rfl⟩ := storeUndoToFile_eq_ok h
  obtain ⟨ho, hn, hcut⟩ := rotate_atEnd hs hrot
  have hfiles : s'.files = s.files.insert n (s.content n ++ encodeEntry undo.toBytes) := by
    rw [hs']
  have hcontent := content_insert hfiles
  have hnum : s'.fileNumber = n := by rw [hs']
  refine ⟨⟨?_, ?_⟩, ⟨s.content n ++ undoMagic ++ leBytes 4 undo.toBytes.length, [], ?_, ?_, rfl⟩,
    ?_, rfl⟩
  · rw [hnum, hcontent, if_pos rfl, List.length_append, encodeEntry_length, ← ho, hs']
  · intro m hm
    rw [hnum] at hm
    rw [hcontent, if_neg (by omega), hs.later m (by omega)]
  · rw [hcontent, if_pos rfl, encodeEntry]
    simp only [List.append_assoc, List.append_nil]
  · simp only [List.length_append, leBytes_length, hcut, ← ho, undoMagic, entryPrefixSize]
    rfl
  · intro m
    rw [hcontent]
    split_ifs with hm
    · exact ⟨encodeEntry undo.toBytes, by rw [hm]⟩
    · exact ⟨[], by simp⟩

theorem loadUndo_eq_ok {index : UndoIndex} {u : BlockUndo} (h : s.loadUndo index hash = .ok u) :
    ∃ n o size rest, index.lookup hash = some (n, o, size) ∧
      ∃ buf, takeBytes size ((s.content n).drop (o + entryPrefixSize)) = some (buf, rest) ∧
        BlockUndo.fromBytes buf = some u := by
  obtain ⟨⟨n, o, size⟩, hidx, h⟩ := bind_eq_ok.mp h
  obtain ⟨file, hfile, h⟩ := bind_eq_ok.mp h
  obtain ⟨⟨buf, rest⟩, hbuf, h⟩ := bind_eq_ok.mp h
  have hcontent : s.content n = file := by rw [content, okOr_eq_ok.mp hfile]; rfl
  refine ⟨n, o, size, rest, okOr_eq_ok.mp hidx, buf, ?_, okOr_eq_ok.mp h⟩
  rw [hcontent]
  exact okOr_eq_ok.mp hbuf

theorem Recorded.loadUndo_eq {u : BlockUndo} {index : UndoIndex} (hrec : s.Recorded loc undo)
    (henc : undo.Encodable) (hidx : index.lookup hash = some (loc.fileNumber, loc.offset, loc.size))
    (h : s.loadUndo index hash = .ok u) : u = undo := by
  obtain ⟨before, after, hfile, hlen, hsize⟩ := hrec
  obtain ⟨n, o, size, rest, hidx', buf, hbuf, hdec⟩ := loadUndo_eq_ok h
  rw [hidx] at hidx'
  cases hidx'
  obtain ⟨-, rfl, -⟩ := takeBytes_eq_some hbuf
  have hsz : loc.size ≤ undo.toBytes.length := hsize ▸ Nat.mod_le _ _
  rw [hfile, List.append_assoc, List.drop_left' hlen, List.take_append_of_le_length hsz] at hdec
  exact (BlockUndo.fromBytes_prefixExact henc _ _ hdec).1

structure Behind (s s' : UndoStore) : Prop where
  limit : s.maxFileSize = s'.maxFileSize
  position : s.fileNumber < s'.fileNumber ∨ s.fileNumber = s'.fileNumber ∧ s.offset ≤ s'.offset

theorem Behind.refl (s : UndoStore) : s.Behind s := ⟨rfl, Or.inr ⟨rfl, le_refl _⟩⟩

theorem Behind.trans {s₁ s₂ s₃ : UndoStore} (h₁ : s₁.Behind s₂) (h₂ : s₂.Behind s₃) :
    s₁.Behind s₃ := by
  refine ⟨h₁.limit.trans h₂.limit, ?_⟩
  have hp₁ := h₁.position
  have hp₂ := h₂.position
  omega

theorem storeUndoToFile_behind (h : s.storeUndoToFile hash undo = .ok (s', loc)) : s.Behind s' := by
  obtain ⟨n, o, hrot, rfl, -⟩ := storeUndoToFile_eq_ok h
  refine ⟨rfl, ?_⟩
  rcases rotate_eq_ok hrot with ⟨-, -, -, hp⟩ | ⟨-, hp⟩
  · cases hp
    exact Or.inl (Nat.lt_succ_self _)
  · cases hp
    exact Or.inr ⟨rfl, Nat.le_add_right _ _⟩

theorem storeUndoToFile_of_lt (hnum : s.fileNumber < 0xFFFF) (hash : Hash256) (undo : BlockUndo) :
    ∃ s' loc, s.storeUndoToFile hash undo = .ok (s', loc) ∧
      s'.fileNumber ≤ s.fileNumber + 1 := by
  obtain ⟨⟨n, o⟩, hrot⟩ : ∃ p, s.rotate (entryPrefixSize + undo.toBytes.length) = .ok p := by
    unfold rotate
    split_ifs
    · exact ⟨_, bind_eq_ok.mpr ⟨(), ensure_eq_ok.mpr hnum, rfl⟩⟩
    · exact ⟨_, rfl⟩
  refine ⟨_, _, bind_eq_ok.mpr ⟨(n, o), hrot, rfl⟩, ?_⟩
  rcases rotate_eq_ok hrot with ⟨-, -, -, hp⟩ | ⟨-, hp⟩ <;> cases hp <;> simp

theorem storeUndoToFile_mono {t t' : UndoStore} (hb : s.Behind t) (hnum : t.fileNumber ≤ 0xFFFF)
    (h : t.storeUndoToFile hash undo = .ok (t', loc)) :
    t'.fileNumber ≤ 0xFFFF ∧
      ∃ s' loc', s.storeUndoToFile hash undo = .ok (s', loc') ∧ s'.Behind t' := by
  obtain ⟨n, o, hrot, rfl, -⟩ := storeUndoToFile_eq_ok h
  have hlimit := hb.limit
  have hpos := hb.position
  generalize he : entryPrefixSize + undo.toBytes.length = e at hrot
  have ht := rotate_eq_ok hrot
  have hrot' : ∃ p, s.rotate e = .ok p := by
    unfold rotate
    split_ifs with hfull
    · have hroom : s.fileNumber + 1 ≤ 0xFFFF := by
        rcases ht with ⟨-, -, hle, -⟩ | ⟨hno, -⟩ <;> omega
      exact ⟨(s.fileNumber + 1, 0), bind_eq_ok.mpr ⟨(), ensure_eq_ok.mpr hroom, rfl⟩⟩
    · exact ⟨_, rfl⟩
  obtain ⟨⟨m, p⟩, hsrot⟩ := hrot'
  have hs := rotate_eq_ok hsrot
  refine ⟨?_, _, _, bind_eq_ok.mpr ⟨(m, p), by rw [he]; exact hsrot, rfl⟩, hlimit, ?_⟩
  · rcases ht with ⟨-, -, hle, hp⟩ | ⟨-, hp⟩ <;> cases hp <;> omega
  · simp only [Prod.mk.injEq] at ht hs ⊢
    omega

end UndoStore

end Ironcat.UndoFiles
