import Ironcat.Lib.SliceDecoder
import Ironcat.Undo

/-!
# Decoding undo records in place

The decoders of `chainstate/undo.rs` and `chainstate/coin.rs` with their cursor
positions, slices and allocations. They read what the readers of `Undo` read,
and no slice is out of range. Capacities are taken from count fields before the
entries are seen, so a few bytes can ask for any amount of memory. A whole record
asks for a fixed multiple of its length, and one that is cut short for what the
counts in it announce.
-/

namespace Ironcat.UndoCursor

open Lib.ByteCodec Lib.SliceDecoder Undo

def coinFromCursor : Decoder Coin := do
  let height ← readLe 4 "failed to read coin height"
  let flag ← readLe 1 "failed to read coin is_coinbase flag"
  let value ← readLe 8 "failed to read coin value"
  let scriptLen ← readLe 4 "failed to read coin script length"
  reserve scriptLen scriptLen
  let scriptPubkey ← readExact scriptLen "failed to read coin script bytes"
  return ⟨⟨(UInt64.ofNat value).toInt64, scriptPubkey⟩, UInt32.ofNat height, flag ≠ 0⟩

def coinFromBytes (data : Bytes) : Except Stop Coin := outcome coinFromCursor data

def txUndoTexts : SeqTexts where
  count := "failed to read tx undo coin count"
  length := "failed to read tx undo coin length"
  pastEnd := "tx undo coin data extends past end of buffer"
  entry := "failed to decode coin in tx undo"

def coinSize : ℕ := 40

def txUndoFromCursor : Decoder TxUndo := do
  let spentOutputs ← seqFromCursor txUndoTexts coinSize coinFromCursor
  return ⟨spentOutputs⟩

def txUndoFromBytes (data : Bytes) : Except Stop TxUndo := outcome txUndoFromCursor data

def blockUndoTexts : SeqTexts where
  count := "failed to read block undo tx count"
  length := "failed to read block undo entry length"
  pastEnd := "block undo entry extends past end of buffer"
  entry := "failed to decode tx undo in block undo"

def txUndoSize : ℕ := 24

def blockUndoFromCursor : Decoder BlockUndo := do
  let txUndos ← seqFromCursor blockUndoTexts txUndoSize txUndoFromCursor
  return ⟨txUndos⟩

def blockUndoFromBytes (data : Bytes) : Except Stop BlockUndo := outcome blockUndoFromCursor data

theorem agrees_coin : Agrees coinFromCursor Coin.fromCursor :=
  (agrees_readLe 4 _).bind fun _ => (agrees_readLe 1 _).bind fun _ => (agrees_readLe 8 _).bind fun _ =>
    (agrees_readLe 4 _).bind fun n =>
      ((agrees_readExact n _).bind fun _ => agrees_pure _).reserve_bind n n

theorem map_fst_readSeq {α β : Type} (decode : Bytes → Option α) (f : List α → β) (data : Bytes) :
    ((readSeq decode >>= fun l => (pure (f l) : Reader β)) data).map Prod.fst =
      (decodeSeq decode data).map f := by
  change ((readSeq decode data).bind fun p => some (f p.1, p.2)).map Prod.fst =
    ((readSeq decode data).map Prod.fst).map f
  cases readSeq decode data <;> rfl

theorem agrees_txUndo :
    Agrees txUndoFromCursor (readSeq Coin.fromBytes >>= fun l => pure (TxUndo.mk l)) :=
  (agrees_seq txUndoTexts coinSize agrees_coin).bind fun l => agrees_pure (TxUndo.mk l)

theorem agrees_blockUndo :
    Agrees blockUndoFromCursor (readSeq TxUndo.fromBytes >>= fun l => pure (BlockUndo.mk l)) := by
  have hentry := agrees_seq blockUndoTexts txUndoSize agrees_txUndo
  simp only [map_fst_readSeq] at hentry
  exact hentry.bind fun l => agrees_pure (BlockUndo.mk l)

variable {u : BlockUndo}

theorem blockUndoFromBytes_eq_ok {data : Bytes} :
    blockUndoFromBytes data = .ok u ↔ BlockUndo.fromBytes data = some u := by
  rw [blockUndoFromBytes, (agrees_blockUndo.outcome data).1 u, map_fst_readSeq]
  rfl

/-- Every count and every encoded length of the record can be written in 32 bits. -/
structure Recordable (u : BlockUndo) : Prop where
  txCount : u.txUndos.length < 2 ^ 32
  coinCounts : ∀ t ∈ u.txUndos, t.spentOutputs.length < 2 ^ 32
  txLengths : ∀ t ∈ u.txUndos, t.toBytes.length < 2 ^ 32
  coinLengths : ∀ t ∈ u.txUndos, ∀ c ∈ t.spentOutputs, c.toBytes.length < 2 ^ 32
  scriptLengths : ∀ t ∈ u.txUndos, ∀ c ∈ t.spentOutputs, c.txOut.scriptPubkey.length < 2 ^ 32

theorem Recordable.fromBytes_toBytes (h : Recordable u) :
    BlockUndo.fromBytes u.toBytes = some u := by
  have hpow : (2 : ℕ) ^ 32 = 256 ^ 4 := by norm_num
  have htx : ∀ t ∈ u.txUndos, TxUndo.fromBytes t.toBytes = some t := by
    intro t ht
    have hcoins := decodeSeq_encodeSeq_of_entries (hpow ▸ h.coinCounts t ht)
      (fun c hc => hpow ▸ h.coinLengths t ht c hc)
      (fun c hc => Coin.fromBytes_toBytes (hpow ▸ h.coinLengths t ht c hc))
    exact Option.map_eq_some_iff.mpr ⟨t.spentOutputs, hcoins, rfl⟩
  have hall := decodeSeq_encodeSeq_of_entries (hpow ▸ h.txCount)
    (fun t ht => hpow ▸ h.txLengths t ht) htx
  exact Option.map_eq_some_iff.mpr ⟨u.txUndos, hall, rfl⟩

/-- A record is read back as it was written, and no slice is out of range in any
of the decoders, whatever they are given. -/
theorem undo_roundTrip_inRange :
    (∀ u : BlockUndo, Recordable u → blockUndoFromBytes u.toBytes = .ok u) ∧
      ∀ data : Bytes, blockUndoFromBytes data ≠ .error .panic ∧
        txUndoFromBytes data ≠ .error .panic ∧ coinFromBytes data ≠ .error .panic := by
  refine ⟨fun u hu => blockUndoFromBytes_eq_ok.mpr hu.fromBytes_toBytes, fun data => ⟨?_, ?_, ?_⟩⟩
  · exact (agrees_blockUndo.outcome data).2
  · exact (agrees_txUndo.outcome data).2
  · exact (agrees_coin.outcome data).2

def sampleUndo : BlockUndo :=
  ⟨[⟨[]⟩, ⟨[⟨⟨-5, [0x51, 0x52]⟩, 7, true⟩, ⟨⟨9, []⟩, 8, false⟩]⟩]⟩

theorem sampleUndo_roundTrip :
    Recordable sampleUndo ∧ blockUndoFromBytes sampleUndo.toBytes = .ok sampleUndo := by
  have hrec : Recordable sampleUndo := ⟨by decide, by decide, by decide, by decide, by decide⟩
  exact ⟨hrec, undo_roundTrip_inRange.1 sampleUndo hrec⟩

/-- The capacities that decoding a record asks for. -/
def undoRequests (data : Bytes) : List Request := requestsOf blockUndoFromCursor data

def requestedBytes (data : Bytes) : ℕ := total (undoRequests data)

theorem spends_blockUndo : Spends 17 blockUndoFromCursor := by
  have hcoin : Spends 1 coinFromCursor :=
    .readLe_bind fun _ => .readLe_bind fun _ => .readLe_bind fun _ => .readLe_bind fun n =>
      ((spends_readExact n _ 0).map _).reserve_bind (one_mul n).symm
  have htx : Spends 11 txUndoFromCursor := (spends_seq txUndoTexts 10 hcoin).map _
  exact (spends_seq blockUndoTexts 6 htx).map _

theorem fills_blockUndo : Fills 4 blockUndoFromCursor := by
  have hcoin : Fills 17 coinFromCursor :=
    (fills_readLe 4 _).bind fun _ => (fills_readLe 1 _).bind fun _ => (fills_readLe 8 _).bind fun _ =>
      (fills_readLe 4 _).bind fun n =>
        (((fills_readExact n _).bind fun _ => fills_pure _).reserve_bind n le_rfl).mono (Nat.zero_le _)
  have htx : Fills 4 txUndoFromCursor :=
    (fills_seq txUndoTexts coinSize (hcoin.mono (Nat.zero_le _))).bind fun _ => fills_pure _
  exact (fills_seq blockUndoTexts txUndoSize (htx.mono (Nat.zero_le _))).bind fun _ => fills_pure _

theorem fits_of_decoded {data : Bytes} (h : blockUndoFromBytes data = .ok u) :
    Fits (undoRequests data) :=
  fills_blockUndo.fits h

/-- A coin's script length stands behind its height, flag and value. -/
def coinLayout (bytes : Bytes) : Layout :=
  if 17 ≤ bytes.length then
    let scriptLen := ofLeBytes ((bytes.drop 13).take 4)
    ⟨scriptLen, 17 + scriptLen ≤ bytes.length⟩
  else ⟨0, false⟩

/-- The bytes that a record announces: 24 for each transaction and 40 for each coin
of a count field, and the script lengths, up to the first entry that is cut short. -/
def recordLayout : Bytes → Layout := seqLayout txUndoSize (seqLayout coinSize coinLayout)

theorem follows_coin : Follows coinLayout coinFromCursor := by
  have hfields : Follows _ coinFromCursor :=
    .readLe_bind fun _ => .readLe_bind fun _ => .readLe_bind fun _ => .readLe_bind fun n =>
      ((follows_readExact n _).map _).reserve_bind n n
  refine (funext fun bytes => ?_ : coinLayout = _) ▸ hfields
  simp only [coinLayout, List.length_drop, List.drop_drop, add_zero, Nat.reduceAdd]
  by_cases hlen : 17 ≤ bytes.length
  · rw [if_pos hlen, if_pos (by omega), if_pos (by omega), if_pos (by omega), if_pos (by omega)]
    congr 2
    rw [eq_iff_iff]
    omega
  · rw [if_neg hlen]
    split_ifs <;> first | rfl | omega

theorem follows_blockUndo : Follows recordLayout blockUndoFromCursor :=
  (follows_seq blockUndoTexts txUndoSize
    ((follows_seq txUndoTexts coinSize follows_coin).map _)).map _

-- A record that is cut behind its first count may still announce little.
example : (recordLayout [1, 0, 0, 0]).whole = false ∧
    (recordLayout [1, 0, 0, 0]).announced = 24 := by decide

end Ironcat.UndoCursor
