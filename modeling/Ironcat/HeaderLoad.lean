import Ironcat.BlockWire
import Ironcat.Headers

/-!
# Loading headers from the database

`try_load_from_backend` and `with_backend` of `headers.rs` over the tables of
`storage/header_store_redb.rs`. An entry read back is the entry written.
-/

namespace Ironcat.Headers

open Lib.ByteCodec Lib.ByteCodec.Reader Lib.Checked Lib.FiniteMap Types BlockWire Difficulty

def readEntry : Reader StoredHeader := do
  let header ← readHeader
  let height ← readLe 4
  let chainwork ← readLe 32
  return ⟨header, height, chainwork⟩

def decodeEntry (buf : Bytes) : Option StoredHeader := (readEntry buf).map Prod.fst

theorem decodeEntry_encodeEntry {s : StoredHeader}
    (hheight : s.height < 2 ^ 32) (hwork : s.chainwork < 2 ^ 256) :
    decodeEntry (encodeEntry s) = some s := by
  have hreads : Reads readEntry (encodeEntry s) s := by
    simp only [encodeEntry, List.append_assoc]
    refine (readHeader_reads s.header).bind ((reads_readLe (k := 4) (by simpa using hheight)).bind ?_)
    exact (reads_readLe (k := 32) (by simpa using hwork)).map _
  exact hreads.map_fst

def maxLoadableHeaders : ℕ := 10000000

def Backend.loadAll (be : Backend) : Except HeaderError (List (Hash256 × StoredHeader)) := do
  let len := be.headers.entries.length
  ensure (len ≤ maxLoadableHeaders) (.tooManyEntries len)
  be.headers.entries.mapM fun e => do
    let stored ← okOr (.badEntry e.1) (decodeEntry e.2)
    return (e.1, stored)

def Backend.clear (_ : Backend) : Backend := ⟨∅, []⟩

structure Loaded where
  byHash : Map Hash256 StoredHeader
  activeChain : List Hash256
  activeSet : Finset Hash256
  tips : List Hash256
  bestKnownTip : Hash256 × ℕ
  invalidTips : Finset Hash256

/-- `max_by_key`: the last entry of maximal chainwork. -/
def maxByChainwork (l : List (Hash256 × ℕ)) : Option (Hash256 × ℕ) :=
  l.foldl (fun best e =>
    match best with
    | none => some e
    | some b => if b.2 ≤ e.2 then some e else some b) none

def loadedTips (byHash : Map Hash256 StoredHeader) (invalidTips : Finset Hash256)
    (hashes : List Hash256) : List Hash256 :=
  hashes.filter fun h => !(hasValue byHash fun s => s.header.prevHash = h) && h ∉ invalidTips

def tryLoadFromBackend (ord : IterOrder) (be : Backend) (genesisHash : Hash256) :
    Except HeaderError (Option Loaded × Backend) := do
  let invalidTips := be.invalidTips.toFinset
  let raw ← be.loadAll
  if raw = [] then
    return (none, be)
  else
    let byHash := insertAll ∅ raw
    if genesisHash ∉ byHash then
      return (none, be.clear)
    else do
      let tips := loadedTips byHash invalidTips (raw.map Prod.fst)
      let works := (ord.list tips).filterMap fun t => (byHash.lookup t).map fun s => (t, s.chainwork)
      let bestKnownTip := (maxByChainwork works).getD (genesisHash, 0)
      let chain ← chainDown byHash (byHash.keys.card + 1) bestKnownTip.1
      let activeChain := chain.reverse
      if activeChain.zipIdx.all fun e =>
          (byHash.lookup e.1).map StoredHeader.height = some e.2 then
        return (some ⟨byHash, activeChain, activeChain.toFinset, tips, bestKnownTip, invalidTips⟩, be)
      else
        return (none, be.clear)

def HeaderStore.withBackend (P : Primitives) (ord : IterOrder) (genesis : BlockHeader)
    (params : ConsensusParams) : Option Backend → HeaderStore
  | none => makeFresh P genesis params none
  | some be =>
    match tryLoadFromBackend ord be (genesis.blockHash P) with
    | .ok (some l, be) =>
      ⟨l.byHash, l.activeChain, l.activeSet, l.tips, l.bestKnownTip, l.invalidTips, some be, params⟩
    | .ok (none, be) =>
      makeFresh P genesis params (some (be.persistHeader (genesis.blockHash P)
        ⟨genesis, 0, workFromBits genesis.bits⟩))
    | .error _ => makeFresh P genesis params none

end Ironcat.Headers
