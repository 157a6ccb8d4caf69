import Ironcat.Difficulty
import Ironcat.Lib.FiniteMap

/-!
# The header store

`HeaderStore` of `headers.rs`: the tree of headers by hash, the active chain,
the set of tips, the cached best tip and the invalidated tips, with the
database it writes through to. Loops that follow parent links are bounded by
the number of stored headers. The iteration order of the hash sets is left to
an `IterOrder` that each operation is given.
-/

namespace Ironcat.Headers

open Lib.ByteCodec Lib.Checked Lib.FiniteMap Types Difficulty

structure StoredHeader where
  header : BlockHeader
  height : ℕ
  chainwork : ℕ
deriving DecidableEq, Repr

def encodeEntry (s : StoredHeader) : Bytes :=
  s.header.toBytes ++ leBytes 4 s.height ++ leBytes 32 s.chainwork

/-- The two database tables, in the order they are scanned. -/
structure Backend where
  headers : AList (fun _ : Hash256 => Bytes)
  invalidTips : List Hash256

namespace Backend

def persistHeader (be : Backend) (hash : Hash256) (s : StoredHeader) : Backend :=
  { be with headers := be.headers.insert hash (encodeEntry s) }

def persistInvalidTip (be : Backend) (hash : Hash256) : Backend :=
  { be with invalidTips := if hash ∈ be.invalidTips then be.invalidTips else hash :: be.invalidTips }

end Backend

structure HeaderStore where
  byHash : Map Hash256 StoredHeader
  activeChain : List Hash256
  activeSet : Finset Hash256
  tips : List Hash256
  bestKnownTip : Hash256 × ℕ
  invalidTips : Finset Hash256
  backend : Option Backend
  params : ConsensusParams

inductive HeaderError
  | duplicate (hash : Hash256)
  | notTip (hash prevHash tip : Hash256)
  | orphan (hash prevHash : Hash256)
  | heightOverflow
  | difficulty (error : DifficultyError)
  | wrongBits (height : ℕ) (expected got : UInt32)
  | checkpointMismatch (height : ℕ) (expected got : Hash256)
  | badPow (height : ℕ)
  | brokenBatch (index : ℕ)
  | extendsInvalid
  | brokenChain
  | forkDepth
  | chainworkOverflow
  | tooManyEntries (count : ℕ)
  | badEntry (hash : Hash256)
deriving DecidableEq, Repr

def maxReorgDepth : ℕ := 1000

def maxForkHeaders : ℕ := 10000

def maxForkAge : ℕ := 1000

def insertTip (hash : Hash256) (tips : List Hash256) : List Hash256 :=
  if hash ∈ tips then tips else hash :: tips

def removeTip (hash : Hash256) (tips : List Hash256) : List Hash256 := tips.filter (· ≠ hash)

@[simp] theorem mem_insertTip {h x : Hash256} {tips : List Hash256} :
    x ∈ insertTip h tips ↔ x = h ∨ x ∈ tips := by
  unfold insertTip
  split_ifs with hmem
  · exact ⟨Or.inr, fun hx => hx.elim (fun heq => heq ▸ hmem) id⟩
  · exact List.mem_cons

@[simp] theorem mem_removeTip {h x : Hash256} {tips : List Hash256} :
    x ∈ removeTip h tips ↔ x ∈ tips ∧ x ≠ h := by
  simp [removeTip]

def nextHeight (height : ℕ) : Except HeaderError ℕ := do
  ensure (height + 1 < 2 ^ 32) .heightOverflow
  return height + 1

def addWork (parent : ℕ) (bits : UInt32) : Except HeaderError ℕ := do
  ensure (parent + workFromBits bits < 2 ^ 256) .chainworkOverflow
  return parent + workFromBits bits

def chainDown (byHash : Map Hash256 StoredHeader) : ℕ → Hash256 → Except HeaderError (List Hash256)
  | 0, _ => .error .brokenChain
  | fuel+1, current => do
    let stored ← okOr .brokenChain (byHash.lookup current)
    if stored.height = 0 then
      return [current]
    else do
      let rest ← chainDown byHash fuel stored.header.prevHash
      return current :: rest

namespace HeaderStore

section

variable (P : Primitives) (hs : HeaderStore)

def makeFresh (genesis : BlockHeader) (params : ConsensusParams) (backend : Option Backend) :
    HeaderStore where
  byHash := (∅ : Map Hash256 StoredHeader).insert (genesis.blockHash P)
    ⟨genesis, 0, workFromBits genesis.bits⟩
  activeChain := [genesis.blockHash P]
  activeSet := {genesis.blockHash P}
  tips := [genesis.blockHash P]
  bestKnownTip := (genesis.blockHash P, workFromBits genesis.bits)
  invalidTips := ∅
  backend := backend
  params := params

def get (hash : Hash256) : Option StoredHeader := hs.byHash.lookup hash

def height : ℕ := hs.activeChain.length - 1

def tip : Hash256 × ℕ := (hs.activeChain.getLastD 0, hs.height)

/-- `tip_bits`; the tip is always stored. -/
def tipBits : UInt32 :=
  ((hs.get hs.tip.1).map fun stored => stored.header.bits).getD 0

def genesis : Hash256 := hs.activeChain.headD 0

def hashAtHeight (height : ℕ) : Option Hash256 := hs.activeChain[height]?

def headerAt : ChainLookup := fun height => do
  let hash ← hs.activeChain[height]?
  let stored ← hs.get hash
  return (stored.header.timestamp, stored.header.bits)

def bestTip : Hash256 × ℕ × ℕ :=
  let (hash, chainwork) := hs.bestKnownTip
  (hash, ((hs.get hash).map StoredHeader.height).getD 0, chainwork)

def validateChainsToTip (hash : Hash256) (header : BlockHeader) (tip : Hash256 × ℕ) :
    Except HeaderError ℕ := do
  ensure (header.prevHash = tip.1)
    (if header.prevHash ∈ hs.byHash then .notTip hash header.prevHash tip.1
      else .orphan hash header.prevHash)
  nextHeight tip.2

def checkDifficulty (chain : ChainLookup) (header : BlockHeader) (height : ℕ) :
    Except HeaderError Unit := do
  let expected ← (getNextWorkRequired P hs.params height chain).mapError .difficulty
  ensure (header.bits = expected) (.wrongBits height expected header.bits)

def checkCheckpoint (hash : Hash256) (height : ℕ) : Except HeaderError Unit :=
  match hs.params.checkpointHashAt height with
  | some expected => ensure (hash = expected) (.checkpointMismatch height expected hash)
  | none => return ()

def checkPow (header : BlockHeader) (height : ℕ) : Except HeaderError Unit :=
  ensure (hs.params.lastCheckpointHeight < height → checkProofOfWork P header) (.badPow height)

def validatePowAndCheckpoint (hash : Hash256) (header : BlockHeader) (height : ℕ) :
    Except HeaderError Unit := do
  hs.checkCheckpoint hash height
  checkPow P hs header height

def persist (hash : Hash256) (s : StoredHeader) : HeaderStore :=
  { hs with backend := hs.backend.map fun be => be.persistHeader hash s }

def commitToMemory (hash : Hash256) (s : StoredHeader) : HeaderStore :=
  { hs with
    tips := insertTip hash (removeTip s.header.prevHash hs.tips)
    byHash := hs.byHash.insert hash s
    activeChain := hs.activeChain ++ [hash]
    activeSet := insert hash hs.activeSet
    bestKnownTip := if hs.bestKnownTip.2 < s.chainwork then (hash, s.chainwork) else hs.bestKnownTip }

def addHeader (header : BlockHeader) : Except HeaderError HeaderStore := do
  let hash := header.blockHash P
  ensure (hash ∉ hs.byHash) (.duplicate hash)
  let height ← hs.validateChainsToTip hash header hs.tip
  checkDifficulty P hs hs.headerAt header height
  validatePowAndCheckpoint P hs hash header height
  let parentWork := ((hs.get hs.tip.1).map StoredHeader.chainwork).getD 0
  let chainwork ← addWork parentWork header.bits
  let stored : StoredHeader := ⟨header, height, chainwork⟩
  return (hs.persist hash stored).commitToMemory hash stored

structure BatchState where
  validated : List (Hash256 × StoredHeader)
  shadowTip : Hash256 × ℕ

def batchLookup (pending : List (Hash256 × StoredHeader)) : ChainLookup :=
  fun height =>
    let overlay := do
      let first ← pending.head?
      if first.2.height ≤ height then
        let entry ← pending[height - first.2.height]?
        return (entry.2.header.timestamp, entry.2.header.bits)
      else
        none
    overlay.or (hs.headerAt height)

def batchParentWork (pending : List (Hash256 × StoredHeader)) (prevHash : Hash256) : ℕ :=
  match hs.get prevHash with
  | some stored => stored.chainwork
  | none => ((pending.reverse.find? fun e => e.1 = prevHash).map fun e => e.2.chainwork).getD 0

def validateStep (st : BatchState) (header : BlockHeader) : Except HeaderError BatchState :=
  let hash := header.blockHash P
  if hash ∈ hs.byHash then
    return st
  else do
    let height ← hs.validateChainsToTip hash header st.shadowTip
    checkDifficulty P hs (hs.batchLookup st.validated) header height
    hs.checkCheckpoint hash height
    let chainwork ← addWork (hs.batchParentWork st.validated header.prevHash) header.bits
    return ⟨st.validated ++ [(hash, ⟨header, height, chainwork⟩)], (hash, height)⟩

def checkContinuity (P : Primitives) : ℕ → List BlockHeader → Except HeaderError Unit
  | i, a :: b :: rest => do
    ensure (b.prevHash = a.blockHash P) (.brokenBatch (i + 1))
    checkContinuity P (i + 1) (b :: rest)
  | _, _ => return ()

def validateBatch (headers : List BlockHeader) :
    Except HeaderError (List (Hash256 × StoredHeader)) := do
  checkContinuity P 0 headers
  let st ← headers.foldlM (validateStep P hs) ⟨[], hs.tip⟩
  -- proof of work is checked in parallel; any failing header may be reported
  forM st.validated fun e => checkPow P hs e.2.header e.2.height
  return st.validated

def commitAll (batch : List (Hash256 × StoredHeader)) : HeaderStore :=
  batch.foldl (fun hs e => hs.commitToMemory e.1 e.2) hs

def persistBatch (batch : List (Hash256 × StoredHeader)) : HeaderStore :=
  batch.foldl (fun hs e => hs.persist e.1 e.2) hs

def addHeaders (headers : List BlockHeader) : Except HeaderError HeaderStore := do
  let batch ← validateBatch P hs headers
  return (hs.persistBatch batch).commitAll batch

def validateAndCommit (headers : List BlockHeader) :
    Except HeaderError (HeaderStore × List (Hash256 × StoredHeader)) := do
  let batch ← validateBatch P hs headers
  return (hs.commitAll batch, batch)

def fuel : ℕ := hs.byHash.keys.card + 1

/-- `ForkLookup::build`: the headers from `start` down to the active chain, by
height. -/
def forkHeaders (hs : HeaderStore) :
    ℕ → Hash256 → Map ℕ (UInt32 × UInt32) → Map ℕ (UInt32 × UInt32)
  | 0, _, acc => acc
  | fuel+1, current, acc =>
    match hs.get current with
    | none => acc
    | some stored =>
      if current ∈ hs.activeSet then acc
      else
        let acc := acc.insert stored.height (stored.header.timestamp, stored.header.bits)
        if stored.height = 0 then acc else forkHeaders hs fuel stored.header.prevHash acc

def forkLookup (start : Hash256) : ChainLookup :=
  let fork := hs.forkHeaders hs.fuel start ∅
  fun height => (fork.lookup height).or (hs.headerAt height)

inductive AcceptResult
  | accepted
  | needReorg
  | alreadyKnown
deriving DecidableEq, Repr

def insertHeader (hash : Hash256) (s : StoredHeader) : HeaderStore :=
  { hs with
    tips := insertTip hash (removeTip s.header.prevHash hs.tips)
    byHash := hs.byHash.insert hash s }

def acceptHeader (header : BlockHeader) : Except HeaderError (HeaderStore × AcceptResult) :=
  let hash := header.blockHash P
  if hash ∈ hs.byHash then
    return (hs, .alreadyKnown)
  else do
    ensure (header.prevHash ∉ hs.invalidTips) .extendsInvalid
    let parent ← okOr (.orphan hash header.prevHash) (hs.get header.prevHash)
    let height ← nextHeight parent.height
    let chainwork ← addWork parent.chainwork header.bits
    checkDifficulty P hs (hs.forkLookup header.prevHash) header height
    checkPow P hs header height
    let stored : StoredHeader := ⟨header, height, chainwork⟩
    let hs' := (hs.persist hash stored).insertHeader hash stored
    if hs.bestKnownTip.2 < chainwork then
      let hs' := { hs' with bestKnownTip := (hash, chainwork) }
      if hs.activeChain.getLast? ≠ some header.prevHash then
        return (hs', .needReorg)
      else
        return ({ hs' with
          activeChain := hs'.activeChain ++ [hash]
          activeSet := insert hash hs'.activeSet }, .accepted)
    else
      return (hs', .accepted)

def ancestor (hs : HeaderStore) : ℕ → Hash256 → Except HeaderError Hash256
  | 0, hash => return hash
  | n+1, hash => do
    let stored ← okOr .brokenChain (hs.get hash)
    ancestor hs n stored.header.prevHash

/-- The last loop of `find_fork_point`; its step limit is the argument. -/
def meet (hs : HeaderStore) : ℕ → Hash256 → Hash256 → Except HeaderError Hash256
  | 0, a, b => if a = b then return a else .error .forkDepth
  | n+1, a, b =>
    if a = b then return a
    else do
      let sa ← okOr .brokenChain (hs.get a)
      let sb ← okOr .brokenChain (hs.get b)
      meet hs n sa.header.prevHash sb.header.prevHash

def findForkPoint (hashA hashB : Hash256) : Except HeaderError Hash256 := do
  let sa ← okOr .brokenChain (hs.get hashA)
  let sb ← okOr .brokenChain (hs.get hashB)
  let a ← hs.ancestor (sa.height - sb.height) hashA
  let b ← hs.ancestor (sb.height - sa.height) hashB
  hs.meet (min sa.height sb.height + 1) a b

def pathDown (hs : HeaderStore) (last : Hash256) :
    ℕ → Hash256 → Except HeaderError (List (Hash256 × ℕ))
  | 0, _ => .error .brokenChain
  | fuel+1, current =>
    if current = last then return []
    else do
      let stored ← okOr .brokenChain (hs.get current)
      let rest ← pathDown hs last fuel stored.header.prevHash
      return (current, stored.height) :: rest

def getPath (source target : Hash256) : Except HeaderError (List (Hash256 × ℕ)) := do
  let path ← hs.pathDown source hs.fuel target
  return path.reverse

def descendsFrom (hs : HeaderStore) (anc : Hash256) : ℕ → Hash256 → Bool
  | 0, _ => false
  | fuel+1, current =>
    if current = anc then true
    else
      match hs.get current with
      | some stored =>
        if 0 < stored.height then descendsFrom hs anc fuel stored.header.prevHash else false
      | none => false

def betterTip (best : Hash256 × ℕ) (tip : Hash256) : Hash256 × ℕ :=
  match hs.get tip with
  | some stored => if best.2 < stored.chainwork then (tip, stored.chainwork) else best
  | none => best

def recomputeBestTip (ord : IterOrder) (hs : HeaderStore) : HeaderStore :=
  let activeTip := hs.activeChain.getLastD 0
  let activeWork := ((hs.get activeTip).map StoredHeader.chainwork).getD 0
  { hs with bestKnownTip := (ord.list hs.tips).foldl hs.betterTip (activeTip, activeWork) }

def switchActiveChain (ord : IterOrder) (hs : HeaderStore) (newTip : Hash256) :
    Except HeaderError HeaderStore := do
  let oldTip ← okOr .brokenChain hs.activeChain.getLast?
  let chain ← chainDown hs.byHash hs.fuel newTip
  let hs' := { hs with
    activeChain := chain.reverse
    activeSet := chain.toFinset
    tips := removeTip newTip (insertTip oldTip hs.tips) }
  return hs'.recomputeBestTip ord

def markInvalid (ord : IterOrder) (hs : HeaderStore) (hash : Hash256) : HeaderStore :=
  let tips := removeTip hash hs.tips
  let descendants := tips.filter fun tip => hs.descendsFrom hash hs.fuel tip
  let hs' := { hs with
    tips := tips.filter fun tip => tip ∉ descendants
    invalidTips := insert hash hs.invalidTips ∪ descendants.toFinset
    backend := hs.backend.map fun be : Backend =>
      descendants.foldl Backend.persistInvalidTip (be.persistInvalidTip hash) }
  hs'.recomputeBestTip ord

/-- The loop of `remove_fork`: deletes `current` and goes on to its parent
unless the parent is active or has another child. -/
def removeBranch (hs : HeaderStore) : ℕ → Hash256 → HeaderStore
  | 0, _ => hs
  | fuel+1, current =>
    if current ∈ hs.activeSet then hs
    else
      match hs.get current with
      | none => hs
      | some stored =>
        let prev := stored.header.prevHash
        let byHash := hs.byHash.erase current
        let hs' := { hs with byHash }
        if hasValue byHash fun s => s.header.prevHash = prev then hs'
        else removeBranch hs' fuel prev

def removeFork (tip : Hash256) : HeaderStore :=
  let hs' := { hs with tips := removeTip tip hs.tips }
  hs'.removeBranch hs'.fuel tip

def nonActiveCount : ℕ := hs.byHash.keys.card - hs.activeChain.length

end

/-- The count-based half of `purge_stale_forks`. -/
def purgeOldest : HeaderStore → List Hash256 → HeaderStore
  | hs, [] => hs
  | hs, tip :: rest =>
    if hs.nonActiveCount ≤ maxForkHeaders then hs else purgeOldest (hs.removeFork tip) rest

def isStale (hs : HeaderStore) (activeTipHeight : ℕ) (tip : Hash256) : Bool :=
  match hs.get tip with
  | some stored => maxForkAge < activeTipHeight - stored.height
  | none => false

def byHeight (hs : HeaderStore) (tips : List Hash256) : List Hash256 :=
  let known := tips.filterMap fun tip => (hs.get tip).map fun s => (tip, s.height)
  (known.insertionSort fun a b => a.2 ≤ b.2).map Prod.fst

def purgeStaleForks (ord : IterOrder) (hs : HeaderStore) (activeTipHeight : ℕ) : HeaderStore :=
  let stale := (ord.list hs.tips).filter (hs.isStale activeTipHeight)
  let hs := stale.foldl removeFork hs
  let hs :=
    if maxForkHeaders < hs.nonActiveCount then purgeOldest hs (hs.byHeight (ord.list hs.tips))
    else hs
  hs.recomputeBestTip ord

end HeaderStore

end Ironcat.Headers
