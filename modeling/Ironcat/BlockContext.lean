import Ironcat.BlockWire
import Ironcat.Difficulty
import Ironcat.Validation

/-!
# Merkle roots and checks against the chain

`Block::from_bytes_and_validate` of `types/block.rs` and the checks of
`validation/mod.rs` that look at the headers below a block. An index that
`check_block` has made safe is read with a default.
-/

namespace Ironcat.BlockContext

open Lib.ByteCodec Lib.Checked Types Difficulty Validation BlockWire

def hasEqualPair : List Hash256 → Bool
  | a :: b :: level => a = b || hasEqualPair level
  | _ => false

def nextLevel (P : Primitives) : List Hash256 → List Hash256
  | a :: b :: level => P.doubleSha256 (a.asBytes ++ b.asBytes) :: nextLevel P level
  | [a] => [P.doubleSha256 (a.asBytes ++ a.asBytes)]
  | [] => []

def merkleLevels (P : Primitives) : ℕ → List Hash256 → Bool → Hash256 × Bool
  | 0, level, mutated => (level.headD 0, mutated)
  | fuel+1, level, mutated =>
    if level.length ≤ 1 then (level.headD 0, mutated)
    else merkleLevels P fuel (nextLevel P level) (mutated || hasEqualPair level)

def computeMerkleRoot (P : Primitives) (txids : List Hash256) : Hash256 × Bool :=
  merkleLevels P txids.length txids false

theorem length_nextLevel (P : Primitives) :
    ∀ level, (nextLevel P level).length = (level.length + 1) / 2
  | [] => rfl
  | [_] => by simp [nextLevel]
  | _ :: _ :: level => by
    simp only [nextLevel, List.length_cons, length_nextLevel P level]
    omega

inductive ParseError
  | malformed
  | noTransactions
  | duplicateTransaction
  | merkleMismatch (expected computed : Hash256)
deriving DecidableEq, Repr

def fromBytesAndValidate (P : Primitives) (bytes : Bytes) : Except ParseError Block := do
  let block ← okOr .malformed (fromBytes bytes)
  ensure (block.transactions ≠ []) .noTransactions
  let (computed, mutated) := computeMerkleRoot P (block.transactions.map (Transaction.txid P))
  ensure (mutated = false) .duplicateTransaction
  ensure (computed = block.header.merkleRoot) (.merkleMismatch block.header.merkleRoot computed)
  return block

theorem fromBytes_of_validate {P : Primitives} {bytes : Bytes} {block : Block}
    (h : fromBytesAndValidate P bytes = .ok block) : fromBytes bytes = some block := by
  obtain ⟨b, hparse, h⟩ := bind_eq_ok.mp h
  obtain ⟨_, -, h⟩ := bind_eq_ok.mp h
  obtain ⟨_, -, h⟩ := bind_eq_ok.mp h
  obtain ⟨_, -, h⟩ := bind_eq_ok.mp h
  rw [okOr_eq_ok.mp hparse, pure_eq_ok.mp h]

def bip34Height : ℕ := 111

def maxFutureBlockTime : ℕ := 150

def medianTimeSpan : ℕ := 11

def computeMedianTimePast (chain : ChainLookup) (height : ℕ) : Option UInt32 := do
  let start := height - (medianTimeSpan - 1)
  let timestamps ← (List.range' start (height + 1 - start)).mapM fun h => (chain h).map Prod.fst
  (timestamps.insertionSort (· ≤ ·))[timestamps.length / 2]?

inductive ContextError
  | timeTooOld (timestamp mtp : UInt32)
  | timeTooNew (timestamp : UInt32) (maxTime : ℕ)
  | versionTooLow (version : Int32) (height : UInt32)
  | scriptTooShort
  | heightMismatch (expected : UInt32)
  | coinbaseExceeds (total cap : ℤ)
deriving DecidableEq, Repr

def minimalBytes : ℕ → ℕ → Bytes
  | 0, _ => []
  | fuel+1, val => if val = 0 then [] else UInt8.ofNat val :: minimalBytes fuel (val / 256)

theorem length_minimalBytes (fuel n : ℕ) : (minimalBytes fuel n).length ≤ fuel := by
  induction fuel generalizing n with
  | zero => rfl
  | succ fuel ih =>
    rw [minimalBytes]
    split_ifs with hn
    · exact Nat.zero_le _
    · exact Nat.succ_le_succ (ih (n / 256))

theorem ofLeBytes_minimalBytes {fuel n : ℕ} (h : n < 256 ^ fuel) :
    ofLeBytes (minimalBytes fuel n) = n := by
  induction fuel generalizing n with
  | zero =>
    obtain rfl : n = 0 := by simpa using h
    rfl
  | succ fuel ih =>
    rw [minimalBytes]
    split_ifs with hn
    · exact hn.symm
    · have hdiv : n / 256 < 256 ^ fuel := by
        rw [Nat.div_lt_iff_lt_mul (by norm_num), ← pow_succ]
        exact h
      rw [ofLeBytes, ih hdiv, UInt8.toNat_ofNat']
      omega

def encodeScriptHeight (height : UInt32) : Bytes :=
  if height = 0 then [0x00]
  else if height ≤ 16 then [UInt8.ofNat (0x50 + height.toNat)]
  else
    let data := minimalBytes 4 height.toNat
    let data := if data.getLast?.any (fun last => last &&& 0x80 ≠ 0) then data ++ [0x00] else data
    UInt8.ofNat data.length :: data

def checkBip34Height (coinbase : Transaction) (expectedHeight : UInt32) :
    Except ContextError Unit := do
  let script := (coinbase.vin.map TxIn.scriptSig).headD []
  let expected := encodeScriptHeight expectedHeight
  ensure (expected.length ≤ script.length) .scriptTooShort
  ensure (script.take expected.length = expected) (.heightMismatch expectedHeight)

def checkBlockContext (block : Block) (height medianTimePast adjustedTime : UInt32) :
    Except ContextError Unit := do
  let timestamp := block.header.timestamp
  ensure (medianTimePast < timestamp) (.timeTooOld timestamp medianTimePast)
  let maxTime := adjustedTime.toNat + maxFutureBlockTime
  ensure (timestamp.toNat ≤ maxTime) (.timeTooNew timestamp maxTime)
  ensure (bip34Height ≤ height.toNat → 2 ≤ block.header.version)
    (.versionTooLow block.header.version height)
  if bip34Height ≤ height.toNat then
    (block.transactions.head?).forM fun coinbase => checkBip34Height coinbase height
  let coinbaseTotal := ((block.transactions.head?.map outputValues).bind checkedSum).getD i64Max
  let sanityCap := min (getBlockSubsidy height + maxMoney) i64Max
  ensure (coinbaseTotal ≤ sanityCap) (.coinbaseExceeds coinbaseTotal sanityCap)

end Ironcat.BlockContext
