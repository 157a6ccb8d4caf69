import Ironcat.Lib.Checked
import Ironcat.Types

/-!
# Compact targets and the difficulty rules

`difficulty/`: the compact encoding of targets, the work of a target and the
six retargeting rules, dispatched on the height of the parent. 256-bit
arithmetic that would overflow panics in the source and is an error here, as
is an index below zero.
-/

namespace Ironcat.Difficulty

open Lib.Checked Types

inductive DifficultyError
  | missingHeader (height : ℕ)
  | panic
deriving DecidableEq, Repr

def mulU256 (a b : ℕ) : Except DifficultyError ℕ :=
  if a * b < 2 ^ 256 then .ok (a * b) else .error .panic

def addU256 (a b : ℕ) : Except DifficultyError ℕ :=
  if a + b < 2 ^ 256 then .ok (a + b) else .error .panic

def subU32 (a b : ℕ) : Except DifficultyError ℕ :=
  if b ≤ a then .ok (a - b) else .error .panic

def bitsU256 (val : ℕ) : ℕ := if val = 0 then 0 else val.log2 + 1

/-- The target with its negative and overflow flags. The flags look at the
mantissa after it has been shifted for a size of at most three. -/
def compactToTarget (compact : UInt32) : ℕ × Bool × Bool :=
  let size := compact.toNat >>> 24
  let mantissa := compact.toNat &&& 0x007fffff
  let word := if size ≤ 3 then mantissa >>> (8 * (3 - size)) else mantissa
  let target := if size ≤ 3 then word else (word <<< (8 * (size - 3))) % 2 ^ 256
  let negative := word ≠ 0 ∧ compact.toNat &&& 0x00800000 ≠ 0
  let overflow := word ≠ 0 ∧
    (34 < size ∨ (0xff < word ∧ 33 < size) ∨ (0xffff < word ∧ 32 < size))
  (target, negative, overflow)

def targetToCompact (target : ℕ) : UInt32 :=
  let size := (bitsU256 target + 7) / 8
  let compact :=
    if size ≤ 3 then (target <<< (8 * (3 - size))) % 2 ^ 32
    else (target >>> (8 * (size - 3))) % 2 ^ 32
  let signed := compact &&& 0x00800000 ≠ 0
  let compact := if signed then compact >>> 8 else compact
  let size := if signed then size + 1 else size
  UInt32.ofNat ((compact &&& 0x007fffff) ||| (size <<< 24))

def workFromBits (compact : UInt32) : ℕ :=
  let (target, negative, overflow) := compactToTarget compact
  if negative ∨ overflow ∨ target = 0 then 0 else (2 ^ 256 - 1 - target) / (target + 1) + 1

def checkProofOfWork (P : Primitives) (header : BlockHeader) : Bool :=
  let (target, negative, overflow) := compactToTarget header.bits
  if negative ∨ overflow ∨ target = 0 then false else (P.scryptHash header.toBytes).toNat ≤ target

theorem workFromBits_lt (compact : UInt32) : workFromBits compact < 2 ^ 256 := by
  unfold workFromBits
  generalize compactToTarget compact = t
  obtain ⟨target, negative, overflow⟩ := t
  dsimp only
  split_ifs with h
  · decide
  · have hpos : target ≠ 0 := fun h0 => h (Or.inr (Or.inr h0))
    have hle : (2 ^ 256 - 1 - target) / (target + 1) ≤ (2 ^ 256 - 1) / 2 :=
      (Nat.div_le_div_right (Nat.sub_le _ _)).trans (Nat.div_le_div_left (by omega) (by decide))
    omega

/-- The consensus parameters with what the constructors of the source
guarantee about them: no divisor of the retargeting rules is zero. -/
structure ConsensusParams where
  powLimit : ℕ
  powTargetSpacing : ℤ
  powTargetTimespanV1 : ℤ
  powTargetTimespanV2 : ℤ
  lwmaAveragingWindow : ℤ
  cip01Height : ℕ
  cip02Height : ℕ
  cip03Height : ℕ
  cip04Height : ℕ
  cip05Height : ℕ
  checkpoints : List (ℕ × Hash256)
  spacing_pos : 0 < powTargetSpacing
  timespanV1_ge : powTargetSpacing ≤ powTargetTimespanV1
  timespanV2_ge : powTargetSpacing ≤ powTargetTimespanV2
  window_pos : 0 < lwmaAveragingWindow

namespace ConsensusParams

def mainnet : ConsensusParams where
  powLimit := 2 ^ 236 - 1
  powTargetSpacing := 600
  powTargetTimespanV1 := 1209600
  powTargetTimespanV2 := 21600
  lwmaAveragingWindow := 45
  cip01Height := 20289
  cip02Height := 21346
  cip03Height := 27260
  cip04Height := 46331
  cip05Height := 397000
  checkpoints := []
  spacing_pos := by decide
  timespanV1_ge := by decide
  timespanV2_ge := by decide
  window_pos := by decide

def testing : ConsensusParams := { mainnet with checkpoints := [(0xFFFFFFFF, 0)] }

def lastCheckpointHeight (params : ConsensusParams) : ℕ :=
  (params.checkpoints.getLast?.map Prod.fst).getD 0

def checkpointHashAt (params : ConsensusParams) (height : ℕ) : Option Hash256 :=
  (params.checkpoints.find? fun c => c.1 = height).map Prod.snd

def difficultyAdjustmentIntervalV1 (params : ConsensusParams) : ℤ :=
  params.powTargetTimespanV1.tdiv params.powTargetSpacing

def difficultyAdjustmentIntervalV2 (params : ConsensusParams) : ℤ :=
  params.powTargetTimespanV2.tdiv params.powTargetSpacing

end ConsensusParams

/-- The timestamp and the compact target of the block at a height. -/
abbrev ChainLookup := ℕ → Option (UInt32 × UInt32)

def lookupHeader (chain : ChainLookup) (height : ℕ) : Except DifficultyError (UInt32 × UInt32) :=
  okOr (.missingHeader height) (chain height)

def clamp (x lo hi : ℤ) : ℤ := max lo (min x hi)

def timespan (last first : UInt32) : ℤ := (last.toNat : ℤ) - (first.toNat : ℤ)

section

variable (params : ConsensusParams)

def scaleTarget (bits : UInt32) (actual target : ℤ) : Except DifficultyError UInt32 := do
  let old := (compactToTarget bits).1
  let needsShift : Bool := bitsU256 params.powLimit - 1 < bitsU256 old
  let product ← mulU256 (if needsShift then old / 2 else old) actual.toNat
  let scaled := product / target.toNat
  let new := if needsShift then (scaled * 2) % 2 ^ 256 else scaled
  return targetToCompact (min new params.powLimit)

def intervalRule (interval target : ℤ) (height : ℕ) (chain : ChainLookup) :
    Except DifficultyError UInt32 := do
  let parentHeight := height - 1
  let (parentTimestamp, parentBits) ← lookupHeader chain parentHeight
  if (height : ℤ) % interval ≠ 0 then
    return parentBits
  else do
    let blocksToGoBack := if (height : ℤ) = interval then interval - 1 else interval
    let firstHeight ← subU32 parentHeight blocksToGoBack.toNat
    let (firstTimestamp, _) ← lookupHeader chain firstHeight
    let actual := clamp (timespan parentTimestamp firstTimestamp) (target.tdiv 4) (target * 4)
    scaleTarget params parentBits actual target

def cip01 : ℕ → ChainLookup → Except DifficultyError UInt32 :=
  intervalRule params params.difficultyAdjustmentIntervalV1 params.powTargetTimespanV1

def cip02 : ℕ → ChainLookup → Except DifficultyError UInt32 :=
  intervalRule params params.difficultyAdjustmentIntervalV2 params.powTargetTimespanV2

def cip03 (height : ℕ) (chain : ChainLookup) : Except DifficultyError UInt32 := do
  let parentHeight := height - 1
  let (parentTimestamp, parentBits) ← lookupHeader chain parentHeight
  let firstHeight := parentHeight - params.difficultyAdjustmentIntervalV2.toNat
  let (firstTimestamp, _) ← lookupHeader chain firstHeight
  let target := params.powTargetTimespanV2
  let actual := clamp (timespan parentTimestamp firstTimestamp) ((target * 100).tdiv 112)
    ((target * 112).tdiv 100)
  scaleTarget params parentBits actual target

def minDifficultyCompact : UInt32 := 0x1e0fffff

def floorCompact (compact : UInt32) : UInt32 :=
  if minDifficultyCompact < compact then minDifficultyCompact else compact

def shrinkResult : ℕ → ℤ → ℤ
  | 0, result => result
  | fuel+1, result => if 8388607 < result then shrinkResult fuel (result.tdiv 2) else result

def cip04 (P : Primitives) (params : ConsensusParams) (height : ℕ) (chain : ChainLookup) :
    Except DifficultyError UInt32 := do
  let parentHeight := height - 1
  let (parentTimestamp, parentBits) ← lookupHeader chain parentHeight
  let firstHeight ← subU32 parentHeight 8
  let (firstTimestamp, _) ← lookupHeader chain firstHeight
  let avgTimespan := (timespan parentTimestamp firstTimestamp).tdiv 8
  let target := (compactToTarget parentBits).1
  let error := avgTimespan - params.powTargetSpacing
  if -10 < error ∧ error < 10 then
    return parentBits
  else do
    let result := shrinkResult 64 (P.pidResult error avgTimespan params.powTargetSpacing)
    let bitLen := bitsU256 target
    let adjustment := if 24 < bitLen then (result.natAbs <<< (bitLen - 24)) % 2 ^ 256
      else result.natAbs
    if 0 ≤ result then
      return floorCompact (targetToCompact (target - adjustment))
    else do
      let raised ← addU256 target adjustment
      return floorCompact (targetToCompact (min raised params.powLimit))

def cip05 (P : Primitives) (params : ConsensusParams) (height : ℕ) (chain : ChainLookup) :
    Except DifficultyError UInt32 := do
  let parentHeight := height - 1
  let (parentTimestamp, parentBits) ← lookupHeader chain parentHeight
  let seconds := parentTimestamp.toNat % 60
  if ¬ (seconds ≤ 14 ∨ (30 ≤ seconds ∧ seconds ≤ 44)) then
    cip04 P params height chain
  else do
    let prevHeight ← subU32 parentHeight 1
    let (prevTimestamp, _) ← lookupHeader chain prevHeight
    let spacing := params.powTargetSpacing
    let actual := clamp (timespan parentTimestamp prevTimestamp) (spacing - spacing.tdiv 4)
      (spacing + spacing.tdiv 2)
    let product ← mulU256 (compactToTarget parentBits).1 actual.toNat
    return floorCompact (targetToCompact (min (product / spacing.toNat) params.powLimit))

structure LwmaState where
  previousTimestamp : ℤ
  sumWeightedSolvetimes : ℤ
  avgTarget : ℕ
  j : ℤ

def lwmaStep (chain : ChainLookup) (k : ℤ) (st : LwmaState) (h : ℕ) :
    Except DifficultyError LwmaState := do
  let (blockTimestamp, blockBits) ← lookupHeader chain h
  let blockTime : ℤ := blockTimestamp.toNat
  let thisTimestamp :=
    if st.previousTimestamp < blockTime then blockTime else st.previousTimestamp + 1
  let solvetime := min (thisTimestamp - st.previousTimestamp) (6 * params.powTargetSpacing)
  let share := (compactToTarget blockBits).1 / (params.lwmaAveragingWindow * k).toNat
  let avgTarget ← addU256 st.avgTarget share
  return ⟨thisTimestamp, st.sumWeightedSolvetimes + solvetime * (st.j + 1), avgTarget, st.j + 1⟩

def cip06 (height : ℕ) (chain : ChainLookup) : Except DifficultyError UInt32 :=
  let parentHeight := height - 1
  let n := params.lwmaAveragingWindow
  let k := (n * (n + 1) * params.powTargetSpacing).tdiv 2
  if (parentHeight : ℤ) < n then
    return targetToCompact params.powLimit
  else do
    let anchorHeight := parentHeight - n.toNat
    let (anchorTimestamp, _) ← lookupHeader chain anchorHeight
    let window := List.range' (anchorHeight + 1) n.toNat
    let st ← window.foldlM (lwmaStep params chain k) ⟨anchorTimestamp.toNat, 0, 0, 0⟩
    let next ← mulU256 st.avgTarget st.sumWeightedSolvetimes.toNat
    return targetToCompact (min next params.powLimit)

end

def getNextWorkRequired (P : Primitives) (params : ConsensusParams) (height : ℕ)
    (chain : ChainLookup) : Except DifficultyError UInt32 :=
  let parentHeight := height - 1
  if height = 0 then return targetToCompact params.powLimit
  else if parentHeight < params.cip01Height then cip01 params height chain
  else if parentHeight = params.cip01Height then return 0x1c0ffff0
  else if parentHeight < params.cip02Height then cip02 params height chain
  else if parentHeight < params.cip03Height then cip03 params height chain
  else if parentHeight < params.cip04Height then cip04 P params height chain
  else if parentHeight < params.cip05Height then cip05 P params height chain
  else cip06 params height chain

example : targetToCompact (compactToTarget 0x1e0ffff0).1 = 0x1e0ffff0 := by decide

section Congr

variable {params : ConsensusParams} {height : ℕ} {chain chain' : ChainLookup}

theorem lookupHeader_congr (h : ∀ k < height, chain k = chain' k) {k : ℕ} (hk : k < height) :
    lookupHeader chain k = lookupHeader chain' k := by
  rw [lookupHeader, lookupHeader, h k hk]

theorem subU32_eq_ok {a b n : ℕ} : subU32 a b = .ok n ↔ b ≤ a ∧ n = a - b := by
  unfold subU32
  split_ifs with hle <;> simp [hle, eq_comm]

theorem intervalRule_congr (interval target : ℤ) (hpos : 0 < height)
    (h : ∀ k < height, chain k = chain' k) :
    intervalRule params interval target height chain =
      intervalRule params interval target height chain' := by
  unfold intervalRule
  dsimp only
  rw [lookupHeader_congr h (by omega : height - 1 < height)]
  refine bind_congr_of_ok fun parent _ => ?_
  split_ifs
  · rfl
  all_goals
    refine bind_congr_of_ok fun first hfirst => ?_
    obtain ⟨_, rfl⟩ := subU32_eq_ok.mp hfirst
    rw [lookupHeader_congr h (by omega)]

theorem cip03_congr (hpos : 0 < height) (h : ∀ k < height, chain k = chain' k) :
    cip03 params height chain = cip03 params height chain' := by
  unfold cip03
  dsimp only
  rw [lookupHeader_congr h (by omega : height - 1 < height)]
  refine bind_congr_of_ok fun parent _ => ?_
  rw [lookupHeader_congr h (by omega)]

theorem cip04_congr (P : Primitives) (hpos : 0 < height) (h : ∀ k < height, chain k = chain' k) :
    cip04 P params height chain = cip04 P params height chain' := by
  unfold cip04
  dsimp only
  rw [lookupHeader_congr h (by omega : height - 1 < height)]
  refine bind_congr_of_ok fun parent _ => bind_congr_of_ok fun first hfirst => ?_
  obtain ⟨_, rfl⟩ := subU32_eq_ok.mp hfirst
  rw [lookupHeader_congr h (by omega)]

theorem cip05_congr (P : Primitives) (hpos : 0 < height) (h : ∀ k < height, chain k = chain' k) :
    cip05 P params height chain = cip05 P params height chain' := by
  unfold cip05
  dsimp only
  rw [lookupHeader_congr h (by omega : height - 1 < height), cip04_congr P hpos h]
  refine bind_congr_of_ok fun parent _ => ?_
  split_ifs
  · refine bind_congr_of_ok fun prev hprev => ?_
    obtain ⟨_, rfl⟩ := subU32_eq_ok.mp hprev
    rw [lookupHeader_congr h (by omega)]
  · rfl

theorem cip06_congr (hpos : 0 < height) (h : ∀ k < height, chain k = chain' k) :
    cip06 params height chain = cip06 params height chain' := by
  have hwindow := params.window_pos
  unfold cip06
  dsimp only
  split_ifs with hshort
  · rfl
  · rw [lookupHeader_congr h (by omega)]
    refine bind_congr_of_ok fun anchor _ => ?_
    -- the window ends at the parent
    rw [foldlM_congr fun k hk st => ?_]
    have hk := List.mem_range'_1.mp hk
    unfold lwmaStep
    rw [lookupHeader_congr h (by omega)]

theorem getNextWorkRequired_congr (P : Primitives) (h : ∀ k < height, chain k = chain' k) :
    getNextWorkRequired P params height chain = getNextWorkRequired P params height chain' := by
  unfold getNextWorkRequired cip01 cip02
  dsimp only
  split_ifs with hzero
  case neg => exact cip06_congr (Nat.pos_of_ne_zero hzero) h
  all_goals first
    | rfl
    | exact intervalRule_congr _ _ (Nat.pos_of_ne_zero hzero) h
    | exact cip03_congr (Nat.pos_of_ne_zero hzero) h
    | exact cip04_congr P (Nat.pos_of_ne_zero hzero) h
    | exact cip05_congr P (Nat.pos_of_ne_zero hzero) h

end Congr

end Ironcat.Difficulty
