import Ironcat.CompactTarget

/-!
# The range of the retargeting arithmetic

The rules of `difficulty/` once more, with a panic wherever an `i64` leaves its
range, and their formulas over the unbounded numbers. On mainnet the two agree
but for one product: the window of CIP01 is so long that an easy target times
four times the timespan does not fit 256 bits, halved or not.
-/

namespace Ironcat.RetargetBounds

open Lib.Checked Types Difficulty CompactTarget

def i64 (x : ℤ) : Except DifficultyError ℤ :=
  if i64Min ≤ x ∧ x ≤ i64Max then .ok x else .error .panic

theorem i64_eq_ok {x : ℤ} (h : i64Min ≤ x ∧ x ≤ i64Max) : i64 x = .ok x := if_pos h

def checkedInterval (params : ConsensusParams) (interval target : ℤ) (height : ℕ)
    (chain : ChainLookup) : Except DifficultyError UInt32 := do
  let parentHeight ← subU32 height 1
  let (parentTimestamp, parentBits) ← lookupHeader chain parentHeight
  if (height : ℤ) % interval ≠ 0 then
    return parentBits
  else do
    let blocksToGoBack ← if (height : ℤ) = interval then i64 (interval - 1) else pure interval
    let firstHeight ← subU32 parentHeight blocksToGoBack.toNat
    let (firstTimestamp, _) ← lookupHeader chain firstHeight
    let actual ← i64 (timespan parentTimestamp firstTimestamp)
    let maxTimespan ← i64 (target * 4)
    scaleTarget params parentBits (clamp actual (target.tdiv 4) maxTimespan) target

section

variable (params : ConsensusParams) (height : ℕ) (chain : ChainLookup)

def checkedCip03 : Except DifficultyError UInt32 := do
  let parentHeight ← subU32 height 1
  let (parentTimestamp, parentBits) ← lookupHeader chain parentHeight
  let firstHeight := parentHeight - params.difficultyAdjustmentIntervalV2.toNat
  let (firstTimestamp, _) ← lookupHeader chain firstHeight
  let actual ← i64 (timespan parentTimestamp firstTimestamp)
  let low ← i64 (params.powTargetTimespanV2 * 100)
  let high ← i64 (params.powTargetTimespanV2 * 112)
  scaleTarget params parentBits (clamp actual (low.tdiv 112) (high.tdiv 100))
    params.powTargetTimespanV2

def checkedCip05 (P : Primitives) (params : ConsensusParams) (height : ℕ) (chain : ChainLookup) :
    Except DifficultyError UInt32 := do
  let parentHeight ← subU32 height 1
  let (parentTimestamp, parentBits) ← lookupHeader chain parentHeight
  let seconds := parentTimestamp.toNat % 60
  if ¬ (seconds ≤ 14 ∨ (30 ≤ seconds ∧ seconds ≤ 44)) then
    cip04 P params height chain
  else do
    let prevHeight ← subU32 parentHeight 1
    let (prevTimestamp, _) ← lookupHeader chain prevHeight
    let actual ← i64 (timespan parentTimestamp prevTimestamp)
    let spacing := params.powTargetSpacing
    let minTimespan ← i64 (spacing - spacing.tdiv 4)
    let maxTimespan ← i64 (spacing + spacing.tdiv 2)
    let product ← mulU256 (compactToTarget parentBits).1 (clamp actual minTimespan maxTimespan).toNat
    return floorCompact (targetToCompact (min (product / spacing.toNat) params.powLimit))

def checkedTimestamp (previous blockTime : ℤ) : Except DifficultyError ℤ :=
  if previous < blockTime then .ok blockTime else i64 (previous + 1)

def checkedLwmaStep (k : ℤ) (st : LwmaState) (h : ℕ) : Except DifficultyError LwmaState := do
  let (blockTimestamp, blockBits) ← lookupHeader chain h
  let blockTime : ℤ := blockTimestamp.toNat
  let thisTimestamp ← checkedTimestamp st.previousTimestamp blockTime
  let elapsed ← i64 (thisTimestamp - st.previousTimestamp)
  let cap ← i64 (6 * params.powTargetSpacing)
  let j ← i64 (st.j + 1)
  let weighted ← i64 (min elapsed cap * j)
  let sum ← i64 (st.sumWeightedSolvetimes + weighted)
  let divisor ← i64 (params.lwmaAveragingWindow * k)
  let avgTarget ← addU256 st.avgTarget ((compactToTarget blockBits).1 / divisor.toNat)
  return ⟨thisTimestamp, sum, avgTarget, j⟩

def checkedCip06 : Except DifficultyError UInt32 := do
  let parentHeight ← subU32 height 1
  let n := params.lwmaAveragingWindow
  let next ← i64 (n + 1)
  let weights ← i64 (n * next)
  let doubled ← i64 (weights * params.powTargetSpacing)
  let k := doubled.tdiv 2
  if (parentHeight : ℤ) < n then
    return targetToCompact params.powLimit
  else do
    let anchorHeight ← subU32 parentHeight n.toNat
    let (anchorTimestamp, _) ← lookupHeader chain anchorHeight
    let window := List.range' (anchorHeight + 1) n.toNat
    let st ← window.foldlM (checkedLwmaStep params chain k) ⟨anchorTimestamp.toNat, 0, 0, 0⟩
    let next ← mulU256 st.avgTarget st.sumWeightedSolvetimes.toNat
    return targetToCompact (min next params.powLimit)

end

/-- `get_next_work_required` over the checked rules. The controller of CIP04 is
left as it is. -/
def checkedNextWork (P : Primitives) (params : ConsensusParams) (height : ℕ)
    (chain : ChainLookup) : Except DifficultyError UInt32 :=
  let parentHeight := height - 1
  if height = 0 then return targetToCompact params.powLimit
  else if parentHeight < params.cip01Height then
    checkedInterval params params.difficultyAdjustmentIntervalV1 params.powTargetTimespanV1 height
      chain
  else if parentHeight = params.cip01Height then return 0x1c0ffff0
  else if parentHeight < params.cip02Height then
    checkedInterval params params.difficultyAdjustmentIntervalV2 params.powTargetTimespanV2 height
      chain
  else if parentHeight < params.cip03Height then checkedCip03 params height chain
  else if parentHeight < params.cip04Height then cip04 P params height chain
  else if parentHeight < params.cip05Height then checkedCip05 P params height chain
  else checkedCip06 params height chain

theorem timespan_range (last first : UInt32) :
    i64Min ≤ timespan last first ∧ timespan last first ≤ i64Max := by
  have hlast := last.toNat_lt
  have hfirst := first.toNat_lt
  unfold timespan i64Min i64Max
  omega

theorem subU32_one {height : ℕ} (hpos : 0 < height) : subU32 height 1 = .ok (height - 1) :=
  if_pos hpos

variable {interval target : ℤ}

section Range

variable {P : Primitives} {params : ConsensusParams} {height : ℕ} {chain : ChainLookup}

theorem checkedInterval_eq (hpos : 0 < height)
    (hinterval : i64Min ≤ interval - 1 ∧ interval - 1 ≤ i64Max)
    (htarget : i64Min ≤ target * 4 ∧ target * 4 ≤ i64Max) :
    checkedInterval params interval target height chain =
      intervalRule params interval target height chain := by
  simp only [checkedInterval, intervalRule, subU32_one hpos, ok_bind, i64_eq_ok hinterval,
    i64_eq_ok htarget, i64_eq_ok (timespan_range _ _)]
  by_cases hfirst : (height : ℤ) = interval
  · simp only [hfirst, if_true]
  · simp only [hfirst, if_false, pure_bind]

theorem checkedCip03_eq (hpos : 0 < height)
    (hlow : i64Min ≤ params.powTargetTimespanV2 * 100 ∧ params.powTargetTimespanV2 * 100 ≤ i64Max)
    (hhigh : i64Min ≤ params.powTargetTimespanV2 * 112 ∧
      params.powTargetTimespanV2 * 112 ≤ i64Max) :
    checkedCip03 params height chain = cip03 params height chain := by
  simp only [checkedCip03, cip03, subU32_one hpos, ok_bind, i64_eq_ok hlow, i64_eq_ok hhigh,
    i64_eq_ok (timespan_range _ _)]

theorem checkedCip05_eq (hpos : 0 < height)
    (hmin : i64Min ≤ params.powTargetSpacing - params.powTargetSpacing.tdiv 4 ∧
      params.powTargetSpacing - params.powTargetSpacing.tdiv 4 ≤ i64Max)
    (hmax : i64Min ≤ params.powTargetSpacing + params.powTargetSpacing.tdiv 2 ∧
      params.powTargetSpacing + params.powTargetSpacing.tdiv 2 ≤ i64Max) :
    checkedCip05 P params height chain = cip05 P params height chain := by
  simp only [checkedCip05, cip05, subU32_one hpos, ok_bind, i64_eq_ok hmin, i64_eq_ok hmax,
    i64_eq_ok (timespan_range _ _)]

end Range

abbrev mainnet : ConsensusParams := ConsensusParams.mainnet

def lwmaNorm : ℤ := 621000

structure LwmaRange (turns : ℕ) (st : LwmaState) : Prop where
  j_eq : st.j = turns
  timestamp_nonneg : 0 ≤ st.previousTimestamp
  timestamp_le : st.previousTimestamp ≤ 2 ^ 32 + turns
  sum_nonneg : 0 ≤ st.sumWeightedSolvetimes
  sum_le : st.sumWeightedSolvetimes ≤ turns * (3600 * 45)

section LwmaRange

variable {turns h : ℕ} {st : LwmaState} {chain : ChainLookup}

theorem LwmaRange.timestamp (hst : LwmaRange turns st) (t : UInt32) :
    ∃ this, (if st.previousTimestamp < (t.toNat : ℤ) then (t.toNat : ℤ)
      else st.previousTimestamp + 1) = this ∧ st.previousTimestamp < this ∧
      this ≤ 2 ^ 32 + (turns + 1) := by
  have ht := t.toNat_lt
  have htime := hst.timestamp_le
  refine ⟨_, rfl, ?_⟩
  split_ifs <;> omega

theorem LwmaRange.weighted (hst : LwmaRange turns st) (hturns : turns < 45) {this : ℤ}
    (hlt : st.previousTimestamp < this) :
    0 ≤ min (this - st.previousTimestamp) 3600 * (st.j + 1) ∧
      min (this - st.previousTimestamp) 3600 * (st.j + 1) ≤ 3600 * 45 := by
  have hj := hst.j_eq
  have hpos : 0 ≤ min (this - st.previousTimestamp) 3600 := by omega
  have hle : min (this - st.previousTimestamp) 3600 ≤ 3600 := min_le_right _ _
  exact ⟨mul_nonneg hpos (by omega), mul_le_mul hle (by omega) (by omega) (by omega)⟩

theorem LwmaRange.checked (hst : LwmaRange turns st) (hturns : turns < 45) :
    checkedLwmaStep mainnet chain lwmaNorm st h = lwmaStep mainnet chain lwmaNorm st h := by
  have hmin : i64Min = -2 ^ 63 := rfl
  have hmax : i64Max = 2 ^ 63 - 1 := rfl
  have hcap : 6 * mainnet.powTargetSpacing = 3600 := rfl
  have hdivisor : mainnet.lwmaAveragingWindow * lwmaNorm = 27945000 := rfl
  simp only [checkedLwmaStep, lwmaStep, hcap, hdivisor]
  refine bind_congr_of_ok fun p _ => ?_
  obtain ⟨this, hthis, hlt, hle⟩ := hst.timestamp p.1
  obtain ⟨hw, hw'⟩ := hst.weighted hturns hlt
  obtain ⟨hj, htime, htime', hsum, hsum'⟩ := hst
  have hchecked : checkedTimestamp st.previousTimestamp p.1.toNat = .ok this := by
    rw [← hthis, checkedTimestamp]
    split_ifs
    · rfl
    · exact i64_eq_ok (by omega)
  have helapsed : i64 (this - st.previousTimestamp) = .ok (this - st.previousTimestamp) :=
    i64_eq_ok (by omega)
  have hnext : i64 (st.j + 1) = .ok (st.j + 1) := i64_eq_ok (by omega)
  rw [hchecked, ok_bind, helapsed, ok_bind, i64_eq_ok (by omega), ok_bind, hnext, ok_bind,
    i64_eq_ok (by omega), ok_bind, i64_eq_ok (by omega), ok_bind, i64_eq_ok (by omega), ok_bind,
    hthis]

theorem LwmaRange.next (hst : LwmaRange turns st) (hturns : turns < 45) {st' : LwmaState}
    (hstep : lwmaStep mainnet chain lwmaNorm st h = .ok st') : LwmaRange (turns + 1) st' := by
  have hcap : 6 * mainnet.powTargetSpacing = 3600 := rfl
  simp only [lwmaStep, bind_eq_ok, pure_eq_ok, hcap] at hstep
  obtain ⟨p, _, avg, _, rfl⟩ := hstep
  obtain ⟨this, hthis, hlt, hle⟩ := hst.timestamp p.1
  obtain ⟨hw, hw'⟩ := hst.weighted hturns hlt
  obtain ⟨hj, htime, htime', hsum, hsum'⟩ := hst
  simp only [hthis]
  constructor <;> push_cast <;> omega

end LwmaRange

theorem checkedCip06_eq {height : ℕ} {chain : ChainLookup} (hpos : 0 < height) :
    checkedCip06 mainnet height chain = cip06 mainnet height chain := by
  have hk : (mainnet.lwmaAveragingWindow * (mainnet.lwmaAveragingWindow + 1) *
      mainnet.powTargetSpacing).tdiv 2 = lwmaNorm := rfl
  have hrange : ∀ x : ℤ, 0 ≤ x → x ≤ 2000000 → i64 x = .ok x := by
    intro x hx hx'
    exact i64_eq_ok (by unfold i64Min i64Max; omega)
  simp only [checkedCip06, cip06, subU32_one hpos, ok_bind, hk,
    hrange (mainnet.lwmaAveragingWindow + 1) (by decide) (by decide),
    hrange (mainnet.lwmaAveragingWindow * (mainnet.lwmaAveragingWindow + 1)) (by decide) (by decide),
    hrange (mainnet.lwmaAveragingWindow * (mainnet.lwmaAveragingWindow + 1) *
      mainnet.powTargetSpacing) (by decide) (by decide)]
  split_ifs with hshort
  · rfl
  · have hanchor : subU32 (height - 1) mainnet.lwmaAveragingWindow.toNat =
        .ok (height - 1 - mainnet.lwmaAveragingWindow.toNat) := if_pos (by
      have hwindow : mainnet.lwmaAveragingWindow = 45 := rfl
      omega)
    rw [hanchor, ok_bind]
    refine bind_congr_of_ok fun anchor _ => ?_
    have htime := anchor.1.toNat_lt
    have hfold := (foldlM_congr_of_invariant (k := 0) LwmaRange (l := List.range'
      (height - 1 - mainnet.lwmaAveragingWindow.toNat + 1) mainnet.lwmaAveragingWindow.toNat)
      (b := ⟨anchor.1.toNat, 0, 0, 0⟩) (f := checkedLwmaStep mainnet chain lwmaNorm)
      (g := lwmaStep mainnet chain lwmaNorm) ⟨rfl, by simp, by simp; omega, le_rfl, by simp⟩
      fun h _ turns st hturns hst => by
        rw [List.length_range', Nat.zero_add] at hturns
        exact ⟨hst.checked hturns, fun st' hstep => hst.next hturns hstep⟩).1
    rw [hfold]

section

variable (params : ConsensusParams) (bits : UInt32)

def shiftedTarget : ℕ :=
  let old := (compactToTarget bits).1
  if bitsU256 params.powLimit - 1 < bitsU256 old then old / 2 else old

def exactTarget (actual target : ℤ) : ℕ :=
  let old := (compactToTarget bits).1
  if bitsU256 params.powLimit - 1 < bitsU256 old then old / 2 * actual.toNat / target.toNat * 2
  else old * actual.toNat / target.toNat

def windowStart (interval : ℤ) (height : ℕ) : ℕ :=
  height - 1 - (if (height : ℤ) = interval then interval - 1 else interval).toNat

def boundedTimespan (target : ℤ) (last first : UInt32) : ℤ :=
  clamp (timespan last first) (target.tdiv 4) (target * 4)

def exactInterval (interval target : ℤ) (height : ℕ) (chain : ChainLookup) :
    Except DifficultyError UInt32 := do
  let parent ← lookupHeader chain (height - 1)
  if (height : ℤ) % interval ≠ 0 then
    return parent.2
  else do
    let first ← lookupHeader chain (windowStart interval height)
    return targetToCompact (min params.powLimit
      (exactTarget params parent.2 (boundedTimespan target parent.1 first.1) target))

def exactCip03 (height : ℕ) (chain : ChainLookup) : Except DifficultyError UInt32 := do
  let parent ← lookupHeader chain (height - 1)
  let first ← lookupHeader chain (height - 1 - params.difficultyAdjustmentIntervalV2.toNat)
  let target := params.powTargetTimespanV2
  let actual := clamp (timespan parent.1 first.1) ((target * 100).tdiv 112) ((target * 112).tdiv 100)
  return targetToCompact (min params.powLimit (exactTarget params parent.2 actual target))

def InWindow (timestamp : UInt32) : Prop :=
  timestamp.toNat % 60 ≤ 14 ∨ (30 ≤ timestamp.toNat % 60 ∧ timestamp.toNat % 60 ≤ 44)

instance (timestamp : UInt32) : Decidable (InWindow timestamp) :=
  inferInstanceAs (Decidable (_ ∨ _))

def exactCip05 (P : Primitives) (params : ConsensusParams) (height : ℕ) (chain : ChainLookup) :
    Except DifficultyError UInt32 := do
  let parent ← lookupHeader chain (height - 1)
  if ¬ InWindow parent.1 then
    cip04 P params height chain
  else do
    let prev ← lookupHeader chain (height - 1 - 1)
    let spacing := params.powTargetSpacing
    let actual := clamp (timespan parent.1 prev.1) (spacing - spacing.tdiv 4)
      (spacing + spacing.tdiv 2)
    return targetToCompact (min params.powLimit
      ((compactToTarget parent.2).1 * actual.toNat / spacing.toNat))

def exactLwmaStep (chain : ChainLookup) (k : ℤ) (st : LwmaState) (h : ℕ) :
    Except DifficultyError LwmaState := do
  let (blockTimestamp, blockBits) ← lookupHeader chain h
  let blockTime : ℤ := blockTimestamp.toNat
  let thisTimestamp :=
    if st.previousTimestamp < blockTime then blockTime else st.previousTimestamp + 1
  let solvetime := min (thisTimestamp - st.previousTimestamp) (6 * params.powTargetSpacing)
  let share := (compactToTarget blockBits).1 / (params.lwmaAveragingWindow * k).toNat
  return ⟨thisTimestamp, st.sumWeightedSolvetimes + solvetime * (st.j + 1), st.avgTarget + share,
    st.j + 1⟩

def exactCip06 (height : ℕ) (chain : ChainLookup) : Except DifficultyError UInt32 :=
  let n := params.lwmaAveragingWindow
  let k := (n * (n + 1) * params.powTargetSpacing).tdiv 2
  if ((height - 1 : ℕ) : ℤ) < n then
    return targetToCompact params.powLimit
  else do
    let anchor ← lookupHeader chain (height - 1 - n.toNat)
    let window := List.range' (height - 1 - n.toNat + 1) n.toNat
    let st ← window.foldlM (exactLwmaStep params chain k) ⟨anchor.1.toNat, 0, 0, 0⟩
    return targetToCompact (min params.powLimit (st.avgTarget * st.sumWeightedSolvetimes.toNat))

end

def exactNextWork (P : Primitives) (params : ConsensusParams) (height : ℕ) (chain : ChainLookup) :
    Except DifficultyError UInt32 :=
  let parentHeight := height - 1
  if height = 0 then return targetToCompact params.powLimit
  else if parentHeight < params.cip01Height then
    exactInterval params params.difficultyAdjustmentIntervalV1 params.powTargetTimespanV1 height
      chain
  else if parentHeight = params.cip01Height then return 0x1c0ffff0
  else if parentHeight < params.cip02Height then
    exactInterval params params.difficultyAdjustmentIntervalV2 params.powTargetTimespanV2 height
      chain
  else if parentHeight < params.cip03Height then exactCip03 params height chain
  else if parentHeight < params.cip04Height then cip04 P params height chain
  else if parentHeight < params.cip05Height then exactCip05 P params height chain
  else exactCip06 params height chain

theorem mulU256_eq_ok {a b : ℕ} (h : a * b < 2 ^ 256) : mulU256 a b = .ok (a * b) := if_pos h

section Formulas

variable {P : Primitives} {params : ConsensusParams} {height : ℕ} {chain : ChainLookup}

theorem scaleTarget_eq {bits : UInt32} {actual : ℤ} (htarget : 2 ≤ target)
    (hroom : shiftedTarget params bits * actual.toNat < 2 ^ 256) :
    scaleTarget params bits actual target =
      .ok (targetToCompact (min params.powLimit (exactTarget params bits actual target))) := by
  have htwo : 2 ≤ target.toNat := by omega
  unfold scaleTarget exactTarget
  unfold shiftedTarget at hroom
  dsimp only at hroom ⊢
  by_cases hshift : bitsU256 params.powLimit - 1 < bitsU256 (compactToTarget bits).1
  · simp only [hshift, if_true, decide_true] at hroom ⊢
    have hback : (compactToTarget bits).1 / 2 * actual.toNat / target.toNat * 2 < 2 ^ 256 :=
      calc (compactToTarget bits).1 / 2 * actual.toNat / target.toNat * 2
          ≤ (compactToTarget bits).1 / 2 * actual.toNat / target.toNat * target.toNat :=
            Nat.mul_le_mul_left _ htwo
        _ ≤ (compactToTarget bits).1 / 2 * actual.toNat := Nat.div_mul_le_self _ _
        _ < 2 ^ 256 := hroom
    rw [mulU256_eq_ok hroom, ok_bind, Nat.mod_eq_of_lt hback, min_comm]
    rfl
  · simp only [hshift, if_false, decide_false, Bool.false_eq_true] at hroom ⊢
    rw [mulU256_eq_ok hroom, ok_bind, min_comm]
    rfl

theorem subU32_window (hinterval : 0 < interval) (hpos : 0 < height)
    (hmod : (height : ℤ) % interval = 0) :
    subU32 (height - 1) (if (height : ℤ) = interval then interval - 1 else interval).toNat =
      .ok (windowStart interval height) := by
  refine if_pos ?_
  obtain ⟨m, hm⟩ := Int.dvd_of_emod_eq_zero hmod
  split_ifs with hfirst
  · omega
  · -- the height is a multiple of the interval other than the first
    have hm2 : 2 ≤ m := by
      by_contra hlt
      have hle : interval * m ≤ interval * 1 := Int.mul_le_mul_of_nonneg_left (by omega) hinterval.le
      rcases eq_or_ne m 1 with rfl | hne
      · omega
      · have hzero : interval * m ≤ interval * 0 :=
          Int.mul_le_mul_of_nonneg_left (by omega) hinterval.le
        omega
    have hge : interval * 2 ≤ interval * m := Int.mul_le_mul_of_nonneg_left hm2 hinterval.le
    omega

theorem intervalRule_eq (hinterval : 0 < interval) (htarget : 2 ≤ target) (hpos : 0 < height)
    (hroom : (height : ℤ) % interval = 0 → ∀ parent first, chain (height - 1) = some parent →
      chain (windowStart interval height) = some first →
      shiftedTarget params parent.2 * (boundedTimespan target parent.1 first.1).toNat < 2 ^ 256) :
    intervalRule params interval target height chain =
      exactInterval params interval target height chain := by
  unfold intervalRule exactInterval
  dsimp only
  refine bind_congr_of_ok fun parent hparent => ?_
  by_cases hmod : (height : ℤ) % interval = 0
  · simp only [hmod, ne_eq, not_true_eq_false, if_false]
    have hstart := subU32_window hinterval hpos hmod
    split_ifs at hstart ⊢ with hfirst <;>
    · rw [hstart, ok_bind]
      refine bind_congr_of_ok fun first hfirst => ?_
      exact scaleTarget_eq htarget (hroom hmod parent first (okOr_eq_ok.mp hparent)
        (okOr_eq_ok.mp hfirst))
  · simp only [hmod, ne_eq, not_false_eq_true, if_true]

end Formulas

/-- Every header of the chain has a target within the limit. -/
def WithinLimit (chain : ChainLookup) : Prop :=
  ∀ k p, chain k = some p → (compactToTarget p.2).1 ≤ mainnet.powLimit

section Mainnet

variable {P : Primitives} {height : ℕ} {chain : ChainLookup}

theorem WithinLimit.lookup {k : ℕ} {p : UInt32 × UInt32} (h : WithinLimit chain)
    (hp : lookupHeader chain k = .ok p) : (compactToTarget p.2).1 ≤ mainnet.powLimit :=
  h k p (okOr_eq_ok.mp hp)

theorem shiftedTarget_lt {bits : UInt32} (h : (compactToTarget bits).1 ≤ mainnet.powLimit) :
    shiftedTarget mainnet bits < 2 ^ 235 := by
  have hlimit : mainnet.powLimit = 2 ^ 236 - 1 := rfl
  have hbits : bitsU256 mainnet.powLimit = 236 := by decide +kernel
  unfold shiftedTarget
  dsimp only
  split_ifs with hshift
  · omega
  · rw [hbits] at hshift
    exact (lt_two_pow_bitsU256 _).trans_le (Nat.pow_le_pow_right (by norm_num) (by omega))

theorem clamp_toNat_le {x lo hi : ℤ} (h : lo ≤ hi) : (clamp x lo hi).toNat ≤ hi.toNat := by
  unfold clamp
  omega

theorem shiftedTarget_mul_lt {bits : UInt32} {actual : ℕ}
    (h : (compactToTarget bits).1 ≤ mainnet.powLimit) (hactual : actual ≤ 2 ^ 21) :
    shiftedTarget mainnet bits * actual < 2 ^ 256 :=
  calc shiftedTarget mainnet bits * actual ≤ shiftedTarget mainnet bits * 2 ^ 21 :=
        Nat.mul_le_mul_left _ hactual
    _ < 2 ^ 235 * 2 ^ 21 := Nat.mul_lt_mul_of_pos_right (shiftedTarget_lt h) (by norm_num)

theorem cip02_eq (hpos : 0 < height) (hchain : WithinLimit chain) :
    cip02 mainnet height chain = exactInterval mainnet mainnet.difficultyAdjustmentIntervalV2
      mainnet.powTargetTimespanV2 height chain := by
  refine intervalRule_eq (by decide) (by decide) hpos fun _ parent first hparent _ => ?_
  refine shiftedTarget_mul_lt (hchain _ parent hparent) ?_
  exact (clamp_toNat_le (by decide)).trans (by decide)

theorem cip03_eq (hchain : WithinLimit chain) :
    cip03 mainnet height chain = exactCip03 mainnet height chain := by
  unfold cip03 exactCip03
  refine bind_congr_of_ok fun parent hparent => bind_congr_of_ok fun first _ => ?_
  refine scaleTarget_eq (by decide) (shiftedTarget_mul_lt (hchain.lookup hparent) ?_)
  exact (clamp_toNat_le (by decide)).trans (by decide)

theorem targetToCompact_le {target : ℕ} (h : target ≤ mainnet.powLimit) :
    targetToCompact target ≤ minDifficultyCompact := by
  have hlimit : mainnet.powLimit = 2 ^ 236 - 1 := rfl
  have hlt : target < 2 ^ 236 := by omega
  have hsize : byteSize target ≤ 30 := by
    unfold byteSize bitsU256
    split_ifs with hzero
    · omega
    · have hlog := (Nat.log2_lt hzero).mpr hlt
      omega
  have hlead := leadingBytes_lt target
  have htop : byteSize target = 30 → leadingBytes target < 2 ^ 20 := by
    intro hthirty
    rw [leadingBytes, hthirty, if_neg (by norm_num)]
    exact Nat.div_lt_of_lt_mul (hlt.trans_le (by norm_num))
  have htoNat : ∀ n < 2 ^ 32, (UInt32.ofNat n).toNat = n := fun n hn => UInt32.toNat_ofNat_of_lt' hn
  have hfloor : minDifficultyCompact.toNat = 30 * 2 ^ 24 + 0xfffff := rfl
  rw [UInt32.le_iff_toNat_le, hfloor, targetToCompact_eq]
  split_ifs with hsmall
  · rw [htoNat _ (by omega)]
    omega
  · rw [htoNat _ (by omega)]
    omega

theorem floorCompact_min (target : ℕ) :
    floorCompact (targetToCompact (min target mainnet.powLimit)) =
      targetToCompact (min mainnet.powLimit target) := by
  rw [min_comm]
  exact if_neg (UInt32.not_lt.mpr (targetToCompact_le (min_le_left _ _)))

theorem cip05_eq (hheight : 2 ≤ height) (hchain : WithinLimit chain) :
    cip05 P mainnet height chain = exactCip05 P mainnet height chain := by
  unfold cip05 exactCip05 InWindow
  refine bind_congr_of_ok fun parent hparent => ?_
  dsimp only
  split_ifs
  · have hprev : subU32 (height - 1) 1 = .ok (height - 1 - 1) := if_pos (by omega)
    rw [hprev, ok_bind]
    refine bind_congr_of_ok fun prev _ => ?_
    have hproduct : (compactToTarget parent.2).1 * (clamp (timespan parent.1 prev.1)
        (mainnet.powTargetSpacing - mainnet.powTargetSpacing.tdiv 4)
        (mainnet.powTargetSpacing + mainnet.powTargetSpacing.tdiv 2)).toNat < 2 ^ 256 :=
      calc _ ≤ mainnet.powLimit * 900 :=
            Nat.mul_le_mul (hchain.lookup hparent) (clamp_toNat_le (by decide))
        _ < 2 ^ 256 := by decide +kernel
    rw [mulU256_eq_ok hproduct, ok_bind, floorCompact_min]
  · rfl

theorem lwmaStep_eq {turns h : ℕ} {st : LwmaState} (hchain : WithinLimit chain)
    (hturns : turns < 45) (hrange : LwmaRange turns st)
    (havg : st.avgTarget ≤ turns * (mainnet.powLimit / 27945000)) :
    lwmaStep mainnet chain lwmaNorm st h = exactLwmaStep mainnet chain lwmaNorm st h ∧
      ∀ st', exactLwmaStep mainnet chain lwmaNorm st h = .ok st' → LwmaRange (turns + 1) st' ∧
        st'.avgTarget ≤ (turns + 1 : ℕ) * (mainnet.powLimit / 27945000) := by
  have hdivisor : (mainnet.lwmaAveragingWindow * lwmaNorm).toNat = 27945000 := rfl
  have hroom : 45 * (mainnet.powLimit / 27945000) < 2 ^ 256 := by decide +kernel
  have hshare : ∀ p, lookupHeader chain h = .ok p → st.avgTarget + (compactToTarget p.2).1 /
      27945000 ≤ (turns + 1) * (mainnet.powLimit / 27945000) := by
    intro p hp
    have hle := Nat.div_le_div_right (c := 27945000) (hchain.lookup hp)
    rw [Nat.add_mul, one_mul]
    omega
  have hall : (turns + 1) * (mainnet.powLimit / 27945000) ≤ 45 * (mainnet.powLimit / 27945000) :=
    Nat.mul_le_mul_right _ (by omega)
  have heq : lwmaStep mainnet chain lwmaNorm st h = exactLwmaStep mainnet chain lwmaNorm st h := by
    unfold lwmaStep exactLwmaStep
    refine bind_congr_of_ok fun p hp => ?_
    have hadd : addU256 st.avgTarget ((compactToTarget p.2).1 / 27945000) =
        .ok (st.avgTarget + (compactToTarget p.2).1 / 27945000) :=
      if_pos (((hshare p hp).trans hall).trans_lt hroom)
    dsimp only
    rw [hdivisor, hadd, ok_bind]
  refine ⟨heq, fun st' hst' => ⟨hrange.next hturns (heq.trans hst'), ?_⟩⟩
  simp only [exactLwmaStep, bind_eq_ok, pure_eq_ok, hdivisor] at hst'
  obtain ⟨p, hp, rfl⟩ := hst'
  exact hshare p hp

theorem cip06_eq (hchain : WithinLimit chain) :
    cip06 mainnet height chain = exactCip06 mainnet height chain := by
  have hk : (mainnet.lwmaAveragingWindow * (mainnet.lwmaAveragingWindow + 1) *
      mainnet.powTargetSpacing).tdiv 2 = lwmaNorm := rfl
  unfold cip06 exactCip06
  simp only [hk]
  split_ifs with hshort
  · rfl
  · refine bind_congr_of_ok fun anchor _ => ?_
    have htime := anchor.1.toNat_lt
    obtain ⟨hfold, hend⟩ := foldlM_congr_of_invariant (k := 0)
      (fun turns st => LwmaRange turns st ∧
        st.avgTarget ≤ turns * (mainnet.powLimit / 27945000))
      (l := List.range' (height - 1 - mainnet.lwmaAveragingWindow.toNat + 1)
        mainnet.lwmaAveragingWindow.toNat) (b := ⟨anchor.1.toNat, 0, 0, 0⟩)
      (f := lwmaStep mainnet chain lwmaNorm) (g := exactLwmaStep mainnet chain lwmaNorm)
      ⟨⟨rfl, by simp, by simp; omega, le_rfl, by simp⟩, by simp⟩
      fun h _ turns st hturns hst => lwmaStep_eq hchain (by
        rwa [List.length_range', Nat.zero_add] at hturns) hst.1 hst.2
    rw [hfold]
    refine bind_congr_of_ok fun st hst => ?_
    obtain ⟨hrange, havg⟩ := hend st hst
    rw [List.length_range', Nat.zero_add] at hrange havg
    have hsum : st.sumWeightedSolvetimes.toNat ≤ 7290000 := by
      have hle : st.sumWeightedSolvetimes ≤ 45 * (3600 * 45) := hrange.sum_le
      omega
    have hproduct : st.avgTarget * st.sumWeightedSolvetimes.toNat < 2 ^ 256 :=
      calc _ ≤ 45 * (mainnet.powLimit / 27945000) * 7290000 := Nat.mul_le_mul havg hsum
        _ < 2 ^ 256 := by decide +kernel
    rw [mulU256_eq_ok hproduct, ok_bind, min_comm]

def ProductRoom (height : ℕ) (chain : ChainLookup) : Prop :=
  0 < height → height - 1 < mainnet.cip01Height →
    (height : ℤ) % mainnet.difficultyAdjustmentIntervalV1 = 0 →
    ∀ parent first, chain (height - 1) = some parent →
      chain (windowStart mainnet.difficultyAdjustmentIntervalV1 height) = some first →
      shiftedTarget mainnet parent.2 *
        (boundedTimespan mainnet.powTargetTimespanV1 parent.1 first.1).toNat < 2 ^ 256

theorem cip01_eq_iff (hpos : 0 < height) (hheight : height - 1 < mainnet.cip01Height) :
    cip01 mainnet height chain = exactInterval mainnet mainnet.difficultyAdjustmentIntervalV1
      mainnet.powTargetTimespanV1 height chain ↔ ProductRoom height chain := by
  constructor
  · intro h _ _ hmod parent first hparent hfirst
    have hstart := subU32_window (by decide) hpos hmod
    have hlookup : ∀ {k p}, chain k = some p → lookupHeader chain k = .ok p := okOr_eq_ok.mpr
    by_contra hlarge
    -- the product panics, the formula has a value
    have hpanic : scaleTarget mainnet parent.2
        (boundedTimespan mainnet.powTargetTimespanV1 parent.1 first.1) mainnet.powTargetTimespanV1 =
          .error .panic := by
      have hmul : mulU256 (shiftedTarget mainnet parent.2)
          (boundedTimespan mainnet.powTargetTimespanV1 parent.1 first.1).toNat = .error .panic :=
        if_neg hlarge
      unfold shiftedTarget at hmul
      simp only [scaleTarget, decide_eq_true_eq, hmul, error_bind]
    have hrule : cip01 mainnet height chain = .error .panic := by
      unfold cip01 intervalRule
      simp only [hlookup hparent, ok_bind, hmod, ne_eq, not_true_eq_false, if_false]
      split_ifs at hstart ⊢ <;>
      · rw [hstart, ok_bind, hlookup hfirst, ok_bind]
        exact hpanic
    rw [hrule] at h
    unfold exactInterval at h
    simp only [hlookup hparent, ok_bind, hmod, ne_eq, not_true_eq_false, if_false,
      hlookup hfirst] at h
    cases h
  · intro hroom
    exact intervalRule_eq (by decide) (by decide) hpos (hroom hpos hheight)

end Mainnet

/-- The rule for the height is the controller of CIP04. -/
def AsksController (height : ℕ) (chain : ChainLookup) : Prop :=
  (mainnet.cip03Height ≤ height - 1 ∧ height - 1 < mainnet.cip04Height) ∨
    (mainnet.cip04Height ≤ height - 1 ∧ height - 1 < mainnet.cip05Height ∧
      ∃ parent, chain (height - 1) = some parent ∧ ¬ InWindow parent.1)

section Dispatch

variable {P : Primitives} {height : ℕ} {chain : ChainLookup}

theorem checkedNextWork_eq :
    checkedNextWork P mainnet height chain = getNextWorkRequired P mainnet height chain := by
  unfold checkedNextWork getNextWorkRequired
  dsimp only
  split_ifs with hzero
  · rfl
  · exact checkedInterval_eq (Nat.pos_of_ne_zero hzero) (by decide) (by decide)
  · rfl
  · exact checkedInterval_eq (Nat.pos_of_ne_zero hzero) (by decide) (by decide)
  · exact checkedCip03_eq (Nat.pos_of_ne_zero hzero) (by decide) (by decide)
  · rfl
  · exact checkedCip05_eq (Nat.pos_of_ne_zero hzero) (by decide) (by decide)
  · exact checkedCip06_eq (Nat.pos_of_ne_zero hzero)

theorem getNextWorkRequired_eq_iff (hchain : WithinLimit chain) :
    getNextWorkRequired P mainnet height chain = exactNextWork P mainnet height chain ↔
      ProductRoom height chain := by
  unfold getNextWorkRequired exactNextWork
  dsimp only
  by_cases hfirst : 0 < height ∧ height - 1 < mainnet.cip01Height
  · have hzero : height ≠ 0 := Nat.pos_iff_ne_zero.mp hfirst.1
    rw [if_neg hzero, if_pos hfirst.2, if_neg hzero, if_pos hfirst.2]
    exact cip01_eq_iff hfirst.1 hfirst.2
  · have hroom : ProductRoom height chain := fun hpos hlt => absurd ⟨hpos, hlt⟩ hfirst
    refine ⟨fun _ => hroom, fun _ => ?_⟩
    have hcip04 : 1 ≤ mainnet.cip04Height := by decide
    split_ifs with hzero
    · rfl
    · omega
    · rfl
    · exact cip02_eq (Nat.pos_of_ne_zero hzero) hchain
    · exact cip03_eq hchain
    · rfl
    · exact cip05_eq (by omega) hchain
    · exact cip06_eq hchain

theorem avoids_lookupHeader (chain : ChainLookup) (k : ℕ) :
    Avoids (· = DifficultyError.panic) (lookupHeader chain k) :=
  avoids_okOr fun h => by cases h

theorem exactNextWork_avoids (hrule : ¬ AsksController height chain) :
    Avoids (· = DifficultyError.panic) (exactNextWork P mainnet height chain) := by
  have hinterval : ∀ interval target, Avoids (· = DifficultyError.panic)
      (exactInterval mainnet interval target height chain) := by
    intro interval target
    refine (avoids_lookupHeader _ _).bind fun parent _ => ?_
    split_ifs
    · exact avoids_ok _
    · exact (avoids_lookupHeader _ _).bind fun first _ => avoids_ok _
  unfold exactNextWork
  dsimp only
  split_ifs
  · exact avoids_ok _
  · exact hinterval _ _
  · exact avoids_ok _
  · exact hinterval _ _
  · exact (avoids_lookupHeader _ _).bind fun parent _ =>
      (avoids_lookupHeader _ _).bind fun first _ => avoids_ok _
  · exact absurd (.inl ⟨by omega, by omega⟩) hrule
  · refine (avoids_lookupHeader _ _).bind fun parent hparent => ?_
    split_ifs with hwindow
    · exact (avoids_lookupHeader _ _).bind fun prev _ => avoids_ok _
    · exact absurd (.inr ⟨by omega, by omega, parent, okOr_eq_ok.mp hparent, hwindow⟩) hrule
  · unfold exactCip06
    dsimp only
    split_ifs
    · exact avoids_ok _
    · refine (avoids_lookupHeader _ _).bind fun anchor _ => ?_
      refine (avoids_foldlM (fun _ => True) trivial fun h _ st _ => ⟨?_, fun _ _ => trivial⟩).bind
        fun st _ => avoids_ok _
      exact (avoids_lookupHeader _ _).bind fun p _ => avoids_ok _

end Dispatch

/-- On mainnet no `i64` operation and no height leaves its range, and the rules
compute their formulas exactly where the product of CIP01 fits 256 bits. The
formulas, and with them the rules other than the controller, do not panic. -/
theorem retargeting_exact_iff (P : Primitives) (height : ℕ) (chain : ChainLookup)
    (hchain : WithinLimit chain) :
    checkedNextWork P mainnet height chain = getNextWorkRequired P mainnet height chain ∧
    (checkedNextWork P mainnet height chain = exactNextWork P mainnet height chain ↔
      ProductRoom height chain) ∧
    (¬ AsksController height chain → exactNextWork P mainnet height chain ≠ .error .panic) := by
  refine ⟨checkedNextWork_eq, ?_, fun hrule h => exactNextWork_avoids hrule _ h rfl⟩
  rw [checkedNextWork_eq]
  exact getNextWorkRequired_eq_iff hchain

def steadyChain (time bits : UInt32) : ChainLookup :=
  fun k => some (if k = 0 then 0 else time, bits)

theorem withinLimit_steadyChain {time bits : UInt32}
    (h : (compactToTarget bits).1 ≤ mainnet.powLimit) : WithinLimit (steadyChain time bits) := by
  intro k p hp
  cases hp
  exact h

theorem harder_target_retargets :
    checkedNextWork poly mainnet 2016 (steadyChain 4838400 0x1d0ffff0) =
      exactNextWork poly mainnet 2016 (steadyChain 4838400 0x1d0ffff0) := by
  refine (retargeting_exact_iff poly 2016 (steadyChain 4838400 0x1d0ffff0)
    (withinLimit_steadyChain (by decide +kernel))).2.1.mpr fun _ _ _ parent first hparent hfirst => ?_
  cases hparent
  cases hfirst
  decide +kernel

/-- Slow blocks at the target of genesis: the first retarget panics. -/
theorem genesis_target_overflows :
    WithinLimit (steadyChain 4838400 0x1e0ffff0) ∧
      getNextWorkRequired poly mainnet 2016 (steadyChain 4838400 0x1e0ffff0) = .error .panic :=
  ⟨withinLimit_steadyChain (by decide +kernel), by decide +kernel⟩

end Ironcat.RetargetBounds
