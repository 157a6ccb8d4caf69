import Ironcat.HeaderSoundness
import Ironcat.PidController
import Ironcat.RetargetBounds

/-!
# The difficulty follows the pace

What the controller does to the compact target of the parent: the adjustment is
large enough to survive the rounding of compact targets and small enough not to
overflow. Read along the branches of a header store, a block whose eight
predecessors were slow is easier to find than its parent, one whose predecessors
were fast is harder, and no branch stops the difficulty calculation.
-/

namespace Ironcat.ControllerPace

open Lib.Checked Lib.Runs Types Difficulty Headers HeaderRuns HeaderBranches
open HeaderSoundness CompactTarget WorkBounds RetargetBounds PidController

section Encode

variable {compact : UInt32} {size mantissa target : ℕ}

theorem compactToTarget_eq_scaled (hfields : compact.toNat = size * 2 ^ 24 + mantissa)
    (hmantissa : mantissa < 2 ^ 23) (hfits : scaled size mantissa < 2 ^ 256) :
    (compactToTarget compact).1 = scaled size mantissa := by
  obtain ⟨hexponent, hword⟩ := compact_fields hfields hmantissa
  simp only [compactToTarget, hexponent, hword]
  unfold scaled at hfits ⊢
  split_ifs at hfits ⊢ with hsmall
  · rw [Nat.shiftRight_eq_div_pow]
  · rw [Nat.shiftLeft_eq, Nat.mod_eq_of_lt hfits]

theorem two_pow_le_of_bits (hne : target ≠ 0) : 2 ^ (bitsU256 target - 1) ≤ target := by
  rw [bitsU256, if_neg hne]
  exact Nat.log2_self_le hne

theorem le_div_mul_add {unit : ℕ} (hpos : 0 < unit) (h : unit * 2 ^ 15 ≤ target) :
    target ≤ target / unit * unit + target / 2 ^ 15 := by
  have hunit : unit ≤ target / 2 ^ 15 := (Nat.le_div_iff_mul_le (by norm_num)).mpr h
  have hmod := Nat.mod_lt target hpos
  have hdiv := Nat.div_add_mod' target unit
  omega

theorem le_scaled_leadingBytes (target : ℕ) :
    target ≤ scaled (byteSize target) (leadingBytes target) + target / 2 ^ 15 := by
  unfold scaled leadingBytes
  split_ifs with hsmall
  · rw [Nat.mul_div_cancel _ (Nat.two_pow_pos _)]
    exact Nat.le_add_right _ _
  · refine le_div_mul_add (Nat.two_pow_pos _) ?_
    have hne : target ≠ 0 := by
      rintro rfl
      exact hsmall (by decide)
    refine le_trans ?_ (two_pow_le_of_bits hne)
    rw [← pow_add]
    refine Nat.pow_le_pow_right (by norm_num) ?_
    unfold byteSize at hsmall ⊢
    omega

theorem le_scaled_succ (hlead : 2 ^ 23 ≤ leadingBytes target) :
    target ≤ scaled (byteSize target + 1) (leadingBytes target / 256) + target / 2 ^ 15 := by
  by_cases hsmall : byteSize target ≤ 2
  · have hexact : scaled (byteSize target + 1) (leadingBytes target / 256) = target := by
      rw [scaled, leadingBytes, if_pos (by omega), if_pos (by omega)]
      rw [Nat.div_div_eq_div_mul]
      have hpow : 256 * 2 ^ (8 * (3 - (byteSize target + 1))) = 2 ^ (8 * (3 - byteSize target)) := by
        rw [show (256 : ℕ) = 2 ^ 8 by rfl, ← pow_add]
        congr 1
        omega
      rw [hpow, Nat.mul_div_cancel _ (Nat.two_pow_pos _)]
    omega
  · have hbytes : leadingBytes target = target / 2 ^ (8 * (byteSize target - 3)) := by
      rw [leadingBytes]
      split_ifs with hthree
      · rw [show byteSize target = 3 by omega]
        simp
      · rfl
    have hpow : 2 ^ (8 * (byteSize target - 3)) * 256 = 2 ^ (8 * (byteSize target + 1 - 3)) := by
      rw [show (256 : ℕ) = 2 ^ 8 by rfl, ← pow_add]
      congr 1
      omega
    rw [scaled, if_neg (by omega), hbytes, Nat.div_div_eq_div_mul, hpow]
    refine le_div_mul_add (Nat.two_pow_pos _) ?_
    rw [hbytes, Nat.le_div_iff_mul_le (Nat.two_pow_pos _)] at hlead
    rw [← hpow]
    refine le_trans (le_of_eq ?_) hlead
    ring

theorem target_le_decoded (htarget : target < 2 ^ 256) :
    target ≤ (compactToTarget (targetToCompact target)).1 + target / 2 ^ 15 := by
  have hsize := byteSize_le htarget
  have hlead := leadingBytes_lt target
  have hle := scaled_leadingBytes_le target
  have htoNat : ∀ n < 2 ^ 32, (UInt32.ofNat n).toNat = n := fun n hn => UInt32.toNat_ofNat_of_lt' hn
  rw [targetToCompact_eq]
  split_ifs with h
  · rw [compactToTarget_eq_scaled (htoNat _ (by omega)) h (by omega)]
    exact le_scaled_leadingBytes target
  · have hmoved := (scaled_succ_div_le (byteSize target) (leadingBytes target)).trans hle
    rw [compactToTarget_eq_scaled (htoNat _ (by omega)) (by omega) (by omega)]
    exact le_scaled_succ (not_lt.mp h)

end Encode

def adjust (P : Primitives) (params : ConsensusParams) (parentBits : UInt32) (avgTimespan : ℤ) :
    Except DifficultyError UInt32 :=
  let target := (compactToTarget parentBits).1
  let error := avgTimespan - params.powTargetSpacing
  if -10 < error ∧ error < 10 then
    return parentBits
  else do
    let result := shrinkResult 64 (P.pidResult error avgTimespan params.powTargetSpacing)
    let bitLen := bitsU256 target
    let adjustment := if 24 < bitLen then (result.natAbs <<< (bitLen - 24)) % 2 ^ 256
      else result.natAbs
    if 0 ≤ result then
      return floorCompact (targetToCompact (target - adjustment))
    else do
      let raised ← addU256 target adjustment
      return floorCompact (targetToCompact (min raised params.powLimit))

/-- The average time of the eight blocks below a height. -/
def averageTime (chain : ChainLookup) (height : ℕ) : Option ℤ := do
  let parent ← chain (height - 1)
  let first ← chain (height - 9)
  return (timespan parent.1 first.1).tdiv 8

theorem cip04_eq (P : Primitives) (params : ConsensusParams) {height : ℕ} {chain : ChainLookup}
    (hheight : 9 ≤ height) {parent : UInt32 × UInt32} {avg : ℤ}
    (hparent : chain (height - 1) = some parent) (havg : averageTime chain height = some avg) :
    cip04 P params height chain = adjust P params parent.2 avg := by
  simp only [averageTime, hparent, Option.bind_eq_bind, Option.bind_some, Option.pure_def,
    Option.bind_eq_some_iff, Option.some_inj] at havg
  obtain ⟨first, hfirst, rfl⟩ := havg
  have hsub : subU32 (height - 1) 8 = .ok (height - 9) := if_pos (by omega)
  simp only [cip04, adjust, lookupHeader, hparent, hsub, hfirst, okOr, ok_bind]

theorem averageTime_range {chain : ChainLookup} {height : ℕ} {avg : ℤ}
    (h : averageTime chain height = some avg) : |avg| ≤ 2 ^ 29 := by
  simp only [averageTime, Option.bind_eq_bind, Option.pure_def, Option.bind_eq_some_iff,
    Option.some_inj] at h
  obtain ⟨parent, _, first, _, rfl⟩ := h
  have hlast := parent.1.toNat_lt
  have hfirst := first.1.toNat_lt
  rw [abs_le, timespan, Int.tdiv_eq_ediv, show Int.sign 8 = 1 by rfl]
  split_ifs <;> omega

section Adjust

variable {P : Primitives} {bits : UInt32} {avg : ℤ}

variable {r : ℤ}

theorem shrinkResult_of_le {fuel : ℕ} (h : r ≤ 8388607) : shrinkResult fuel r = r := by
  cases fuel with
  | zero => rfl
  | succ fuel => exact if_neg (not_lt.mpr h)

theorem shrinkResult_range {fuel : ℕ} (hpos : 0 < r) (hlt : r < 8388608 * 2 ^ fuel) :
    0 < shrinkResult fuel r ∧ shrinkResult fuel r ≤ 8388607 := by
  induction fuel generalizing r with
  | zero => exact ⟨hpos, by simp only [shrinkResult]; omega⟩
  | succ fuel ih =>
    rw [shrinkResult]
    split_ifs with hbig
    · rw [pow_succ] at hlt
      rw [Int.tdiv_eq_ediv_of_nonneg hpos.le]
      exact ih (by omega) (by omega)
    · exact ⟨hpos, by omega⟩

theorem targetToCompact_limit : targetToCompact mainnet.powLimit = minDifficultyCompact := by
  decide +kernel

theorem floorCompact_eq {target : ℕ} (h : target ≤ mainnet.powLimit) :
    floorCompact (targetToCompact target) = targetToCompact target :=
  if_neg (UInt32.not_lt.mpr (targetToCompact_le h))

theorem bitsU256_le {target : ℕ} (h : target ≤ mainnet.powLimit) : bitsU256 target ≤ 236 := by
  have hlimit : mainnet.powLimit = 2 ^ 236 - 1 := rfl
  unfold bitsU256
  split_ifs with hzero
  · omega
  · have hlog := (Nat.log2_lt hzero).mpr (by omega : target < 2 ^ 236)
    omega

theorem adjustment_eq {bitLen size : ℕ} (hlen : bitLen ≤ 236) (hsize : size ≤ 2 ^ 41) :
    ((if 24 < bitLen then (size <<< (bitLen - 24)) % 2 ^ 256 else size) = size * 2 ^ (bitLen - 24)) ∧
      size * 2 ^ (bitLen - 24) ≤ 2 ^ 253 := by
  have hpow : size * 2 ^ (bitLen - 24) ≤ 2 ^ 41 * 2 ^ 212 :=
    Nat.mul_le_mul hsize (Nat.pow_le_pow_right (by norm_num) (by omega))
  have hle : size * 2 ^ (bitLen - 24) ≤ 2 ^ 253 := hpow.trans (by norm_num)
  refine ⟨?_, hle⟩
  split_ifs with h
  · rw [Nat.shiftLeft_eq, Nat.mod_eq_of_lt (hle.trans_lt (by norm_num))]
  · rw [show bitLen - 24 = 0 by omega, pow_zero, mul_one]

theorem adjust_steady (P : Primitives) (bits : UInt32) (hlow : 590 < avg) (hhigh : avg < 610) :
    adjust P mainnet bits avg = .ok bits := by
  have herror : -10 < avg - mainnet.powTargetSpacing ∧ avg - mainnet.powTargetSpacing < 10 := by
    have hspacing : mainnet.powTargetSpacing = 600 := rfl
    omega
  rw [adjust]
  exact if_pos herror

theorem adjust_of_nonneg {error : ℤ} (herror : error = avg - 600) (hout : error ≤ -10 ∨ 10 ≤ error)
    (hr : shrinkResult 64 (P.pidResult error avg 600) = r) (hr0 : 0 ≤ r) :
    adjust P mainnet bits avg = .ok (floorCompact (targetToCompact ((compactToTarget bits).1 -
      if 24 < bitsU256 (compactToTarget bits).1 then
        (r.natAbs <<< (bitsU256 (compactToTarget bits).1 - 24)) % 2 ^ 256
      else r.natAbs))) := by
  have hspacing : mainnet.powTargetSpacing = 600 := rfl
  have hzone : ¬ (-10 < avg - 600 ∧ avg - 600 < 10) := by omega
  subst herror
  simp only [adjust, hspacing, hzone, if_false, hr, hr0, if_true]
  rfl

theorem adjust_of_neg {error : ℤ} (herror : error = avg - 600) (hout : error ≤ -10 ∨ 10 ≤ error)
    (hr : shrinkResult 64 (P.pidResult error avg 600) = r) (hr0 : r < 0) (hge : -2 ^ 41 ≤ r)
    (hbits : (compactToTarget bits).1 ≤ mainnet.powLimit) :
    adjust P mainnet bits avg = .ok (targetToCompact (min ((compactToTarget bits).1 +
      r.natAbs * 2 ^ (bitsU256 (compactToTarget bits).1 - 24)) mainnet.powLimit)) := by
  have hspacing : mainnet.powTargetSpacing = 600 := rfl
  have hlimit : mainnet.powLimit = 2 ^ 236 - 1 := rfl
  have hzone : ¬ (-10 < avg - 600 ∧ avg - 600 < 10) := by omega
  obtain ⟨heq, hle⟩ := adjustment_eq (bitsU256_le hbits) (by omega : r.natAbs ≤ 2 ^ 41)
  have hadd : addU256 (compactToTarget bits).1
      (r.natAbs * 2 ^ (bitsU256 (compactToTarget bits).1 - 24)) = .ok _ := if_pos (by omega)
  subst herror
  simp only [adjust, hspacing, hzone, if_false, hr, not_le.mpr hr0, heq, hadd, ok_bind]
  rw [floorCompact_eq (min_le_right _ _)]
  rfl

theorem adjust_slow (P : Primitives) (hslow : 610 ≤ avg) (hrange : |avg| ≤ 2 ^ 29)
    (hbits : (compactToTarget bits).1 ≤ mainnet.powLimit) :
    ∃ bits', adjust (withController P) mainnet bits avg = .ok bits' ∧
      (bits' = minDifficultyCompact ∨ (compactToTarget bits).1 < (compactToTarget bits').1) := by
  have havg := abs_le.mp hrange
  have hlow : pidResult (avg - 600) avg 600 ≤ -1280 :=
    pidResult_slow (by omega) (by decide) (by omega) (by omega)
  have hge := pidResult_ge hrange rfl (by omega)
  have hresult : shrinkResult 64 ((withController P).pidResult (avg - 600) avg 600) =
      pidResult (avg - 600) avg 600 := shrinkResult_of_le (by exact hlow.trans (by decide))
  generalize pidResult (avg - 600) avg 600 = r at hlow hge hresult
  refine ⟨_, adjust_of_neg rfl (by omega) hresult (by omega) hge hbits, ?_⟩
  have hlimit : mainnet.powLimit = 2 ^ 236 - 1 := rfl
  have htarget := lt_two_pow_bitsU256 (compactToTarget bits).1
  generalize (compactToTarget bits).1 = t at hbits htarget ⊢
  have hshift : 2 ^ bitsU256 t ≤ 2 ^ 24 * 2 ^ (bitsU256 t - 24) := by
    rw [← pow_add]
    exact Nat.pow_le_pow_right (by norm_num) (by omega)
  have hadjust : 1280 * 2 ^ (bitsU256 t - 24) ≤ r.natAbs * 2 ^ (bitsU256 t - 24) :=
    Nat.mul_le_mul_right _ (by omega)
  have hpos : 0 < 2 ^ (bitsU256 t - 24) := Nat.two_pow_pos _
  generalize 2 ^ (bitsU256 t - 24) = m at hshift hadjust hpos ⊢
  rcases le_total mainnet.powLimit (t + r.natAbs * m) with hcap | hcap
  · left
    rw [min_eq_right hcap, targetToCompact_limit]
  · right
    rw [min_eq_left hcap]
    have hloss := target_le_decoded (by omega : t + r.natAbs * m < 2 ^ 256)
    omega

theorem adjust_fast (P : Primitives) (hnonneg : 0 ≤ avg) (hfast : avg ≤ 590)
    (hbits : (compactToTarget bits).1 ≤ mainnet.powLimit) (hne : (compactToTarget bits).1 ≠ 0) :
    ∃ bits', adjust (withController P) mainnet bits avg = .ok bits' ∧
      (compactToTarget bits').1 < (compactToTarget bits).1 ∧
      (2 ^ 23 ≤ (compactToTarget bits).1 → (compactToTarget bits').1 ≠ 0) := by
  have hrange : ∀ n : ℤ, -600 ≤ n → n ≤ 600 → |n| ≤ 2 ^ 30 := fun n hlo hhi =>
    abs_le.mpr ⟨by omega, by omega⟩
  have hhigh : 2560 ≤ pidResult (avg - 600) avg 600 := pidResult_fast (by omega) (by decide) hnonneg
    (hrange _ (by omega) (by omega)) (hrange _ (by omega) (by omega)) (by decide)
  have hmax := pidResult_le (avg - 600) avg 600
  have hlt : pidResult (avg - 600) avg 600 < 8388608 * 2 ^ 64 := hmax.trans_lt (by decide)
  obtain ⟨hpos, hle⟩ := shrinkResult_range (by omega : 0 < pidResult (avg - 600) avg 600) hlt
  generalize hr : shrinkResult 64 (pidResult (avg - 600) avg 600) = r at hpos hle
  refine ⟨_, adjust_of_nonneg rfl (by omega) hr hpos.le, ?_⟩
  have hlimit : mainnet.powLimit = 2 ^ 236 - 1 := rfl
  have hlen := bitsU256_le hbits
  have htarget := two_pow_le_of_bits hne
  generalize (compactToTarget bits).1 = t at hbits hne hlen htarget ⊢
  rw [(adjustment_eq hlen (by omega : r.natAbs ≤ 2 ^ 41)).1, floorCompact_eq ((Nat.sub_le _ _).trans hbits)]
  have hm : 0 < 2 ^ (bitsU256 t - 24) := Nat.two_pow_pos _
  have hadjust : 1 * 2 ^ (bitsU256 t - 24) ≤ r.natAbs * 2 ^ (bitsU256 t - 24) :=
    Nat.mul_le_mul_right _ (by omega)
  refine ⟨?_, fun hbig hzero => ?_⟩
  · have hdecoded := (validBits_targetToCompact
      (by omega : t - r.natAbs * 2 ^ (bitsU256 t - 24) < 2 ^ 256)).target_le
    omega
  · have hbitLen : 24 ≤ bitsU256 t := by
      by_contra hshort
      have hlt := (lt_two_pow_bitsU256 t).trans_le (Nat.pow_le_pow_right (by norm_num) (by omega :
        bitsU256 t ≤ 23))
      omega
    have hsmall : r.natAbs * 2 ^ (bitsU256 t - 24) < t := by
      calc r.natAbs * 2 ^ (bitsU256 t - 24) < 2 ^ 23 * 2 ^ (bitsU256 t - 24) :=
            Nat.mul_lt_mul_of_pos_right (by omega) hm
        _ = 2 ^ (bitsU256 t - 1) := by rw [← pow_add]; congr 1; omega
        _ ≤ t := htarget
    have hloss := target_le_decoded (by omega : t - r.natAbs * 2 ^ (bitsU256 t - 24) < 2 ^ 256)
    omega

theorem adjust_ok (P : Primitives) (hrange : |avg| ≤ 2 ^ 29)
    (hbits : (compactToTarget bits).1 ≤ mainnet.powLimit) :
    ∃ bits', adjust (withController P) mainnet bits avg = .ok bits' := by
  by_cases hzone : 590 < avg ∧ avg < 610
  · exact ⟨bits, adjust_steady _ bits hzone.1 hzone.2⟩
  have hge := pidResult_ge hrange rfl (by omega : avg - 600 ≠ 0)
  have hlt : pidResult (avg - 600) avg 600 < 8388608 * 2 ^ 64 := (pidResult_le _ _ _).trans_lt (by decide)
  rcases lt_trichotomy (pidResult (avg - 600) avg 600) 0 with hneg | hzero | hpos
  · exact ⟨_, adjust_of_neg (P := withController P) rfl (by omega) (shrinkResult_of_le (by
      exact hneg.le.trans (by decide))) hneg hge hbits⟩
  · exact ⟨_, adjust_of_nonneg (P := withController P) rfl (by omega) (shrinkResult_of_le (by
      exact hzero.le.trans (by decide))) hzero.ge⟩
  · exact ⟨_, adjust_of_nonneg (P := withController P) rfl (by omega) rfl (shrinkResult_range hpos hlt).1.le⟩

end Adjust

/-- The heights at which the rules change. -/
structure Activations where
  cip01 : ℕ
  cip02 : ℕ
  cip03 : ℕ
  cip04 : ℕ
  cip05 : ℕ

/-- The rules of mainnet with activation heights of their own. -/
def mainnetAt (heights : Activations) : ConsensusParams :=
  { mainnet with
    cip01Height := heights.cip01
    cip02Height := heights.cip02
    cip03Height := heights.cip03
    cip04Height := heights.cip04
    cip05Height := heights.cip05 }

example : mainnetAt ⟨20289, 21346, 27260, 46331, 397000⟩ = mainnet := rfl

theorem mainnetAt_bounded (heights : Activations) : BoundedParams (mainnetAt heights) where
  limit_lt := show 2 ^ 236 - 1 < 2 ^ 256 by decide
  floor := show ValidBits (2 ^ 236 - 1) minDifficultyCompact by decide +kernel
  reset := show ValidBits (2 ^ 236 - 1) 0x1c0ffff0 by decide +kernel

/-- The controller decides at this height: in the epoch of CIP04, or in the one of
CIP05 when the parent's timestamp is outside the windows. -/
structure Controlled (params : ConsensusParams) (height : ℕ) (chain : ChainLookup) : Prop where
  window : 9 ≤ height
  reset : params.cip01Height < height - 1
  cip02 : params.cip02Height ≤ height - 1
  cip03 : params.cip03Height ≤ height - 1
  rule : height - 1 < params.cip04Height ∨ (height - 1 < params.cip05Height ∧
    ∃ parent, chain (height - 1) = some parent ∧ ¬ InWindow parent.1)

theorem Controlled.nextWork {P : Primitives} {params : ConsensusParams} {height : ℕ}
    {chain : ChainLookup} (h : Controlled params height chain) :
    getNextWorkRequired P params height chain = cip04 P params height chain := by
  obtain ⟨hwindow, hreset, hcip02, hcip03, hrule⟩ := h
  rw [getNextWorkRequired]
  rw [if_neg (by omega), if_neg (by omega), if_neg (by omega), if_neg (by omega), if_neg (by omega)]
  split_ifs with hcip04 hcip05
  · rfl
  · obtain ⟨_, parent, hparent, hwindow'⟩ := hrule.resolve_left hcip04
    have hout : ¬ (parent.1.toNat % 60 ≤ 14 ∨ (30 ≤ parent.1.toNat % 60 ∧ parent.1.toNat % 60 ≤ 44)) :=
      hwindow'
    simp only [Difficulty.cip05, lookupHeader, hparent, okOr, ok_bind, hout, not_false_eq_true, if_true]
  · omega

section Branch

variable {P : Primitives} {params : ConsensusParams} {genesis header : BlockHeader}
variable {hs : HeaderStore} {branch below : List BlockHeader}

theorem validChain_branchLookup {limit : ℕ} (hgenesis : ValidBits limit genesis.bits)
    (hbranch : ∀ b ∈ branch, ValidBits limit b.bits) : ValidChain limit (branchLookup genesis branch) := by
  intro k p hp
  rw [branchLookup] at hp
  split_ifs at hp
  obtain rfl := Option.some.inj hp
  rw [headerOf]
  cases hdrop : branch.drop (branch.length - k) with
  | nil => exact hgenesis
  | cons b rest => exact hbranch b (List.mem_of_mem_drop (by rw [hdrop]; exact List.mem_cons_self))

theorem validBits_of_sound (hparams : BoundedParams params)
    (hgenesis : ValidBits params.powLimit genesis.bits) (h : Sound P params genesis branch) :
    ∀ b ∈ branch, ValidBits params.powLimit b.bits := by
  induction branch with
  | nil => simp
  | cons header below ih =>
    rw [List.forall_mem_cons]
    have hbelow := ih h.1
    exact ⟨hparams.getNextWorkRequired (validChain_branchLookup hgenesis hbelow) h.2.1.bits, hbelow⟩

theorem target_ne_zero_of_pow (h : checkProofOfWork P header = true) :
    (compactToTarget header.bits).1 ≠ 0 := by
  intro hzero
  simp [checkProofOfWork, hzero] at h

end Branch

/-- The pace of the eight blocks before a block and its difficulty. -/
structure FollowsPace (avg : ℤ) (parentBits bits : UInt32) : Prop where
  steady : 590 < avg → avg < 610 → bits = parentBits
  slow : 610 ≤ avg → bits = minDifficultyCompact ∨
    (compactToTarget parentBits).1 < (compactToTarget bits).1
  fast : 0 ≤ avg → avg ≤ 590 → (compactToTarget bits).1 < (compactToTarget parentBits).1

theorem followsPace_of_adjust {P : Primitives} {bits bits' : UInt32} {avg : ℤ}
    (hrange : |avg| ≤ 2 ^ 29) (hvalid : (compactToTarget bits).1 ≤ mainnet.powLimit)
    (hne : (compactToTarget bits).1 ≠ 0)
    (h : adjust (withController P) mainnet bits avg = .ok bits') : FollowsPace avg bits bits' where
  steady hlow hhigh := by
    rw [adjust_steady _ bits hlow hhigh] at h
    exact (Except.ok.inj h).symm
  slow hslow := by
    obtain ⟨_, hok, hpace⟩ := adjust_slow P hslow hrange hvalid
    rw [h] at hok
    rwa [Except.ok.inj hok]
  fast hnonneg hfast := by
    obtain ⟨_, hok, hpace, _⟩ := adjust_fast P hnonneg hfast hvalid hne
    rw [h] at hok
    rwa [Except.ok.inj hok]

/-- Every stored header whose bits the controller decided follows the pace of the
eight blocks before it on its own branch. -/
theorem difficulty_follows_pace (P : Primitives) (heights : Activations) (genesis : BlockHeader)
    (hgenesis : ValidBits mainnet.powLimit genesis.bits) (ops : List HeaderOp)
    (hhash : HeaderHashSound (withController P) ops)
    (hpurge : Along (HeaderOp.apply (withController P)) LeafPurge
      (HeaderStore.makeFresh (withController P) genesis (mainnetAt heights) none) ops)
    (hash : Hash256) (s p : StoredHeader)
    (hs : (reached (withController P) (mainnetAt heights) genesis ops).get hash = some s)
    (hp : (reached (withController P) (mainnetAt heights) genesis ops).get s.header.prevHash = some p)
    (hcontrolled : Controlled (mainnetAt heights) s.height
      ((reached (withController P) (mainnetAt heights) genesis ops).forkLookup s.header.prevHash))
    (avg : ℤ)
    (havg : averageTime ((reached (withController P) (mainnetAt heights) genesis ops).forkLookup
      s.header.prevHash) s.height = some avg) :
    FollowsPace avg p.header.bits s.header.bits := by
  obtain ⟨htree, hparams, hsound⟩ := kept_reached_of_leafPurge (rfl : (mainnetAt heights).checkpoints = [])
    hhash hpurge
  generalize reached (withController P) (mainnetAt heights) genesis ops = store at *
  obtain ⟨branch, hbranch, rfl, rfl⟩ := exists_holds htree hs
  match branch with
  | [] => exact absurd hcontrolled.window (by simp)
  | [header] => exact absurd hcontrolled.window (by simp)
  | header :: parent :: rest =>
    have hbelow : HoldsBranch (withController P) genesis store (parent :: rest) := hbranch.2.2
    have hprev : header.prevHash = tipHash (withController P) genesis (parent :: rest) := hbranch.1
    have hlookup : ∀ k < rest.length + 2, store.forkLookup header.prevHash k =
        branchLookup genesis (parent :: rest) k := by
      intro k hk
      rw [hprev]
      exact hbelow.forkLookup htree (by rw [List.length_cons]; omega)
    have hbranchSound := hsound _ hbranch
    rw [hparams] at hbranchSound
    obtain ⟨hbelowSound, hvalid, -⟩ := hbranchSound
    have hparentBits := validBits_of_sound (mainnetAt_bounded heights) hgenesis hbelowSound parent
      List.mem_cons_self
    have hne := target_ne_zero_of_pow (hbelowSound.2.1.pow (Nat.succ_pos _))
    have hparent : store.forkLookup header.prevHash (rest.length + 2 - 1) =
        some (parent.timestamp, parent.bits) := by
      rw [hlookup _ (by omega)]
      simp [branchLookup, headerOf]
    have hnext := hvalid.bits
    simp only [storedTip_cons, List.length_cons] at hp hcontrolled havg hnext ⊢
    rw [← getNextWorkRequired_congr _ hlookup, hcontrolled.nextWork,
      cip04_eq _ _ hcontrolled.window hparent havg] at hnext
    rw [hprev, hbelow.get] at hp
    obtain rfl := Option.some.inj hp
    exact followsPace_of_adjust (averageTime_range havg) hparentBits.target_le hne hnext

def earlyHeights : Activations := ⟨0, 9, 9, 100, 200⟩

def blockAfter (below : List BlockHeader) (bits : UInt32) : BlockHeader where
  version := 1
  prevHash := (below.headD easyGenesis).blockHash poly
  merkleRoot := 0
  timestamp := UInt32.ofNat (700 * (below.length + 1))
  bits := bits
  nonce := 0

def slowBranch : ℕ → List BlockHeader
  | 0 => []
  | n+1 => blockAfter (slowBranch n) 0x1c0ffff0 :: slowBranch n

def easierBlock : BlockHeader := blockAfter (slowBranch 9) 0x1c1026f6

def slowStore : HeaderStore :=
  reached (withController poly) (mainnetAt earlyHeights) easyGenesis
    [.addHeaders (easierBlock :: slowBranch 9).reverse]

theorem slow_blocks_ease_the_next : ∃ s p,
    slowStore.get (easierBlock.blockHash poly) = some s ∧ s.header = easierBlock ∧
    slowStore.get s.header.prevHash = some p ∧ FollowsPace 700 p.header.bits s.header.bits ∧
    (compactToTarget p.header.bits).1 < (compactToTarget s.header.bits).1 := by
  have hget : (slowStore.get (easierBlock.blockHash poly)).map
      (fun s => (s.header, s.height)) = some (easierBlock, 10) := by decide +kernel
  have hparent : (slowStore.get easierBlock.prevHash).isSome := by decide +kernel
  have havg : averageTime (slowStore.forkLookup easierBlock.prevHash) 10 = some 700 := by decide +kernel
  obtain ⟨⟨header, height, work⟩, hs, heq⟩ := Option.map_eq_some_iff.mp hget
  obtain ⟨rfl, rfl⟩ : header = easierBlock ∧ height = 10 := Prod.mk.inj heq
  obtain ⟨p, hp⟩ := Option.isSome_iff_exists.mp hparent
  have hcontrolled : Controlled (mainnetAt earlyHeights) 10 (slowStore.forkLookup easierBlock.prevHash) :=
    ⟨by decide, by decide, by decide, by decide, .inl (by decide)⟩
  have hbits : easierBlock.bits ≠ minDifficultyCompact := by decide
  have hpace := difficulty_follows_pace poly earlyHeights easyGenesis (by decide +kernel)
    [.addHeaders (easierBlock :: slowBranch 9).reverse] (by decide +kernel) ⟨trivial, trivial⟩ _ _ _ hs hp
    hcontrolled 700 havg
  exact ⟨_, p, hs, rfl, hp, hpace, (hpace.slow (by decide)).resolve_left hbits⟩

/-- All heights below are known, with targets within the limit. -/
structure FullWindow (chain : ChainLookup) (height : ℕ) : Prop where
  known : ∀ k < height, ∃ p, chain k = some p
  within : WithinLimit chain

section Total

variable {P : Primitives} {height : ℕ} {chain : ChainLookup}

theorem FullWindow.lookupHeader (h : FullWindow chain height) {k : ℕ} (hk : k < height) :
    ∃ p, lookupHeader chain k = .ok p ∧ chain k = some p := by
  obtain ⟨p, hp⟩ := h.known k hk
  exact ⟨p, by rw [Difficulty.lookupHeader, hp]; rfl, hp⟩

theorem exactInterval_ok (h : FullWindow chain height) (hpos : 0 < height) (interval target : ℤ)
    (hwindow : windowStart interval height < height) :
    ∃ bits, exactInterval mainnet interval target height chain = .ok bits := by
  obtain ⟨parent, hparent, _⟩ := h.lookupHeader (by omega : height - 1 < height)
  obtain ⟨first, hfirst, _⟩ := h.lookupHeader hwindow
  simp only [exactInterval, hparent, hfirst, ok_bind]
  split_ifs <;> exact ⟨_, rfl⟩

theorem cip03_ok (h : FullWindow chain height) (hpos : 0 < height) :
    ∃ bits, cip03 mainnet height chain = .ok bits := by
  obtain ⟨parent, hparent, _⟩ := h.lookupHeader (by omega : height - 1 < height)
  obtain ⟨first, hfirst, _⟩ := h.lookupHeader
    (by omega : height - 1 - mainnet.difficultyAdjustmentIntervalV2.toNat < height)
  rw [cip03_eq h.within]
  simp only [exactCip03, hparent, hfirst, ok_bind]
  exact ⟨_, rfl⟩

theorem cip04_ok (P : Primitives) (h : FullWindow chain height) (hheight : 9 ≤ height) :
    ∃ bits, cip04 (withController P) mainnet height chain = .ok bits := by
  obtain ⟨parent, hparent⟩ := h.known (height - 1) (by omega)
  obtain ⟨first, hfirst⟩ := h.known (height - 9) (by omega)
  have havg : averageTime chain height = some ((timespan parent.1 first.1).tdiv 8) := by
    simp [averageTime, hparent, hfirst]
  rw [cip04_eq _ _ hheight hparent havg]
  exact adjust_ok P (averageTime_range havg) (h.within _ _ hparent)

theorem cip05_ok (P : Primitives) (h : FullWindow chain height) (hheight : 9 ≤ height) :
    ∃ bits, cip05 (withController P) mainnet height chain = .ok bits := by
  obtain ⟨parent, hparent, _⟩ := h.lookupHeader (by omega : height - 1 < height)
  obtain ⟨prev, hprev, _⟩ := h.lookupHeader (by omega : height - 1 - 1 < height)
  rw [cip05_eq (by omega) h.within]
  simp only [exactCip05, hparent, hprev, ok_bind]
  split_ifs
  · exact ⟨_, rfl⟩
  · exact cip04_ok P h hheight

theorem exactLwma_ok (h : FullWindow chain height) (k : ℤ) (st : LwmaState) {window : List ℕ}
    (hwindow : ∀ n ∈ window, n < height) :
    ∃ st', window.foldlM (exactLwmaStep mainnet chain k) st = .ok st' := by
  induction window generalizing st with
  | nil => exact ⟨st, rfl⟩
  | cons n window ih =>
    rw [List.forall_mem_cons] at hwindow
    obtain ⟨p, hp, _⟩ := h.lookupHeader hwindow.1
    rw [List.foldlM_cons]
    simp only [exactLwmaStep, hp, ok_bind]
    exact ih _ hwindow.2

theorem cip06_ok (h : FullWindow chain height) (hpos : 0 < height) :
    ∃ bits, cip06 mainnet height chain = .ok bits := by
  rw [cip06_eq h.within]
  unfold exactCip06
  dsimp only
  split_ifs with hshort
  · exact ⟨_, rfl⟩
  · obtain ⟨anchor, hanchor, _⟩ := h.lookupHeader
      (by omega : height - 1 - mainnet.lwmaAveragingWindow.toNat < height)
    have hwindow : ∀ n ∈ List.range' (height - 1 - mainnet.lwmaAveragingWindow.toNat + 1)
        mainnet.lwmaAveragingWindow.toNat, n < height := by
      intro n hn
      have hn := List.mem_range'_1.mp hn
      omega
    obtain ⟨st, hst⟩ := exactLwma_ok h ((mainnet.lwmaAveragingWindow * (mainnet.lwmaAveragingWindow + 1) *
      mainnet.powTargetSpacing).tdiv 2) ⟨anchor.1.toNat, 0, 0, 0⟩ hwindow
    rw [hanchor, ok_bind, hst, ok_bind]
    exact ⟨_, rfl⟩

theorem getNextWorkRequired_ok (P : Primitives) {heights : Activations} (hwindow : 8 ≤ heights.cip03)
    (hpos : 0 < height) (hpast : heights.cip01 ≤ height - 1) (h : FullWindow chain height) :
    ∃ bits, getNextWorkRequired (withController P) (mainnetAt heights) height chain = .ok bits := by
  have hcip03 : (mainnetAt heights).cip03Height = heights.cip03 := rfl
  have hcip01 : (mainnetAt heights).cip01Height = heights.cip01 := rfl
  unfold getNextWorkRequired
  dsimp only
  split_ifs
  · omega
  · omega
  · exact ⟨_, rfl⟩
  · obtain ⟨bits, hbits⟩ := exactInterval_ok h hpos mainnet.difficultyAdjustmentIntervalV2
      mainnet.powTargetTimespanV2 (by unfold windowStart; omega)
    rw [← cip02_eq hpos h.within] at hbits
    exact ⟨bits, hbits⟩
  · exact cip03_ok h hpos
  · exact cip04_ok P h (by omega)
  · exact cip05_ok P h (by omega)
  · exact cip06_ok h hpos

end Total

/-- Above the first change of rules the difficulty after any stored header can be
computed: no timestamps and no bits that got stored make the calculation panic or
miss a header. -/
theorem next_work_computable (P : Primitives) (heights : Activations) (hwindow : 8 ≤ heights.cip03)
    (genesis : BlockHeader) (hgenesis : ValidBits mainnet.powLimit genesis.bits) (ops : List HeaderOp)
    (hhash : HeaderHashSound (withController P) ops)
    (hpurge : Along (HeaderOp.apply (withController P)) LeafPurge
      (HeaderStore.makeFresh (withController P) genesis (mainnetAt heights) none) ops)
    (hash : Hash256) (s : StoredHeader)
    (hs : (reached (withController P) (mainnetAt heights) genesis ops).get hash = some s)
    (hpast : heights.cip01 ≤ s.height) :
    ∃ bits, getNextWorkRequired (withController P) (mainnetAt heights) (s.height + 1)
        ((reached (withController P) (mainnetAt heights) genesis ops).forkLookup hash) = .ok bits ∧
      ValidBits mainnet.powLimit bits := by
  obtain ⟨htree, hparams, hsound⟩ := kept_reached_of_leafPurge (rfl : (mainnetAt heights).checkpoints = [])
    hhash hpurge
  generalize reached (withController P) (mainnetAt heights) genesis ops = store at *
  obtain ⟨branch, hbranch, rfl, rfl⟩ := exists_holds htree hs
  have hbranchSound := hsound branch hbranch
  rw [hparams] at hbranchSound
  have hstored : ∀ b ∈ branch, ValidBits (mainnetAt heights).powLimit b.bits :=
    validBits_of_sound (mainnetAt_bounded heights) hgenesis hbranchSound
  have hvalid := validChain_branchLookup hgenesis hstored
  have hcomplete : FullWindow (branchLookup genesis branch) (branch.length + 1) :=
    ⟨fun k hk => ⟨_, branchLookup_eq (Nat.lt_succ_iff.mp hk)⟩, fun k p hp => (hvalid k p hp).target_le⟩
  obtain ⟨bits, hbits⟩ := getNextWorkRequired_ok P hwindow (Nat.succ_pos _) hpast hcomplete
  refine ⟨bits, ?_, (mainnetAt_bounded heights).getNextWorkRequired hvalid hbits⟩
  rw [← hbits]
  exact hbranch.nextWork_forkLookup htree

theorem slow_store_has_next_work :
    ∃ bits, getNextWorkRequired (withController poly) (mainnetAt earlyHeights) 11
        (slowStore.forkLookup (easierBlock.blockHash poly)) = .ok bits ∧
      ValidBits mainnet.powLimit bits := by
  have hget : (slowStore.get (easierBlock.blockHash poly)).map StoredHeader.height = some 10 := by
    decide +kernel
  obtain ⟨s, hs, hheight⟩ := Option.map_eq_some_iff.mp hget
  have hnext := next_work_computable poly earlyHeights (by decide) easyGenesis (by decide +kernel)
    [.addHeaders (easierBlock :: slowBranch 9).reverse] (by decide +kernel) ⟨trivial, trivial⟩ _ s hs
    (Nat.zero_le _)
  rwa [hheight] at hnext

end Ironcat.ControllerPace
