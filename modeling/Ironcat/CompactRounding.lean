import Ironcat.CompactTarget
import Ironcat.Lib.Rounding

/-!
# Compact targets as floating-point numbers

A compact target stands for `mantissa * 256 ^ (size - 3)`. Decoding gives its
floor, with a flag where it does not fit 256 bits; encoding gives the greatest
such number that is not above the target, in an order that compares as targets
do.
-/

namespace Ironcat.CompactTarget

open Difficulty Lib.Rounding

section

variable (compact : UInt32)

def compactSize : ℕ := compact.toNat >>> 24

def compactMantissa : ℕ := compact.toNat &&& 0x007fffff

/-- What a compact target stands for, whatever its size. -/
def compactValue : ℚ :=
  compactMantissa compact * 256 ^ ((compactSize compact : ℤ) - 3)

theorem compactMantissa_lt : compactMantissa compact < 2 ^ 23 := by
  rw [compactMantissa, and_mantissaMask]
  exact Nat.mod_lt _ (by norm_num)

theorem two_pow_eight_mul (k : ℕ) : 2 ^ (8 * k) = 256 ^ k := by
  rw [pow_mul]
  norm_num

theorem floor_scaled (size mantissa : ℕ) :
    ⌊(mantissa : ℚ) * 256 ^ ((size : ℤ) - 3)⌋ = scaled size mantissa := by
  unfold scaled
  split_ifs with hsmall
  · have hexp : ((size : ℤ) - 3) = -((3 - size : ℕ) : ℤ) := by omega
    have hcast : (mantissa : ℚ) / 256 ^ (3 - size) = ((mantissa : ℤ) : ℚ) / ((256 ^ (3 - size) : ℕ) : ℚ) := by
      push_cast
      rfl
    rw [hexp, zpow_neg, zpow_natCast, ← div_eq_mul_inv, hcast, Rat.floor_intCast_div_natCast,
      two_pow_eight_mul]
    push_cast
    rfl
  · have hexp : ((size : ℤ) - 3) = ((size - 3 : ℕ) : ℤ) := by omega
    rw [hexp, zpow_natCast, two_pow_eight_mul]
    exact_mod_cast Int.floor_natCast (mantissa * 256 ^ (size - 3))

theorem floor_compactValue :
    ⌊compactValue compact⌋ = scaled (compactSize compact) (compactMantissa compact) :=
  floor_scaled _ _

theorem le_compactValue_iff : 2 ^ 256 ≤ compactValue compact ↔
    2 ^ 256 ≤ scaled (compactSize compact) (compactMantissa compact) := by
  have hfloor := @Int.le_floor ℚ _ _ _ (2 ^ 256) (compactValue compact)
  rw [floor_compactValue] at hfloor
  exact_mod_cast hfloor.symm

theorem scaled_lt_of_le {size mantissa : ℕ} (hmantissa : mantissa < 2 ^ 23) (hsize : size ≤ 3) :
    scaled size mantissa < 2 ^ 23 := by
  rw [scaled, if_pos hsize]
  exact (Nat.div_le_self _ _).trans_lt hmantissa

theorem overflow_shift_iff {size mantissa : ℕ} (hmantissa : mantissa < 2 ^ 23) :
    (mantissa ≠ 0 ∧
      (34 < size ∨ (0xff < mantissa ∧ 33 < size) ∨ (0xffff < mantissa ∧ 32 < size))) ↔
      2 ^ 256 ≤ mantissa * 2 ^ (8 * (size - 3)) := by
  rcases Nat.lt_or_ge 34 size with hlarge | hle
  · have hpow : 2 ^ 256 ≤ 2 ^ (8 * (size - 3)) := Nat.pow_le_pow_right (by norm_num) (by omega)
    refine ⟨fun h => hpow.trans (Nat.le_mul_of_pos_left _ (Nat.pos_of_ne_zero h.1)), fun h => ?_⟩
    refine ⟨?_, .inl hlarge⟩
    rintro rfl
    exact absurd h (by norm_num)
  · rcases Nat.lt_or_ge 32 size with hlarge | hsmall
    · obtain rfl | rfl : size = 33 ∨ size = 34 := by omega
      · norm_num
        omega
      · norm_num
        omega
    · have hpow : 2 ^ (8 * (size - 3)) ≤ 2 ^ 232 := Nat.pow_le_pow_right (by norm_num) (by omega)
      have hmul := Nat.mul_le_mul hmantissa.le hpow
      have hlt : 2 ^ 23 * 2 ^ 232 < 2 ^ 256 := by norm_num
      omega

theorem compactToTarget_overflow_iff : (compactToTarget compact).2.2 = true ↔
    2 ^ 256 ≤ scaled (compactSize compact) (compactMantissa compact) := by
  have hmantissa := compactMantissa_lt compact
  by_cases hsmall : compactSize compact ≤ 3
  · have hlt := scaled_lt_of_le hmantissa hsmall
    unfold compactSize at hsmall
    simp only [compactToTarget, decide_eq_true_eq]
    have hpow : 2 ^ 23 < 2 ^ 256 := by norm_num
    omega
  · rw [scaled, if_neg hsmall, ← overflow_shift_iff hmantissa]
    unfold compactSize at hsmall ⊢
    simp only [compactToTarget, if_neg hsmall, decide_eq_true_eq, compactMantissa]

end

theorem compactToTarget_eq_scaled {compact : UInt32} (h : (compactToTarget compact).2.2 = false) :
    (compactToTarget compact).1 = scaled (compactSize compact) (compactMantissa compact) := by
  have hlt : scaled (compactSize compact) (compactMantissa compact) < 2 ^ 256 := by
    by_contra hge
    rw [(compactToTarget_overflow_iff compact).mpr (Nat.le_of_not_lt hge)] at h
    cases h
  by_cases hsmall : compactSize compact ≤ 3
  · rw [scaled, if_pos hsmall]
    unfold compactSize at hsmall ⊢
    simp only [compactToTarget, if_pos hsmall]
    exact Nat.shiftRight_eq_div_pow _ _
  · rw [scaled, if_neg hsmall] at hlt ⊢
    unfold compactSize at hsmall hlt ⊢
    simp only [compactToTarget, if_neg hsmall, Nat.shiftLeft_eq]
    exact Nat.mod_eq_of_lt hlt

def signedLimit : ℕ → ℕ
  | 0 => 1
  | size+1 => 128 * 256 ^ size

def signedSize (target : ℕ) : ℕ :=
  if leadingBytes target < 2 ^ 23 then byteSize target else byteSize target + 1

def mantissaAt (size target : ℕ) : ℕ :=
  if size ≤ 3 then target * 2 ^ (8 * (3 - size)) else target / 2 ^ (8 * (size - 3))

theorem signedLimit_mono {m n : ℕ} (h : m ≤ n) : signedLimit m ≤ signedLimit n := by
  cases m with
  | zero =>
    cases n with
    | zero => exact le_rfl
    | succ n => exact Nat.mul_pos (by norm_num) (Nat.pow_pos (by norm_num))
  | succ m =>
    obtain ⟨n, rfl⟩ : ∃ k, n = k + 1 := Nat.exists_eq_succ_of_ne_zero (by omega)
    exact Nat.mul_le_mul_left _ (Nat.pow_le_pow_right (by norm_num) (Nat.le_of_succ_le_succ h))

variable {target : ℕ}

theorem byteSize_pos (h : target ≠ 0) : 0 < byteSize target := by
  rw [byteSize, bitsU256, if_neg h]
  omega

theorem pow_byteSize_le (h : target ≠ 0) : 256 ^ (byteSize target - 1) ≤ target := by
  rw [← two_pow_eight_mul]
  refine le_trans (Nat.pow_le_pow_right (by norm_num) ?_) (Nat.log2_self_le h)
  rw [byteSize, bitsU256, if_neg h]
  omega

theorem mantissaAt_lt_iff (size target : ℕ) :
    mantissaAt (size + 1) target < 2 ^ 23 ↔ target < signedLimit (size + 1) := by
  rw [mantissaAt, signedLimit]
  split_ifs with hsmall
  · obtain rfl | rfl | rfl : size = 0 ∨ size = 1 ∨ size = 2 := by omega
    · omega
    · omega
    · omega
  · obtain ⟨k, rfl⟩ : ∃ k, size = k + 2 := Nat.exists_eq_add_of_le' (by omega)
    have hpow : 2 ^ 23 * 256 ^ k = 128 * 256 ^ (k + 2) := by ring
    rw [show k + 2 + 1 - 3 = k by omega, two_pow_eight_mul,
      Nat.div_lt_iff_lt_mul (Nat.pow_pos (by norm_num)), hpow]

theorem signedSize_le_iff (target size : ℕ) :
    signedSize target ≤ size ↔ target < signedLimit size := by
  by_cases hzero : target = 0
  · subst hzero
    exact iff_of_true (Nat.zero_le _) (signedLimit_mono (Nat.zero_le size))
  obtain ⟨k, hk⟩ : ∃ k, byteSize target = k + 1 :=
    Nat.exists_eq_succ_of_ne_zero (byteSize_pos hzero).ne'
  have hlower := pow_byteSize_le hzero
  have hupper := lt_two_pow_byteSize target
  rw [two_pow_eight_mul, hk] at hupper
  rw [hk, Nat.add_sub_cancel] at hlower
  have hlead : leadingBytes target < 2 ^ 23 ↔ target < signedLimit (k + 1) := by
    rw [← mantissaAt_lt_iff, ← hk]
    rfl
  rw [signedSize, hk]
  split_ifs with hbit
  · have hclear := hlead.mp hbit
    refine ⟨fun h => hclear.trans_le (signedLimit_mono h), fun h => ?_⟩
    by_contra hlt
    have hle : signedLimit size ≤ 256 ^ k := by
      refine (signedLimit_mono (Nat.le_of_lt_succ (Nat.lt_of_not_le hlt))).trans ?_
      cases k with
      | zero => exact le_rfl
      | succ k =>
        rw [signedLimit, pow_succ]
        omega
    omega
  · refine ⟨fun h => ?_, fun h => ?_⟩
    · refine lt_of_lt_of_le ?_ (signedLimit_mono h)
      rw [signedLimit]
      omega
    · by_contra hlt
      exact hbit (hlead.mpr (h.trans_le (signedLimit_mono (by omega))))

theorem signedSize_mono {target' : ℕ} (h : target ≤ target') :
    signedSize target ≤ signedSize target' :=
  (signedSize_le_iff _ _).mpr (h.trans_lt ((signedSize_le_iff _ _).mp le_rfl))

theorem signedSize_le (h : target < 2 ^ 256) : signedSize target ≤ 33 := by
  refine (signedSize_le_iff _ _).mpr (h.trans_le ?_)
  rw [signedLimit]
  norm_num

theorem mantissaAt_succ (size target : ℕ) :
    mantissaAt (size + 1) target = mantissaAt size target / 256 := by
  simp only [mantissaAt, two_pow_eight_mul]
  split_ifs with h₁ h₂ h₃
  · obtain ⟨k, hk⟩ : ∃ k, 3 - size = k + 1 := Nat.exists_eq_succ_of_ne_zero (by omega)
    rw [hk, show 3 - (size + 1) = k by omega, pow_succ, ← mul_assoc, Nat.mul_div_cancel _ (by norm_num)]
  · omega
  · obtain rfl : size = 3 := by omega
    simp
  · obtain ⟨k, hk⟩ : ∃ k, size - 3 = k := ⟨_, rfl⟩
    rw [hk, show size + 1 - 3 = k + 1 by omega, pow_succ, Nat.div_div_eq_div_mul]

theorem mantissaAt_signedSize_lt (target : ℕ) : mantissaAt (signedSize target) target < 2 ^ 23 := by
  cases hsize : signedSize target with
  | zero =>
    have hzero : target < 1 := (signedSize_le_iff target 0).mp hsize.le
    obtain rfl : target = 0 := by omega
    decide
  | succ size => exact (mantissaAt_lt_iff size target).mpr ((signedSize_le_iff _ _).mp hsize.le)

theorem targetToCompact_toNat (h : target < 2 ^ 256) :
    (targetToCompact target).toNat =
      signedSize target * 2 ^ 24 + mantissaAt (signedSize target) target := by
  have hmantissa := mantissaAt_signedSize_lt target
  have hsize := signedSize_le h
  have heq : targetToCompact target =
      UInt32.ofNat (signedSize target * 2 ^ 24 + mantissaAt (signedSize target) target) := by
    rw [targetToCompact_eq]
    unfold signedSize
    split_ifs
    · rfl
    · rw [mantissaAt_succ]
      rfl
  have hlt : signedSize target * 2 ^ 24 + mantissaAt (signedSize target) target < 2 ^ 32 := by omega
  rw [heq, UInt32.toNat_ofNat_of_lt' hlt]

theorem targetToCompact_fields (h : target < 2 ^ 256) :
    compactSize (targetToCompact target) = signedSize target ∧
      compactMantissa (targetToCompact target) = mantissaAt (signedSize target) target := by
  have hmantissa := mantissaAt_signedSize_lt target
  rw [compactSize, compactMantissa, and_mantissaMask, Nat.shiftRight_eq_div_pow,
    targetToCompact_toNat h]
  omega

theorem scaled_mantissaAt (size target : ℕ) :
    scaled size (mantissaAt size target) = truncate 256 (size - 3) target := by
  simp only [scaled, mantissaAt, two_pow_eight_mul, truncate]
  split_ifs with hsmall
  · rw [Nat.mul_div_cancel _ (Nat.pow_pos (by norm_num)), Nat.sub_eq_zero_of_le hsmall, pow_zero,
      Nat.div_one, Nat.mul_one]
  · rfl

theorem signedLimit_add_three (k : ℕ) : signedLimit (k + 3) = 2 ^ 23 * 256 ^ k := by
  rw [signedLimit]
  ring

theorem isExponent_signedSize (target : ℕ) :
    IsExponent 256 (2 ^ 23) target (signedSize target - 3) := by
  refine ⟨?_, fun k hk => ?_⟩
  · rw [← signedLimit_add_three]
    exact (signedSize_le_iff _ _).mp (by omega)
  · rw [← signedLimit_add_three]
    by_contra hlt
    have hle := (signedSize_le_iff _ _).mpr (Nat.lt_of_not_le hlt)
    omega

theorem signedSize_truncate (h : 3 < signedSize target) :
    signedSize (truncate 256 (signedSize target - 3) target) = signedSize target := by
  refine le_antisymm (signedSize_mono (truncate_le 256 _ target)) ?_
  by_contra hlt
  obtain ⟨k, hk⟩ : ∃ k, signedSize target = k + 4 := Nat.exists_eq_add_of_le' h
  have hbelow := (signedSize_le_iff (truncate 256 (signedSize target - 3) target) (k + 3)).mp
    (by omega)
  have hkept := (isExponent_signedSize target).le_truncate_of_lt (by norm_num) (by norm_num)
    (show k < signedSize target - 3 by omega)
  rw [signedLimit_add_three] at hbelow
  omega

theorem targetToCompact_truncate (h : target < 2 ^ 256) :
    targetToCompact (truncate 256 (signedSize target - 3) target) = targetToCompact target := by
  by_cases hsmall : signedSize target ≤ 3
  · rw [Nat.sub_eq_zero_of_le hsmall, truncate, pow_zero, Nat.div_one, Nat.mul_one]
  · have hmantissa : mantissaAt (signedSize target) (truncate 256 (signedSize target - 3) target) =
        mantissaAt (signedSize target) target := by
      rw [mantissaAt, mantissaAt, if_neg hsmall, if_neg hsmall, two_pow_eight_mul,
        truncate_div (by norm_num)]
    refine UInt32.toNat_inj.mp ?_
    rw [targetToCompact_toNat ((truncate_le 256 _ target).trans_lt h), targetToCompact_toNat h,
      signedSize_truncate (Nat.lt_of_not_le hsmall), hmantissa]

theorem targetToCompact_mono {target' : ℕ} (h : target' < 2 ^ 256) (hle : target ≤ target') :
    (targetToCompact target).toNat ≤ (targetToCompact target').toNat := by
  rw [targetToCompact_toNat (hle.trans_lt h), targetToCompact_toNat h]
  have hmantissa := mantissaAt_signedSize_lt target
  rcases Nat.lt_or_eq_of_le (signedSize_mono hle) with hlt | heq
  · omega
  · rw [heq]
    refine Nat.add_le_add_left ?_ _
    unfold mantissaAt
    split_ifs
    · exact Nat.mul_le_mul_right _ hle
    · exact Nat.div_le_div_right hle

theorem decode_targetToCompact (h : target < 2 ^ 256) :
    compactToTarget (targetToCompact target) =
      (truncate 256 (signedSize target - 3) target, false, false) := by
  have hflags := (validBits_targetToCompact h).flags
  obtain ⟨hsize, hmantissa⟩ := targetToCompact_fields h
  have htarget := compactToTarget_eq_scaled (congrArg Prod.snd hflags)
  rw [hsize, hmantissa, scaled_mantissaAt] at htarget
  exact Prod.ext htarget hflags

/-- Encoding rounds down to the nearest compact target and keeps the order, and
decoding gives the floor of what the bits stand for. -/
theorem compact_targets :
    (∀ target < 2 ^ 256,
      (compactToTarget (targetToCompact target)).2 = (false, false) ∧
      IsGreatest {v | v ≤ target ∧ ∃ m k, m < 2 ^ 23 ∧ v = m * 256 ^ k}
        (compactToTarget (targetToCompact target)).1 ∧
      targetToCompact (compactToTarget (targetToCompact target)).1 = targetToCompact target) ∧
    (∀ target target' : ℕ, target' < 2 ^ 256 → target ≤ target' →
      targetToCompact target ≤ targetToCompact target') ∧
    ∀ compact : UInt32,
      ((compactToTarget compact).2.2 = true ↔ 2 ^ 256 ≤ compactValue compact) ∧
      ((compactToTarget compact).2 = (false, false) →
        ((compactToTarget compact).1 : ℤ) = ⌊compactValue compact⌋) := by
  refine ⟨fun target htarget => ?_, fun target target' htarget hle => ?_, fun compact => ⟨?_, ?_⟩⟩
  · rw [decode_targetToCompact htarget]
    exact ⟨rfl, (isExponent_signedSize target).isGreatest_truncate (by norm_num) (by norm_num),
      targetToCompact_truncate htarget⟩
  · exact UInt32.le_iff_toNat_le.mpr (targetToCompact_mono htarget hle)
  · rw [compactToTarget_overflow_iff, le_compactValue_iff]
  · intro hflags
    rw [compactToTarget_eq_scaled (congrArg Prod.snd hflags), floor_compactValue]

end Ironcat.CompactTarget
