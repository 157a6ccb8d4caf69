import Ironcat.Difficulty
import Mathlib.Data.Nat.Bitwise

/-!
# Rounding of compact targets

A compact target is an exponent and a mantissa of 23 bits. Encoding drops low
bits only, so what is encoded decodes without a flag to a target that is no
greater.
-/

namespace Ironcat.CompactTarget

open Difficulty

def scaled (size mantissa : ℕ) : ℕ :=
  if size ≤ 3 then mantissa / 2 ^ (8 * (3 - size)) else mantissa * 2 ^ (8 * (size - 3))

section Decode

variable {compact : UInt32} {size mantissa : ℕ}

theorem and_signBit (n : ℕ) : n &&& 0x00800000 = 0 ↔ n / 2 ^ 23 % 2 = 0 := by
  have hand := Nat.and_two_pow n 23
  rw [show 0x00800000 = 2 ^ 23 from rfl, hand, Nat.testBit_eq_decide_div_mod_eq]
  simp

theorem and_mantissaMask (n : ℕ) : n &&& 0x007fffff = n % 2 ^ 23 :=
  Nat.and_two_pow_sub_one_eq_mod n 23

theorem compact_fields (hfields : compact.toNat = size * 2 ^ 24 + mantissa)
    (hmantissa : mantissa < 2 ^ 23) :
    compact.toNat >>> 24 = size ∧ compact.toNat &&& 0x007fffff = mantissa := by
  rw [and_mantissaMask, hfields, Nat.shiftRight_eq_div_pow]
  omega

theorem compactToTarget_fields (hfields : compact.toNat = size * 2 ^ 24 + mantissa)
    (hmantissa : mantissa < 2 ^ 23) (hsize : size ≤ 33) (hlarge : size = 33 → mantissa < 2 ^ 16) :
    (compactToTarget compact).1 ≤ scaled size mantissa ∧
      (compactToTarget compact).2 = (false, false) := by
  obtain ⟨hexponent, hword⟩ := compact_fields hfields hmantissa
  have hsign : compact.toNat &&& 0x00800000 = 0 := by
    rw [and_signBit, hfields]
    omega
  simp only [compactToTarget, hexponent, hword, hsign, scaled]
  by_cases hsmall : size ≤ 3
  · simp only [hsmall, if_true, Nat.shiftRight_eq_div_pow]
    refine ⟨le_rfl, ?_⟩
    simp only [Prod.mk.injEq, decide_eq_false_iff_not]
    omega
  · simp only [hsmall, if_false, Nat.shiftLeft_eq]
    refine ⟨Nat.mod_le _ _, ?_⟩
    simp only [Prod.mk.injEq, decide_eq_false_iff_not]
    omega

end Decode

def byteSize (target : ℕ) : ℕ := (bitsU256 target + 7) / 8

theorem lt_two_pow_bitsU256 (target : ℕ) : target < 2 ^ bitsU256 target := by
  unfold bitsU256
  split_ifs with h
  · omega
  · exact Nat.lt_log2_self

theorem lt_two_pow_byteSize (target : ℕ) : target < 2 ^ (8 * byteSize target) :=
  (lt_two_pow_bitsU256 target).trans_le (Nat.pow_le_pow_right (by norm_num) (by
    unfold byteSize
    omega))

theorem byteSize_le {target : ℕ} (h : target < 2 ^ 256) : byteSize target ≤ 32 := by
  unfold byteSize bitsU256
  split_ifs with hzero
  · omega
  · have hlog := (Nat.log2_lt hzero).mpr h
    omega

def leadingBytes (target : ℕ) : ℕ :=
  if byteSize target ≤ 3 then target * 2 ^ (8 * (3 - byteSize target))
  else target / 2 ^ (8 * (byteSize target - 3))

theorem leadingBytes_lt (target : ℕ) : leadingBytes target < 2 ^ 24 := by
  have hlt := lt_two_pow_byteSize target
  unfold leadingBytes
  split_ifs with h
  · calc target * 2 ^ (8 * (3 - byteSize target))
        < 2 ^ (8 * byteSize target) * 2 ^ (8 * (3 - byteSize target)) :=
          Nat.mul_lt_mul_of_pos_right hlt (Nat.two_pow_pos _)
      _ = 2 ^ 24 := by rw [← pow_add]; congr 1; omega
  · refine Nat.div_lt_of_lt_mul ?_
    rw [← pow_add]
    exact hlt.trans_le (Nat.pow_le_pow_right (by norm_num) (by omega))

theorem scaled_leadingBytes_le (target : ℕ) :
    scaled (byteSize target) (leadingBytes target) ≤ target := by
  unfold scaled leadingBytes
  split_ifs with h
  · rw [Nat.mul_div_cancel _ (Nat.two_pow_pos _)]
  · exact Nat.div_mul_le_self _ _

theorem scaled_succ_div_le (size mantissa : ℕ) :
    scaled (size + 1) (mantissa / 256) ≤ scaled size mantissa := by
  unfold scaled
  split_ifs with h₁ h₂ h₃
  · have hpow : 2 ^ (8 * (3 - size)) = 256 * 2 ^ (8 * (3 - (size + 1))) := by
      rw [show 8 * (3 - size) = 8 + 8 * (3 - (size + 1)) by omega, pow_add]
      norm_num
    rw [hpow, Nat.div_div_eq_div_mul]
  · omega
  · obtain rfl : size = 3 := by omega
    simpa using Nat.div_mul_le_self mantissa 256
  · have hpow : 2 ^ (8 * (size + 1 - 3)) = 256 * 2 ^ (8 * (size - 3)) := by
      rw [show 8 * (size + 1 - 3) = 8 + 8 * (size - 3) by omega, pow_add]
      norm_num
    rw [hpow, ← mul_assoc]
    exact Nat.mul_le_mul_right _ (Nat.div_mul_le_self _ _)

theorem targetToCompact_eq (target : ℕ) : targetToCompact target =
    if leadingBytes target < 2 ^ 23 then
      UInt32.ofNat (byteSize target * 2 ^ 24 + leadingBytes target)
    else UInt32.ofNat ((byteSize target + 1) * 2 ^ 24 + leadingBytes target / 256) := by
  have hlead := leadingBytes_lt target
  have hmod : (if byteSize target ≤ 3 then (target <<< (8 * (3 - byteSize target))) % 2 ^ 32
      else (target >>> (8 * (byteSize target - 3))) % 2 ^ 32) = leadingBytes target := by
    rw [← apply_ite (· % 2 ^ 32), Nat.shiftLeft_eq, Nat.shiftRight_eq_div_pow]
    exact Nat.mod_eq_of_lt (hlead.trans (by norm_num))
  have hpack : ∀ size mantissa : ℕ, mantissa < 2 ^ 23 →
      (mantissa &&& 0x007fffff) ||| (size <<< 24) = size * 2 ^ 24 + mantissa := by
    intro size mantissa hm
    rw [and_mantissaMask, Nat.mod_eq_of_lt hm, Nat.or_comm,
      ← Nat.shiftLeft_add_eq_or_of_lt (hm.trans (by norm_num)), Nat.shiftLeft_eq]
  have hsign : leadingBytes target &&& 0x00800000 ≠ 0 ↔ ¬ leadingBytes target < 2 ^ 23 := by
    rw [ne_eq, and_signBit]
    omega
  have hbytes : (bitsU256 target + 7) / 8 = byteSize target := rfl
  simp only [targetToCompact, hbytes, hmod, hsign, ite_not]
  split_ifs with h
  · rw [hpack _ _ h]
  · rw [Nat.shiftRight_eq_div_pow, hpack _ _ (by omega)]

/-- Compact bits that decode without a flag to a target within the limit. -/
structure ValidBits (limit : ℕ) (bits : UInt32) : Prop where
  target_le : (compactToTarget bits).1 ≤ limit
  flags : (compactToTarget bits).2 = (false, false)

instance (limit : ℕ) (bits : UInt32) : Decidable (ValidBits limit bits) :=
  decidable_of_iff ((compactToTarget bits).1 ≤ limit ∧ (compactToTarget bits).2 = (false, false))
    ⟨fun h => ⟨h.1, h.2⟩, fun h => ⟨h.1, h.2⟩⟩

theorem ValidBits.mono {limit limit' : ℕ} {bits : UInt32} (h : ValidBits limit bits)
    (hle : limit ≤ limit') : ValidBits limit' bits :=
  ⟨h.target_le.trans hle, h.flags⟩

theorem validBits_targetToCompact {target : ℕ} (htarget : target < 2 ^ 256) :
    ValidBits target (targetToCompact target) := by
  have hsize := byteSize_le htarget
  have hlead := leadingBytes_lt target
  have hle := scaled_leadingBytes_le target
  have htoNat : ∀ n < 2 ^ 32, (UInt32.ofNat n).toNat = n := fun n hn => UInt32.toNat_ofNat_of_lt' hn
  rw [targetToCompact_eq]
  split_ifs with h
  · have hfields := compactToTarget_fields
      (htoNat (byteSize target * 2 ^ 24 + leadingBytes target) (by omega)) h (by omega) (by omega)
    exact ⟨hfields.1.trans hle, hfields.2⟩
  · have hfields := compactToTarget_fields
      (htoNat ((byteSize target + 1) * 2 ^ 24 + leadingBytes target / 256) (by omega)) (by omega)
      (by omega) (by omega)
    exact ⟨hfields.1.trans ((scaled_succ_div_le _ _).trans hle), hfields.2⟩

example : ValidBits (2 ^ 236 - 1) 0x1e0fffff := by decide +kernel

end Ironcat.CompactTarget
