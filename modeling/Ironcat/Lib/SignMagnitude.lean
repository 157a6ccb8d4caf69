import Ironcat.Lib.ByteCodec
import Mathlib.Data.Nat.Bitwise

/-!
# Sign and magnitude in bytes

Integers as little-endian magnitudes with the sign in the top bit of the last
byte. A value has many forms, since a magnitude can be padded and zero has both
signs, but only one shortest form.
-/

namespace Ironcat.Lib.SignMagnitude

open Lib.ByteCodec

def half (n : ℕ) : ℕ := 128 * 256 ^ (n - 1)

def value (data : Bytes) : ℤ :=
  if ofLeBytes data < half data.length then ofLeBytes data
  else -(ofLeBytes data - half data.length : ℤ)

variable {n : ℕ}

theorem half_mono {m : ℕ} (h : m ≤ n) : half m ≤ half n :=
  Nat.mul_le_mul_left _ (Nat.pow_le_pow_right (by norm_num) (by omega))

theorem two_mul_half (h : 0 < n) : 2 * half n = 256 ^ n := by
  obtain ⟨k, rfl⟩ : ∃ k, n = k + 1 := Nat.exists_eq_succ_of_ne_zero h.ne'
  rw [half, Nat.add_sub_cancel, pow_succ']
  omega

variable {data : Bytes}

theorem ofLeBytes_lt_half (h : data ≠ []) : ofLeBytes data < 2 * half data.length := by
  rw [two_mul_half (List.length_pos_iff.mpr h)]
  exact ofLeBytes_lt data

theorem natAbs_value_lt (h : data ≠ []) : (value data).natAbs < half data.length := by
  have hlt := ofLeBytes_lt_half h
  unfold value
  split_ifs <;> omega

theorem eq_of_value_eq {other : Bytes} (hlen : other.length = data.length)
    (hvalue : value other = value data) (hne : value data ≠ 0) : other = data := by
  have hnat : ofLeBytes other = ofLeBytes data := by
    unfold value at hvalue hne
    rw [hlen] at hvalue
    split_ifs at hvalue hne <;> omega
  rw [← leBytes_ofLeBytes other, ← leBytes_ofLeBytes data, hlen, hnat]

theorem exists_value_eq {v : ℤ} (hn : 0 < n) (hv : v.natAbs < half n) :
    ∃ data : Bytes, data.length = n ∧ value data = v := by
  have hpow := two_mul_half hn
  by_cases hneg : v < 0
  · refine ⟨leBytes n (half n + v.natAbs), leBytes_length _ _, ?_⟩
    rw [value, leBytes_length, ofLeBytes_leBytes (by omega), if_neg (by omega)]
    omega
  · refine ⟨leBytes n v.natAbs, leBytes_length _ _, ?_⟩
    rw [value, leBytes_length, ofLeBytes_leBytes (by omega), if_pos hv]
    omega

def IsShortest (data : Bytes) : Prop :=
  ∀ other, value other = value data → other ≠ data → data.length < other.length

theorem isShortest_nil : IsShortest [] := fun _ _ hne => List.length_pos_iff.mpr hne

theorem isShortest_of_half_le (hne : value data ≠ 0)
    (hlong : 1 < data.length → half (data.length - 1) ≤ (value data).natAbs) : IsShortest data := by
  intro other hvalue hother
  by_contra hlen
  have hcons : other ≠ [] := by
    rintro rfl
    exact hne hvalue.symm
  have hlt := natAbs_value_lt hcons
  have hpos := List.length_pos_iff.mpr hcons
  have hshort : other.length ≠ data.length := fun h => hother (eq_of_value_eq h hvalue hne)
  have hle := hlong (by omega)
  have hhalf : half other.length ≤ half (data.length - 1) := half_mono (by omega)
  rw [hvalue] at hlt
  omega

theorem IsShortest.length_le (h : IsShortest data) (hn : 0 < n)
    (hv : (value data).natAbs < half n) : data.length ≤ n := by
  obtain ⟨other, hlen, hvalue⟩ := exists_value_eq hn hv
  by_cases heq : other = data
  · rw [← heq, hlen]
  · have hlt := h other hvalue heq
    omega

section LastByte

variable {init : Bytes} {last : UInt8}

theorem half_concat (init : Bytes) (last : UInt8) :
    half (init ++ [last]).length = 128 * 256 ^ init.length := by
  simp [half]

theorem ofLeBytes_concat (init : Bytes) (last : UInt8) :
    ofLeBytes (init ++ [last]) = ofLeBytes init + 256 ^ init.length * last.toNat := by
  simp [ofLeBytes_append, ofLeBytes]

theorem concat_lt_half_iff :
    ofLeBytes (init ++ [last]) < half (init ++ [last]).length ↔ last.toNat < 128 := by
  have hlt := ofLeBytes_lt init
  rw [ofLeBytes_concat, half_concat, mul_comm 128]
  refine ⟨fun h => ?_, fun h => ?_⟩
  · by_contra hge
    have hmul := Nat.mul_le_mul_left (256 ^ init.length) (Nat.le_of_not_lt hge)
    omega
  · have hmul := Nat.mul_le_mul_left (256 ^ init.length) (Nat.succ_le_of_lt h)
    rw [Nat.mul_succ] at hmul
    omega

theorem value_concat_of_lt (h : last.toNat < 128) :
    value (init ++ [last]) = (ofLeBytes (init ++ [last]) : ℤ) := by
  rw [value, if_pos (concat_lt_half_iff.mpr h)]

theorem value_concat_of_le (h : 128 ≤ last.toNat) : value (init ++ [last]) =
    -((ofLeBytes init + 256 ^ init.length * (last.toNat - 128) : ℕ) : ℤ) := by
  rw [value, if_neg (fun hlt => Nat.not_lt_of_le h (concat_lt_half_iff.mp hlt)), half_concat,
    ofLeBytes_concat]
  push_cast [h]
  ring

theorem and_signBit (b : UInt8) : b &&& 0x80 ≠ 0 ↔ 128 ≤ b.toNat := by
  have hb := b.toNat_lt
  have hbit : (b &&& 0x80).toNat = b.toNat / 2 ^ 7 % 2 * 2 ^ 7 := by
    rw [UInt8.toNat_and, show (0x80 : UInt8).toNat = 2 ^ 7 from rfl, Nat.and_two_pow,
      Nat.toNat_testBit]
  rw [ne_eq, ← UInt8.toNat_inj, hbit, show (0 : UInt8).toNat = 0 from rfl]
  omega

theorem toNat_and_magnitude (b : UInt8) : (b &&& 0x7f).toNat = b.toNat % 128 := by
  rw [UInt8.toNat_and, show (0x7f : UInt8).toNat = 2 ^ 7 - 1 from rfl,
    Nat.and_two_pow_sub_one_eq_mod]

theorem toNat_or_signBit {b : UInt8} (h : b.toNat < 128) : (b ||| 0x80).toNat = 128 + b.toNat := by
  rw [UInt8.toNat_or, show (0x80 : UInt8).toNat = 2 ^ 7 * 1 from rfl, Nat.or_comm,
    ← Nat.two_pow_add_eq_or_of_lt h]

end LastByte

end Ironcat.Lib.SignMagnitude
