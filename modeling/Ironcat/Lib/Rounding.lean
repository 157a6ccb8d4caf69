import Mathlib.Order.Bounds.Basic
import Mathlib.Tactic

/-!
# Rounding down to a short mantissa

Numbers `m * B ^ k` with a mantissa `m` below `M`. Cutting off the low digits
under the least exponent for which the mantissa fits gives the greatest such
number that is not above the given one.
-/

namespace Ironcat.Lib.Rounding

variable {B M e t v : ℕ}

def IsFloat (B M v : ℕ) : Prop := ∃ m k, m < M ∧ v = m * B ^ k

def truncate (B e t : ℕ) : ℕ := t / B ^ e * B ^ e

structure IsExponent (B M t e : ℕ) : Prop where
  fits : t < M * B ^ e
  least : ∀ k < e, M * B ^ k ≤ t

theorem truncate_le (B e t : ℕ) : truncate B e t ≤ t := Nat.div_mul_le_self t _

theorem le_truncate_of_dvd (hB : 0 < B) (hdvd : B ^ e ∣ v) (hle : v ≤ t) : v ≤ truncate B e t := by
  obtain ⟨q, rfl⟩ := hdvd
  have hq : q ≤ t / B ^ e := (Nat.le_div_iff_mul_le (Nat.pow_pos hB)).mpr (by rwa [mul_comm])
  rw [truncate, mul_comm]
  exact Nat.mul_le_mul_right _ hq

theorem truncate_div (hB : 0 < B) : truncate B e t / B ^ e = t / B ^ e :=
  Nat.mul_div_cancel _ (Nat.pow_pos hB)

theorem IsExponent.div_lt (h : IsExponent B M t e) : t / B ^ e < M :=
  Nat.div_lt_of_lt_mul (by rw [mul_comm]; exact h.fits)

theorem IsExponent.le_truncate_of_lt (h : IsExponent B M t e) (hB : 0 < B) (hBM : B ∣ M) {k : ℕ}
    (hk : k < e) : M * B ^ k ≤ truncate B e t := by
  obtain ⟨q, rfl⟩ := hBM
  obtain ⟨j, rfl⟩ : ∃ j, e = j + 1 := Nat.exists_eq_succ_of_ne_zero (by omega)
  have hdvd : B ^ (j + 1) ∣ B * q * B ^ j := ⟨q, by ring⟩
  refine le_trans ?_ (le_truncate_of_dvd hB hdvd (h.least j (Nat.lt_succ_self j)))
  exact Nat.mul_le_mul_left _ (Nat.pow_le_pow_right hB (Nat.le_of_lt_succ hk))

theorem IsExponent.isGreatest_truncate (h : IsExponent B M t e) (hB : 0 < B) (hBM : B ∣ M) :
    IsGreatest {v | v ≤ t ∧ IsFloat B M v} (truncate B e t) := by
  refine ⟨⟨truncate_le B e t, t / B ^ e, e, h.div_lt, rfl⟩, ?_⟩
  rintro v ⟨hle, m, k, hm, rfl⟩
  rcases Nat.lt_or_ge k e with hk | hk
  · exact (Nat.mul_le_mul_right _ hm.le).trans (h.le_truncate_of_lt hB hBM hk)
  · exact le_truncate_of_dvd hB (Dvd.dvd.mul_left (pow_dvd_pow B hk) m) hle

end Ironcat.Lib.Rounding
