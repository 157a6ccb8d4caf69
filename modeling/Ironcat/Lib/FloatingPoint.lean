import Mathlib.Algebra.Order.Round
import Mathlib.Data.Int.Log
import Mathlib.Data.Rat.Floor
import Mathlib.Tactic.Linarith
import Mathlib.Tactic.Positivity
import Mathlib.Tactic.Ring

/-!
# Binary floating point

A format with gradual underflow, the rounding to nearest with ties to even, and
arithmetic with signed zeros, infinities and not-a-numbers. Rounding is monotone,
odd and keeps the numbers of the format; bounds of computed values follow from
these three facts alone.
-/

namespace Ironcat.Lib.FloatingPoint

def roundHalfEven (q : ℚ) : ℤ :=
  let n := ⌊q⌋
  let rest := q - n
  if rest < 1 / 2 then n else if 1 / 2 < rest then n + 1 else if n % 2 = 0 then n else n + 1

theorem roundHalfEven_intCast (n : ℤ) : roundHalfEven n = n := by
  simp [roundHalfEven]

theorem floor_le_roundHalfEven (q : ℚ) : ⌊q⌋ ≤ roundHalfEven q := by
  unfold roundHalfEven
  dsimp only
  split_ifs <;> omega

theorem roundHalfEven_le_floor (q : ℚ) : roundHalfEven q ≤ ⌊q⌋ + 1 := by
  unfold roundHalfEven
  dsimp only
  split_ifs <;> omega

theorem roundHalfEven_mono {x y : ℚ} (hxy : x ≤ y) : roundHalfEven x ≤ roundHalfEven y := by
  rcases (Int.floor_mono hxy).lt_or_eq with hlt | heq
  · calc roundHalfEven x ≤ ⌊x⌋ + 1 := roundHalfEven_le_floor x
      _ ≤ ⌊y⌋ := hlt
      _ ≤ roundHalfEven y := floor_le_roundHalfEven y
  · unfold roundHalfEven
    dsimp only
    rw [heq]
    split_ifs <;> first | omega | (exfalso; linarith)

theorem roundHalfEven_neg (q : ℚ) : roundHalfEven (-q) = -roundHalfEven q := by
  by_cases hint : (⌊q⌋ : ℚ) = q
  · rw [← hint, ← Int.cast_neg, roundHalfEven_intCast, roundHalfEven_intCast]
  · have hlt : (⌊q⌋ : ℚ) < q := lt_of_le_of_ne (Int.floor_le q) hint
    have hgt : q < ⌊q⌋ + 1 := Int.lt_floor_add_one q
    have hfloor : ⌊-q⌋ = -⌊q⌋ - 1 := by
      rw [Int.floor_eq_iff]
      push_cast
      constructor <;> linarith
    unfold roundHalfEven
    dsimp only
    rw [hfloor]
    push_cast
    split_ifs <;> first | omega | (exfalso; linarith)

structure Format where
  precision : ℕ
  minExponent : ℤ
  maxExponent : ℤ
  precision_pos : 0 < precision

variable {n e : ℤ}

namespace Format

variable (f : Format)

def unit (q : ℚ) : ℤ := max f.minExponent (Int.log 2 |q| + 1 - f.precision)

def round (q : ℚ) : ℚ := roundHalfEven (q / 2 ^ f.unit q) * 2 ^ f.unit q

def Representable (q : ℚ) : Prop :=
  ∃ m e : ℤ, |m| < 2 ^ f.precision ∧ f.minExponent ≤ e ∧ q = m * 2 ^ e

variable {f} {x y : ℚ}

theorem two_zpow_pos (e : ℤ) : (0 : ℚ) < 2 ^ e := zpow_pos two_pos e

theorem two_zpow_add (a b : ℤ) : (2 : ℚ) ^ (a + b) = 2 ^ a * 2 ^ b := zpow_add₀ two_ne_zero a b

theorem zpow_le_zpow {a b : ℤ} (h : a ≤ b) : (2 : ℚ) ^ a ≤ 2 ^ b := zpow_le_zpow_right₀ one_le_two h

theorem unit_neg (q : ℚ) : f.unit (-q) = f.unit q := by
  rw [unit, unit, abs_neg]

theorem round_neg (q : ℚ) : f.round (-q) = -f.round q := by
  rw [round, round, unit_neg, neg_div, roundHalfEven_neg, Int.cast_neg, neg_mul]

@[simp] theorem round_zero : f.round 0 = 0 := by
  have h := roundHalfEven_intCast 0
  rw [Int.cast_zero] at h
  simp [round, h]

theorem round_nonneg (h : 0 ≤ x) : 0 ≤ f.round x := by
  have hnum : (0 : ℤ) ≤ roundHalfEven (x / 2 ^ f.unit x) := by
    rw [← roundHalfEven_intCast 0, Int.cast_zero]
    exact roundHalfEven_mono (div_nonneg h (two_zpow_pos _).le)
  exact mul_nonneg (Int.cast_nonneg hnum) (two_zpow_pos _).le

theorem le_round_of_multiple (h : n * 2 ^ f.unit x ≤ x) : n * 2 ^ f.unit x ≤ f.round x := by
  refine mul_le_mul_of_nonneg_right ?_ (two_zpow_pos _).le
  rw [Int.cast_le, ← roundHalfEven_intCast n]
  exact roundHalfEven_mono ((le_div_iff₀ (two_zpow_pos _)).mpr h)

theorem round_le_of_multiple (h : x ≤ n * 2 ^ f.unit x) : f.round x ≤ n * 2 ^ f.unit x := by
  refine mul_le_mul_of_nonneg_right ?_ (two_zpow_pos _).le
  rw [Int.cast_le, ← roundHalfEven_intCast n]
  exact roundHalfEven_mono ((div_le_iff₀ (two_zpow_pos _)).mpr h)

theorem two_zpow_eq_multiple {u : ℤ} (h : u ≤ e) :
    (2 : ℚ) ^ e = ((2 ^ (e - u).toNat : ℤ) : ℚ) * 2 ^ u := by
  have he : ((e - u).toNat : ℤ) = e - u := Int.toNat_of_nonneg (by omega)
  rw [Int.cast_pow, Int.cast_ofNat, ← zpow_natCast, he, ← two_zpow_add]
  congr 1
  omega

theorem unit_mono (hx : 0 < x) (hxy : x ≤ y) : f.unit x ≤ f.unit y := by
  have hlog : Int.log 2 |x| ≤ Int.log 2 |y| := by
    rw [abs_of_pos hx, abs_of_pos (hx.trans_le hxy)]
    exact Int.log_mono_right hx hxy
  unfold unit
  omega

theorem lt_two_zpow_unit (hx : 0 < x) : x < 2 ^ (f.unit x + f.precision) := by
  have hlog := Int.lt_zpow_succ_log_self (b := 2) one_lt_two x
  refine hlog.trans_le (zpow_le_zpow ?_)
  rw [unit, abs_of_pos hx]
  omega

theorem round_mono_of_pos (hx : 0 < x) (hxy : x ≤ y) : f.round x ≤ f.round y := by
  rcases (unit_mono (f := f) hx hxy).lt_or_eq with hlt | heq
  · -- the power at which the last place changes lies between the two
    have hy : 0 < y := hx.trans_le hxy
    have hunit : f.unit y = Int.log 2 y + 1 - f.precision := by
      have hmin : f.minExponent ≤ f.unit x := le_max_left _ _
      unfold unit at hlt hmin ⊢
      rw [abs_of_pos hy] at hlt ⊢
      omega
    have hpos := f.precision_pos
    have hprec : f.unit x + f.precision ≤ Int.log 2 y := by omega
    have hxle : x ≤ 2 ^ Int.log 2 y := (lt_two_zpow_unit hx).le.trans (zpow_le_zpow hprec)
    have hyge : (2 : ℚ) ^ Int.log 2 y ≤ y := Int.zpow_log_le_self one_lt_two hy
    calc f.round x ≤ 2 ^ Int.log 2 y := by
          rw [two_zpow_eq_multiple (by omega : f.unit x ≤ Int.log 2 y)] at hxle ⊢
          exact round_le_of_multiple hxle
      _ ≤ f.round y := by
          rw [two_zpow_eq_multiple (by omega : f.unit y ≤ Int.log 2 y)] at hyge ⊢
          exact le_round_of_multiple hyge
  · unfold round
    rw [heq]
    refine mul_le_mul_of_nonneg_right (Int.cast_le.mpr (roundHalfEven_mono ?_)) (two_zpow_pos _).le
    exact div_le_div_of_nonneg_right hxy (two_zpow_pos _).le

theorem round_mono (hxy : x ≤ y) : f.round x ≤ f.round y := by
  rcases lt_or_ge 0 x with hx | hx
  · exact round_mono_of_pos hx hxy
  rcases lt_or_ge y 0 with hy | hy
  · have h := round_mono_of_pos (f := f) (neg_pos.mpr hy) (neg_le_neg hxy)
    rwa [round_neg, round_neg, neg_le_neg_iff] at h
  · have hneg := round_nonneg (f := f) (neg_nonneg.mpr hx)
    rw [round_neg] at hneg
    exact (neg_nonneg.mp hneg).trans (round_nonneg hy)

theorem unit_le_of_representable {m : ℤ} (hm : |m| < 2 ^ f.precision) (he : f.minExponent ≤ e)
    (hne : m ≠ 0) : f.unit (m * 2 ^ e) ≤ e := by
  have hpos : (0 : ℚ) < |(m : ℚ) * 2 ^ e| := by
    rw [abs_pos]
    exact mul_ne_zero (Int.cast_ne_zero.mpr hne) (two_zpow_pos e).ne'
  have hlt : |(m : ℚ) * 2 ^ e| < 2 ^ (f.precision + e) := by
    rw [abs_mul, abs_of_pos (two_zpow_pos e), two_zpow_add, zpow_natCast]
    refine mul_lt_mul_of_pos_right ?_ (two_zpow_pos e)
    exact_mod_cast hm
  have hlog : Int.log 2 |(m : ℚ) * 2 ^ e| < f.precision + e := by
    rw [← zpow_lt_zpow_iff_right₀ (one_lt_two (α := ℚ))]
    exact (Int.zpow_log_le_self one_lt_two hpos).trans_lt hlt
  unfold unit
  omega

theorem round_of_representable (h : f.Representable x) : f.round x = x := by
  obtain ⟨m, e, hm, he, rfl⟩ := h
  by_cases hne : m = 0
  · simp [hne]
  obtain ⟨n, hn⟩ : ∃ n : ℤ, (m : ℚ) * 2 ^ e = n * 2 ^ f.unit (m * 2 ^ e) := by
    refine ⟨m * 2 ^ (e - f.unit (m * 2 ^ e)).toNat, ?_⟩
    rw [Int.cast_mul, mul_assoc, ← two_zpow_eq_multiple (unit_le_of_representable hm he hne)]
  refine le_antisymm ((round_le_of_multiple hn.le).trans hn.ge) ?_
  exact hn.le.trans (le_round_of_multiple hn.ge)

theorem representable_neg (h : f.Representable x) : f.Representable (-x) := by
  obtain ⟨m, e, hm, he, rfl⟩ := h
  exact ⟨-m, e, by rwa [abs_neg], he, by push_cast; ring⟩

theorem representable_zero : f.Representable 0 :=
  ⟨0, f.minExponent, by simp, le_rfl, by simp⟩

theorem representable_two_zpow (he : f.minExponent ≤ e) : f.Representable (2 ^ e) := by
  refine ⟨1, e, ?_, he, by simp⟩
  rw [abs_one]
  exact one_lt_pow₀ one_lt_two f.precision_pos.ne'

theorem representable_round_of_pos (hx : 0 < x) : f.Representable (f.round x) := by
  obtain ⟨n, hn⟩ : ∃ n : ℤ, f.round x = n * 2 ^ f.unit x := ⟨_, rfl⟩
  have hle : f.round x ≤ ((2 ^ f.precision : ℤ) : ℚ) * 2 ^ f.unit x := by
    refine round_le_of_multiple ((lt_two_zpow_unit (f := f) hx).le.trans_eq ?_)
    rw [add_comm, two_zpow_add, zpow_natCast]
    push_cast
    rfl
  have hnonneg : 0 ≤ f.round x := round_nonneg hx.le
  rw [hn] at hle hnonneg ⊢
  have hmin : f.minExponent ≤ f.unit x := le_max_left _ _
  have hn0 : 0 ≤ n := Int.cast_nonneg_iff.mp (nonneg_of_mul_nonneg_left hnonneg (two_zpow_pos _))
  have hnle : n ≤ 2 ^ f.precision := Int.cast_le.mp (le_of_mul_le_mul_right hle (two_zpow_pos _))
  rcases hnle.lt_or_eq with hlt | heq
  · exact ⟨n, f.unit x, by rwa [abs_of_nonneg hn0], hmin, rfl⟩
  · have hpow : (n : ℚ) * 2 ^ f.unit x = 2 ^ (f.precision + f.unit x) := by
      rw [heq, two_zpow_add, zpow_natCast]
      push_cast
      rfl
    rw [hpow]
    exact representable_two_zpow (by omega)

theorem representable_round (x : ℚ) : f.Representable (f.round x) := by
  rcases lt_trichotomy x 0 with hx | rfl | hx
  · have h := representable_neg (representable_round_of_pos (f := f) (neg_pos.mpr hx))
    rwa [round_neg, neg_neg] at h
  · rw [round_zero]
    exact representable_zero
  · exact representable_round_of_pos hx

theorem round_le (h : x ≤ y) (hy : f.Representable y) : f.round x ≤ y :=
  (round_mono h).trans_eq (round_of_representable hy)

theorem le_round (h : x ≤ y) (hx : f.Representable x) : x ≤ f.round y :=
  (round_of_representable hx).ge.trans (round_mono h)

theorem abs_round_le (h : |x| ≤ y) (hy : f.Representable y) : |f.round x| ≤ y := by
  rw [abs_le] at h ⊢
  exact ⟨le_round h.1 (representable_neg hy), round_le h.2 hy⟩

theorem abs_round (x : ℚ) : |f.round x| = f.round |x| := by
  rcases le_total 0 x with hx | hx
  · rw [abs_of_nonneg hx, abs_of_nonneg (round_nonneg hx)]
  · have hneg := round_nonneg (f := f) (neg_nonneg.mpr hx)
    rw [round_neg] at hneg
    rw [abs_of_nonpos hx, abs_of_nonpos (neg_nonneg.mp hneg), round_neg]

theorem round_le_two_mul (h : 2 ^ f.minExponent ≤ x) : f.round x ≤ 2 * x := by
  have hx : 0 < x := (two_zpow_pos _).trans_le h
  have hlt : x < 2 ^ (Int.log 2 x + 1) := Int.lt_zpow_succ_log_self one_lt_two x
  have hmin : f.minExponent < Int.log 2 x + 1 :=
    (zpow_lt_zpow_iff_right₀ one_lt_two).mp (h.trans_lt hlt)
  calc f.round x ≤ 2 ^ (Int.log 2 x + 1) := round_le hlt.le (representable_two_zpow hmin.le)
    _ = 2 * 2 ^ Int.log 2 x := by rw [two_zpow_add, zpow_one, mul_comm]
    _ ≤ 2 * x := mul_le_mul_of_nonneg_left (Int.zpow_log_le_self one_lt_two hx) two_pos.le

theorem representable_intCast (hn : |n| < 2 ^ f.precision) (hmin : f.minExponent ≤ 0) :
    f.Representable n :=
  ⟨n, 0, hn, hmin, by simp⟩

end Format

def binary64 : Format := ⟨53, -1074, 1024, by decide⟩

def Format.Magnitude (f : Format) : Type :=
  {q : ℚ // 0 ≤ q ∧ f.Representable q ∧ q < 2 ^ f.maxExponent}

inductive Value (f : Format)
  | nan
  | infinite (negative : Bool)
  | finite (negative : Bool) (magnitude : f.Magnitude)

namespace Value

variable {f : Format}

def signed (negative : Bool) (magnitude : f.Magnitude) : ℚ :=
  if negative then -magnitude.1 else magnitude.1

def toRat : Value f → Option ℚ
  | finite negative magnitude => some (signed negative magnitude)
  | _ => none

variable {q : ℚ}

theorem magnitude_of_lt (h : f.round |q| < 2 ^ f.maxExponent) :
    0 ≤ f.round |q| ∧ f.Representable (f.round |q|) ∧ f.round |q| < 2 ^ f.maxExponent :=
  ⟨Format.round_nonneg (abs_nonneg q), Format.representable_round _, h⟩

def ofExact (zeroSign : Bool) (q : ℚ) : Value f :=
  let negative := if q = 0 then zeroSign else decide (q < 0)
  if h : f.round |q| < 2 ^ f.maxExponent then finite negative ⟨f.round |q|, magnitude_of_lt h⟩
  else infinite negative

def ofRat (q : ℚ) : Value f := ofExact false q

def ofInt (n : ℤ) : Value f := ofRat n

def neg : Value f → Value f
  | nan => nan
  | infinite negative => infinite !negative
  | finite negative magnitude => finite (!negative) magnitude

def mul : Value f → Value f → Value f
  | nan, _ | _, nan => nan
  | infinite s, infinite t => infinite (s ^^ t)
  | infinite s, finite t b => if b.1 = 0 then nan else infinite (s ^^ t)
  | finite s a, infinite t => if a.1 = 0 then nan else infinite (s ^^ t)
  | finite s a, finite t b => ofExact (s ^^ t) (signed s a * signed t b)

def div : Value f → Value f → Value f
  | nan, _ | _, nan | infinite _, infinite _ => nan
  | infinite s, finite t _ => infinite (s ^^ t)
  | finite s _, infinite t => ofExact (s ^^ t) 0
  | finite s a, finite t b =>
    if b.1 = 0 then if a.1 = 0 then nan else infinite (s ^^ t)
    else ofExact (s ^^ t) (signed s a / signed t b)

def add : Value f → Value f → Value f
  | nan, _ | _, nan => nan
  | infinite s, infinite t => if s = t then infinite s else nan
  | infinite s, finite _ _ | finite _ _, infinite s => infinite s
  | finite s a, finite t b => ofExact (s && t) (signed s a + signed t b)

def toInt (lo hi : ℤ) : Value f → ℤ
  | nan => 0
  | infinite negative => if negative then lo else hi
  | finite negative magnitude =>
    let whole := ⌊magnitude.1⌋
    max lo (min hi (if negative then -whole else whole))

variable {x y : Value f} {a b : ℚ}

theorem round_abs_lt (hq : |q| ≤ 2 ^ e) (hmin : f.minExponent ≤ e) (hmax : e < f.maxExponent) :
    f.round |q| < 2 ^ f.maxExponent :=
  (Format.round_le hq (Format.representable_two_zpow hmin)).trans_lt
    ((zpow_lt_zpow_iff_right₀ one_lt_two).mpr hmax)

theorem toRat_ofExact {z : Bool} (h : f.round |q| < 2 ^ f.maxExponent) :
    (ofExact z q : Value f).toRat = some (f.round q) := by
  unfold ofExact
  simp only [h, dite_true, toRat, signed, Option.some_inj]
  rcases lt_trichotomy q 0 with hq | rfl | hq
  · simp [hq, hq.ne, abs_of_neg, Format.round_neg]
  · simp
  · simp [hq.ne', hq.not_gt, abs_of_pos hq]

theorem exists_finite (h : x.toRat = some a) : ∃ s m, x = finite s m ∧ signed s m = a := by
  cases x with
  | nan => cases h
  | infinite s => cases h
  | finite s m => exact ⟨s, m, rfl, Option.some.inj h⟩

theorem signed_eq_zero {s : Bool} {m : f.Magnitude} : signed s m = 0 ↔ m.1 = 0 := by
  unfold signed
  split_ifs <;> simp

theorem toRat_neg (h : x.toRat = some a) : x.neg.toRat = some (-a) := by
  obtain ⟨s, m, rfl, rfl⟩ := exists_finite h
  cases s <;> simp [neg, toRat, signed]

theorem toRat_mul (hx : x.toRat = some a) (hy : y.toRat = some b)
    (h : f.round |a * b| < 2 ^ f.maxExponent) : (x.mul y).toRat = some (f.round (a * b)) := by
  obtain ⟨s, m, rfl, rfl⟩ := exists_finite hx
  obtain ⟨t, n, rfl, rfl⟩ := exists_finite hy
  exact toRat_ofExact h

theorem toRat_add (hx : x.toRat = some a) (hy : y.toRat = some b)
    (h : f.round |a + b| < 2 ^ f.maxExponent) : (x.add y).toRat = some (f.round (a + b)) := by
  obtain ⟨s, m, rfl, rfl⟩ := exists_finite hx
  obtain ⟨t, n, rfl, rfl⟩ := exists_finite hy
  exact toRat_ofExact h

theorem toRat_div (hx : x.toRat = some a) (hy : y.toRat = some b) (hb : b ≠ 0)
    (h : f.round |a / b| < 2 ^ f.maxExponent) : (x.div y).toRat = some (f.round (a / b)) := by
  obtain ⟨s, m, rfl, rfl⟩ := exists_finite hx
  obtain ⟨t, n, rfl, rfl⟩ := exists_finite hy
  have hn : n.1 ≠ 0 := fun h0 => hb (signed_eq_zero.mpr h0)
  rw [div, if_neg hn]
  exact toRat_ofExact h

structure Fits (x : Value f) (q : ℚ) (e : ℤ) : Prop where
  value : x.toRat = some q
  bound : |q| ≤ 2 ^ e

theorem Fits.ofExact {z : Bool} {q : ℚ} {e : ℤ} (hq : |q| ≤ 2 ^ e) (hmin : f.minExponent ≤ e)
    (hmax : e < f.maxExponent) : Fits (ofExact z q : Value f) (f.round q) e :=
  ⟨toRat_ofExact (round_abs_lt hq hmin hmax),
    Format.abs_round_le hq (Format.representable_two_zpow hmin)⟩

theorem Fits.neg (h : Fits x a e) : Fits x.neg (-a) e :=
  ⟨toRat_neg h.value, by rw [abs_neg]; exact h.bound⟩

theorem Fits.mul {d : ℤ} (hx : Fits x a d) (hy : Fits y b e) (hmin : f.minExponent ≤ d + e)
    (hmax : d + e < f.maxExponent) : Fits (x.mul y) (f.round (a * b)) (d + e) := by
  have hbound : |a * b| ≤ 2 ^ (d + e) := by
    rw [abs_mul, Format.two_zpow_add]
    exact mul_le_mul hx.bound hy.bound (abs_nonneg b) (Format.two_zpow_pos d).le
  exact ⟨toRat_mul hx.value hy.value (round_abs_lt hbound hmin hmax),
    Format.abs_round_le hbound (Format.representable_two_zpow hmin)⟩

theorem Fits.div {d : ℤ} (hx : Fits x a d) (hy : Fits y b e) (hb : 1 ≤ |b|)
    (hmin : f.minExponent ≤ d) (hmax : d < f.maxExponent) : Fits (x.div y) (f.round (a / b)) d := by
  have hne : b ≠ 0 := abs_pos.mp (one_pos.trans_le hb)
  have hbound : |a / b| ≤ 2 ^ d := by
    rw [abs_div]
    exact (div_le_self (abs_nonneg a) hb).trans hx.bound
  exact ⟨toRat_div hx.value hy.value hne (round_abs_lt hbound hmin hmax),
    Format.abs_round_le hbound (Format.representable_two_zpow hmin)⟩

theorem Fits.add {d k : ℤ} (hx : Fits x a d) (hy : Fits y b e) (hd : d ≤ k) (he : e ≤ k)
    (hmin : f.minExponent ≤ k + 1) (hmax : k + 1 < f.maxExponent) :
    Fits (x.add y) (f.round (a + b)) (k + 1) := by
  have hbound : |a + b| ≤ 2 ^ (k + 1) := by
    calc |a + b| ≤ |a| + |b| := abs_add_le a b
      _ ≤ 2 ^ k + 2 ^ k := add_le_add (hx.bound.trans (Format.zpow_le_zpow hd))
          (hy.bound.trans (Format.zpow_le_zpow he))
      _ = 2 ^ (k + 1) := by rw [Format.two_zpow_add, zpow_one]; ring
  exact ⟨toRat_add hx.value hy.value (round_abs_lt hbound hmin hmax),
    Format.abs_round_le hbound (Format.representable_two_zpow hmin)⟩

theorem exists_finite_of_ne (h : x.toRat = some a) (ha : a ≠ 0) :
    ∃ m : f.Magnitude, x = finite (decide (a < 0)) m ∧ m.1 ≠ 0 := by
  obtain ⟨s, m, rfl, rfl⟩ := exists_finite h
  have hm : m.1 ≠ 0 := fun h0 => ha (signed_eq_zero.mpr h0)
  have hpos : 0 < m.1 := lt_of_le_of_ne m.2.1 hm.symm
  refine ⟨m, ?_, hm⟩
  cases s <;> simp [signed, hpos, hpos.le]

theorem mul_infinite {t : Bool} (h : x.toRat = some a) (ha : a ≠ 0) :
    x.mul (infinite t) = infinite (decide (a < 0) ^^ t) := by
  obtain ⟨m, rfl, hm⟩ := exists_finite_of_ne h ha
  rw [mul, if_neg hm]

theorem infinite_mul {t : Bool} (h : x.toRat = some a) (ha : a ≠ 0) :
    mul (infinite t) x = infinite (t ^^ decide (a < 0)) := by
  obtain ⟨m, rfl, hm⟩ := exists_finite_of_ne h ha
  rw [mul, if_neg hm]

theorem add_infinite {t : Bool} (h : x.toRat = some a) : x.add (infinite t) = infinite t := by
  obtain ⟨s, m, rfl, -⟩ := exists_finite h
  rfl

theorem div_zero (h : x.toRat = some a) (ha : a ≠ 0) : x.div (ofInt 0) = infinite (decide (a < 0)) := by
  obtain ⟨m, rfl, hm⟩ := exists_finite_of_ne h ha
  have hzero : ∃ n : f.Magnitude, (ofInt 0 : Value f) = finite false n ∧ n.1 = 0 := by
    have hlt : f.round |((0 : ℤ) : ℚ)| < 2 ^ f.maxExponent := by simp [Format.two_zpow_pos]
    refine ⟨⟨_, magnitude_of_lt hlt⟩, ?_, by simp⟩
    simp only [ofInt, ofRat, ofExact, hlt, dite_true]
    simp
  obtain ⟨n, hn, hn0⟩ := hzero
  rw [hn, div, if_pos hn0, if_neg hm, Bool.xor_false]

theorem floor_le_of_le (h : q ≤ n) : ⌊q⌋ ≤ n :=
  Int.cast_le.mp ((Int.floor_le q).trans h)

theorem toInt_le {lo hi : ℤ} (h : x.toRat = some a) (hlo : lo ≤ -n) (ha : a ≤ -n) :
    x.toInt lo hi ≤ -n := by
  obtain ⟨s, m, rfl, rfl⟩ := exists_finite h
  have hwhole : (if s then -⌊m.1⌋ else ⌊m.1⌋) ≤ -n := by
    cases s with
    | false => exact floor_le_of_le (by push_cast; exact ha)
    | true => exact neg_le_neg (Int.le_floor.mpr (neg_le_neg_iff.mp ha))
  exact max_le hlo ((min_le_right _ _).trans hwhole)

theorem le_toInt {lo hi : ℤ} (h : x.toRat = some a) (hhi : n ≤ hi) (ha : n ≤ a) :
    n ≤ x.toInt lo hi := by
  obtain ⟨s, m, rfl, rfl⟩ := exists_finite h
  have hwhole : n ≤ if s then -⌊m.1⌋ else ⌊m.1⌋ := by
    cases s with
    | false => exact Int.le_floor.mpr ha
    | true => exact le_neg_of_le_neg (floor_le_of_le (by push_cast; exact le_neg_of_le_neg ha))
  exact le_max_of_le_right (le_min hhi hwhole)

theorem toInt_le_hi {lo hi : ℤ} (hlo : lo ≤ hi) (hhi : 0 ≤ hi) (x : Value f) : x.toInt lo hi ≤ hi := by
  cases x with
  | nan => exact hhi
  | infinite s => cases s <;> simp [toInt, hlo]
  | finite s m => exact max_le hlo (min_le_left _ _)

end Value

end Ironcat.Lib.FloatingPoint
