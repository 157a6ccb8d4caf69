import Ironcat.Lib.FloatingPoint
import Ironcat.WorkBounds

/-!
# The controller of CIP04

The feedback formula of `cip04.rs` in double precision, step by step as the
source evaluates it. Its sign follows the pace of the chain and its size is
bounded, so blocks that are slow by ten seconds or more lower the difficulty,
blocks that are fast by as much raise it, and no timestamps make the target
overflow.
-/

namespace Ironcat.PidController

open Lib.Checked Lib.FloatingPoint Lib.FloatingPoint.Format Lib.FloatingPoint.Value Types

abbrev F64 := Value binary64

def pidGains (error : ℤ) : F64 × F64 × F64 :=
  if -450 ≤ error ∧ error ≤ 450 then
    (.neg (.ofRat 0.005125), .neg (.ofRat 0.0225), .neg (.ofRat 0.0075))
  else (.neg (.ofRat 0.005125), .neg (.ofRat 0.0525), .neg (.ofRat 0.0075))

def pidResult (error avgTimespan targetSpacing : ℤ) : ℤ :=
  let (pGain, iGain, dGain) := pidGains error
  let errorF : F64 := .ofInt error
  let targetSpacingF : F64 := .ofInt targetSpacing
  let avgTimespanF : F64 := .ofInt avgTimespan
  let pCalc := pGain.mul errorF
  let iCalc := (iGain.mul errorF).mul (targetSpacingF.div avgTimespanF)
  let dCalc := (dGain.mul (errorF.div avgTimespanF)).mul iCalc
  let dResult := (pCalc.add iCalc).add dCalc
  (dResult.mul (.ofRat 65536)).toInt i64Min i64Max

example : pidResult 100 700 600 = -159842 := by decide +kernel

/-- The primitives with the controller of the source. -/
def withController (P : Primitives) : Primitives := { P with pidResult := pidResult }

abbrev fl (q : ℚ) : ℚ := binary64.round q

def pTerm (p e : ℚ) : ℚ := fl (p * e)

def iTerm (i e a s : ℚ) : ℚ := fl (fl (i * e) * fl (s / a))

def dTerm (i d e a s : ℚ) : ℚ := fl (fl (d * fl (e / a)) * iTerm i e a s)

def pidValue (p i d e a s : ℚ) : ℚ := fl (fl (fl (pTerm p e + iTerm i e a s) - dTerm i d e a s) * 65536)

structure Gains (p i d : ℚ) : Prop where
  p_ge : 2 ^ (-8 : ℤ) ≤ p
  p_le : p ≤ 2 ^ (-7 : ℤ)
  i_ge : 2 ^ (-6 : ℤ) ≤ i
  i_le : i ≤ 2 ^ (-4 : ℤ)
  d_ge : 2 ^ (-8 : ℤ) ≤ d
  d_le : d ≤ 2 ^ (-7 : ℤ)

theorem two_zpow64 {e : ℤ} (he : -1074 ≤ e) : binary64.Representable (2 ^ e) :=
  representable_two_zpow he

theorem pidGains_fits (error : ℤ) : ∃ p i d : ℚ, Gains p i d ∧
    Fits (pidGains error).1 (-p) (-7) ∧ Fits (pidGains error).2.1 (-i) (-4) ∧
    Fits (pidGains error).2.2 (-d) (-7) := by
  have hp : Fits (Value.ofRat 0.005125 : F64) (fl 0.005125) (-7) :=
    .ofExact (by norm_num [abs_of_pos]) (by decide) (by decide)
  have hd : Fits (Value.ofRat 0.0075 : F64) (fl 0.0075) (-7) :=
    .ofExact (by norm_num [abs_of_pos]) (by decide) (by decide)
  have hi : Fits (Value.ofRat 0.0225 : F64) (fl 0.0225) (-4) :=
    .ofExact (by norm_num [abs_of_pos]) (by decide) (by decide)
  have hi' : Fits (Value.ofRat 0.0525 : F64) (fl 0.0525) (-4) :=
    .ofExact (by norm_num [abs_of_pos]) (by decide) (by decide)
  have hgains : ∀ q : ℚ, 2 ^ (-6 : ℤ) ≤ q → q ≤ 2 ^ (-4 : ℤ) → Gains (fl 0.005125) (fl q) (fl 0.0075) := by
    intro q hge hle
    exact ⟨le_round (by norm_num) (two_zpow64 (by decide)), round_le (by norm_num) (two_zpow64 (by decide)),
      le_round hge (two_zpow64 (by decide)), round_le hle (two_zpow64 (by decide)),
      le_round (by norm_num) (two_zpow64 (by decide)), round_le (by norm_num) (two_zpow64 (by decide))⟩
  unfold pidGains
  split_ifs
  · exact ⟨_, _, _, hgains 0.0225 (by norm_num) (by norm_num), hp.neg, hi.neg, hd.neg⟩
  · exact ⟨_, _, _, hgains 0.0525 (by norm_num) (by norm_num), hp.neg, hi'.neg, hd.neg⟩

theorem fits_ofInt {n : ℤ} (hn : |n| ≤ 2 ^ 30) : Fits (Value.ofInt n : F64) n 30 := by
  have hrep : binary64.Representable n :=
    representable_intCast (hn.trans_lt (by decide)) (by decide)
  have hbound : |(n : ℚ)| ≤ 2 ^ (30 : ℤ) := by exact_mod_cast hn
  have h : Fits (Value.ofExact false n : F64) (fl n) 30 := .ofExact hbound (by decide) (by decide)
  rwa [fl, round_of_representable hrep] at h

theorem fits_scale : Fits (Value.ofRat 65536 : F64) 65536 16 := by
  have hrep : binary64.Representable 65536 := ⟨1, 16, by decide, by decide, by norm_num⟩
  have h : Fits (Value.ofExact false 65536 : F64) (fl 65536) 16 :=
    .ofExact (by norm_num [abs_of_pos]) (by decide) (by decide)
  rwa [fl, round_of_representable hrep] at h

theorem pidResult_eq {error avg spacing : ℤ} (he : |error| ≤ 2 ^ 30) (ha : |avg| ≤ 2 ^ 30)
    (hs : |spacing| ≤ 2 ^ 30) (hne : avg ≠ 0) : ∃ p i d : ℚ, Gains p i d ∧ ∃ x : F64,
      pidResult error avg spacing = x.toInt i64Min i64Max ∧
      x.toRat = some (-pidValue p i d error avg spacing) := by
  obtain ⟨p, i, d, hgains, hp, hi, hd⟩ := pidGains_fits error
  have hone : 1 ≤ |(avg : ℚ)| := by exact_mod_cast Int.one_le_abs hne
  have hquot := (fits_ofInt hs).div (fits_ofInt ha) hone (by decide) (by decide)
  have hratio := (fits_ofInt he).div (fits_ofInt ha) hone (by decide) (by decide)
  have hpCalc := hp.mul (fits_ofInt he) (by decide) (by decide)
  have hiCalc := (hi.mul (fits_ofInt he) (by decide) (by decide)).mul hquot (by decide) (by decide)
  have hdCalc := (hd.mul hratio (by decide) (by decide)).mul hiCalc (by decide) (by decide)
  have hsum := (hpCalc.add hiCalc (k := 60) (by decide) (by decide) (by decide) (by decide)).add hdCalc
    (k := 90) (by decide) (by decide) (by decide) (by decide)
  have htotal := hsum.mul fits_scale (by decide) (by decide)
  refine ⟨p, i, d, hgains, _, rfl, htotal.value.trans ?_⟩
  have hodd : ∀ x y : ℚ, fl (-x + y) = -fl (x - y) := fun x y => by
    rw [← round_neg, neg_sub, neg_add_eq_sub]
  simp only [pidValue, pTerm, iTerm, dTerm, neg_mul, round_neg, mul_neg, neg_neg, hodd, sub_neg_eq_add]

section Value

variable {p i d e a s x : ℚ}

theorem fl_nonpos (h : x ≤ 0) : fl x ≤ 0 := round_le h representable_zero

theorem fl_nonneg (h : 0 ≤ x) : 0 ≤ fl x := round_nonneg h

theorem le_fl_add {u v : ℚ} (hu : binary64.Representable u) (hv : binary64.Representable v)
    (hu0 : 0 ≤ u) (hv0 : 0 ≤ v) : (u + v) / 2 ≤ fl (u + v) := by
  have hleft : u ≤ fl (u + v) := le_round (le_add_of_nonneg_right hv0) hu
  have hright : v ≤ fl (u + v) := le_round (le_add_of_nonneg_left hu0) hv
  linarith

theorem dTerm_le (hg : Gains p i d) (he : 10 ≤ e) (hs : 1 ≤ s) (ha : a = e + s) (hbig : a ≤ 2 ^ (30 : ℤ)) :
    0 ≤ iTerm i e a s ∧ dTerm i d e a s ≤ iTerm i e a s / 2 := by
  have hpos : 0 < a := by linarith
  have hie : 2 ^ (-3 : ℤ) ≤ fl (i * e) := by
    refine le_round ?_ (two_zpow64 (by decide))
    have hi := hg.i_ge
    norm_num at hi ⊢
    nlinarith
  have hsa : 2 ^ (-30 : ℤ) ≤ fl (s / a) := by
    refine le_round ?_ (two_zpow64 (by decide))
    rw [le_div_iff₀ hpos]
    norm_num at hbig ⊢
    linarith
  have hI : 2 ^ (-33 : ℤ) ≤ iTerm i e a s := by
    refine le_round ?_ (two_zpow64 (by decide))
    rw [show (-33 : ℤ) = -3 + -30 by rfl, two_zpow_add]
    exact mul_le_mul hie hsa (two_zpow_pos _).le ((two_zpow_pos _).le.trans hie)
  have hI0 : 0 ≤ iTerm i e a s := (two_zpow_pos _).le.trans hI
  have hratio : fl (e / a) ≤ 1 := by
    refine round_le ?_ ⟨1, 0, by decide, by decide, by norm_num⟩
    rw [div_le_one hpos]
    linarith
  have hd0 : 0 ≤ d := (two_zpow_pos _).le.trans hg.d_ge
  have hdr : fl (d * fl (e / a)) ≤ 2 ^ (-7 : ℤ) := by
    refine round_le ?_ (two_zpow64 (by decide))
    exact (mul_le_of_le_one_right hd0 hratio).trans hg.d_le
  refine ⟨hI0, ?_⟩
  calc dTerm i d e a s ≤ fl (2 ^ (-7 : ℤ) * iTerm i e a s) :=
        round_mono (mul_le_mul_of_nonneg_right hdr hI0)
    _ ≤ 2 * (2 ^ (-7 : ℤ) * iTerm i e a s) := by
        refine round_le_two_mul ?_
        calc (2 : ℚ) ^ (-1074 : ℤ) ≤ 2 ^ (-7 + -33 : ℤ) := zpow_le_zpow (by decide)
          _ = 2 ^ (-7 : ℤ) * 2 ^ (-33 : ℤ) := two_zpow_add _ _
          _ ≤ 2 ^ (-7 : ℤ) * iTerm i e a s := mul_le_mul_of_nonneg_left hI (two_zpow_pos _).le
    _ ≤ iTerm i e a s / 2 := by norm_num; linarith

theorem pidValue_slow (hg : Gains p i d) (he : 10 ≤ e) (hs : 1 ≤ s) (ha : a = e + s)
    (hbig : a ≤ 2 ^ (30 : ℤ)) : 1280 ≤ pidValue p i d e a s := by
  obtain ⟨hI0, hD⟩ := dTerm_le hg he hs ha hbig
  have hP : 10 * 2 ^ (-8 : ℤ) ≤ pTerm p e := by
    refine le_round ?_ ⟨10, -8, by decide, by decide, by norm_num⟩
    have hp := hg.p_ge
    norm_num at hp ⊢
    nlinarith
  have hP0 : 0 ≤ pTerm p e := le_trans (by positivity) hP
  have hsum := le_fl_add (representable_round (p * e)) (representable_round _) hP0 hI0
  have hrest : 10 * 2 ^ (-9 : ℤ) ≤ fl (fl (pTerm p e + iTerm i e a s) - dTerm i d e a s) := by
    refine le_round ?_ ⟨10, -9, by decide, by decide, by norm_num⟩
    have hhalf : (pTerm p e + iTerm i e a s) / 2 ≤ fl (pTerm p e + iTerm i e a s) := hsum
    norm_num at hP ⊢
    linarith
  refine le_round ?_ ⟨1280, 0, by decide, by decide, by norm_num⟩
  norm_num at hrest ⊢
  linarith

theorem pidValue_fast (hg : Gains p i d) (he : e ≤ -10) (hs : 0 ≤ s) (ha : 0 < a) :
    pidValue p i d e a s ≤ -2560 := by
  have hi0 : 0 ≤ i := (two_zpow_pos _).le.trans hg.i_ge
  have hd0 : 0 ≤ d := (two_zpow_pos _).le.trans hg.d_ge
  have he0 : e ≤ 0 := by linarith
  have hP : pTerm p e ≤ -(10 * 2 ^ (-8 : ℤ)) := by
    refine round_le ?_ (representable_neg ⟨10, -8, by decide, by decide, by norm_num⟩)
    have hp := hg.p_ge
    norm_num at hp ⊢
    nlinarith
  have hI : iTerm i e a s ≤ 0 := fl_nonpos (mul_nonpos_of_nonpos_of_nonneg
    (fl_nonpos (mul_nonpos_of_nonneg_of_nonpos hi0 he0)) (fl_nonneg (div_nonneg hs ha.le)))
  have hD : 0 ≤ dTerm i d e a s := fl_nonneg (mul_nonneg_of_nonpos_of_nonpos
    (fl_nonpos (mul_nonpos_of_nonneg_of_nonpos hd0 (fl_nonpos (div_nonpos_of_nonpos_of_nonneg he0 ha.le)))) hI)
  have hsum : fl (pTerm p e + iTerm i e a s) ≤ pTerm p e :=
    round_le (add_le_of_nonpos_right hI) (representable_round _)
  have hrest : fl (fl (pTerm p e + iTerm i e a s) - dTerm i d e a s) ≤ -(10 * 2 ^ (-8 : ℤ)) :=
    round_le (by linarith) (representable_neg ⟨10, -8, by decide, by decide, by norm_num⟩)
  refine round_le ?_ (representable_neg ⟨2560, 0, by decide, by decide, by norm_num⟩)
  norm_num at hrest ⊢
  linarith

theorem abs_fl_le {k : ℤ} (hk : -1074 ≤ k) (h : |x| ≤ 2 ^ k) : |fl x| ≤ 2 ^ k :=
  abs_round_le h (two_zpow64 hk)

theorem abs_fl_le_two_mul (h : 2 ^ (-1074 : ℤ) ≤ |x|) : |fl x| ≤ 2 * |x| := by
  rw [fl, abs_round]
  exact round_le_two_mul h

theorem abs_iTerm_le (hg : Gains p i d) (he : 1 ≤ |e|) (ha : 1 ≤ |a|) (hea : |e| ≤ 601 * |a|)
    (hbig : |a| ≤ 2 ^ (30 : ℤ)) : |iTerm i e a 600| ≤ 2 ^ (17 : ℤ) := by
  have hi0 : 0 ≤ i := (two_zpow_pos _).le.trans hg.i_ge
  have hie : |fl (i * e)| ≤ |e| / 8 := by
    have hi := hg.i_ge
    have hle := hg.i_le
    have hmul : |i * e| = i * |e| := by rw [abs_mul, abs_of_nonneg hi0]
    have hlow : (2 : ℚ) ^ (-6 : ℤ) ≤ |i * e| := by
      rw [hmul]
      nlinarith
    refine (abs_fl_le_two_mul ((zpow_le_zpow (by decide)).trans hlow)).trans ?_
    rw [hmul]
    norm_num at hle
    nlinarith
  have hsa : |fl (600 / a)| ≤ 1200 / |a| := by
    have hdiv : |600 / a| = 600 / |a| := by rw [abs_div]; norm_num
    have hlow : (2 : ℚ) ^ (-30 : ℤ) ≤ |600 / a| := by
      rw [hdiv, le_div_iff₀ (by linarith)]
      norm_num at hbig ⊢
      linarith
    refine (abs_fl_le_two_mul ((zpow_le_zpow (by decide)).trans hlow)).trans_eq ?_
    rw [hdiv]
    ring
  refine abs_fl_le (by decide) ?_
  rw [abs_mul]
  calc |fl (i * e)| * |fl (600 / a)| ≤ |e| / 8 * (1200 / |a|) :=
        mul_le_mul hie hsa (abs_nonneg _) (by positivity)
    _ = 150 * (|e| / |a|) := by ring
    _ ≤ 150 * 601 := by
        refine mul_le_mul_of_nonneg_left ?_ (by norm_num)
        rwa [div_le_iff₀ (by linarith)]
    _ ≤ 2 ^ (17 : ℤ) := by norm_num

theorem abs_pidValue_le (hg : Gains p i d) (he : 1 ≤ |e|) (ha : 1 ≤ |a|) (hea : |e| ≤ 601 * |a|)
    (hbig : |a| ≤ 2 ^ (30 : ℤ)) (hbig' : |e| ≤ 2 ^ (30 : ℤ)) :
    |pidValue p i d e a 600| ≤ 2 ^ (41 : ℤ) := by
  have hI := abs_iTerm_le hg he ha hea hbig
  have hp0 : 0 ≤ p := (two_zpow_pos _).le.trans hg.p_ge
  have hd0 : 0 ≤ d := (two_zpow_pos _).le.trans hg.d_ge
  have hP : |pTerm p e| ≤ 2 ^ (23 : ℤ) := by
    refine abs_fl_le (by decide) ?_
    rw [abs_mul, abs_of_nonneg hp0, show (23 : ℤ) = -7 + 30 by rfl, two_zpow_add]
    exact mul_le_mul hg.p_le hbig' (abs_nonneg e) (two_zpow_pos _).le
  have hratio : |fl (e / a)| ≤ 2 ^ (10 : ℤ) := by
    refine abs_fl_le (by decide) ?_
    rw [abs_div, div_le_iff₀ (by linarith)]
    norm_num
    linarith
  have hdr : |fl (d * fl (e / a))| ≤ 2 ^ (3 : ℤ) := by
    refine abs_fl_le (by decide) ?_
    rw [abs_mul, abs_of_nonneg hd0, show (3 : ℤ) = -7 + 10 by rfl, two_zpow_add]
    exact mul_le_mul hg.d_le hratio (abs_nonneg _) (two_zpow_pos _).le
  have hD : |dTerm i d e a 600| ≤ 2 ^ (20 : ℤ) := by
    refine abs_fl_le (by decide) ?_
    rw [abs_mul, show (20 : ℤ) = 3 + 17 by rfl, two_zpow_add]
    exact mul_le_mul hdr hI (abs_nonneg _) (two_zpow_pos _).le
  have hsum : |fl (pTerm p e + iTerm i e a 600)| ≤ 2 ^ (24 : ℤ) := by
    refine abs_fl_le (by decide) ((abs_add_le _ _).trans ?_)
    norm_num at hP hI ⊢
    linarith
  have hrest : |fl (fl (pTerm p e + iTerm i e a 600) - dTerm i d e a 600)| ≤ 2 ^ (25 : ℤ) := by
    refine abs_fl_le (by decide) ((abs_sub _ _).trans ?_)
    norm_num at hsum hD ⊢
    linarith
  refine abs_fl_le (by decide) ?_
  rw [abs_mul, show (41 : ℤ) = 25 + 16 by rfl, two_zpow_add]
  exact mul_le_mul hrest (by norm_num) (abs_nonneg _) (two_zpow_pos _).le

end Value

section Result

variable {error avg spacing : ℤ}

theorem pidResult_slow (he : 10 ≤ error) (hs : 1 ≤ spacing) (ha : avg = error + spacing)
    (hbig : avg ≤ 2 ^ 30) : pidResult error avg spacing ≤ -1280 := by
  have hrange : ∀ n : ℤ, 0 ≤ n → n ≤ avg → |n| ≤ 2 ^ 30 := fun n h0 hn => by
    rw [abs_of_nonneg h0]
    exact hn.trans hbig
  obtain ⟨p, i, d, hg, x, hx, hvalue⟩ := pidResult_eq (hrange error (by omega) (by omega))
    (hrange avg (by omega) le_rfl) (hrange spacing (by omega) (by omega)) (by omega : avg ≠ 0)
  have hslow : 1280 ≤ pidValue p i d error avg spacing := by
    refine pidValue_slow hg ?_ ?_ ?_ ?_
    · exact_mod_cast he
    · exact_mod_cast hs
    · rw [ha]
      push_cast
      rfl
    · exact_mod_cast hbig
  rw [hx]
  exact toInt_le hvalue (by decide) (by push_cast; linarith)

theorem pidResult_zero (he : error < 0) (hbig : |error| ≤ 2 ^ 30) (hs : 1 ≤ spacing)
    (hspacing : |spacing| ≤ 2 ^ 30) : pidResult error 0 spacing = i64Max := by
  obtain ⟨p, i, d, hg, hp, hi, hd⟩ := pidGains_fits error
  have hneg : (error : ℚ) < 0 := by exact_mod_cast he
  have hspos : (0 : ℚ) < spacing := by exact_mod_cast hs
  have hd0 : 0 < d := (two_zpow_pos _).trans_le hg.d_ge
  have hie0 : 0 < fl (-i * error) := by
    refine (two_zpow_pos (-6)).trans_le (le_round ?_ (two_zpow64 (by decide)))
    have hle : (error : ℚ) ≤ -1 := by exact_mod_cast (by omega : error ≤ -1)
    have hige := hg.i_ge
    nlinarith [two_zpow_pos (-6)]
  have hiCalc : ((pidGains error).2.1.mul (ofInt error)).mul ((ofInt spacing).div (ofInt 0)) =
      infinite false := by
    have hie := hi.mul (fits_ofInt hbig) (by decide) (by decide)
    rw [div_zero (fits_ofInt hspacing).value hspos.ne', mul_infinite hie.value hie0.ne',
      decide_eq_false hie0.not_gt, decide_eq_false hspos.not_gt, Bool.xor_self]
  have hratio : (pidGains error).2.2.mul ((ofInt error).div (ofInt 0)) = infinite false := by
    rw [div_zero (fits_ofInt hbig).value hneg.ne, mul_infinite hd.value (neg_neg_iff_pos.mpr hd0).ne,
      decide_eq_true hneg, decide_eq_true (neg_neg_iff_pos.mpr hd0), Bool.xor_self]
  have hpCalc := hp.mul (fits_ofInt hbig) (by decide) (by decide)
  have hdCalc : mul (infinite false : F64) (infinite false) = infinite false := rfl
  have hsum : add (infinite false : F64) (infinite false) = infinite false := rfl
  have hscaled : mul (infinite false) (ofRat 65536 : F64) = infinite false := by
    rw [infinite_mul fits_scale.value (by norm_num)]
    norm_num
  simp only [pidResult, hiCalc, hratio, hdCalc, add_infinite hpCalc.value, hsum, hscaled]
  rfl

theorem pidResult_fast (he : error ≤ -10) (hs : 1 ≤ spacing) (ha : 0 ≤ avg)
    (hbig : |error| ≤ 2 ^ 30) (havg : |avg| ≤ 2 ^ 30) (hspacing : |spacing| ≤ 2 ^ 30) :
    2560 ≤ pidResult error avg spacing := by
  rcases ha.eq_or_lt with rfl | hpos
  · rw [pidResult_zero (by omega) hbig hs hspacing]
    decide
  · obtain ⟨p, i, d, hg, x, hx, hvalue⟩ := pidResult_eq hbig havg hspacing hpos.ne'
    have hfast : pidValue p i d error avg spacing ≤ -2560 := by
      refine pidValue_fast hg ?_ ?_ ?_
      · exact_mod_cast he
      · exact_mod_cast (by omega : 0 ≤ spacing)
      · exact_mod_cast hpos
    rw [hx]
    exact le_toInt hvalue (by decide) (by push_cast; linarith)

theorem pidResult_ge (ha : |avg| ≤ 2 ^ 29) (he : error = avg - 600) (hne : error ≠ 0) :
    -2 ^ 41 ≤ pidResult error avg 600 := by
  have ha' := abs_le.mp ha
  have hbig : |error| ≤ 2 ^ 30 := abs_le.mpr ⟨by omega, by omega⟩
  by_cases hzero : avg = 0
  · subst hzero
    rw [pidResult_zero (by omega) hbig (by decide) (by decide)]
    decide
  · obtain ⟨p, i, d, hg, x, hx, hvalue⟩ := pidResult_eq hbig (ha.trans (by decide))
      (by decide : |(600 : ℤ)| ≤ 2 ^ 30) hzero
    have havg1 : 1 ≤ |avg| := Int.one_le_abs hzero
    have hquot : |error| ≤ 601 * |avg| := by
      rw [he]
      have := abs_sub avg 600
      rw [abs_of_pos (by decide : (0 : ℤ) < 600)] at this
      omega
    have hle : |pidValue p i d error avg 600| ≤ 2 ^ (41 : ℤ) := by
      refine abs_pidValue_le hg ?_ ?_ ?_ ?_ ?_
      · exact_mod_cast Int.one_le_abs hne
      · exact_mod_cast havg1
      · exact_mod_cast hquot
      · exact_mod_cast ha.trans (by decide)
      · exact_mod_cast hbig
    rw [hx]
    refine le_toInt hvalue (by decide) ?_
    have := (abs_le.mp hle).2
    push_cast
    norm_num at this ⊢
    linarith

theorem pidResult_le (error avg spacing : ℤ) : pidResult error avg spacing ≤ i64Max :=
  toInt_le_hi (by decide) (by decide) _

end Result

end Ironcat.PidController
