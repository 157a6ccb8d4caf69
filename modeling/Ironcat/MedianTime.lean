import Ironcat.BlockContext
import Ironcat.Lib.OrderStatistic

/-!
# Median time past along a chain

The median time past of a block is an order statistic of the last eleven
timestamps. From one block to the next the window loses at most its first entry
and gains one above the median, so the median does not go down.
-/

namespace Ironcat.BlockContext

open Lib.OrderStatistic Difficulty

instance linearOrderUInt32 : LinearOrder UInt32 where
  le_refl := UInt32.le_refl
  le_trans _ _ _ := UInt32.le_trans
  lt_iff_le_not_ge a b := by
    rw [UInt32.lt_iff_toNat_lt, UInt32.le_iff_toNat_le, UInt32.le_iff_toNat_le]
    omega
  le_antisymm _ _ := UInt32.le_antisymm
  le_total := UInt32.le_total
  toDecidableLE := inferInstance
  toDecidableLT := inferInstance
  toDecidableEq := inferInstance

def medianWindow (height : ℕ) : List ℕ :=
  List.range' (height - (medianTimeSpan - 1)) (height + 1 - (height - (medianTimeSpan - 1)))

def timestampAt (chain : ChainLookup) (height : ℕ) : UInt32 := ((chain height).map Prod.fst).getD 0

variable {chain : ChainLookup} {height tip : ℕ}

theorem length_medianWindow_pos (height : ℕ) : 0 < (medianWindow height).length := by
  rw [medianWindow, List.length_range']
  omega

theorem le_of_mem_medianWindow {k : ℕ} (h : k ∈ medianWindow height) : k ≤ height := by
  rw [medianWindow, List.mem_range'_1] at h
  omega

theorem medianWindow_succ (height : ℕ) :
    ∃ d, medianWindow (height + 1) = (medianWindow height).drop d ++ [height + 1] ∧
      (medianWindow height).length ≤ (medianWindow (height + 1)).length := by
  have hspan : medianTimeSpan - 1 = 10 := rfl
  simp only [medianWindow, hspan, List.length_range']
  rcases Nat.lt_or_ge height 10 with hshort | hfull
  · refine ⟨0, ?_, by omega⟩
    rw [show height + 1 - 10 = 0 by omega, show height - 10 = 0 by omega, List.drop_zero,
      Nat.sub_zero, Nat.sub_zero, List.range'_concat, Nat.zero_add, Nat.one_mul]
  · obtain ⟨start, rfl⟩ := Nat.exists_eq_add_of_le' hfull
    refine ⟨1, ?_, by omega⟩
    rw [show start + 10 + 1 - 10 = start + 1 by omega, show start + 10 - 10 = start by omega,
      show start + 10 + 1 + 1 - (start + 1) = 10 + 1 by omega,
      show start + 10 + 1 - start = 10 + 1 by omega, List.range'_concat, List.drop_one,
      List.tail_range', Nat.add_sub_cancel, Nat.one_mul, Nat.add_right_comm]

theorem mapM_timestamps {heights : List ℕ} (h : ∀ k ∈ heights, (chain k).isSome) :
    (heights.mapM fun k => (chain k).map Prod.fst) = some (heights.map (timestampAt chain)) := by
  induction heights with
  | nil => rfl
  | cons k heights ih =>
    obtain ⟨hk, hrest⟩ := List.forall_mem_cons.mp h
    obtain ⟨header, hheader⟩ := Option.isSome_iff_exists.mp hk
    rw [List.mapM_cons, ih hrest, List.map_cons, timestampAt, hheader]
    rfl

theorem computeMedianTimePast_eq (h : ∀ k ≤ height, (chain k).isSome) :
    computeMedianTimePast chain height =
      orderStat ((medianWindow height).map (timestampAt chain)) ((medianWindow height).length / 2) := by
  have hwindow := mapM_timestamps fun k hk => h k (le_of_mem_medianWindow hk)
  rw [computeMedianTimePast]
  change (List.mapM _ (medianWindow height) >>= _) = _
  rw [hwindow, Option.bind_eq_bind, Option.bind_some, List.length_map]
  rfl

theorem computeMedianTimePast_isSome (h : ∀ k ≤ height, (chain k).isSome) :
    (computeMedianTimePast chain height).isSome := by
  have hpos := length_medianWindow_pos height
  rw [computeMedianTimePast_eq h]
  refine isSome_orderStat ?_
  rw [List.length_map]
  omega

/-- The rule of `check_block_context` keeps the median from going backwards. -/
theorem medianTimePast_mono (chain : ChainLookup) (tip : ℕ)
    (hchain : ∀ k ≤ tip, (chain k).isSome)
    (hrule : ∀ k < tip, ∀ mtp header, computeMedianTimePast chain k = some mtp →
      chain (k + 1) = some header → mtp < header.1) :
    ∀ height < tip, ∃ mtp mtp', computeMedianTimePast chain height = some mtp ∧
      computeMedianTimePast chain (height + 1) = some mtp' ∧ mtp ≤ mtp' := by
  intro height hlt
  have hbelow : ∀ k ≤ height, (chain k).isSome := fun k hk => hchain k (by omega)
  have hnext : ∀ k ≤ height + 1, (chain k).isSome := fun k hk => hchain k (by omega)
  obtain ⟨mtp, hmtp⟩ := Option.isSome_iff_exists.mp (computeMedianTimePast_isSome hbelow)
  obtain ⟨mtp', hmtp'⟩ := Option.isSome_iff_exists.mp (computeMedianTimePast_isSome hnext)
  obtain ⟨header, hheader⟩ := Option.isSome_iff_exists.mp (hnext (height + 1) le_rfl)
  have htime : ¬ timestampAt chain (height + 1) < mtp := by
    rw [timestampAt, hheader]
    exact not_lt_of_gt (hrule height hlt mtp header hmtp hheader)
  refine ⟨mtp, mtp', hmtp, hmtp', ?_⟩
  rw [computeMedianTimePast_eq hbelow] at hmtp
  rw [computeMedianTimePast_eq hnext] at hmtp'
  obtain ⟨d, hwindow, hlen⟩ := medianWindow_succ height
  refine orderStat_le hmtp hmtp' (Nat.div_le_div_right hlen) ?_
  -- the entry that comes in is not below the median
  rw [hwindow, List.map_append, List.countP_append, List.map_drop]
  have hdropped := (List.drop_sublist d ((medianWindow height).map (timestampAt chain))).countP_le
    (p := (· < mtp))
  simpa [htime] using hdropped

def unorderedChain : ChainLookup := fun height =>
  ([(1, 0), (5, 0), (8, 0), (6, 0)] : List (UInt32 × UInt32))[height]?

theorem unorderedChain_rule : ∀ k < 3, (computeMedianTimePast unorderedChain k).all fun mtp =>
    (unorderedChain (k + 1)).all fun header => mtp < header.1 := by
  decide +kernel

theorem unorderedChain_median : ∃ mtp mtp',
    computeMedianTimePast unorderedChain 2 = some mtp ∧
      computeMedianTimePast unorderedChain 3 = some mtp' ∧ mtp ≤ mtp' := by
  refine medianTimePast_mono unorderedChain 3 (by decide) ?_ 2 (by decide)
  intro k hk mtp header hmtp hheader
  have hrule := unorderedChain_rule k hk
  rw [hmtp, Option.all_some, hheader, Option.all_some] at hrule
  exact of_decide_eq_true hrule

end Ironcat.BlockContext
