import Ironcat.BlockContext
import Ironcat.Lib.PairTree

/-!
# What a Merkle root identifies

`compute_merkle_root` hashes a last odd element with itself, so that different
lists can have the same root. It flags every level on which a complete pair is
made of equal hashes; two lists of the same depth that are not flagged have
different roots.
-/

namespace Ironcat.MerkleRoot

open Lib.PairTree Types BlockContext

variable {P : Primitives} {txids level : List Hash256}

/-- The hash of a node of the tree from those of its children. -/
def pairHash (P : Primitives) (pair : Hash256 × Hash256) : Hash256 :=
  P.doubleSha256 (pair.1.asBytes ++ pair.2.asBytes)

/-- The turns of the loop of `compute_merkle_root`. -/
def treeDepth (P : Primitives) : ℕ → List Hash256 → ℕ
  | 0, _ => 0
  | fuel+1, level =>
    if level.length ≤ 1 then 0 else treeDepth P fuel (BlockContext.nextLevel P level) + 1

/-- The pairs that `compute_merkle_root` hashes. -/
def hashedPairs (P : Primitives) (txids : List Hash256) : List (Hash256 × Hash256) :=
  combined (pairHash P) (treeDepth P txids.length txids) txids

theorem nextLevel_eq (P : Primitives) :
    ∀ level, BlockContext.nextLevel P level = Lib.PairTree.nextLevel (pairHash P) level
  | [] => rfl
  | [_] => rfl
  | a :: b :: level => by
    rw [BlockContext.nextLevel, nextLevel_eq P level]
    rfl

theorem hasEqualPair_iff : ∀ level, hasEqualPair level = true ↔ HasTwins level
  | [] => by simp [hasEqualPair, HasTwins]
  | [_] => by simp [hasEqualPair, HasTwins]
  | a :: b :: level => by simp [hasEqualPair, HasTwins, hasEqualPair_iff level]

theorem merkleLevels_eq (fuel : ℕ) (hfuel : level.length ≤ fuel) (hne : level ≠ [])
    (mutated : Bool) :
    ∃ root, ascend (pairHash P) (treeDepth P fuel level) level = [root] ∧
      (merkleLevels P fuel level mutated).1 = root ∧
      ((merkleLevels P fuel level mutated).2 = false ↔
        mutated = false ∧ ¬ TwinsBelow (pairHash P) (treeDepth P fuel level) level) := by
  induction fuel generalizing level mutated with
  | zero => exact absurd (List.length_eq_zero_iff.mp (Nat.le_zero.mp hfuel)) hne
  | succ fuel ih =>
    by_cases hone : level.length ≤ 1
    · obtain ⟨root, rfl⟩ : ∃ root, level = [root] := by
        refine List.length_eq_one_iff.mp (le_antisymm hone ?_)
        exact List.length_pos_iff.mpr hne
      exact ⟨root, by simp [treeDepth, ascend, merkleLevels, TwinsBelow]⟩
    · have hlen := length_nextLevel P level
      have hnext : BlockContext.nextLevel P level ≠ [] := by
        refine List.ne_nil_of_length_pos ?_
        omega
      obtain ⟨root, hascend, hroot, hflag⟩ := ih (by omega) hnext (mutated || hasEqualPair level)
      rw [nextLevel_eq] at hascend hflag
      refine ⟨root, ?_, ?_, ?_⟩
      · rw [treeDepth, if_neg hone, ascend, nextLevel_eq, hascend]
      · rw [merkleLevels, if_neg hone, hroot]
      · rw [merkleLevels, if_neg hone, treeDepth, if_neg hone, TwinsBelow, nextLevel_eq, hflag,
          Bool.or_eq_false_iff, ← hasEqualPair_iff, Bool.eq_false_iff, Bool.eq_false_iff]
        tauto

theorem computeMerkleRoot_eq (P : Primitives) (hne : txids ≠ []) :
    ∃ root, ascend (pairHash P) (treeDepth P txids.length txids) txids = [root] ∧
      (computeMerkleRoot P txids).1 = root ∧ ((computeMerkleRoot P txids).2 = false ↔
        ¬ TwinsBelow (pairHash P) (treeDepth P txids.length txids) txids) := by
  obtain ⟨root, hascend, hroot, hflag⟩ := merkleLevels_eq (P := P) txids.length le_rfl hne false
  rw [eq_self_iff_true, true_and] at hflag
  exact ⟨root, hascend, hroot, hflag⟩

/-- Where the hash of a node determines its children, a root determines the
lists of one depth that are not flagged, and a list without repetitions is not
flagged. -/
theorem merkle_root_identifies (P : Primitives) (txids txids' : List Hash256) (hne : txids ≠ [])
    (hne' : txids' ≠ [])
    (hinj : Set.InjOn (pairHash P) {p | p ∈ hashedPairs P txids ∨ p ∈ hashedPairs P txids'}) :
    ((computeMerkleRoot P txids).2 = false → (computeMerkleRoot P txids').2 = false →
      treeDepth P txids.length txids = treeDepth P txids'.length txids' →
      (computeMerkleRoot P txids).1 = (computeMerkleRoot P txids').1 → txids = txids') ∧
    (txids.Nodup → (computeMerkleRoot P txids).2 = false) := by
  obtain ⟨root, hascend, hroot, hflag⟩ := computeMerkleRoot_eq P hne
  obtain ⟨root', hascend', hroot', hflag'⟩ := computeMerkleRoot_eq P hne'
  unfold hashedPairs at hinj
  constructor
  · intro hmut hmut' hdepth heq
    rw [← hdepth] at hinj hascend' hflag'
    refine ascend_inj hinj (hflag.mp hmut) (hflag'.mp hmut') ?_
    rw [hascend, hascend', ← hroot, ← hroot', heq]
  · intro hnodup
    exact hflag.mpr (not_twinsBelow_of_nodup (hinj.mono fun p hp => .inl hp) hnodup)

theorem three_txids_identified :
    (computeMerkleRoot poly [1, 2, 3]).2 = false ∧ ((computeMerkleRoot poly [1, 2, 3]).1 =
        (computeMerkleRoot poly [1, 2, 4]).1 → ([1, 2, 3] : List Hash256) = [1, 2, 4]) := by
  -- a search through the two lists, not over all pairs of hashes
  let pairs := hashedPairs poly [1, 2, 3] ++ hashedPairs poly [1, 2, 4]
  have hsearch : (pairs.all fun p => pairs.all fun q =>
      pairHash poly p ≠ pairHash poly q ∨ p = q) = true := by decide +kernel
  have hinj : ∀ p ∈ pairs, ∀ q ∈ pairs, pairHash poly p = pairHash poly q → p = q := by
    intro p hp q hq heq
    have hpq := List.all_eq_true.mp (List.all_eq_true.mp hsearch p hp) q hq
    exact (of_decide_eq_true hpq).resolve_left (not_not_intro heq)
  have h := merkle_root_identifies poly [1, 2, 3] [1, 2, 4] (by decide) (by decide)
    (fun p hp q hq => hinj p (List.mem_append.mpr hp) q (List.mem_append.mpr hq))
  have hflag := h.2 (by decide)
  exact ⟨hflag, h.1 hflag (by decide +kernel) (by decide +kernel)⟩

end Ironcat.MerkleRoot
