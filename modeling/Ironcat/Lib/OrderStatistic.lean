import Mathlib.Data.List.Sort
import Mathlib.Tactic

/-!
# Order statistics

The entry at an index of the sorted list, and how it is bounded by counting the
entries below a value.
-/

namespace Ironcat.Lib.OrderStatistic

variable {α : Type} [LinearOrder α]

def orderStat (l : List α) (k : ℕ) : Option α := (l.insertionSort (· ≤ ·))[k]?

variable {k : ℕ}

theorem isSome_orderStat {l : List α} (h : k < l.length) : (orderStat l k).isSome := by
  rw [orderStat, List.getElem?_eq_getElem (by rwa [List.length_insertionSort])]
  rfl

theorem countP_lt_le {s : List α} (hs : s.Pairwise (· ≤ ·)) {x : α} (hx : s[k]? = some x) :
    s.countP (· < x) ≤ k := by
  induction s generalizing k with
  | nil => cases hx
  | cons a s ih =>
    obtain ⟨hhead, hs⟩ := List.pairwise_cons.mp hs
    cases k with
    | zero =>
      have hax : a = x := by simpa using hx
      subst hax
      rw [Nat.le_zero, List.countP_eq_zero]
      intro y hy
      rcases List.mem_cons.mp hy with rfl | hy
      · simp
      · simpa using hhead y hy
    | succ k =>
      rw [List.getElem?_cons_succ] at hx
      have hrest := ih hs hx
      rw [List.countP_cons]
      split_ifs <;> omega

theorem le_of_countP_le {s : List α} (hs : s.Pairwise (· ≤ ·)) {x y : α} (hy : s[k]? = some y)
    (hcount : s.countP (· < x) ≤ k) : x ≤ y := by
  by_contra hlt
  have hyx := lt_of_not_ge hlt
  obtain ⟨hk, rfl⟩ := List.getElem?_eq_some_iff.mp hy
  -- every entry up to index `k` is below `x`
  have hall : ∀ z ∈ s.take (k + 1), z < x := by
    intro z hz
    obtain ⟨j, hj, rfl⟩ := List.mem_take_iff_getElem.mp hz
    have hle : s[j] ≤ s[k] := by
      rcases Nat.lt_or_eq_of_le (Nat.le_of_lt_succ (lt_of_lt_of_le hj (min_le_left _ _))) with h | rfl
      · exact List.pairwise_iff_getElem.mp hs j k _ hk h
      · exact le_rfl
    exact hle.trans_lt hyx
  have hmany : k + 1 ≤ s.countP (· < x) := by
    have hsub := (List.take_sublist (k + 1) s).countP_le (p := (· < x))
    rw [List.countP_eq_length.mpr (by simpa using hall), List.length_take, min_eq_left hk] at hsub
    exact hsub
  omega

theorem orderStat_le {l l' : List α} {k' : ℕ} {x y : α} (hx : orderStat l k = some x)
    (hy : orderStat l' k' = some y) (hk : k ≤ k') (hcount : l'.countP (· < x) ≤ l.countP (· < x)) :
    x ≤ y := by
  have hsort := List.pairwise_insertionSort (· ≤ ·) l
  have hsort' := List.pairwise_insertionSort (· ≤ ·) l'
  refine le_of_countP_le hsort' hy ?_
  calc (l'.insertionSort (· ≤ ·)).countP (· < x)
      = l'.countP (· < x) := (List.perm_insertionSort (· ≤ ·) l').countP_eq _
    _ ≤ l.countP (· < x) := hcount
    _ = (l.insertionSort (· ≤ ·)).countP (· < x) :=
        ((List.perm_insertionSort (· ≤ ·) l).countP_eq _).symm
    _ ≤ k := countP_lt_le hsort hx
    _ ≤ k' := hk

end Ironcat.Lib.OrderStatistic
