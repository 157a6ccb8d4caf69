import Mathlib.Data.List.Forall2
import Mathlib.Data.List.NodupEquivFin

/-!
# Greedy ordered matching

To match every element of one list, in order, with an element of another, it is
enough to take the first partner each time.
-/

namespace Ironcat.Lib.OrderedMatch

open List

variable {α β : Type} {R : α → β → Prop}

def greedy (ok : α → β → Bool) : List α → List β → Bool
  | [], _ => true
  | _ :: _, [] => false
  | a :: as, b :: bs => if ok a b then greedy ok as bs else greedy ok (a :: as) bs

variable {as : List α} {bs : List β}

theorem tail_sublistForall₂ {a : α} (h : SublistForall₂ R (a :: as) bs) :
    SublistForall₂ R as bs := by
  induction bs with
  | nil => cases h
  | cons b bs ih =>
    cases h with
    | cons _ h => exact h.cons_right
    | cons_right h => exact (ih h).cons_right

theorem sublistForall₂_cons_iff {a : α} {b : β} (hab : R a b) :
    SublistForall₂ R (a :: as) (b :: bs) ↔ SublistForall₂ R as bs := by
  constructor
  · intro h
    cases h with
    | cons _ h => exact h
    | cons_right h => exact tail_sublistForall₂ h
  · exact SublistForall₂.cons hab

theorem sublistForall₂_cons_iff_of_not {a : α} {b : β} (hab : ¬ R a b) :
    SublistForall₂ R (a :: as) (b :: bs) ↔ SublistForall₂ R (a :: as) bs := by
  constructor
  · intro h
    cases h with
    | cons h _ => exact absurd h hab
    | cons_right h => exact h
  · exact SublistForall₂.cons_right

theorem greedy_iff {ok : α → β → Bool} :
    greedy ok as bs ↔ SublistForall₂ (fun a b => ok a b) as bs := by
  induction bs generalizing as with
  | nil =>
    cases as with
    | nil => exact iff_of_true rfl SublistForall₂.nil
    | cons a as => exact iff_of_false nofun nofun
  | cons b bs ih =>
    cases as with
    | nil => exact iff_of_true rfl SublistForall₂.nil
    | cons a as =>
      rw [greedy]
      split_ifs with hab
      · exact ih.trans (@sublistForall₂_cons_iff _ _ (fun a b => ok a b) _ _ _ _ hab).symm
      · exact ih.trans (@sublistForall₂_cons_iff_of_not _ _ (fun a b => ok a b) _ _ _ _ hab).symm

theorem sublistForall₂_iff_exists_orderEmbedding :
    SublistForall₂ R as bs ↔
      ∃ f : Fin as.length ↪o Fin bs.length, ∀ i, R (as.get i) (bs.get (f i)) := by
  rw [sublistForall₂_iff]
  constructor
  · rintro ⟨l, hl, hsub⟩
    obtain ⟨f, hf⟩ := sublist_iff_exists_fin_orderEmbedding_get_eq.mp hsub
    refine ⟨(Fin.castOrderIso hl.length_eq).toOrderEmbedding.trans f, fun i => ?_⟩
    have hget := hl.get i.isLt (hl.length_eq ▸ i.isLt)
    rw [hf] at hget
    exact hget
  · rintro ⟨f, hf⟩
    refine ⟨List.ofFn fun i => bs.get (f i), ?_, ?_⟩
    · rw [forall₂_iff_get]
      refine ⟨by simp, fun i h₁ h₂ => ?_⟩
      simpa using hf ⟨i, h₁⟩
    · rw [sublist_iff_exists_fin_orderEmbedding_get_eq]
      refine ⟨(Fin.castOrderIso (List.length_ofFn)).toOrderEmbedding.trans f, fun i => ?_⟩
      exact List.get_ofFn _ i

end Ironcat.Lib.OrderedMatch
